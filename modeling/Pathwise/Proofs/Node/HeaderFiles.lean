import Pathwise.Proofs.Node.Fresh

/-!
# Header files and deparsers of nodes

A node declares a header type for every header that its parser extracts, keeps these headers in its
header structure, and writes those of them back that the definition writes back
(`Node.assemble_headers`).  If two of the headers have the same type, then the type is declared
twice.
-/

namespace Pathwise

open Steps Run List OrderedMap

/-! ### Layouts -/

namespace Layout

/-- Structures have different names, and so have the fields of a structure. -/
structure Tidy (l : Layout) : Prop where
  structs : l.structs.keys.Nodup
  fields : ∀ e ∈ l.structs.entries, e.2.keys.Nodup

/-- The fields of a structure, of which there are none if there is no such structure. -/
def fieldsOf (l : Layout) (name : String) : OrderedMap String String :=
  (l.structs.find? name).getD {}

theorem fields_nodup {nameRule : String} {typeOf : String → Report String} {parts : List Tree}
    {x : String × OrderedMap String String} {c c' : String}
    (h : fields nameRule typeOf parts c = .ok x c') : x.2.keys.Nodup := by
  refine foldlM_keeps (fun x => x.2.keys.Nodup) ?_ parts nodup_nil h
  rintro ⟨name, fs⟩ part c x c' hfs h
  obtain ⟨rule, _, h⟩ := bind_shape_eq_ok.mp h
  split at h
  · obtain ⟨_, _, rfl⟩ := bind_pure_eq_ok.mp h
    exact hfs
  · obtain ⟨field, _, h⟩ := bind_shape_eq_ok.mp h
    obtain ⟨_, _, h⟩ := bind_shape_eq_ok.mp h
    obtain ⟨type, _, rfl⟩ := bind_pure_eq_ok.mp h
    exact nodup_insert hfs field type

theorem collect_tidy {types : OrderedMap String String} {t : Tree} {l : Layout} {c c' : String}
    (h : collect types t c = .ok l c') :
    l.Tidy := by
  obtain ⟨parts, _, h⟩ := bind_shape_eq_ok.mp h
  obtain ⟨l', c1, hheaders, hstructs⟩ := bind_eq_ok.mp h
  have hempty : l'.structs = {} := by
    refine foldlM_keeps (fun l => l.structs = {}) (fun l t c l' c' hl h => ?_) parts rfl hheaders
    obtain ⟨rule, _, h⟩ := bind_shape_eq_ok.mp h
    split at h
    · obtain ⟨_, _, h⟩ := bind_shape_eq_ok.mp h
      obtain ⟨_, _, rfl⟩ := bind_pure_eq_ok.mp h
      exact hl
    · obtain ⟨rfl, _⟩ := pure_eq_ok.mp h
      exact hl
  refine foldlM_keeps Tidy (fun l t c l' c' hl h => ?_) parts ?_ hstructs
  · obtain ⟨rule, _, h⟩ := bind_shape_eq_ok.mp h
    split at h
    · obtain ⟨_, _, h⟩ := bind_shape_eq_ok.mp h
      obtain ⟨⟨name, fs⟩, hfs, rfl⟩ := bind_pure_eq_ok.mp h
      refine ⟨nodup_insert hl.structs _ _, fun e he => ?_⟩
      rcases mem_entries_insert he with rfl | he
      · exact @fields_nodup _ _ _ (name, _) _ _ hfs
      · exact hl.fields e he
    · obtain ⟨rfl, _⟩ := pure_eq_ok.mp h
      exact hl
  · exact ⟨by rw [hempty]; exact nodup_nil, by rw [hempty]; nofun⟩

theorem Tidy.fieldsOf {l : Layout} (h : l.Tidy) (name : String) : (l.fieldsOf name).keys.Nodup := by
  rw [Layout.fieldsOf]
  cases hfind : l.structs.find? name with
  | none => exact nodup_nil
  | some fs => exact h.fields _ (mem_entries_of_find? hfind)

end Layout

namespace Node

/-! ### Texts -/

/-- The declaration of a header type. -/
def declaration (l : Layout) (type : String) : String :=
  s!"header {type} \x7b\n" ++ fieldLines ((l.headers.find? type).getD {}).entries ++ "\x7d\n"

/-- The fields that are left in the header structure. -/
def keptFields (l : Layout) (headerType : String) (extracted : List String) :
    List (String × String) :=
  (l.fieldsOf headerType).entries.filter fun f => extracted.contains f.1

section

variable {l : Layout} {headerType x : String} {d d' : Draft} {u : Unit}

theorem headerText_eq_ok (h : headerText l headerType x d = .ok u d') :
    ∃ type, (l.fieldsOf headerType).find? x = some type ∧
    d'.text = d.text ++ declaration l type := by
  obtain ⟨fs, hfs, h⟩ := bind_fault_eq_ok.mp h
  have hfields : l.fieldsOf headerType = fs := by
    rw [Layout.struct] at hfs
    rw [Layout.fieldsOf]
    split at hfs
    · next hfind =>
      cases hfs
      rw [hfind]
      rfl
    · cases hfs
  rw [hfields]
  cases htype : fs.find? x with
  | none =>
    rw [htype] at h
    exact absurd h throw_ne_ok
  | some type =>
    rw [htype] at h
    refine ⟨type, rfl, ?_⟩
    obtain ⟨_, d1, hopen, h⟩ := bind_eq_ok.mp h
    cases hopen
    cases hheader : l.headers.find? type with
    | none =>
      rw [hheader] at h
      obtain ⟨_, _, h, _⟩ := bind_eq_ok.mp h
      exact absurd h throw_ne_ok
    | some fields =>
      rw [hheader] at h
      obtain ⟨_, d2, hlines, hclose⟩ := bind_eq_ok.mp h
      cases hlines
      cases hclose
      simp only [declaration, hheader, Option.getD_some, String.append_assoc]

theorem headersText_eq_ok :
    ∀ {xs : List String} {d d' : Draft} {u : Unit}, headersText l headerType xs d = .ok u d' →
    (∀ x ∈ xs, x ∈ (l.fieldsOf headerType).keys) ∧
      d'.text = d.text ++ String.join
        (xs.map fun x => declaration l (((l.fieldsOf headerType).find? x).getD "")) := by
  intro xs
  induction xs with
  | nil =>
    intro d d' u h
    cases h
    exact ⟨nofun, String.append_empty.symm⟩
  | cons x xs ih =>
    intro d d' u h
    obtain ⟨_, d1, hx, h⟩ := bind_eq_ok.mp h
    obtain ⟨type, htype, htext⟩ := headerText_eq_ok hx
    obtain ⟨hxs, htexts⟩ := ih h
    refine ⟨forall_mem_cons.mpr ⟨(mem_keys_iff _ x).mpr ⟨type, htype⟩, hxs⟩, ?_⟩
    rw [htexts, htext, map_cons, String.join_cons, htype, Option.getD_some, String.append_assoc]

theorem types_perm (hl : l.Tidy) {xs : List String} (hnodup : xs.Nodup)
    (hxs : ∀ x ∈ xs, x ∈ (l.fieldsOf headerType).keys) :
    xs.Perm ((keptFields l headerType xs).map (·.1)) ∧
      (xs.map fun x => ((l.fieldsOf headerType).find? x).getD "").Perm
        ((keptFields l headerType xs).map (·.2)) := by
  have hkeys := hl.fieldsOf headerType
  have hperm : xs.Perm ((keptFields l headerType xs).map (·.1)) := by
    refine (perm_ext_iff_of_nodup hnodup (List.Nodup.sublist (filter_sublist.map _) hkeys)).mpr
      fun x => ⟨fun hx => ?_, fun hx => ?_⟩
    · obtain ⟨type, htype⟩ := (mem_keys_iff _ x).mp (hxs x hx)
      refine mem_map.mpr ⟨(x, type), mem_filter.mpr ⟨mem_entries_of_find? htype, ?_⟩, rfl⟩
      exact contains_iff_mem.mpr hx
    · obtain ⟨f, hf, rfl⟩ := mem_map.mp hx
      exact contains_iff_mem.mp (mem_filter.mp hf).2
  refine ⟨hperm, (hperm.map _).trans (List.Perm.of_eq ?_)⟩
  rw [map_map]
  refine map_congr_left fun f hf => ?_
  rw [Function.comp_apply, (mem_entries_iff hkeys f.1 f.2).mp (mem_of_mem_filter hf),
    Option.getD_some]

end

/-! ### Files -/

/-- The parts of a node that are written for its headers. -/
def headerParts : List String := ["parser", "header", "deparser"]

theorem eq_of_part {s : Session} {w : Workspace} {node node' part part' : String} {q : Place}
    (hnode : '/' ∉ node.toList) (hnode' : '/' ∉ node'.toList) (hpart : part ∈ headerParts)
    (hpart' : part' ∈ headerParts) (h : s.disk.locate s.home (w.codeFile node part) = .ok q)
    (h' : s.disk.locate s.home (w.codeFile node' part') = .ok q) :
    node = node' ∧ part = part' := by
  have hendings : ∀ part ∈ headerParts, IsEnding part ∧ IsEnding ("_" ++ part) ∧
      ∀ part' ∈ headerParts, part ≠ part' → Differ ("_" ++ part) ("_" ++ part') := by decide
  obtain ⟨hending, hending', hdiffer⟩ := hendings part hpart
  by_cases hne : part = part'
  · subst hne
    exact ⟨eq_of_code hnode hnode' hending h h', rfl⟩
  · exact absurd (endsWith_of_code rfl (hendings part' hpart').2.1 h')
      ((endsWith_of_code rfl hending' h).not_of_differ (hdiffer part' hpart' hne))

/-- The place of a part of a node. -/
def IsPlace (s : Session) (w : Workspace) (node part : String) (q : Place) : Prop :=
  s.disk.locate s.home (w.codeFile node part) = .ok q

theorem IsPlace.eq {keep : Place → Prop} {s s' : Session} {w : Workspace} {node part : String}
    {q q' : Place} (hq : IsPlace s w node part q) (hkeep : KeepsFiles keep s s')
    (hq' : IsPlace s' w node part q') : q' = q :=
  Except.ok.inj (((hkeep.locate _ q').mp hq').symm.trans hq)

/-- **A loop that writes one part of every node** leaves the other parts alone, and writes the part
of a node in one round. -/
theorem loop_eq_ok {α β : Type} {w : Workspace} {s₀ s s' : Session} {part : String}
    {f : String × α → Run β} {xs : List (String × α)} {ys : List β} (hpart : part ∈ headerParts)
    (hslash : ∀ x ∈ xs, '/' ∉ x.1.toList) (hnodup : (xs.map (·.1)).Nodup)
    (hf : ∀ x (keep : Place → Prop), (∀ q, IsPlace s₀ w x.1 part q → ¬ keep q) →
      Leaves keep s₀ (f x))
    (hs : KeepsFiles (fun _ => False) s₀ s) (h : xs.mapM f s = .ok ys s') :
    KeepsFiles (fun _ => False) s₀ s' ∧
    (∀ x ∈ xs, ∀ part' ∈ headerParts, part ≠ part' → KeepsFiles (IsPlace s₀ w x.1 part') s s') ∧
    ∀ x ∈ xs, ∃ s1 s2, ∃ y ∈ ys, KeepsFiles (fun _ => False) s₀ s1 ∧
      KeepsFiles (IsPlace s₀ w x.1 part) s s1 ∧ f x s1 = .ok y s2 ∧
      KeepsFiles (IsPlace s₀ w x.1 part) s2 s' := by
  refine ⟨hs.trans ?_, fun x hx part' hpart' hne => ?_, fun x hx => ?_⟩
  · exact Leaves.sequential.mapM xs (fun x _ => hf x _ fun _ _ => id) s _ s' hs.home
      hs.directories h
  · refine Leaves.sequential.mapM xs (fun y hy => hf y _ fun q hq hkeep => ?_) s _ s' hs.home
      hs.directories h
    exact hne (eq_of_part (hslash y hy) (hslash x hx) hpart hpart' hq hkeep).2
  have hleaves : ∀ y ∈ xs, y.1 ≠ x.1 → Leaves (IsPlace s₀ w x.1 part) s₀ (f y) := fun y hy hne =>
    hf y _ fun q hq hkeep => hne (eq_of_part (hslash y hy) (hslash x hx) hpart hpart hq hkeep).1
  obtain ⟨front, back, rfl⟩ := append_of_mem hx
  rw [map_append, map_cons, nodup_middle, nodup_cons, ← map_append] at hnodup
  have hrest : ∀ y ∈ front ++ back, Leaves (IsPlace s₀ w x.1 part) s₀ (f y) := by
    intro y hy
    refine hleaves y ?_ fun heq => hnodup.1 (heq ▸ mem_map_of_mem hy)
    exact (mem_append.mp hy).elim (mem_append_left _) fun hy =>
      mem_append_right _ (mem_cons_of_mem x hy)
  rw [mapM_append] at h
  obtain ⟨ys1, s1, hfront, h⟩ := bind_eq_ok.mp h
  obtain ⟨ys2, hback, rfl⟩ := bind_pure_eq_ok.mp h
  rw [mapM_cons] at hback
  obtain ⟨y, s2, hy, hback⟩ := bind_eq_ok.mp hback
  obtain ⟨ys3, hlast, rfl⟩ := bind_pure_eq_ok.mp hback
  have h1 := Leaves.sequential.mapM front (fun y hy => hrest y (mem_append_left _ hy)) s _ s1
    hs.home hs.directories hfront
  have hs1 := hs.trans (h1.mono nofun)
  have hs2 := hs1.trans (hf x (fun _ => False) (fun _ _ => id) s1 _ s2 hs1.home hs1.directories hy)
  refine ⟨s1, s2, y, mem_append_right _ mem_cons_self, hs1, h1, hy, ?_⟩
  exact Leaves.sequential.mapM back (fun y hy => hrest y (mem_append_right _ hy)) s2 _ s' hs2.home
    hs2.directories hlast

theorem mapM_of_forM {α : Type} {f : α → Run PUnit} :
    ∀ {xs : List α} {s s' : Session} {u : PUnit}, xs.forM f s = .ok u s' →
      ∃ us, xs.mapM f s = .ok us s' := by
  intro xs
  induction xs with
  | nil =>
    intro s s' u h
    exact ⟨[], by cases h; rfl⟩
  | cons x xs ih =>
    intro s s' u h
    obtain ⟨u', s1, hx, h⟩ := bind_eq_ok.mp h
    obtain ⟨us, hus⟩ := ih h
    refine ⟨u' :: us, ?_⟩
    rw [mapM_cons]
    exact bind_eq_ok.mpr ⟨u', s1, hx, bind_pure_eq_ok.mpr ⟨us, hus, rfl⟩⟩

theorem draft_eq_ok {α : Type} {path : String} {x : Drafting α} {a : α} {s s' : Session}
    (h : Run.draft path x s = .ok a s') :
    ∃ q d, s.disk.locate s.home path = .ok q ∧ x ⟨s.console, ""⟩ = .ok a d ∧
      s'.disk.file? q = some ((s.disk.file? q).getD "" ++ d.text) := by
  obtain ⟨_, s1, hbegin, h⟩ := bind_eq_ok.mp h
  rw [get_bind] at h
  obtain ⟨q, hq, hsame, hempty⟩ := append_eq_ok hbegin
  have hconsole : s1.console = s.console := by
    obtain ⟨_, _, _, rfl⟩ := append_eq_ok_iff.mp hbegin
    rfl
  rw [hconsole] at h
  cases hx : x ⟨s.console, ""⟩ with
  | ok a' d =>
    rw [hx] at h
    obtain ⟨_, s2, hmodify, h⟩ := bind_eq_ok.mp h
    cases hmodify
    obtain ⟨_, happend, rfl⟩ := bind_pure_eq_ok.mp h
    obtain ⟨q', hq', _, hfile⟩ := append_eq_ok happend
    obtain rfl : q = q' := Except.ok.inj (hq.symm.trans (hsame.locate.mp hq'))
    refine ⟨q, d, hq, rfl, ?_⟩
    rw [hfile, hempty, Option.getD_some, String.append_empty]
  | error e d =>
    rw [hx] at h
    obtain ⟨_, _, _, h⟩ := bind_eq_ok.mp h
    obtain ⟨_, _, _, h⟩ := bind_eq_ok.mp h
    exact absurd h throw_ne_ok

theorem mem_extractedHeaders {t : PacketParser.Table} {h : String} :
    h ∈ PacketParser.extractedHeaders t ↔ ∃ e ∈ t.entries, e.2.extracted = some h := by
  rw [PacketParser.extractedHeaders, PacketParser.mem_union, OrderedMap.values, filterMap_map,
    mem_filterMap]
  simp

/-- What the files of a node hold behind the states `t` of its parser, if `s` is the session before
they are written. -/
structure HeadersFit (w : Workspace) (l : Layout) (sig : PacketParser.Signature)
    (deparser : List String) (constants : OrderedMap String String) (t : PacketParser.Table)
    (s s' : Session) (node : String) : Prop where
  /-- the parser that is written has these states -/
  parser : ∀ q, IsPlace s w node "parser" q →
    ∃ c d, PacketParser.tableText constants sig t ⟨c, ""⟩ = .ok () d ∧
    s'.disk.file? q = some ((s.disk.file? q).getD "" ++ d.text)
  /-- a header is left in the header structure if and only if one of the states extracts it -/
  fields : ∀ h, h ∈ (keptFields l sig.headerType (PacketParser.extractedHeaders t)).map (·.1) ↔
    ∃ e ∈ t.entries, e.2.extracted = some h
  /-- there is a declaration for every field, of the type that the field has -/
  header : ∃ types : List String, types.Perm
    ((keptFields l sig.headerType (PacketParser.extractedHeaders t)).map (·.2)) ∧
    ∀ q, IsPlace s w node "header" q → s'.disk.file? q =
      some (String.join (types.map (declaration l)) ++ structsText l sig.headerType
        (PacketParser.extractedHeaders t))
  /-- what the definition writes back is written back if a state extracts it -/
  deparser : ∀ q, IsPlace s w node "deparser" q → s'.disk.file? q =
    some ((s.disk.file? q).getD "" ++ deparserText sig.headerName deparser
      (PacketParser.extractedHeaders t))

/-- **Parsers, headers and deparsers that are written fit together**, if the names of nodes have no
slashes. -/
theorem writeDescribed_eq_ok {P : Plan} {used : List (String × List String)} {l : Layout}
    {tree : Tree} {sig : PacketParser.Signature} {deparser : List String}
    {constants : OrderedMap String String} {s s' : Session} {headerType : String} (hl : l.Tidy)
    (hnodup : (used.map (·.1)).Nodup)
    (h : writeDescribed P used l tree sig deparser constants s = .ok headerType s') :
    headerType = sig.headerType ∧
      ∃ table c, PacketParser.table constants sig l tree s.console = .ok table c ∧
      ((∀ e ∈ used, '/' ∉ e.1.toList) → ∀ e ∈ used, ∃ t, PacketParser.prune e.2 table = .ok t ∧
        HeadersFit P.workspace l sig deparser constants t s s' e.1) := by
  obtain ⟨table, s1, hlift, h⟩ := bind_eq_ok.mp h
  obtain ⟨c, htable, rfl⟩ := Run.report_eq_ok.mp hlift
  obtain ⟨xs, s2, hparsers, h⟩ := bind_eq_ok.mp h
  obtain ⟨_, s3, hheaders, h⟩ := bind_eq_ok.mp h
  obtain ⟨_, s4, hstructs, h⟩ := bind_eq_ok.mp h
  obtain ⟨_, hdeparsers, rfl⟩ := bind_pure_eq_ok.mp h
  obtain ⟨_, hheaders⟩ := mapM_of_forM hheaders
  obtain ⟨_, hstructs⟩ := mapM_of_forM hstructs
  obtain ⟨_, hdeparsers⟩ := mapM_of_forM hdeparsers
  refine ⟨rfl, table, c, htable, fun hslash e he => ?_⟩
  -- the nodes of the loops are the same, each once
  have hnames : xs.map (·.1) = used.map (·.1) := by
    refine map_eq_of_mapM (fun x s y s' h => ?_) used hparsers
    obtain ⟨_, _, h⟩ := bind_fault_eq_ok.mp h
    obtain ⟨_, _, rfl⟩ := bind_pure_eq_ok.mp h
    rfl
  have hslash' : ∀ x ∈ xs, '/' ∉ x.1.toList := by
    intro x hx
    obtain ⟨e, he, heq⟩ := mem_map.mp (hnames ▸ mem_map_of_mem hx)
    exact heq ▸ hslash e he
  have hnodup' : (xs.map (·.1)).Nodup := hnames ▸ hnodup
  have hs1 : KeepsFiles (fun _ => False) s { s with console := c } := ⟨rfl, rfl, nofun⟩
  obtain ⟨hs2, hothers2, hown2⟩ :=
    @loop_eq_ok _ _ P.workspace s _ s2 "parser" _ _ _ (by decide) hslash hnodup
    (fun _ _ hkeep => .bind (Leaves.sequential.fault _) fun _ => .bind (.draft hkeep _) fun _ =>
      .pure _) hs1 hparsers
  obtain ⟨hs3, hothers3, hown3⟩ :=
    @loop_eq_ok _ _ P.workspace s _ s3 "header" _ _ _ (by decide) hslash' hnodup'
    (fun _ _ hkeep => .bind (.create hkeep _) fun _ => .draft hkeep _) hs2 hheaders
  obtain ⟨hs4, hothers4, hown4⟩ :=
    @loop_eq_ok _ _ P.workspace s _ s4 "header" _ _ _ (by decide) hslash' hnodup'
    (fun _ _ hkeep => .append hkeep _) hs3 hstructs
  obtain ⟨_, hothers5, hown5⟩ :=
    @loop_eq_ok _ _ P.workspace s _ s' "deparser" _ _ _ (by decide) hslash' hnodup'
    (fun _ _ hkeep => .append hkeep _) hs4 hdeparsers
  obtain ⟨a2, b2, x, hx, hkeep2, ha2, hround2, hb2⟩ := hown2 e he
  obtain ⟨t, ht, hround2⟩ := bind_fault_eq_ok.mp hround2
  obtain ⟨_, hdraft2, rfl⟩ := bind_pure_eq_ok.mp hround2
  obtain ⟨a3, b3, _, _, hkeep3, ha3, hround3, hb3⟩ := hown3 _ hx
  obtain ⟨a4, b4, _, _, hkeep4, ha4, hround4, hb4⟩ := hown4 _ hx
  obtain ⟨a5, b5, _, _, hkeep5, ha5, hround5, hb5⟩ := hown5 _ hx
  refine ⟨t, ht, ?_⟩
  obtain ⟨_, c3, hcreate, hdraft3⟩ := bind_eq_ok.mp hround3
  obtain ⟨q3, hq3, hsame3, hfile3⟩ := create_eq_ok hcreate
  obtain ⟨q3', d3, hq3', htext3, hdrafted3⟩ := draft_eq_ok hdraft3
  obtain ⟨hdeclared, htext3⟩ := headersText_eq_ok htext3
  have hextracted : (PacketParser.extractedHeaders t).Nodup :=
    PacketParser.nodup_union _ _ nodup_nil
  obtain ⟨hperm, htypes⟩ := types_perm hl hextracted hdeclared
  refine ⟨fun q hq => ?_, fun h => ?_, ⟨_, htypes, fun q hq => ?_⟩, fun q hq => ?_⟩
  · obtain ⟨q', d, hq', htext, hfile⟩ := draft_eq_ok hdraft2
    obtain rfl := hq.eq hkeep2 hq'
    refine ⟨a2.console, d, htext, ?_⟩
    rw [(hothers5 _ hx "parser" (by decide) (by decide)).files _ hq,
      (hothers4 _ hx "parser" (by decide) (by decide)).files _ hq,
      (hothers3 _ hx "parser" (by decide) (by decide)).files _ hq, hb2.files _ hq, hfile,
      ha2.files _ hq]
  · rw [← hperm.mem_iff, mem_extractedHeaders]
  · obtain rfl := hq.eq hkeep3 hq3
    obtain rfl := hq.eq hkeep3 (hsame3.locate.mp hq3')
    obtain ⟨q4, hq4, _, hfile4⟩ := append_eq_ok hround4
    obtain rfl := hq.eq hkeep4 hq4
    rw [(hothers5 _ hx "header" (by decide) (by decide)).files _ hq, hb4.files _ hq, hfile4,
      ha4.files _ hq, hb3.files _ hq, hdrafted3, hfile3, Option.getD_some, Option.getD_some, htext3,
      String.empty_append, String.empty_append, map_map]
    rfl
  · obtain ⟨q5, hq5, _, hfile5⟩ := append_eq_ok hround5
    obtain rfl := hq.eq hkeep5 hq5
    rw [hb5.files _ hq, hfile5, ha5.files _ hq,
      (hothers4 _ hx "deparser" (by decide) (by decide)).files _ hq,
      (hothers3 _ hx "deparser" (by decide) (by decide)).files _ hq,
      (hothers2 e he "deparser" (by decide) (by decide)).files _ hq]

/--
**Header files and deparsers of nodes fit the parsers.**  When nodes are put together, the headers
that are left in the header structure of a node are those that its parser extracts; for each of them
there is a declaration of its type; and of the headers that the definition writes back, in the order
in which it does, those are written back that the parser extracts.
-/
theorem assemble_headers {w : Workspace} {relation : OrderedMap String RelationEntry}
    {services : OrderedMap String Service} {s s' : Session} {headerType : String}
    (h : assemble w relation services s = .ok headerType s') :
    ∃ P types s1 used l tree sig deparser s2 table c, IsPlan w relation services s P ∧
      describe P types s1 = .ok (used, l, tree, sig, deparser) s2 ∧ l.Tidy ∧
        headerType = sig.headerType ∧
      PacketParser.table s2.constants sig l tree s2.console = .ok table c ∧
      ((∀ n ∈ P.topology.keys, '/' ∉ n.toList) →
        ∀ node ∈ P.topology.keys, ∃ hs t, usedHeaders P node = .ok hs ∧
        PacketParser.prune hs table = .ok t ∧
          HeadersFit w l sig deparser s2.constants t s2 s' node) := by
  rw [assemble_eq] at h
  obtain ⟨⟨P, types⟩, s0, hplan, h⟩ := bind_eq_ok.mp h
  obtain ⟨_, s1, _, hparsers⟩ := bind_eq_ok.mp h
  have hisPlan := plan_eq_ok hplan
  rw [parsers_eq] at hparsers
  obtain ⟨⟨used, l, tree, sig, deparser⟩, s2, hdescribe, hwrite⟩ := bind_eq_ok.mp hparsers
  obtain ⟨hnames, hused, ⟨headers, c₀, c₁, hcollect⟩, _⟩ := describe_eq_ok hdescribe
  have hl := Layout.collect_tidy hcollect
  obtain ⟨rfl, table, c, htable, hfit⟩ :=
    writeDescribed_eq_ok hl (hnames ▸ hisPlan.nodup_keys) hwrite
  refine ⟨P, types, s1, used, l, tree, sig, deparser, s2, table, c, hisPlan, hdescribe, hl, rfl,
    htable, fun hslash node hnode => ?_⟩
  rw [← hnames] at hnode hslash
  obtain ⟨e, he, rfl⟩ := mem_map.mp hnode
  obtain ⟨t, ht, hfit⟩ := hfit (fun e he => hslash _ (mem_map_of_mem he)) e he
  exact ⟨e.2, t, hused e he, ht, hisPlan.workspace ▸ hfit⟩

/-- A parser that extracts two headers of one type, and the empty texts of two fragments. -/
def twinsDisk : Disk where
  files := [(["b", "include", "define.pne"], ""),
    (["b", "include", "header.pne"], "header t\x7bbit<8> f;\x7d struct c\x7bt x; t y;\x7d"),
    (["b", "include", "parser.pne"],
      "parser P(a b,c d,e f)\x7bstate start\x7bpkt.extract(d.x);transition n;\x7d" ++
      "state n\x7bpkt.extract(d.y);transition accept;\x7d" ++
      "deparser D\x7bpkt.emit(d.x);pkt.emit(d.y);\x7d\x7d"),
    (["b", "path", "path.json"],
      "\x7b\"s\":\x7b\"n\":\x7b\"next\":\x7b\x7d,\"tables\":1,\"ip\":1\x7d\x7d\x7d")] ++
    ["s_A_0", "s_A_1"].flatMap fun f => ["control", "action", "table", "entry", "tem",
      "reg"].map fun kind =>
      (["c", "component", f ++ "_" ++ kind ++ ".pne"], "")
  directories := pairDisk.directories

/-- The first of the two fragments reads the second header. -/
def twinsRelation : OrderedMap String RelationEntry :=
  ⟨[("s_A", .last 1), ("s_A_0", .fragment ⟨["hdr.y"], [], [], [], 0⟩),
    ("s_A_1", .fragment ⟨[], [], [], [], 0⟩)]⟩

def twinsServices : OrderedMap String Service :=
  ⟨[("s", ⟨"s", ["A"]⟩)]⟩

def twinsTest (headerType : String) (s : Session) : Bool :=
  let code := fun part => s.disk.file? ["c", "component", "code", "n_" ++ part]
  let declared := "header t \x7b\n    bit<8> f;\n\x7d\n"
  headerType = "c" && code "header" =
    some (declared ++ declared ++ "\nstruct c \x7b\n    t x;\n    t y;\n\x7d\n") &&
    code "deparser" =
      some "    apply\x7b \n        pkt.emit(d.x);\n        pkt.emit(d.y);\n    \x7d \n"

/-- Both headers are kept, and their type is declared twice. -/
theorem assemble_headers_twins : ∃ headerType s' l sig deparser constants t s₂,
    assemble (pairWorkspace "/b") twinsRelation twinsServices (.start twinsDisk []) =
      .ok headerType s' ∧
    twinsTest headerType s' = true ∧
      HeadersFit (pairWorkspace "/b") l sig deparser constants t s₂ s' "n" := by
  have htest : passes twinsTest
      (assemble (pairWorkspace "/b") twinsRelation twinsServices (.start twinsDisk [])) = true := by
    decide +kernel
  obtain ⟨headerType, s', hok, htest⟩ := exists_ok_of_passes htest
  obtain ⟨P, _, _, _, l, _, sig, deparser, s₂, _, _, hplan, _, _, _, _, hfit⟩ :=
    assemble_headers hok
  obtain ⟨file, _, survey, hfile, _, hsurvey, _, htopology⟩ := hplan.source
  have hnames :
      onlyGives (fun file => (Survey.ofJson file).toOption.all fun survey =>
      survey.topology.keys = ["n"])
      (Run.readJson ((pairWorkspace "/b").projectFile "path//path.json") (.start twinsDisk [])) =
        true := by
    decide +kernel
  have hkeys : P.topology.keys = ["n"] := by
    have hgives := of_onlyGives hnames hfile
    rw [hsurvey] at hgives
    exact htopology ▸ of_decide_eq_true hgives
  obtain ⟨_, t, _, _, hfit⟩ := hfit (by rw [hkeys]; decide) "n" (by rw [hkeys]; exact mem_cons_self)
  exact ⟨headerType, s', l, sig, deparser, s₂.constants, t, s₂, hok, htest, hfit⟩

end Node

end Pathwise
