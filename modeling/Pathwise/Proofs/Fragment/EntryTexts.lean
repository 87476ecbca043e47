import Pathwise.Node.Entries
import Pathwise.Proofs.Fragment.Visits
import Pathwise.Proofs.Json
import Pathwise.Proofs.Text

/-!
# Texts of entries

In the texts of entries nothing is written but entries, and the keys of an entry are different
(`Generation.ListsEntries`).  An entry is a line of its own, and the entry is read back from the
line (`Entry.parse_line`), so a text of entries tells the entries (`lines_entries`).
-/

namespace Pathwise

open Steps List

variable {g : Generation} {owner : String} {kind : TextKind} {ps : List Piece} {e : Entry}

/-! ### What is generated -/

/-- In texts of entries stand entries only, whose keys are different, and every fragment has such a
text. -/
structure Generation.ListsEntries (g : Generation) : Prop where
  entries : ∀ f, ∀ p ∈ g.written ⟨f, .entry⟩, ∃ e, p = .entry e ∧ e.keys.keys.Nodup
  begun : ∀ f r, g.relation.find? f = some (.fragment r) → (g.pieces? ⟨f, .entry⟩).isSome = true

def Generation.entriesOf (g : Generation) (f : String) : List Entry :=
  (g.written ⟨f, .entry⟩).filterMap readEntry?

theorem Generation.ListsEntries.written_eq (h : g.ListsEntries) (f : String) :
    g.written ⟨f, .entry⟩ = (g.entriesOf f).map .entry ∧
      ∀ e ∈ g.entriesOf f, e.keys.keys.Nodup := by
  have hall : ∀ ps : List Piece, (∀ p ∈ ps, ∃ e, p = .entry e ∧ e.keys.keys.Nodup) →
      ps = (ps.filterMap readEntry?).map .entry ∧
        ∀ e ∈ ps.filterMap readEntry?, e.keys.keys.Nodup := by
    intro ps
    induction ps with
    | nil => exact fun _ => ⟨rfl, by simp⟩
    | cons p ps ih =>
      intro hps
      obtain ⟨⟨e, rfl, he⟩, hrest⟩ := forall_mem_cons.mp hps
      obtain ⟨heq, hnodup⟩ := ih hrest
      refine ⟨?_, ?_⟩
      · rw [filterMap_cons_some (show readEntry? (.entry e) = some e from rfl), map_cons, ← heq]
      · rw [filterMap_cons_some (show readEntry? (.entry e) = some e from rfl)]
        exact forall_mem_cons.mpr ⟨he, hnodup⟩
  exact hall _ (h.entries f)

theorem Generation.isSome_addPieces (k : TextKey) (ps : List Piece) {k' : TextKey}
    (h : (g.pieces? k').isSome = true) :
    (({ g with texts := addPieces k ps g.texts } : Generation).pieces? k').isSome = true := by
  rw [pieces?_addPieces]
  split
  · rfl
  · exact h

theorem Generation.isSome_addPieces_self (g : Generation) (k : TextKey) (ps : List Piece) :
    (({ g with texts := addPieces k ps g.texts } : Generation).pieces? k).isSome = true := by
  rw [pieces?_addPieces, if_pos rfl]
  rfl

namespace Gen

/-- The step keeps texts of entries to entries. -/
def Lists {α : Type} (x : Gen α) (Q : α → Prop) : Prop :=
  ∀ g a g', g.ListsEntries → x g = .ok a g' → g'.ListsEntries ∧ Q a

namespace Lists

variable {α β : Type} {x : Gen α} {Q Q' : α → Prop}

theorem imp (hx : Lists x Q) (h : ∀ a, Q a → Q' a) : Lists x Q' := by
  intro g a g' hg hok
  obtain ⟨hg', ha⟩ := hx g a g' hg hok
  exact ⟨hg', h a ha⟩

theorem pure {a : α} (ha : Q a) : Lists (pure a) Q := by
  intro g b g' hg h
  obtain ⟨rfl, rfl⟩ := pure_eq_ok.mp h
  exact ⟨hg, ha⟩

theorem bind {k : α → Gen β} {R : β → Prop} (hx : Lists x Q) (hk : ∀ a, Q a → Lists (k a) R) :
    Lists (x >>= k) R := by
  intro g b g' hg h
  obtain ⟨a, g1, h1, h2⟩ := bind_eq_ok.mp h
  obtain ⟨hg1, ha⟩ := hx g a g1 hg h1
  exact hk a ha g1 b g' hg1 h2

theorem of_eq (hx : ∀ g a g', x g = .ok a g' → g'.texts = g.texts ∧ g'.relation = g.relation) :
    Lists x fun _ => True := by
  intro g a g' hg h
  obtain ⟨htexts, hrelation⟩ := hx g a g' h
  have hpieces : ∀ k, g'.pieces? k = g.pieces? k := fun k => by
    rw [Generation.pieces?, Generation.pieces?, htexts]
  refine ⟨⟨fun f p hp => hg.entries f p ?_, fun f r hr => ?_⟩, trivial⟩
  · rwa [Generation.written, hpieces] at hp
  · rw [hpieces]
    exact hg.begun f r (hrelation ▸ hr)

theorem emit
    (hps : kind = .entry → ∀ p ∈ ps, ∃ e, p = .entry e ∧ e.keys.keys.Nodup) :
    Lists (Gen.emit ⟨owner, kind⟩ ps) fun _ => True := by
  intro g u g' hg h
  obtain rfl := emit_eq_ok h
  refine ⟨⟨fun f p hp => ?_, fun f r hr => ?_⟩, trivial⟩
  · rw [written_addPieces] at hp
    rcases mem_append.mp hp with hp | hp
    · exact hg.entries f p hp
    · unfold only at hp
      split at hp
      · next hk => exact hps (congrArg TextKey.kind hk).symm p hp
      · cases hp
  · exact Generation.isSome_addPieces _ _ (hg.begun f r hr)

theorem code (hkind : kind ≠ .entry) :
    Lists (Gen.emit ⟨owner, kind⟩ ps) fun _ => True :=
  emit fun h => absurd h hkind

theorem declareVars (vars bound : OrderedMap String String) (stem : String) :
    Lists (Emit.declareVars vars bound stem) fun _ => True := by
  refine .bind (.of_eq fun g a g' h => ?_) fun s _ => ?_
  · obtain ⟨_, rfl⟩ := get_eq_ok.mp h
    exact ⟨rfl, rfl⟩
  · split
    · exact .pure trivial
    · refine .bind (.of_eq fun g a g' h => ?_) fun _ _ =>
        .bind (.of_eq fun g a g' h => ?_) fun _ _ => ?_
      · obtain rfl := modify_eq_ok.mp h
        exact ⟨rfl, rfl⟩
      · simp only [Emit.resolveTypes, bind_eq_ok, get_eq_ok, pure_eq_ok] at h
        obtain ⟨_, _, ⟨_, rfl⟩, _, rfl⟩ := h
        exact ⟨rfl, rfl⟩
      · exact .bind (.code (by decide)) fun _ _ => .pure trivial

theorem record {name : String} {change : Relation → Relation} :
    Lists (Gen.record name change) fun _ => True := by
  intro g u g' hg h
  obtain ⟨r0, hr0, rfl⟩ := record_eq_ok h
  refine ⟨⟨hg.entries, fun f r hr => ?_⟩, trivial⟩
  have hr : (g.relation.insert name (.fragment (change r0))).find? f = some (.fragment r) := hr
  rw [OrderedMap.find?_insert] at hr
  by_cases hf : f = name
  · exact hf ▸ hg.begun name r0 hr0
  · exact hg.begun f r (by simpa [hf] using hr)

theorem onlyReports {x : Gen α} (hx : OnlyReports x) : Lists x fun _ => True :=
  of_eq fun g u g' h => by
    obtain ⟨_, rfl, _⟩ := hx.eq_ok h
    exact ⟨rfl, rfl⟩

end Lists

/-- **Steps write entries only**, where entries belong. -/
def listing (modules : OrderedMap String Module) (f : String) : Judgement modules f where
  holds H x Q := H → Lists x Q
  isScope _ := True
  allowed _ := True
  used _ := True
  isScope_append _ _ := trivial
  allowed_append _ _ := trivial
  used_of_not_isStored _ := trivial
  imp hx hH hQ hH' := (hx (hH hH')).imp fun a => hQ a hH'
  pure ha hH := .pure (ha hH)
  bind hx hk hH := .bind (hx hH) fun a ha => hk a ⟨hH, ha⟩
  stopped hx _ := fun g a g' _ h => absurd h (hx.ne_ok g a g')
  onlyReports hx _ := .onlyReports hx
  typeOf _ _ := .of_eq fun g a g' h => by
    obtain ⟨_, _, hget, h⟩ := bind_eq_ok.mp h
    obtain ⟨_, rfl⟩ := get_eq_ok.mp hget
    obtain ⟨_, rfl⟩ := pure_eq_ok.mp h
    exact ⟨rfl, rfl⟩
  drawTable _ _ := .imp (.of_eq fun g a g' h => by
    obtain ⟨_, rfl⟩ := eq_of_drawTable h
    exact ⟨rfl, rfl⟩) fun _ => id
  drawAction _ _ := .of_eq fun g a g' h => by
    obtain ⟨_, rfl⟩ := eq_of_drawAction h
    exact ⟨rfl, rfl⟩
  recordInput _ _ := .record
  recordOutput _ _ := .record
  recordTable _ := .record
  recordModule _ _ := .record
  recordScope _ _ := .record
  emitBefore hkind hrest _ hH := .bind (.code hkind.2) fun _ _ => hrest hH
  emitEntries _ hes hH := .emit fun _ p hp => by
    obtain ⟨e, he, rfl⟩ := mem_map.mp hp
    exact ⟨e, rfl, hes hH e he⟩
  emitVars _ _ := .code (by decide)
  declareVars _ _ := .declareVars _ _ _
  compress hkind _ := by
    refine .bind (.code hkind.2) fun _ _ =>
      .bind (.onlyReports (.report (firstOf_blind _))) fun _ _ =>
      .bind (Q := fun _ => True) ?_ fun _ _ => .code hkind.2
    exact .bind (.onlyReports (.report (Scope.resolve_blind _ _))) fun _ _ =>
      .bind (.code hkind.2) fun _ _ => .pure trivial
  copy _ _ _ := .code (by decide)

theorem openTexts_eq_ok (f : String) (kinds : List TextKind) : ∀ {g g' : Generation} {u : PUnit},
    (forIn kinds PUnit.unit (fun kind _ => do
      Gen.emit ⟨f, kind⟩ []
      Pure.pure (ForInStep.yield PUnit.unit)) : Gen PUnit) g = .ok u g' →
    g'.relation = g.relation ∧ (∀ k, g'.written k = g.written k) ∧
      (∀ k, (g.pieces? k).isSome = true → (g'.pieces? k).isSome = true) ∧
      ∀ kind ∈ kinds, (g'.pieces? ⟨f, kind⟩).isSome = true := by
  induction kinds with
  | nil =>
    intro g g' u h
    obtain ⟨_, rfl⟩ := pure_eq_ok.mp h
    exact ⟨rfl, fun _ => rfl, fun _ => id, forall_mem_nil _⟩
  | cons kind kinds ih =>
    intro g g' u h
    rw [forIn_cons, bind_assoc] at h
    obtain ⟨_, g1, h1, h2⟩ := bind_eq_ok.mp h
    rw [pure_bind] at h2
    obtain ⟨hrelation, hwritten, hbegun, hkinds⟩ := ih h2
    obtain rfl := emit_eq_ok h1
    refine ⟨hrelation, fun k => ?_, fun k hk => hbegun k (Generation.isSome_addPieces _ _ hk), ?_⟩
    · rw [hwritten, written_addPieces, only, ite_self, append_nil]
    · exact forall_mem_cons.mpr ⟨hbegun _ (Generation.isSome_addPieces_self _ _ _), hkinds⟩

theorem beginFragment_lists (stem : String) (n : Nat) :
    Lists (Emit.beginFragment stem n) fun _ => True := by
  intro g f g' hg h
  obtain ⟨_, g1, hmodify, h⟩ := bind_eq_ok.mp h
  obtain rfl := modify_eq_ok.mp hmodify
  obtain ⟨_, hopen, rfl⟩ := bind_pure_eq_ok.mp h
  obtain ⟨hrelation, hwritten, hbegun, hkinds⟩ := openTexts_eq_ok _ _ hopen
  refine ⟨⟨fun f p hp => hg.entries f p ?_, fun f r hr => ?_⟩, trivial⟩
  · rwa [hwritten] at hp
  · rw [hrelation] at hr
    simp only [OrderedMap.find?_insert] at hr
    split at hr
    · next hf => exact hf ▸ hkinds .entry (by simp)
    · split at hr
      · cases hr
      · exact hbegun _ (hg.begun f r hr)

theorem block_lists (depth : Nat) (sc : Scope) (level : Nat) (inAction : Bool) (is : List Ins)
    (n a : Nat) :
    Lists (Emit.block (runJob depth) sc ⟨looseFragment, level, inAction⟩ ⟨true, n, a⟩ is)
      fun _ => True :=
  (listing sc.modules looseFragment).topBlock depth ⟨rfl, trivial⟩ level inAction (fun _ => True)
    (fun n _ _ => beginFragment_lists sc.stem n)
      (fun f _ i _ _ => (listing sc.modules f).instructionAt depth ⟨rfl, trivial⟩ _ _ i) is n
      a True trivial

theorem visit_lists (p : Program) (v : String × String) : Lists (visit p v) fun _ => True := by
  unfold visit
  split
  · exact fun g a g' _ h => absurd h throw_ne_ok
  · exact .bind (.declareVars _ _ _) fun vars _ => block_lists _ _ _ _ _ 0 0

theorem visits_lists (p : Program) (vs : List (String × String)) :
    ∀ {g g' : Generation} {u : PUnit}, g.ListsEntries → vs.forM (visit p) g = .ok u g' →
      g'.ListsEntries := by
  induction vs with
  | nil =>
    intro g g' u hg h
    exact forM_nil_eq_ok.mp h ▸ hg
  | cons v vs ih =>
    intro g g' u hg h
    obtain ⟨g1, h1, h2⟩ := forM_cons_eq_ok.mp h
    exact ih (visit_lists p v g _ g1 hg h1).1 h2

end Gen

/-! ### Entries as lines -/

/-- Named texts as fields. -/
def fieldsOf (ps : List (String × String)) : List (String × Json) :=
  ps.map fun p => (p.1, .arr [.str p.2])

namespace Entry

def namedParams (e : Entry) : List (String × String) :=
  e.params.zipIdx.map fun x => (paramName x.2, x.1)

theorem toJson_eq (e : Entry) :
    e.toJson = .obj [("table", .str e.table), ("match", .obj (fieldsOf e.keys.entries)),
    ("action_name", .str e.action), ("action_params", .obj (fieldsOf e.namedParams))] := by
  rw [toJson, namedParams, fieldsOf, fieldsOf, map_map]
  rfl

theorem nodup_namedParams (e : Entry) : (e.namedParams.map (·.1)).Nodup := by
  have hnames : e.namedParams.map (·.1) = (List.range' 0 e.params.length).map paramName := by
    rw [namedParams, ← zipIdx_map_snd, map_map, map_map]
    rfl
  rw [hnames]
  exact (nodup_range').map fun _ _ => paramName_inj

theorem toJson_textual (h : e.keys.keys.Nodup) (room : Nat) : Json.Textual (room + 3) e.toJson := by
  have hfields : ∀ {ps : List (String × String)}, (ps.map (·.1)).Nodup →
      Json.Textual (room + 2) (.obj (fieldsOf ps)) := by
    intro ps hnames
    refine .obj (fun f hf => ?_) ?_
    · obtain ⟨p, _, rfl⟩ := mem_map.mp hf
      exact .arr (forall_mem_singleton.mpr (.str room p.2))
    · rw [fieldsOf, map_map]
      exact hnames
  rw [toJson_eq]
  refine .obj ?_ (by simp)
  simp only [forall_mem_cons]
  exact ⟨.str _ _, hfields h, .str _ _, hfields e.nodup_namedParams, forall_mem_nil _⟩

theorem parse_line (h : e.keys.keys.Nodup) : Json.parse e.line = .ok e.toJson := by
  have hparse := (Json.compact_layout true).parse_text (toJson_textual h 972) ['\n']
    (forall_mem_singleton.mpr rfl)
  rwa [String.ofList_append, String.ofList_toList] at hparse

theorem line_eq (h : e.keys.keys.Nodup) :
    ∃ cs : List Char, e.line = String.ofList (cs ++ ['\n']) ∧ '\n' ∉ cs ∧ '\r' ∉ cs := by
  have hvisible := (Json.compact_layout true).visible (toJson_textual h 0) 0
  refine ⟨(e.toJson.compact true).toList, by rw [String.ofList_append, String.ofList_toList]; rfl,
    fun hmem => ?_, fun hmem => ?_⟩
  · exact absurd (hvisible _ hmem) (by decide)
  · exact absurd (hvisible _ hmem) (by decide)

theorem long_line (e : Entry) : Node.isBlankEntry e.line = false := by
  have hname : (Json.writeString true "table").length = 7 := by decide
  have hmarks : "\x7b".length = 1 ∧ ": ".length = 2 ∧ ", ".length = 2 := by decide
  rw [Node.isBlankEntry, decide_eq_false_iff_not, line, toJson, Json.compact, Json.compactFields]
  · simp only [String.length_append, hname, hmarks]
    omega
  · simp

end Entry

theorem Piece.render_entries_cons (e : Entry) (es : List Entry) :
    render ((e :: es).map .entry) = e.line ++ render (es.map .entry) := by
  rw [render, render, map_cons, map_cons, String.join_cons]
  rfl

theorem lines_entries {es : List Entry} (h : ∀ e ∈ es, e.keys.keys.Nodup) :
    Text.lines (Piece.render (es.map .entry)) = es.map Entry.line ∧
      '\r' ∉ (Piece.render (es.map .entry)).toList := by
  induction es with
  | nil => exact ⟨rfl, by decide⟩
  | cons e es ih =>
    obtain ⟨he, hes⟩ := forall_mem_cons.mp h
    obtain ⟨hlines, hreturn⟩ := ih hes
    obtain ⟨cs, hline, hfeed, hcs⟩ := Entry.line_eq he
    rw [Piece.render_entries_cons, map_cons]
    refine ⟨?_, ?_⟩
    · rw [hline, Text.lines_line hfeed, hlines]
    · rw [String.toList_append, mem_append, hline, String.toList_ofList, mem_append, mem_singleton]
      rintro ((hmem | hmem) | hmem)
      · exact hcs hmem
      · cases hmem
      · exact hreturn hmem

end Pathwise
