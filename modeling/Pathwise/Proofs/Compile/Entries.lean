import Pathwise.Proofs.Compile.Generated
import Pathwise.Proofs.Node.Assembled
import Pathwise.Proofs.Target.EntryFiles

/-!
# Entries from generation to output

The entries that are generated for a fragment stand in the file of the fragment
(`Runner.Compiled.entries`), nodes are put together from these files, and the output is read from
the nodes' files.  So the entry file of a software switch has all entries that were generated for
its fragments, and nothing of them is changed but the next hop.
-/

namespace Pathwise

open Steps List

variable {f headerType : String} {u : Unit}

theorem Json.str_mem_items {j v : Json} {k : String} (h : j.get k = .ok v) {names : List Json}
    (hnames : j.items = .ok names) :
    .str k ∈ names := by
  cases j with
  | obj fields =>
    obtain rfl : fields.map (fun f => Json.str f.1) = names := Except.ok.inj hnames
    rw [get] at h
    cases hfield : fields.lookup k with
    | none =>
      rw [hfield] at h
      cases h
    | some v' =>
      obtain ⟨before, after, rfl, _⟩ := lookup_eq_some_iff.mp hfield
      simp
  | _ => cases h

theorem Piece.render_append (ps qs : List Piece) : render (ps ++ qs) = render ps ++ render qs := by
  apply String.toList_injective
  simp [render]

namespace Runner

variable {r r' : Runner} {stages : List Stage}

/-! ### The entries of fragments -/

/-- The entries that were generated for a fragment, by all stages. -/
def generated (stages : List Stage) (f : String) : List Entry :=
  stages.flatMap fun stage => stage.generation.entriesOf f

theorem Compiled.listsEntries (h : Compiled r stages r') {stage : Stage} (hstage : stage ∈ stages) :
    stage.generation.ListsEntries := by
  obtain ⟨text, console, _, hrun⟩ := h.run hstage
  obtain ⟨d, hvisits, _⟩ := generation_eq_ok hrun
  refine Gen.visits_lists _ _ ⟨fun f p hp => ?_, fun f rel hrel => ?_⟩ hvisits
  · cases hp
  · cases hrel

theorem Compiled.nodup_keys (h : Compiled r stages r') (f : String) :
    ∀ e ∈ generated stages f, e.keys.keys.Nodup := by
  intro e he
  obtain ⟨stage, hstage, he⟩ := mem_flatMap.mp he
  exact ((h.listsEntries hstage).written_eq f).2 e he

theorem Compiled.written_eq (h : Compiled r stages r') (f : String) :
    (stages.flatMap fun stage => stage.generation.written ⟨f, .entry⟩) =
      (generated stages f).map .entry := by
  rw [generated, map_flatMap]
  refine flatMap_congr fun stage hstage => ?_
  exact ((h.listsEntries hstage).written_eq f).1

theorem addTo_getD (g : Generation) (k : TextKey) (old : Option String) :
    (g.addTo k old).getD "" = old.getD "" ++ Piece.render (g.written k) ∧
      (old.isSome = true ∨ (g.pieces? k).isSome = true → (g.addTo k old).isSome = true) := by
  rw [Generation.addTo, Generation.written]
  cases g.pieces? k with
  | none => exact ⟨String.append_empty.symm, fun h => h.resolve_right (by decide)⟩
  | some ps => exact ⟨rfl, fun _ => rfl⟩

theorem foldl_addTo_getD (k : TextKey) (stages : List Stage) : ∀ old : Option String,
    (stages.foldl (fun old stage => stage.generation.addTo k old) old).getD "" =
      old.getD "" ++ Piece.render (stages.flatMap fun stage => stage.generation.written k) ∧
    (old.isSome = true ∨ (∃ stage ∈ stages, (stage.generation.pieces? k).isSome = true) →
      (stages.foldl (fun old stage => stage.generation.addTo k old) old).isSome = true) := by
  induction stages with
  | nil =>
    intro old
    exact ⟨String.append_empty.symm, fun h => h.resolve_right fun ⟨_, hstage, _⟩ => by cases hstage⟩
  | cons stage stages ih =>
    intro old
    obtain ⟨hfirst, hfirstSome⟩ := addTo_getD stage.generation k old
    obtain ⟨hrest, hrestSome⟩ := ih (stage.generation.addTo k old)
    rw [foldl_cons, flatMap_cons]
    refine ⟨?_, ?_⟩
    · rw [hrest, hfirst, Piece.render_append, String.append_assoc]
    · rintro (hold | ⟨other, hother, hsome⟩)
      · exact hrestSome (.inl (hfirstSome (.inl hold)))
      · rcases mem_cons.mp hother with rfl | hother
        · exact hrestSome (.inl (hfirstSome (.inr hsome)))
        · exact hrestSome (.inr ⟨other, hother, hsome⟩)

theorem exists_stage_of_allRelation {entry : RelationEntry}
    (h : (allRelation stages).find? f = some entry) :
    ∃ stage ∈ stages, stage.generation.relation.find? f = some entry := by
  refine foldlRecOn (motive := fun m : OrderedMap String RelationEntry => m.find? f = some entry →
    ∃ stage ∈ stages, stage.generation.relation.find? f = some entry) stages _ (fun h => by cases h)
      (fun m hm stage hstage h => ?_) h
  rw [find?_addNew, Option.or_eq_some_iff] at h
  rcases h with h | ⟨_, h⟩
  · exact hm h
  · exact ⟨stage, hstage, h⟩

/-- No entries of fragments are there yet. -/
def NoEntryTexts (r : Runner) : Prop :=
  ∀ f, '/' ∉ f.toList → ∀ q, r.session.place?
    (r.workspace.componentFile (TextKey.fileName ⟨f, .entry⟩)) = some q →
    r.session.disk.file? q = none

/-- **The file of a fragment holds the entries that were generated for it**, and nothing else. -/
theorem Compiled.entries (h : Compiled r stages r') (hr : r.NoEntryTexts)
    (hplain : ∀ stage ∈ stages, stage.generation.Plain) {rel : Relation}
    (hf : (allRelation stages).find? f = some (.fragment rel)) :
    Run.read (r'.workspace.componentFile (TextKey.fileName ⟨f, .entry⟩)) r'.session =
      .ok (Piece.render ((generated stages f).map .entry)) r'.session := by
  obtain ⟨stage, hstage, hrel⟩ := exists_stage_of_allRelation hf
  have hbegun := (h.listsEntries hstage).begun f rel hrel
  have hk : TextKey.IsPlain ⟨f, .entry⟩ := hplain stage hstage _ hbegun
  obtain ⟨q, hq⟩ : ∃ q, r.session.place?
    (r.workspace.componentFile (TextKey.fileName ⟨f, .entry⟩)) = some q := by
    obtain ⟨r1, r2, hsteady, hdrafted⟩ := h.drafted hstage
    rw [Generation.pieces?, Option.isSome_map, find?_isSome] at hbegun
    obtain ⟨⟨k, ps⟩, ht, hkey⟩ := hbegun
    obtain rfl : k = ⟨f, .entry⟩ := of_decide_eq_true hkey
    obtain ⟨q, hq, _⟩ := hdrafted.writable _ (mem_map.mpr ⟨_, ht, rfl⟩)
    refine ⟨q, ?_⟩
    rw [← hsteady.workspace, ← hsteady.place?]
    exact Session.place?_eq_some.mpr hq
  obtain ⟨htext, hsome⟩ := foldl_addTo_getD ⟨f, .entry⟩ stages none
  have hfile : r'.session.disk.file? q = some (Piece.render ((generated stages f).map .entry)) := by
    rw [h.file hplain hk hq, hr f hk q hq]
    obtain ⟨text, hfold⟩ := Option.isSome_iff_exists.mp (hsome (.inr ⟨stage, hstage, hbegun⟩))
    rw [hfold] at htext ⊢
    rw [Option.getD_some, h.written_eq] at htext
    rw [htext]
    exact congrArg some (String.empty_append)
  have hsteady := h.steady
  refine Run.read_eq_ok.mpr ⟨_, Run.readRaw_eq_ok.mpr ⟨q, ?_, hfile, rfl⟩, ?_⟩
  · rw [← Session.place?_eq_some, hsteady.place?, hsteady.workspace]
    exact hq
  · rw [Text.unifyLineEnds, if_neg]
    simpa using (lines_entries (h.nodup_keys f)).2

/-! ### A cleaned directory -/

/-- No entries of nodes are there yet. -/
def NoNodeEntries (r : Runner) : Prop :=
  ∀ node, '/' ∉ node.toList → ∀ q, r.session.place? (r.workspace.codeFile node "entry") = some q →
    r.session.disk.file? q = none

theorem NoNodeEntries.of_steady (hr : r.NoNodeEntries) (h : Steady (EndsWith · "_entry") r r') :
    r'.NoNodeEntries := by
  intro node hnode q hq
  rw [h.place?, h.workspace] at hq
  rw [h.files.files q (endsWith_of_code (by decide) (by decide) (Session.place?_eq_some.mp hq)),
    hr node hnode q hq]

theorem removeFilesIn_all {dir : String} (names : List String) : ∀ {r r' : Runner} {u : PUnit},
    names.forM (fun name => (liftM (Run.removeFilesIn (dir ++ name)) : Compiling Unit)) r =
      .ok u r' →
    r'.workspace = r.workspace ∧ KeepsFiles
      (fun q => r.session.disk.file? q = none) r.session r'.session ∧
    ∀ name ∈ names, ∀ p, r.session.disk.locate r.session.home (dir ++ name) = .ok p → ∀ last,
      r'.session.disk.file? (p ++ [last]) = none := by
  induction names with
  | nil =>
    intro r r' u h
    obtain rfl := forM_nil_eq_ok.mp h
    exact ⟨rfl, .refl _ _, forall_mem_nil _⟩
  | cons name names ih =>
    intro r r' u h
    obtain ⟨r1, hfirst, hrest⟩ := forM_cons_eq_ok.mp h
    obtain ⟨s, hremove, rfl⟩ := lift_eq_ok.mp hfirst
    obtain ⟨p, hp, -, hhome, hdirs, hfiles⟩ := Run.removeFilesIn_eq_ok hremove
    obtain ⟨hworkspace, hkeeps, hgone⟩ := ih hrest
    have hkeeps1 : KeepsFiles (fun q => r.session.disk.file? q = none) r.session s := by
      refine ⟨hhome, hdirs, fun q hq => ?_⟩
      rw [hfiles q, hq, ite_self]
    refine ⟨hworkspace, hkeeps1.trans (hkeeps.mono fun q hq => (hkeeps1.files q hq).trans hq),
      forall_mem_cons.mpr ⟨fun p' hp' last => ?_, fun other hother p' hp' last => ?_⟩⟩
    · obtain rfl : p = p' := Except.ok.inj (hp.symm.trans hp')
      have hfile : s.disk.file? (p ++ [last]) = none := by
        rw [hfiles, if_pos]
        exact ⟨dropLast_concat, concat_ne_nil _ _⟩
      rw [hkeeps.files _ hfile, hfile]
    · exact hgone other hother p' ((hkeeps1.locate _ _).mpr hp') last

/-- **After cleaning there are no entries**, neither of fragments nor of nodes. -/
theorem clean_eq_ok (h : clean r = .ok u r') : r'.NoEntryTexts ∧ r'.NoNodeEntries := by
  obtain ⟨_, r1, hget, h⟩ := bind_eq_ok.mp h
  obtain ⟨rfl, rfl⟩ := get_eq_ok.mp hget
  obtain ⟨hworkspace, hkeeps, hgone⟩ := removeFilesIn_all _ h
  refine ⟨fun f hf q hq => ?_, fun node hnode q hq => ?_⟩
  · have hname := TextKey.IsPlain.fileName (k := ⟨f, .entry⟩) hf
    rw [hworkspace] at hq
    obtain ⟨p, hp, rfl⟩ := Disk.locate_inside r.workspace.component_ne_empty hname.1 hname.2
      ((hkeeps.locate _ _).mp (Session.place?_eq_some.mp hq))
    refine hgone "" (by simp) p ?_ _
    rwa [String.append_empty]
  · have hpath : r.workspace.codeFile node "entry" = r.workspace.component ++ "//code" ++ "//" ++
        (node ++ "_entry") := by
      rw [Workspace.codeFile]
      simp only [String.append_assoc]
      rfl
    have hdir : r.workspace.component ++ "//code" ≠ "" := by
      intro hempty
      have hlist := congrArg String.toList hempty
      rw [String.toList_append] at hlist
      simp at hlist
    have hname : '/' ∉ (node ++ "_entry").toList ∧ 2 < (node ++ "_entry").toList.length := by
      rw [String.toList_append, mem_append, length_append, not_or]
      exact ⟨⟨hnode, by decide⟩, Nat.lt_add_left _ (by decide)⟩
    rw [hworkspace, hpath] at hq
    obtain ⟨p, hp, rfl⟩ := Disk.locate_inside hdir hname.1 hname.2
      ((hkeeps.locate _ _).mp (Session.place?_eq_some.mp hq))
    exact hgone "//code" (by simp) p hp _

/-! ### From the configuration to the output -/

/-- The step goes on with the same directories, and leaves the files that end so alone. -/
def Preserves (ending : String) {α : Type} (x : Compiling α) : Prop :=
  ∀ r a r', x r = .ok a r' → r'.workspace = r.workspace ∧
    KeepsFiles (EndsWith · ending) r.session r'.session

theorem readServices_preserves {ending : String} (hmain : Differ mainEnding ending) :
    Preserves ending readServices := by
  have hclosed : Closed (Preserves ending) :=
    .of_trans (fun _ => ⟨rfl, .refl _ _⟩) fun h h' => ⟨h'.1.trans h.1, h.2.trans h'.2⟩
  have hlift : ∀ {α : Type} {x : Run α}, (∀ s0, Run.Leaves (EndsWith · ending) s0 x) →
      Preserves ending (liftM x : Compiling α) :=
    fun hx r a r' h => ⟨(Spares.lift hx r a r' h).workspace, (Spares.lift hx r a r' h).files⟩
  refine hclosed.readServices (fun _ => hlift fun _ => .read _)
    (fun _ => hlift fun _ => .readJson _) (fun j r a r' h => ?_)
    fun w user text => hlift fun s0 => .create (fun q hq => ?_) text
  · obtain rfl := modify_eq_ok.mp h
    exact ⟨rfl, .refl _ _⟩
  · have hpath : w.componentFile ("main//" ++ user ++ mainEnding) = w.component ++ "//" ++
        ("main//" ++ user) ++ mainEnding := by
      rw [Workspace.componentFile, ← String.append_assoc]
    rw [hpath] at hq
    exact Run.not_endsWith (by decide) hmain q hq

section

variable {ending : String} (hending : Untouched ending)
  (hkinds : ∀ kind : TextKind, Differ kind.ending ending)

include hending hkinds

theorem compileUsers_spares (users : List Json)
    (acc : OrderedMap String Service × OrderedMap String RelationEntry) :
    Spares ending (users.foldlM compileUser acc) :=
  (Spares.closed ending).foldlM users
    (fun acc user _ => (Spares.closed ending).compileUser (userProgram_spares hending)
    (fun p r a r' h => by
      obtain ⟨g, hdraft, _⟩ := generate_eq_ok h
      exact draft_steady hending hkinds hdraft) acc user) acc

end

/--
Programs are generated one after another where no entries were before, then all nodes are put
together, and their programs are written to a directory.
-/
structure Pipeline (r₀ : Runner) (stages : List Stage) (r₁ r₃ : Runner)
    (directory : String) : Prop where
  cleared : r₀.NoEntryTexts
  compiled : Compiled r₀ stages r₁
  bare : r₁.NoNodeEntries
  finished : ∃ headerType r₂ r₂', assemble (allServices stages)
    (allRelation stages) r₁ = .ok headerType r₂ ∧
    Steady (EndsWith · "_entry") r₂ r₂' ∧ r₂'.output = .str directory ∧
      writeOutput headerType r₂' = .ok () r₃

theorem assemble_eq_ok {services : OrderedMap String Service}
    {relation : OrderedMap String RelationEntry}
    (h : assemble services relation r = .ok headerType r') :
    ∃ s, KeepsFiles (fun _ => True) r.session s ∧
      Node.assemble r.workspace relation services s = .ok headerType r'.session ∧
      r'.workspace = r.workspace := by
  obtain ⟨_, r1, hfirst, h⟩ := bind_eq_ok.mp h
  obtain ⟨s, hprint, rfl⟩ := lift_eq_ok.mp hfirst
  rw [get_bind] at h
  obtain ⟨s', hassemble, rfl⟩ := lift_eq_ok.mp h
  exact ⟨s, Run.Leaves.print _ _ _ _ rfl rfl hprint, hassemble, rfl⟩

theorem writeOutput_eq_ok (h : writeOutput headerType r = .ok u r') :
    ∃ directory topology s, r.output = .str directory ∧ KeepsFiles (fun _ => True) r.session s ∧
      Target.write r.workspace headerType directory topology s = .ok () r'.session ∧
        r'.topology = some topology ∧
      ∃ s0, Target.topology r.workspace s0 = .ok topology s := by
  obtain ⟨_, r1, hfirst, h⟩ := bind_eq_ok.mp h
  obtain ⟨s, hprint, rfl⟩ := lift_eq_ok.mp hfirst
  rw [get_bind] at h
  obtain ⟨topology, r3, hsecond, h⟩ := bind_eq_ok.mp h
  obtain ⟨s1, htopology, rfl⟩ := lift_eq_ok.mp hsecond
  have hleaves : Run.Leaves (fun _ => True) s (Target.topology r.workspace) :=
    have h := Run.Leaves.sequential
    h.bind (.report _) fun _ => h.bind (.readJson _) fun t => h.bind (h.mismatch _) fun names =>
      h.bind (h.forM _ fun n _ => h.bind (h.mismatch _) fun _ => h.pure _) fun _ => h.pure _
  have hkeeps : KeepsFiles (fun _ => True) r.session s1 :=
    (Run.Leaves.print _ _ _ _ rfl rfl hprint).trans (hleaves s topology s1 rfl rfl htopology)
  dsimp only at h
  cases houtput : r.output with
  | str directory =>
    rw [houtput] at h
    obtain ⟨_, r4, hthird, h⟩ := bind_eq_ok.mp h
    obtain ⟨s2, hwrite, rfl⟩ := lift_eq_ok.mp hthird
    obtain rfl := modify_eq_ok.mp h
    exact ⟨directory, topology, s1, rfl, hkeeps, hwrite, rfl, s, htopology⟩
  | _ =>
    rw [houtput] at h
    exact absurd h throw_ne_ok

theorem pipeline_of_compileServices (htexts : r.NoEntryTexts) (hnodes : r.NoNodeEntries)
    (h : compileServices r = .ok () r') :
    ∃ r0 stages r1 r3 directory, Pipeline r0 stages r1 r3 directory ∧ r0.workspace = r.workspace ∧
      KeepsFiles (EndsWith · "_entry.json") r3.session r'.session := by
  obtain ⟨users, r0, hread, h⟩ := bind_eq_ok.mp h
  obtain ⟨⟨services, relation⟩, r1, husers, h⟩ := bind_eq_ok.mp h
  obtain ⟨headerType, r2, hassemble, h⟩ := bind_eq_ok.mp h
  rw [get_bind] at h
  obtain ⟨_, r2', hlog, h⟩ := bind_eq_ok.mp h
  obtain ⟨_, r3, hwrite, hend⟩ := bind_eq_ok.mp h
  obtain ⟨stages, hcompiled, _, rfl, rfl⟩ := compileUsers_compiled husers
  obtain ⟨directory, _, _, houtput, _⟩ := writeOutput_eq_ok hwrite
  have hlogs : ∀ {ending : String}, Untouched ending → ∀ (w : Workspace) (text : String),
      Spares ending (liftM (Forest.log w text) : Compiling Unit) :=
    fun hending w text => .lift fun s0 => log_leaves hending w s0 text
  obtain ⟨hworkspace, htext⟩ :=
    readServices_preserves (show Differ mainEnding (TextKind.ending .entry) by decide) r
    users r0 hread
  obtain ⟨_, hentry⟩ := readServices_preserves (show Differ mainEnding "_entry" by decide) r
    users r0 hread
  have hentry1 : Steady (EndsWith · "_entry") r0 r1 :=
    compileUsers_spares (by decide) (fun kind => by cases kind <;> decide) users _ r0 _ r1 husers
  have hbare : r0.NoNodeEntries := by
    intro node hnode q hq
    have hq' := (hentry.locate _ _).mp (Session.place?_eq_some.mp hq)
    rw [hworkspace] at hq'
    rw [hentry.files q (endsWith_of_code (by decide) (by decide) hq'),
      hnodes node hnode q (Session.place?_eq_some.mpr hq')]
  refine ⟨r0, stages, r1, r3, directory,
    ⟨fun f hf q hq => ?_, hcompiled, hbare.of_steady hentry1, headerType, r2, r2', hassemble,
      hlogs (by decide) _ _ r2 _ r2' hlog, houtput, hwrite⟩, hworkspace,
      (hlogs (by decide) _ _ r3 _ r' hend).files⟩
  have hq' := (htext.locate _ _).mp (Session.place?_eq_some.mp hq)
  rw [hworkspace] at hq'
  have hend := endsWith_of_text hq'
  rw [htext.files q hend, htexts f hf q (Session.place?_eq_some.mpr hq')]

/-- What is in the entry file of a node, and where its next hops lead; `s` has the files of `r₁`
that nodes are put together from. -/
theorem Pipeline.entries {r0 r1 r3 : Runner} {directory : String}
    (h : Pipeline r0 stages r1 r3 directory) (hplain : ∀ stage ∈ stages, stage.generation.Plain) :
    ∃ (P : Node.Plan) (topology : Json), Node.IsPlan r1.workspace (allRelation stages)
    (allServices stages) r1.session P ∧
      r3.topology = some topology ∧ ((∀ n ∈ P.topology.keys, '/' ∉ n.toList) →
        (∀ names n, topology.items = .ok names → .str n ∈ names → '/' ∉ n.toList) →
          ∀ node, Target.IsSoftware topology node →
        ∃ (s : Session) (port : String → String), KeepsFiles
          (fun q => ¬ Node.IsMade q) r1.session s ∧
          Run.readJson (directory ++ node ++ "_entry.json") r3.session =
            .ok (Node.entryDocument node (Node.entriesOn P node (generated stages) port))
              r3.session ∧
          (∀ f ∈ P.assignment.on node, Run.read
            (r1.workspace.componentFile (TextKey.fileName ⟨f, .entry⟩)) r1.session =
            .ok (Piece.render ((generated stages f).map .entry)) r1.session) ∧
          ∀ f ∈ P.assignment.on node, ∀ e ∈ generated stages f, NextHop.operand ∈ e.params →
            ∀ service,
            P.assignment.services.find? f = some service →
              Node.Leads P s service node (port f)) := by
  obtain ⟨headerType, r2, r2', hassemble, hgap, houtput, hwrite⟩ := h.finished
  obtain ⟨s1, hprint, hnodes, hworkspace⟩ := assemble_eq_ok hassemble
  obtain ⟨directory', topology, s2, houtput', htopology, hwrite, hresult, -⟩ :=
    writeOutput_eq_ok hwrite
  obtain rfl : directory = directory' := Json.str.inj (houtput.symm.trans houtput')
  obtain ⟨P, hplan, hall⟩ := Node.assemble_eq_ok h.compiled.nodup_keys (fun f rel hf t ht => by
    have hread := (hprint.read_eq_ok fun _ _ => trivial).mpr
      (h.compiled.entries h.cleared hplain hf)
    exact (EStateM.Result.ok.inj (ht.symm.trans hread)).1) hnodes
  refine ⟨P, topology, ?_, hresult, fun hslash hnames node hsoftware => ?_⟩
  · obtain ⟨file, lists, survey, hfile, hrest⟩ := hplan.source
    exact ⟨hplan.workspace, hplan.relation,
      ⟨file, lists, survey, (hprint.readJson_eq_ok fun _ _ => trivial).mp hfile, hrest⟩,
      hplan.placed⟩
  obtain ⟨hkeeps, hothers, hadds⟩ := hall hslash
  obtain ⟨hdirs, names, hitems, hcopies⟩ := Target.write_eq_ok hnames hwrite
  have hmem : .str node ∈ names := by
    obtain ⟨info, hinfo, _⟩ := hsoftware
    exact Json.str_mem_items hinfo hitems
  have hnode := hnames names node hitems hmem
  obtain ⟨q, j, hq, hread, hfile⟩ := hcopies node hmem hsoftware
  -- what is copied was put together for the node
  obtain ⟨text, htext, hparse⟩ :
    ∃ text, Run.read (r1.workspace.codeFile node "entry") r2.session = .ok text r2.session ∧
      Json.parse text = .ok j := by
    have hread' := (htopology.readJson_eq_ok fun _ _ => trivial).mp hread
    rw [hgap.workspace, hworkspace] at hread'
    exact Run.readJson_eq_ok.mp
      ((hgap.files.readJson_eq_ok fun p hp => endsWith_of_code (by decide) (by decide) hp).mp
        hread')
  obtain ⟨raw, hraw, rfl⟩ := Run.read_eq_ok.mp htext
  obtain ⟨p, hp, hraw, _⟩ := Run.readRaw_eq_ok.mp hraw
  have hp1 := (hkeeps.locate _ _).mp hp
  have hnone : s1.disk.file? p = none := by
    rw [hprint.files p trivial]
    exact h.bare node hnode p (Session.place?_eq_some.mpr ((hprint.locate _ _).mp hp1))
  have hin : node ∈ P.topology.keys := by
    by_contra hout
    rw [hothers node p hnode hout hp1, hnone] at hraw
    cases hraw
  obtain ⟨hfragments, p', s3, port, hp', hkeeps3, hadded, hports⟩ := hadds node hin
  rw [hplan.workspace] at hp'
  obtain rfl : p = p' := Except.ok.inj (hp1.symm.trans hp')
  rw [hnone, Option.getD_none, String.empty_append, hraw] at hadded
  obtain rfl := Option.some.inj hadded
  have hback := Node.parse_entryDocument node
    (Node.nodup_of_mem_entriesOn h.compiled.nodup_keys P node port)
  obtain rfl := Except.ok.inj (hparse.symm.trans hback)
  refine ⟨s3, port, (hprint.mono fun _ _ => trivial).trans hkeeps3,
    Run.readJson_eq_ok.mpr ⟨_, Run.read_eq_ok.mpr ⟨_, ?_, rfl⟩, hback⟩, fun f hf => ?_, hports⟩
  · exact Run.readRaw_eq_ok.mpr ⟨q, (hdirs.locate _ _).mpr hq, hfile, rfl⟩
  · obtain ⟨rel, hrel⟩ := hfragments f hf
    rw [hplan.relation] at hrel
    exact h.compiled.entries h.cleared hplain hrel

/--
**Entries survive the pipeline.**  Let programs be generated one after another where no entries were
before, let all nodes be put together and their programs be written, and let no name of a text and
no name of a node have a slash.  Then for every software switch,

* the files of its fragments hold the entries that were generated for them, one in a line;
* its entry file lists the entries of its fragments, in the order in which the fragments are placed,
  and nothing is changed but that a port stands in the place of the next hop;
* the port is the one that the next hop of the fragment's service stands for.

A compilation of services in a cleaned directory is such a pipeline.
-/
theorem entries_survive_pipeline (r r' : Runner) :
    (∀ (r₁ : Runner) (stages : List Stage) (directory : String), Pipeline r stages r₁ r' directory →
      (∀ stage ∈ stages, stage.generation.Plain) →
      ∃ (P : Node.Plan) (topology : Json), Node.IsPlan r₁.workspace (allRelation stages)
      (allServices stages) r₁.session P ∧
        r'.topology = some topology ∧ ((∀ n ∈ P.topology.keys, '/' ∉ n.toList) →
          (∀ names n, topology.items = .ok names → .str n ∈ names → '/' ∉ n.toList) →
            ∀ node, Target.IsSoftware topology node →
          ∃ (s : Session) (port : String → String), KeepsFiles
            (fun q => ¬ Node.IsMade q) r₁.session s ∧
            Run.readJson (directory ++ node ++ "_entry.json") r'.session =
              .ok (.obj [("target", .str node), ("entries",
              .arr ((P.assignment.on node).flatMap fun f => (generated stages f).map fun e =>
                (e.routed (port f)).toJson))]) r'.session ∧
            ∀ f ∈ P.assignment.on node,
              Run.read (r₁.workspace.componentFile (f ++ "_entry.pne")) r₁.session =
                .ok (String.join ((generated stages f).map Entry.line)) r₁.session ∧
              ∃ service, P.assignment.services.find? f = some service ∧
                Placement.BelongsTo service f ∧
                ((∃ e ∈ generated stages f, NextHop.operand ∈ e.params) →
                  Node.Leads P s service node (port f)))) ∧
    (r.NoEntryTexts → r.NoNodeEntries → compileServices r = .ok () r' →
      ∃ r₀ stages r₁ r₃ directory, Pipeline r₀ stages r₁ r₃ directory ∧ r₀.workspace = r.workspace ∧
        KeepsFiles (EndsWith · "_entry.json") r₃.session r'.session) ∧
    (clean r = .ok () r' → r'.NoEntryTexts ∧ r'.NoNodeEntries) := by
  refine ⟨fun r₁ stages directory h hplain => ?_, pipeline_of_compileServices, clean_eq_ok⟩
  obtain ⟨P, topology, hplan, htopology, hall⟩ := h.entries hplain
  refine ⟨P, topology, hplan, htopology, fun hslash hnames node hsoftware => ?_⟩
  obtain ⟨s, port, hkeeps, hread, htexts, hports⟩ := hall hslash hnames node hsoftware
  refine ⟨s, port, hkeeps, ?_, fun f hf => ⟨?_, ?_⟩⟩
  · rw [hread, Node.entryDocument, Node.entriesOn, map_flatMap]
    simp only [map_map, Function.comp_def]
  · have htext := htexts f hf
    rw [Piece.render, map_map] at htext
    exact htext
  · obtain ⟨service, hservice, hbelongs⟩ := Placement.labelled_of_placeAll hplan.placed node f hf
    exact ⟨service, hservice, hbelongs,
      fun h => h.elim fun e he => hports f hf e he.1 he.2 service hservice⟩

/-- A service with one application, whose table sends packets to the next hop. -/
def relayProgram : Program :=
  let m : Module := { Module.named "M" with
    maps := ⟨[("m", ⟨"m", [], ["bit<9>"], 0, [[NextHop.operand]]⟩)]⟩
    body := [.switch [] [.node "data" [.node "name" [.leaf "m"]]] [⟨false, "nop", []⟩]] }
  { services := ⟨[("s", ⟨"s", ["A"]⟩)]⟩
    applications := ⟨[("A", ⟨"A", {}, [.call ⟨true, "M", []⟩, .primitive "nop" []]⟩)]⟩
    modules := ⟨[("M", m)]⟩ }

/-- A compilation in directories with everything that it needs, and a path of one node. -/
def relayStart : Runner where
  session := .start ⟨[(["p", "include", "define.pne"], ""),
    (["p", "include", "header.pne"], "struct d\x7b\x7d"),
      (["p", "include", "parser.pne"],
        "parser P(a b,c d,e f)\x7bstate start\x7btransition accept;\x7ddeparser D\x7b\x7d\x7d"),
      (["p", "path", "path.json"],
        "\x7b\"s\":\x7b\"n\":\x7b\"next\":\x7b\x7d,\"tables\":1,\"ip\":1\x7d\x7d\x7d"),
      (["c", "component", "rest", "rest_v1mod"], "")],
    [["p"], ["p", "include"], ["p", "path"], ["p", "path_out"], ["p", "log_out"], ["p", "out"],
      ["c"], ["c", "component"],
      ["c", "component", "topo"], ["c", "component", "path"], ["c", "component", "code"],
      ["c", "component", "main"],
      ["c", "component", "rest"]]⟩ ["p"]
  workspace := ⟨"/p", "/c", "service.json", true, true⟩
  output := .str "out/"
  mainFile := none
  services := .null
  topology := none

/-- The state before the programs are written, with the entry file of the node and short texts for
what else is read. -/
def relayAssembled : Runner :=
  let code (part text : String) := (["c", "component", "code", "n_" ++ part], text)
  { relayStart with session := .start ⟨[code "header" "", code "parser" "", code "control" "",
      code "deparser" "",
      code "entry" ("\x7b\n  \"target\": \"n\",\n  \"entries\": [\n    \x7b\n" ++
        "      \"table\": \"s_A_M_m\",\n      \"match\": \x7b\x7d,\n" ++
        "      \"action_name\": \"s_A_M_m_action\",\n      \"action_params\": \x7b\n" ++
        "        \"value_0\": [\n          \"0\"\n" ++
        "        ]\n      \x7d\n    \x7d\n  ]\n\x7d"),
      (["c", "component", "topo", "topo.json"], "\x7b\"n\":\x7b\"resource\":\"CPU\"\x7d\x7d"),
      (["c", "component", "rest", "rest_v1mod"], "")],
    relayStart.session.disk.directories⟩ ["p"] }

def entryFiles (d : Disk) : List (Place × String) :=
  d.files.filter fun f => f.1.getLast?.any fun name => "_entry".toList.isSuffixOf name.toList

theorem file?_eq_of_entryFiles {d d' : Disk} (h : entryFiles d = entryFiles d') {q : Place}
    (hq : EndsWith q "_entry") :
    d.file? q = d'.file? q := by
  have hfind : ∀ d : Disk, d.file? q = ((entryFiles d).find? (·.1 = q)).map (·.2) := by
    intro d
    obtain ⟨front, last, rfl⟩ := hq
    rw [Disk.file?, entryFiles, find?_filter]
    congr 2
    funext f
    rw [Bool.eq_iff_iff]
    simp +contextual [-String.ofList_append]
  rw [hfind d, hfind d', h]

/-- The compilation goes on where it began, and has these entry files. -/
def relayKept (r : Runner) : Bool :=
  match r.workspace, r.services with
  | ⟨"/p", "/c", "service.json", true, true⟩, .null => r.session.home = ["p"] &&
    r.session.disk.directories = relayStart.session.disk.directories && entryFiles r.session.disk =
      entryFiles relayAssembled.session.disk
  | _, _ => false

theorem steady_of_relayKept {r : Runner} (h : relayKept r = true) :
    Steady (EndsWith · "_entry") r relayAssembled := by
  unfold relayKept at h
  split at h
  · next hworkspace hservices =>
    simp only [Bool.and_eq_true, decide_eq_true_eq] at h
    obtain ⟨⟨hhome, hdirectories⟩, hentries⟩ := h
    exact ⟨hworkspace.symm, hservices.symm, hhome.symm, hdirectories.symm,
      fun q hq => file?_eq_of_entryFiles hentries.symm hq⟩
  · cases h

/-- What is generated, and the state before nodes are put together. -/
def relayRun : Compiling (OrderedMap String Service × Generation × Runner × String) := do
  clean
  let (services, g) ← draft relayProgram
  let r₁ ← get
  let headerType ← assemble (addNew {} services) (addNew {} g.relation)
  pure (services, g, r₁, headerType)

/-- What can be seen of the plan that follows from the path file. -/
def relayPlanTest (services : OrderedMap String Service)
    (relation : OrderedMap String RelationEntry) (file : Json) : Bool :=
  match Paths.ofJson file, Survey.ofJson file with
  | .ok lists, .ok survey =>
    match Placement.placeAll relation (Paths.ofLists lists) survey.topology services with
    | .ok a =>
      survey.topology.keys.all (fun n => !n.toList.contains '/') &&
      a.on "n" = ["s_A_0", "s_A_1"] &&
      a.services.find? "s_A_0" = some "s" && (Paths.ofLists lists).find? "s" = some ["n"]
    | .error _ => true
  | _, _ => true

/-- What can be seen of the topology that the output was written for. -/
def relayTopologyTest : Option Json → Bool
  | some (.obj fields) => fields.all (fun f => !f.1.toList.contains '/') &&
    match fields.lookup "n" with
    | some info =>
      match info.get "resource" with
      | .ok resource => resource == .str "CPU"
      | .error _ => false
    | none => false
  | _ => false

def relayTest : OrderedMap String Service × Generation × Runner × String → Runner → Bool
  | (services, g, r₁, headerType), r₂ =>
    g.texts.all (fun t => !t.1.owner.toList.contains '/') &&
    (g.entriesOf "s_A_0").any (fun e => e.params.contains NextHop.operand) && r₁.workspace.debug &&
      headerType = "c" &&
    onlyGives (relayPlanTest (addNew {} services) (addNew {} g.relation))
      (Run.readJson (r₁.workspace.projectFile "path//path.json") r₁.session) && relayKept r₂

theorem leads_eq_zero {P : Node.Plan} {s : Session} {port : String}
    (hpath : P.paths.find? "s" = some ["n"]) (hdebug : P.workspace.debug = true)
    (h : Node.Leads P s "s" "n" port) : port = "0" := by
  cases h with
  | link path here after _ _ =>
    obtain rfl := Option.some.inj (hpath.symm.trans path)
    obtain rfl : 0 = _ := Option.some.inj
      ((show (["n"].idxOf? "n") = some 0 by decide).symm.trans here)
    cases after
  | zero => rfl
  | host _ debug => rw [hdebug] at debug; cases debug

theorem relayRun_passes : passes relayTest (relayRun relayStart) = true := by
  decide +kernel

theorem relayAssembled_passes :
    passes (fun _ r => relayTopologyTest r.topology) (writeOutput "c" relayAssembled) = true := by
  decide +kernel

/-- The entry of the only table is found on the only node, and its packets are sent to port zero. -/
theorem entries_survive_pipeline_relay :
    ∃ (r₀ r₁ r₃ : Runner) (stage : Stage) (port : String → String), clean relayStart = .ok () r₀ ∧
      Pipeline r₀ [stage] r₁ r₃ "out/" ∧ stage.program = relayProgram ∧
      (∃ e ∈ generated [stage] "s_A_0", NextHop.operand ∈ e.params) ∧ port "s_A_0" = "0" ∧
      Run.readJson "out/n_entry.json" r₃.session = .ok (.obj [("target", .str "n"),
        ("entries", .arr (["s_A_0", "s_A_1"].flatMap fun f => (generated [stage] f).map fun e =>
          (e.routed (port f)).toJson))]) r₃.session := by
  obtain ⟨⟨services, g, r₁, headerType⟩, r₂, h, htest⟩ := exists_ok_of_passes relayRun_passes
  obtain ⟨_, r₃, hwrite, htopology⟩ := exists_ok_of_passes relayAssembled_passes
  obtain ⟨_, r₀, hclean, h⟩ := bind_eq_ok.mp h
  obtain ⟨⟨services', g'⟩, r₁', hdraft, h⟩ := bind_eq_ok.mp h
  obtain ⟨_, _, hget, h⟩ := bind_eq_ok.mp h
  obtain ⟨rfl, rfl⟩ := get_eq_ok.mp hget
  obtain ⟨headerType', r₂', hassemble, h⟩ := bind_eq_ok.mp h
  obtain ⟨hresult, rfl⟩ := pure_eq_ok.mp h
  cases hresult
  simp only [relayTest, Bool.and_eq_true, decide_eq_true_eq] at htest
  obtain ⟨⟨⟨⟨⟨hplain, hhop⟩, hdebug⟩, rfl⟩, hplan⟩, hkept⟩ := htest
  let stage : Stage := ⟨relayProgram, services, g⟩
  have hsteady : Steady (EndsWith · "_entry") r₀ r₁ :=
    draft_steady (by decide) (fun kind => by cases kind <;> decide) hdraft
  have hpipeline : Pipeline r₀ [stage] r₁ r₃ "out/" :=
    ⟨(clean_eq_ok hclean).1, .cons (.refl _ _) hdraft (.nil r₁),
      (clean_eq_ok hclean).2.of_steady hsteady, _, _, _, hassemble,
      steady_of_relayKept hkept, rfl, hwrite⟩
  obtain ⟨P, topology, hisPlan, hresult, hall⟩ :=
    (entries_survive_pipeline r₀ r₃).1 r₁ [stage] "out/" hpipeline
    (forall_mem_singleton.mpr (Generation.plain_of_texts hplain))
  -- the plan is the one that follows from the path file
  obtain ⟨file, lists, survey, hfile, hlists, hsurvey, hpaths, hnodes⟩ := hisPlan.source
  have hplaced := hisPlan.placed
  have hplan := of_onlyGives hplan hfile
  rw [hisPlan.relation, hpaths, hnodes] at hplaced
  have hservices : allServices [stage] = addNew {} services := rfl
  have hrelation : allRelation [stage] = addNew {} g.relation := rfl
  rw [hservices, hrelation] at hplaced
  simp only [relayPlanTest, hlists, hsurvey, hplaced, Bool.and_eq_true, decide_eq_true_eq] at hplan
  obtain ⟨⟨⟨hslash, hon⟩, hfiled⟩, hpath⟩ := hplan
  rw [← hnodes] at hslash
  rw [← hpaths] at hpath
  -- and the output is written for it
  rw [hresult] at htopology
  cases topology with
  | obj fields =>
    simp only [relayTopologyTest, Bool.and_eq_true] at htopology
    obtain ⟨hnames, hcpu⟩ := htopology
    have hsoftware : Target.IsSoftware (.obj fields) "n" := by
      cases hinfo : fields.lookup "n" with
      | none =>
        rw [hinfo] at hcpu
        cases hcpu
      | some info =>
        simp only [hinfo] at hcpu
        cases hresource : info.get "resource" with
        | error e =>
          rw [hresource] at hcpu
          cases hcpu
        | ok resource =>
          rw [hresource] at hcpu
          refine ⟨info, ?_, hresource.trans (congrArg Except.ok (Json.beq_str_iff.mp hcpu))⟩
          rw [Json.part, Json.get, hinfo]
    obtain ⟨s, port, _, hread, hfragments⟩ :=
      hall (by simpa using hslash) (fun names n hitems hmem => by
      obtain rfl : fields.map (fun f => Json.str f.1) = names := Except.ok.inj hitems
      obtain ⟨f, hf, hn⟩ := mem_map.mp hmem
      obtain rfl := Json.str.inj hn
      simpa using all_eq_true.mp hnames f hf) "n" hsoftware
    rw [hon] at hread hfragments
    obtain ⟨_, service, hservice, _, hleads⟩ := hfragments "s_A_0" (by decide)
    obtain rfl : "s" = service := Option.some.inj (hfiled.symm.trans hservice)
    have hexists : ∃ e ∈ generated [stage] "s_A_0", NextHop.operand ∈ e.params := by
      obtain ⟨e, he, hop⟩ := any_eq_true.mp hhop
      exact ⟨e, mem_flatMap.mpr ⟨stage, mem_singleton_self _, he⟩, by simpa using hop⟩
    refine ⟨r₀, r₁, r₃, stage, port, hclean, hpipeline, rfl, hexists,
      leads_eq_zero hpath ?_ (hleads hexists), hread⟩
    rw [hisPlan.workspace]
    exact hdebug
  | _ => cases htopology

end Runner

end Pathwise
