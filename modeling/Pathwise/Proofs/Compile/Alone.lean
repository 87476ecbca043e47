import Pathwise.Proofs.Compile.Generated

/-!
# Applications that do not interfere

The names of an application of a service begin with the stem `service_application`.  Applications
whose stems are apart do not see each other: the entries and the files of one of them are the same,
whether or not the others are compiled with it, for all users at once
(`Runner.apart_applications_isolated`).  Names without underscores are apart (`apart_stemOf`).

That the names of services are different is not enough, as the application `A_B` of `s` and the
application `B` of `s_A` have the same stem.
-/

namespace Pathwise

open Steps List Option

/-! ### Stems that are apart -/

theorem not_owns_stemOf {v v' : String × String} (hv : '_' ∉ v.1.toList ∧ '_' ∉ v.2.toList)
    (hv' : '_' ∉ v'.1.toList ∧ '_' ∉ v'.2.toList) (hne : v ≠ v') : ¬ Owns (Gen.stemOf v)
    (Gen.stemOf v') := by
  have hsplit : ∀ {xs xs' ys ys' : List Char}, '_' ∉ xs → '_' ∉ xs' →
      xs ++ '_' :: ys = xs' ++ '_' :: ys' →
      xs = xs' ∧ ys = ys' := by
    intro xs
    induction xs with
    | nil =>
      intro xs' ys ys' _ hxs' h
      cases xs' with
      | nil => exact ⟨rfl, (List.cons.inj h).2⟩
      | cons c xs' => exact absurd ((List.cons.inj h).1 ▸ mem_cons_self) hxs'
    | cons c xs ih =>
      intro xs' ys ys' hxs hxs' h
      cases xs' with
      | nil => exact absurd ((List.cons.inj h).1 ▸ mem_cons_self) hxs
      | cons c' xs' =>
        obtain ⟨rfl, htail⟩ := List.cons.inj h
        obtain ⟨rfl, hys⟩ := ih (fun hc => hxs (mem_cons_of_mem _ hc))
          (fun hc => hxs' (mem_cons_of_mem _ hc)) htail
        exact ⟨rfl, hys⟩
  have hstem : ∀ v : String × String, (Gen.stemOf v).toList = v.1.toList ++ '_' :: v.2.toList := by
    intro v
    rw [Gen.stemOf, String.toList_append, String.toList_append, append_assoc]
    rfl
  intro howns
  obtain ⟨tail, htail⟩ := owns_iff.mp howns
  rw [hstem, hstem] at htail
  simp only [append_assoc, cons_append, nil_append] at htail
  obtain ⟨hservice, hrest⟩ := hsplit hv.1 hv'.1 htail
  obtain ⟨hname, _⟩ := hsplit hv.2 hv'.2 hrest
  exact hne (Prod.ext (String.toList_injective hservice) (String.toList_injective hname))

theorem apart_stemOf {v v' : String × String} (hv : '_' ∉ v.1.toList ∧ '_' ∉ v.2.toList)
    (hv' : '_' ∉ v'.1.toList ∧ '_' ∉ v'.2.toList) (hne : v ≠ v') : Apart (Gen.stemOf v)
    (Gen.stemOf v') :=
  ⟨not_owns_stemOf hv hv' hne, not_owns_stemOf hv' hv hne.symm⟩

namespace Runner

variable {n : String} {before after : List Stage} {stage : Stage} {k : TextKey}

/-! ### Entries of all users -/

theorem foldl_addNew_of_forall {stages : List Stage}
    (h : ∀ stage ∈ stages, stage.generation.relation.find? n = none) : ∀ m :
    OrderedMap String RelationEntry,
    (stages.foldl (fun m stage => addNew m stage.generation.relation) m).find? n = m.find? n := by
  induction stages with
  | nil => exact fun _ => rfl
  | cons stage stages ih =>
    intro m
    obtain ⟨hfirst, hrest⟩ := forall_mem_cons.mp h
    rw [foldl_cons, ih hrest, find?_addNew, hfirst, or_none]

theorem find?_allRelation (h : ∀ other ∈ before ++ after,
    other.generation.relation.find? n = none) :
    (allRelation (before ++ stage :: after)).find? n = stage.generation.relation.find? n := by
  have hbefore := foldl_addNew_of_forall (fun other hother => h other (mem_append_left _ hother)) {}
  rw [allRelation, foldl_append, foldl_cons,
    foldl_addNew_of_forall (fun other hother => h other (mem_append_right _ hother)),
    find?_addNew, hbefore]
  exact none_or

theorem foldl_addTo (h : ∀ other ∈ before ++ after, other.generation.pieces? k = none)
    (old : Option String) :
    (before ++ stage :: after).foldl (fun old stage => stage.generation.addTo k old) old =
      stage.generation.addTo k old := by
  have hnone : ∀ {stages : List Stage}, (∀ other ∈ stages, other.generation.pieces? k = none) →
      ∀ old : Option String, stages.foldl (fun old stage => stage.generation.addTo k old) old =
        old := by
    intro stages
    induction stages with
    | nil => exact fun _ _ => rfl
    | cons first stages ih =>
      intro h old
      obtain ⟨hfirst, hrest⟩ := forall_mem_cons.mp h
      rw [foldl_cons, Generation.addTo, hfirst]
      exact ih hrest old
  rw [foldl_append, foldl_cons, hnone fun other hother => h other (mem_append_left _ hother),
    hnone fun other hother => h other (mem_append_right _ hother)]

/-! ### One application of one user -/

variable {r r' : Runner} {text : String} {p : Program} {g g' : Generation}
  {services : OrderedMap String Service}
  {v : String × String}

theorem owns_of_only (hg : g.Fresh) (h : generation text (p.only v.1 v.2) g = .ok services g')
    (hk : (g'.pieces? k).isSome = true) : Owns (Gen.stemOf v) k.owner ∨
      k.owner = Gen.looseFragment := by
  by_contra hno
  obtain ⟨howns, hloose⟩ := not_or.mp hno
  have hvisits : ∀ v' ∈ (p.only v.1 v.2).visits, ¬ Owns (Gen.stemOf v') k.owner := by
    intro v' hv'
    rw [Program.visits_only, mem_filter] at hv'
    obtain rfl : v' = v := of_decide_eq_true hv'.2
    exact howns
  rw [(generation_spares hg h).2.1 k hvisits hloose] at hk
  cases hk

theorem exists_draft_only {r1 r2 : Runner} (hsteady : Steady (EndsWith · "define.pne") r r1)
    (hdrafted : Drafted stage.program r1 stage.services stage.generation r2)
    (hapart : ∀ v' ∈ stage.program.visits, v' ≠ v → Apart (Gen.stemOf v) (Gen.stemOf v'))
    {console : String} (htext : r.Defines text)
    (hrun : generation text stage.program { r.beginning with console := console } =
      .ok stage.services stage.generation) :
    ∃ services1 g1 r1', draft (stage.program.only v.1 v.2) r = .ok (services1, g1) r1' ∧
      Agree (Owns (Gen.stemOf v)) stage.generation g1 := by
  have hsame : ∀ c, ∃ services' h', generation text (stage.program.only v.1 v.2)
      { r.beginning with console := c } =
      .ok services' h' ∧ Agree (Owns (Gen.stemOf v)) stage.generation h' := by
    intro c
    refine generation_alone rfl hapart hrun ?_
    exact ⟨rfl, rfl, rfl, fun _ _ => Iff.rfl, fun _ _ => rfl, fun _ _ => rfl, fun _ _ => rfl,
      fun _ _ => rfl, fun _ _ => id⟩
  have hexists : ∃ services1 g1 r1', draft (stage.program.only v.1 v.2) r =
      .ok (services1, g1) r1' := by
    refine exists_draft ?_ htext fun c => ?_
    · exact hsteady.workspace ▸ hsteady.writable.mp hdrafted.log
    obtain ⟨services', h', hgeneration, hagree⟩ := hsame c
    refine ⟨services', h', hgeneration, fun f hf => ?_⟩
    -- all texts of the application alone are among those that could be written
    obtain ⟨⟨k, ps⟩, ht, rfl⟩ := mem_map.mp hf
    have hbegun : (h'.pieces? k).isSome = true := by
      rw [Generation.pieces?, isSome_map, find?_isSome]
      exact ⟨_, ht, by simp⟩
    have hstage : (stage.generation.pieces? k).isSome = true := by
      rcases owns_of_only (fresh_beginning r c) hgeneration hbegun with howns | hloose
      · rwa [hagree.pieces k howns] at hbegun
      · exact hagree.begun k hloose hbegun
    rw [Generation.pieces?, isSome_map, find?_isSome] at hstage
    obtain ⟨⟨k', ps'⟩, ht', htk⟩ := hstage
    obtain rfl : k' = k := of_decide_eq_true htk
    have hfile : (k'.fileName, Piece.render ps'.toList) ∈ stage.generation.files :=
      mem_map.mpr ⟨_, ht', rfl⟩
    have hwritable := hsteady.writable.mp (hdrafted.writable _ hfile)
    rw [hsteady.workspace] at hwritable
    exact hwritable
  obtain ⟨services1, g1, r1', hdraft⟩ := hexists
  obtain ⟨text', c, htext', hrun'⟩ := (draft_eq_ok hdraft).run
  obtain rfl : text' = text := by
    have heq := htext'.symm.trans htext
    injection heq
  obtain ⟨services', h', hgeneration, hagree⟩ := hsame c
  obtain ⟨rfl, rfl⟩ : services1 = services' ∧ g1 = h' := by
    have heq := hrun'.symm.trans hgeneration
    injection heq with h1 h2
    exact ⟨h1, h2⟩
  exact ⟨services1, g1, r1', hdraft, hagree⟩

/--
**Applications that are apart do not interfere.**  Let the programs of users be compiled one after
another, and let the stem of an application be apart from the stems of all others that are visited,
of this user and of the other users.  Then the application can be compiled alone, from the same
start, and all entries of the relation and all component files under its names are the same as when
the others are compiled with it; the names of texts have no slashes, so that every text has a file
of its own.  A compilation of users is such a chain of generations.
-/
theorem apart_applications_isolated (r r' : Runner) :
    (∀ (before after : List Stage) (stage : Stage) (v : String × String),
      Compiled r (before ++ stage :: after) r' →
      (∀ v' ∈ stage.program.visits, v' ≠ v → Apart (Gen.stemOf v) (Gen.stemOf v')) →
      (∀ other ∈ before ++ after, ∀ v' ∈ other.program.visits, Apart (Gen.stemOf v)
        (Gen.stemOf v')) →
      (∀ other ∈ before ++ stage :: after, other.generation.Plain) →
      ∃ services₁ relation₁ r₁, generate (stage.program.only v.1 v.2) r =
          .ok (services₁, relation₁) r₁ ∧
        (∀ n, Owns (Gen.stemOf v) n →
          (allRelation (before ++ stage :: after)).find? n = relation₁.find? n) ∧
        ∀ k : TextKey, Owns (Gen.stemOf v) k.owner → k.IsPlain → ∀ q,
          r.session.place? (r.workspace.componentFile k.fileName) = some q →
          r'.session.disk.file? q = r₁.session.disk.file? q) ∧
    ∀ (users : List Json) (services : OrderedMap String Service)
    (relation : OrderedMap String RelationEntry),
      users.foldlM compileUser ({}, {}) r = .ok (services, relation) r' →
      ∃ stages, Compiled r stages r' ∧
        List.Forall₂ (fun user stage => stage.IsOf r.services user) users stages ∧
        relation = allRelation stages := by
  refine ⟨fun before after stage v h hapart hothers hplain => ?_,
    fun users services relation h => ?_⟩
  · have hstage : stage ∈ before ++ stage :: after := mem_append_right _ mem_cons_self
    obtain ⟨r₁, r₂, hsteady, hdrafted⟩ := h.drafted hstage
    obtain ⟨text, console, htext, hrun⟩ := h.run hstage
    obtain ⟨services₁, g₁, r₁', hdraft, hagree⟩ :=
      exists_draft_only hsteady hdrafted hapart htext hrun
    have hsolo := draft_eq_ok hdraft
    -- the other users have nothing under the names of the application
    have hnone : ∀ other ∈ before ++ after, (∀ n, Owns (Gen.stemOf v) n →
        other.generation.relation.find? n = none) ∧
        ∀ k : TextKey, Owns (Gen.stemOf v) k.owner → other.generation.pieces? k = none := by
      intro other hother
      have hmem : other ∈ before ++ stage :: after := by
        rcases mem_append.mp hother with hmem | hmem
        · exact mem_append_left _ hmem
        · exact mem_append_right _ (mem_cons_of_mem _ hmem)
      obtain ⟨_, _, _, hrun'⟩ := h.run hmem
      obtain ⟨hrelation, htexts, _⟩ := generation_spares (fresh_beginning r _) hrun'
      refine ⟨fun n hn => hrelation n fun v' hv' => (hothers other hother v' hv').not_owns hn,
        fun k hk => ?_⟩
      exact htexts k (fun v' hv' => (hothers other hother v' hv').not_owns hk)
        (hk.ne_loose (Gen.underscore_mem_stemOf v))
    refine ⟨services₁, g₁.relation, r₁', ?_, fun n hn => ?_, fun k hk hkplain q hq => ?_⟩
    · rw [generate_eq]
      exact bind_eq_ok.mpr ⟨(services₁, g₁), r₁', hdraft, rfl⟩
    · rw [find?_allRelation fun other hother => (hnone other hother).1 n hn, hagree.relation n hn]
    · obtain ⟨_, c, _, hrun₁⟩ := hsolo.run
      have hplain₁ : g₁.Plain := by
        intro k' hk'
        rcases owns_of_only (fresh_beginning r c) hrun₁ hk' with howns | hloose
        · exact hplain stage hstage k' (hagree.pieces k' howns ▸ hk')
        · rw [TextKey.IsPlain, hloose]
          decide
      have hnodup := (generation_spares (fresh_beginning r c) hrun₁).2.2
      rw [h.file hplain hkplain hq, foldl_addTo fun other hother => (hnone other hother).2 k hk,
        hsolo.file hplain₁ hnodup k hkplain q hq, Generation.addTo, Generation.addTo,
        hagree.pieces k hk]
  · obtain ⟨stages, hcompiled, hof, _, hrelation⟩ := compileUsers_compiled h
    exact ⟨stages, hcompiled, hof, hrelation⟩

/-- A program with services of one application, which sets a header field. -/
def twinProgram (services : List String) : Program where
  services := ⟨services.map fun s => (s, ⟨s, ["A"]⟩)⟩
  applications := ⟨[("A", ⟨"A", {}, [.assign [.ofField ["hdr", "eth", "kind"]] (.ofDigits "1")]⟩)]⟩
  modules := {}

/-- A compilation in directories with everything that a generation needs. -/
def twinStart : Runner where
  session := .start ⟨[(["p", "include", "define.pne"], "")],
    [["p"], ["p", "include"], ["p", "log_out"], ["c"], ["c", "component"]]⟩
    ["p"]
  workspace := ⟨"/p", "/c", "service.json", false, true⟩
  output := .null
  mainFile := none
  services := .null
  topology := none

/-- The programs of two users, the first with two services and the second with one. -/
def twinRun : Compiling (Generation × Generation) := do
  let (_, g) ← draft (twinProgram ["s", "t"])
  let (_, g') ← draft (twinProgram ["u"])
  pure (g, g')

/-- What can be seen of the generations and of the disk after them. -/
def twinTest (gs : Generation × Generation) (r : Runner) : Bool :=
  gs.1.texts.all (fun t => !t.1.owner.toList.contains '/') && gs.2.texts.all
    (fun t => !t.1.owner.toList.contains '/') &&
  r.session.disk.file? ["c", "component", "s_A_0_control.pne"] = some "hdr.eth.kind = 1;\n"

/-- The application of the first service comes out as if it were alone. -/
theorem apart_applications_isolated_twins :
    ∃ (first second : Stage) (r' : Runner), Compiled twinStart [first, second] r' ∧
      first.program = twinProgram ["s", "t"] ∧ second.program = twinProgram ["u"] ∧
      ∃ services₁ relation₁ r₁, generate ((twinProgram ["s", "t"]).only "s" "A") twinStart =
        .ok (services₁, relation₁) r₁ ∧
        (∀ n, Owns "s_A" n → (allRelation [first, second]).find? n = relation₁.find? n) ∧
        r₁.session.disk.file? ["c", "component", "s_A_0_control.pne"] =
          some "hdr.eth.kind = 1;\n" := by
  obtain ⟨⟨g, g'⟩, r', h, htest⟩ :=
    exists_ok_of_passes (P := twinTest) (r := twinRun twinStart) (by decide +kernel)
  obtain ⟨⟨services, _⟩, r₁, h₁, h⟩ := bind_eq_ok.mp h
  obtain ⟨⟨services', _⟩, r₂, h₂, h⟩ := bind_eq_ok.mp h
  obtain ⟨hresult, rfl⟩ := pure_eq_ok.mp h
  cases hresult
  simp only [twinTest, Bool.and_eq_true, decide_eq_true_eq] at htest
  obtain ⟨⟨hg, hg'⟩, hfile⟩ := htest
  have hvisits : (twinProgram ["s", "t"]).visits = [("s", "A"), ("t", "A")] ∧
      (twinProgram ["u"]).visits = [("u", "A")] := by
    decide +kernel
  let first : Stage := ⟨twinProgram ["s", "t"], services, g⟩
  let second : Stage := ⟨twinProgram ["u"], services', g'⟩
  have hcompiled : Compiled twinStart [first, second] r₂ :=
    .cons (.refl _ _) h₁ (.cons (.refl _ _) h₂ (.nil r₂))
  obtain ⟨services₁, relation₁, r₃, halone, hrelation, htexts⟩ :=
    (apart_applications_isolated twinStart r₂).1 [] [second] first ("s", "A") hcompiled
      (by
        intro v' hv' hne
        rw [hvisits.1] at hv'
        obtain rfl : v' = ("t", "A") := by simpa [hne] using hv'
        exact apart_stemOf (by decide) (by decide) (by decide))
      (by
        intro other hother v' hv'
        obtain rfl : other = second := by simpa using hother
        rw [hvisits.2] at hv'
        obtain rfl : v' = ("u", "A") := by simpa using hv'
        exact apart_stemOf (by decide) (by decide) (by decide))
      (by
        intro other hother
        rcases mem_cons.mp hother with rfl | hother
        · exact Generation.plain_of_texts hg
        · obtain rfl : other = second := by simpa using hother
          exact Generation.plain_of_texts hg')
  have hstem : Gen.stemOf ("s", "A") = "s_A" := by decide
  rw [hstem] at hrelation htexts
  refine ⟨first, second, r₂, hcompiled, rfl, rfl, services₁, relation₁, r₃, halone, hrelation, ?_⟩
  rw [← htexts ⟨"s_A_0", .control⟩ (.inr ⟨"0", by decide⟩) (by unfold TextKey.IsPlain; decide)
    ["c", "component", "s_A_0_control.pne"] (by decide +kernel)]
  exact hfile

end Runner

end Pathwise
