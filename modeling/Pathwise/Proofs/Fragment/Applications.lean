import Pathwise.Proofs.Fragment.Blocks

/-!
# Fragments of applications

Every instruction of an application begins a fragment of its own.  A run of an application therefore
gives each of its fragments the effect of one instruction (`Cut.begun`), makes the entry of the
fragment anew, and leaves the fragments with other names alone (`Cut.kept`).

* `Gen.application_cut`: what one run of an application does.
* `ActionsApart`: no action is begun twice, which holds however many applications are generated.
-/

namespace Pathwise

open Steps Placement List OrderedMap

/-! ### Actions that are begun once -/

/-- Every action that is begun was drawn, and none is begun in two places. -/
structure ActionsApart (g : Generation) : Prop where
  drawn : ∀ f, ∀ a ∈ actionNames (g.written ⟨f, .action⟩), g.Drawn a
  unique : ∀ f f' (n n' : Nat) a, (actionNames (g.written ⟨f, .action⟩))[n]? = some a →
    (actionNames (g.written ⟨f', .action⟩))[n']? = some a → f = f' ∧ n = n'

namespace ActionsApart

variable {g g' : Generation}

theorem congr (h : ActionsApart g) (htext : ∀ f, g'.written ⟨f, .action⟩ = g.written ⟨f, .action⟩)
    (hdrawn : ∀ a, g.Drawn a → g'.Drawn a) : ActionsApart g' := by
  refine ⟨fun f a ha => ?_, fun f f' n n' a hn hn' => ?_⟩
  · rw [htext] at ha
    exact hdrawn a (h.drawn f a ha)
  · rw [htext] at hn hn'
    exact h.unique f f' n n' a hn hn'

/-- **A step begins actions under new names only.** -/
theorem performs {f : String} {e : Effect} (h : ActionsApart g) (hp : Performs f g e g')
    (he : e.actions = actionNames (e.own .action)) : ActionsApart g' := by
  have htext : ∀ f', actionNames (g'.written ⟨f', .action⟩) =
      actionNames (g.written ⟨f', .action⟩) ++ if f' = f then e.actions else [] := by
    intro f'
    rw [hp.text, actionNames_append, he]
    congr 1
    by_cases hf : f' = f
    · simp [Effect.addedTo, hf]
    · simp [Effect.addedTo, hf, actionNames]
  -- a name is old and was drawn before, or new and was not
  have hplace : ∀ f' (n : Nat) a, (actionNames (g'.written ⟨f', .action⟩))[n]? = some a →
      ((actionNames (g.written ⟨f', .action⟩))[n]? = some a ∧ g.Drawn a) ∨
      (f' = f ∧ ¬ g.Drawn a ∧ (actionNames (g.written ⟨f', .action⟩)).length ≤ n ∧
        e.actions[n - (actionNames (g.written ⟨f', .action⟩)).length]? = some a) := by
    intro f' n a hn
    rw [htext, getElem?_append] at hn
    split at hn
    · exact .inl ⟨hn, h.drawn f' a (mem_of_getElem? hn)⟩
    · next hlen =>
      by_cases hf : f' = f
      · rw [if_pos hf] at hn
        exact .inr ⟨hf, (hp.fresh a (mem_of_getElem? hn)).1, Nat.le_of_not_lt hlen, hn⟩
      · rw [if_neg hf, getElem?_nil] at hn
        cases hn
  refine ⟨fun f' a ha => ?_, fun f1 f2 n1 n2 a h1 h2 => ?_⟩
  · rw [htext, mem_append] at ha
    rcases ha with ha | ha
    · exact hp.drawn (h.drawn f' a ha)
    · split at ha
      · exact (hp.fresh a ha).2
      · cases ha
  · rcases hplace f1 n1 a h1 with ⟨ho1, hd1⟩ | ⟨rfl, hd1, hle1, hn1⟩ <;>
      rcases hplace f2 n2 a h2 with ⟨ho2, hd2⟩ | ⟨rfl, hd2, hle2, hn2⟩
    · exact h.unique f1 f2 n1 n2 a ho1 ho2
    · exact absurd hd1 hd2
    · exact absurd hd2 hd1
    · refine ⟨rfl, ?_⟩
      have hindex := (List.getElem?_inj (List.getElem?_eq_some_iff.mp hn1).1 hp.nodup).mp
        (hn1.trans hn2.symm)
      omega

end ActionsApart

/-! ### Beginning a fragment -/

namespace Emit

theorem toString_eq_fragmentName (stem : String) (n : Nat) :
    s!"{stem}_{n}" = fragmentName stem n := rfl

theorem openTexts_keeps {f : String} {kinds : List TextKind} (hkinds : .vars ∉ kinds) :
    Keeps f (Adds fun _ _ => False) (forIn kinds PUnit.unit (fun kind _ => do
      Gen.emit ⟨f, kind⟩ []
      pure (ForInStep.yield PUnit.unit)) : Gen PUnit) fun _ => True := by
  have hJ := adds_joins fun _ _ => False
  refine .forIn hJ kinds fun kind hkind =>
    .bind hJ (.emit ?_ (.write (forall_mem_nil _))) fun _ _ => .pure hJ rfl
  rintro rfl
  exact hkinds hkind

/-- **A fragment begins** with an entry that counts no tables and has one file of variables. -/
theorem beginFragment_eq_ok {stem f : String} {n : Nat} {g g' : Generation}
    (h : beginFragment stem n g = .ok f g') :
    f = fragmentName stem n ∧ (∀ k, g'.written k = g.written k) ∧ (∀ a, g.Drawn a → g'.Drawn a) ∧
      g'.outline f = some (.fragment { Relation.empty with varFiles := [varFileOf stem] }) ∧
      ∀ f', f' ≠ f → g'.relation.find? f' = if f' = stem then some (.last n)
        else g.relation.find? f' := by
  simp only [beginFragment, bind_eq_ok, modify_eq_ok, pure_eq_ok, toString_eq_fragmentName] at h
  obtain ⟨_, g1, rfl, _, g2, h2, rfl, rfl⟩ := h
  obtain ⟨e, p, _, he⟩ := openTexts_keeps (by decide) h2
  have hown : ∀ kind, e.own kind = [] := fun kind => he.own_eq_nil (by simp)
  refine ⟨rfl, fun k => ?_, fun a ha => p.drawn ha, ?_, fun f' hf => ?_⟩
  · rw [p.text, Effect.addedTo_eq_nil hown he.vars, append_nil]
    rfl
  · rw [p.outline, Generation.outline, find?_insert_self]
    simp [RelationEntry.outline, RelationEntry.grow, he.scopes, he.tables, varFileOf]
  · rw [p.others f' hf, find?_insert_of_ne _ hf, find?_insert]

end Emit

/-! ### Runs of applications -/

/-- The entry of the fragment was there before, and its texts are unchanged. -/
structure Untouched (f : String) (g g' : Generation) : Prop where
  relation : ∀ r, g'.relation.find? f = some (.fragment r) → g.relation.find? f = some (.fragment r)
  text : ∀ kind, kind ≠ .vars → g'.written ⟨f, kind⟩ = g.written ⟨f, kind⟩

/-- The entry of the fragment was made anew, and since then the fragment had the effect `e`. -/
structure Begun (stem f : String) (e : Effect) (g g' : Generation) : Prop where
  relation : ∀ r, g'.relation.find? f = some (.fragment r) →
    r.varFiles = (stem :: e.scopes).map varFileOf ∧ r.tableCount = e.tables
  text : ∀ kind, kind ≠ .vars → g'.written ⟨f, kind⟩ = g.written ⟨f, kind⟩ ++ e.own kind
  vars : ∀ scope, ∀ v ∈ declaredVars (e.vars scope), v ∈ declaredVars (g'.written ⟨scope, .vars⟩)

/-- Variables stay declared. -/
def KeepsDeclared (g g' : Generation) : Prop :=
  ∀ scope, ∀ v ∈ declaredVars (g.written ⟨scope, .vars⟩), v ∈ declaredVars
    (g'.written ⟨scope, .vars⟩)

/-- Instructions of an application have become the fragments with the numbers from `lo` up to
`hi`. -/
structure Cut (S : Setting) (sc : Scope) (lo hi : Nat) (g g' : Generation) : Prop where
  begun : ∀ k, lo ≤ k → k < hi → ∃ e, Sound S sc e ∧ Begun sc.stem (fragmentName sc.stem k) e g g'
  kept : ∀ f, f ≠ Gen.looseFragment → (∀ k : Nat, lo ≤ k → k < hi → f ≠ fragmentName sc.stem k) →
    Untouched f g g'
  loose : sc.stem ≠ Gen.looseFragment → g.relation.find? Gen.looseFragment = none →
    g'.relation.find? Gen.looseFragment = none
  declared : KeepsDeclared g g'
  apart : ActionsApart g → ActionsApart g'
  entries : ∀ f, (g'.relation.find? f).isSome ↔ (g.relation.find? f).isSome ∨
    ∃ k, lo ≤ k ∧ k < hi ∧ (f = sc.stem ∨ f = fragmentName sc.stem k)

section

variable {S : Setting} {sc : Scope} {f : String} {e : Effect} {g g' : Generation}

variable {f' stem : String} {g1 : Generation} {n hi : Nat} {u : Unit}

theorem Performs.keepsDeclared (h : Performs f g e g') : KeepsDeclared g g' := by
  intro scope v hv
  rw [h.text, declaredVars_append]
  exact mem_append_left _ hv

theorem Performs.untouched (h : Performs f g e g') (hf : f' ≠ f) : Untouched f' g g' := by
  refine ⟨fun r hr => ?_, fun kind hkind => ?_⟩
  · rw [← h.others f' hf]
    exact hr
  · rw [h.text, Effect.addedTo, if_neg hkind, if_neg hf, append_nil]

theorem Performs.isSome_find? (h : Performs f g e g') (f' : String) :
    (g'.relation.find? f').isSome = (g.relation.find? f').isSome := by
  by_cases hf : f' = f
  · have houtline := congrArg Option.isSome h.outline
    rwa [Generation.outline, Generation.outline, Option.isSome_map, Option.isSome_map,
      Option.isSome_map, ← hf] at houtline
  · rw [h.others f' hf]

theorem Performs.loose (h : Performs Gen.looseFragment g e g')
    (hg : g.relation.find? Gen.looseFragment = none) :
    g'.relation.find? Gen.looseFragment = none := by
  have houtline := h.outline
  simpa [Generation.outline, hg] using houtline

theorem fragmentName_ne_loose (stem : String) (n : Int) :
    fragmentName stem n ≠ Gen.looseFragment := by
  intro h
  have hmem : '_' ∈ (fragmentName stem n).toList := by
    rw [toList_fragmentName]
    simp
  rw [h] at hmem
  exact absurd hmem (by decide)

theorem Begun.of_untouched (houtline : g1.outline f = some (.fragment { Relation.empty with
      varFiles := (stem :: e.scopes).map varFileOf, tableCount := e.tables }))
    (htext : ∀ kind, kind ≠ .vars → g1.written ⟨f, kind⟩ = g.written ⟨f, kind⟩ ++ e.own kind)
    (hvars : ∀ scope, ∀ v ∈ declaredVars (e.vars scope), v ∈ declaredVars
      (g1.written ⟨scope, .vars⟩))
    (hlast : Untouched f g1 g') (hdeclared : KeepsDeclared g1 g') : Begun stem f e g g' := by
  refine ⟨fun r hr => ?_, fun kind hkind => ?_, fun scope v hv => ?_⟩
  · rw [Generation.outline, hlast.relation r hr] at houtline
    simp only [Option.map_some, RelationEntry.outline, Option.some.injEq,
      RelationEntry.fragment.injEq, Relation.mk.injEq] at houtline
    exact ⟨houtline.2.2.1, houtline.2.2.2.2⟩
  · rw [hlast.text kind hkind, htext kind hkind]
  · exact hdeclared scope v (hvars scope v hv)

theorem Cut.cons {g2 : Generation} (hbegin : Emit.beginFragment sc.stem n g = .ok f g1)
    (hp : Performs f' g1 e g2) (hf' : f' = f ∨ f' = Gen.looseFragment) (he : Sound S sc e)
    (hn : n < hi) (hrest : Cut S sc (n + 1) hi g2 g') : Cut S sc n hi g g' := by
  obtain ⟨rfl, htext, hdrawn, houtline, hothers⟩ := Emit.beginFragment_eq_ok hbegin
  have hlater : ∀ k : Nat, n + 1 ≤ k → k < hi →
      fragmentName sc.stem n ≠ fragmentName sc.stem k := by
    intro k hk _ heq
    have := (fragmentName_inj.mp heq).2
    omega
  have hlast := hrest.kept _ (fragmentName_ne_loose sc.stem n) hlater
  -- fragments other than the new one up to the next instruction
  have hfirst : ∀ f0, f0 ≠ fragmentName sc.stem n → f0 ≠ Gen.looseFragment → Untouched f0 g g2 := by
    intro f0 hn0 hl0
    have hne : f0 ≠ f' := by
      rintro rfl
      exact hf'.elim hn0 hl0
    refine ⟨fun r hr => ?_, fun kind hkind => ?_⟩
    · have hr1 := (hp.untouched hne).relation r hr
      rw [hothers f0 hn0] at hr1
      split at hr1
      · cases hr1
      · exact hr1
    · rw [(hp.untouched hne).text kind hkind, htext]
  refine ⟨fun k hk hhi => ?_, fun f0 hl0 hf0 => ?_, fun hstem hloose => ?_, fun scope v hv => ?_,
    fun hg => ?_, fun f0 => ?_⟩
  · by_cases hkn : k = n
    · subst hkn
      rcases hf' with rfl | rfl
      · refine ⟨e, he, .of_untouched ?_ (fun kind hkind => ?_)
          (fun scope v hv => ?_) hlast hrest.declared⟩
        · rw [hp.outline, houtline]
          simp [RelationEntry.grow, Relation.empty]
        · rw [hp.text, htext, Effect.addedTo, if_neg hkind, if_pos rfl]
        · rw [hp.text, declaredVars_append, Effect.addedTo, if_pos rfl]
          exact mem_append_right _ hv
      · have hne := fragmentName_ne_loose sc.stem k
        refine ⟨.empty, (sound_joins S sc).empty,
          .of_untouched ?_ (fun kind hkind => ?_) (fun scope v hv => by cases hv)
          hlast hrest.declared⟩
        · rw [Generation.outline, hp.others _ hne, ← Generation.outline, houtline]
          rfl
        · rw [(hp.untouched hne).text kind hkind, htext, Effect.empty_own, append_nil]
    · obtain ⟨e0, he0, hbegun⟩ := hrest.begun k (by omega) hhi
      refine ⟨e0, he0, hbegun.relation, fun kind hkind => ?_, hbegun.vars⟩
      have hne : fragmentName sc.stem k ≠ fragmentName sc.stem n := by
        intro heq
        exact hkn (by exact_mod_cast (fragmentName_inj.mp heq).2)
      rw [hbegun.text kind hkind, (hfirst _ hne (fragmentName_ne_loose sc.stem k)).text kind hkind]
  · have h1 := hfirst f0 (hf0 n (Nat.le_refl n) hn) hl0
    have h2 := hrest.kept f0 hl0 fun k hk hhi => hf0 k (by omega) hhi
    exact ⟨fun r hr => h1.relation r (h2.relation r hr),
      fun kind hkind => by rw [h2.text kind hkind, h1.text kind hkind]⟩
  · refine hrest.loose hstem ?_
    have hloose1 : g1.relation.find? Gen.looseFragment = none := by
      rw [hothers _ (fragmentName_ne_loose sc.stem n).symm, if_neg (Ne.symm hstem), hloose]
    rcases hf' with rfl | rfl
    · rw [hp.others _ (fragmentName_ne_loose sc.stem n).symm, hloose1]
    · exact hp.loose hloose1
  · refine hrest.declared scope v (hp.keepsDeclared scope v ?_)
    rw [htext]
    exact hv
  · exact hrest.apart ((hg.congr (fun f0 => htext _) hdrawn).performs hp he.actions)
  · have hbegun : (g1.relation.find? f0).isSome ↔
        (g.relation.find? f0).isSome ∨ f0 = sc.stem ∨ f0 = fragmentName sc.stem n := by
      by_cases hf0 : f0 = fragmentName sc.stem n
      · have hsome := Option.isSome_of_eq_some houtline
        rw [Generation.outline, Option.isSome_map] at hsome
        simp [hf0, hsome]
      · rw [hothers f0 hf0]
        split <;> simp_all
    rw [hrest.entries, hp.isSome_find?, hbegun, or_assoc]
    refine or_congr_right ⟨?_, ?_⟩
    · rintro (h | ⟨k, hk, hhi, h⟩)
      · exact ⟨n, Nat.le_refl n, hn, h⟩
      · exact ⟨k, by omega, hhi, h⟩
    · rintro ⟨k, hk, hhi, h⟩
      rcases Nat.eq_or_lt_of_le hk with rfl | hk
      · exact .inl h
      · exact .inr ⟨k, hk, hhi, h⟩

theorem Cut.nil (hp : Performs Gen.looseFragment g e g') (he : Sound S sc e) :
    Cut S sc n n g g' where
  begun _ hk hhi := absurd hhi (Nat.not_lt.mpr hk)
  kept _ hf _ := hp.untouched hf
  loose _ := hp.loose
  declared := hp.keepsDeclared
  apart hg := hg.performs hp he.actions
  entries f := by
    rw [hp.isSome_find?, or_iff_left]
    rintro ⟨k, hk, hhi, _⟩
    omega

theorem Cut.declare {lo : Nat} {ps : List Piece}
    (hp : ∀ f, Performs f g (.declare stem ps) g1) (hrelation : g1.relation = g.relation)
    (h : Cut S sc lo hi g1 g') :
    Cut S sc lo hi g g' := by
  have htext : ∀ f kind, kind ≠ .vars → g1.written ⟨f, kind⟩ = g.written ⟨f, kind⟩ := by
    intro f kind hkind
    rw [(hp f).text, Effect.addedTo, if_neg hkind, if_pos rfl, Effect.declare_own,
      Effect.empty_own, append_nil]
  refine ⟨fun k hk hhi => ?_, fun f hl hf => ?_, fun hstem hloose => ?_, fun scope v hv => ?_,
    fun hg => ?_, fun f => ?_⟩
  · obtain ⟨e, he, hbegun⟩ := h.begun k hk hhi
    exact ⟨e, he, hbegun.relation,
      fun kind hkind => by rw [hbegun.text kind hkind, htext _ kind hkind], hbegun.vars⟩
  · have hkept := h.kept f hl hf
    exact ⟨fun r hr => hrelation ▸ hkept.relation r hr,
      fun kind hkind => by rw [hkept.text kind hkind, htext f kind hkind]⟩
  · exact h.loose hstem (by rw [hrelation, hloose])
  · exact h.declared scope v ((hp "").keepsDeclared scope v hv)
  · exact h.apart (hg.congr (fun f => htext f .action (by decide)) fun a ha => (hp "").drawn ha)
  · rw [h.entries, hrelation]

/-- **Every instruction of an application becomes a fragment of its own.** -/
theorem Emit.block_cut {run : Job → Gen Unit} (hrun : RunsSoundly S run) (hvalid : S.Valid)
    (hsc : S.Covers sc) {level : Nat} {inAction : Bool} (is : List Ins) :
    ∀ {n a : Nat} {g g' : Generation}, S.Admits is →
    block run sc ⟨Gen.looseFragment, level, inAction⟩ ⟨true, n, a⟩ is g = .ok u g' →
      Cut S sc n (n + is.length) g g' := by
  have hC := absorbs_sound S sc
  induction is with
  | nil =>
    intro n a g g' _ h
    obtain ⟨e, p, _, he⟩ := closeBlocks_keeps hC ⟨Gen.looseFragment, level, inAction⟩ a h
    exact .nil p he
  | cons i is ih =>
    intro n a g g' his h
    have hrest : S.Admits is := fun c hc => his c (.there hc)
    have hlength : n + (i :: is).length = n + 1 + is.length := by
      rw [length_cons]
      omega
    rw [hlength]
    by_cases hassert : ∃ cs, i = .assert cs
    · obtain ⟨cs, rfl⟩ := hassert
      rw [block_cons_assert, nextFragment, if_pos rfl] at h
      simp only [bind_eq_ok] at h
      obtain ⟨f, g1, h1, c, g2, h2, _, g3, h3, _, g4, h4, h5⟩ := h
      obtain ⟨e3, p3, _, he3⟩ := condition_sound ⟨Gen.looseFragment, level + a, inAction⟩ c h3
      obtain ⟨e4, p4, _, he4⟩ := emitControl_keeps hC rfl h4
      have p := ((Performs.report h2).trans p3).trans p4
      exact .cons h1 p (.inr rfl) (hC.append (hC.append hC.empty he3) he4) (by omega) (ih hrest h5)
    · have hi : S.Admits [i] := fun c hc => his c (hc.of_singleton is)
      rw [block_cons _ _ _ _ _ fun cs h => hassert ⟨cs, h⟩, nextFragment, if_pos rfl] at h
      simp only [bind_eq_ok] at h
      obtain ⟨f, g1, h1, _, g2, h2, h3⟩ := h
      obtain ⟨e, p, _, he⟩ := instruction_sound hrun hvalid hsc ⟨f, level + a, inAction⟩ hi
        (fun _ _ _ _ _ => nested_sound hrun hvalid hsc _ i hi) h2
      exact .cons h1 p (.inl rfl) he (by omega) (ih hrest h3)

/-- **What a run of an application does**: its instructions become fragments, and the variables of
its scope are declared. -/
theorem Gen.application_cut (hvalid : S.Valid) {a : Application} (ha : S.Admits a.body)
    (h : Gen.application S.modules stem a g = .ok u g') :
    ∃ sc, sc.stem = stem ∧ (∀ v, sc.Binds v → v ∈ declaredVars (g'.written ⟨stem, .vars⟩)) ∧
      Cut S sc 0 a.body.length g g' := by
  obtain ⟨vars, g1, h1, h2⟩ := bind_eq_ok.mp h
  obtain ⟨ps, p, hrelation, hnames⟩ := Emit.declareVars_eq_ok h1
  have hcut := Emit.block_cut (runJob_sound hvalid _) hvalid
    (S.covers_application stem vars) a.body ha h2
  rw [Nat.zero_add] at hcut
  refine ⟨_, rfl, ?_, hcut.declare p hrelation⟩
  rintro v ⟨name, hname⟩
  refine hcut.declared stem v ?_
  rcases hnames name v hname with hempty | ⟨_, _, hv⟩
  · cases hempty
  · rw [(p "").text, declaredVars_append, Effect.addedTo, if_pos rfl,
      Effect.declare_vars, if_pos rfl]
    exact mem_append_right _ hv

end

end Pathwise
