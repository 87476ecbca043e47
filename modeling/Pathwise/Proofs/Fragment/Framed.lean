import Pathwise.Program.Collect
import Pathwise.Proofs.Alike
import Pathwise.Proofs.Fragment.Isolation

/-!
# Fragments do not leak into each other

Whatever is generated for a fragment goes to the texts of that fragment, to declarations of
variables, and to what is recorded about the fragment (`framing`).  So an instruction of an
application leaves the other fragments of the application alone (`application_framed`), also if its
generation fails.
-/

namespace Pathwise

open Steps Placement List OrderedMap

/-- Nothing that belongs to one of the names is different, declarations of variables apart. -/
structure Generation.Same (spared : String → Prop) (g g' : Generation) : Prop where
  texts : ∀ k : TextKey, spared k.owner → k.kind ≠ .vars → g'.pieces? k = g.pieces? k
  relation : ∀ name, spared name → g'.relation.find? name = g.relation.find? name

/-- The step leaves alone what belongs to the names, whether or not it succeeds. -/
def Frames (spared : String → Prop) {α : Type} (x : Gen α) : Prop :=
  ∀ g : Generation, g.Same spared (final (x g))

namespace Frames

variable {spared : String → Prop} {α β : Type} {f : String}

theorem of_eq {x : Gen α} (h : ∀ g, (final (x g)).texts = g.texts ∧
    (final (x g)).relation = g.relation) : Frames spared x := by
  intro g
  obtain ⟨htexts, hrelation⟩ := h g
  exact ⟨fun k _ _ => by rw [Generation.pieces?, htexts]; rfl, fun name _ => by rw [hrelation]⟩

theorem bind {x : Gen α} {k : α → Gen β} (hx : Frames spared x) (hk : ∀ a, Frames spared (k a)) :
    Frames spared (x >>= k) := by
  intro g
  have hfirst := hx g
  refine final_bind (g.Same spared) (fun e g1 h => ?_) fun a g1 h => ?_
  · rwa [h] at hfirst
  · rw [h] at hfirst
    have hrest := hk a g1
    exact ⟨fun k hk hkind => (hrest.texts k hk hkind).trans (hfirst.texts k hk hkind),
      fun name hname => (hrest.relation name hname).trans (hfirst.relation name hname)⟩

theorem pure (a : α) : Frames spared (Pure.pure a : Gen α) :=
  of_eq fun _ => ⟨rfl, rfl⟩

theorem throw (e : Fault) : Frames spared (MonadExcept.throw e : Gen α) :=
  of_eq fun _ => ⟨rfl, rfl⟩

theorem get : Frames spared (MonadState.get : Gen Generation) :=
  of_eq fun _ => ⟨rfl, rfl⟩

theorem onlyReports {x : Gen α} (hx : Gen.OnlyReports x) : Frames spared x := by
  obtain ⟨r, said, hr⟩ := hx
  refine of_eq fun g => ?_
  rw [hr]
  cases r <;> exact ⟨rfl, rfl⟩

theorem emit {k : TextKey} {ps : List Piece} (hk : ¬ spared k.owner ∨ k.kind = .vars) :
    Frames spared (Gen.emit k ps) := by
  refine bind (bind get fun s => ?_) fun _ g => ⟨fun k' hk' hkind => ?_, fun _ _ => rfl⟩
  · split
    · split
      · exact pure _
      · exact throw _
    · exact pure _
  · refine (Generation.pieces?_addPieces g k k' ps).trans (if_neg ?_)
    rintro rfl
    exact hk.elim (· hk') hkind

theorem record (hf : ¬ spared f) (change : Relation → Relation) :
    Frames spared (Gen.record f change) := by
  refine bind (bind get fun s => ?_) fun r g => ⟨fun _ _ _ => rfl, fun name hname => ?_⟩
  · split
    · exact pure _
    · exact throw _
    · exact throw _
  · have hne : name ≠ f := fun h => hf (h ▸ hname)
    exact find?_insert_of_ne _ hne _

theorem declareVars (vars bound : OrderedMap String String) (stem : String) :
    Frames spared (Emit.declareVars vars bound stem) := by
  refine bind get fun s => ?_
  split
  · exact pure _
  · refine bind (of_eq fun _ => ⟨rfl, rfl⟩) fun _ => bind (of_eq fun _ => ⟨rfl, rfl⟩) fun _ => ?_
    exact bind (emit (.inr rfl)) fun _ => pure _

end Frames

/-- **What is generated for a fragment belongs to it.** -/
def framing (modules : OrderedMap String Module) {spared : String → Prop} {f : String}
    (hf : ¬ spared f) : Judgement modules f where
  holds _ x _ := Frames spared x
  isScope _ := True
  allowed _ := True
  used _ := True
  isScope_append _ _ := trivial
  allowed_append _ _ := trivial
  used_of_not_isStored _ := trivial
  imp hx _ _ := hx
  pure _ := .pure _
  bind hx hk := .bind hx hk
  stopped hx := .of_eq fun g => by
    obtain ⟨e, c, h⟩ := hx g
    rw [h]
    exact ⟨rfl, rfl⟩
  onlyReports := .onlyReports
  typeOf _ := .of_eq fun _ => ⟨rfl, rfl⟩
  drawTable _ := .of_eq fun _ => ⟨rfl, rfl⟩
  drawAction _ := .of_eq fun _ => ⟨rfl, rfl⟩
  recordInput _ := .record hf _
  recordOutput _ := .record hf _
  recordTable := .record hf _
  recordModule _ := .record hf _
  recordScope _ := .record hf _
  emitBefore _ hrest _ := .bind (.emit (.inl hf)) fun _ => hrest
  emitEntries _ _ := .emit (.inl hf)
  emitVars _ := .emit (.inr rfl)
  declareVars _ := .declareVars _ _ _
  compress _ := .bind (.emit (.inl hf)) fun _ =>
    .bind (.onlyReports (.report (firstOf_blind _))) fun _ =>
    .bind (.bind (.onlyReports (.report (Scope.resolve_blind _ _))) fun _ =>
      .bind (.emit (.inl hf)) fun _ => .pure _) fun _ =>
      .emit (.inl hf)
  copy _ _ := .emit (.inl hf)

/-! ### Applications -/

/-- The generation of one instruction of an application. -/
def Gen.topLevel (modules : OrderedMap String Module) (stem : String)
    (vars : OrderedMap String String) (n : Nat) (i : Ins) : Gen Unit := do
  let f ← Emit.beginFragment stem n
  Emit.instruction (Gen.runJob (Gen.callDepth modules)) ⟨stem, vars, {}, {}, {}, modules⟩
    ⟨f, 0, false⟩ i

/-- The names of the other fragments of the application. -/
def IsOtherFragment (stem : String) (n : Nat) (name : String) : Prop :=
  ∃ j : Nat, j ≠ n ∧ name = fragmentName stem j

theorem not_isOtherFragment_self (stem : String) (n : Nat) :
    ¬ IsOtherFragment stem n (fragmentName stem n) := by
  rintro ⟨j, hj, h⟩
  exact hj (Int.ofNat.inj (fragmentName_inj.mp h).2).symm

theorem not_isOtherFragment_stem (stem : String) (n : Nat) : ¬ IsOtherFragment stem n stem := by
  rintro ⟨j, _, h⟩
  have hlength := congrArg (·.toList.length) h
  simp [toList_fragmentName] at hlength

theorem Emit.beginFragment_frames (modules : OrderedMap String Module) {stem : String} {n : Nat}
    {k : String → Gen Unit} (hk : Frames (IsOtherFragment stem n) (k (fragmentName stem n))) :
    Frames (IsOtherFragment stem n) (beginFragment stem n >>= k) := by
  have hself := not_isOtherFragment_self stem n
  let J := framing modules hself
  have hemits : ∀ kinds : List TextKind, J.holds True (forIn kinds PUnit.unit (fun kind _ => do
      Gen.emit ⟨fragmentName stem n, kind⟩ []
      pure (.yield PUnit.unit)) : Gen PUnit) fun _ => ∀ _ ∈ kinds, True :=
    fun kinds => J.forIn kinds fun _ _ _ _ => .bind (.emit (.inl hself)) fun _ => .pure _
  simp only [beginFragment, toString_eq_fragmentName, bind_assoc, pure_bind]
  refine .bind (fun g => ⟨fun _ _ _ => rfl, fun name hname => ?_⟩) fun _ =>
    .bind (hemits _) fun _ => hk
  have hstem : name ≠ stem := fun h => not_isOtherFragment_stem stem n (h ▸ hname)
  have hown : name ≠ fragmentName stem n := fun h => hself (h ▸ hname)
  exact (find?_insert_of_ne _ hown _).trans (find?_insert_of_ne _ hstem _)

theorem Gen.topLevel_frames (modules : OrderedMap String Module) (stem : String)
    (vars : OrderedMap String String) (n : Nat) (i : Ins) :
    Frames (IsOtherFragment stem n) (topLevel modules stem vars n i) := by
  let J := framing modules (not_isOtherFragment_self stem n)
  have hcovers : J.Covers ⟨stem, vars, {}, {}, {}, modules⟩ := ⟨rfl, trivial⟩
  exact Emit.beginFragment_frames modules (J.instructionAt (H := True) _ hcovers 0 false i)

theorem Emit.block_topLevel (run : Job → Gen Unit) (sc : Scope) (site : Site) :
    ∀ {is : List Ins} (n : Nat), (∀ i ∈ is, ∀ cs, i ≠ .assert cs) →
    block run sc site ⟨true, n, 0⟩ is = forM (is.zipIdx n) fun (i, n) => (do
      let f ← beginFragment sc.stem n
      instruction run sc ⟨f, site.level, site.inAction⟩ i) := by
  intro is
  induction is with
  | nil => exact fun _ _ => rfl
  | cons i is ih =>
    intro n his
    obtain ⟨hi, his⟩ := forall_mem_cons.mp his
    rw [block_cons _ _ _ _ _ hi, ih (n + 1) his, zipIdx_cons, forM_cons, bind_assoc]
    rfl

/-! ### Instructions of applications -/

namespace Collect

/-- What the step gives has the property. -/
def Gives {α : Type} (x : Report α) (P : α → Prop) : Prop :=
  ∀ s a s', x s = .ok a s' → P a

variable {α β : Type} {P : β → Prop}

theorem Gives.pure {b : β} (h : P b) : Gives (Pure.pure b : Report β) P := by
  intro s b' s' hb
  exact (pure_eq_ok.mp hb).1 ▸ h

theorem Gives.bind {x : Report α} {k : α → Report β} (h : ∀ a, Gives (k a) P) :
    Gives (x >>= k) P := by
  intro s b s' hb
  obtain ⟨a, s1, _, hk⟩ := bind_eq_ok.mp hb
  exact h a s1 b s' hk

abbrev NoAsserts (is : List Ins) : Prop :=
  ∀ i ∈ is, ∀ cs, i ≠ .assert cs

theorem applicationStatement_gives (a : Application) (t : Tree) (ha : NoAsserts a.body) :
    Gives (applicationStatement a t) fun a' => NoAsserts a'.body := by
  have hadd : ∀ {x : Report Ins}, Gives x (fun i => ∀ cs, i ≠ .assert cs) →
      Gives (x >>= fun i => pure { a with body := a.body ++ [i] }) fun a' => NoAsserts a'.body := by
    intro x hx s a' s' h
    obtain ⟨i, hi, rfl⟩ := bind_pure_eq_ok.mp h
    exact forall_mem_append.mpr ⟨ha, forall_mem_singleton.mpr (hx _ _ _ hi)⟩
  refine .bind fun t => .bind fun kind => ?_
  split
  · refine .bind fun d => .bind fun what => ?_
    split
    · exact .bind fun vars => .pure ha
    · nofun
  split
  · exact hadd (.bind fun _ => .bind fun _ => .bind fun _ => .pure nofun)
  split
  · exact .bind fun c => .pure (forall_mem_append.mpr ⟨ha, forall_mem_singleton.mpr nofun⟩)
  split
  · exact hadd (.bind fun _ => .bind fun _ => .pure nofun)
  split
  · refine hadd (.bind fun p => .bind fun kind => ?_)
    split
    · exact .bind fun _ => .pure nofun
    split
    · exact .bind fun _ => .pure nofun
    split
    · exact .pure nofun
    · exact .bind fun _ => .pure nofun
  · nofun

theorem application_gives (t : Tree) : Gives (application t) fun a => NoAsserts a.body := by
  refine .bind fun name => .bind fun cs => ?_
  have hfold : ∀ parts, Gives (List.foldlM applicationStatement ⟨name, {}, []⟩ parts) fun a =>
      NoAsserts a.body :=
    fun parts _ _ _ h => foldlM_keeps (fun a => NoAsserts a.body)
      (fun a t s a' s' ha h => applicationStatement_gives a t ha s a' s' h) parts
        (forall_mem_nil _) h
  split
  · exact .bind fun body => .bind hfold
  · exact .bind fun body => .bind hfold

end Collect

/--
**Fragments do not leak into each other.**  An application is generated instruction by instruction.
The generation of an instruction leaves the texts of the other fragments and what is recorded about
them as they are, also where it fails.
-/
theorem Gen.application_framed (modules : OrderedMap String Module) (stem : String) {t : Tree}
    {out out' : String} {a : Application} (ha : Collect.application t out = .ok a out') :
    Gen.application modules stem a = (do
      let vars ← Emit.declareVars a.vars {} stem
      forM a.body.zipIdx fun (i, n) => topLevel modules stem vars n i) ∧
    ∀ i n, a.body[n]? = some i → ∀ (vars : OrderedMap String String) (g : Generation)
    (j : Nat), j ≠ n →
      (∀ kind ∈ [TextKind.control, .action, .table, .temp, .register, .entry],
        (final (topLevel modules stem vars n i g)).pieces? ⟨fragmentName stem j, kind⟩ = g.pieces?
          ⟨fragmentName stem j, kind⟩) ∧
      (final (topLevel modules stem vars n i g)).relation.find? (fragmentName stem j) =
        g.relation.find? (fragmentName stem j) := by
  refine ⟨bind_congr fun vars => Emit.block_topLevel _ _ _ 0 (Collect.application_gives t _ _ _ ha),
    fun i n _ vars g j hj => ?_⟩
  have hsame := topLevel_frames modules stem vars n i g
  refine ⟨fun kind hkind => hsame.texts ⟨fragmentName stem j, kind⟩ ⟨j, hj, rfl⟩ ?_,
    hsame.relation _ ⟨j, hj, rfl⟩⟩
  rintro rfl
  exact absurd hkind (by decide)

def twoDrops : Tree :=
  .node "application" [.leaf "a", .node "code_body"
    (List.replicate 2 (.node "instruction" [.node "primitive" [.node "drop" []]]))]

theorem Gen.application_framed_twoDrops :
    let drop := fun n => Gen.topLevel {} "s_a" {} n (.primitive "drop" [])
    let g := final (drop 0 .empty)
    (g.relation.find? (fragmentName "s_a" (0 : Nat))).isSome ∧
      (final (drop 1 g)).relation.find? (fragmentName "s_a" (0 : Nat)) = g.relation.find?
        (fragmentName "s_a" (0 : Nat)) := by
  have ha : Collect.application twoDrops "" = .ok ⟨"a", {},
      List.replicate 2 (.primitive "drop" [])⟩ "" := rfl
  exact ⟨by decide +kernel,
    ((application_framed {} "s_a" ha).2 (.primitive "drop" []) 1 rfl {} _ 0 (by decide)).2⟩

end Pathwise
