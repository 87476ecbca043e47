import Pathwise.Proofs.Fragment.Origins
import Pathwise.Proofs.Fragment.Traversal

/-!
# Recorded operands

The variables and header fields that a fragment uses are recorded in its entry.  The record is
complete except for two things that are written without a record: the operand of a header
compression, and the two operands of the statement that copies a value into the variable of a
parameter.  Texts with these exceptions are `Logged`.

* `logging`: every step logs what it writes.
* `Gen.application_logged`: what an application writes for its fragments is logged in their entries.
-/

namespace Pathwise

open Steps Placement List

/-! ### Logged texts -/

/-- Every variable and header field among the pieces is recorded, up to the two kinds of statements
that keep no record. -/
inductive Logged (modules : OrderedMap String Module) (recorded : String → Prop) : List Piece → Prop
  | nil : Logged modules recorded []
  | cons {piece : Piece} {ps : List Piece}
      (h : ∀ o, piece = .operand o → o.isStored = true → recorded o.text)
      (rest : Logged modules recorded ps) : Logged modules recorded (piece :: ps)
  | compress {o : Operand} {ps : List Piece} (rest : Logged modules recorded ps) :
      Logged modules recorded (.compressOpen :: .operand o :: .compressClose :: ps)
  | copy {callee stem name : String} {m : Module} {o : Operand} {ps : List Piece}
      (hm : modules.find? callee = some m) (hname : m.TakesValue name)
      (rest : Logged modules recorded ps) : Logged modules recorded
        (.indent 1 :: .operand ⟨stem ++ "_" ++ name, .var⟩ :: .assignSign :: .operand o ::
          .endStatement :: ps)

namespace Logged

variable {modules : OrderedMap String Module} {recorded : String → Prop}

theorem append {ps qs : List Piece} (hp : Logged modules recorded ps)
    (hq : Logged modules recorded qs) :
    Logged modules recorded (ps ++ qs) := by
  induction hp with
  | nil => exact hq
  | cons h _ ih => exact .cons h ih
  | compress _ ih => exact .compress ih
  | copy hm hname _ ih => exact .copy hm hname ih

theorem of_forall {ps : List Piece}
    (h : ∀ o, .operand o ∈ ps → o.isStored = true → recorded o.text) :
    Logged modules recorded ps := by
  induction ps with
  | nil => exact .nil
  | cons p ps ih =>
    refine .cons (fun o hp => h o (hp ▸ mem_cons_self)) (ih fun o ho => h o (mem_cons_of_mem _ ho))

theorem copyPieces {callee stem name : String} {m : Module} (hm : modules.find? callee = some m)
    (hname : m.TakesValue name) (level : Nat) (o : Operand) :
    Logged modules recorded (copyPieces level (stem ++ "_" ++ name) o) := by
  induction level with
  | zero => exact .nil
  | succ level ih => exact .copy hm hname ih

end Logged

/-! ### The record is complete for every step -/

/-- The operand is recorded in the entry of the fragment. -/
def Generation.Records (g : Generation) (f text : String) : Prop :=
  ∃ r, g.relation.find? f = some (.fragment r) ∧ text ∈ r.inputs ++ r.outputs

/--
The step forgets no record, and what it writes for the fragment `f` is logged in every record that
holds what is recorded after it.
-/
def Logs (modules : OrderedMap String Module) (f : String) (recorded : String → Prop) {α : Type}
    (H : Prop) (x : Gen α) (Q : α → Prop) : Prop :=
  ∀ g a g', x g = .ok a g' → ∃ e, Performs f g e g' ∧ (∀ t, g.Records f t → g'.Records f t) ∧
    (H → (∀ t, g'.Records f t → recorded t) → Q a ∧ ∀ kind, Logged modules recorded (e.own kind))

namespace Logs

variable {modules : OrderedMap String Module} {f : String}
  {recorded : String → Prop} {α β : Type} {H : Prop}

theorem silent {x : Gen α} {Q : α → Prop} (hx : ∀ g a g', x g = .ok a g' →
      (∃ e, Performs f g e g' ∧ ∀ kind, e.own kind = []) ∧ g'.relation = g.relation ∧ (H → Q a)) :
    Logs modules f recorded H x Q := by
  intro g a g' h
  obtain ⟨⟨e, p, he⟩, hrelation, hQ⟩ := hx _ _ _ h
  refine ⟨e, p, fun t ht => ?_, fun hH _ => ⟨hQ hH, fun kind => ?_⟩⟩
  · rw [Generation.Records, hrelation]
    exact ht
  · rw [he]
    exact .nil

theorem bind {x : Gen α} {k : α → Gen β} {Q : α → Prop} {R : β → Prop}
    (hx : Logs modules f recorded H x Q) (hk : ∀ a, Logs modules f recorded (H ∧ Q a) (k a) R) :
    Logs modules f recorded H (x >>= k) R := by
  intro g b g' h
  obtain ⟨a, g₁, h1, h2⟩ := bind_eq_ok.mp h
  obtain ⟨e1, p1, hkeep1, hlog1⟩ := hx _ _ _ h1
  obtain ⟨e2, p2, hkeep2, hlog2⟩ := hk a _ _ _ h2
  refine ⟨e1 ++ e2, p1.trans p2, fun t ht => hkeep2 t (hkeep1 t ht), fun hH hrecorded => ?_⟩
  obtain ⟨hQ, hown1⟩ := hlog1 hH fun t ht => hrecorded t (hkeep2 t ht)
  obtain ⟨hR, hown2⟩ := hlog2 ⟨hH, hQ⟩ hrecorded
  exact ⟨hR, fun kind => (hown1 kind).append (hown2 kind)⟩

theorem imp {H' : Prop} {x : Gen α} {Q Q' : α → Prop} (hx : Logs modules f recorded H x Q)
    (hH : H' → H) (hQ : ∀ a, H' → Q a → Q' a) : Logs modules f recorded H' x Q' := by
  intro g a g' h
  obtain ⟨e, p, hkeep, hlog⟩ := hx _ _ _ h
  refine ⟨e, p, hkeep, fun hH' hrecorded => ?_⟩
  obtain ⟨ha, hown⟩ := hlog (hH hH') hrecorded
  exact ⟨hQ a hH' ha, hown⟩

theorem record {change : Relation → Relation} {e : Effect}
    (hp : ∀ g u g', Gen.record f change g = .ok u g' → Performs f g e g')
    (hown : ∀ kind, e.own kind = [])
    (hkeeps : ∀ r, r.inputs ++ r.outputs ⊆ (change r).inputs ++ (change r).outputs) :
    Logs modules f recorded H (Gen.record f change) fun _ =>
      ∀ t, (∀ r, t ∈ (change r).inputs ++ (change r).outputs) → recorded t := by
  intro g u g' h
  obtain ⟨r, hr, rfl⟩ := Gen.record_eq_ok h
  have hr' : (g.relation.insert f (.fragment (change r))).find? f = some (.fragment (change r)) :=
    OrderedMap.find?_insert_self ..
  refine ⟨e, hp g u _ h, fun t ht => ?_,
    fun _ hrecorded => ⟨fun t ht => hrecorded t ⟨change r, hr', ht r⟩, fun kind => ?_⟩⟩
  · obtain ⟨r0, hr0, ht⟩ := ht
    obtain rfl : r = r0 := RelationEntry.fragment.inj (Option.some.inj (hr.symm.trans hr0))
    exact ⟨change r, hr', hkeeps r ht⟩
  · rw [hown]
    exact .nil

theorem write {kind : TextKind} {ps : List Piece} (hkind : kind ≠ .vars)
    (hps : H → Logged modules recorded ps) :
    Logs modules f recorded H (Gen.emit ⟨f, kind⟩ ps) fun _ => True := by
  intro g u g' h
  refine ⟨.write kind ps, .emit h hkind, fun t ht => ?_, fun hH _ => ⟨trivial, fun kind' => ?_⟩⟩
  · rw [Generation.Records, Gen.emit_eq_ok h]
    exact ht
  · rw [Effect.write_own]
    split
    · exact hps hH
    · exact .nil

end Logs

/-- **Steps log what they write.** -/
def logging (modules : OrderedMap String Module) (f : String) (recorded : String → Prop) :
    Judgement modules f where
  holds H x Q := Logs modules f recorded H x Q
  isScope _ := True
  allowed _ := True
  used o := o.isStored = true → recorded o.text
  isScope_append _ _ := trivial
  allowed_append _ _ := trivial
  used_of_not_isStored h h' := by
    rw [h] at h'
    cases h'
  imp := .imp
  pure ha := .silent fun g b g' h => by
    obtain ⟨rfl, rfl⟩ := pure_eq_ok.mp h
    exact ⟨⟨.empty, .refl f g, fun _ => rfl⟩, rfl, ha⟩
  bind := .bind
  stopped h _ _ _ hx := absurd hx (h.ne_ok _ _ _)
  onlyReports hx := Logs.silent fun g a g' h => by
    obtain ⟨said, rfl, _⟩ := hx.eq_ok h
    exact ⟨⟨.empty, .of_eq rfl rfl rfl, fun _ => rfl⟩, rfl, fun _ => trivial⟩
  typeOf type := Logs.silent fun g a g' h => by
    obtain ⟨_, g₁, hget, h⟩ := bind_eq_ok.mp h
    obtain ⟨_, rfl⟩ := get_eq_ok.mp hget
    obtain ⟨_, rfl⟩ := pure_eq_ok.mp h
    exact ⟨⟨.empty, .refl f g, fun _ => rfl⟩, rfl, fun _ => trivial⟩
  drawTable _ := Logs.silent fun g a g' h => by
    obtain ⟨_, rfl⟩ := Gen.eq_of_drawTable h
    exact ⟨⟨.empty, .of_eq rfl rfl rfl, fun _ => rfl⟩, rfl, fun _ => trivial⟩
  drawAction _ := Logs.silent fun g a g' h => by
    refine ⟨⟨.draw a, .drawAction h, fun _ => rfl⟩, ?_, fun _ => trivial⟩
    obtain ⟨_, rfl⟩ := Gen.eq_of_drawAction h
    rfl
  recordInput o := by
    refine Logs.imp (.record (e := .empty) (fun _ _ _ => .recordInput) (fun _ => rfl) fun r t ht =>
      ?_) id fun _ _ h _ => h _ fun r => ?_
    · rw [append_assoc]
      rcases mem_append.mp ht with ht | ht <;> simp [ht]
    · simp
  recordOutput o := by
    refine Logs.imp (.record (e := .empty) (fun _ _ _ => .recordOutput) (fun _ => rfl) fun r t ht =>
      ?_) id fun _ _ h _ => h _ fun r => ?_
    · rcases mem_append.mp ht with ht | ht <;> simp [ht]
    · simp
  recordTable :=
    Logs.imp (.record (e := .countTable) (fun _ _ _ => .recordTable) (fun _ => rfl) fun r =>
    List.Subset.refl _) id
    fun _ _ _ => trivial
  recordModule name := Logs.imp
    (.record (e := .empty) (fun _ _ _ h => .note h (fun _ => rfl) (fun _ => rfl)) (fun _ => rfl)
    fun r => List.Subset.refl _) id fun _ _ _ => trivial
  recordScope {_ scope} _ := by
    refine Logs.imp (.record (e := .recordScope scope) (fun g u g' h => ?_) (fun _ => rfl) fun r =>
      List.Subset.refl _) id
      fun _ _ _ => trivial
    refine .record (fun r => ?_) (fun r => ?_)
      (Effect.addedTo_eq_nil (fun _ => rfl) (fun _ => rfl) f) rfl h <;> simp
  emitBefore hkind hrest hused := by
    intro g b g' h
    obtain ⟨_, g₁, h₁, h₂⟩ := bind_eq_ok.mp h
    obtain ⟨e, p, hkeep, hlog⟩ := hrest _ _ _ h₂
    refine ⟨_, (Performs.emit h₁ hkind.1).trans p, fun t ht => hkeep t ?_, fun hH hrecorded => ?_⟩
    · rw [Generation.Records, Gen.emit_eq_ok h₁]
      exact ht
    · obtain ⟨hQ, hown⟩ := hlog hH hrecorded
      refine ⟨hQ, fun kind' => Logged.append ?_ (hown kind')⟩
      rw [Effect.write_own]
      split
      · exact .of_forall (hused b hH hQ)
      · exact .nil
  emitEntries _ _ := Logs.write (by decide) fun _ => .of_forall (by simp)
  emitVars _ := Logs.silent fun g a g' h =>
    ⟨⟨_, .emitVars h, fun _ => rfl⟩, by rw [Gen.emit_eq_ok h], fun _ => trivial⟩
  declareVars _ := Logs.silent fun g a g' h => by
    obtain ⟨ps, p, hrelation, _⟩ := Emit.declareVars_eq_ok h
    exact ⟨⟨_, p f, fun _ => rfl⟩, hrelation, fun _ => trivial⟩
  compress hkind := by
    intro g u g' h
    simp only [Emit.operand, Mode.when, Mode.writes, if_true, bind_assoc, pure_bind,
      bind_eq_ok] at h
    obtain ⟨_, g₁, h₁, arg, g₂, h₂, o, g₃, h₃, _, g₄, h₄, h₅⟩ := h
    have p := ((((Performs.emit h₁ hkind.1).trans (.report h₂)).trans (.report h₃)).trans
      (.emit h₄ hkind.1)).trans
      (.emit h₅ hkind.1)
    obtain ⟨c, _, rfl⟩ := Gen.report_eq_ok.mp h₂
    obtain ⟨c', _, rfl⟩ := Gen.report_eq_ok.mp h₃
    refine ⟨_, p, fun t ht => ?_, fun _ _ => ⟨trivial, fun kind' => ?_⟩⟩
    · rw [Gen.emit_eq_ok h₅, Gen.emit_eq_ok h₄, Gen.emit_eq_ok h₁]
      exact ht
    · simp only [Effect.own_append, Effect.write_own, Effect.empty_own, append_nil]
      split
      · exact .compress .nil
      · exact .nil
  copy hm hname := Logs.write (by decide) fun _ => .copyPieces hm hname _ _

/-! ### Fragments of applications -/

/-- What was written for the fragment from `g` on is logged in its entry. -/
def LoggedSince (modules : OrderedMap String Module) (f : String) (g g' : Generation) : Prop :=
  ∀ r, g'.relation.find? f = some (.fragment r) → ∀ kind, kind ≠ .vars →
    ∃ ps, g'.written ⟨f, kind⟩ = g.written ⟨f, kind⟩ ++ ps ∧
    Logged modules (· ∈ r.inputs ++ r.outputs) ps

namespace LoggedSince

variable {modules : OrderedMap String Module} {f : String} {g g₀ g₁ g' : Generation}

theorem of_text_eq (h : LoggedSince modules f g₀ g')
    (htext : ∀ kind, kind ≠ .vars → g₀.written ⟨f, kind⟩ = g.written ⟨f, kind⟩) :
    LoggedSince modules f g g' := by
  intro r hr kind hkind
  rw [← htext kind hkind]
  exact h r hr kind hkind

theorem of_untouched (h : LoggedSince modules f g g₁) (hlast : Untouched f g₁ g') :
    LoggedSince modules f g g' := by
  intro r hr kind hkind
  rw [hlast.text kind hkind]
  exact h r (hlast.relation r hr) kind hkind

/-- **A step for a fragment is logged**, if it is judged so for every record. -/
theorem of_logs {α : Type} {x : Gen α} {a : α} {Q : α → Prop}
    (hx : ∀ recorded, Logs modules f recorded True x Q) (h : x g = .ok a g') :
    LoggedSince modules f g g' := by
  intro r hr kind hkind
  obtain ⟨e, p, _, hlog⟩ := hx (· ∈ r.inputs ++ r.outputs) g a g' h
  have hrecorded : ∀ t, g'.Records f t → t ∈ r.inputs ++ r.outputs := by
    rintro t ⟨r', hr', ht⟩
    obtain rfl : r = r' := RelationEntry.fragment.inj (Option.some.inj (hr.symm.trans hr'))
    exact ht
  refine ⟨e.own kind, ?_, (hlog trivial hrecorded).2 kind⟩
  rw [p.text, Effect.addedTo, if_neg hkind, if_pos rfl]

end LoggedSince

theorem Emit.block_logged {S : Setting} (hvalid : S.Valid) {depth : Nat} {sc : Scope}
    (hsc : S.Covers sc) {level : Nat} {inAction : Bool} (is : List Ins) :
    ∀ {n a : Nat} {g g' : Generation}, S.Admits is →
    block (Gen.runJob depth) sc ⟨Gen.looseFragment, level, inAction⟩ ⟨true, n, a⟩ is g = .ok () g' →
    ∀ k : Nat, n ≤ k → k < n + is.length → LoggedSince S.modules (fragmentName sc.stem k) g g' := by
  have hC := absorbs_sound S sc
  have hrun := Gen.runJob_sound hvalid depth
  induction is with
  | nil => exact fun _ _ k hk hlt => absurd hlt (Nat.not_lt.mpr hk)
  | cons i is ih =>
    intro n a g g' his h k hk hlt
    have hrest : S.Admits is := fun c hc => his c (.there hc)
    rw [length_cons] at hlt
    -- what comes after the instruction leaves its fragment alone, and has fragments of its own
    have hsplit : ∀ {f f' : String} {e : Effect} {g₁ g2 : Generation} {a' : Nat},
        beginFragment sc.stem n g = .ok f g₁ →
        Performs f' g₁ e g2 → f' = f ∨ f' = Gen.looseFragment →
        block (Gen.runJob depth) sc ⟨Gen.looseFragment, level, inAction⟩
          ⟨true, n + 1, a'⟩ is g2 = .ok () g' →
        (k = n → LoggedSince S.modules f g₁ g2) →
          LoggedSince S.modules (fragmentName sc.stem k) g g' := by
      intro f f' e g₁ g2 a' hbegin hp hf' hlast hfirst
      obtain ⟨rfl, htext, _⟩ := beginFragment_eq_ok hbegin
      by_cases hkn : k = n
      · subst hkn
        have hkept := (block_cut hrun hvalid hsc is hrest hlast).kept _
          (fragmentName_ne_loose sc.stem k) fun k' hk' _ heq => by
          have := (fragmentName_inj.mp heq).2
          omega
        exact ((hfirst rfl).of_untouched hkept).of_text_eq fun kind _ => htext _
      · refine (ih hrest hlast k (by omega) (by omega)).of_text_eq fun kind hkind => ?_
        have hne : fragmentName sc.stem k ≠ f' := by
          rcases hf' with rfl | rfl
          · intro heq
            exact hkn (by exact_mod_cast (fragmentName_inj.mp heq).2)
          · exact fragmentName_ne_loose sc.stem k
        rw [(hp.untouched hne).text kind hkind, htext]
    by_cases hassert : ∃ cs, i = .assert cs
    · obtain ⟨cs, rfl⟩ := hassert
      rw [block_cons_assert, nextFragment, if_pos rfl] at h
      simp only [bind_eq_ok] at h
      obtain ⟨f, g₁, h1, c, g2, h2, _, g3, h3, _, g4, h4, h5⟩ := h
      obtain ⟨e3, p3, _, _⟩ := condition_sound (S := S)
        ⟨Gen.looseFragment, level + a, inAction⟩ c h3
      obtain ⟨e4, p4, _, _⟩ := emitControl_keeps hC rfl h4
      have p := ((Performs.report h2).trans p3).trans p4
      refine hsplit h1 p (.inr rfl) h5 fun _ r _ kind hkind => ⟨[], ?_, .nil⟩
      obtain ⟨rfl, _⟩ := beginFragment_eq_ok h1
      rw [(p.untouched (fragmentName_ne_loose sc.stem n)).text kind hkind, append_nil]
    · have hi : S.Admits [i] := fun c hc => his c (hc.of_singleton is)
      rw [block_cons _ _ _ _ _ fun cs h => hassert ⟨cs, h⟩, nextFragment, if_pos rfl] at h
      simp only [bind_eq_ok] at h
      obtain ⟨f, g₁, h1, _, g2, h2, h3⟩ := h
      obtain ⟨e, p, _, _⟩ := instruction_sound hrun hvalid hsc ⟨f, level + a, inAction⟩ hi
        (fun _ _ _ _ _ => nested_sound hrun hvalid hsc _ i hi) h2
      refine hsplit h1 p (.inl rfl) h3 fun _ => .of_logs (Q := fun _ => True)
        (fun recorded => ?_) h2
      let J := logging S.modules f recorded
      have hcovers : J.Covers sc := ⟨hsc.modules, trivial⟩
      exact J.instructionAt depth hcovers _ _ i

theorem Gen.application_logged {p : Program} {service name : String} {a : Application}
    {g g' : Generation} (ha : p.applications.find? name = some a)
    (h : Gen.application p.modules (service ++ "_" ++ name) a g = .ok () g') :
    ∀ k : Nat, k < a.body.length →
      LoggedSince p.modules (fragmentName (service ++ "_" ++ name) k) g g' := by
  intro k hk
  obtain ⟨vars, g₁, h1, h2⟩ := bind_eq_ok.mp h
  obtain ⟨ps, hp, _⟩ := Emit.declareVars_eq_ok h1
  have hlogged := Emit.block_logged p.setting_valid (p.setting.covers_application _ vars) a.body
    (Program.Holds.admits (.application ha)) h2 k (Nat.zero_le k)
    (by omega)
  refine hlogged.of_text_eq fun kind hkind => ?_
  rw [(hp "").text, Effect.addedTo, if_neg hkind]
  split <;> simp

end Pathwise
