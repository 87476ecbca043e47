import Pathwise.Fragment.Generate
import Pathwise.Proofs.Fragment.Calls
import Pathwise.Proofs.Fragment.SingleTable

/-!
# Blocks

Whatever stands in a block is sound (`block_sound`): statements are plain, conditions and tables are
sound, and calls and functions are followed to any depth (`runJob_sound`).
-/

namespace Pathwise

open Steps

/-! ### What is assumed about a program -/

/-- The instruction stands among the others or in a block of one of them. -/
inductive Ins.Within (x : Ins) : List Ins → Prop
  | here {is : List Ins} : Within x (x :: is)
  | there {i : Ins} {is : List Ins} (h : Within x is) : Within x (i :: is)
  | thenBlock {cs : List Condition} {b : List Ins} {bs : List (List Ins)} {e : Option Ins}
      {d : Option (List Ins)} {is : List Ins} (h : Within x b) :
      Within x (.branch cs (b :: bs) e d :: is)
  | elseIf {cs : List Condition} {bs : List (List Ins)} {e : Ins} {d : Option (List Ins)}
      {is : List Ins} (h : Within x [e]) : Within x (.branch cs bs (some e) d :: is)
  | elseBlock {cs : List Condition} {bs : List (List Ins)} {e : Option Ins} {d is : List Ins}
      (h : Within x d) : Within x (.branch cs bs e (some d) :: is)

theorem Ins.Within.of_singleton {x i : Ins} (h : Within x [i]) (is : List Ins) :
    Within x (i :: is) := by
  cases h with
  | here => exact .here
  | there h => cases h
  | thenBlock h => exact .thenBlock h
  | elseIf h => exact .elseIf h
  | elseBlock h => exact .elseBlock h

/-- The call stands among the instructions or in a block of one of them. -/
abbrev CallIn (c : Call) : List Ins → Prop :=
  Ins.Within (.call c)

namespace Setting

/-- Constants that are passed in calls among the instructions are admitted. -/
def Admits (S : Setting) (is : List Ins) : Prop :=
  ∀ c, CallIn c is → ∀ t ∈ c.args, ∀ v, t.constant? = some v → S.literal v

/-- So are those in functions, and in a regular program functions with the name of a primitive hold
steps only. -/
structure AdmitsFuncs (S : Setting) (funcs : OrderedMap String (List Ins)) : Prop where
  admits : ∀ name body, funcs.find? name = some body → S.Admits body
  steps : S.regular → ∀ name body, funcs.find? name = some body → name = "nop" ∨ name = "drop" →
    ∀ i ∈ body, i.IsStep

/-- All modules are admitted. -/
structure Valid (S : Setting) : Prop where
  bodies : ∀ name m, S.modules.find? name = some m → S.Admits m.body
  funcs : ∀ name m, S.modules.find? name = some m → S.AdmitsFuncs m.funcs

/-- The scope knows the modules of the setting, its functions are admitted, and its maps and sets
belong to modules. -/
structure Covers (S : Setting) (sc : Scope) : Prop where
  modules : sc.modules = S.modules
  funcs : S.AdmitsFuncs sc.funcs
  offers : S.Offers sc

theorem covers_application (S : Setting) (stem : String) (vars : OrderedMap String String) :
    S.Covers ⟨stem, vars, {}, {}, {}, S.modules⟩ := by
  refine ⟨rfl, ⟨fun name body hbody => ?_, fun _ name body hbody => ?_⟩, fun t l hl => ?_⟩
  · cases hbody
  · cases hbody
  · rcases hl with hl | hl <;> cases hl

end Setting

/-- What is assumed about the generation of blocks in scopes of their own. -/
def RunsSoundly (S : Setting) (run : Job → Gen Unit) : Prop :=
  ∀ job, S.Covers job.scope → S.Admits job.body →
    Keeps job.site.fragment (fun e => Sound S job.scope e ∧
    (job.site.inAction = true → (∀ i ∈ job.body, i.IsStep) → Plain job.scope e))
      (run job) fun _ => True

namespace Emit

/-! ### Instructions -/

section

variable (run : Job → Gen Unit) (sc : Scope) (site : Site)

/-- What is written for an instruction that is no assertion. -/
def instruction : Ins → Gen Unit
  | .assign targets source => do
    let _ ← assign .write sc site targets source
    pure ()
  | .arith targets left op right => arith sc site targets left op right
  | .primitive kind args => primitive sc site kind args
  | .call c =>
    if c.isApply then moduleCall run sc site c
    else Report.halt s!"?-generate.py-generate_ins what ins {c.kind}"
  | .switch keys cases calls => do
    if ← Fit.switch sc site.level keys cases calls then switch run sc site keys cases calls
    else Report.halt "error here 7894"
  | .branch cs bs e d => do
    if ← Fit.branch sc site.level (.branch cs bs e d) then table run sc site (.branch cs bs e d)
    else nested run sc site (.branch cs bs e d)
  | .assert _ => pure ()
  | .other kind => Report.halt s!"?-generate.py-generate_ins what ins {kind}"

def nextFragment (p : Progress) : Gen String :=
  if p.cut then beginFragment sc.stem p.number else pure site.fragment

theorem block_cons (p : Progress) (is : List Ins) {i : Ins} (hi : ∀ cs, i ≠ .assert cs) :
    block run sc site p (i :: is) = (do
      let frag ← nextFragment sc site p
      instruction run sc ⟨frag, site.level + p.asserts, site.inAction⟩ i
      block run sc site { p with number := p.number + 1 } is) := by
  obtain ⟨cut, n, a⟩ := p
  cases i with
  | assign targets source => cases cut <;> simp [block, nextFragment, instruction]
  | arith targets left op right => cases cut <;> rfl
  | primitive kind args => cases cut <;> rfl
  | call c => cases cut <;> cases happly : c.isApply <;> simp [block, nextFragment,
    instruction, happly]
  | switch keys cases calls =>
    have hswitch : ∀ (here : Site) (rest : Gen Unit), (do
        if ← Fit.switch sc here.level keys cases calls then switch run sc here keys cases calls
        else Report.halt "error here 7894"
        rest) = (do instruction run sc here (.switch keys cases calls); rest) := by
      intro here rest
      simp only [instruction, bind_assoc]
      refine bind_congr fun fits => ?_
      cases fits <;> rfl
    cases cut with
    | false => exact hswitch _ _
    | true => exact bind_congr fun frag => hswitch _ _
  | branch cs bs e d =>
    have hbranch : ∀ (here : Site) (rest : Gen Unit), (do
        if ← Fit.branch sc here.level (.branch cs bs e d) then
          let t ← beginTable sc here cs
          let deflt ← tableLinks run sc here t.1 t.2 (.branch cs bs e d)
          endTable here t.1 deflt
        else nested run sc here (.branch cs bs e d)
        rest) = (do instruction run sc here (.branch cs bs e d); rest) := by
      intro here rest
      simp only [instruction, bind_assoc]
      refine bind_congr fun fits => ?_
      cases fits with
      | false => rfl
      | true =>
        simp only [if_true, table, bind_assoc]
        rfl
    cases cut with
    | false => exact hbranch _ _
    | true => exact bind_congr fun frag => hbranch _ _
  | assert cs => exact absurd rfl (hi cs)
  | other kind => cases cut <;> rfl

theorem block_cons_assert (p : Progress) (is : List Ins) (cs : List Condition) :
    block run sc site p (.assert cs :: is) = (do
      let _ ← nextFragment sc site p
      let c ← (firstOf cs : Report Condition)
      condition sc { site with level := site.level + p.asserts } c
      openBlock { site with level := site.level + p.asserts }
      block run sc site { p with number := p.number + 1, asserts := p.asserts + 1 } is) := by
  obtain ⟨cut, n, a⟩ := p
  cases cut <;> rfl

end

section

variable {S : Setting} {run : Job → Gen Unit} {sc : Scope}

theorem instruction_sound (hrun : RunsSoundly S run) (hvalid : S.Valid) (hsc : S.Covers sc)
    (site : Site) {i : Ins} (hi : S.Admits [i]) (hnested : ∀ cs bs e d, i = .branch cs bs e d →
      Keeps site.fragment (Sound S sc) (nested run sc site i) fun _ => True) :
    Keeps site.fragment (Sound S sc) (instruction run sc site i) fun _ => True := by
  have hC := absorbs_sound S sc
  have hJ := hC.toJoins
  cases i with
  | assign targets source =>
    refine .bind hJ (assign_keeps hC site targets source ?_) fun _ _ => .pure hJ trivial
    exact fun _ name map hmap => lookup_sound targets source name (hsc.offers name map (.inl hmap))
  | arith targets left op right => exact arith_keeps hC site targets left op right
  | primitive kind args => exact primitive_keeps hC site kind args
  | call c =>
    simp only [instruction]
    split
    · refine moduleCall_sound (hi c .here) fun m vars hm => ?_
      rw [hsc.modules] at hm
      refine (hrun _ ⟨hsc.modules, hvalid.funcs _ m hm, fun t l hl => ⟨_, m, t, hm, hl⟩⟩
        (hvalid.bodies _ m hm)).mono fun _ e h => ?_
      exact ⟨trivial, h.2.1⟩
    · exact .halt
  | switch keys cases calls =>
    refine .bind hJ (.onlyReports hJ (Fit.switch_onlyReports sc _ keys cases calls)) ?_
    rintro (_ | _) ⟨k, k', hfit⟩
    · exact .halt
    · refine switch_sound hsc.offers site fun c hc body hbody => ?_
      refine (hrun _ hsc (hsc.funcs.admits _ body hbody)).mono fun _ e h =>
        ⟨trivial, h.2.1, fun hS => h.2.2 rfl ?_⟩
      by_cases hname : c.name = "nop" ∨ c.name = "drop"
      · exact hsc.funcs.steps hS _ body hbody hname
      · exact Fit.switch_eq_true hfit c hc (fun h => hname (.inl h))
          (fun h => hname (.inr h)) body hbody
  | branch cs bs e d =>
    refine .bind hJ (.onlyReports hJ (Fit.branch_onlyReports sc _ _)) ?_
    rintro (_ | _) ⟨k, k', hfit⟩
    · exact hnested cs bs e d rfl
    · obtain ⟨_, hblocks, hlast⟩ := Fit.branch_eq_true hfit
      exact table_sound hsc.offers site (Ins.stepsOnly_of_chain _ hblocks hlast)
  | assert cs => exact .pure hJ trivial
  | other kind => exact .halt

theorem nested_ne_ok {site : Site} {i : Ins}
    (hi : ∀ c cs b bs e d, i ≠ .branch (c :: cs) (b :: bs) e d) {g g' : Generation} {u : Unit} :
    nested run sc site i g ≠ .ok u g' := by
  have hfirst : ∀ {k : Condition → Gen Unit}, (liftM (firstOf []) >>= k) g ≠ .ok u g' := by
    intro k h
    obtain ⟨_, _, h, _⟩ := bind_eq_ok.mp h
    obtain ⟨_, h, _⟩ := Gen.report_eq_ok.mp h
    exact throw_ne_ok h
  have hblocks : ∀ {x : Gen Condition} {k : Condition → Gen Unit} {k' : Gen Unit}, (do
      let c ← x
      k c
      openBlock site
      (throw Fault.outOfRange : Gen Unit)
      k') g ≠ .ok u g' := by
    intro x k k' h
    simp only [bind_eq_ok] at h
    obtain ⟨_, _, _, _, _, _, _, _, _, _, _, h, _⟩ := h
    exact throw_ne_ok h
  intro h
  cases i with
  | branch cs bs e d =>
    cases cs with
    | nil => cases bs <;> cases e <;> cases d <;> exact hfirst h
    | cons c cs =>
      cases bs with
      | nil => cases e <;> cases d <;> exact hblocks h
      | cons b bs => exact hi c cs b bs e d rfl
  | assert cs =>
    change (do
      let c ← (firstOf cs : Report Condition)
      condition sc site c
      openBlock site
      throw .outOfRange : Gen Unit) g = .ok u g' at h
    simp only [bind_eq_ok] at h
    obtain ⟨_, _, _, _, _, _, _, _, _, h⟩ := h
    exact throw_ne_ok h
  | _ => exact hfirst h

mutual

theorem block_sound (hrun : RunsSoundly S run) (hvalid : S.Valid) (hsc : S.Covers sc) (site : Site)
    (n a : Nat) :
    ∀ is : List Ins, S.Admits is → Keeps site.fragment (Sound S sc)
    (block run sc site ⟨false, n, a⟩ is) fun _ => True
  | [], _ => closeBlocks_keeps (absorbs_sound S sc) site a
  | i :: is, his => by
    have hC := absorbs_sound S sc
    have hJ := hC.toJoins
    have hrest : ∀ a, Keeps site.fragment (Sound S sc)
        (block run sc site ⟨false, n + 1, a⟩ is) fun _ => True :=
      fun a => block_sound hrun hvalid hsc site (n + 1) a is fun c hc => his c (.there hc)
    by_cases hassert : ∃ cs, i = .assert cs
    · obtain ⟨cs, rfl⟩ := hassert
      rw [block_cons_assert, nextFragment, if_neg Bool.false_ne_true, pure_bind]
      refine .bind hJ (.report hJ fun _ _ _ _ => trivial) fun c _ => ?_
      refine .bind hJ (condition_sound { site with level := site.level + a } c) fun _ _ => ?_
      exact .bind hJ (emitControl_keeps hC rfl) fun _ _ => hrest (a + 1)
    · have hi : S.Admits [i] := fun c hc => his c (hc.of_singleton is)
      rw [block_cons _ _ _ _ _ fun cs h => hassert ⟨cs, h⟩, nextFragment,
        if_neg Bool.false_ne_true, pure_bind]
      refine .bind hJ (instruction_sound hrun hvalid hsc
        ⟨site.fragment, site.level + a, site.inAction⟩ hi ?_)
        fun _ _ => hrest a
      exact fun _ _ _ _ _ => nested_sound hrun hvalid hsc
        ⟨site.fragment, site.level + a, site.inAction⟩ i hi

theorem nested_sound (hrun : RunsSoundly S run) (hvalid : S.Valid) (hsc : S.Covers sc)
    (site : Site) :
    ∀ i : Ins, S.Admits [i] → Keeps site.fragment (Sound S sc) (nested run sc site i) fun _ => True
  | .branch (c :: cs) (b :: bs) e d, hi => by
    have hC := absorbs_sound S sc
    have hJ := hC.toJoins
    have hb := block_sound hrun hvalid hsc ⟨site.fragment, site.level + 1, false⟩ 0 0 b fun c hc =>
      hi c (.thenBlock hc)
    have hd : Keeps site.fragment (Sound S sc) (elsePart run sc site d) fun _ => True := by
      match d with
      | none => exact .pure hJ trivial
      | some d' =>
        have hd := block_sound hrun hvalid hsc
          ⟨site.fragment, site.level + 1, false⟩ 0 0 d' fun c hc => hi c (.elseBlock hc)
        refine .bind hJ (emitControl_keeps hC rfl) fun _ _ => .bind hJ hd fun _ _ => ?_
        exact emitControl_keeps hC rfl
    have helse : Keeps site.fragment (Sound S sc) (elseParts run sc site e d) fun _ => True := by
      match e with
      | none => exact hd
      | some e' =>
        have he := nested_sound hrun hvalid hsc
          ⟨site.fragment, site.level + 1, false⟩ e' fun c hc => hi c (.elseIf hc)
        refine .bind hJ (emitControl_keeps hC rfl) fun _ _ => .bind hJ he fun _ _ => ?_
        exact .bind hJ (emitControl_keeps hC rfl) fun _ _ => hd
    rw [nested_branch]
    refine .bind hJ (condition_sound site c) fun _ _ =>
      .bind hJ (emitControl_keeps hC rfl) fun _ _ => ?_
    refine .bind hJ hb fun _ _ => ?_
    exact .bind hJ (emitControl_keeps hC rfl) fun _ _ => helse
  | .branch [] _ _ _, _ | .branch (_ :: _) [] _ _, _ | .assign .., _ | .arith .., _ | .call _, _
  | .primitive .., _
  | .assert _, _ | .switch .., _ | .other _, _ => fun _ _ _ h => absurd h (nested_ne_ok (by simp))

end

end

end Emit

/-- **Blocks of modules and functions are sound**, however deep the calls are nested. -/
theorem Gen.runJob_sound {S : Setting} (hvalid : S.Valid) (depth : Nat) :
    RunsSoundly S (Gen.runJob depth) := by
  induction depth with
  | zero => exact fun job _ _ => .throw
  | succ depth ih =>
    rintro ⟨sc, site, body⟩ hsc hbody
    by_cases hsteps : site.inAction = true ∧ ∀ i ∈ body, i.IsStep
    · obtain ⟨frag, level, _⟩ := site
      obtain ⟨rfl, hsteps⟩ := hsteps
      refine (Emit.steps_plain body hsteps).mono fun _ e h => ⟨trivial, h.2.sound S, fun _ _ => h.2⟩
    · refine (Emit.block_sound ih hvalid hsc site 0 0 body hbody).mono fun _ e h =>
        ⟨trivial, h.2, fun hsite hall => ?_⟩
      exact absurd ⟨hsite, hall⟩ hsteps

end Pathwise
