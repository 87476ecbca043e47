import Mathlib.Data.Finset.Card
import Mathlib.Logic.Relation
import Pathwise.Program.Collect
import Pathwise.Program.Plain
import Pathwise.Proofs.Fragment.Blocks

/-!
# The depth of calls

Generation follows calls down to a bound (`Gen.callDepth`).  **If no module calls itself, directly
or through others, the bound is never reached** (`Gen.application_not_cut_off`): whatever is done in
place of the calls beyond it, every application is generated in the same way.

Three facts hold the calls below the bound.  A function of a gathered module contains no switch, so
it calls no other function (`Program.flat_of_gather`).  A function that a switch calls consists of
steps unless it has the name of a primitive (`Fit.switch_eq_true`).  And a module that is called
reaches fewer modules than the one that calls it (`Program.reach_lt`).
-/

namespace Pathwise

open Steps List

/-! ### Functions without switches -/

/-- No switch stands among the instructions or in a block of one of them. -/
def Ins.Flat (is : List Ins) : Prop :=
  ∀ keys cases calls, ¬ Within (.switch keys cases calls) is

namespace Ins.Flat

variable {i : Ins} {is : List Ins}

theorem nil : Flat [] := by
  intro keys cases calls h
  cases h

theorem cons (hi : Flat [i]) (his : Flat is) : Flat (i :: is) := by
  intro keys cases calls h
  cases h with
  | here => exact hi _ _ _ .here
  | there h => exact his _ _ _ h
  | thenBlock h => exact hi _ _ _ (.thenBlock h)
  | elseIf h => exact hi _ _ _ (.elseIf h)
  | elseBlock h => exact hi _ _ _ (.elseBlock h)

theorem branch {cs : List Condition} {bs : List (List Ins)} {e : Option Ins} {d : Option (List Ins)}
    (hbs : ∀ b ∈ bs, Flat b) (he : ∀ i ∈ e, Flat [i]) (hd : ∀ b ∈ d, Flat b) :
    Flat [.branch cs bs e d] := by
  intro keys cases calls h
  cases h with
  | there h => cases h
  | thenBlock h => exact hbs _ mem_cons_self _ _ _ h
  | elseIf h => exact he _ rfl _ _ _ h
  | elseBlock h => exact hd _ rfl _ _ _ h

/-- Plain right sides neither add nor remove a switch. -/
theorem plainList (his : Flat is) : Flat (Ins.plainList is) := by
  intro keys cases calls h
  refine his keys cases calls ?_
  generalize hjs : Ins.plainList is = js at h
  clear his
  induction h generalizing is with
  | here =>
    cases is with
    | nil => cases hjs
    | cons i is => cases i <;> cases hjs; exact .here
  | there h ih =>
    cases is with
    | nil => cases hjs
    | cons i is => exact .there (ih (List.cons.inj hjs).2)
  | thenBlock h ih =>
    cases is with
    | nil => cases hjs
    | cons i is =>
      cases i with
      | branch cs bs e d =>
        cases bs with
        | nil => cases hjs
        | cons b bs => cases hjs; exact .thenBlock (ih rfl)
      | _ => cases hjs
  | elseIf h ih =>
    cases is with
    | nil => cases hjs
    | cons i is =>
      cases i with
      | branch cs bs e d =>
        cases e with
        | none => cases hjs
        | some e => cases hjs; exact .elseIf (ih rfl)
      | _ => cases hjs
  | elseBlock h ih =>
    cases is with
    | nil => cases hjs
    | cons i is =>
      cases i with
      | branch cs bs e d =>
        cases d with
        | none => cases hjs
        | some d => cases hjs; exact .elseBlock (ih rfl)
      | _ => cases hjs

end Ins.Flat

namespace Collect

variable {out out' : String}

theorem leafStatement_flat {kind : String} {t : Tree} {i : Ins}
    (h : leafStatement kind t out = .ok i out') :
    Ins.Flat [i] := by
  -- none of these instructions has a block, or is a switch
  have hleaf : (∃ ts s, i = .assign ts s) ∨ (∃ c, i = .call c) ∨
      (∃ kind args, i = .primitive kind args) ∨
      ∃ ts l op r, i = .arith ts l op r := by
    unfold leafStatement at h
    split at h
    · simp only [assign, bind_eq_ok, pure_eq_ok] at h
      obtain ⟨_, _, _, _, _, _, _, _, _, rfl, _⟩ := h
      exact .inl ⟨_, _, rfl⟩
    split at h
    · obtain ⟨c, _, rfl⟩ := bind_pure_eq_ok.mp h
      exact .inr (.inl ⟨c, rfl⟩)
    split at h
    · simp only [primitive, bind_eq_ok] at h
      obtain ⟨_, _, _, _, _, _, h⟩ := h
      refine .inr (.inr (.inl ?_))
      split at h
      · obtain ⟨_, _, rfl⟩ := bind_pure_eq_ok.mp h
        exact ⟨_, _, rfl⟩
      split at h
      · obtain ⟨_, _, rfl⟩ := bind_pure_eq_ok.mp h
        exact ⟨_, _, rfl⟩
      split at h
      · exact ⟨_, _, (pure_eq_ok.mp h).1.symm⟩
      · obtain ⟨_, _, _, h⟩ := bind_eq_ok.mp h
        exact ⟨_, _, (pure_eq_ok.mp h).1.symm⟩
    split at h
    · simp only [arith, bind_eq_ok, pure_eq_ok] at h
      obtain ⟨_, _, _, _, _, _, _, _, _, _, _, _, rfl, _⟩ := h
      exact .inr (.inr (.inr ⟨_, _, _, _, rfl⟩))
    · exact absurd h halt_ne_ok
  intro keys cases calls hin
  obtain ⟨ts, s, rfl⟩ | ⟨c, rfl⟩ | ⟨kind, args, rfl⟩ | ⟨ts, l, op, r, rfl⟩ := hleaf
  all_goals
    cases hin with
    | there h => cases h

/-- What was collected of an if contains no switch. -/
structure BranchParts.Flat (b : BranchParts) : Prop where
  blocks : ∀ is ∈ b.blocks, Ins.Flat is
  elseIf : ∀ i ∈ b.elseIf, Ins.Flat [i]
  otherwise : ∀ is ∈ b.otherwise, Ins.Flat is

theorem BranchParts.Flat.nil : BranchParts.Flat ⟨[], [], none, none⟩ where
  blocks := forall_mem_nil _
  elseIf _ h := by cases h
  otherwise _ h := by cases h

theorem BranchParts.Flat.branch {b : BranchParts} (h : b.Flat) :
    Ins.Flat [.branch b.conditions b.blocks b.elseIf b.otherwise] :=
  .branch h.blocks h.elseIf h.otherwise

mutual

theorem block_flat :
    ∀ (t : Tree) {b : List Ins} {out out' : String}, block t out = .ok b out' → Ins.Flat b
  | .leaf _, _, _, _, h => absurd h throw_ne_ok
  | .node _ cs, _, _, _, h => statements_flat cs (by rwa [block] at h)

theorem statements_flat : ∀ (ts : List Tree) {b : List Ins} {out out' : String},
    statements ts out = .ok b out' → Ins.Flat b
  | [], _, _, _, h => (pure_eq_ok.mp h).1 ▸ .nil
  | .leaf _ :: _, _, _, _, h => absurd h throw_ne_ok
  | .node r cs :: ts, _, _, _, h => by
    rw [statements.eq_def] at h
    dsimp only at h
    split at h
    · match cs with
      | [] => exact absurd h throw_ne_ok
      | .leaf _ :: _ => exact absurd h throw_ne_ok
      | .node kind parts :: _ =>
        dsimp only at h
        split at h
        · simp only [bind_eq_ok, pure_eq_ok] at h
          obtain ⟨b, _, hb, _, _, ⟨rfl, rfl⟩, rest, _, hrest, rfl, _⟩ := h
          exact .cons (branchParts_flat parts .nil hb).branch (statements_flat ts hrest)
        · simp only [bind_eq_ok, pure_eq_ok] at h
          obtain ⟨i, _, hi, rest, _, hrest, rfl, _⟩ := h
          exact .cons (leafStatement_flat hi) (statements_flat ts hrest)
    · exact statements_flat ts h

theorem branchParts_flat : ∀ (ts : List Tree) {acc b : BranchParts} {out out' : String}, acc.Flat →
    branchParts acc ts out = .ok b out' → b.Flat
  | [], _, _, _, _, hacc, h => (pure_eq_ok.mp h).1 ▸ hacc
  | .leaf _ :: _, _, _, _, _, _, h => absurd h throw_ne_ok
  | .node r cs :: ts, _, _, _, _, hacc, h => by
    rw [branchParts.eq_def] at h
    dsimp only at h
    split at h
    · match cs with
      | [] => exact absurd h throw_ne_ok
      | [c] =>
        obtain ⟨_, _, _, h⟩ := bind_eq_ok.mp h
        exact absurd h throw_ne_ok
      | c :: body :: _ =>
        simp only [bind_eq_ok] at h
        obtain ⟨cond, _, _, b, _, hb, h⟩ := h
        refine branchParts_flat ts ?_ h
        exact { hacc with
            blocks := forall_mem_append.mpr
              ⟨hacc.blocks, forall_mem_singleton.mpr (block_flat body hb)⟩ }
    split at h
    · match cs with
      | [] => exact absurd h throw_ne_ok
      | .leaf _ :: _ => exact absurd h throw_ne_ok
      | .node kind parts :: _ =>
        dsimp only at h
        split at h
        · match parts with
          | [] => exact absurd h throw_ne_ok
          | body :: _ =>
            obtain ⟨b, _, hb, h⟩ := bind_eq_ok.mp h
            refine branchParts_flat ts ?_ h
            exact { hacc with otherwise := fun _ h => Option.some.inj h ▸ block_flat body hb }
        · obtain ⟨b, _, hb, h⟩ := bind_eq_ok.mp h
          refine branchParts_flat ts ?_ h
          exact { hacc with
              elseIf := fun _ h => Option.some.inj h ▸ (branchParts_flat parts .nil hb).branch }
    · exact absurd h halt_ne_ok

end

end Collect

/-- No function of the module contains a switch. -/
def Module.FlatFuncs (m : Module) : Prop :=
  ∀ e ∈ m.funcs.entries, Ins.Flat e.2

namespace Collect

variable {m m' : Module} {t : Tree} {out out' : String}

theorem moduleDefinition_flat (hm : m.FlatFuncs) (h : moduleDefinition m t out = .ok m' out') :
    m'.FlatFuncs := by
  obtain ⟨what, _, h⟩ := bind_shape_eq_ok.mp h
  -- of the six kinds of definitions, the fourth adds a function
  obtain h | h := ite_eq_ok h
  · simp only [bind_eq_ok, pure_eq_ok] at h
    obtain ⟨_, _, _, _, _, _, _, _, _, rfl, _⟩ := h
    exact hm
  obtain h | h := ite_eq_ok h
  · simp only [bind_eq_ok, pure_eq_ok] at h
    obtain ⟨_, _, _, _, _, _, rfl, _⟩ := h
    exact hm
  obtain h | h := ite_eq_ok h
  · simp only [bind_eq_ok, pure_eq_ok] at h
    obtain ⟨_, _, _, _, _, _, rfl, _⟩ := h
    exact hm
  obtain h | h := ite_eq_ok h
  · simp only [bind_eq_ok, pure_eq_ok] at h
    obtain ⟨body, _, _, b, _, hb, name, _, _, rfl, _⟩ := h
    intro e he
    rcases OrderedMap.mem_entries_insert he with he | he
    · exact he ▸ block_flat body hb
    · exact hm e he
  obtain h | h := ite_eq_ok h
  · obtain ⟨_, _, rfl⟩ := bind_pure_eq_ok.mp h
    exact hm
  obtain h | h := ite_eq_ok h
  · obtain ⟨_, _, rfl⟩ := bind_pure_eq_ok.mp h
    exact hm
  · exact absurd h halt_ne_ok

theorem moduleStatement_flat (hm : m.FlatFuncs) (h : moduleStatement m t out = .ok m' out') :
    m'.FlatFuncs := by
  obtain ⟨t', _, h⟩ := bind_shape_eq_ok.mp h
  obtain ⟨kind, _, h⟩ := bind_shape_eq_ok.mp h
  -- an instruction goes to the body, and leaves the functions alone
  have hadd : ∀ {β : Type} {x : Report β} {f : β → Ins} {s : String},
      (do let i ← x; pure { m with body := m.body ++ [f i] } : Report Module) s = .ok m' out' →
        m'.FlatFuncs := by
    intro β x f s h
    obtain ⟨_, _, rfl⟩ := bind_pure_eq_ok.mp h
    exact hm
  obtain h | h := ite_eq_ok h
  · exact hadd h
  obtain h | h := ite_eq_ok h
  · obtain ⟨d, _, h⟩ := bind_shape_eq_ok.mp h
    exact moduleDefinition_flat hm h
  obtain h | h := ite_eq_ok h
  · exact hadd h
  obtain h | h := ite_eq_ok h
  · exact hadd h
  obtain h | h := ite_eq_ok h
  · exact hadd h
  obtain h | h := ite_eq_ok h
  · exact hadd h
  obtain h | h := ite_eq_ok h
  · exact hadd h
  obtain h | h := ite_eq_ok h
  · exact hadd h
  obtain h | h := ite_eq_ok h
  · exact (pure_eq_ok.mp h).1 ▸ hm
  · exact absurd h halt_ne_ok

theorem module_flat (h : module t out = .ok m out') : m.FlatFuncs := by
  obtain ⟨name, _, h⟩ := bind_shape_eq_ok.mp h
  obtain ⟨parts, _, h⟩ := bind_shape_eq_ok.mp h
  have hnamed : (Module.named name).FlatFuncs := forall_mem_nil _
  refine foldlM_keeps Module.FlatFuncs (fun m part s m' s' hm h => ?_) parts hnamed h
  obtain ⟨kind, _, h⟩ := bind_shape_eq_ok.mp h
  obtain h | h := ite_eq_ok h
  · exact (pure_eq_ok.mp h).1 ▸ hm
  obtain h | h := ite_eq_ok h
  · obtain ⟨body, _, h⟩ := bind_shape_eq_ok.mp h
    obtain ⟨nodes, _, h⟩ := bind_shape_eq_ok.mp h
    exact foldlM_keeps Module.FlatFuncs (fun _ _ _ _ _ => moduleStatement_flat) nodes hm h
  obtain h | h := ite_eq_ok h
  · obtain ⟨params, _, h⟩ := bind_shape_eq_ok.mp h
    refine foldlM_keeps Module.FlatFuncs (fun m param s m' s' hm h => ?_) params hm h
    simp only [moduleParam, bind_eq_ok, pure_eq_ok] at h
    obtain ⟨_, _, _, _, _, _, _, _, _, rfl, _⟩ := h
    exact hm
  · exact absurd h halt_ne_ok

end Collect

namespace Program

/-- No function of a module contains a switch. -/
def Flat (p : Program) : Prop :=
  ∀ e ∈ p.modules.entries, e.2.FlatFuncs

variable {p p' : Program} {out out' : String}

theorem addComponent_flat {t : Tree} (hp : p.Flat) (h : addComponent p t out = .ok p' out') :
    p'.Flat := by
  obtain ⟨kind, _, h⟩ := bind_shape_eq_ok.mp h
  obtain h | h := ite_eq_ok h
  · obtain ⟨_, _, rfl⟩ := bind_pure_eq_ok.mp h
    exact hp
  obtain h | h := ite_eq_ok h
  · obtain ⟨_, _, rfl⟩ := bind_pure_eq_ok.mp h
    exact hp
  obtain h | h := ite_eq_ok h
  · obtain ⟨m, hm, rfl⟩ := bind_pure_eq_ok.mp h
    intro e he
    rcases OrderedMap.mem_entries_insertNew he with he | he
    · exact he ▸ Collect.module_flat hm
    · exact hp e he
  · exact absurd h halt_ne_ok

/-- **Functions of gathered modules contain no switch**: the statements of their blocks leave no
room for one. -/
theorem flat_of_gather {files : List Tree} (h : gather files out = .ok p out') : p.Flat := by
  have hempty : empty.Flat := forall_mem_nil _
  refine foldlM_keeps Flat (fun p file s p' s' hp h => ?_) files hempty h
  obtain ⟨parts, _, h⟩ := bind_shape_eq_ok.mp h
  refine foldlM_keeps Flat (fun p part s p' s' hp h => ?_) parts hp h
  obtain ⟨kind, _, h⟩ := bind_shape_eq_ok.mp h
  obtain h | h := ite_eq_ok h
  · obtain ⟨components, _, h⟩ := bind_shape_eq_ok.mp h
    exact foldlM_keeps Flat (fun _ _ _ _ _ => addComponent_flat) components hp h
  · exact (pure_eq_ok.mp h).1 ▸ hp

theorem Flat.plain (hp : p.Flat) : p.plain.Flat := by
  intro e he f hf
  obtain ⟨e', he', rfl⟩ := mem_map.mp he
  obtain ⟨f', hf', rfl⟩ := mem_map.mp hf
  exact (hp e' he' f' hf').plainList

end Program

/-! ### Calls of modules -/

/--
The module calls another one: in its body, or in a function that a switch enters unchecked, because
the function has the name of a primitive.
-/
inductive Module.Calls (m : Module) (name : String) : Prop
  | body {args : List Tree} (h : CallIn ⟨true, name, args⟩ m.body)
  | func {f : String} {body : List Ins} {args : List Tree} (hf : f = "nop" ∨ f = "drop")
      (hbody : m.funcs.find? f = some body) (h : CallIn ⟨true, name, args⟩ body)

namespace Program

variable (p : Program)

/-- One module calls the other. -/
def Calls (a b : String) : Prop :=
  ∃ m, p.modules.find? a = some m ∧ m.Calls b

/-- No module calls itself, directly or through others. -/
def Acyclic : Prop :=
  ∀ name, ¬ Relation.TransGen p.Calls name name

open Classical in
/-- How many modules are reached from a module by calls. -/
noncomputable def reach (name : String) : Nat :=
  (p.modules.keys.toFinset.filter (Relation.TransGen p.Calls name)).card

variable {p} {a b : String}

theorem reach_le : p.reach a ≤ p.modules.size := by
  classical
  calc p.reach a ≤ p.modules.keys.toFinset.card := Finset.card_filter_le _ _
    _ ≤ p.modules.keys.length := toFinset_card_le _
    _ = p.modules.size := length_map ..

/-- **A called module reaches fewer modules**, since it is no longer reached itself. -/
theorem reach_lt (hp : p.Acyclic) (h : p.Calls a b) (hb : b ∈ p.modules.keys) :
    p.reach b < p.reach a := by
  classical
  refine Finset.card_lt_card (Finset.ssubset_iff_of_subset ?_ |>.mpr ⟨b, ?_, ?_⟩)
  · intro x hx
    rw [Finset.mem_filter] at hx ⊢
    exact ⟨hx.1, .head h hx.2⟩
  · exact Finset.mem_filter.mpr ⟨mem_toFinset.mpr hb, .single h⟩
  · exact fun hx => hp b (Finset.mem_filter.mp hx).2

end Program

/-! ### Blocks depend on the jobs that they start -/

/-- The two agree on the modules that the instructions call and on the functions that a switch among
them may enter. -/
structure AgreeOn (run run' : Job → Gen Unit) (sc : Scope) (is : List Ins) : Prop where
  modules : ∀ name args m, CallIn ⟨true, name, args⟩ is → sc.modules.find? name = some m →
    ∀ stem vars site,
    run ⟨⟨stem, vars, m.maps, m.sets, m.funcs, sc.modules⟩, site, m.body⟩ =
      run' ⟨⟨stem, vars, m.maps, m.sets, m.funcs, sc.modules⟩, site, m.body⟩
  funcs : ∀ keys cases calls f body, Ins.Within (.switch keys cases calls) is →
    sc.funcs.find? f = some body →
    ((f = "nop" ∨ f = "drop") ∨ ∀ i ∈ body, i.IsStep) →
      ∀ site, run ⟨sc, site, body⟩ = run' ⟨sc, site, body⟩

namespace AgreeOn

variable {run run' : Job → Gen Unit} {sc : Scope} {is js : List Ins}

theorem mono (h : AgreeOn run run' sc is) (hjs : ∀ x, Ins.Within x js → Ins.Within x is) :
    AgreeOn run run' sc js where
  modules name args m hc := h.modules name args m (hjs _ hc)
  funcs keys cases calls f body hs := h.funcs keys cases calls f body (hjs _ hs)

theorem moduleCall {c : Call} (h : AgreeOn run run' sc [.call c]) (hc : c.isApply = true)
    (site : Site) :
    Emit.moduleCall run sc site c = Emit.moduleCall run' sc site c := by
  obtain ⟨isApply, name, args⟩ := c
  obtain rfl : isApply = true := hc
  unfold Emit.moduleCall
  cases hm : sc.modules.find? name with
  | none => rfl
  | some m => simp only [h.modules name args m .here hm]

theorem switch {keys cases : List Tree} {calls : List Call}
    (h : AgreeOn run run' sc [.switch keys cases calls]) {level : Nat} {g g' : Generation}
    (hfit : Fit.switch sc level keys cases calls g = .ok true g') (site : Site) :
    Emit.switch run sc site keys cases calls = Emit.switch run' sc site keys cases calls := by
  have hbody : ∀ i : Nat, Emit.caseBody run sc site calls[i]? =
      Emit.caseBody run' sc site calls[i]? := by
    intro i
    cases hi : calls[i]? with
    | none => rfl
    | some c =>
      simp only [Emit.caseBody]
      cases hbody : sc.funcs.find? c.name with
      | none => rfl
      | some body =>
        have hsteps : (c.name = "nop" ∨ c.name = "drop") ∨ ∀ i ∈ body, i.IsStep := by
          by_cases hname : c.name = "nop" ∨ c.name = "drop"
          · exact .inl hname
          · rw [not_or] at hname
            exact .inr (Fit.switch_eq_true hfit c (mem_of_getElem? hi) hname.1 hname.2 body hbody)
        exact h.funcs keys cases calls c.name body .here hbody hsteps _
  have hcase : ∀ table keys', Emit.switchCase run sc site table keys' calls =
      Emit.switchCase run' sc site table keys' calls := by
    intro table keys'
    funext deflt p
    obtain ⟨case, i⟩ := p
    simp only [Emit.switchCase_eq, hbody]
  unfold Emit.switch
  simp only [hcase]

theorem instruction {i : Ins} (h : AgreeOn run run' sc [i])
    (hnested : ∀ site, Emit.nested run sc site i = Emit.nested run' sc site i)
    (htable : ∀ site table keys, Emit.tableLinks run sc site table keys i =
      Emit.tableLinks run' sc site table keys i)
    (site : Site) : Emit.instruction run sc site i = Emit.instruction run' sc site i := by
  cases i with
  | call c =>
    simp only [Emit.instruction]
    split
    · next hc => exact h.moduleCall hc site
    · rfl
  | switch keys cases calls =>
    funext g
    simp only [Emit.instruction]
    cases hfit : Fit.switch sc site.level keys cases calls g with
    | error e g' => rw [bind_of_error hfit, bind_of_error hfit]
    | ok fits g' =>
      rw [bind_of_ok hfit, bind_of_ok hfit]
      cases fits with
      | false => simp only [Bool.false_eq_true, if_false]
      | true => simp only [if_true, h.switch hfit site]
  | branch cs bs e d => simp only [Emit.instruction, Emit.table, hnested, htable]
  | _ => simp only [Emit.instruction]

theorem elseParts {e : Option Ins} {d : Option (List Ins)} {site : Site}
    (he : ∀ i ∈ e, ∀ site, Emit.nested run sc site i = Emit.nested run' sc site i)
    (hd : ∀ b ∈ d, ∀ site p, Emit.block run sc site p b = Emit.block run' sc site p b) :
    Emit.elseParts run sc site e d = Emit.elseParts run' sc site e d := by
  have hpart : Emit.elsePart run sc site d = Emit.elsePart run' sc site d := by
    cases d with
    | none => rfl
    | some d => simp only [Emit.elsePart, hd d rfl]
  cases e with
  | none => exact hpart
  | some e => simp only [Emit.elseParts, hpart, he e rfl]

theorem laterLinks {e : Option Ins} {d : Option (List Ins)} {site : Site} {table : String}
    {keys : List Operand}
    (he : ∀ i ∈ e, Emit.tableLinks run sc site table keys i =
      Emit.tableLinks run' sc site table keys i)
    (hd : ∀ b ∈ d, ∀ site p, Emit.block run sc site p b = Emit.block run' sc site p b) :
    Emit.laterLinks run sc site table keys e d = Emit.laterLinks run' sc site table keys e d := by
  cases e with
  | some e => exact he e rfl
  | none =>
    cases d with
    | none => rfl
    | some d => simp only [Emit.laterLinks, Emit.defaultPart, hd d rfl]

mutual

theorem block (sc : Scope) :
    ∀ is : List Ins, AgreeOn run run' sc is → ∀ (site : Site) (p : Emit.Progress),
    Emit.block run sc site p is = Emit.block run' sc site p is
  | [], _, _, _ => rfl
  | i :: is, h, site, p => by
    have his := block sc is (h.mono fun _ => .there) site
    have hi := h.mono fun _ hx => hx.of_singleton is
    by_cases hassert : ∃ cs, i = .assert cs
    · obtain ⟨cs, rfl⟩ := hassert
      simp only [Emit.block_cons_assert, his]
    · have hinstruction := hi.instruction (nested sc i hi) (tableLinks sc i hi)
      simp only [Emit.block_cons _ _ _ _ _ fun cs hcs => hassert ⟨cs, hcs⟩, his, hinstruction]

theorem nested (sc : Scope) : ∀ i : Ins, AgreeOn run run' sc [i] → ∀ site : Site,
    Emit.nested run sc site i = Emit.nested run' sc site i
  | .branch cs bs e d, h, site => by
    have helse : Emit.elseParts run sc site e d = Emit.elseParts run' sc site e d := by
      refine elseParts (fun i hi => ?_) fun b hb => ?_
      · cases e with
        | none => cases hi
        | some e => exact Option.some.inj hi ▸ nested sc e (h.mono fun _ => .elseIf)
      · cases d with
        | none => cases hb
        | some d => exact Option.some.inj hb ▸ block sc d (h.mono fun _ => .elseBlock)
    rw [Emit.nested_eq, Emit.nested_eq, helse]
    cases bs with
    | nil => rfl
    | cons b bs => simp only [Emit.firstBlock, block sc b (h.mono fun _ => .thenBlock)]
  | .assign .., _, _ | .arith .., _, _ | .call _, _, _ | .primitive .., _, _ | .assert _, _, _
  | .switch .., _, _
  | .other _, _, _ => rfl

theorem tableLinks (sc : Scope) :
    ∀ i : Ins, AgreeOn run run' sc [i] → ∀ (site : Site) (table : String) (keys : List Operand),
    Emit.tableLinks run sc site table keys i = Emit.tableLinks run' sc site table keys i
  | .branch cs bs e d, h, site, table, keys => by
    have hlater : Emit.laterLinks run sc site table keys e d =
        Emit.laterLinks run' sc site table keys e d := by
      refine laterLinks (fun i hi => ?_) fun b hb => ?_
      · cases e with
        | none => cases hi
        | some e =>
          exact Option.some.inj hi ▸ tableLinks sc e (h.mono fun _ => .elseIf) site table keys
      · cases d with
        | none => cases hb
        | some d => exact Option.some.inj hb ▸ block sc d (h.mono fun _ => .elseBlock)
    cases bs with
    | nil => simp only [Emit.tableLinks_nil, hlater]
    | cons b bs =>
      simp only [Emit.tableLinks_branch, hlater, block sc b (h.mono fun _ => .thenBlock)]
  | .assign .., _, _, _, _ | .arith .., _, _, _, _ | .call _, _, _, _, _ | .primitive .., _, _, _, _
  | .assert _, _, _, _, _
  | .switch .., _, _, _, _ | .other _, _, _, _, _ => rfl

end

end AgreeOn

/-! ### The bound is not reached -/

theorem Ins.not_callIn_of_steps {c : Call} {is : List Ins} (h : ∀ i ∈ is, i.IsStep) :
    ¬ CallIn c is := by
  intro hc
  induction is with
  | nil => cases hc
  | cons i is ih =>
    obtain ⟨hi, his⟩ := forall_mem_cons.mp h
    cases hc with
    | there hc => exact ih his hc
    | _ => exact hi

namespace Gen

/-- Runs jobs down to a depth, with another way to go on beyond it. -/
def runBeyond (beyond : Job → Gen Unit) : Nat → Job → Gen Unit
  | 0, job => beyond job
  | depth + 1, job => Emit.block (runBeyond beyond depth) job.scope job.site ⟨false, 0, 0⟩ job.body

/-- The generation of an application that goes on in another way beyond a depth of calls. -/
def applicationBeyond (beyond : Job → Gen Unit) (depth : Nat) (modules : OrderedMap String Module)
    (stem : String) (a : Application) : Gen Unit := do
  let vars ← Emit.declareVars a.vars {} stem
  Emit.block (runBeyond beyond depth) ⟨stem, vars, {}, {}, {}, modules⟩
    ⟨looseFragment, 0, false⟩ ⟨true, 0, 0⟩ a.body

theorem runBeyond_tooDeep (depth : Nat) :
    runBeyond (fun _ => throw .tooDeep) depth = runJob depth := by
  induction depth with
  | zero => rfl
  | succ depth ih =>
    funext job
    rw [runBeyond, runJob, ih]

variable {p : Program} {beyond beyond' : Job → Gen Unit}

/-- A called module needs two more steps than the modules that it reaches: one for its body, one for
a function. -/
theorem runBeyond_module (hflat : p.Flat) (hp : p.Acyclic) :
    ∀ (n : Nat) {name : String} {m : Module} {d d' : Nat},
    p.modules.find? name = some m → p.reach name ≤ n → 2 * n + 2 ≤ d → 2 * n + 2 ≤ d' →
      ∀ stem vars site,
      runBeyond beyond d ⟨⟨stem, vars, m.maps, m.sets, m.funcs, p.modules⟩, site, m.body⟩ =
        runBeyond beyond' d' ⟨⟨stem, vars, m.maps, m.sets, m.funcs, p.modules⟩, site, m.body⟩ := by
  intro n
  induction n using Nat.strong_induction_on with
  | _ n ih =>
    intro name m d d' hm hreach hd hd' stem vars site
    -- a module that is called from here reaches fewer modules, so fewer steps are left to show
    have hcalled : ∀ callee m' e e', m.Calls callee → p.modules.find? callee = some m' →
        2 * n ≤ e → 2 * n ≤ e' →
        ∀ stem vars site,
          runBeyond beyond e ⟨⟨stem, vars, m'.maps, m'.sets, m'.funcs, p.modules⟩, site, m'.body⟩ =
            runBeyond beyond' e' ⟨⟨stem, vars, m'.maps, m'.sets, m'.funcs, p.modules⟩, site,
              m'.body⟩ := by
      intro callee m' e e' hcalls hm' he he'
      have hlt := Program.reach_lt hp ⟨m, hm, hcalls⟩ (OrderedMap.mem_keys_of_find? hm')
      exact ih (p.reach callee) (by omega) hm' (Nat.le_refl _) (by omega) (by omega)
    obtain ⟨d, rfl⟩ : ∃ k, d = k + 2 := ⟨d - 2, by omega⟩
    obtain ⟨d', rfl⟩ : ∃ k, d' = k + 2 := ⟨d' - 2, by omega⟩
    refine AgreeOn.block _ _ ⟨fun callee args m' hc hm' => ?_,
      fun keys cases calls f body _ hbody hsteps site' => ?_⟩ _ _
    · exact hcalled callee m' _ _ (.body hc) hm' (by omega) (by omega)
    · refine AgreeOn.block _ _ ⟨fun callee args m' hc hm' => ?_,
        fun keys cases calls f' body' hswitch => ?_⟩ _ _
      · rcases hsteps with hname | hsteps
        · exact hcalled callee m' _ _ (.func hname hbody hc) hm' (by omega) (by omega)
        · exact absurd hc (Ins.not_callIn_of_steps hsteps)
      · have hfunc := hflat _ (OrderedMap.mem_entries_of_find? hm) _
          (OrderedMap.mem_entries_of_find? hbody)
        exact absurd hswitch (hfunc keys cases calls)

def callNode (name : String) : Tree :=
  .node "instruction" [.node "ins_call" [.leaf name]]

def moduleNode (name : String) (instructions : List Tree) : Tree :=
  .node "module" [.node "module_name" [.leaf name],
    .node "control" [.node "code_body" instructions]]

/-- `A` calls `B` in an if, and `B` calls `C` in a function that its switch enters unchecked. -/
def callingFile : Tree :=
  .node "start" [.node "code" [
    moduleNode "A" [.node "instruction" [.node "if" [.node "if_block"
      [.node "condition" [.node "isvalid" [.leaf "h"]], .node "code_body" [callNode "B"]]]]],
    moduleNode "B" [
      .node "instruction" [.node "define"
        [.node "func" [.leaf "nop", .node "code_body" [callNode "C"]]]],
      .node "instruction" [.node "switch"
        [.node "switch_item" [.leaf "default", .node "func_call" [.leaf "nop"]]]]],
    moduleNode "C" []]]

def callingModules : OrderedMap String Module := ⟨[
  ("A", { Module.named "A" with body := [.branch [⟨.valid, [.leaf "h"], []⟩]
    [[.call ⟨true, "B", []⟩]] none none] }),
  ("B", { Module.named "B" with
    body := [.switch [] [.leaf "default"] [⟨false, "nop", []⟩]], funcs :=
      ⟨[("nop", [.call ⟨true, "C", []⟩])]⟩ }),
  ("C", Module.named "C")]⟩

theorem callingModules_acyclic : (⟨{}, {}, callingModules⟩ : Program).Acyclic := by
  let rank : String → Nat := fun name => if name = "A" then 2 else if name = "B" then 1 else 0
  have hcall : ∀ {c c' : Call}, CallIn c [.call c'] → c = c' := by
    intro c c' h
    cases h with
    | here => rfl
    | there h => cases h
  have hrank : ∀ {a b}, (⟨{}, {}, callingModules⟩ : Program).Calls a b → rank b < rank a := by
    rintro a b ⟨m, hm, hcalls⟩
    have hmem := OrderedMap.mem_entries_of_find? hm
    simp only [callingModules, mem_cons, not_mem_nil, or_false, Prod.mk.injEq] at hmem
    obtain ⟨rfl, rfl⟩ | ⟨rfl, rfl⟩ | ⟨rfl, rfl⟩ := hmem
    · cases hcalls with
      | func _ hbody => cases hbody
      | body h =>
        cases h with
        | there h => cases h
        | thenBlock h =>
          cases hcall h
          decide
    · cases hcalls with
      | func hf hbody h =>
        rcases hf with rfl | rfl
        · cases hbody
          cases hcall h
          decide
        · cases hbody
      | body h =>
        cases h with
        | there h => cases h
    · cases hcalls with
      | func _ hbody => cases hbody
      | body h => cases h
  have hpath : ∀ {a b}, Relation.TransGen (⟨{}, {}, callingModules⟩ : Program).Calls a b →
      rank b < rank a := by
    intro a b h
    induction h with
    | single h => exact hrank h
    | tail _ h ih => exact (hrank h).trans ih
  exact fun name h => Nat.lt_irrefl _ (hpath h)

end Gen

end Pathwise
