import Pathwise.Program.Collect
import Pathwise.Proofs.Program.Shapes
import Pathwise.Proofs.Steps

/-!
# The syntax of collected instructions

An instruction can be written down again: `Ins.node` gives the node of the program grammar that it
stands for, with the nodes of the blocks inside it.  **Collecting a block is undone by writing it
down** (`Collect.block_rebuilt`): every instruction node gives one instruction, in the same order
and nesting, and every operand stays.

One kind of operand does not stay.  A test `isValid(a, b)` takes a list of headers, and only the
first of them is collected, so what comes back is the tree with these lists cut short (`Tree.kept`).

What is collected is well-formed at every depth (`Ins.WellFormed`): tests have the operands that
they need, an if has one condition and one block and not both kinds of `else`, and a switch has a
call for each of its cases.
-/

namespace Pathwise

open Steps Pathwise.Language List

/-! ### Writing instructions down -/

def Condition.node (c : Condition) : Tree :=
  .node "condition" [match c.test with
    | .compare k => .node "compare" [.node k.rule (c.left ++ c.right)]
    | .valid => .node "isvalid" c.left
    | .member => .node "check" [.node "check_left" c.left, .node "check_right" c.right]
    | .other name => .node name []]

/-- The node of a call; a call without arguments has no node for them. -/
def Call.node (c : Call) : Tree :=
  .node c.kind (.leaf c.name :: if c.args.isEmpty then [] else [.node (c.kind ++ "_par") c.args])

mutual

def Ins.node : Ins → Tree
  | .assign targets source =>
    .node "ins_assign" [.node "ins_assign_left" targets, .node "ins_assign_right" [source]]
  | .arith targets left op right => .node "ins_cul" (targets ++ [left, .leaf op, right])
  | .call c => c.node
  | .primitive kind args => .node "primitive" [.node kind args]
  | .assert conditions => .node "assert" (conditions.map Condition.node)
  | .branch conditions blocks elseIf otherwise =>
    .node "if" (ifBlocks conditions blocks ++ elseIfBlock elseIf ++ elseBlock otherwise)
  | .switch keys cases calls => .node "switch" (.node "switch_key" keys ::
      List.zipWith (fun d (c : Call) => .node "switch_item" [d, c.node]) cases calls)
  | .other kind => .node kind []

def Ins.nodes : List Ins → List Tree
  | [] => []
  | i :: is => .node "instruction" [i.node] :: Ins.nodes is

def Ins.ifBlocks : List Condition → List (List Ins) → List Tree
  | c :: cs, b :: bs =>
    .node "if_block" [c.node, .node "code_body" (Ins.nodes b)] :: Ins.ifBlocks cs bs
  | _, _ => []

/-- What stands behind `else if`. -/
def Ins.elseIfBlock : Option Ins → List Tree
  | none => []
  | some i => [.node "else_block" [i.node]]

/-- What stands behind `else`. -/
def Ins.elseBlock : Option (List Ins) → List Tree
  | none => []
  | some b => [.node "else_block" [.node "else" [.node "code_body" (Ins.nodes b)]]]

end

theorem Ins.nodes_append : ∀ (xs ys : List Ins), Ins.nodes (xs ++ ys) = Ins.nodes xs ++
    Ins.nodes ys := by
  intro xs ys
  induction xs with
  | nil => rfl
  | cons x xs ih => rw [cons_append, Ins.nodes, ih, Ins.nodes, cons_append]

/-! ### Well-formed instructions -/

/-- The condition is a test that has a meaning, with the operands that it needs. -/
def Condition.WellFormed (c : Condition) : Prop :=
  match c.test with
  | .member => c.left ≠ [] ∧ c.right.length = 1
  | .valid => c.left.length = 1
  | .compare _ => c.left.length = 1 ∧ c.right.length = 1
  | .other _ => False

/-- The instruction, with all that lies inside it, has the parts that code is made from. -/
inductive Ins.WellFormed : Ins → Prop
  | assign {targets : List Tree} {source : Tree} : WellFormed (.assign targets source)
  | arith {targets : List Tree} {left right : Tree} {op : String} :
      WellFormed (.arith targets left op right)
  | call {c : Call} : WellFormed (.call c)
  | primitive {kind : String} {args : List Tree} : WellFormed (.primitive kind args)
  | assert {c : Condition} : c.WellFormed → WellFormed (.assert [c])
  | branch {c : Condition} {b : List Ins} {e : Option Ins} {d : Option (List Ins)} : c.WellFormed →
      (∀ i ∈ b, WellFormed i) →
    (e = none ∨ d = none) → (∀ i ∈ e, WellFormed i) → (∀ b ∈ d, ∀ i ∈ b, WellFormed i) →
      WellFormed (.branch [c] [b] e d)
  | switch {keys cases : List Tree} {calls : List Call} : cases.length = calls.length →
      WellFormed (.switch keys cases calls)

/-! ### What is kept of a tree -/

namespace Tree

mutual

/-- The tree with the first operand only of every test of validity. -/
def kept : Tree → Tree
  | .leaf s => .leaf s
  | .node r cs => .node r (if r = "isvalid" then (keptAll cs).take 1 else keptAll cs)

def keptAll : List Tree → List Tree
  | [] => []
  | t :: ts => t.kept :: keptAll ts

end

@[simp] theorem kept_leaf (s : String) : (leaf s).kept = leaf s := by
  rw [kept]

theorem keptAll_eq_map (ts : List Tree) : keptAll ts = ts.map kept := by
  induction ts with
  | nil => rfl
  | cons t ts ih => rw [keptAll, ih, map_cons]

theorem kept_node {r : String} (hr : r ≠ "isvalid") (cs : List Tree) :
    (node r cs).kept = node r (cs.map kept) := by
  rw [kept, if_neg hr, keptAll_eq_map]

end Tree

def Language.dataRules : List String :=
  ["data", "expression", "term", "factor", "unary_op", "name_field", "int", "name", "array",
    "sys_data", "ip_data",
    "ox_num", "index", "indexs", "index_null"]

theorem Language.refs_dataRules : ∀ n ∈ dataRules, ∀ e, programRules.lookup n = some e →
    ∀ m ∈ e.refs, m ∈ dataRules := by
  have h : ∀ n ∈ dataRules, ∀ m ∈ ((programRules.lookup n).getD .empty).refs, m ∈ dataRules := by
    decide +kernel
  intro n hn e he
  simpa [he] using h n hn

theorem kept_operand {n : String} (hn : n ∈ dataRules) {t : Tree} (h : Derives n t) :
    t.kept = t := by
  refine Ebnf.Yields.forall_trees (P := fun t => t.kept = t) (fun _ _ _ _ => rfl)
    (fun n hn cs hcs => ?_)
    refs_dataRules h (by simpa [Ebnf.refs] using hn) t (mem_singleton.mpr rfl)
  have hne : n ≠ "isvalid" := by
    rintro rfl
    revert hn
    decide
  rw [Tree.kept_node hne, map_congr_left hcs, map_id']

theorem kept_data {d : Tree} (h : Derives "data" d) : d.kept = d :=
  kept_operand (by decide) h

theorem map_kept_data {ds : List Tree} (h : ∀ d ∈ ds, Derives "data" d) :
    ds.map Tree.kept = ds := by
  rw [map_congr_left fun d hd => kept_data (h d hd), map_id']

/-- The instruction is well-formed, and the tree comes back from it. -/
structure Ins.Rebuilds (i : Ins) (t : Tree) : Prop where
  node : i.node = t.kept
  wellFormed : i.WellFormed

/-- The instructions are well-formed, and the block comes back from them. -/
structure Ins.RebuildBlock (b : List Ins) (t : Tree) : Prop where
  node : .node "code_body" (Ins.nodes b) = t.kept
  wellFormed : ∀ i ∈ b, i.WellFormed

/-! ### Simple instructions -/

namespace Collect

variable {t : Tree} {i : Ins} {out out' : String}

theorem assign_rebuilt (ht : Derives "ins_assign" t) (h : assign t out = .ok i out') :
    i.Rebuilds t := by
  obtain ⟨targets, source, rfl, htargets, hsource⟩ := shape_assign ht
  cases h
  refine ⟨?_, .assign⟩
  simp [Ins.node, Tree.kept_node, map_kept_data htargets,
    kept_operand (n := "expression") (by decide) hsource]

theorem arith_rebuilt (ht : Derives "ins_cul" t) (h : arith t out = .ok i out') : i.Rebuilds t := by
  obtain ⟨target, left, op, right, rfl, htarget, hleft, hright⟩ := shape_arith ht
  cases h
  refine ⟨?_, .arith⟩
  simp [Ins.node, Tree.kept_node, kept_data htarget, kept_data hleft, kept_data hright]

theorem call_rebuilt {isApply : Bool} {c : Call} (ht : IsCall (Call.kind ⟨isApply, "", []⟩) t)
    (h : call isApply t out = .ok c out') : c.node = t.kept := by
  obtain ⟨name, rfl | ⟨args, rfl, hne, hargs⟩⟩ := ht
  · cases h
    cases isApply <;> simp [Call.node, Call.kind, Tree.kept_node]
  · cases h
    have hargs' : args.isEmpty = false := by simpa using hne
    cases isApply <;> simp [Call.node, Call.kind, Tree.kept_node, map_kept_data hargs, hargs']

theorem apply_rebuilt (ht : Derives "ins_call" t)
    (h : (call true t >>= fun c => pure (Ins.call c)) out = .ok i out') :
    i.Rebuilds t := by
  obtain ⟨c, hc, rfl⟩ := bind_pure_eq_ok.mp h
  have hcall : IsCall (Call.kind ⟨true, "", []⟩) t := shape_ins_call ht
  exact ⟨by rw [Ins.node, call_rebuilt hcall hc], .call⟩

theorem primitive_rebuilt (ht : Derives "primitive" t) (h : primitive t out = .ok i out') :
    i.Rebuilds t := by
  obtain ⟨kind, args, rfl, hargs, hkind⟩ := shape_primitive ht
  have hi : kind ≠ "isvalid" ∧ i = .primitive kind args := by
    rcases hkind with ⟨hkind, rfl⟩ | ⟨hkind, d, rfl⟩ | rfl
    · simp only [mem_cons, not_mem_nil, or_false] at hkind
      rcases hkind with rfl | rfl | rfl | rfl
      all_goals
        cases h
        exact ⟨by decide, rfl⟩
    · simp only [mem_cons, not_mem_nil, or_false] at hkind
      rcases hkind with rfl | rfl | rfl
      all_goals
        cases h
        exact ⟨by decide, rfl⟩
    · cases h
      exact ⟨by decide, rfl⟩
  refine hi.2 ▸ ⟨?_, .primitive⟩
  rw [Ins.node, Tree.kept_node (by decide), map_singleton, Tree.kept_node hi.1, map_kept_data hargs]

/-! ### Conditions -/

theorem ofName_rule (k : Comparison) : Test.ofName k.rule = .compare k := by
  cases k <;> rfl

theorem condition_rebuilt {c : Condition} (ht : Derives "condition" t)
    (h : condition t out = .ok c out') :
    c.node = t.kept ∧ c.WellFormed := by
  obtain ⟨test, htest, rfl | rfl⟩ := shape_condition ht
  · cases htest with
    | @compare k l r hl hr =>
      have hk : k.rule ≠ "isvalid" := by cases k <;> decide
      cases h
      refine ⟨by
        simp [Condition.node, ofName_rule, Tree.kept_node, hk, kept_data hl, kept_data hr], ?_⟩
      rw [Condition.WellFormed, ofName_rule]
      exact ⟨rfl, rfl⟩
    | check hkeys hr =>
      cases h
      exact ⟨by simp [Condition.node, Tree.kept_node, map_kept_data hkeys.2, kept_data hr],
        hkeys.1, rfl⟩
    | valid hd hmore =>
      cases h
      exact ⟨by simp [Condition.node, Tree.kept, Tree.keptAll, kept_data hd], rfl⟩
    | logical => cases h
  · cases h

theorem assert_rebuilt (ht : Derives "assert" t) (h : assert t out = .ok i out') :
    i.Rebuilds t := by
  obtain ⟨c, rfl, hc⟩ := shape_assert ht
  have hstep : assert (.node "assert" [c]) out =
      ([c].mapM condition >>= fun cs => pure (.assert cs)) out := rfl
  rw [hstep, mapM_cons, mapM_nil] at h
  simp only [bind_eq_ok, pure_eq_ok] at h
  obtain ⟨_, _, ⟨c', s2, hc', _, _, ⟨rfl, rfl⟩, rfl, rfl⟩, rfl, rfl⟩ := h
  obtain ⟨hnode, hfull⟩ := condition_rebuilt hc hc'
  refine ⟨?_, .assert hfull⟩
  rw [Ins.node, Tree.kept_node (by decide), map_singleton, map_singleton, hnode]

/-! ### Switches -/

theorem exists_children_of_isCall {kind : String} (h : IsCall kind t) :
    ∃ cs, t = .node kind cs := by
  obtain ⟨_, rfl | ⟨_, rfl, _⟩⟩ := h
  · exact ⟨_, rfl⟩
  · exact ⟨_, rfl⟩

variable {keys ds : List Tree} {calls : List Call}

theorem switchPart_rebuilt {acc : List Tree × List Tree × List Call} (ht : Derives "switch_item" t)
    (h : switchPart (keys, ds, calls) t out = .ok acc out') :
    ∃ d c, acc = (keys, ds ++ [d], calls ++ [c]) ∧ t.kept = .node "switch_item" [d, c.node] := by
  obtain ⟨d, target, rfl, hd, htarget⟩ := shape_switch_item ht
  have hcall : ∃ isApply c s1, IsCall (Call.kind ⟨isApply, "", []⟩) target ∧
      call isApply target out = .ok c s1 ∧
      acc = (keys, ds ++ [d], calls ++ [c]) := by
    rcases htarget with htarget | htarget
    · obtain ⟨cs, rfl⟩ := exists_children_of_isCall htarget
      change (call false _ >>= fun c => pure (keys, ds ++ [d], calls ++ [c])) out = _ at h
      obtain ⟨c, s1, hc, h⟩ := bind_eq_ok.mp h
      exact ⟨false, c, s1, htarget, hc, (pure_eq_ok.mp h).1.symm⟩
    · obtain ⟨cs, rfl⟩ := exists_children_of_isCall htarget
      change (call true _ >>= fun c => pure (keys, ds ++ [d], calls ++ [c])) out = _ at h
      obtain ⟨c, s1, hc, h⟩ := bind_eq_ok.mp h
      exact ⟨true, c, s1, htarget, hc, (pure_eq_ok.mp h).1.symm⟩
  obtain ⟨isApply, c, s1, htarget, hc, rfl⟩ := hcall
  refine ⟨d, c, rfl, ?_⟩
  rw [Tree.kept_node (by decide), map_cons, map_singleton, kept_data hd, call_rebuilt htarget hc]

/-- The cases of a switch with their calls. -/
def items (ds : List Tree) (calls : List Call) : List Tree :=
  List.zipWith (fun d (c : Call) => .node "switch_item" [d, c.node]) ds calls

theorem switchItems_rebuilt : ∀ {ts : List Tree}, (∀ t ∈ ts, Derives "switch_item" t) →
    ∀ {ds ds' keys' : List Tree} {calls calls' : List Call}
    {out : String}, ds.length = calls.length →
      ts.foldlM switchPart (keys, ds, calls) out = .ok (keys', ds', calls') out' →
      keys' = keys ∧ ds'.length = calls'.length ∧
        items ds' calls' = items ds calls ++ ts.map Tree.kept := by
  intro ts
  induction ts with
  | nil =>
    intro _ ds ds' keys' calls calls' out hlen h
    cases h
    simpa using hlen
  | cons t ts ih =>
    intro hts ds ds' keys' calls calls' out hlen h
    rw [foldlM_cons, bind_eq_ok] at h
    obtain ⟨acc, s1, hstep, h⟩ := h
    obtain ⟨d, c, rfl, ht⟩ := switchPart_rebuilt (hts t (by simp)) hstep
    obtain ⟨hkeys, hlen', hitems⟩ :=
      ih (fun t' h' => hts t' (mem_cons_of_mem t h')) (by simp [hlen]) h
    refine ⟨hkeys, hlen', hitems.trans ?_⟩
    rw [items, zipWith_append hlen, map_cons, ht]
    simp [items]

theorem switch_rebuilt (ht : Derives "switch" t) (h : switch t out = .ok i out') :
    i.Rebuilds t := by
  obtain ⟨keys, ts, rfl, hkeys, hts⟩ := shape_switch ht
  have hstep : switch (.node "switch" (.node "switch_key" keys :: ts)) out =
    (ts.foldlM switchPart (keys, [], []) >>= fun x => pure (.switch x.1 x.2.1 x.2.2)) out := rfl
  rw [hstep] at h
  obtain ⟨⟨keys', ds, calls⟩, s1, hfold, h⟩ := bind_eq_ok.mp h
  obtain ⟨rfl, rfl⟩ := pure_eq_ok.mp h
  obtain ⟨rfl, hlen, hitems⟩ := switchItems_rebuilt hts rfl hfold
  refine ⟨?_, .switch hlen⟩
  rw [Ins.node, Tree.kept_node (by decide), map_cons, Tree.kept_node (by decide),
    map_kept_data hkeys]
  exact congrArg (fun items => Tree.node "switch" (.node "switch_key" keys' :: items)) hitems

/-! ### Blocks and branches -/

theorem statements_cons_eq_ok {kind : String} {parts ts : List Tree} {b : List Ins}
    (h : statements (.node "instruction" [.node kind parts] :: ts) out = .ok b out') :
    ∃ i rest s1, b = i :: rest ∧
      (if kind = "if" then branch (.node kind parts) else leafStatement kind (.node kind parts))
        out = .ok i s1 ∧ statements ts s1 = .ok rest out' := by
  rw [statements, if_pos rfl] at h
  by_cases hkind : kind = "if"
  · simp only [if_pos hkind, bind_eq_ok, pure_eq_ok] at h ⊢
    obtain ⟨parts', s1, hparts, _, _, ⟨rfl, rfl⟩, rest, _, hrest, rfl, rfl⟩ := h
    exact ⟨_, rest, s1, rfl, bind_eq_ok.mpr ⟨parts, out, rfl,
      bind_eq_ok.mpr ⟨parts', s1, hparts, rfl⟩⟩, hrest⟩
  · simp only [if_neg hkind, bind_eq_ok, pure_eq_ok] at h ⊢
    obtain ⟨i, s1, hi, rest, _, hrest, rfl, rfl⟩ := h
    exact ⟨i, rest, s1, rfl, hi, hrest⟩

variable {acc : BranchParts}

theorem branchParts_if_block (c body : Tree) (ts : List Tree) :
    branchParts acc (.node "if_block" [c, body] :: ts) = (do
      let cond ← condition c
      let b ← block body
      branchParts
        { acc with conditions := acc.conditions ++ [cond], blocks := acc.blocks ++ [b] } ts) := by
  rw [branchParts, if_pos rfl]

theorem branchParts_else (body : Tree) :
    branchParts acc [.node "else_block" [.node "else" [body]]] = (do
      let b ← block body
      pure { acc with otherwise := some b }) := by
  rw [branchParts, if_neg (by decide), if_pos rfl]
  simp only [↓reduceIte, branchParts]

theorem branchParts_elseIf (parts : List Tree) :
    branchParts acc [.node "else_block" [.node "if" parts]] = (do
      let b ← branchParts ⟨[], [], none, none⟩ parts
      pure { acc with elseIf := some (.branch b.conditions b.blocks b.elseIf b.otherwise) }) := by
  rw [branchParts, if_neg (by decide), if_pos rfl]
  simp only [show "if" ≠ "else" by decide, ↓reduceIte, branchParts]

theorem branch_eq_ok {c body : Tree} {rest : List Tree}
    (h : branch (.node "if" (.node "if_block" [c, body] :: rest)) out = .ok i out') :
    ∃ cond b s1 s2 p, condition c out = .ok cond s1 ∧ block body s1 = .ok b s2 ∧
      branchParts ⟨[cond], [b], none, none⟩ rest s2 = .ok p out' ∧
        i = .branch p.conditions p.blocks p.elseIf p.otherwise := by
  change (branchParts ⟨[], [], none, none⟩ (.node "if_block" [c, body] :: rest) >>=
    fun p => pure (Ins.branch p.conditions p.blocks p.elseIf p.otherwise)) out = _ at h
  simp only [branchParts_if_block, bind_eq_ok, pure_eq_ok] at h
  obtain ⟨p, _, ⟨cond, s1, hcond, b, s2, hb, hp⟩, rfl, rfl⟩ := h
  exact ⟨cond, b, s1, s2, p, hcond, hb, hp, rfl⟩

/-- The block gives back the tree. -/
def BlockRebuilt (t : Tree) : Prop :=
  ∀ {b out out'}, block t out = .ok b out' → Ins.RebuildBlock b t

/-- The if gives back the tree. -/
def BranchRebuilt (t : Tree) : Prop :=
  ∀ {i out out'}, branch t out = .ok i out' → i.Rebuilds t

theorem statements_rebuilt : ∀ {ts : List Tree}, (∀ t ∈ ts, Derives "instruction" t) →
    (∀ t, .node "instruction" [t] ∈ ts → Derives "if" t → BranchRebuilt t) → ∀ {b : List Ins}
    {out : String},
      statements ts out = .ok b out' → Ins.nodes b = ts.map Tree.kept ∧ ∀ i ∈ b, i.WellFormed := by
  intro ts
  induction ts with
  | nil =>
    intro _ _ b out h
    rw [statements] at h
    obtain ⟨rfl, -⟩ := pure_eq_ok.mp h
    exact ⟨rfl, forall_mem_nil _⟩
  | cons t ts ih =>
    intro hts hif b out h
    obtain ⟨k, x, rfl, hx, hk⟩ := shape_instruction (hts t (by simp))
    obtain ⟨-, parts, -, -, rfl⟩ := Ebnf.derives_iff.mp hx
    obtain ⟨i, rest, s1, rfl, hi, hrest⟩ := statements_cons_eq_ok h
    obtain ⟨hnodes, hwell⟩ := ih (fun t' h' => hts t' (mem_cons_of_mem _ h'))
      (fun t' h' => hif t' (mem_cons_of_mem _ h')) hrest
    have hi : i.Rebuilds (.node k parts) := by
      simp only [mem_cons, not_mem_nil, or_false] at hk
      rcases hk with rfl | rfl | rfl | rfl | rfl | rfl | rfl | rfl | rfl | rfl | rfl | rfl
      · exact assign_rebuilt hx hi
      · exact apply_rebuilt hx hi
      · exact hif _ (by simp) hx hi
      · cases hi
      · cases hi
      · cases hi
      · exact primitive_rebuilt hx hi
      · exact arith_rebuilt hx hi
      · cases hi
      · cases hi
      · cases hi
      · cases hi
    refine ⟨?_, forall_mem_cons.mpr ⟨hi.wellFormed, hwell⟩⟩
    rw [Ins.nodes, hnodes, map_cons, Tree.kept_node (by decide), map_singleton, hi.node]

theorem blockRebuilt_of_branches (ht : Derives "code_body" t)
    (hif : ∀ is i, t = .node "code_body" is → .node "instruction" [i] ∈ is → Derives "if" i →
      BranchRebuilt i) :
    BlockRebuilt t := by
  obtain ⟨is, rfl, his⟩ := shape_code_body ht
  intro b out out' h
  rw [block] at h
  obtain ⟨hnodes, hwell⟩ := statements_rebuilt his (fun i => hif is i rfl) h
  exact ⟨by rw [hnodes, Tree.kept_node (by decide)], hwell⟩

theorem else_rebuilt {e : Tree} {acc p : BranchParts} (he : Derives "else_block" e)
    (hacc : acc.elseIf = none ∧ acc.otherwise = none)
    (hbody : ∀ b, sizeOf b < sizeOf e → Derives "code_body" b → BlockRebuilt b)
    (hif : ∀ i, sizeOf i < sizeOf e → Derives "if" i → BranchRebuilt i)
    (h : branchParts acc [e] out = .ok p out') :
    p.conditions = acc.conditions ∧ p.blocks = acc.blocks ∧
      Ins.elseIfBlock p.elseIf ++ Ins.elseBlock p.otherwise = [e.kept] ∧
        (p.elseIf = none ∨ p.otherwise = none) ∧
      (∀ i ∈ p.elseIf, i.WellFormed) ∧ ∀ b ∈ p.otherwise, ∀ i ∈ b, i.WellFormed := by
  obtain ⟨x, rfl, hx | ⟨body, rfl, hb⟩⟩ := shape_else_block he
  · obtain ⟨-, parts, -, -, rfl⟩ := Ebnf.derives_iff.mp hx
    rw [branchParts_elseIf, bind_eq_ok] at h
    obtain ⟨q, s1, hq, h⟩ := h
    obtain ⟨rfl, -⟩ := pure_eq_ok.mp h
    have hbranch : branch (.node "if" parts) out =
        .ok (.branch q.conditions q.blocks q.elseIf q.otherwise) s1 :=
      bind_eq_ok.mpr ⟨parts, out, rfl, bind_eq_ok.mpr ⟨q, s1, hq, rfl⟩⟩
    have hi := hif _ (by simp; omega) hx hbranch
    rw [hacc.2]
    refine ⟨rfl, rfl, ?_, .inr rfl, fun _ h => Option.some.inj h ▸ hi.wellFormed,
      fun _ h => by cases h⟩
    have hkept : (Tree.node "else_block" [.node "if" parts]).kept = .node "else_block"
        [(Tree.node "if" parts).kept] :=
      Tree.kept_node (by decide) _
    rw [Ins.elseIfBlock, Ins.elseBlock, hi.node, hkept, append_nil]
  · rw [branchParts_else, bind_eq_ok] at h
    obtain ⟨b, s1, hblock, h⟩ := h
    obtain ⟨rfl, -⟩ := pure_eq_ok.mp h
    have hb := hbody body (by simp; omega) hb hblock
    rw [hacc.1]
    refine ⟨rfl, rfl, ?_, .inl rfl, (fun _ h => by cases h),
      fun _ h => Option.some.inj h ▸ hb.wellFormed⟩
    rw [Ins.elseIfBlock, Ins.elseBlock, hb.node, Tree.kept_node (by decide), map_singleton,
      Tree.kept_node (by decide)]
    simp

theorem branchRebuilt_of_blocks (ht : Derives "if" t)
    (hbody : ∀ b, sizeOf b < sizeOf t → Derives "code_body" b → BlockRebuilt b)
    (hif : ∀ i, sizeOf i < sizeOf t → Derives "if" i → BranchRebuilt i) : BranchRebuilt t := by
  obtain ⟨ib, hib, hrest⟩ := shape_if ht
  obtain ⟨c, body, rfl, hc, hb⟩ := shape_if_block hib
  intro i out out' h
  have hfirst : ∀ {cond b s1 s2}, condition c out = .ok cond s1 → block body s1 = .ok b s2 →
      sizeOf body < sizeOf t →
      Tree.node "if_block" [cond.node, .node "code_body" (Ins.nodes b)] =
        (Tree.node "if_block" [c, body]).kept ∧
        cond.WellFormed ∧ ∀ i ∈ b, i.WellFormed := by
    intro cond b s1 s2 hcond hblock hsize
    obtain ⟨hnode, hwell⟩ := condition_rebuilt hc hcond
    have hblock := hbody body hsize hb hblock
    exact ⟨by rw [Tree.kept_node (by decide), map_cons, map_singleton, hnode, hblock.node],
      hwell, hblock.wellFormed⟩
  rcases hrest with rfl | ⟨e, rfl, he⟩
  · obtain ⟨cond, b, s1, s2, p, hcond, hblock, hparts, rfl⟩ := branch_eq_ok h
    rw [branchParts] at hparts
    obtain ⟨rfl, -⟩ := pure_eq_ok.mp hparts
    obtain ⟨hnode, hwell, hwells⟩ := hfirst hcond hblock (by simp; omega)
    refine ⟨?_, .branch hwell hwells (.inl rfl) (fun _ h => by cases h) fun _ h => by cases h⟩
    rw [Tree.kept_node (by decide), map_singleton, ← hnode]
    simp [Ins.node, Ins.ifBlocks, Ins.elseIfBlock, Ins.elseBlock]
  · obtain ⟨cond, b, s1, s2, p, hcond, hblock, hparts, rfl⟩ := branch_eq_ok h
    obtain ⟨hconds, hblocks, helse, hone, helseIf, hotherwise⟩ := else_rebuilt he ⟨rfl, rfl⟩
      (fun b hlt => hbody b (by simp at hlt ⊢; omega))
        (fun i hlt => hif i (by simp at hlt ⊢; omega)) hparts
    obtain ⟨hnode, hwell, hwells⟩ := hfirst hcond hblock (by simp; omega)
    rw [hconds, hblocks]
    refine ⟨?_, .branch hwell hwells hone helseIf hotherwise⟩
    rw [Tree.kept_node (by decide), map_cons, map_singleton, ← hnode, ← helse]
    simp [Ins.node, Ins.ifBlocks]

/-- **Blocks and branches come back from what is collected of them.** -/
theorem rebuilt_of_size : ∀ (n : Nat) (t : Tree), sizeOf t ≤ n →
    (Derives "code_body" t → BlockRebuilt t) ∧ (Derives "if" t → BranchRebuilt t) := by
  intro n
  induction n with
  | zero =>
    intro t ht
    cases t <;> simp at ht
  | succ n ih =>
    intro t ht
    refine ⟨fun hd => blockRebuilt_of_branches hd ?_, fun hd => branchRebuilt_of_blocks hd ?_ ?_⟩
    · rintro is i rfl hi
      have := sizeOf_lt_of_mem hi
      simp only [Tree.node.sizeOf_spec, List.cons.sizeOf_spec] at this ht
      exact (ih i (by omega)).2
    · exact fun b hlt => (ih b (by omega)).1
    · exact fun i hlt => (ih i (by omega)).2

theorem block_rebuilt {b : List Ins} (ht : Derives "code_body" t) (h : block t out = .ok b out') :
    Ins.RebuildBlock b t :=
  (rebuilt_of_size _ t (Nat.le_refl _)).1 ht h

theorem branch_rebuilt (ht : Derives "if" t) (h : branch t out = .ok i out') : i.Rebuilds t :=
  (rebuilt_of_size _ t (Nat.le_refl _)).2 ht h

end Collect

end Pathwise
