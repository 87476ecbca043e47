import Pathwise.Language.Program
import Pathwise.Program.Basic
import Pathwise.Proofs.Syntax.Derived

/-!
# The trees of the program grammar

What the node of each rule looks like: its children in order, with the optional ones, and what they
derive from.  Every part of a program file that parsing leaves behind has one of these forms
(`Language.derives_of_parse`).
-/

namespace Pathwise.Language

open Ebnf

/-- The rule of the program grammar derives the tree. -/
abbrev Derives (n : String) (t : Tree) : Prop :=
  Ebnf.Derives programRules n t

theorem derives_of_parse {text : String} {t : Tree} (h : program.parse text = .ok t) :
    Derives "start" t :=
  Grammar.derives_of_parse (by decide +kernel) h

section Shapes

variable {t : Tree} {ts : List Tree} {n : String}

theorem children_of_derives {e : Ebnf} (h : Derives n t) (he : programRules.lookup n = some e) :
    ∃ cs, Yields programRules e cs ∧ t = .node n cs := by
  obtain ⟨e', cs, he', hcs, rfl⟩ := derives_iff.mp h
  obtain rfl := Option.some.inj (he.symm.trans he')
  exact ⟨cs, hcs, rfl⟩

theorem shape_dataList (h : Yields programRules dataList ts) :
    ts ≠ [] ∧ ∀ d ∈ ts, Derives "data" d :=
  Yields.forall_sepBy1 (fun _ hr => yields_rule.mp hr) h

/-! ### Instructions -/

theorem shape_code_body (h : Derives "code_body" t) : ∃ is, t = .node "code_body" is ∧
    ∀ i ∈ is, Derives "instruction" i := by
  obtain ⟨cs, hcs, rfl⟩ := children_of_derives h rfl
  exact ⟨cs, rfl, hcs.forall_many fun _ hr => yields_rule.mp hr⟩

theorem shape_instruction (h : Derives "instruction" t) : ∃ k i, t = .node "instruction" [i] ∧
    Derives k i ∧
    k ∈ ["ins_assign", "ins_call", "if", "assert", "define", "switch", "primitive", "ins_cul",
      "annotation", "ins_null",
      "for_loop", "while_loop"] := by
  obtain ⟨cs, hcs, rfl⟩ := children_of_derives h rfl
  simp only [oneOf, yields_alt, yields_rule] at hcs
  rcases hcs with ⟨i, hi, rfl⟩ | ⟨i, hi, rfl⟩ | ⟨i, hi, rfl⟩ | ⟨i, hi, rfl⟩ | ⟨i, hi, rfl⟩ |
    ⟨i, hi, rfl⟩ | ⟨i, hi, rfl⟩ | ⟨i, hi, rfl⟩ | ⟨i, hi, rfl⟩ | ⟨i, hi, rfl⟩ | ⟨i, hi, rfl⟩ |
    ⟨i, hi, rfl⟩
  all_goals exact ⟨_, i, rfl, hi, by simp⟩

theorem shape_assign (h : Derives "ins_assign" t) : ∃ targets source,
    t = .node "ins_assign" [.node "ins_assign_left" targets, .node "ins_assign_right" [source]] ∧
      (∀ d ∈ targets, Derives "data" d) ∧ Derives "expression" source := by
  obtain ⟨cs, hcs, rfl⟩ := children_of_derives h rfl
  simp only [all, yields_rule_seq, yields_lit_seq, yields_seq_lit, yields_rule] at hcs
  obtain ⟨left, _, rfl, hleft, right, hright, rfl⟩ := hcs
  obtain ⟨targets, ht, rfl⟩ := children_of_derives hleft rfl
  obtain ⟨cs, hs, rfl⟩ := children_of_derives hright rfl
  obtain ⟨source, hs, rfl⟩ := yields_rule.mp hs
  exact ⟨targets, source, rfl, (shape_dataList ht).2, hs⟩

theorem shape_arith (h : Derives "ins_cul" t) : ∃ target left op right,
    t = .node "ins_cul" [target, left, .leaf op, right] ∧
      Derives "data" target ∧ Derives "data" left ∧ Derives "data" right := by
  obtain ⟨cs, hcs, rfl⟩ := children_of_derives h rfl
  simp (disch := decide) only [all, yields_rule_seq, yields_lit_seq, yields_seq_lit, yields_rule,
    yields_token_seq] at hcs
  obtain ⟨target, _, rfl, htarget, left, _, rfl, hleft, op, _, rfl, ⟨right, hright, rfl⟩, -⟩ := hcs
  exact ⟨target, left, op, right, rfl, htarget, hleft, hright⟩

/-- A call with its name and, if there are any, its arguments. -/
def IsCall (kind : String) (t : Tree) : Prop :=
  ∃ name, t = .node kind [.leaf name] ∨
    ∃ args, t = .node kind [.leaf name, .node (kind ++ "_par") args] ∧ args ≠ [] ∧
      ∀ d ∈ args, Derives "data" d

theorem isCall_of_rest {kind name : String} {rest : List Tree}
    (he : programRules.lookup (kind ++ "_par") = some dataList)
    (h : (∃ par tail, rest = par :: tail ∧ Derives (kind ++ "_par") par ∧ tail = []) ∨ rest = []) :
    IsCall kind (.node kind (.leaf name :: rest)) := by
  rcases h with ⟨par, _, rfl, hpar, rfl⟩ | rfl
  · obtain ⟨args, hargs, rfl⟩ := children_of_derives hpar he
    exact ⟨name, .inr ⟨args, rfl, shape_dataList hargs⟩⟩
  · exact ⟨name, .inl rfl⟩

theorem shape_ins_call (h : Derives "ins_call" t) : IsCall "ins_call" t := by
  obtain ⟨cs, hcs, rfl⟩ := children_of_derives h rfl
  simp (disch := decide) only [all, yields_token_seq, yields_opt_seq, yields_rule_seq,
    yields_lit_seq, yields_lit] at hcs
  obtain ⟨name, rest, rfl, hrest, -⟩ := hcs
  exact isCall_of_rest rfl hrest

theorem shape_func_call (h : Derives "func_call" t) : IsCall "func_call" t := by
  obtain ⟨cs, hcs, rfl⟩ := children_of_derives h rfl
  simp (disch := decide) only [all, yields_token_seq, yields_opt_seq, yields_rule_seq,
    yields_lit_seq, yields_lit] at hcs
  obtain ⟨name, rest, rfl, hrest, -⟩ := hcs
  exact isCall_of_rest rfl hrest

theorem shape_bareCall {word : String} (h : Derives n t)
    (he : programRules.lookup n = some (bareCall word)) :
    t = .node n [] := by
  obtain ⟨cs, hcs, rfl⟩ := children_of_derives h he
  simp only [bareCall, all, yields_lit_seq, yields_lit] at hcs
  rw [hcs]

theorem shape_unaryCall {word : String} (h : Derives n t)
    (he : programRules.lookup n = some (unaryCall word)) :
    ∃ d, t = .node n [d] ∧ Derives "data" d := by
  obtain ⟨cs, hcs, rfl⟩ := children_of_derives h he
  simp only [unaryCall, all, yields_lit_seq, yields_rule_seq, yields_lit] at hcs
  obtain ⟨d, _, rfl, hd, rfl⟩ := hcs
  exact ⟨d, rfl, hd⟩

/-- A primitive with its operands: none, one, or a list. -/
def IsPrimitive (kind : String) (args : List Tree) : Prop :=
  (∀ d ∈ args, Derives "data" d) ∧
    (kind ∈ ["sendtocpu", "nop", "drop", "return"] ∧ args = [] ∨
      kind ∈ ["addheader", "removeheader", "headercompress"] ∧ (∃ d, args = [d]) ∨
        kind = "updatechecksum")

theorem isPrimitive_bareCall {word : String} (h : Derives n t)
    (he : programRules.lookup n = some (bareCall word))
    (hn : n ∈ ["sendtocpu", "nop", "drop", "return"]) : ∃ kind args, t = .node kind args ∧
      IsPrimitive kind args :=
  ⟨n, [], shape_bareCall h he, by simp, .inl ⟨hn, rfl⟩⟩

theorem isPrimitive_unaryCall {word : String} (h : Derives n t)
    (he : programRules.lookup n = some (unaryCall word))
    (hn : n ∈ ["addheader", "removeheader", "headercompress"]) :
    ∃ kind args, t = .node kind args ∧ IsPrimitive kind args := by
  obtain ⟨d, rfl, hd⟩ := shape_unaryCall h he
  exact ⟨n, [d], rfl, by simpa using hd, .inr (.inl ⟨hn, d, rfl⟩)⟩

theorem shape_primitive (h : Derives "primitive" t) :
    ∃ kind args, t = .node "primitive" [.node kind args] ∧ IsPrimitive kind args := by
  obtain ⟨cs, hcs, rfl⟩ := children_of_derives h rfl
  simp only [oneOf, yields_alt, yields_rule] at hcs
  have hp : ∃ p, cs = [p] ∧ ∃ kind args, p = .node kind args ∧ IsPrimitive kind args := by
    rcases hcs with ⟨p, hp, rfl⟩ | ⟨p, hp, rfl⟩ | ⟨p, hp, rfl⟩ | ⟨p, hp, rfl⟩ |
      ⟨p, hp, rfl⟩ | ⟨p, hp, rfl⟩ | ⟨p, hp, rfl⟩ | ⟨p, hp, rfl⟩
    · exact ⟨p, rfl, isPrimitive_bareCall hp rfl (by simp)⟩
    · exact ⟨p, rfl, isPrimitive_bareCall hp rfl (by simp)⟩
    · exact ⟨p, rfl, isPrimitive_bareCall hp rfl (by simp)⟩
    · exact ⟨p, rfl, isPrimitive_unaryCall hp rfl (by simp)⟩
    · exact ⟨p, rfl, isPrimitive_unaryCall hp rfl (by simp)⟩
    · exact ⟨p, rfl, isPrimitive_bareCall hp rfl (by simp)⟩
    · obtain ⟨args, hargs, rfl⟩ := children_of_derives hp rfl
      simp only [all, yields_lit_seq] at hargs
      obtain ⟨ds, hds, _, hend, rfl⟩ := yields_seq.mp hargs
      rw [yields_lit_seq, yields_lit] at hend
      rw [hend, List.append_nil]
      exact ⟨_, rfl, _, ds, rfl, (shape_dataList hds).2, .inr (.inr rfl)⟩
    · exact ⟨p, rfl, isPrimitive_unaryCall hp rfl (by simp)⟩
  obtain ⟨p, rfl, kind, args, rfl, hargs⟩ := hp
  exact ⟨kind, args, rfl, hargs⟩

/-! ### Conditions -/

/-- One of the tests that a condition is built on. -/
inductive IsTest : Tree → Prop
  | compare {c : Comparison} {l r : Tree} : Derives "data" l → Derives "data" r →
    IsTest (.node "compare" [.node c.rule [l, r]])
  | check {keys : List Tree} {r : Tree} : (keys ≠ [] ∧ ∀ d ∈ keys, Derives "data" d) →
      Derives "data" r →
    IsTest (.node "check" [.node "check_left" keys, .node "check_right" [r]])
  | valid {d : Tree} {more : List Tree} : Derives "data" d → (∀ d ∈ more, Derives "data" d) →
    IsTest (.node "isvalid" (d :: more))
  | logical {cs : List Tree} : IsTest (.node "logical" cs)

theorem shape_comparison {c : Comparison} {op : String} (h : Derives c.rule t)
    (he : programRules.lookup c.rule = some (comparison op)) : IsTest (.node "compare" [t]) := by
  obtain ⟨cs, hcs, rfl⟩ := children_of_derives h he
  simp only [comparison, all, yields_rule_seq, yields_lit_seq, yields_rule] at hcs
  obtain ⟨l, _, rfl, hl, r, hr, rfl⟩ := hcs
  exact .compare hl hr

theorem shape_compare (h : Derives "compare" t) : IsTest t := by
  obtain ⟨cs, hcs, rfl⟩ := children_of_derives h rfl
  simp only [oneOf, yields_alt, yields_rule] at hcs
  rcases hcs with ⟨c, hc, rfl⟩ | ⟨c, hc, rfl⟩ | ⟨c, hc, rfl⟩ | ⟨c, hc, rfl⟩ |
    ⟨c, hc, rfl⟩ | ⟨c, hc, rfl⟩
  · exact shape_comparison (c := .equal) hc rfl
  · exact shape_comparison (c := .different) hc rfl
  · exact shape_comparison (c := .greater) hc rfl
  · exact shape_comparison (c := .greaterOrEqual) hc rfl
  · exact shape_comparison (c := .less) hc rfl
  · exact shape_comparison (c := .lessOrEqual) hc rfl

theorem shape_check (h : Derives "check" t) : IsTest t := by
  obtain ⟨cs, hcs, rfl⟩ := children_of_derives h rfl
  simp only [all, yields_rule_seq, yields_lit_seq, yields_rule] at hcs
  obtain ⟨left, _, rfl, hleft, right, hright, rfl⟩ := hcs
  obtain ⟨keys, hkeys, rfl⟩ := children_of_derives hleft rfl
  obtain ⟨cs, hr, rfl⟩ := children_of_derives hright rfl
  obtain ⟨r, hr, rfl⟩ := yields_rule.mp hr
  exact .check (shape_dataList hkeys) hr

theorem shape_isvalid (h : Derives "isvalid" t) : IsTest t := by
  obtain ⟨cs, hcs, rfl⟩ := children_of_derives h rfl
  simp only [all, yields_alt, yields_seq_lit, yields_lit_seq, yields_rule] at hcs
  rcases hcs with ⟨d, hd, rfl⟩ | hcs
  · exact .valid hd (by simp)
  · obtain ⟨hne, hds⟩ := shape_dataList hcs
    cases cs with
    | nil => exact absurd rfl hne
    | cons d more => exact .valid (hds d (by simp)) fun d' h' => hds d' (List.mem_cons_of_mem d h')

theorem shape_condition (h : Derives "condition" t) : ∃ test, IsTest test ∧
    (t = .node "condition" [test] ∨ t = .node "condition" [.node "not" [], test]) := by
  obtain ⟨cs, hcs, rfl⟩ := children_of_derives h rfl
  have htest : ∀ ts, Yields programRules
      (oneOf [.rule "compare", .rule "check", .rule "isvalid", .rule "logical"]) ts →
      ∃ test, IsTest test ∧ ts = [test] := by
    intro ts hts
    simp only [oneOf, yields_alt, yields_rule] at hts
    rcases hts with ⟨c, hc, rfl⟩ | ⟨c, hc, rfl⟩ | ⟨c, hc, rfl⟩ | ⟨c, hc, rfl⟩
    · exact ⟨c, shape_compare hc, rfl⟩
    · exact ⟨c, shape_check hc, rfl⟩
    · exact ⟨c, shape_isvalid hc, rfl⟩
    · obtain ⟨cs, -, rfl⟩ := children_of_derives hc rfl
      exact ⟨_, .logical, rfl⟩
  rw [yields_opt_seq, yields_rule_seq] at hcs
  rcases hcs with ⟨no, rest, rfl, hno, hrest⟩ | hcs
  · obtain ⟨test, htest, rfl⟩ := htest rest hrest
    obtain ⟨cs, hcs, rfl⟩ := children_of_derives hno rfl
    rw [yields_lit.mp hcs]
    exact ⟨test, htest, .inr rfl⟩
  · obtain ⟨test, htest, rfl⟩ := htest cs hcs
    exact ⟨test, htest, .inl rfl⟩

theorem shape_assert (h : Derives "assert" t) : ∃ c, t = .node "assert" [c] ∧
    Derives "condition" c := by
  obtain ⟨cs, hcs, rfl⟩ := children_of_derives h rfl
  simp only [all, yields_rule_seq, yields_lit_seq, yields_lit] at hcs
  obtain ⟨c, _, rfl, hc, rfl⟩ := hcs
  exact ⟨c, rfl, hc⟩

/-! ### Branches and switches -/

theorem shape_if_block (h : Derives "if_block" t) : ∃ c b, t = .node "if_block" [c, b] ∧
    Derives "condition" c ∧ Derives "code_body" b := by
  obtain ⟨cs, hcs, rfl⟩ := children_of_derives h rfl
  simp only [all, lbrace, yields_rule_seq, yields_lit_seq, yields_rule] at hcs
  obtain ⟨c, _, rfl, hc, b, hb, rfl⟩ := hcs
  exact ⟨c, b, rfl, hc, hb⟩

theorem shape_else_block (h : Derives "else_block" t) : ∃ e, t = .node "else_block" [e] ∧
    (Derives "if" e ∨ ∃ b, e = .node "else" [b] ∧ Derives "code_body" b) := by
  obtain ⟨cs, hcs, rfl⟩ := children_of_derives h rfl
  simp only [yields_lit_seq, yields_alt, yields_rule] at hcs
  rcases hcs with ⟨e, he, rfl⟩ | ⟨e, he, rfl⟩
  · exact ⟨e, rfl, .inl he⟩
  · obtain ⟨cs, hcs, rfl⟩ := children_of_derives he rfl
    simp only [braced, all, lbrace, rbrace, yields_lit_seq, yields_seq_lit, yields_rule] at hcs
    obtain ⟨b, hb, rfl⟩ := hcs
    exact ⟨_, rfl, .inr ⟨b, rfl, hb⟩⟩

theorem shape_if (h : Derives "if" t) : ∃ b, Derives "if_block" b ∧
    (t = .node "if" [b] ∨ ∃ e, t = .node "if" [b, e] ∧ Derives "else_block" e) := by
  obtain ⟨cs, hcs, rfl⟩ := children_of_derives h rfl
  simp only [all, rbrace, yields_rule_seq, yields_lit_seq, yields_opt, yields_rule] at hcs
  obtain ⟨b, _, rfl, hb, ⟨e, he, rfl⟩ | rfl⟩ := hcs
  · exact ⟨b, hb, .inr ⟨e, rfl, he⟩⟩
  · exact ⟨b, hb, .inl rfl⟩

theorem shape_switch_item (h : Derives "switch_item" t) : ∃ d c, t = .node "switch_item" [d, c] ∧
    Derives "data" d ∧ (IsCall "func_call" c ∨ IsCall "ins_call" c) := by
  obtain ⟨cs, hcs, rfl⟩ := children_of_derives h rfl
  simp only [all, yields_rule_seq, yields_lit_seq, yields_alt, yields_rule] at hcs
  obtain ⟨d, _, rfl, hd, ⟨c, hc, rfl⟩ | ⟨c, hc, rfl⟩⟩ := hcs
  · exact ⟨d, c, rfl, hd, .inl (shape_func_call hc)⟩
  · exact ⟨d, c, rfl, hd, .inr (shape_ins_call hc)⟩

theorem shape_switch (h : Derives "switch" t) :
    ∃ keys items, t = .node "switch" (.node "switch_key" keys :: items) ∧
    (∀ d ∈ keys, Derives "data" d) ∧ ∀ i ∈ items, Derives "switch_item" i := by
  obtain ⟨cs, hcs, rfl⟩ := children_of_derives h rfl
  simp only [braced, all, lbrace, rbrace, yields_lit_seq, yields_seq_lit, yields_rule_seq] at hcs
  obtain ⟨key, items, rfl, hkey, hitems⟩ := hcs
  obtain ⟨keys, hkeys, rfl⟩ := children_of_derives hkey rfl
  exact ⟨keys, items, rfl, (shape_dataList hkeys).2,
    hitems.forall_many fun _ hr => yields_rule.mp hr⟩

/-! ### Definitions -/

theorem shape_define (h : Derives "define" t) : ∃ k d, t = .node "define" [d] ∧ Derives k d ∧
    k ∈ ["tuple", "set", "map", "ins_define_var", "func", "reg"] := by
  obtain ⟨cs, hcs, rfl⟩ := children_of_derives h rfl
  simp only [oneOf, yields_alt, yields_rule] at hcs
  rcases hcs with ⟨d, hd, rfl⟩ | ⟨d, hd, rfl⟩ | ⟨d, hd, rfl⟩ | ⟨d, hd, rfl⟩ |
    ⟨d, hd, rfl⟩ | ⟨d, hd, rfl⟩
  all_goals exact ⟨_, d, rfl, hd, by simp⟩

theorem shape_func (h : Derives "func" t) : ∃ name body, Derives "code_body" body ∧
    (t = .node "func" [.leaf name, body] ∨
      ∃ ps, t = .node "func" [.leaf name, .node "func_params" ps, body] ∧
      ∀ p ∈ ps, Derives "func_param" p) := by
  obtain ⟨cs, hcs, rfl⟩ := children_of_derives h rfl
  simp (disch := decide) only [braced, all, lbrace, rbrace, yields_lit_seq, yields_seq_lit,
    yields_token_seq, yields_opt_seq, yields_rule_seq, yields_rule] at hcs
  obtain ⟨name, _, rfl, ⟨ps, _, rfl, hps, body, hbody, rfl⟩ | ⟨body, hbody, rfl⟩, -⟩ := hcs
  · obtain ⟨params, hparams, rfl⟩ := children_of_derives hps rfl
    exact ⟨name, body, hbody, .inr ⟨params, rfl,
      (Yields.forall_sepBy1 (fun _ hr => yields_rule.mp hr) hparams).2⟩⟩
  · exact ⟨name, body, hbody, .inl rfl⟩

theorem shape_table_name (hn : n = "set_name" ∨ n = "map_name") (h : Derives n t) :
    ∃ name, t = .node n [.leaf name] := by
  rcases hn with rfl | rfl
  all_goals
    obtain ⟨cs, hcs, rfl⟩ := children_of_derives h rfl
    obtain ⟨name, -, rfl⟩ := (yields_token rfl).mp hcs
    exact ⟨name, rfl⟩

theorem shape_entry (h : Derives "entry" t) : ∃ rows, t = .node "entry" rows ∧
    ∀ r ∈ rows, Derives "single_entry" r := by
  obtain ⟨cs, hcs, rfl⟩ := children_of_derives h rfl
  simp only [braced, all, lbrace, rbrace, yields_lit_seq, yields_seq_lit, yields_opt,
    yields_rule_seq] at hcs
  rcases hcs with ⟨r, rest, rfl, hr, hrest⟩ | rfl
  · refine ⟨_, rfl, fun r' hr' => ?_⟩
    rcases List.mem_cons.mp hr' with rfl | hr'
    · exact hr
    · exact hrest.forall_many (fun _ hr => yields_rule.mp hr) r' hr'
  · exact ⟨[], rfl, by simp⟩

theorem shape_set (h : Derives "set" t) : ∃ key name entry,
    t = .node "set" (key :: .node "set_name" [.leaf name] :: entry) ∧ Derives "set_key" key ∧
      (entry = [] ∨ ∃ e, entry = [e] ∧ Derives "entry" e) := by
  obtain ⟨cs, hcs, rfl⟩ := children_of_derives h rfl
  simp only [all, yields_lit_seq, yields_seq_lit, yields_rule_seq, yields_opt, yields_rule] at hcs
  obtain ⟨key, _, rfl, hkey, nm, entry, rfl, hnm, hentry⟩ := hcs
  obtain ⟨name, rfl⟩ := shape_table_name (.inl rfl) hnm
  exact ⟨key, name, entry, rfl, hkey, hentry.symm.imp_right fun h => h.imp fun _ => And.symm⟩

theorem shape_map (h : Derives "map" t) : ∃ key value size name entry,
    t = .node "map" (key :: value :: (size ++ .node "map_name" [.leaf name] :: entry)) ∧
      Derives "map_key" key ∧ Derives "map_value" value ∧
        (size = [] ∨ ∃ l, size = [l] ∧ Derives "map_len" l) ∧
        (entry = [] ∨ ∃ e, entry = [e] ∧ Derives "entry" e) := by
  obtain ⟨cs, hcs, rfl⟩ := children_of_derives h rfl
  simp only [all, yields_lit_seq, yields_rule_seq] at hcs
  obtain ⟨key, _, rfl, hkey, value, _, rfl, hvalue, hcs⟩ := hcs
  obtain ⟨size, hsize, _, hrest, rfl⟩ := yields_seq.mp hcs
  obtain ⟨nm, entry, rfl, hnm, hentry⟩ := yields_rule_seq.mp hrest
  obtain ⟨name, rfl⟩ := shape_table_name (.inr rfl) hnm
  simp only [yields_opt, yields_lit_seq, yields_seq_lit, yields_rule] at hsize hentry
  refine ⟨key, value, size, name, entry, rfl, hkey, hvalue, ?_, ?_⟩
  · exact hsize.symm.imp_right fun h => h.imp fun _ => And.symm
  · exact hentry.symm.imp_right fun h => h.imp fun _ => And.symm

/-! ### Applications and modules -/

theorem shape_application (h : Derives "application" t) : ∃ name body, Derives "code_body" body ∧
    (t = .node "application" [.leaf name, body] ∨
      ∃ p, t = .node "application" [.leaf name, .leaf p, body]) := by
  obtain ⟨cs, hcs, rfl⟩ := children_of_derives h rfl
  simp (disch := decide) only [braced, all, lbrace, rbrace, yields_lit_seq, yields_seq_lit,
    yields_token_seq, yields_opt_seq, yields_rule] at hcs
  obtain ⟨name, _, rfl, hcs | ⟨body, hbody, rfl⟩, -⟩ := hcs
  · obtain ⟨_, hp, _, hbody, rfl⟩ := yields_seq.mp hcs
    rw [yields_lit_seq, yields_token rfl] at hp
    obtain ⟨p, -, rfl⟩ := hp
    rw [yields_lit_seq, yields_seq_lit] at hbody
    obtain ⟨body, hbody, rfl⟩ := yields_rule.mp hbody
    exact ⟨name, body, hbody, .inr ⟨p, rfl⟩⟩
  · exact ⟨name, body, hbody, .inl rfl⟩

theorem shape_control (h : Derives "control" t) : ∃ body, t = .node "control" [body] ∧
    Derives "code_body" body := by
  obtain ⟨cs, hcs, rfl⟩ := children_of_derives h rfl
  simp only [braced, all, lbrace, rbrace, yields_lit_seq, yields_seq_lit, yields_rule] at hcs
  obtain ⟨body, hbody, rfl⟩ := hcs
  exact ⟨body, rfl, hbody⟩

theorem shape_module (h : Derives "module" t) : ∃ parts, t = .node "module" parts ∧
    ∀ p ∈ parts, (∃ s, p = .leaf s) ∨
    ∃ k ∈ ["module_name", "module_pars", "module_parser", "parser", "control"], Derives k p := by
  obtain ⟨cs, hcs, rfl⟩ := children_of_derives h rfl
  exact ⟨cs, rfl, hcs.leaf_or_derives⟩

end Shapes

end Pathwise.Language
