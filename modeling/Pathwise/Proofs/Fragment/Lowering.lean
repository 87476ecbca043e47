import Pathwise.Proofs.Fragment.Emitted
import Pathwise.Proofs.Fragment.Words
import Pathwise.Proofs.OrderedMap

/-!
# Lowering structured control flow preserves meaning

The control text of a list of instructions is written piece by piece by functions that call each
other: a block inside an if, an if inside the else of another one, and the blocks that assertions
open and that are closed only at the end of their list.  Here the text that is added is read back as
statements, and these do what the instructions do (`control_text_preserves_meaning`), for every list
that is built from assignments, sums and differences, `drop` and `nop`, assertions and ifs that test
comparisons and validity.

The induction is over such lists (`Structured`).  For a list that stands behind `a` open assertions,
the pieces spell the statements of the list followed by `a` closing braces (`LowersTo`); for an if
they spell one statement (`LowersIfTo`).
-/

namespace Pathwise

open Steps List Option

variable {sc : Scope} {site : Site} {c : Condition} {g g' : Generation} {u : Unit}
  {cs : List Condition}
  {bs : List (List Ins)} {e : Option Ins} {d : Option (List Ins)} {args : List Tree}

/-! ### Structured lists -/

/-- A comparison, or a test whether a header with a name in two parts is valid. -/
inductive IsTest : Condition → Prop
  | compare (cmp : Comparison) {l r : Tree} : IsOperand l → IsOperand r →
      IsTest ⟨.compare cmp, [l], [r]⟩
  | valid {rule rule' owner name : String} (right : List Tree) : IsWord owner → IsWord name →
      IsTest ⟨.valid, [.node rule [.node rule' [.leaf owner, .leaf name]]], right⟩

/-- Lists of instructions without calls and tables, nested to any depth; no if has both an `else if`
and an `else`. -/
inductive Structured : List Ins → Prop
  | nil : Structured []
  | assign {t s : Tree} {is : List Ins} : IsOperand t → IsOperand s → s.isIndexed = false →
      Structured is → Structured (.assign [t] s :: is)
  | arith {t l r : Tree} {op : String} {is : List Ins} : IsOperand t → IsOperand l →
      op = "+" ∨ op = "-" → IsOperand r → Structured is → Structured (.arith [t] l op r :: is)
  | drop {args : List Tree} {is : List Ins} : Structured is →
      Structured (.primitive "drop" args :: is)
  | nop {args : List Tree} {is : List Ins} : Structured is →
      Structured (.primitive "nop" args :: is)
  | assert {c : Condition} {is : List Ins} : IsTest c → Structured is →
      Structured (.assert [c] :: is)
  | branch {c : Condition} {b is : List Ins} : IsTest c → Structured b → Structured is →
      Structured (.branch [c] [b] none none :: is)
  | branchElse {c : Condition} {b d is : List Ins} : IsTest c → Structured b → Structured d →
      Structured is → Structured (.branch [c] [b] none (some d) :: is)
  | branchElseIf {c : Condition} {b is : List Ins} {cs : List Condition} {bs : List (List Ins)}
      {e : Option Ins} {d : Option (List Ins)} : IsTest c → Structured b →
        Structured [.branch cs bs e d] → Structured is →
      Structured (.branch [c] [b] (some (.branch cs bs e d)) none :: is)

/-! ### Conditions -/

theorem condition_lowers (hsc : sc.NamesWords) (hc : IsTest c)
    (h : Emit.condition sc site c g = .ok u g') :
    ∃ ps guard, Performs site.fragment g (.write .control ps) g' ∧
      Spells ps ("if" :: "(" :: Guard.tokens guard ++ [")"]) ∧
      ∀ (V : Type) [DecidableEq V] (μ : Meaning V) (σ : Store V),
        sc.holds? μ c σ = some (guard.holds μ noParams σ) := by
  cases hc with
  | compare cmp hl hr =>
    obtain ⟨l, ls, r, rs, o, o', hls, hrs, ho, ho', hw⟩ := Emit.comparison_eq_ok h
    obtain ⟨rfl, rfl⟩ := List.cons.inj hls
    obtain ⟨rfl, rfl⟩ := List.cons.inj hrs
    refine ⟨_, .compare o.text cmp o'.text, hw,
      Spells.compare site.level cmp (hl.writesWord hsc o ho).1
      (hr.writesWord hsc o' ho').1, ?_⟩
    intro V _ μ σ
    simp only [Scope.holds?, Scope.value?_eq ho, Scope.value?_eq ho', bind_eq_bind, bind_some]
    rfl
  | valid right howner hname =>
    obtain ⟨t, ts, owner, name, hts, ht, ht', hw⟩ := Emit.validity_eq_ok h
    obtain ⟨rfl, rfl⟩ := List.cons.inj hts
    cases ht
    cases ht'
    exact ⟨_, .valid _, hw, Spells.valid ((howner.append isWord_dot).append hname),
      fun V _ μ σ => rfl⟩

theorem Fit.branch_ne_true (hc : c.test ≠ .member) (level : Nat) (g g' : Generation) :
    Fit.branch sc level (.branch (c :: cs) bs e d) g ≠ .ok true g' := by
  intro h
  refine hc ((branch_eq_true h).1 (.branch (c :: cs) bs e d) ?_ c cs rfl)
  cases e <;> exact mem_cons_self

/-! ### What has to be shown -/

/--
The control text of a list can be read back.  Behind `a` open assertions it spells statements that
do what the list does, and then closes the `a` blocks.
-/
def LowersTo (sc : Scope) (is : List Ins) : Prop :=
  ∀ (run : Job → Gen Unit) (site : Site) (n a : Nat) (g g' : Generation) (u : Unit),
    site.inAction = false →
    Emit.block run sc site ⟨false, n, a⟩ is g = .ok u g' →
    ∃ ps ss, Performs site.fragment g (.write .control ps) g' ∧
      Spells ps (Statement.tokensAll ss ++ List.replicate a "\x7d") ∧ Statement.AllPlain ss ∧
      ∀ (V : Type) [DecidableEq V] (μ : Meaning V) (σ : Store V),
        sc.exec μ is σ = some (Statement.runAll μ noParams ss σ)

/-- The control text of an if can be read back as one statement. -/
def LowersIfTo (sc : Scope) (i : Ins) : Prop :=
  ∀ (run : Job → Gen Unit) (site : Site) (g g' : Generation) (u : Unit),
    Emit.nested run sc site i g = .ok u g' →
    ∃ ps s, Performs site.fragment g (.write .control ps) g' ∧
      Spells ps (Statement.tokens s) ∧ s.IsPlain ∧
      ∀ (V : Type) [DecidableEq V] (μ : Meaning V) (σ : Store V), sc.execIf μ i σ =
        some (s.run μ noParams σ)

theorem closeBlocks_lowers : ∀ (a : Nat) {g g' : Generation} {u : Unit},
    Emit.closeBlocks site a g = .ok u g' →
    ∃ ps, Performs site.fragment g (.write .control ps) g' ∧
      Spells ps (List.replicate a "\x7d") := by
  intro a
  induction a with
  | zero =>
    intro g g' u h
    obtain ⟨_, rfl⟩ := pure_eq_ok.mp h
    exact ⟨[], Effect.write_nil .control ▸ .refl _ g, Spells.nil⟩
  | succ a ih =>
    intro g g' u h
    rw [Emit.closeBlocks, bind_eq_ok] at h
    obtain ⟨_, g1, h1, h2⟩ := h
    obtain ⟨ps, hw, hps⟩ := ih h2
    exact ⟨_, (Emit.closeBlock_eq_ok h1).append hw, (Spells.blockClose _).append hps⟩

namespace LowersTo

variable {sc : Scope} {is : List Ins}

theorem nil : LowersTo sc [] := by
  intro run site n a g g' u _ h
  obtain ⟨ps, hw, hps⟩ := closeBlocks_lowers a h
  exact ⟨ps, [], hw, hps, trivial, fun V _ μ σ => rfl⟩

theorem cons {i : Ins} (his : LowersTo sc is)
    (hi : ∀ (run : Job → Gen Unit) (site : Site) (n a : Nat) (g g' : Generation) (u : Unit),
      site.inAction = false → Emit.block run sc site ⟨false, n, a⟩ (i :: is) g = .ok u g' →
      ∃ g1 ps s, Performs site.fragment g (.write .control ps) g1 ∧
        Spells ps (Statement.tokens s) ∧ s.IsPlain ∧
        Emit.block run sc site ⟨false, n + 1, a⟩ is g1 = .ok u g' ∧
        ∀ (V : Type) [DecidableEq V] (μ : Meaning V) (σ : Store V),
          sc.exec μ (i :: is) σ = sc.exec μ is (s.run μ noParams σ)) :
    LowersTo sc (i :: is) := by
  intro run site n a g g' u hsite h
  obtain ⟨g1, ps, s, hw, hps, hs, hrest, hexec⟩ := hi run site n a g g' u hsite h
  obtain ⟨qs, ss, hw', hqs, hss, hexec'⟩ := his run site (n + 1) a g1 g' u hsite hrest
  refine ⟨ps ++ qs, s :: ss, hw.append hw', ?_, ⟨hs, hss⟩, fun V _ μ σ => ?_⟩
  · rw [Statement.tokensAll, append_assoc]
    exact hps.append hqs
  · rw [hexec, hexec', Statement.runAll]

theorem text_eq_control (h : site.inAction = false) (level : Nat) :
    (⟨site.fragment, level, site.inAction⟩ : Site).text = site.key .control := by
  rw [Site.text, h]
  rfl

theorem assign {t s : Tree} (ht : sc.WritesWord t) (hs : s.isIndexed = false)
    (hs' : sc.WritesWord s) (his : LowersTo sc is) : LowersTo sc (.assign [t] s :: is) := by
  refine his.cons fun run site n a g g' u hsite h => ?_
  rw [Emit.block_assign, bind_eq_ok] at h
  obtain ⟨b, g1, h1, h2⟩ := h
  obtain ⟨_, t', ts, o, o', hts, ho, ho', hw⟩ | ⟨hindexed, _⟩ := Emit.assign_cases h1
  rotate_left
  · exact absurd (hs.symm.trans hindexed) Bool.false_ne_true
  obtain ⟨rfl, rfl⟩ := List.cons.inj hts
  rw [text_eq_control hsite] at hw
  refine ⟨g1, _, .assign o.text o'.text, hw, Spells.assign _ (ht o ho).1 (hs' o' ho').1,
    (ht o ho).2, h2, ?_⟩
  intro V _ μ σ
  rw [Scope.exec_assign, Scope.step?, hs]
  simp only [Bool.false_eq_true, if_false, Scope.text?_eq ho, Scope.value?_eq ho', bind_eq_bind,
    bind_some]
  rfl

theorem arith {t l r : Tree} {op : String} (ht : sc.WritesWord t) (hl : sc.WritesWord l)
    (hop : op = "+" ∨ op = "-") (hr : sc.WritesWord r) (his : LowersTo sc is) :
    LowersTo sc (.arith [t] l op r :: is) := by
  refine his.cons fun run site n a g g' u hsite h => ?_
  rw [Emit.block_arith, bind_eq_ok] at h
  obtain ⟨_, g1, h1, h2⟩ := h
  obtain ⟨t', ts, o, ol, or, hts, ho, hol, hor, hw⟩ := Emit.arith_eq_ok h1
  obtain ⟨rfl, rfl⟩ := List.cons.inj hts
  rw [text_eq_control hsite] at hw
  have hne : op ≠ ";" := by rcases hop with rfl | rfl <;> decide
  refine ⟨g1, _, .arith o.text ol.text op or.text, hw,
    Spells.arith _ (ht o ho).1 (hl ol hol).1 (hr or hor).1 hop, ⟨(ht o ho).2, hne⟩, h2, ?_⟩
  intro V _ μ σ
  rw [Scope.exec_arith, Scope.step?]
  simp only [Scope.text?_eq ho, Scope.value?_eq hol, Scope.value?_eq hor, bind_eq_bind, bind_some]
  rfl

theorem drop (his : LowersTo sc is) : LowersTo sc (.primitive "drop" args :: is) := by
  refine his.cons fun run site n a g g' u hsite h => ?_
  rw [Emit.block_primitive, bind_eq_ok] at h
  obtain ⟨_, g1, h1, h2⟩ := h
  obtain ⟨ps, hps, hw⟩ := Emit.primitive_eq_ok h1
  rw [text_eq_control hsite] at hw
  cases hps with
  | drop _ => exact ⟨g1, _, .drop, hw, Spells.drop _, trivial, h2, fun V _ μ σ => rfl⟩
  | compress hk => exact absurd hk (by decide)
  | nop hk => exact absurd hk (by decide)

theorem nop (his : LowersTo sc is) : LowersTo sc (.primitive "nop" args :: is) := by
  refine his.cons fun run site n a g g' u hsite h => ?_
  rw [Emit.block_primitive, bind_eq_ok] at h
  obtain ⟨_, g1, h1, h2⟩ := h
  obtain ⟨ps, hps, hw⟩ := Emit.primitive_eq_ok h1
  rw [text_eq_control hsite] at hw
  cases hps with
  | drop hk => exact absurd hk (by decide)
  | compress hk => exact absurd hk (by decide)
  | nop _ => exact ⟨g1, _, .empty, hw, Spells.empty _, trivial, h2, fun V _ μ σ => rfl⟩

theorem assert (hsc : sc.NamesWords) (hc : IsTest c) (his : LowersTo sc is) :
    LowersTo sc (.assert [c] :: is) := by
  intro run site n a g g' u hsite h
  rw [Emit.block_assert] at h
  simp only [bind_eq_ok] at h
  obtain ⟨_, g1, h1, _, g2, h2, h3⟩ := h
  obtain ⟨ps, guard, hw1, hps, hholds⟩ := condition_lowers hsc hc h1
  obtain ⟨qs, ss, hw3, hqs, hss, hexec⟩ := his run site (n + 1) (a + 1) g2 g' u hsite h3
  refine ⟨_, [.ifThen guard ss], (hw1.append (Emit.openBlock_eq_ok h2)).append hw3, ?_,
    ⟨hss, trivial⟩, ?_⟩
  · have hspell := (hps.append (Spells.blockOpen (site.level + a))).append hqs
    simpa [Statement.tokensAll, Statement.tokens, replicate_succ] using hspell
  · intro V _ μ σ
    rw [Scope.exec_assert]
    simp only [hholds, bind_some, hexec, Statement.runAll, Statement.run]
    split <;> rfl

theorem branch (hc : c.test ≠ .member) (hif : LowersIfTo sc (.branch (c :: cs) bs e d))
    (his : LowersTo sc is) :
    LowersTo sc (.branch (c :: cs) bs e d :: is) := by
  refine his.cons fun run site n a g g' u hsite h => ?_
  rw [Emit.block_branch, bind_eq_ok] at h
  obtain ⟨fits, g1, h1, h⟩ := h
  cases fits with
  | true =>
    exact absurd h1 (Fit.branch_ne_true hc _ _ _)
  | false =>
    obtain ⟨_, g2, h2, h3⟩ := bind_eq_ok.mp h
    obtain ⟨ps, s, hw, hps, hs, hexec⟩ := hif run _ g1 g2 _ h2
    refine ⟨g2, ps, s, ((Performs.onlyReports (Fit.branch_onlyReports sc _ _) h1).trans hw).congr
      (Effect.empty_append _), hps, hs, h3, fun V _ μ σ => ?_⟩
    rw [Scope.exec_branch, hexec, bind_some]

end LowersTo

/-! ### Ifs -/

theorem nested_lowers (hsc : sc.NamesWords) {b : List Ins} {run : Job → Gen Unit} (hc : IsTest c)
    (hb : LowersTo sc b) (h : Emit.nested run sc site (.branch [c] [b] e d) g = .ok u g') :
    ∃ g1 ps guard ss, Performs site.fragment g (.write .control ps) g1 ∧
      Spells ps ("if" :: "(" :: Guard.tokens guard ++ ")" :: "\x7b" ::
        Statement.tokensAll ss ++ ["\x7d"]) ∧
      Statement.AllPlain ss ∧ Emit.elseParts run sc site e d g1 = .ok u g' ∧
      ∀ (V : Type) [DecidableEq V] (μ : Meaning V) (σ : Store V),
        sc.holds? μ c σ = some (guard.holds μ noParams σ) ∧
        sc.exec μ b σ = some (Statement.runAll μ noParams ss σ) := by
  rw [Emit.nested_branch] at h
  simp only [bind_eq_ok] at h
  obtain ⟨_, g1, h1, _, g2, h2, _, g3, h3, _, g4, h4, h5⟩ := h
  obtain ⟨ps, guard, hw1, hps, hholds⟩ := condition_lowers hsc hc h1
  obtain ⟨qs, ss, hw3, hqs, hss, hexec⟩ := hb run _ 0 0 g2 g3 _ rfl h3
  refine ⟨g4, _, guard, ss, ((hw1.append (Emit.openBlock_eq_ok h2)).append hw3).append
    (Emit.closeBlock_eq_ok h4), ?_, hss, h5, fun V _ μ σ => ⟨hholds V μ σ, hexec V μ σ⟩⟩
  have hspell := ((hps.append (Spells.blockOpen site.level)).append hqs).append
    (Spells.blockClose site.level)
  simpa using hspell

namespace LowersIfTo

variable {sc : Scope} {c : Condition} {b : List Ins}

theorem branch (hsc : sc.NamesWords) (hc : IsTest c) (hb : LowersTo sc b) :
    LowersIfTo sc (.branch [c] [b] none none) := by
  intro run site g g' u h
  obtain ⟨g1, ps, guard, ss, hw, hps, hss, h1, hmeaning⟩ := nested_lowers hsc hc hb h
  obtain ⟨_, rfl⟩ := pure_eq_ok.mp h1
  refine ⟨ps, .ifThen guard ss, hw, hps, hss, fun V _ μ σ => ?_⟩
  obtain ⟨hholds, hexec⟩ := hmeaning V μ σ
  rw [Scope.execIf_branch, hholds, bind_some, hexec, Statement.run]
  split <;> rfl

theorem branchElse {d : List Ins} (hsc : sc.NamesWords) (hc : IsTest c) (hb : LowersTo sc b)
    (hd : LowersTo sc d) :
    LowersIfTo sc (.branch [c] [b] none (some d)) := by
  intro run site g g' u h
  obtain ⟨g1, ps, guard, ss, hw, hps, hss, h1, hmeaning⟩ := nested_lowers hsc hc hb h
  simp only [Emit.elseParts, Emit.elsePart, bind_eq_ok] at h1
  obtain ⟨_, g2, h2, _, g3, h3, h4⟩ := h1
  obtain ⟨qs, ts, hw3, hqs, hts, hexecd⟩ := hd run _ 0 0 g2 g3 _ rfl h3
  refine ⟨_, .ifElse guard ss ts,
    ((hw.append (Emit.openElse_eq_ok h2)).append hw3).append (Emit.closeBlock_eq_ok h4), ?_,
    ⟨hss, hts⟩, fun V _ μ σ => ?_⟩
  · have hspell := ((hps.append (Spells.elseOpen site.level)).append hqs).append
      (Spells.blockClose site.level)
    simpa [Statement.tokens] using hspell
  · obtain ⟨hholds, hexec⟩ := hmeaning V μ σ
    rw [Scope.execIf_branch, hholds, bind_some, hexec, Statement.run]
    split
    · rfl
    · exact hexecd V μ σ

theorem branchElseIf {e : Ins} (hsc : sc.NamesWords) (hc : IsTest c) (hb : LowersTo sc b)
    (he : LowersIfTo sc e) :
    LowersIfTo sc (.branch [c] [b] (some e) none) := by
  intro run site g g' u h
  obtain ⟨g1, ps, guard, ss, hw, hps, hss, h1, hmeaning⟩ := nested_lowers hsc hc hb h
  simp only [Emit.elseParts, Emit.elsePart, bind_eq_ok, pure_eq_ok] at h1
  obtain ⟨_, g2, h2, _, g3, h3, _, g4, h4, _, rfl⟩ := h1
  obtain ⟨qs, s, hw3, hqs, hs, hexece⟩ := he run _ g2 g3 _ h3
  refine ⟨_, .ifElse guard ss [s],
    ((hw.append (Emit.openElse_eq_ok h2)).append hw3).append (Emit.closeBlock_eq_ok h4), ?_,
    ⟨hss, hs, trivial⟩, fun V _ μ σ => ?_⟩
  · have hspell := ((hps.append (Spells.elseOpen site.level)).append hqs).append
      (Spells.blockClose site.level)
    simpa [Statement.tokens, Statement.tokensAll] using hspell
  · obtain ⟨hholds, hexec⟩ := hmeaning V μ σ
    rw [Scope.execIf_branch, hholds, bind_some, hexec, Statement.run]
    split
    · rfl
    · exact hexece V μ σ

end LowersIfTo

theorem IsTest.ne_member (h : IsTest c) : c.test ≠ .member := by
  cases h <;> exact fun h => by cases h

/-- **Every structured list can be read back**, and with it every if that such a list begins
with. -/
theorem Structured.lowers (hsc : sc.NamesWords) {is : List Ins} (h : Structured is) :
    LowersTo sc is ∧ ∀ cs bs e d rest, is = .branch cs bs e d :: rest →
      LowersIfTo sc (.branch cs bs e d) := by
  induction h with
  | nil => exact ⟨.nil, fun cs bs e d rest h => by cases h⟩
  | assign ht hs hindexed _ ih =>
    exact ⟨.assign (ht.writesWord hsc) hindexed (hs.writesWord hsc) ih.1,
      fun cs bs e d rest h => by cases h⟩
  | arith ht hl hop hr _ ih =>
    exact ⟨.arith (ht.writesWord hsc) (hl.writesWord hsc) hop (hr.writesWord hsc) ih.1,
      fun cs bs e d rest h => by cases h⟩
  | drop _ ih => exact ⟨.drop ih.1, fun cs bs e d rest h => by cases h⟩
  | nop _ ih => exact ⟨.nop ih.1, fun cs bs e d rest h => by cases h⟩
  | assert hc _ ih => exact ⟨.assert hsc hc ih.1, fun cs bs e d rest h => by cases h⟩
  | branch hc _ _ ihb ih =>
    have hif := LowersIfTo.branch hsc hc ihb.1
    exact ⟨.branch hc.ne_member hif ih.1, fun cs bs e d rest h => by cases h; exact hif⟩
  | branchElse hc _ _ _ ihb ihd ih =>
    have hif := LowersIfTo.branchElse hsc hc ihb.1 ihd.1
    exact ⟨.branch hc.ne_member hif ih.1, fun cs bs e d rest h => by cases h; exact hif⟩
  | branchElseIf hc _ _ _ ihb ihe ih =>
    have hif := LowersIfTo.branchElseIf hsc hc ihb.1 (ihe.2 _ _ _ _ _ rfl)
    exact ⟨.branch hc.ne_member hif ih.1, fun cs bs e d rest h => by cases h; exact hif⟩

/--
**The control text does what the instructions do.**  If a structured list is written outside of an
action, at whatever level of indentation, then the text that is added to the control text of its
fragment can be read as statements, and on every valuation these have the effect of the list.
-/
theorem control_text_preserves_meaning {sc : Scope} (hsc : sc.NamesWords) {is : List Ins}
    (his : Structured is) (run : Job → Gen Unit) (fragment : String) (level : Nat)
    {g g' : Generation} {u : Unit}
    (h : Emit.block run sc ⟨fragment, level, false⟩ ⟨false, 0, 0⟩ is g = .ok u g') :
    ∃ text ss, Piece.render (g'.written ⟨fragment, .control⟩)
        = Piece.render (g.written ⟨fragment, .control⟩) ++ text ∧
      readText text = some ss ∧
      ∀ (V : Type) [DecidableEq V] (μ : Meaning V) (σ : Store V),
        sc.exec μ is σ = some (Statement.runAll μ noParams ss σ) := by
  obtain ⟨ps, ss, hw, hps, hss, hexec⟩ :=
    (his.lowers hsc).1 run ⟨fragment, level, false⟩ 0 0 g g' u rfl h
  rw [replicate_zero, append_nil] at hps
  refine ⟨Piece.render ps, ss, ?_, readText_of_spells hss hps, hexec⟩
  have htext := hw.text ⟨fragment, .control⟩
  rw [Effect.addedTo, if_neg (by simp), if_pos rfl] at htext
  rw [htext, ← String.toList_inj, String.toList_append]
  exact Piece.chars_append _ _

/-- A scope with two variables. -/
def guardedScope : Scope :=
  { (default : Scope) with stem := "app", vars := ⟨[("x", "app_x"), ("y", "app_y")]⟩ }

/-- An assertion over the rest of a list, in which an `else if` holds an assertion of its own. -/
def guarded : List Ins :=
  [.assert [⟨.compare .greater, [.ofField ["hdr", "ipv4", "ttl"]], [.ofDigits "0"]⟩],
   .branch [⟨.compare .equal, [.ofVariable "x"], [.ofDigits "1"]⟩]
     [[.arith [.ofVariable "y"] (.ofVariable "x") "+" (.ofDigits "1")]]
     (some (.branch [⟨.valid, [.ofField ["hdr", "vlan"]], []⟩]
       [[.assert [⟨.compare .equal, [.ofVariable "y"], [.ofVariable "x"]⟩], .primitive "drop" []]]
         none none)) none,
   .assign [.ofVariable "y"] (.ofDigits "5")]

/-- A fragment that was begun. -/
def guardedStart : Generation :=
  { Generation.empty with
    relation := .ofList [("app_1", .fragment .empty)]
    texts := [(⟨"app_1", .control⟩, #[])] }

theorem guarded_preserved :
    guardedScope.NamesWords ∧ Structured guarded ∧
    ∃ g', Emit.block (fun _ => pure ()) guardedScope ⟨"app_1", 2, false⟩
      ⟨false, 0, 0⟩ guarded guardedStart = .ok () g' ∧
    ∃ text ss, Piece.render (g'.written ⟨"app_1", .control⟩)
        = Piece.render (guardedStart.written ⟨"app_1", .control⟩) ++ text ∧
      readText text = some ss ∧
      ∀ (V : Type) [DecidableEq V] (μ : Meaning V) (σ : Store V),
        guardedScope.exec μ guarded σ = some (Statement.runAll μ noParams ss σ) := by
  have hscope : guardedScope.NamesWords := by
    intro x name h
    have hmem := OrderedMap.mem_entries_of_find? h
    simp only [guardedScope, mem_cons, not_mem_nil, or_false, Prod.mk.injEq] at hmem
    rcases hmem with ⟨_, rfl⟩ | ⟨_, rfl⟩
    · decide
    · decide
  have hdigit : ∀ d, d = "0" ∨ d = "1" ∨ d = "5" → IsOperand (.ofDigits d) := by
    intro d hd
    rcases hd with rfl | rfl | rfl <;> exact .int _ (by decide) (all_eq_true.mp (by decide))
  have hword : ∀ w, w = "hdr" ∨ w = "ipv4" ∨ w = "ttl" ∨ w = "vlan" → IsWord w := by
    intro w hw
    rcases hw with rfl | rfl | rfl | rfl <;> decide
  have hlist : Structured guarded := by
    refine .assert (.compare _ (.field _ fun w hw => hword w ?_) (hdigit _ (by decide))) ?_
    · simp only [mem_cons, not_mem_nil, or_false] at hw
      tauto
    · refine .branchElseIf (.compare _ (.name _) (hdigit _ (by decide)))
        (.arith (.name _) (.name _) (Or.inl rfl) (hdigit _ (by decide)) .nil) ?_
        (.assign (.name _) (hdigit _ (by decide)) rfl .nil)
      exact .branch (.valid _ (hword _ (by decide)) (hword _ (by decide)))
        (.assert (.compare _ (.name _) (.name _)) (.drop .nil)) .nil
  obtain ⟨_, g', h⟩ := exists_ok_of_succeeded
    (r := Emit.block (fun _ => pure ()) guardedScope ⟨"app_1", 2, false⟩
    ⟨false, 0, 0⟩ guarded guardedStart) (by decide +kernel)
  exact ⟨hscope, hlist, g', h, control_text_preserves_meaning hscope hlist _ _ _ h⟩

end Pathwise
