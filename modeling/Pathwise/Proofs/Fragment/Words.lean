import Mathlib.Data.String.Basic
import Pathwise.Proofs.Fragment.Lines

/-!
# Operands are words

The syntax tree of an operand holds tokens: names, digits, an address.  Whatever it resolves to is
written as one word that is no keyword (`IsOperand.writesWord`), if the names that were generated
for variables are such words.
-/

namespace Pathwise

open Steps List

/-- A word that begins no statement of its own kind. -/
def IsName (w : String) : Prop :=
  IsWord w ∧ w ∉ keywords

instance (w : String) : Decidable (IsName w) :=
  inferInstanceAs (Decidable (_ ∧ _))

/-- The variables of a scope have words for names. -/
def Scope.NamesWords (sc : Scope) : Prop :=
  ∀ x name, sc.vars.find? x = some name → IsName name

/-- An operand that is written as one word. -/
def Scope.WritesWord (sc : Scope) (t : Tree) : Prop :=
  ∀ o, sc.operand? t = some o → IsName o.text

def operandRules : List String := ["name", "name_field", "sys_data", "int", "ip_data"]

/-- The syntax trees of operands: the leaves are tokens of the kind that their rule asks for. -/
inductive IsOperand : Tree → Prop
  | name {rule : String} (x : String) : IsOperand (.node rule [.node "name" [.leaf x]])
  | field {rule : String} (xs : List String) : (∀ x ∈ xs, IsWord x) →
      IsOperand (.node rule [.node "name_field" (xs.map .leaf)])
  | system {rule : String} (x : String) : IsOperand (.node rule [.node "sys_data" [.leaf x]])
  | int {rule : String} (x : String) : x.toList ≠ [] → (∀ c ∈ x.toList, isDigit c) →
      IsOperand (.node rule [.node "int" [.leaf x]])
  | address {rule : String} (x : String) : (∀ part ∈ x.splitOn ".", '-' ∉ part.toList) →
      IsOperand (.node rule [.node "ip_data" [.leaf x]])
  /-- an indexed operand, an expression or a number to another base -/
  | other {rule kind : String} (ts : List Tree) : kind ∉ operandRules →
      IsOperand (.node rule [.node kind ts])

namespace Tree

def ofVariable (x : String) : Tree := .node "data" [.node "name" [.leaf x]]

/-- The tree of a dotted name. -/
def ofField (xs : List String) : Tree := .node "data" [.node "name_field" (xs.map .leaf)]

def ofDigits (x : String) : Tree := .node "data" [.node "int" [.leaf x]]

end Tree

variable {w c c' text : String} {n : Int} {parts : List String}

/-! ### Words -/

theorem IsName.of_head (hw : IsWord w) {c : Char} (h : w.toList.head? = some c)
    (hc : ∀ k ∈ keywords, k.toList.head? ≠ some c) : IsName w :=
  ⟨hw, fun hk => hc w hk h⟩

theorem charKind_digit {c : Char} (h : isDigit c) : charKind c = some .word := by
  have hgap : isGap c = false := by
    rw [Bool.eq_false_iff]
    intro hgap
    simp only [isGap, Bool.or_eq_true, beq_iff_eq] at hgap
    rcases hgap with (((rfl | rfl) | rfl) | rfl) | rfl <;> exact absurd h (by decide)
  simp [charKind, hgap, h]

theorem isName_digits (hne : w.toList ≠ []) (h : ∀ c ∈ w.toList, isDigit c) : IsName w := by
  obtain ⟨c, cs, hcs⟩ := exists_cons_of_ne_nil hne
  refine .of_head ⟨hne, fun c hc => charKind_digit (h c hc)⟩ (by rw [hcs]; rfl) fun k hk hhead => ?_
  have hc : isDigit c := h c (by rw [hcs]; exact mem_cons_self)
  have hnone : ∀ k ∈ keywords, (k.toList.head?.map isDigit) = some false := by decide
  have hd := hnone k hk
  rw [hhead, Option.map_some, hc] at hd
  exact absurd hd (by decide)

theorem isWord_dot : IsWord "." := by decide

theorem isWord_intercalate : ∀ (x : String) (xs : List String), (∀ y ∈ x :: xs, IsWord y) →
    IsWord (".".intercalate (x :: xs)) := by
  intro x xs
  induction xs generalizing x with
  | nil => exact fun h => h x mem_cons_self
  | cons y xs ih =>
    intro h
    rw [String.intercalate_cons_cons]
    exact ((h x mem_cons_self).append isWord_dot).append
      (ih y fun z hz => h z (mem_cons_of_mem x hz))

/-! ### Numbers -/

theorem Text.integer_nonneg {s : String} (hs : '-' ∉ s.toList)
    (h : Text.integer s = .ok n) : 0 ≤ n := by
  have hmap : ∀ (bad : Text.IntegerError) (cs : List Char),
      (fun n : Nat => (n : Int)) <$> Text.unsigned bad cs = .ok n → 0 ≤ n := by
    intro bad cs hcs
    cases hu : Text.unsigned bad cs with
    | error e => rw [hu] at hcs; cases hcs
    | ok m =>
      rw [hu] at hcs
      cases hcs
      exact Int.natCast_nonneg m
  rw [Text.integer] at h
  split at h
  · next cs hcs =>
    have hmem : '-' ∈ s.toList.dropWhile Text.isNumberBlank := by rw [hcs]; exact mem_cons_self
    exact absurd ((dropWhile_suffix _).mem hmem) hs
  · exact hmap _ _ h
  · exact hmap _ _ h

theorem isName_toString (hn : 0 ≤ n) : IsName (toString n) := by
  obtain ⟨m, rfl⟩ := Int.eq_ofNat_of_zero_le hn
  have hdigits : (toString (m : Int)).toList = Nat.toDigits 10 m := Nat.toList_repr
  refine isName_digits ?_ ?_
  · rw [hdigits]
    exact Nat.toDigits_ne_nil
  · intro c hc
    rw [hdigits] at hc
    have hd := Nat.isDigit_of_mem_toDigits (by decide) (by decide) hc
    simpa [Char.isDigit, isDigit, Char.le_def, UInt32.le_iff_toNat_le] using hd

theorem octet_nonneg (hparts : ∀ p ∈ parts, '-' ∉ p.toList) {i : Nat}
    (h : Operand.octet parts i c = .ok n c') : 0 ≤ n := by
  rw [Operand.octet] at h
  cases hp : parts[i]? with
  | none =>
    rw [hp] at h
    exact absurd h throw_ne_ok
  | some p =>
    rw [hp] at h
    cases hi : Text.integer p with
    | error e =>
      simp only [hi] at h
      exact absurd h throw_ne_ok
    | ok m =>
      simp only [hi] at h
      obtain ⟨rfl, _⟩ := pure_eq_ok.mp h
      exact Text.integer_nonneg (hparts p (mem_of_getElem? hp)) hi

theorem addressNumber_nonneg (hparts : ∀ p ∈ parts, '-' ∉ p.toList)
    (h : Operand.addressNumber parts c = .ok n c') : 0 ≤ n := by
  simp only [Operand.addressNumber, bind_eq_ok, pure_eq_ok] at h
  obtain ⟨x1, _, h1, x2, _, h2, x3, _, h3, x4, _, h4, rfl, _⟩ := h
  have := octet_nonneg hparts h1
  have := octet_nonneg hparts h2
  have := octet_nonneg hparts h3
  have := octet_nonneg hparts h4
  omega

/-! ### Operands -/

theorem resolveField_isName {xs : List String} (hxs : ∀ x ∈ xs, IsWord x) {o : Operand}
    (h : Operand.resolveField xs c = .ok o c') : IsName o.text := by
  rw [Operand.resolveField.eq_def] at h
  split at h
  · exact absurd h throw_ne_ok
  · next rest =>
    obtain ⟨rfl, _⟩ := pure_eq_ok.mp h
    refine .of_head (c := 'h') (isWord_intercalate _ _ hxs) ?_ (by decide)
    cases rest with
    | nil => rfl
    | cons y ys =>
      rw [String.intercalate_cons_cons, String.toList_append, String.toList_append]
      rfl
  · obtain ⟨rfl, _⟩ := pure_eq_ok.mp h
    decide
  · obtain ⟨rfl, _⟩ := pure_eq_ok.mp h
    decide
  · exact absurd h halt_ne_ok
  · next f =>
    obtain ⟨rfl, _⟩ := pure_eq_ok.mp h
    have hf : IsWord f := hxs f (by simp)
    refine .of_head (c := 'g') (IsWord.append (by decide) hf) ?_ (by decide)
    rw [String.toList_append]
    rfl
  · exact absurd h halt_ne_ok
  · exact absurd h halt_ne_ok
  · obtain ⟨_, _, _, h⟩ := bind_eq_ok.mp h
    exact absurd h halt_ne_ok

theorem systemText?_isName {x : String} (h : Operand.systemText? x = some text) : IsName text := by
  rw [Operand.systemText?.eq_def] at h
  split at h
  all_goals cases h
  all_goals decide

theorem decimal_isName (hn : 0 ≤ n) (h : Text.decimal n = .ok text) : IsName text := by
  rw [Text.decimal] at h
  split at h
  · cases h
  · cases h
    exact isName_toString hn

theorem mapM_text_leaves : ∀ (xs : List String) {c c' : String} {ys : List String},
    (xs.map Tree.leaf).mapM (fun t => (t.text? : Report String)) c = .ok ys c' → ys = xs := by
  intro xs
  induction xs with
  | nil =>
    intro c c' ys h
    rw [map_nil, mapM_nil] at h
    exact (pure_eq_ok.mp h).1.symm
  | cons x xs ih =>
    intro c c' ys h
    rw [map_cons, mapM_cons] at h
    simp only [bind_eq_ok, pure_eq_ok, lift_shape_eq_ok] at h
    obtain ⟨y, _, ⟨hy, _⟩, ys, _, hys, rfl, _⟩ := h
    cases hy
    rw [ih hys]

theorem IsOperand.writesWord {sc : Scope} (hsc : sc.NamesWords) {t : Tree} (ht : IsOperand t) :
    sc.WritesWord t := by
  intro o ho
  obtain ⟨c, h⟩ := result?_eq_some ho
  rw [Scope.resolve] at h
  simp only [Operand.resolve, bind_eq_ok, lift_shape_eq_ok] at h
  obtain ⟨d, _, ⟨hd, rfl⟩, kind, _, ⟨hkind, rfl⟩, h⟩ := h
  cases ht with
  | name x =>
    cases hd
    cases hkind
    rw [if_pos rfl] at h
    obtain ⟨x', _, hx, h⟩ := bind_eq_ok.mp h
    cases (lift_shape_eq_ok.mp hx).1
    cases hv : sc.vars.find? x with
    | none =>
      simp only [hv] at h
      obtain ⟨_, _, _, h⟩ := bind_eq_ok.mp h
      exact absurd h halt_ne_ok
    | some name =>
      simp only [hv] at h
      obtain ⟨rfl, _⟩ := pure_eq_ok.mp h
      exact hsc x name hv
  | field xs hxs =>
    cases hd
    cases hkind
    rw [if_neg (by decide), if_pos rfl] at h
    simp only [bind_eq_ok, lift_shape_eq_ok] at h
    obtain ⟨ts, _, ⟨hts, rfl⟩, parts, _, hparts, h⟩ := h
    cases hts
    rw [mapM_text_leaves xs hparts] at h
    exact resolveField_isName hxs h
  | system x =>
    cases hd
    cases hkind
    rw [if_neg (by decide), if_neg (by decide), if_pos rfl] at h
    obtain ⟨x', _, _, h⟩ := bind_eq_ok.mp h
    cases hs : Operand.systemText? x' with
    | none =>
      simp only [hs] at h
      exact absurd h halt_ne_ok
    | some text =>
      simp only [hs] at h
      obtain ⟨rfl, _⟩ := pure_eq_ok.mp h
      exact systemText?_isName hs
  | int x hne hx =>
    cases hd
    cases hkind
    rw [if_neg (by decide), if_neg (by decide), if_neg (by decide), if_pos rfl] at h
    simp only [bind_eq_ok, lift_shape_eq_ok, pure_eq_ok] at h
    obtain ⟨x', _, ⟨hx', rfl⟩, rfl, _⟩ := h
    cases hx'
    exact isName_digits hne hx
  | address x hx =>
    cases hd
    cases hkind
    rw [if_neg (by decide), if_neg (by decide), if_neg (by decide), if_neg (by decide),
      if_pos rfl] at h
    simp only [bind_eq_ok, lift_shape_eq_ok] at h
    obtain ⟨x', _, ⟨hx', rfl⟩, n, _, hn, h⟩ := h
    cases hx'
    cases hdecimal : Text.decimal n with
    | error e =>
      simp only [hdecimal] at h
      exact absurd h throw_ne_ok
    | ok text =>
      simp only [hdecimal] at h
      obtain ⟨rfl, _⟩ := pure_eq_ok.mp h
      exact decimal_isName (addressNumber_nonneg hx hn) hdecimal
  | other ts hk =>
    cases hd
    cases hkind
    have hne : ∀ r ∈ operandRules, kind ≠ r := fun r hr h => hk (h ▸ hr)
    rw [if_neg (hne _ (by decide)), if_neg (hne _ (by decide)), if_neg (hne _ (by decide)),
      if_neg (hne _ (by decide)), if_neg (hne _ (by decide))] at h
    obtain ⟨_, _, _, h⟩ := bind_eq_ok.mp h
    exact absurd h halt_ne_ok

end Pathwise
