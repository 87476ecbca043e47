import Pathwise.Placement.Place

/-!
# Names that end in a number

Fragments are named by a stem, an underscore and a number.  A number is written without underscores,
so the name tells both the stem and the number.
-/

namespace Pathwise

open List

theorem append_separator_inj {α : Type} {c : α} {xs ys xs' ys' : List α} (hys : c ∉ ys)
    (hys' : c ∉ ys') (h : xs ++ c :: ys = xs' ++ c :: ys') : xs = xs' ∧ ys = ys' := by
  rw [append_eq_append_iff] at h
  rcases h with ⟨zs, hxs, hrest⟩ | ⟨zs, hxs, hrest⟩
  · cases zs with
    | nil => exact ⟨by simpa using hxs.symm, by simpa using hrest⟩
    | cons z zs =>
      -- the second separator would stand among what follows the first
      have hmem : c ∈ ys := by
        rw [cons_append] at hrest
        injection hrest with _ hrest
        simp [hrest]
      exact absurd hmem hys
  · cases zs with
    | nil => exact ⟨by simpa using hxs, by simpa using hrest.symm⟩
    | cons z zs =>
      have hmem : c ∈ ys' := by
        rw [cons_append] at hrest
        injection hrest with _ hrest
        simp [hrest]
      exact absurd hmem hys'

theorem toDigits_inj {m n : Nat} (h : Nat.toDigits 10 m = Nat.toDigits 10 n) : m = n := by
  rw [← Nat.ofDigitChars_ten_toDigits (n := m), h, Nat.ofDigitChars_ten_toDigits]

theorem notMem_toDigits {c : Char} (hc : c.isDigit = false) (n : Nat) : c ∉ Nat.toDigits 10 n := by
  intro h
  have hdigit := Nat.isDigit_of_mem_toDigits (by decide) (by decide) h
  rw [hc] at hdigit
  cases hdigit

theorem toList_toString_ofNat (m : Nat) : (toString (Int.ofNat m)).toList = Nat.toDigits 10 m :=
  Nat.toList_repr

theorem toList_toString_negSucc (m : Nat) :
    (toString (Int.negSucc m)).toList = '-' :: Nat.toDigits 10 (m + 1) := by
  show ("-" ++ (m + 1).repr).toList = _
  rw [String.toList_append, Nat.toList_repr]
  rfl

theorem underscore_notMem_number (n : Int) : '_' ∉ (toString n).toList := by
  cases n with
  | ofNat m =>
    rw [toList_toString_ofNat]
    exact notMem_toDigits (by decide) m
  | negSucc m =>
    rw [toList_toString_negSucc, mem_cons, not_or]
    exact ⟨by decide, notMem_toDigits (by decide) (m + 1)⟩

theorem toString_int_inj {m n : Int} (h : (toString m).toList = (toString n).toList) : m = n := by
  -- a number without a sign does not begin with one
  have hsign : ∀ k l : Nat, Nat.toDigits 10 k ≠ '-' :: Nat.toDigits 10 l := by
    intro k l heq
    exact notMem_toDigits (c := '-') (by decide) k (heq ▸ mem_cons_self)
  cases m with
  | ofNat m =>
    cases n with
    | ofNat n =>
      rw [toList_toString_ofNat, toList_toString_ofNat] at h
      rw [toDigits_inj h]
    | negSucc n =>
      rw [toList_toString_ofNat, toList_toString_negSucc] at h
      exact absurd h (hsign _ _)
  | negSucc m =>
    cases n with
    | ofNat n =>
      rw [toList_toString_ofNat, toList_toString_negSucc] at h
      exact absurd h.symm (hsign _ _)
    | negSucc n =>
      rw [toList_toString_negSucc, toList_toString_negSucc, cons_inj_right] at h
      have := toDigits_inj h
      rw [Nat.add_right_cancel this]

namespace Placement

theorem toList_fragmentName (stem : String) (n : Int) :
    (fragmentName stem n).toList = stem.toList ++ '_' :: (toString n).toList := by
  rw [fragmentName, String.toList_append, String.toList_append, append_assoc]
  rfl

theorem fragmentName_inj {stem stem' : String} {n n' : Int} :
    fragmentName stem n = fragmentName stem' n' ↔ stem = stem' ∧ n = n' := by
  constructor
  · intro h
    have hlist := congrArg String.toList h
    rw [toList_fragmentName, toList_fragmentName] at hlist
    obtain ⟨hstem, hnumber⟩ := append_separator_inj (underscore_notMem_number n)
      (underscore_notMem_number n') hlist
    exact ⟨String.toList_injective hstem, toString_int_inj hnumber⟩
  · rintro ⟨rfl, rfl⟩
    rfl

end Placement

end Pathwise
