import Pathwise.Proofs.Steps

/-!
# What a tree mentions

A walk through a tree ends at a subtree, so every text that a walk finds is the text of a leaf.
-/

namespace Pathwise

open Steps

namespace Tree

/-- The text is that of a leaf of the tree. -/
inductive Mentions (n : String) : Tree → Prop
  | leaf : Mentions n (.leaf n)
  | node {rule : String} {cs : List Tree} {c : Tree} : c ∈ cs → Mentions n c →
      Mentions n (.node rule cs)

/-- All that the tree mentions is mentioned by the other one. -/
def Within (c t : Tree) : Prop :=
  ∀ n, c.Mentions n → t.Mentions n

theorem Within.refl (t : Tree) : t.Within t :=
  fun _ => id

theorem Within.trans {c d t : Tree} (h : c.Within d) (h' : d.Within t) : c.Within t :=
  fun n hn => h' n (h n hn)

variable {t c : Tree} {cs : List Tree}

theorem within_of_children? (h : t.children? = .ok cs) (hc : c ∈ cs) : c.Within t := by
  cases t with
  | leaf text => cases h
  | node rule cs' =>
    obtain rfl := Except.ok.inj h
    exact fun n hn => .node hc hn

theorem within_of_child? {i : Nat} (h : t.child? i = .ok c) : c.Within t := by
  cases t with
  | leaf text => cases h
  | node rule cs =>
    simp only [child?] at h
    split at h
    · next hi =>
      obtain rfl := Except.ok.inj h
      exact fun n hn => .node (List.mem_of_getElem? hi) hn
    · cases h

theorem within_of_descend? : ∀ {path : List Nat} {t : Tree}, t.descend? path = .ok c →
    c.Within t := by
  intro path
  induction path with
  | nil =>
    intro t h
    obtain rfl := Except.ok.inj h
    exact .refl t
  | cons i path ih =>
    intro t h
    obtain ⟨d, hd, h⟩ := except_bind_eq_ok.mp h
    exact (ih h).trans (within_of_child? hd)

theorem mentions_of_textAt? {path : List Nat} {n : String} (h : t.textAt? path = .ok n) :
    t.Mentions n := by
  obtain ⟨c, hc, h⟩ := except_bind_eq_ok.mp h
  refine within_of_descend? hc n ?_
  cases c with
  | leaf text =>
    obtain rfl := Except.ok.inj h
    exact .leaf
  | node rule cs => cases h

end Tree

end Pathwise
