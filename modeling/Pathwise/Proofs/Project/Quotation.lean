import Pathwise.Proofs.Compile.Generated
import Pathwise.Proofs.Project.Domains

/-!
# Quotation marks and back

Quotation marks of a file are replaced by marks and brought back later.  The first change is refused
for an odd number of quotation marks and otherwise replaces each of them (`Quotation.hide_eq`).  The
second one leaves no mark behind (`Quotation.restore_unmarked`), so only a text without marks of its
own can come back.
-/

namespace Pathwise

open Steps List

namespace Text

theorem not_mem_unifyLineEnds (s : String) : '\r' ∉ (unifyLineEnds s).toList := by
  have hchars : ∀ cs, '\r' ∉ unifyLineEndChars cs := by
    intro cs
    fun_induction unifyLineEndChars cs with
    | case1 => simp
    | case2 cs ih => simpa using ih
    | case3 cs _ ih => simpa using ih
    | case4 c cs _ hc ih => exact mem_cons.not.mpr (not_or.mpr ⟨fun h => hc h.symm, ih⟩)
  unfold unifyLineEnds
  split
  · rw [String.toList_ofList]
    exact hchars _
  · next h => simpa using h

theorem count_unifyLineEnds (s : String) :
    (unifyLineEnds s).toList.count '"' = s.toList.count '"' := by
  have hchars : ∀ cs, (unifyLineEndChars cs).count '"' = cs.count '"' := by
    intro cs
    fun_induction unifyLineEndChars cs with
    | case1 => rfl
    | case2 cs ih => simpa using ih
    | case3 cs _ ih => simpa using ih
    | case4 c cs _ _ ih => rw [count_cons, count_cons, ih]
  unfold unifyLineEnds
  split
  · rw [String.toList_ofList, hchars]
  · rfl

/-- **The word occurs in no part of a text that is cut at it.** -/
theorem not_infix_of_mem_cut {word s p : String} (hne : word.toList ≠ []) (h : p ∈ cut word s) :
    ¬ word.toList <:+: p.toList := by
  have hparts : ∀ (n : Nat) (cs : List Char), cs.length = n →
      ∀ p ∈ cutFrom word.toList [] 0 cs, ¬ word.toList <:+: p.toList := by
    intro n
    induction n using Nat.strong_induction_on with
    | _ n ih =>
      intro cs hlength p hp
      rcases exists_first hne cs with hnone | ⟨part, rest, rfl, hfirst⟩
      · rw [cutFrom_last hnone, mem_singleton] at hp
        rw [hp]
        simpa using hnone
      · rw [cutFrom_append _ _ hfirst, cutFrom_word hne] at hp
        have hword := length_pos_iff.mpr hne
        simp only [length_append] at hlength
        rcases mem_cons.mp hp with rfl | hp
        · rintro ⟨a, b, hab⟩
          have hpart : part = a ++ word.toList ++ b := by simpa using hab.symm
          have hle := hfirst a (b ++ (word.toList ++ rest)) (by rw [hpart]; simp)
          rw [hpart] at hle
          simp only [length_append] at hle
          omega
        · exact ih _ (by omega) rest rfl p hp
  exact hparts _ s.toList rfl p h

end Text

namespace Quotation

/-- The text with a mark in place of every quotation mark. -/
def marked (text : String) : String :=
  String.ofList (text.toList.flatMap fun c => if c = '"' then mark.toList else [c])

theorem intercalate_cut_quote (text : String) :
    mark.intercalate (Text.cut "\"" text) = marked text := by
  have hchars : ∀ cs current, mark.intercalate (Text.cutFrom ['"'] current 0 cs) =
      String.ofList (current.reverse ++ cs.flatMap fun c => if c = '"' then mark.toList
        else [c]) := by
    intro cs
    induction cs with
    | nil => exact fun current => by simp [Text.cutFrom]
    | cons c cs ih =>
      intro current
      apply String.toList_injective
      by_cases hc : c = '"'
      · subst hc
        simp [Text.cutFrom, String.intercalate_cons_of_ne_nil (Text.cutFrom_ne_nil _ _ _), ih]
      · simp [Text.cutFrom, hc, Ne.symm hc, ih]
  exact (hchars text.toList []).trans (by simp [marked])

/-- **Quotation marks are replaced if their number is even**, and refused otherwise. -/
theorem hide_eq (text : String) :
    hide text = if text.toList.count '"' % 2 = 0 then .ok (marked text)
      else .error .outOfRange := by
  have hlength : (Text.cut "\"" text).length = text.toList.count '"' + 1 :=
    Text.length_cutFrom_char '"' text.toList []
  by_cases heven : text.toList.count '"' % 2 = 0
  · rw [if_pos heven, hide, pairedParts, if_pos (by omega), ← intercalate_cut_quote]
    rfl
  · rw [if_neg heven, hide, pairedParts, if_neg (by omega)]
    rfl

theorem mem_marked {text : String} {c : Char} (h : c ∈ (marked text).toList) : c ∈ mark.toList ∨
    c ∈ text.toList := by
  obtain ⟨d, hd, hc⟩ := mem_flatMap.mp (by simpa [marked] using h)
  split at hc
  · exact .inl hc
  · exact .inr (mem_singleton.mp hc ▸ hd)

/-- **No mark is left when quotation marks are brought back**, and no other character is new. -/
theorem restore_unmarked {text text' : String} (h : restore text = .ok text') :
    ¬ mark.toList <:+: text'.toList ∧ ∀ c ∈ text'.toList, c = '"' ∨ c ∈ text.toList := by
  have hmark : mark.toList ≠ [] := by decide
  obtain ⟨parts, hparts, htext⟩ := except_bind_eq_ok.mp h
  obtain rfl : Text.cut mark text = parts := by
    simp only [pairedParts] at hparts
    split at hparts <;> cases hparts
    rfl
  cases htext
  constructor
  · have hall : ∀ p ∈ Text.cut mark text, ¬ mark.toList <:+: p.toList :=
      fun p => Text.not_infix_of_mem_cut hmark
    generalize Text.cut mark text = parts at hall
    induction parts with
    | nil => simp [mark]
    | cons p parts ih =>
      obtain ⟨hp, hrest⟩ := forall_mem_cons.mp hall
      cases parts with
      | nil => rwa [String.intercalate_singleton]
      | cons p' parts =>
        rw [String.intercalate_cons_cons, String.toList_append, String.toList_append, append_assoc]
        intro hin
        rcases (Text.infix_line_iff (by decide) hmark _ _).mp hin with hin | hin
        · exact hp hin
        · exact ih hrest hin
  · intro c hc
    rcases mem_of_mem_intercalate hc with hc | ⟨p, hp, hc⟩
    · exact .inl (mem_singleton.mp hc)
    · exact .inr ((Text.infix_of_mem_cut hmark hp).subset hc)

end Quotation

open Quotation Forest

namespace Forest

variable {s : Session} {path t : String} {q : Place}

/-- A file gets the changed text, unless the change is refused. -/
theorem transform_of_read {change : String → Except Fault String}
    (hread : Run.read path s = .ok t s) (hplace : s.disk.locate s.home path = .ok q)
    (hfile : s.disk.isDirectory q = false) :
    transform path change s =
      match change t with
      | .error e => .error e s
      | .ok new => .ok () { s with disk := s.disk.put q new } := by
  cases hnew : change t with
  | error e =>
    refine (bind_of_ok hread).trans ?_
    rw [hnew]
    rfl
  | ok new =>
    rw [transform_eq hread hplace hnew, hfile]
    rfl

theorem transform_hide (hread : Run.read path s = .ok (Text.unifyLineEnds t) s)
    (hplace : s.disk.locate s.home path = .ok q) (hfile : s.disk.isDirectory q = false) :
    transform path hide s =
      if t.toList.count '"' % 2 = 0 then
        .ok () { s with disk := s.disk.put q (marked (Text.unifyLineEnds t)) }
      else .error .outOfRange s := by
  rw [transform_of_read hread hplace hfile, hide_eq, Text.count_unifyLineEnds]
  by_cases heven : t.toList.count '"' % 2 = 0
  · rw [if_pos heven, if_pos heven]
  · rw [if_neg heven, if_neg heven]

/-- The second change reads the marks of the first one, which has left no carriage return. -/
theorem transform_restore (hplace : s.disk.locate s.home path = .ok q)
    (hfile : s.disk.isDirectory q = false) :
    transform path restore { s with disk := s.disk.put q (marked (Text.unifyLineEnds t)) } =
      match restore (marked (Text.unifyLineEnds t)) with
      | .error e => .error e { s with disk := s.disk.put q (marked (Text.unifyLineEnds t)) }
      | .ok new =>
        .ok () { s with disk := (s.disk.put q (marked (Text.unifyLineEnds t))).put q new } := by
  generalize hs : { s with disk := s.disk.put q (marked (Text.unifyLineEnds t)) } = s'
  have hplace' : s'.disk.locate s'.home path = .ok q := by
    rw [← hs]
    exact Disk.locate_congr (show (s.disk.put q _).directories = s.disk.directories from rfl) hplace
  have hread : Run.read path s' = .ok (marked (Text.unifyLineEnds t)) s' := by
    refine Run.read_of_file hplace' (by rw [← hs, Disk.file?_put, if_pos rfl]) fun hr => ?_
    rcases mem_marked hr with hr | hr
    · exact absurd hr (by decide)
    · exact Text.not_mem_unifyLineEnds t hr
  rw [transform_of_read hread hplace' (by rw [← hs]; exact hfile), ← hs]

end Forest

/-- A session with one file, a domain with the text `t`. -/
def domainSession (t : String) : Session :=
  .start ⟨[(["d"], t)], []⟩ []

end Pathwise
