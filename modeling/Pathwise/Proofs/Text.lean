import Mathlib.Data.List.Infix
import Pathwise.Json.Access
import Pathwise.Text.Lines
import Pathwise.Text.Parts

/-!
# Lines and words of a text

* `Text.lines_line`, `Text.lines_last`: the lines of a text, one after another.
* `Text.exists_line_of_infix`: a word without line ends that occurs in a text occurs in a line of
  it.
* `Text.filled`: a text with a word replaced and an indentation in front of every line, in one pass;
  `Text.flatMap_lines` says that it is what the lines give one by one.
* `Text.filled_append`: a part of the text in which the word does not begin is indented and
  otherwise stays as it is.
-/

namespace Pathwise.Text

open List

/-! ### Lines -/

theorem linesFrom_line {line : List Char} (hline : '\n' ∉ line) (current rest : List Char) :
    linesFrom current (line ++ '\n' :: rest) = String.ofList (current.reverse ++ line ++ ['\n']) ::
      linesFrom [] rest := by
  induction line generalizing current with
  | nil => simp [linesFrom]
  | cons c line ih =>
    obtain ⟨hc, hline⟩ := not_or.mp (mt mem_cons.mpr hline)
    rw [cons_append, linesFrom, if_neg (Ne.symm hc), ih hline]
    simp

theorem linesFrom_last {line : List Char} (hline : '\n' ∉ line) {current : List Char}
    (hne : current.reverse ++ line ≠ []) :
    linesFrom current line = [String.ofList (current.reverse ++ line)] := by
  induction line generalizing current with
  | nil =>
    rw [append_nil] at hne ⊢
    rw [linesFrom, if_neg (by simpa using hne)]
  | cons c line ih =>
    obtain ⟨hc, hline⟩ := not_or.mp (mt mem_cons.mpr hline)
    rw [linesFrom, if_neg (Ne.symm hc), ih hline (by simp)]
    simp

theorem lines_line {line : List Char} (hline : '\n' ∉ line) (rest : String) :
    lines (String.ofList (line ++ ['\n']) ++ rest) = String.ofList (line ++ ['\n']) ::
      lines rest := by
  rw [lines, String.toList_append, String.toList_ofList, append_assoc, singleton_append,
    linesFrom_line hline]
  rfl

/-- **Texts by their first lines**: nothing, a last line without an end, or a line and the rest. -/
theorem exists_line (cs : List Char) :
    '\n' ∉ cs ∨ ∃ line rest, '\n' ∉ line ∧ cs = line ++ '\n' :: rest := by
  induction cs with
  | nil => exact .inl (by simp)
  | cons c cs ih =>
    by_cases hc : c = '\n'
    · exact .inr ⟨[], cs, by simp, by rw [hc, nil_append]⟩
    · rcases ih with h | ⟨line, rest, hline, rfl⟩
      · exact .inl (by simp [Ne.symm hc, h])
      · exact .inr ⟨c :: line, rest, by simp [Ne.symm hc, hline], rfl⟩

/-! ### Words -/

theorem occursIn_iff {word cs : List Char} : Json.occursIn word cs = true ↔ word <:+: cs := by
  induction cs with
  | nil => simp [Json.occursIn]
  | cons c cs ih => rw [Json.occursIn, Bool.or_eq_true, ih, isPrefixOf_iff_prefix, infix_cons_iff]

theorem prefix_line_iff {word line : List Char} {d : Char} (hword : d ∉ word) (rest : List Char) :
    word <+: line ++ d :: rest ↔ word <+: line := by
  refine ⟨fun h => ?_, fun h => h.trans (prefix_append _ _)⟩
  refine prefix_of_prefix_length_le h (prefix_append _ _) ?_
  by_contra hlong
  obtain ⟨tail, htail⟩ := h
  have hget := congrArg (fun cs => cs[line.length]?) htail
  simp only [getElem?_append_left (Nat.lt_of_not_le hlong), getElem?_append_right (Nat.le_refl _),
    Nat.sub_self, getElem?_cons_zero] at hget
  exact hword (mem_of_getElem? hget)

theorem infix_line_iff {word : List Char} {d : Char} (hword : d ∉ word) (hne : word ≠ [])
    (line rest : List Char) :
    word <:+: line ++ d :: rest ↔ word <:+: line ∨ word <:+: rest := by
  induction line with
  | nil =>
    have hfront : ¬ word <+: d :: rest := by
      intro h
      obtain ⟨c, cs, rfl⟩ := exists_cons_of_ne_nil hne
      obtain ⟨rfl, _⟩ := cons_prefix_cons.mp h
      exact hword mem_cons_self
    simp [infix_cons_iff, hfront, hne]
  | cons c line ih =>
    have hfront := @prefix_line_iff word (c :: line) d hword rest
    rw [cons_append] at hfront ⊢
    rw [infix_cons_iff, ih, hfront, infix_cons_iff, or_assoc]

theorem exists_line_of_infix {word : List Char} (hword : '\n' ∉ word) (hne : word ≠ [])
    {text : String} (h : word <:+: text.toList) : ∃ line ∈ lines text, word <:+: line.toList := by
  rw [lines]
  generalize text.toList = cs at h
  induction hlength : cs.length using Nat.strong_induction_on generalizing cs with
  | _ n ih =>
    rcases exists_line cs with hcs | ⟨line, rest, hline, rfl⟩
    · have hnil : cs ≠ [] := by
        rintro rfl
        exact hne (infix_nil.mp h)
      rw [linesFrom_last hcs (by simpa using hnil)]
      exact ⟨_, mem_singleton_self _, by simpa using h⟩
    · rw [linesFrom_line hline]
      rcases (infix_line_iff hword hne line rest).mp h with h | h
      · refine ⟨_, mem_cons_self, ?_⟩
        rw [String.toList_ofList]
        exact h.trans ⟨[], ['\n'], by simp⟩
      · obtain ⟨found, hmem, hfound⟩ := ih rest.length (by simp at hlength; omega) rest h rfl
        exact ⟨found, mem_cons_of_mem _ hmem, hfound⟩

theorem replaceFrom_of_not_infix {word : List Char} (new : List Char) {cs : List Char}
    (h : ¬ word <:+: cs) :
    replaceFrom word new 0 cs = cs := by
  induction cs with
  | nil => rfl
  | cons c cs ih =>
    obtain ⟨hfront, hrest⟩ := not_or.mp (mt infix_cons_iff.mpr h)
    rw [replaceFrom, if_neg (mt isPrefixOf_iff_prefix.mp hfront), ih hrest]

/-! ### Words replaced, and lines indented -/

variable {word : List Char} (new indent : List Char)

/--
The text with a word replaced and with `indent` in front of every line.  `fresh` tells whether a
line begins, and `skip` characters belong to a word that is replaced already.
-/
def filled (word new indent : List Char) : Bool → Nat → List Char → List Char
  | _, _, [] => []
  | _, skip + 1, _ :: cs => filled word new indent false skip cs
  | fresh, 0, c :: cs =>
    (if fresh then indent else []) ++
      if word.isPrefixOf (c :: cs) then new ++ filled word new indent false (word.length - 1) cs
      else c :: filled word new indent (c == '\n') 0 cs

/-- A text with `indent` in front of every line; `fresh` tells whether a line begins. -/
def indented (indent : List Char) : Bool → List Char → List Char
  | _, [] => []
  | fresh, c :: cs => (if fresh then indent else []) ++ c :: indented indent (c == '\n') cs

/-- Whether a line begins behind a text. -/
def freshAfter : Bool → List Char → Bool
  | fresh, [] => fresh
  | _, c :: cs => freshAfter (c == '\n') cs

theorem filled_fresh {cs : List Char} (hcs : cs ≠ []) :
    filled word new indent true 0 cs = indent ++ filled word new indent false 0 cs := by
  obtain ⟨c, cs, rfl⟩ := exists_cons_of_ne_nil hcs
  simp [filled]

theorem filled_last : ∀ {line : List Char}, '\n' ∉ line → ∀ skip,
    filled word new indent false skip line = replaceFrom word new skip line := by
  intro line
  induction line with
  | nil =>
    intro _ skip
    rw [filled, replaceFrom]
  | cons c line ih =>
    intro hline skip
    obtain ⟨hc, hline⟩ := not_or.mp (mt mem_cons.mpr hline)
    cases skip with
    | succ skip => rw [filled, replaceFrom, ih hline]
    | zero =>
      rw [filled, replaceFrom, ih hline, beq_false_of_ne (Ne.symm hc), ih hline]
      simp

theorem filled_line (hword : '\n' ∉ word) (hne : word ≠ []) (rest : List Char) :
    ∀ {line : List Char}, '\n' ∉ line → ∀ skip, skip ≤ line.length →
    filled word new indent false skip (line ++ '\n' :: rest) =
      replaceFrom word new skip (line ++ ['\n']) ++ filled word new indent true 0 rest := by
  have hfront : ∀ (line rest : List Char),
      word.isPrefixOf (line ++ '\n' :: rest) = word.isPrefixOf (line ++ ['\n']) :=
        fun line rest => by
    rw [Bool.eq_iff_iff, isPrefixOf_iff_prefix, isPrefixOf_iff_prefix, prefix_line_iff hword,
      prefix_line_iff hword]
  intro line
  induction line with
  | nil =>
    intro _ skip hskip
    obtain rfl : skip = 0 := Nat.le_zero.mp hskip
    have hnone : word.isPrefixOf ['\n'] = false := by
      rw [← Bool.not_eq_true, isPrefixOf_iff_prefix]
      exact fun h => hne (prefix_nil.mp ((@prefix_line_iff word [] _ hword []).mp h))
    have hnone' := hfront [] rest
    rw [nil_append, nil_append, hnone] at hnone'
    simp [filled, replaceFrom, hnone, hnone']
  | cons c line ih =>
    intro hline skip hskip
    obtain ⟨hc, hline⟩ := not_or.mp (mt mem_cons.mpr hline)
    cases skip with
    | succ skip =>
      rw [cons_append, cons_append, filled, replaceFrom, ih hline skip (by simpa using hskip)]
    | zero =>
      have hsame := hfront (c :: line) rest
      rw [cons_append, cons_append] at hsame
      rw [cons_append, cons_append, filled, replaceFrom, hsame]
      by_cases hfound : word.isPrefixOf (c :: (line ++ ['\n'])) = true
      · have hlength : word.length - 1 ≤ line.length := by
          have hle := ((@prefix_line_iff word (c :: line) _ hword []).mp
            (List.isPrefixOf_iff_prefix.mp hfound)).length_le
          rw [length_cons] at hle
          omega
        rw [if_pos hfound, if_pos hfound, ih hline _ hlength]
        simp
      · rw [if_neg hfound, if_neg hfound, beq_false_of_ne (Ne.symm hc), ih hline 0 (Nat.zero_le _)]
        simp

theorem flatMap_lines (hword : '\n' ∉ word) (hne : word ≠ []) (text : String) :
    ((lines text).flatMap fun line => indent ++ replaceFrom word new 0 line.toList) =
      filled word new indent true 0 text.toList := by
  rw [lines]
  generalize text.toList = cs
  induction hlength : cs.length using Nat.strong_induction_on generalizing cs with
  | _ n ih =>
    rcases exists_line cs with hcs | ⟨line, rest, hline, rfl⟩
    · by_cases hnil : cs = []
      · subst hnil
        rfl
      · rw [linesFrom_last hcs (by simpa using hnil), filled_fresh new indent hnil,
          filled_last new indent hcs]
        simp
    · have hfresh : filled word new indent true 0 (line ++ '\n' :: rest) = _ :=
        filled_fresh new indent (by simp)
      rw [linesFrom_line hline, flatMap_cons, ih rest.length (by simp at hlength; omega) rest rfl,
        hfresh, filled_line new indent hword hne rest hline 0 (Nat.zero_le _)]
      simp

theorem not_isPrefixOf_of_first {c : Char} {part rest : List Char}
    (h : ∀ a b, c :: part ++ rest = a ++ word ++ b → (c :: part).length ≤ a.length) :
    ¬ word.isPrefixOf (c :: (part ++ rest)) = true ∧ ∀ a b, part ++ rest = a ++ word ++ b →
      part.length ≤ a.length := by
  refine ⟨fun hfront => ?_, fun a b hab => ?_⟩
  · obtain ⟨b, hb⟩ := isPrefixOf_iff_prefix.mp hfront
    have hlength := h [] b hb.symm
    simp at hlength
  · have hlength := h (c :: a) b (by simp [hab])
    simpa using hlength

/-- **A part of a text in which the word does not begin stays as it is**, but for the
indentation. -/
theorem filled_append (rest : List Char) : ∀ {part : List Char} (fresh : Bool),
    (∀ a b, part ++ rest = a ++ word ++ b → part.length ≤ a.length) →
    filled word new indent fresh 0 (part ++ rest) =
      indented indent fresh part ++ filled word new indent (freshAfter fresh part) 0 rest := by
  intro part
  induction part with
  | nil => exact fun fresh _ => rfl
  | cons c part ih =>
    intro fresh hpart
    obtain ⟨hnone, htail⟩ := not_isPrefixOf_of_first hpart
    rw [cons_append, filled, if_neg hnone, ih _ htail, indented, freshAfter]
    simp

theorem filled_word (hne : word ≠ []) (fresh : Bool) (rest : List Char) :
    filled word new indent fresh 0 (word ++ rest) =
      (if fresh then indent else []) ++ new ++ filled word new indent false 0 rest := by
  have hskip : ∀ (tail : List Char), filled word new indent false tail.length (tail ++ rest) =
      filled word new indent false 0 rest := by
    intro tail
    induction tail with
    | nil => rfl
    | cons c tail ih => rw [length_cons, cons_append, filled, ih]
  obtain ⟨c, tail, rfl⟩ := exists_cons_of_ne_nil hne
  have hfound : (c :: tail).isPrefixOf (c :: (tail ++ rest)) = true :=
    isPrefixOf_iff_prefix.mpr (prefix_append (c :: tail) rest)
  rw [cons_append, filled, if_pos hfound, length_cons, Nat.add_sub_cancel, hskip, append_assoc]

end Pathwise.Text
