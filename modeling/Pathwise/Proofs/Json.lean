import Mathlib.Data.List.TakeWhile
import Pathwise.Proofs.Numbered
import Pathwise.Proofs.OrderedMap

/-!
# JSON texts are read back

* `readString_text`: a string is read back, whatever characters it has.
* `readAtom_int`: a whole number is read back, if something else than a number goes on behind it.
* `Textual room j`: the value is built from texts and whole numbers, and arrays and objects lie at
  most `room` deep in it.
* `Layout blank text`: values are written with blanks around their parts; `compact` and `pretty` are
  two such layouts.
* `Layout.parse_text`: **a textual value is read back from every layout.**
* `Layout.parse_fields`: of fields with the same name the last one is read back.
-/

namespace Pathwise.Json

open List

variable {n : Nat} {c : Char} {rest b : List Char}

variable {x : Char} {cs a : List Char} {α : Type}

/-! ### Strings -/

theorem hexValue?_hexDigit : ∀ n < 16, hexValue? (hexDigit n) = some n := by
  decide

theorem hex4?_unit (hn : n < 0x10000) (rest : List Char) :
    hex4? (hexDigit (n / 4096 % 16) :: hexDigit (n / 256 % 16) :: hexDigit (n / 16 % 16) :: hexDigit
      (n % 16) :: rest) =
      some (n, rest) := by
  have hdigit : ∀ m, hexValue? (hexDigit (m % 16)) = some (m % 16) :=
    fun m => hexValue?_hexDigit _ (by omega)
  have hsum : ((n / 4096 % 16 * 16 + n / 256 % 16) * 16 + n / 16 % 16) * 16 + n % 16 = n := by omega
  simp [hex4?, hdigit, hsum]

variable {opened fuel : Nat} {acc rest : List Char}

theorem readString_unit (hn : n < 0x10000) (hhalf : isHighSurrogate n = false) (hrest : rest ≠ []) :
    readString opened (fuel + 1) acc (escapeUnit n ++ rest) = readString opened fuel
      (Char.ofNat n :: acc) rest := by
  have hlength : ¬ rest.length + 4 < 5 := by
    have := length_pos_of_ne_nil hrest
    omega
  simp only [escapeUnit, cons_append, nil_append]
  rw [readString]
  simp only [hex4?_unit hn, length_cons, hhalf, Bool.false_and, Char.reduceEq, if_false,
    if_true, hlength]
  split <;> rfl

theorem readString_pair {high low : Nat} (hhigh : isHighSurrogate high = true)
    (hlow : isLowSurrogate low = true) (hrest : rest ≠ []) :
    readString opened (fuel + 1) acc (escapeUnit high ++ escapeUnit low ++ rest) =
      readString opened fuel (joinSurrogates high low :: acc) rest := by
  have hhigh' : high < 0x10000 := by
    simp only [isHighSurrogate, Bool.and_eq_true, decide_eq_true_eq] at hhigh
    omega
  have hlow' : low < 0x10000 := by
    simp only [isLowSurrogate, Bool.and_eq_true, decide_eq_true_eq] at hlow
    omega
  have hlength : 4 < rest.length + 4 := by
    have := length_pos_of_ne_nil hrest
    omega
  simp only [escapeUnit, cons_append, nil_append]
  rw [readString]
  simp only [hex4?_unit hhigh', hex4?_unit hlow', hhigh, hlow, hlength, length_cons, Bool.true_and,
    Char.reduceEq, if_false, if_true]
  rw [if_neg (by omega), if_pos (by simp)]

theorem readString_escapeChar (c : Char) (hrest : rest ≠ []) :
    readString opened (fuel + 1) acc (escapeChar c ++ rest) = readString opened fuel
      (c :: acc) rest := by
  have hvalid := c.valid
  simp only [UInt32.isValidChar, Nat.isValidChar] at hvalid
  have hnat : c.val.toNat = c.toNat := rfl
  rw [hnat] at hvalid
  rw [escapeChar]
  split
  · next hplane =>
    have hhalf : isHighSurrogate c.toNat = false := by
      simp only [isHighSurrogate, Bool.and_eq_false_iff, decide_eq_false_iff_not]
      omega
    rw [readString_unit hplane hhalf hrest, Char.ofNat_toNat]
  · next hplane =>
    have hhigh : isHighSurrogate (0xD800 + (c.toNat - 0x10000) / 0x400) = true := by
      simp only [isHighSurrogate, Bool.and_eq_true, decide_eq_true_eq]
      omega
    have hlow : isLowSurrogate (0xDC00 + (c.toNat - 0x10000) % 0x400) = true := by
      simp only [isLowSurrogate, Bool.and_eq_true, decide_eq_true_eq]
      omega
    have hjoin : joinSurrogates (0xD800 + (c.toNat - 0x10000) / 0x400)
        (0xDC00 + (c.toNat - 0x10000) % 0x400) = c := by
      have hsum : 0x10000 + (0xD800 + (c.toNat - 0x10000) / 0x400 - 0xD800) * 0x400 +
          (0xDC00 + (c.toNat - 0x10000) % 0x400 - 0xDC00) = c.toNat := by omega
      rw [joinSurrogates, hsum, Char.ofNat_toNat]
    rw [readString_pair hhigh hlow hrest, hjoin]

/-- **A character is read back**, if anything comes behind it. -/
theorem readString_char (ascii : Bool) (c : Char) (hrest : rest ≠ []) :
    readString opened (fuel + 1) acc (writeChar ascii c ++ rest) = readString opened fuel
      (c :: acc) rest := by
  unfold writeChar
  split
  · next h => rw [h]; rfl
  next hquote =>
  split
  · next h => rw [h]; rfl
  next hback =>
  iterate 5
    split
    · next h => rw [h]; rfl
  split
  · exact readString_escapeChar c hrest
  next hcontrol =>
  split
  · exact readString_escapeChar c hrest
  · simp [readString, hquote, hback, hcontrol]

theorem readString_text (ascii : Bool) (rest : List Char) :
    ∀ (s : List Char) {fuel : Nat} {acc : List Char}, s.length < fuel →
    readString opened fuel acc (s.flatMap (writeChar ascii) ++ '"' :: rest) =
      .ok (String.ofList (acc.reverse ++ s), rest) := by
  intro s
  induction s with
  | nil =>
    intro fuel acc hfuel
    obtain ⟨fuel, rfl⟩ := Nat.exists_eq_add_of_lt hfuel
    simp [readString]
  | cons c s ih =>
    intro fuel acc hfuel
    obtain ⟨fuel, rfl⟩ : ∃ k, fuel = k + 1 := ⟨fuel - 1, by simp at hfuel; omega⟩
    rw [flatMap_cons, append_assoc, readString_char ascii c (by simp), ih (by simpa using hfuel)]
    simp

theorem toList_writeString (ascii : Bool) (s : String) :
    (writeString ascii s).toList = '"' :: (s.toList.flatMap (writeChar ascii) ++ ['"']) := by
  simp [writeString]

theorem length_le_flatMap_writeChar (ascii : Bool) (s : List Char) :
    s.length ≤ (s.flatMap (writeChar ascii)).length := by
  have hchar : ∀ c, 1 ≤ (writeChar ascii c).length := by
    intro c
    unfold writeChar escapeChar
    simp only
    repeat' split
    all_goals simp [escapeUnit]
  induction s with
  | nil => simp
  | cons c s ih =>
    rw [flatMap_cons, length_cons, length_append]
    have := hchar c
    omega

theorem readString_written (ascii : Bool) (s : String) (rest : List Char) (opened : Nat) :
    readString opened ((s.toList.flatMap (writeChar ascii) ++ ['"'] ++ rest).length + 1) []
      (s.toList.flatMap (writeChar ascii) ++ ['"'] ++ rest) = .ok (s, rest) := by
  have hlength := length_le_flatMap_writeChar ascii s.toList
  rw [append_assoc, singleton_append, readString_text]
  · simp
  · simp only [length_append, length_cons]
    omega

theorem visible_of_mem_writeChar {ascii : Bool} (h : x ∈ writeChar ascii c) : 0x20 ≤ x.toNat := by
  have hdigit : ∀ n < 16, 0x20 ≤ (hexDigit n).toNat := by decide
  have hunit : ∀ {n : Nat}, x ∈ escapeUnit n → 0x20 ≤ x.toNat := by
    intro n hx
    simp only [escapeUnit, mem_cons, not_mem_nil, or_false] at hx
    rcases hx with rfl | rfl | rfl | rfl | rfl | rfl
    · decide
    · decide
    all_goals exact hdigit _ (Nat.mod_lt _ (by decide))
  have hescape : x ∈ escapeChar c → 0x20 ≤ x.toNat := by
    intro hx
    unfold escapeChar at hx
    simp only at hx
    split at hx
    · exact hunit hx
    · exact (mem_append.mp hx).elim hunit hunit
  unfold writeChar at h
  iterate 7
    split at h
    · simp only [mem_cons, not_mem_nil, or_false] at h
      rcases h with rfl | rfl <;> decide
  split at h
  · exact hescape h
  next hvisible =>
  split at h
  · exact hescape h
  · rw [mem_singleton.mp h]
    exact Nat.le_of_not_lt hvisible

theorem visible_writeString (ascii : Bool) (s : String) :
    ∀ x ∈ (writeString ascii s).toList, 0x20 ≤ x.toNat := by
  intro x hx
  rw [toList_writeString, mem_cons, mem_append, mem_flatMap, mem_singleton] at hx
  rcases hx with rfl | ⟨c, _, hx⟩ | rfl
  · decide
  · exact visible_of_mem_writeChar hx
  · decide

/-! ### Whole numbers -/

/-- No number goes on here. -/
def Stops (cs : List Char) : Prop :=
  ∀ c ∈ cs.head?, isAsciiDigit c = false ∧ c ≠ '.' ∧ c ≠ 'e' ∧ c ≠ 'E'

theorem stops_cons (hc : isAsciiDigit c = false ∧ c ≠ '.' ∧ c ≠ 'e' ∧ c ≠ 'E') :
    Stops (c :: rest) := by
  intro d hd
  obtain rfl : c = d := Option.some.inj hd
  exact hc

theorem stops_of_blanks (hb : ∀ x ∈ b, isJsonBlank x = true) (hrest : Stops rest) :
    Stops (b ++ rest) := by
  cases b with
  | nil => exact hrest
  | cons x b =>
    have hx := hb x mem_cons_self
    simp only [isJsonBlank, Bool.or_eq_true, beq_iff_eq] at hx
    refine stops_cons ?_
    rcases hx with ((rfl | rfl) | rfl) | rfl <;> decide

theorem natOfDigits_toDigits (n : Nat) : natOfDigits (Nat.toDigits 10 n) = n := by
  have hdigits := Nat.ofDigitChars_ten_toDigits (n := n)
  rw [Nat.ofDigitChars_eq_foldl] at hdigits
  simpa only [natOfDigits, Nat.mul_comm] using hdigits

theorem isAsciiDigit_of_mem_toDigits (hc : c ∈ Nat.toDigits 10 n) : isAsciiDigit c = true := by
  have hdigit := Nat.isDigit_of_mem_toDigits (by decide) (by decide) hc
  simpa [isAsciiDigit, Char.isDigit, Char.le_def] using hdigit

theorem head_toDigits (hn : n ≠ 0) : ∃ c cs, Nat.toDigits 10 n = c :: cs ∧ c ≠ '0' := by
  have hdigit : ∀ n < 10, n ≠ 0 → n.digitChar ≠ '0' := by decide
  induction n using Nat.strongRecOn with
  | ind n ih =>
    rw [Nat.toDigits_eq_if (by decide)]
    split
    · next hlt => exact ⟨_, [], rfl, hdigit n hlt hn⟩
    · obtain ⟨c, cs, hcs, hc⟩ := ih (n / 10) (by omega) (by omega)
      exact ⟨c, cs ++ _, by rw [hcs]; rfl, hc⟩

theorem wholePart?_toDigits (n : Nat) (hrest : Stops rest) :
    wholePart? (Nat.toDigits 10 n ++ rest) = some (Nat.toDigits 10 n, rest) := by
  have hmany : ∀ ds : List Char, (∀ d ∈ ds, isAsciiDigit d = true) →
      (ds ++ rest).takeWhile isAsciiDigit = ds ∧ (ds ++ rest).dropWhile isAsciiDigit = rest := by
    intro ds hds
    rw [takeWhile_append_of_pos hds, dropWhile_append_of_pos hds]
    cases rest with
    | nil => simp
    | cons c rest => simp [(hrest c rfl).1]
  by_cases hn : n = 0
  · subst hn
    rfl
  · obtain ⟨c, cs, hcs, hc⟩ := head_toDigits hn
    have hdigits : ∀ d ∈ c :: cs, isAsciiDigit d = true :=
      fun d hd => isAsciiDigit_of_mem_toDigits (hcs ▸ hd)
    obtain ⟨hfirst, hmore⟩ := forall_mem_cons.mp hdigits
    obtain ⟨htake, hdrop⟩ := hmany cs hmore
    rw [hcs, cons_append, wholePart?, if_neg hc, if_pos hfirst, htake, hdrop]

theorem readNumber_toDigits (negative : Bool) (hn : (Nat.toDigits 10 n).length ≤ Text.maxDigits)
    (hrest : Stops rest) : readNumber negative (Nat.toDigits 10 n) rest =
      .ok (.int (if negative then -(n : Int) else n), rest) := by
  have hfraction : fraction rest = ([], rest) := by
    unfold fraction
    split
    · exact absurd rfl (hrest '.' rfl).2.1
    · rfl
  have hexponent : exponent? rest = none := by
    cases rest with
    | nil => rfl
    | cons c rest =>
      obtain ⟨_, _, he, hE⟩ := hrest c rfl
      simp [exponent?, he, hE]
  rw [readNumber, hfraction]
  simp only [hexponent, natOfDigits_toDigits, if_neg (Nat.not_lt.mpr hn)]

/-- Whether a whole number has few enough digits to be read. -/
def Readable (n : Int) : Prop :=
  (Nat.toDigits 10 n.natAbs).length ≤ Text.maxDigits

def valueWords : List String := ["null", "true", "false", "NaN", "Infinity", "-Infinity"]

theorem readAtom_number {ds whole : List Char} {negative : Bool}
    (hwords : ∀ w ∈ valueWords, afterWord? w.toList cs = none)
    (hsign : negative = true ∧ cs = '-' :: ds ∨ negative = false ∧ cs = ds ∧ ds.head? ≠ some '-')
    (hwhole : wholePart? ds = some (whole, rest)) :
    readAtom cs = readNumber negative whole rest := by
  simp only [valueWords, forall_mem_cons] at hwords
  obtain ⟨h1, h2, h3, h4, h5, h6, _⟩ := hwords
  unfold readAtom
  simp only [List.findSome?, h1, h2, h3, h4, h5, h6, Option.map_none]
  rcases hsign with ⟨rfl, rfl⟩ | ⟨rfl, rfl, hhead⟩
  · simp only [hwhole]
  · split
    · next whole' rest' hwhole' =>
      split at hwhole'
      · exact absurd rfl hhead
      · cases hwhole.symm.trans hwhole'
        rfl
    · next hnone =>
      split at hnone
      · exact absurd rfl hhead
      · cases hwhole.symm.trans hnone

theorem first_toDigits (m : Nat) : ∃ c cs, Nat.toDigits 10 m = c :: cs ∧ isAsciiDigit c = true := by
  obtain ⟨c, cs, hcs⟩ := exists_cons_of_ne_nil (Nat.toDigits_ne_nil (b := 10) (n := m))
  exact ⟨c, cs, hcs, isAsciiDigit_of_mem_toDigits (hcs ▸ mem_cons_self)⟩

theorem first_of_number (n : Int) : ∃ c cs, (toString n).toList = c :: cs ∧
    (isAsciiDigit c = true ∨ c = '-') := by
  cases n with
  | ofNat m =>
    obtain ⟨c, cs, hcs, hc⟩ := first_toDigits m
    exact ⟨c, cs, (toList_toString_ofNat m).trans hcs, .inl hc⟩
  | negSucc m => exact ⟨_, _, toList_toString_negSucc m, .inr rfl⟩

/-- **A whole number is read back.** -/
theorem readAtom_int {n : Int} (hn : Readable n) (hrest : Stops rest) :
    readAtom ((toString n).toList ++ rest) = .ok (.int n, rest) := by
  -- no word begins with a digit, or with a digit behind a sign
  have hletter : ∀ {c w : Char}, isAsciiDigit c = true → isAsciiDigit w = false → w ≠ c :=
    fun hc hw h => by
    rw [← h, hw] at hc
    cases hc
  have hword : ∀ {c : Char}, isAsciiDigit c = true → ∀ w ∈ valueWords,
      ∀ cs, afterWord? w.toList (c :: cs) = none ∧ afterWord? w.toList ('-' :: c :: cs) = none := by
    intro c hc w hw cs
    have hn := hletter hc (w := 'n') (by decide)
    have ht := hletter hc (w := 't') (by decide)
    have hf := hletter hc (w := 'f') (by decide)
    have hN := hletter hc (w := 'N') (by decide)
    have hI := hletter hc (w := 'I') (by decide)
    have hm := hletter hc (w := '-') (by decide)
    simp only [valueWords, mem_cons, not_mem_nil, or_false] at hw
    rcases hw with rfl | rfl | rfl | rfl | rfl | rfl <;> simp [afterWord?, *]
  cases n with
  | ofNat m =>
    obtain ⟨c, cs, hcs, hc⟩ := first_toDigits m
    have hwhole := wholePart?_toDigits m hrest
    rw [toList_toString_ofNat]
    rw [hcs, cons_append] at hwhole ⊢
    have hhead : (c :: (cs ++ rest)).head? ≠ some '-' :=
      fun h => hletter hc (by decide) (Option.some.inj h).symm
    rw [readAtom_number (fun w hw => (hword hc w hw _).1) (.inr ⟨rfl, rfl, hhead⟩) hwhole, ← hcs]
    exact readNumber_toDigits false (n := m) hn hrest
  | negSucc m =>
    obtain ⟨c, cs, hcs, hc⟩ := first_toDigits (m + 1)
    have hwhole := wholePart?_toDigits (m + 1) hrest
    rw [toList_toString_negSucc, cons_append]
    rw [hcs, cons_append] at hwhole ⊢
    rw [readAtom_number (fun w hw => (hword hc w hw _).2) (.inl ⟨rfl, rfl⟩) hwhole, ← hcs]
    exact readNumber_toDigits true (n := m + 1) hn hrest
theorem visible_number (n : Int) : ∀ x ∈ (toString n).toList, 0x20 ≤ x.toNat := by
  have hdigit : ∀ m, ∀ x ∈ Nat.toDigits 10 m, 0x20 ≤ x.toNat := by
    intro m x hx
    have hx := isAsciiDigit_of_mem_toDigits hx
    simp only [isAsciiDigit, Bool.and_eq_true, decide_eq_true_eq] at hx
    exact Nat.le_trans (by decide) hx.1
  intro x hx
  cases n with
  | ofNat m => exact hdigit m x (toList_toString_ofNat m ▸ hx)
  | negSucc m =>
    rw [toList_toString_negSucc, mem_cons] at hx
    rcases hx with rfl | hx
    · decide
    · exact hdigit _ x hx

/-! ### Values of texts -/

/--
The value is built from texts and whole numbers; arrays and objects lie at most `room` deep, and
fields have different names.
-/
inductive Textual : Nat → Json → Prop
  | str (room : Nat) (s : String) : Textual room (.str s)
  | int (room : Nat) {n : Int} (readable : Readable n) : Textual room (.int n)
  | arr {room : Nat} {items : List Json} (items_textual : ∀ j ∈ items, Textual room j) :
      Textual (room + 1) (.arr items)
  | obj {room : Nat} {fields : List (String × Json)}
      (fields_textual : ∀ f ∈ fields, Textual room f.2) (names : (fields.map (·.1)).Nodup) :
      Textual (room + 1) (.obj fields)

/-- A field: its name, a colon and its value. -/
def fieldText (ascii : Bool) (text : Json → List Char) (f : String × Json) : List Char :=
  (writeString ascii f.1).toList ++ ':' :: ' ' :: text f.2

/--
Values are written with blanks around their parts.  `text level j` is what is written for `j` when
it lies `level` deep in other values.
-/
structure Layout (blank : Char → Prop) (ascii : Bool) (text : Nat → Json → List Char) : Prop where
  blanks : ∀ c, blank c → isJsonBlank c = true
  str : ∀ level s, text level (.str s) = (writeString ascii s).toList
  int : ∀ level n, text level (.int n) = (toString n).toList
  arr : ∀ level items, ∃ a b c, (∀ x ∈ a ++ b ++ c, blank x) ∧ text level (.arr items) =
    '[' :: (a ++ (',' :: b).intercalate (items.map (text (level + 1))) ++ c ++ [']'])
  obj : ∀ level fields, ∃ a b c, (∀ x ∈ a ++ b ++ c, blank x) ∧ text level (.obj fields) =
    '\x7b' :: (a ++ (',' :: b).intercalate (fields.map (fieldText ascii (text (level + 1)))) ++
      c ++ ['\x7d'])

theorem skipBlanks_append (hb : ∀ x ∈ b, isJsonBlank x = true) (hc : isJsonBlank c = false)
    (rest : List Char) : skipBlanks (b ++ c :: rest) = c :: rest := by
  rw [skipBlanks, dropWhile_append_of_pos hb, dropWhile_cons_of_neg (by simp [hc])]

/-- The text begins with a character that opens a value. -/
def Opens (cs : List Char) : Prop :=
  ∃ c tail, cs = c :: tail ∧ isJsonBlank c = false ∧ c ≠ ']' ∧ c ≠ '\x7d' ∧ c ≠ '\ufeff'

namespace Opens

variable {cs : List Char}

theorem append (h : Opens cs) (more : List Char) : Opens (cs ++ more) := by
  obtain ⟨c, tail, rfl, hc⟩ := h
  exact ⟨c, tail ++ more, rfl, hc⟩

theorem intercalate (h : Opens cs) (separator : List Char) (css : List (List Char)) :
    Opens (separator.intercalate (cs :: css)) := by
  cases css with
  | nil => simpa [List.intercalate] using h
  | cons cs' css => simpa [List.intercalate, List.intersperse] using h.append _

theorem skipBlanks (h : Opens cs) (hb : ∀ x ∈ b, isJsonBlank x = true) :
    skipBlanks (b ++ cs) = cs := by
  obtain ⟨c, tail, rfl, hc, _⟩ := h
  exact skipBlanks_append hb hc tail

theorem writeString (ascii : Bool) (s : String) : Opens (writeString ascii s).toList :=
  ⟨_, _, toList_writeString ascii s, by decide⟩

theorem number (n : Int) : Opens (toString n).toList := by
  obtain ⟨c, cs, hcs, hc⟩ := first_of_number n
  refine ⟨c, cs, hcs, ?_⟩
  rcases hc with hc | rfl
  · have hne : ∀ d, isAsciiDigit d = false → c ≠ d := fun d hd h => by
      rw [h, hd] at hc
      cases hc
    refine ⟨?_, hne _ (by decide), hne _ (by decide), hne _ (by decide)⟩
    simp [isJsonBlank, hne ' ' (by decide), hne '\t' (by decide), hne '\n' (by decide),
      hne '\r' (by decide)]
  · decide

theorem fieldText (ascii : Bool) (text : Json → List Char) (f : String × Json) :
    Opens (fieldText ascii text f) :=
  (writeString ascii f.1).append _

end Opens

theorem intercalate_singleton (separator x : List α) : separator.intercalate [x] = x := by
  simp [List.intercalate]

theorem intercalate_cons_cons (separator x y : List α) (ys : List (List α)) :
    separator.intercalate (x :: y :: ys) = x ++ (separator ++ separator.intercalate (y :: ys)) := by
  simp [List.intercalate, List.intersperse]

section

variable {ascii : Bool} {fuel room : Nat} {cs more rest : List Char} {j : Json}

theorem readValue_items (hcs : Opens cs) (ha : ∀ x ∈ a, isJsonBlank x = true) :
    readValue (fuel + 1) (room + 1) ('[' :: (a ++ cs)) = readItems fuel room [] cs := by
  rw [readValue]
  simp only [hcs.skipBlanks ha]
  obtain ⟨c, tail, rfl, _, hclose, _⟩ := hcs
  split
  · next heq => exact absurd (List.cons.inj heq).1 hclose
  · rfl

theorem readValue_fields (hcs : Opens cs) (ha : ∀ x ∈ a, isJsonBlank x = true) :
    readValue (fuel + 1) (room + 1) ('\x7b' :: (a ++ cs)) = readFields fuel room .empty cs := by
  rw [readValue]
  simp only [hcs.skipBlanks ha]
  obtain ⟨c, tail, rfl, _, _, hclose, _⟩ := hcs
  split
  · next heq => exact absurd (List.cons.inj heq).1 hclose
  · rfl

theorem readValue_number (n : Int) (rest : List Char) :
    readValue (fuel + 1) room ((toString n).toList ++ rest) = readAtom
      ((toString n).toList ++ rest) := by
  obtain ⟨c, cs, hcs, hc⟩ := first_of_number n
  have hne : ∀ d, isAsciiDigit d = false → d ≠ '-' → c ≠ d := by
    rintro d hd hsign rfl
    rcases hc with hc | hc
    · rw [hd] at hc
      cases hc
    · exact hsign hc
  rw [hcs, cons_append, readValue]
  -- neither a text nor an array nor an object begins with this character
  all_goals exact fun _ heq => hne _ (by decide) (by decide) (List.cons.inj heq).1

theorem readItems_last {acc : List Json} (hvalue : readValue fuel room cs = .ok (j, more))
    (hmore : skipBlanks more = ']' :: rest) :
    readItems (fuel + 1) room acc cs = .ok (.arr (acc.reverse ++ [j]), rest) := by
  rw [readItems, hvalue]
  simp [bind, Except.bind, hmore, pure, Except.pure]

theorem readItems_next {acc : List Json} (hvalue : readValue fuel room cs = .ok (j, more))
    (hmore : skipBlanks more = ',' :: rest) :
    readItems (fuel + 1) room acc cs = readItems fuel room (j :: acc) (skipBlanks rest) := by
  rw [readItems, hvalue]
  simp [bind, Except.bind, hmore]

variable {acc : OrderedMap String Json} {k : String}

theorem readFields_last (hvalue : readValue fuel room (skipBlanks cs) = .ok (j, more))
    (hmore : skipBlanks more = '\x7d' :: rest) :
    readFields (fuel + 1) room acc ((writeString ascii k).toList ++ ':' :: cs) =
      .ok (.obj (acc.insert k j).entries, rest) := by
  have hcolon : skipBlanks (':' :: cs) = ':' :: cs := rfl
  rw [toList_writeString, cons_append, readFields, readString_written]
  simp [bind, Except.bind, hcolon, hvalue, hmore, pure, Except.pure]

theorem readFields_next (hvalue : readValue fuel room (skipBlanks cs) = .ok (j, more))
    (hmore : skipBlanks more = ',' :: rest) :
    readFields (fuel + 1) room acc ((writeString ascii k).toList ++ ':' :: cs) =
      readFields fuel room (acc.insert k j) (skipBlanks rest) := by
  have hcolon : skipBlanks (':' :: cs) = ':' :: cs := rfl
  rw [toList_writeString, cons_append, readFields, readString_written]
  simp [bind, Except.bind, hcolon, hvalue, hmore]

end

namespace Layout

variable {blank : Char → Prop} {ascii : Bool} {text : Nat → Json → List Char}
  {room level : Nat} {j : Json}

variable {b c tail : List Char} {fields : List (String × Json)}

theorem opens (h : Layout blank ascii text) (hj : Textual room j) (level : Nat) :
    Opens (text level j) := by
  cases hj with
  | str _ s => exact h.str level s ▸ .writeString ascii s
  | @int _ n _ => exact h.int level n ▸ .number n
  | arr _ =>
    obtain ⟨_, _, _, _, htext⟩ := h.arr level _
    exact ⟨_, _, htext, by decide⟩
  | obj _ _ =>
    obtain ⟨_, _, _, _, htext⟩ := h.obj level _
    exact ⟨_, _, htext, by decide⟩

/-- The value is read back, whatever comes behind it, if no number goes on there. -/
def ReadsBack (text : Nat → Json → List Char) (room level : Nat) (j : Json) : Prop :=
  ∀ fuel rest, Stops rest → (text level j).length ≤ fuel →
    readValue fuel room (text level j ++ rest) = .ok (j, rest)

theorem readItems_text (h : Layout blank ascii text) (hb : ∀ x ∈ b, isJsonBlank x = true)
    (hc : ∀ x ∈ c, isJsonBlank x = true) (rest : List Char) : ∀ {j : Json} {js : List Json},
    (∀ i ∈ j :: js, Textual room i) → (∀ i ∈ j :: js, ReadsBack text room level i) → ∀ (fuel : Nat)
    (acc : List Json),
    ((',' :: b).intercalate ((j :: js).map (text level))).length < fuel →
    readItems fuel room acc ((',' :: b).intercalate ((j :: js).map (text level)) ++
      (c ++ ']' :: rest)) =
      .ok (.arr (acc.reverse ++ j :: js), rest) := by
  intro j js
  induction js generalizing j with
  | nil =>
    intro _ hread fuel acc hfuel
    obtain ⟨fuel, rfl⟩ : ∃ k, fuel = k + 1 := ⟨fuel - 1, by omega⟩
    rw [map_singleton, intercalate_singleton] at hfuel ⊢
    have hfirst := hread j mem_cons_self fuel (c ++ ']' :: rest)
      (stops_of_blanks hc (stops_cons (by decide))) (by omega)
    exact readItems_last hfirst (skipBlanks_append hc (by decide) rest)
  | cons j' js ih =>
    intro htextual hread fuel acc hfuel
    obtain ⟨fuel, rfl⟩ : ∃ k, fuel = k + 1 := ⟨fuel - 1, by omega⟩
    obtain ⟨_, htextual⟩ := forall_mem_cons.mp htextual
    obtain ⟨hfirst, hread⟩ := forall_mem_cons.mp hread
    have hopens := (h.opens (htextual j' mem_cons_self) level).intercalate (',' :: b)
      (js.map (text level))
    rw [map_cons, map_cons, intercalate_cons_cons] at hfuel ⊢
    simp only [length_append, length_cons] at hfuel
    simp only [append_assoc, cons_append]
    rw [readItems_next (hfirst fuel _ (stops_cons (by decide)) (by omega)) rfl,
      (hopens.append _).skipBlanks hb]
    have hrest := ih htextual hread fuel (j :: acc) (by rw [map_cons]; omega)
    rw [map_cons] at hrest
    rw [hrest]
    simp

theorem readFields_text (h : Layout blank ascii text) (hb : ∀ x ∈ b, isJsonBlank x = true)
    (hc : ∀ x ∈ c, isJsonBlank x = true) (rest : List Char) : ∀ {f : String × Json}
    {fs : List (String × Json)},
    (∀ i ∈ f :: fs, Textual room i.2) → (∀ i ∈ f :: fs, ReadsBack text room level i.2) →
    ∀ (fuel : Nat) (acc : OrderedMap String Json),
    ((',' :: b).intercalate ((f :: fs).map (fieldText ascii (text level)))).length < fuel →
    readFields fuel room acc ((',' :: b).intercalate
      ((f :: fs).map (fieldText ascii (text level))) ++ (c ++ '\x7d' :: rest)) =
      .ok (.obj ((f :: fs).foldl (fun m e => m.insert e.1 e.2) acc).entries, rest) := by
  have hvalue : ∀ (fuel : Nat) {j : Json}, Textual room j → ReadsBack text room level j →
      (text level j).length ≤ fuel →
      ∀ more, Stops more → readValue fuel room (skipBlanks (' ' :: (text level j ++ more))) =
        .ok (j, more) := by
    intro fuel j hj hread hfuel more hmore
    have hskip := ((h.opens hj level).append more).skipBlanks (b := [' '])
      (forall_mem_singleton.mpr rfl)
    rw [singleton_append] at hskip
    rw [hskip, hread fuel more hmore hfuel]
  intro f fs
  induction fs generalizing f with
  | nil =>
    intro htextual hread fuel acc hfuel
    obtain ⟨fuel, rfl⟩ : ∃ k, fuel = k + 1 := ⟨fuel - 1, by omega⟩
    rw [map_singleton, intercalate_singleton, fieldText] at hfuel ⊢
    simp only [length_append, length_cons] at hfuel
    simp only [append_assoc, cons_append]
    have hfirst := hvalue fuel (htextual f mem_cons_self) (hread f mem_cons_self) (by omega)
      (c ++ '\x7d' :: rest)
      (stops_of_blanks hc (stops_cons (by decide)))
    rw [readFields_last hfirst (skipBlanks_append hc (by decide) rest)]
    rfl
  | cons f' fs ih =>
    intro htextual hread fuel acc hfuel
    obtain ⟨fuel, rfl⟩ : ∃ k, fuel = k + 1 := ⟨fuel - 1, by omega⟩
    have hfirst := hvalue fuel (htextual f mem_cons_self) (hread f mem_cons_self)
    obtain ⟨_, htextual⟩ := forall_mem_cons.mp htextual
    obtain ⟨_, hread⟩ := forall_mem_cons.mp hread
    have hopens := (Opens.fieldText ascii (text level) f').intercalate (',' :: b)
      (fs.map (fieldText ascii (text level)))
    rw [map_cons, map_cons, intercalate_cons_cons] at hfuel ⊢
    rw [fieldText] at hfuel ⊢
    simp only [length_append, length_cons] at hfuel
    simp only [append_assoc, cons_append]
    rw [readFields_next (hfirst (by omega) _ (stops_cons (by decide))) rfl,
      (hopens.append _).skipBlanks hb]
    have hrest := ih htextual hread fuel (acc.insert f.1 f.2) (by rw [map_cons]; omega)
    rw [map_cons] at hrest
    rw [hrest]
    rfl

theorem blanks_of_gaps (h : Layout blank ascii text) (habc : ∀ x ∈ a ++ b ++ c, blank x) :
    (∀ x ∈ a, isJsonBlank x = true) ∧ (∀ x ∈ b, isJsonBlank x = true) ∧
      ∀ x ∈ c, isJsonBlank x = true :=
  ⟨fun x hx => h.blanks x (habc x (by simp [hx])), fun x hx => h.blanks x (habc x (by simp [hx])),
    fun x hx => h.blanks x (habc x (by simp [hx]))⟩

theorem readValue_obj (h : Layout blank ascii text)
    (hfields : ∀ f ∈ fields, Textual room f.2)
    (hread : ∀ f ∈ fields, ReadsBack text room (level + 1) f.2) (fuel : Nat) (rest : List Char)
    (hfuel : (text level (.obj fields)).length ≤ fuel) :
    readValue fuel (room + 1) (text level (.obj fields) ++ rest) =
      .ok (.obj (OrderedMap.ofList fields).entries, rest) := by
  obtain ⟨a, b, c, habc, htext⟩ := h.obj level fields
  obtain ⟨ha, hb, hc⟩ := h.blanks_of_gaps habc
  rw [htext] at hfuel ⊢
  simp only [length_cons, length_append, length_nil] at hfuel
  obtain ⟨fuel, rfl⟩ : ∃ k, fuel = k + 1 := ⟨fuel - 1, by omega⟩
  simp only [cons_append, append_assoc, nil_append]
  cases fields with
  | nil =>
    have hclose : skipBlanks (a ++ (c ++ '\x7d' :: rest)) = '\x7d' :: rest := by
      rw [skipBlanks, dropWhile_append_of_pos ha]
      exact skipBlanks_append hc (by decide) rest
    simp [readValue, List.intercalate, hclose, OrderedMap.ofList, OrderedMap.empty]
  | cons f fs =>
    have hopens := (Opens.fieldText ascii (text (level + 1)) f).intercalate (',' :: b)
      (fs.map (fieldText ascii (text (level + 1))))
    rw [map_cons, readValue_fields (hopens.append _) ha]
    exact h.readFields_text hb hc rest hfields hread _ _ (by omega)

theorem readsBack (h : Layout blank ascii text) (hj : Textual room j) :
    ∀ level, ReadsBack text room level j := by
  induction hj with
  | str room s =>
    intro level fuel rest _ hfuel
    rw [h.str, toList_writeString, length_cons] at hfuel
    obtain ⟨fuel, rfl⟩ : ∃ k, fuel = k + 1 := ⟨fuel - 1, by omega⟩
    rw [h.str, toList_writeString, cons_append, readValue, readString_written]
    rfl
  | @int room n hn =>
    intro level fuel rest hrest hfuel
    obtain ⟨_, _, hcs, _⟩ := first_of_number n
    rw [h.int] at hfuel ⊢
    obtain ⟨fuel, rfl⟩ : ∃ k, fuel = k + 1 := ⟨fuel - 1, by rw [hcs, length_cons] at hfuel; omega⟩
    rw [readValue_number, readAtom_int hn hrest]
  | @arr room items hitems ih =>
    intro level fuel rest _ hfuel
    obtain ⟨a, b, c, habc, htext⟩ := h.arr level items
    obtain ⟨ha, hb, hc⟩ := h.blanks_of_gaps habc
    rw [htext] at hfuel ⊢
    simp only [length_cons, length_append, length_nil] at hfuel
    obtain ⟨fuel, rfl⟩ : ∃ k, fuel = k + 1 := ⟨fuel - 1, by omega⟩
    simp only [cons_append, append_assoc, nil_append]
    cases items with
    | nil =>
      have hclose : skipBlanks (a ++ (c ++ ']' :: rest)) = ']' :: rest := by
        rw [skipBlanks, dropWhile_append_of_pos ha]
        exact skipBlanks_append hc (by decide) rest
      simp [readValue, List.intercalate, hclose]
    | cons j js =>
      have hopens := (h.opens (hitems j mem_cons_self) (level + 1)).intercalate (',' :: b)
        (js.map (text (level + 1)))
      rw [map_cons, readValue_items (hopens.append _) ha]
      exact h.readItems_text hb hc rest hitems (fun j hj => ih j hj (level + 1)) _ [] (by omega)
  | @obj room fields hfields hnames ih =>
    intro level fuel rest _ hfuel
    rw [h.readValue_obj hfields (fun f hf => ih f hf (level + 1)) fuel rest hfuel,
      OrderedMap.entries_ofList_of_nodup hnames]

theorem parse_of_readValue (hopens : Opens cs) (htail : ∀ x ∈ tail, isJsonBlank x = true)
    (hread : readValue (cs.length + 1) maxNesting cs = .ok (j, tail)) :
    parse (String.ofList cs) = .ok j := by
  have hskip := hopens.skipBlanks (b := []) (by simp)
  rw [nil_append] at hskip
  have hend : skipBlanks tail = [] := dropWhile_eq_nil_iff.mpr htail
  unfold parse
  simp only [String.toList_ofList]
  split
  · next c cs =>
    obtain ⟨c', cs', hcs', _, _, _, hmark⟩ := hopens
    exact absurd (List.cons.inj hcs').1.symm hmark
  · simp only [hskip, hread, hend]

theorem stops_blanks (htail : ∀ x ∈ tail, isJsonBlank x = true) : Stops tail := by
  have hnil : Stops [] := fun _ h => by cases h
  simpa using stops_of_blanks htail hnil

theorem parse_text (h : Layout blank ascii text) (hj : Textual maxNesting j) (tail : List Char)
    (htail : ∀ x ∈ tail, isJsonBlank x = true) : parse (String.ofList (text 0 j ++ tail)) = .ok j :=
  parse_of_readValue ((h.opens hj 0).append tail) htail
    (h.readsBack hj 0 ((text 0 j ++ tail).length + 1) tail (stops_blanks htail)
      (by rw [length_append]; omega))

/-- **Fields are parsed**, and of fields with the same name the last one counts. -/
theorem parse_fields (h : Layout blank ascii text) {room : Nat} (hroom : room + 1 = maxNesting)
    (hfields : ∀ f ∈ fields, Textual room f.2) :
    parse (String.ofList (text 0 (.obj fields))) =
      .ok (.obj (OrderedMap.ofList fields).entries) := by
  obtain ⟨_, _, _, _, htext⟩ := h.obj 0 fields
  have hparts : ∀ f ∈ fields, ReadsBack text room (0 + 1) f.2 :=
    fun f hf => h.readsBack (hfields f hf) 1
  have hread := h.readValue_obj hfields hparts ((text 0 (.obj fields)).length + 1) [] (by omega)
  rw [append_nil, hroom] at hread
  exact parse_of_readValue ⟨_, _, htext, by decide⟩ (fun _ h => by cases h) hread

theorem visible_intercalate {css : List (List Char)} (hb : ∀ x ∈ b, blank x)
    (hcss : ∀ cs ∈ css, ∀ x ∈ cs, blank x ∨ 0x20 ≤ x.toNat) :
    ∀ x ∈ (',' :: b).intercalate css, blank x ∨ 0x20 ≤ x.toNat := by
  intro x hx
  induction css with
  | nil => simp [List.intercalate] at hx
  | cons cs css ih =>
    obtain ⟨hfirst, hrest⟩ := forall_mem_cons.mp hcss
    cases css with
    | nil =>
      rw [intercalate_singleton] at hx
      exact hfirst x hx
    | cons cs' css =>
      rw [intercalate_cons_cons, mem_append, mem_append, mem_cons] at hx
      rcases hx with hx | (rfl | hx) | hx
      · exact hfirst x hx
      · exact .inr (by decide)
      · exact .inl (hb x hx)
      · exact ih hrest hx

theorem visible_obj (h : Layout blank ascii text)
    (hfields : ∀ f ∈ fields, ∀ x ∈ text (level + 1) f.2, blank x ∨ 0x20 ≤ x.toNat) :
    ∀ x ∈ text level (.obj fields), blank x ∨ 0x20 ≤ x.toNat := by
  intro x hx
  obtain ⟨a, b, c, habc, htext⟩ := h.obj level fields
  simp only [mem_append, or_imp, forall_and] at habc
  simp only [htext, mem_cons, mem_append, not_mem_nil, or_false] at hx
  rcases hx with rfl | ((hx | hx) | hx) | rfl
  · exact .inr (by decide)
  · exact .inl (habc.1.1 x hx)
  · refine visible_intercalate habc.1.2 (fun cs hcs => ?_) x hx
    obtain ⟨f, hf, rfl⟩ := mem_map.mp hcs
    intro x hx
    rw [fieldText, mem_append, mem_cons, mem_cons] at hx
    rcases hx with hx | rfl | rfl | hx
    · exact .inr (visible_writeString ascii f.1 x hx)
    · exact .inr (by decide)
    · exact .inr (by decide)
    · exact hfields f hf x hx
  · exact .inl (habc.2 x hx)
  · exact .inr (by decide)

theorem visible (h : Layout blank ascii text) (hj : Textual room j) :
    ∀ level, ∀ x ∈ text level j, blank x ∨ 0x20 ≤ x.toNat := by
  induction hj with
  | str room s =>
    intro level x hx
    rw [h.str] at hx
    exact .inr (visible_writeString ascii s x hx)
  | @int room n _ =>
    intro level x hx
    rw [h.int] at hx
    exact .inr (visible_number n x hx)
  | @arr room items _ ih =>
    intro level x hx
    obtain ⟨a, b, c, habc, htext⟩ := h.arr level items
    simp only [mem_append, or_imp, forall_and] at habc
    simp only [htext, mem_cons, mem_append, not_mem_nil, or_false] at hx
    rcases hx with rfl | ((hx | hx) | hx) | rfl
    · exact .inr (by decide)
    · exact .inl (habc.1.1 x hx)
    · refine visible_intercalate habc.1.2 (fun cs hcs => ?_) x hx
      obtain ⟨j, hj, rfl⟩ := mem_map.mp hcs
      exact ih j hj (level + 1)
    · exact .inl (habc.2 x hx)
    · exact .inr (by decide)
  | obj _ _ ih => exact fun level => h.visible_obj fun f hf => ih f hf (level + 1)

end Layout

/-! ### The two layouts -/

theorem toList_eq_intercalate {join : List α → String} {separator : List Char} {one : α → List Char}
    (hnil : (join []).toList = []) (hone : ∀ x, (join [x]).toList = one x)
    (hcons : ∀ x y ys, (join (x :: y :: ys)).toList = one x ++
      (separator ++ (join (y :: ys)).toList)) (xs : List α) :
    (join xs).toList = separator.intercalate (xs.map one) := by
  induction xs with
  | nil => exact hnil
  | cons x xs ih =>
    cases xs with
    | nil => rw [hone, map_singleton, intercalate_singleton]
    | cons y ys => rw [hcons, ih, map_cons, map_cons, map_cons, intercalate_cons_cons]

theorem compact_layout (ascii : Bool) :
    Layout (· = ' ') ascii fun _ j => (compact ascii j).toList where
  blanks := by
    rintro _ rfl
    decide
  str _ s := by simp [compact, writeAtom]
  int _ n := by simp [compact, writeAtom]
  arr _ items := by
    refine ⟨[], [' '], [], by simp, ?_⟩
    have hitems : (compactItems ascii items).toList = [',', ' '].intercalate
        (items.map fun j => (compact ascii j).toList) :=
      toList_eq_intercalate (by simp [compactItems]) (by simp [compactItems])
        (by simp [compactItems]) items
    rw [compact, String.toList_append, String.toList_append, hitems]
    simp
  obj _ fields := by
    refine ⟨[], [' '], [], by simp, ?_⟩
    have hfields : (compactFields ascii fields).toList =
        [',', ' '].intercalate (fields.map (fieldText ascii fun j => (compact ascii j).toList)) :=
      toList_eq_intercalate (by simp [compactFields]) (by simp [compactFields, fieldText])
        (by simp [compactFields, fieldText]) fields
    rw [compact, String.toList_append, String.toList_append, hfields]
    simp

theorem mem_newline {step level : Nat} (hx : x ∈ (newline step level).toList) :
    x = ' ' ∨ x = '\n' := by
  rw [newline, String.toList_append, mem_append] at hx
  rcases hx with hx | hx
  · exact .inr (by simpa using hx)
  · rw [String.toList_ofList] at hx
    exact .inl (eq_of_mem_replicate hx)

theorem pretty_layout (ascii : Bool) (step : Nat) :
    Layout (fun c => c = ' ' ∨ c = '\n') ascii fun level j =>
      (pretty ascii step level j).toList where
  blanks := by
    rintro _ (rfl | rfl) <;> decide
  str _ s := by simp [pretty, writeAtom]
  int _ n := by simp [pretty, writeAtom]
  arr level items := by
    cases items with
    | nil => exact ⟨[], [], [], by simp, by simp [pretty, List.intercalate]⟩
    | cons j js =>
      refine ⟨(newline step (level + 1)).toList, (newline step (level + 1)).toList,
        (newline step level).toList, fun x hx => ?_, ?_⟩
      · simp only [mem_append] at hx
        rcases hx with (hx | hx) | hx <;> exact mem_newline hx
      · have hitems : (prettyItems ascii step (level + 1) (j :: js)).toList =
            (',' :: (newline step (level + 1)).toList).intercalate
            ((j :: js).map fun j => (pretty ascii step (level + 1) j).toList) :=
          toList_eq_intercalate (by simp [prettyItems]) (by simp [prettyItems])
            (by simp [prettyItems]) _
        rw [← hitems]
        simp [pretty]
  obj level fields := by
    cases fields with
    | nil => exact ⟨[], [], [], by simp, by simp [pretty, List.intercalate]⟩
    | cons f fs =>
      refine ⟨(newline step (level + 1)).toList, (newline step (level + 1)).toList,
        (newline step level).toList, fun x hx => ?_, ?_⟩
      · simp only [mem_append] at hx
        rcases hx with (hx | hx) | hx <;> exact mem_newline hx
      · have hfields : (prettyFields ascii step (level + 1) (f :: fs)).toList =
            (',' :: (newline step (level + 1)).toList).intercalate
            ((f :: fs).map (fieldText ascii fun j => (pretty ascii step (level + 1) j).toList)) :=
          toList_eq_intercalate (by simp [prettyFields]) (by simp [prettyFields, fieldText])
            (by simp [prettyFields, fieldText]) _
        rw [← hfields]
        simp [pretty]

end Pathwise.Json
