import Pathwise.Text.Quoted

/-!
# Whole numbers

A whole number may have blanks around it, a sign, digits of any script, and single underscores
between digits.  Numbers with more digits than `maxDigits` are neither read nor written.
-/

namespace Pathwise.Text

inductive IntegerError where
  /-- the text is no whole number -/
  | malformed (text : String)
  | tooLong (digits : Nat)
  /-- the number has too many digits -/
  | tooGreat
deriving Repr, DecidableEq, Inhabited

def maxDigits : Nat := 4300

def maxShown : Nat := 200

namespace IntegerError

def message : IntegerError → String
  | malformed text =>
    "invalid literal for int() with base 10: " ++ String.ofList ((quote text).toList.take maxShown)
  | tooLong digits =>
    s!"Exceeds the limit ({maxDigits} digits) for integer string conversion: " ++
      s!"value has {digits} digits; " ++
      "use sys.set_int_max_str_digits() to increase the limit"
  | tooGreat =>
    s!"Exceeds the limit ({maxDigits} digits) for integer string conversion; " ++
      "use sys.set_int_max_str_digits() to increase the limit"

end IntegerError

/-- The blanks that may stand around a number: of the separators in the ASCII range only those that
move the cursor. -/
def isNumberBlank (c : Char) : Bool :=
  isBlank c && !(0x1C ≤ c.toNat && c.toNat ≤ 0x1F)

/-- Whether underscores stand only between digits, one at a time; `mayDivide` says that a digit
stands before. -/
def isDivided (mayDivide : Bool) : List Char → Bool
  | [] => mayDivide
  | '_' :: cs => mayDivide && isDivided false cs
  | _ :: cs => isDivided true cs

def valueOf (digits : List Nat) : Nat :=
  digits.foldl (fun n d => n * 10 + d) 0

/-- The number at the front of a text, behind which only blanks may stand.  It is refused by
`bad`. -/
def unsigned (bad : IntegerError) (cs : List Char) : Except IntegerError Nat :=
  let run := cs.takeWhile fun c => isDecimal c || c = '_'
  let digits := run.filterMap digitValue?
  if !isDivided false run then .error bad
  else if maxDigits < digits.length then .error (.tooLong digits.length)
  else if (cs.drop run.length).all isNumberBlank then .ok (valueOf digits)
  else .error bad

def integer (s : String) : Except IntegerError Int :=
  let bad := IntegerError.malformed s
  match s.toList.dropWhile isNumberBlank with
  | '-' :: cs => (fun n : Nat => -(n : Int)) <$> unsigned bad cs
  | '+' :: cs => (fun n : Nat => (n : Int)) <$> unsigned bad cs
  | cs => (fun n : Nat => (n : Int)) <$> unsigned bad cs

def decimal (n : Int) : Except IntegerError String :=
  if maxDigits < (toString n.natAbs).length then .error .tooGreat else .ok (toString n)

end Pathwise.Text
