import Pathwise.Json.Basic
import Pathwise.Text.Integer

/-!
# Reading JSON

`Json.parse` reads a whole text.  Beside the standard it accepts `NaN`, `Infinity` and `-Infinity`,
and of a field that occurs twice the last value counts.  Whole numbers have at most `Text.maxDigits`
digits, and values are nested at most `Json.maxNesting` deep.  An error names its cause and the
offset in characters at which it was noticed.
-/

namespace Pathwise

/-- What can be wrong with a JSON text. -/
inductive JsonCause where
  | expectingValue
  | expectingName
  | expectingColon
  | expectingComma
  | extraData
  | unterminatedString
  | controlCharacter
  | badEscape
  | badUnicodeEscape
  | byteOrderMark
  /-- a whole number has too many digits -/
  | tooLong (digits : Nat)
  /-- an array lies too deep inside other values -/
  | deepArray
  /-- an object lies too deep inside other values -/
  | deepObject
deriving Repr, DecidableEq, Inhabited

namespace JsonCause

def message : JsonCause → String
  | expectingValue => "Expecting value"
  | expectingName => "Expecting property name enclosed in double quotes"
  | expectingColon => "Expecting ':' delimiter"
  | expectingComma => "Expecting ',' delimiter"
  | extraData => "Extra data"
  | unterminatedString => "Unterminated string starting at"
  | controlCharacter => "Invalid control character at"
  | badEscape => "Invalid \\escape"
  | badUnicodeEscape => "Invalid \\uXXXX escape"
  | byteOrderMark => "Unexpected UTF-8 BOM (decode using utf-8-sig)"
  | tooLong digits => (Text.IntegerError.tooLong digits).message
  | deepArray =>
    "maximum recursion depth exceeded while decoding a JSON array from a unicode string"
  | deepObject =>
    "maximum recursion depth exceeded while decoding a JSON object from a unicode string"

/-- Whether the text is refused because it is too large to be read, and not for its form. -/
def isLimit : JsonCause → Bool
  | tooLong _ => true
  | deepArray => true
  | deepObject => true
  | _ => false

end JsonCause

/-- An error with the line and column, counted from one, and the offset, counted from zero. -/
structure JsonError where
  cause : JsonCause
  line : Nat
  column : Nat
  offset : Nat
deriving Repr, DecidableEq, Inhabited

namespace JsonError

def ofOffset (cause : JsonCause) (text : List Char) (offset : Nat) : JsonError :=
  let front := text.take offset
  let column := (front.reverse.takeWhile (· ≠ '\n')).length + 1
  ⟨cause, front.count '\n' + 1, column, offset⟩

/-- The wording of an error; an error of form says where it was noticed. -/
def message (e : JsonError) : String :=
  if e.cause.isLimit then e.cause.message
  else s!"{e.cause.message}: line {e.line} column {e.column} (char {e.offset})"

end JsonError

namespace Json

/-- The reader's failures: a cause and the number of characters that were left when it was
noticed. -/
abbrev Read (α : Type) := Except (JsonCause × Nat) α

def isJsonBlank (c : Char) : Bool :=
  c == ' ' || c == '\t' || c == '\n' || c == '\r'

def skipBlanks (cs : List Char) : List Char :=
  cs.dropWhile isJsonBlank

def hexValue? (c : Char) : Option Nat :=
  if '0' ≤ c && c ≤ '9' then some (c.toNat - '0'.toNat)
  else if 'a' ≤ c && c ≤ 'f' then some (c.toNat - 'a'.toNat + 10)
  else if 'A' ≤ c && c ≤ 'F' then some (c.toNat - 'A'.toNat + 10)
  else none

def hex4? : List Char → Option (Nat × List Char)
  | a :: b :: c :: d :: cs => do
    let a ← hexValue? a
    let b ← hexValue? b
    let c ← hexValue? c
    let d ← hexValue? d
    pure (((a * 16 + b) * 16 + c) * 16 + d, cs)
  | _ => none

def shortEscape? : Char → Option Char
  | '"' => some '"'
  | '\\' => some '\\'
  | '/' => some '/'
  | 'b' => some '\x08'
  | 'f' => some '\x0c'
  | 'n' => some '\n'
  | 'r' => some '\r'
  | 't' => some '\t'
  | _ => none

def isHighSurrogate (n : Nat) : Bool := 0xD800 ≤ n && n < 0xDC00

def isLowSurrogate (n : Nat) : Bool := 0xDC00 ≤ n && n < 0xE000

/-- The character of a unit with a high and a low half. -/
def joinSurrogates (high low : Nat) : Char :=
  Char.ofNat (0x10000 + (high - 0xD800) * 0x400 + (low - 0xDC00))

/-- Reads a string behind its opening quotation mark; `opened` characters were left at the mark. -/
def readString (opened : Nat) : Nat → List Char → List Char → Read (String × List Char)
  | 0, _, _ => .error (.unterminatedString, opened)
  | _ + 1, _, [] => .error (.unterminatedString, opened)
  | fuel + 1, acc, c :: cs =>
    if c = '"' then .ok (String.ofList acc.reverse, cs)
    else if c = '\\' then
      match cs with
      | [] => .error (.unterminatedString, opened)
      | 'u' :: rest =>
        -- four digits must be followed by at least one more character
        if rest.length < 5 then .error (.badUnicodeEscape, cs.length)
        else match hex4? rest with
          | none => .error (.badUnicodeEscape, cs.length)
          | some (high, more) =>
            match more with
            | '\\' :: 'u' :: tail =>
              if isHighSurrogate high && 4 < tail.length then
                match hex4? tail with
                | none => .error (.badUnicodeEscape, tail.length + 1)
                | some (low, end_) =>
                  if isLowSurrogate low then
                    readString opened fuel (joinSurrogates high low :: acc) end_
                  else readString opened fuel (Char.ofNat high :: acc) more
              else readString opened fuel (Char.ofNat high :: acc) more
            | _ => readString opened fuel (Char.ofNat high :: acc) more
      | e :: rest =>
        match shortEscape? e with
        | some d => readString opened fuel (d :: acc) rest
        | none => .error (.badEscape, cs.length + 1)
    else if c.toNat < 0x20 then .error (.controlCharacter, cs.length + 1)
    else readString opened fuel (c :: acc) cs

def isAsciiDigit (c : Char) : Bool := '0' ≤ c && c ≤ '9'

def natOfDigits (ds : List Char) : Nat :=
  ds.foldl (fun n c => n * 10 + (c.toNat - '0'.toNat)) 0

/-- The whole part of a number: a zero, or digits that do not start with one. -/
def wholePart? : List Char → Option (List Char × List Char)
  | [] => none
  | c :: cs =>
    if c = '0' then some ([c], cs)
    else if isAsciiDigit c then some (c :: cs.takeWhile isAsciiDigit, cs.dropWhile isAsciiDigit)
    else none

def fraction : List Char → List Char × List Char
  | '.' :: cs =>
    match cs.takeWhile isAsciiDigit with
    | [] => ([], '.' :: cs)
    | ds => (ds, cs.dropWhile isAsciiDigit)
  | cs => ([], cs)

def exponent? : List Char → Option (Int × List Char)
  | c :: cs =>
    if c = 'e' || c = 'E' then
      let (negative, ds) := match cs with
        | '-' :: r => (true, r)
        | '+' :: r => (false, r)
        | r => (false, r)
      match ds.takeWhile isAsciiDigit with
      | [] => none
      | es =>
        let n : Int := natOfDigits es
        some (if negative then -n else n, ds.dropWhile isAsciiDigit)
    else none
  | [] => none

/-- The number with a whole part, behind which the characters `rest` follow. -/
def readNumber (negative : Bool) (whole rest : List Char) : Read (Json × List Char) :=
  let (frac, rest) := fraction rest
  match frac, exponent? rest with
  | [], none =>
    if Text.maxDigits < whole.length then .error (.tooLong whole.length, rest.length)
    else
      let n : Int := natOfDigits whole
      .ok (.int (if negative then -n else n), rest)
  | _, e =>
    let (scale, rest) := e.getD (0, rest)
    let digits := natOfDigits (whole ++ frac)
    -- a power of ten far outside the range gives zero or infinity in any case
    let scale := max (-100000) (min 100000 (scale - frac.length))
    .ok (.real (.ofDecimal negative digits scale), rest)

/-- The rest of a text that starts with a fixed word. -/
def afterWord? : List Char → List Char → Option (List Char)
  | [], cs => some cs
  | w :: ws, c :: cs => if w = c then afterWord? ws cs else none
  | _ :: _, [] => none

/-- Reads a value that is neither a string, an array nor an object. -/
def readAtom (cs : List Char) : Read (Json × List Char) :=
  let words : List (String × Json) :=
    [("null", .null), ("true", .bool true), ("false", .bool false),
    ("NaN", .real .nan), ("Infinity", .real (.infinite false)),
    ("-Infinity", .real (.infinite true))]
  match words.findSome? fun (w, j) => (afterWord? w.toList cs).map fun rest => (j, rest) with
  | some r => .ok r
  | none =>
    let (negative, ds) := match cs with
      | '-' :: ds => (true, ds)
      | ds => (false, ds)
    match wholePart? ds with
    | some (whole, rest) => readNumber negative whole rest
    | none => .error (.expectingValue, cs.length)

/-- How deep arrays and objects may lie inside each other. -/
def maxNesting : Nat := 975

mutual

/-- Reads a value at the front of a text, in which `room` more arrays and objects may be opened
inside each other. -/
def readValue : Nat → Nat → List Char → Read (Json × List Char)
  | 0, _, cs => .error (.expectingValue, cs.length)
  | fuel + 1, room, cs =>
    match cs with
    | '"' :: rest => do
      let (s, rest) ← readString cs.length (rest.length + 1) [] rest
      pure (.str s, rest)
    | '[' :: rest =>
      match room with
      | 0 => .error (.deepArray, cs.length)
      | room + 1 =>
        match skipBlanks rest with
        | ']' :: rest => .ok (.arr [], rest)
        | rest => readItems fuel room [] rest
    | '\x7b' :: rest =>
      match room with
      | 0 => .error (.deepObject, cs.length)
      | room + 1 =>
        match skipBlanks rest with
        | '\x7d' :: rest => .ok (.obj [], rest)
        | rest => readFields fuel room .empty rest
    | cs => readAtom cs

/-- Reads the items of an array up to its closing bracket. -/
def readItems : Nat → Nat → List Json → List Char → Read (Json × List Char)
  | 0, _, _, cs => .error (.expectingValue, cs.length)
  | fuel + 1, room, acc, cs => do
    let (j, rest) ← readValue fuel room cs
    match skipBlanks rest with
    | ']' :: rest => pure (.arr (j :: acc).reverse, rest)
    | ',' :: rest => readItems fuel room (j :: acc) (skipBlanks rest)
    | rest => .error (.expectingComma, rest.length)

/-- Reads the fields of an object up to its closing brace. -/
def readFields : Nat → Nat → OrderedMap String Json → List Char → Read (Json × List Char)
  | 0, _, _, cs => .error (.expectingName, cs.length)
  | fuel + 1, room, acc, cs =>
    match cs with
    | '"' :: rest => do
      let (k, rest) ← readString cs.length (rest.length + 1) [] rest
      match skipBlanks rest with
      | ':' :: rest =>
        let (j, rest) ← readValue fuel room (skipBlanks rest)
        match skipBlanks rest with
        | '\x7d' :: rest => pure (.obj (acc.insert k j).entries, rest)
        | ',' :: rest => readFields fuel room (acc.insert k j) (skipBlanks rest)
        | rest => .error (.expectingComma, rest.length)
      | rest => .error (.expectingColon, rest.length)
    | cs => .error (.expectingName, cs.length)

end

def parse (text : String) : Except JsonError Json :=
  let cs := text.toList
  let fail (cause : JsonCause) (left : Nat) : Except JsonError Json :=
    .error (.ofOffset cause cs (cs.length - left))
  match cs with
  | '\ufeff' :: _ => fail .byteOrderMark cs.length
  | _ =>
    match readValue (cs.length + 1) maxNesting (skipBlanks cs) with
    | .error (cause, left) => fail cause left
    | .ok (j, rest) =>
      match skipBlanks rest with
      | [] => .ok j
      | rest => fail .extraData rest.length

end Json

end Pathwise
