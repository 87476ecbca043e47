import Pathwise.Json.Basic

/-!
# Writing JSON

Values are written on one line (`Json.compact`, with a blank after each comma and colon) or with
every item on a line of its own (`Json.pretty`; empty arrays and objects stay closed).  Characters
outside ASCII are escaped as 16-bit units unless `ascii` is off.
-/

namespace Pathwise

namespace Json

def hexDigit (n : Nat) : Char :=
  if n < 10 then Char.ofNat ('0'.toNat + n) else Char.ofNat ('a'.toNat + (n - 10))

def escapeUnit (n : Nat) : List Char :=
  ['\\', 'u', hexDigit (n / 4096 % 16), hexDigit (n / 256 % 16), hexDigit (n / 16 % 16),
    hexDigit (n % 16)]

/-- The escape of a character: one unit, or a pair of units above the first plane. -/
def escapeChar (c : Char) : List Char :=
  let n := c.toNat
  if n < 0x10000 then escapeUnit n
  else escapeUnit (0xD800 + (n - 0x10000) / 0x400) ++ escapeUnit (0xDC00 + (n - 0x10000) % 0x400)

def writeChar (ascii : Bool) (c : Char) : List Char :=
  if c = '"' then ['\\', '"']
  else if c = '\\' then ['\\', '\\']
  else if c = '\n' then ['\\', 'n']
  else if c = '\r' then ['\\', 'r']
  else if c = '\t' then ['\\', 't']
  else if c = '\x0c' then ['\\', 'f']
  else if c = '\x08' then ['\\', 'b']
  else if c.toNat < 0x20 then escapeChar c
  else if ascii && 0x7f ≤ c.toNat then escapeChar c
  else [c]

def writeString (ascii : Bool) (s : String) : String :=
  "\"" ++ String.ofList (s.toList.flatMap (writeChar ascii)) ++ "\""

/-- The text of a value that has no parts. -/
def writeAtom (ascii : Bool) : Json → String
  | null => "null"
  | bool true => "true"
  | bool false => "false"
  | int n => toString n
  | real x => x.toText
  | str s => writeString ascii s
  | arr _ => "[]"
  | obj _ => "\x7b\x7d"

mutual

def compact (ascii : Bool) : Json → String
  | arr items => "[" ++ compactItems ascii items ++ "]"
  | obj fields => "\x7b" ++ compactFields ascii fields ++ "\x7d"
  | j => writeAtom ascii j

def compactItems (ascii : Bool) : List Json → String
  | [] => ""
  | [j] => compact ascii j
  | j :: js => compact ascii j ++ ", " ++ compactItems ascii js

def compactFields (ascii : Bool) : List (String × Json) → String
  | [] => ""
  | [(k, j)] => writeString ascii k ++ ": " ++ compact ascii j
  | (k, j) :: fs => writeString ascii k ++ ": " ++ compact ascii j ++ ", " ++ compactFields ascii fs

end

/-- A line break and the indentation of a line. -/
def newline (step level : Nat) : String :=
  "\n" ++ String.ofList (List.replicate (step * level) ' ')

mutual

/-- The value with every part on a line of its own, indented by `step` blanks per level. -/
def pretty (ascii : Bool) (step level : Nat) : Json → String
  | arr [] => "[]"
  | arr items =>
    "[" ++ newline step (level + 1) ++ prettyItems ascii step (level + 1) items ++
      newline step level ++ "]"
  | obj [] => "\x7b\x7d"
  | obj fields =>
    "\x7b" ++ newline step (level + 1) ++ prettyFields ascii step (level + 1) fields ++
      newline step level ++ "\x7d"
  | j => writeAtom ascii j

def prettyItems (ascii : Bool) (step level : Nat) : List Json → String
  | [] => ""
  | [j] => pretty ascii step level j
  | j :: js =>
    pretty ascii step level j ++ "," ++ newline step level ++ prettyItems ascii step level js

def prettyFields (ascii : Bool) (step level : Nat) : List (String × Json) → String
  | [] => ""
  | [(k, j)] => writeString ascii k ++ ": " ++ pretty ascii step level j
  | (k, j) :: fs =>
    writeString ascii k ++ ": " ++ pretty ascii step level j ++ "," ++ newline step level ++
      prettyFields ascii step level fs

end

end Json

end Pathwise
