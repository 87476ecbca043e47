/-!
# Tokens

The terminals of the grammars.  A token is recognised at the front of a text by `Token.munch?`,
which gives the length of the longest front part that belongs to the token.  There are no reserved
words and no word boundaries: a keyword is just its letters, and a shorter match is never tried.

Blanks may stand between two tokens and never inside one.
-/

namespace Pathwise

/-- A letter of the identifiers: the letters of the English alphabet only. -/
def isLetter (c : Char) : Bool :=
  ('a' ≤ c && c ≤ 'z') || ('A' ≤ c && c ≤ 'Z')

/-- A decimal digit of the grammars: `0` to `9` only. -/
def isDigit (c : Char) : Bool :=
  '0' ≤ c && c ≤ '9'

def isUpperLetter (c : Char) : Bool :=
  'A' ≤ c && c ≤ 'Z'

/-- The characters that separate tokens: space, tab, form feed, carriage return and line feed. -/
def isGap (c : Char) : Bool :=
  c == ' ' || c == '\t' || c == '\x0c' || c == '\r' || c == '\n'

/-- The terminals that the grammars are built from. -/
inductive Token where
  /-- a fixed text, such as a keyword or a bracket -/
  | literal (text : String)
  /-- an identifier: a letter, then letters and digits, with single underscores between them -/
  | name
  /-- an identifier that may also start with one underscore -/
  | innerName
  /-- one or more digits -/
  | int
  /-- a bit-string type `bit<8>`, written without blanks -/
  | bitType
  /-- a bit-string type or an identifier -/
  | dataType
  /-- `0x` and at least one digit or upper-case letter -/
  | hexNumber
  /-- `0x` and any number of digits or upper-case letters -/
  | looseHexNumber
  /-- an underscore and any letters and digits -/
  | systemName
  /-- four numbers with points between them -/
  | address4
  /-- eight numbers with colons between them -/
  | address6
  /-- plus or minus -/
  | sign
deriving Repr, DecidableEq, Hashable, Inhabited

namespace Token

/-- Length of the longest front part whose characters all satisfy `p`. -/
def spanLength (p : Char → Bool) (cs : List Char) : Nat :=
  (cs.takeWhile p).length

/-- Length of the fixed text `w` if the input starts with it. -/
def literal? : List Char → List Char → Option Nat
  | [], _ => some 0
  | _ :: _, [] => none
  | w :: ws, c :: cs => if w = c then (literal? ws cs).map (· + 1) else none

/-- Length of the identifier tail: letters and digits, each after at most one underscore. -/
def nameTail : List Char → Nat
  | [] => 0
  | c :: cs =>
    if isLetter c || isDigit c then nameTail cs + 1
    else if c = '_' then
      match cs with
      | [] => 0
      | d :: ds => if isLetter d || isDigit d then nameTail ds + 2 else 0
    else 0

def name? : List Char → Option Nat
  | [] => none
  | c :: cs => if isLetter c then some (nameTail cs + 1) else none

/-- Length of an identifier that may have an underscore in front. -/
def innerName? : List Char → Option Nat
  | '_' :: cs => (name? cs).map (· + 1)
  | cs => name? cs

/-- Length of a run of digits, which is not empty. -/
def int? (cs : List Char) : Option Nat :=
  match spanLength isDigit cs with
  | 0 => none
  | n => some n

/-- Length of `n + 1` numbers with the character `sep` between neighbours. -/
def ints? (sep : Char) : Nat → List Char → Option Nat
  | 0, cs => int? cs
  | n + 1, cs => do
    let k ← int? cs
    match cs.drop k with
    | c :: rest => if c = sep then (ints? sep n rest).map (· + (k + 1)) else none
    | [] => none

def bitType? (cs : List Char) : Option Nat := do
  let h ← literal? "bit<".toList cs
  let k ← int? (cs.drop h)
  match cs.drop (h + k) with
  | '>' :: _ => some (h + k + 1)
  | _ => none

/-- Length of `0x` followed by at least `least` digits or upper-case letters. -/
def hexNumber? (least : Nat) (cs : List Char) : Option Nat := do
  let h ← literal? "0x".toList cs
  let k := spanLength (fun c => isDigit c || isUpperLetter c) (cs.drop h)
  if least ≤ k then some (h + k) else none

/-- Length of an underscore with the letters and digits after it. -/
def systemName? : List Char → Option Nat
  | '_' :: cs => some (spanLength (fun c => isLetter c || isDigit c) cs + 1)
  | _ => none

def sign? : List Char → Option Nat
  | '+' :: _ => some 1
  | '-' :: _ => some 1
  | _ => none

/-- Length of the longest front part of the text that is this token. -/
def munch? : Token → List Char → Option Nat
  | literal w, cs => literal? w.toList cs
  | name, cs => name? cs
  | innerName, cs => innerName? cs
  | int, cs => int? cs
  | bitType, cs => bitType? cs
  | dataType, cs => (bitType? cs).orElse fun _ => name? cs
  | hexNumber, cs => hexNumber? 1 cs
  | looseHexNumber, cs => hexNumber? 0 cs
  | systemName, cs => systemName? cs
  | address4, cs => ints? '.' 3 cs
  | address6, cs => ints? ':' 7 cs
  | sign, cs => sign? cs

/-- Whether the token's text stays in the tree: fixed texts leave nothing behind. -/
def isKept : Token → Bool
  | literal _ => false
  | _ => true

end Token

end Pathwise
