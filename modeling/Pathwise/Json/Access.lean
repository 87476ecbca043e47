import Pathwise.Json.Basic
import Pathwise.Text.Quoted

/-!
# Looking into JSON values

Configuration files hold values of any shape.  The operations here look into such a value and say
precisely what is wrong when it does not have the expected shape: a field is missing, a position is
out of range, or the value is of a kind that has no fields, no positions or no items.
-/

namespace Pathwise

inductive Mismatch where
  | missingField (key : String)
  /-- an object has no field under a number -/
  | missingNumber (key : Int)
  | shortArray
  | shortText
  | noParts (kind : String)
  /-- an array was asked for a part by something that is not a position -/
  | arrayPosition (kind : String)
  /-- a text was asked for a part by something that is not a position -/
  | textPosition (kind : String)
  /-- the kind of value has no items to go through -/
  | noItems (kind : String)
  | noMembers (kind : String)
  /-- a text was searched for something that is not a text -/
  | textMember (kind : String)
  | noKey (kind : String)
  /-- the kind of value does not have the operation -/
  | noOperation (kind name : String)
  /-- two kinds of value have no result under an operator -/
  | operands (operator left right : String)
  /-- two kinds of value have no order -/
  | noOrder (operator left right : String)
  /-- something that is not a text was joined to a text -/
  | concatenation (kind : String)
  /-- the kind of value cannot be searched for a pattern -/
  | notSearchable (kind : String)
  | noLength (kind : String)
  | notPath (kind : String)
  | noDirectory (kind : String)
  | notHost (kind : String)
  /-- something that is not a text is among texts that are joined -/
  | notJoinable (position : Nat) (kind : String)
  /-- something that is not an array was joined to an array -/
  | arrayConcatenation (kind : String)
  /-- the kind of value is no whole number -/
  | notInteger (kind : String)
  | notText (place : String) (kind : String)
deriving Repr, DecidableEq, Inhabited

namespace Mismatch

def message : Mismatch → String
  | missingField k => Text.quote k
  | missingNumber n => toString n
  | shortArray => "list index out of range"
  | shortText => "string index out of range"
  | noParts k => s!"'{k}' object is not subscriptable"
  | arrayPosition k => s!"list indices must be integers or slices, not {k}"
  | textPosition k => s!"string indices must be integers, not '{k}'"
  | noItems k => s!"'{k}' object is not iterable"
  | noMembers k => s!"argument of type '{k}' is not iterable"
  | textMember k => s!"'in <string>' requires string as left operand, not {k}"
  | noKey k => s!"unhashable type: '{k}'"
  | noOperation k n => s!"'{k}' object has no attribute '{n}'"
  | operands o l r => s!"unsupported operand type(s) for {o}: '{l}' and '{r}'"
  | noOrder o l r => s!"'{o}' not supported between instances of '{l}' and '{r}'"
  | concatenation k => s!"can only concatenate str (not \"{k}\") to str"
  | notSearchable k => s!"expected string or bytes-like object, got '{k}'"
  | noLength k => s!"object of type '{k}' has no len()"
  | notPath k => s!"expected str, bytes or os.PathLike object, not {k}"
  | noDirectory k =>
    s!"listdir: path should be string, bytes, os.PathLike, integer or None, not {k}"
  | notHost k => s!"str, bytes or bytearray expected, not {k}"
  | notJoinable i k => s!"sequence item {i}: expected str instance, {k} found"
  | arrayConcatenation k => s!"can only concatenate list (not \"{k}\") to list"
  | notInteger k => s!"'{k}' object cannot be interpreted as an integer"
  | notText p k => s!"{p} must be str, not {k}"

end Mismatch

namespace Json

def kind : Json → String
  | null => "NoneType"
  | bool _ => "bool"
  | int _ => "int"
  | real _ => "float"
  | str _ => "str"
  | arr _ => "list"
  | obj _ => "dict"

def get (j : Json) (k : String) : Except Mismatch Json :=
  match j with
  | obj fs => match fs.lookup k with
    | some v => .ok v
    | none => .error (.missingField k)
  | arr _ => .error (.arrayPosition "str")
  | str _ => .error (.textPosition "str")
  | j => .error (.noParts j.kind)

/-- A position counted from zero, or from the end if it is negative. -/
def position? (length : Nat) (i : Int) : Option Nat :=
  let i := if i < 0 then i + length else i
  if 0 ≤ i ∧ i < length then some i.toNat else none

/-- The part of a value at a numbered position. -/
def nth (j : Json) (i : Int) : Except Mismatch Json :=
  match j with
  | obj _ => .error (.missingNumber i)
  | arr xs => match (position? xs.length i).bind (xs[·]?) with
    | some v => .ok v
    | none => .error .shortArray
  | str s => match (position? s.length i).bind (s.toList[·]?) with
    | some c => .ok (str (String.singleton c))
    | none => .error .shortText
  | j => .error (.noParts j.kind)

def part (j key : Json) : Except Mismatch Json :=
  match key with
  | str k => j.get k
  | int i => j.nth i
  | bool b => j.nth (if b then 1 else 0)
  | key => match j with
    | obj _ => match key with
      | arr _ => .error (.noKey "list")
      | obj _ => .error (.noKey "dict")
      | _ => .error (.missingField (if key == null then "None" else "nan"))
    | arr _ => .error (.arrayPosition key.kind)
    | str _ => .error (.textPosition key.kind)
    | j => .error (.noParts j.kind)

/-- The items of a value one after another: array items, field names, characters. -/
def items (j : Json) : Except Mismatch (List Json) :=
  match j with
  | arr xs => .ok xs
  | obj fs => .ok (fs.map fun f => str f.1)
  | str s => .ok (s.toList.map fun c => str (String.singleton c))
  | j => .error (.noItems j.kind)

/-- Whether `needle` occurs in `hay` as consecutive characters. -/
def occursIn (needle hay : List Char) : Bool :=
  match hay with
  | [] => needle.isEmpty
  | c :: cs => needle.isPrefixOf (c :: cs) || occursIn needle cs

/-- Whether a text is a member: an item, a field name, or a part of a text. -/
def member (j : Json) (k : String) : Except Mismatch Bool :=
  match j with
  | arr xs => .ok (xs.any fun x => x == str k)
  | obj fs => .ok (fs.any (·.1 = k))
  | str s => .ok (occursIn k.toList s.toList)
  | j => .error (.noMembers j.kind)

/-- The fields of an object, for an operation that only objects have. -/
def fields (j : Json) (operation : String) : Except Mismatch (List (String × Json)) :=
  match j with
  | obj fs => .ok fs
  | j => .error (.noOperation j.kind operation)

/-- Replaces a field of an object in its place, or adds it. -/
def set (j : Json) (k : String) (v : Json) : Json :=
  match j with
  | obj fs => obj (OrderedMap.insertEntry k v fs)
  | j => j

/-- Whether a value counts as present: not empty, not zero, not null, not false. -/
def isTruthy : Json → Bool
  | null => false
  | bool b => b
  | int n => n != 0
  | real (.finite _ m _) => m != 0
  | real _ => true
  | str s => !s.isEmpty
  | arr xs => !xs.isEmpty
  | obj fs => !fs.isEmpty

end Json

end Pathwise
