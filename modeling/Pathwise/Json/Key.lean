import Pathwise.Json.Access

/-!
# JSON values as keys

Every value but an array or an object can stand as a key.  Numbers are the same key if they have the
same value, however they are written, and `true` and `false` count as one and zero; texts are never
the same key as numbers.
-/

namespace Pathwise

/-- A value that can stand as a key. -/
inductive Json.Key where
  | null
  | bool (b : Bool)
  | int (n : Int)
  | real (x : Binary64)
  | str (s : String)
deriving Repr, DecidableEq, Inhabited

namespace Json

namespace Key

def toJson : Key → Json
  | null => .null
  | bool b => .bool b
  | int n => .int n
  | real x => .real x
  | str s => .str s

def name : Key → String
  | null => "null"
  | bool b => if b then "true" else "false"
  | int n => toString n
  | real x => x.toText
  | str s => s

def str? : Key → Option String
  | str s => some s
  | _ => none

/-- The number of a key as a fraction, whose denominator is not zero. -/
def fraction? : Key → Option (Int × Nat)
  | bool b => some (if b then 1 else 0, 1)
  | int n => some (n, 1)
  | real (.finite negative m e) =>
    let n : Int := if negative then -(m : Int) else m
    some (if 0 ≤ e then (n * Nat.pow 2 e.toNat, 1) else (n, Nat.pow 2 (-e).toNat))
  | _ => none

def same (k l : Key) : Bool :=
  match k, l with
  | null, null => true
  | str s, str t => s == t
  | real (.infinite a), real (.infinite b) => a == b
  | k, l =>
    match k.fraction?, l.fraction? with
    | some (a, b), some (c, d) => a * d == c * b
    | _, _ => false

instance : BEq Key := ⟨same⟩

def isText (k : Key) : Bool := k.str?.isSome

def isNumber (k : Key) : Bool := k.fraction?.isSome

/-- Whether a key does not come after another one; only texts and numbers have an order among
themselves. -/
def le (k l : Key) : Bool :=
  match k, l with
  | str s, str t => s ≤ t
  | k, l =>
    match k.fraction?, l.fraction? with
    | some (a, b), some (c, d) => a * d ≤ c * b
    | _, _ => true

def sorted? (ks : List Key) : Option (List Key) :=
  if ks.length ≤ 1 || ks.all isText || ks.all isNumber then some (ks.mergeSort le) else none

end Key

def key (j : Json) : Except Mismatch Key :=
  match j with
  | null => .ok .null
  | bool b => .ok (.bool b)
  | int n => .ok (.int n)
  | real x => .ok (.real x)
  | str s => .ok (.str s)
  | arr _ => .error (.noKey "list")
  | obj _ => .error (.noKey "dict")

end Json

end Pathwise
