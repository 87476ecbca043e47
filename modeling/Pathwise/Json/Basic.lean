import Pathwise.Number.Binary64
import Pathwise.OrderedMap

/-!
# JSON values

Objects keep their fields in order of first occurrence, and whole numbers of any size are kept apart
from numbers written with a fraction or an exponent.
-/

namespace Pathwise

inductive Json where
  | null
  | bool (b : Bool)
  | int (n : Int)
  | real (x : Binary64)
  | str (s : String)
  | arr (items : List Json)
  | obj (fields : List (String × Json))
deriving Repr, Inhabited

namespace Json

mutual

/-- Whether two values are the same. -/
def same : Json → Json → Bool
  | null, null => true
  | bool a, bool b => a == b
  | int m, int n => m == n
  | real x, real y => x == y
  | str s, str t => s == t
  | arr items, arr items' => sameItems items items'
  | obj fields, obj fields' => sameFields fields fields'
  | _, _ => false

def sameItems : List Json → List Json → Bool
  | [], [] => true
  | j :: js, k :: ks => same j k && sameItems js ks
  | _, _ => false

def sameFields : List (String × Json) → List (String × Json) → Bool
  | [], [] => true
  | (a, j) :: fs, (b, k) :: gs => a == b && same j k && sameFields fs gs
  | _, _ => false

end

instance : BEq Json := ⟨same⟩

def field? (j : Json) (k : String) : Option Json :=
  match j with
  | obj fs => (fs.find? (·.1 = k)).map (·.2)
  | _ => none

def str? : Json → Option String
  | str s => some s
  | _ => none

def int? : Json → Option Int
  | int n => some n
  | _ => none

def arr? : Json → Option (List Json)
  | arr xs => some xs
  | _ => none

def obj? : Json → Option (List (String × Json))
  | obj fs => some fs
  | _ => none

def strs (xs : List String) : Json := arr (xs.map str)

def pairs (es : List (String × Json)) : Json := arr (es.map fun e => arr [str e.1, e.2])

def nat (n : Nat) : Json := int n

end Json

end Pathwise
