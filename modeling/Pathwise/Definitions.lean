import Pathwise.Fault
import Pathwise.Language.Definitions

/-!
# Definitions

The named types and constants of a project.  A later definition of a name replaces an earlier one,
and `bool` is one bit wide as soon as anything is defined.
-/

namespace Pathwise

/-- Named bit-string types and named constants. -/
structure Definitions where
  types : OrderedMap String String
  constants : OrderedMap String String
deriving Inhabited

namespace Definitions

def empty : Definitions := ⟨{}, {}⟩

/-- The type that a name stands for; a type that is not a name stands for itself. -/
def typeOf (types : OrderedMap String String) (type : String) : String :=
  (types.find? type).getD type

def add (d : Definitions) (t : Tree) : Except ShapeError (Option Definitions) := do
  let kind ← t.rule?
  if kind = "type_define" then
    let name ← t.textAt? [1]
    let type ← t.textAt? [0]
    pure (some ⟨(d.types.insert name type).insert "bool" "bit<1>", d.constants⟩)
  else if kind = "const_define" then
    let name ← t.textAt? [1, 0, 0]
    let value ← t.textAt? [2, 0, 0]
    pure (some ⟨d.types.insert "bool" "bit<1>", d.constants.insert name value⟩)
  else pure none

/--
Adds definitions one after another.  With the result comes the definition that could not be
understood, at which the reading ends.
-/
def addAll (d : Definitions) : List Tree → Except ShapeError (Definitions × Option Tree)
  | [] => pure (d, none)
  | t :: ts => do
    match ← d.add t with
    | some d' => d'.addAll ts
    | none => pure (d, some t)

end Definitions

end Pathwise
