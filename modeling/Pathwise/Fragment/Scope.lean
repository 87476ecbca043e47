import Pathwise.Fragment.Operand
import Pathwise.Program.Basic

/-!
# Scopes

What names mean where an instruction stands: the generated names of variables, the tables and
functions of the module, the modules that can be called, and the stem of all names generated there.
-/

namespace Pathwise

/-- The meaning of names at an instruction. -/
structure Scope where
  /-- every name generated here starts with it -/
  stem : String
  vars : OrderedMap String String
  maps : OrderedMap String Lookup
  sets : OrderedMap String Lookup
  funcs : OrderedMap String (List Ins)
  modules : OrderedMap String Module
deriving Inhabited

namespace Scope

def resolve (sc : Scope) (t : Tree) : Report Operand :=
  Operand.resolve sc.vars t

end Scope

def firstOf {α : Type} : List α → Report α
  | a :: _ => pure a
  | [] => throw .outOfRange

def tableNameOf (t : Tree) : Report String :=
  t.textAt? [0, 0]

end Pathwise
