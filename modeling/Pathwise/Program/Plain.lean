import Pathwise.Program.Basic

/-!
# Plain right sides

An assignment's right side is an arithmetic expression.  In its plain form it is replaced by the
first operand below the layers of expressions, terms and factors.
-/

namespace Pathwise

namespace Tree

/-- Whether a rule is a layer of arithmetic expressions. -/
def isLayer (rule : String) : Bool :=
  rule == "expression" || rule == "term" || rule == "factor"

/-- The first operand below the layers of an expression. -/
def core : Tree → Tree
  | .node r (c :: cs) => if isLayer r then core c else .node r (c :: cs)
  | t => t

end Tree

namespace Ins

mutual

/-- The instruction with plain right sides, in its blocks too. -/
def plain : Ins → Ins
  | assign targets source => assign targets source.core
  | branch cs bs e d => branch cs (plainBlocks bs) (plainElse e) (plainOtherwise d)
  | i => i

def plainList : List Ins → List Ins
  | [] => []
  | i :: is => plain i :: plainList is

def plainBlocks : List (List Ins) → List (List Ins)
  | [] => []
  | b :: bs => plainList b :: plainBlocks bs

def plainElse : Option Ins → Option Ins
  | none => none
  | some i => some (plain i)

def plainOtherwise : Option (List Ins) → Option (List Ins)
  | none => none
  | some b => some (plainList b)

end

end Ins

namespace Program

def plain (p : Program) : Program :=
  { p with
    applications := p.applications.map fun a => { a with body := Ins.plainList a.body }
    modules := p.modules.map fun m =>
      { m with body := Ins.plainList m.body, funcs := m.funcs.map Ins.plainList } }

end Program

end Pathwise
