import Pathwise.OrderedMap
import Pathwise.Syntax.Tree

/-!
# Programs

A program is a set of services, applications and modules.  A service is a chain of applications; an
application is a list of instructions that mostly call modules; a module has parameters, tables and
a body.  Operands stay syntax trees until text is generated from them.
-/

namespace Pathwise

inductive Comparison where
  | equal
  | different
  | greater
  | greaterOrEqual
  | less
  | lessOrEqual
deriving Repr, DecidableEq, Inhabited

namespace Comparison

/-- The comparison that a rule of the program grammar stands for. -/
def ofRule? : String → Option Comparison
  | "compare_e" => some equal
  | "compare_ne" => some different
  | "compare_b" => some greater
  | "compare_be" => some greaterOrEqual
  | "compare_s" => some less
  | "compare_se" => some lessOrEqual
  | _ => none

def rule : Comparison → String
  | equal => "compare_e"
  | different => "compare_ne"
  | greater => "compare_b"
  | greaterOrEqual => "compare_be"
  | less => "compare_s"
  | lessOrEqual => "compare_se"

/-- The operator between two operands in generated text. -/
def operator : Comparison → String
  | equal => " == "
  | different => " != "
  | greater => " > "
  | greaterOrEqual => " >= "
  | less => " < "
  | lessOrEqual => " <= "

end Comparison

inductive Test where
  /-- whether a tuple of keys is in a map or set -/
  | member
  /-- whether a header is valid -/
  | valid
  | compare (c : Comparison)
  /-- a test that has no meaning, kept with its name -/
  | other (name : String)
deriving Repr, DecidableEq, Inhabited

namespace Test

def ofName (name : String) : Test :=
  if name = "check" then member
  else if name = "isvalid" then valid
  else match Comparison.ofRule? name with
    | some c => compare c
    | none => other name

def name : Test → String
  | member => "check"
  | valid => "isvalid"
  | compare c => c.rule
  | other n => n

end Test

structure Condition where
  test : Test
  left : List Tree
  right : List Tree
deriving Repr, Inhabited, BEq

/-- A call by name: of a module (`M.apply(…)`) or of a function (`f(…)`). -/
structure Call where
  isApply : Bool
  name : String
  args : List Tree
deriving Repr, Inhabited, BEq

namespace Call

def kind (c : Call) : String :=
  if c.isApply then "ins_call" else "func_call"

end Call

inductive Ins where
  | assign (targets : List Tree) (source : Tree)
  | arith (targets : List Tree) (left : Tree) (op : String) (right : Tree)
  | call (c : Call)
  | primitive (kind : String) (args : List Tree)
  | assert (conditions : List Condition)
  /-- an if with its blocks, what follows `else if`, and what follows `else` -/
  | branch (conditions : List Condition) (blocks : List (List Ins)) (elseIf : Option Ins)
      (otherwise : Option (List Ins))
  | switch (keys cases : List Tree) (calls : List Call)
  /-- an instruction without meaning, kept with its name -/
  | other (kind : String)
deriving Repr, Inhabited, BEq

namespace Ins

/-- The name of the instruction's kind, as messages give it. -/
def kind : Ins → String
  | assign .. => "ins_assign"
  | arith .. => "ins_cul"
  | call c => c.kind
  | primitive .. => "primitive"
  | assert .. => "assert"
  | branch .. => "if"
  | switch .. => "switch"
  | other k => k

/-- The conditions of an if; other instructions have none. -/
def conditions : Ins → List Condition
  | branch cs .. => cs
  | assert cs => cs
  | _ => []

/-- The blocks of an if; other instructions have none. -/
def blocks : Ins → List (List Ins)
  | branch _ bs .. => bs
  | _ => []

def elseIf : Ins → Option Ins
  | branch _ _ e _ => e
  | _ => none

def otherwise : Ins → Option (List Ins)
  | branch _ _ _ d => d
  | _ => none

/-- An if followed by all its `else if` parts. -/
def chain : Ins → List Ins
  | branch cs bs (some e) d => branch cs bs (some e) d :: chain e
  | i => [i]

end Ins

/-- A map or a set: the types of its key and value columns and its entries.  A set has no value
columns. -/
structure Lookup where
  name : String
  key : List String
  value : List String
  size : Int
  entries : List (List String)
deriving Repr, Inhabited, BEq

structure Register where
  name : String
  type : String
  size : Int
deriving Repr, Inhabited, BEq

def defaultSize : Int := 50

def defaultName : String := "666"

namespace Condition

def blank : Condition := ⟨.other "", [], []⟩

end Condition

namespace Ins

def blank : Ins := .other ""

end Ins

namespace Lookup

def blank : Lookup := ⟨defaultName, [], [], defaultSize, []⟩

end Lookup

namespace Register

def blank : Register := ⟨"", "", defaultSize⟩

end Register

structure Module where
  name : String
  directions : List String
  params : List String
  paramTypes : List String
  vars : OrderedMap String String
  tuples : OrderedMap String (List Tree)
  maps : OrderedMap String Lookup
  sets : OrderedMap String Lookup
  registers : OrderedMap String Register
  body : List Ins
  funcs : OrderedMap String (List Ins)
deriving Inhabited

namespace Module

def named (name : String) : Module :=
  ⟨name, [], [], [], {}, {}, {}, {}, {}, [], {}⟩

def blank : Module := named defaultName

end Module

structure Application where
  name : String
  vars : OrderedMap String String
  body : List Ins
deriving Inhabited

namespace Application

def blank : Application := ⟨defaultName, {}, []⟩

end Application

structure Service where
  name : String
  applications : List String
deriving Repr, Inhabited, BEq, DecidableEq

namespace Service

def blank : Service := ⟨defaultName, []⟩

end Service

/-- Everything that a set of program files defines. -/
structure Program where
  services : OrderedMap String Service
  applications : OrderedMap String Application
  modules : OrderedMap String Module
deriving Inhabited

namespace Program

def empty : Program := ⟨{}, {}, {}⟩

end Program

end Pathwise
