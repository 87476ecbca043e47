import Pathwise.Fragment.Operand
import Pathwise.Json.Writer
import Pathwise.Program.Basic

/-!
# Generated text

Generated text is kept as a list of pieces; `Piece.text` says how a piece is written.  A fragment
has six texts: control code, actions, tables, table entries, temporary variables and registers.  The
variables of an application or module are in a text of their own (`TextKind.vars`).
-/

namespace Pathwise

/-- A table entry: the match values of the keys, and the action to run with its parameters. -/
structure Entry where
  table : String
  keys : OrderedMap String String
  action : String
  params : List String
deriving Repr, Inhabited, BEq

/-- The name of an action's parameter number `i`. -/
def paramName (i : Nat) : String := s!"value_{i}"

namespace Entry

/-- An entry as a JSON object; every value is a list of one text. -/
def toJson (e : Entry) : Json :=
  .obj [("table", .str e.table),
    ("match", .obj (e.keys.entries.map fun (k, v) => (k, .arr [.str v]))),
    ("action_name", .str e.action),
    ("action_params", .obj (e.params.zipIdx.map fun (v, i) => (paramName i, .arr [.str v])))]

def line (e : Entry) : String :=
  e.toJson.compact true ++ "\n"

end Entry

inductive Piece where
  -- statements
  | indent (level : Nat)
  | operand (o : Operand)
  | assignSign
  | operator (op : String)
  | param (i : Nat)
  | endStatement
  | dropPacket
  | compressOpen
  | compressClose
  -- control flow
  | apply (table : String)
  | ifOpen
  | compareSign (c : Comparison)
  | ifClose
  | validClose
  | ifFlag (flag : String)
  | elseLine
  | blockOpen
  | blockClose
  -- actions
  | actionHead (name : String)
  | actionParam (i : Nat) (type : String)
  | actionBody
  | setFlag (flag : String) (value : Bool)
  | emptyAction
  | dropAction
  -- tables
  | tableHead (name : String)
  | keysOpen
  | keyMargin
  | keyEnd
  | actionsOpen
  | actionName (name : String)
  | defaultAction (name : String)
  | sectionClose
  -- declarations and entries
  | declare (type name : String)
  | entry (e : Entry)
deriving Repr, Inhabited, BEq

namespace Piece

/-- Four blanks for each level. -/
def margin (level : Nat) : String :=
  String.ofList (List.replicate (4 * level) ' ')

def text : Piece → String
  | indent level => margin level
  | operand o => o.text
  | assignSign => " = "
  | operator op => " " ++ op ++ " "
  | param i => paramName i
  | endStatement => ";\n"
  | dropPacket => "LynetteDrop;\n"
  | compressOpen => "LynetteHeaderCompress("
  | compressClose => ");\n"
  | apply table => table ++ ".apply();\n"
  | ifOpen => "if("
  | compareSign c => c.operator
  | ifClose => ")\n"
  | validClose => ".isValid())\n"
  | ifFlag flag => "if(" ++ flag ++ " == 1)\n"
  | elseLine => "else\n"
  | blockOpen => "\x7b\n"
  | blockClose => "\x7d\n"
  | actionHead name => "action " ++ name ++ "("
  | actionParam i type => (if i = 0 then "" else ", ") ++ type ++ " " ++ paramName i
  | actionBody => ")\n\x7b\n"
  | setFlag flag value => margin 1 ++ flag ++ " = " ++ (if value then "1" else "0") ++ ";\n"
  | emptyAction => margin 1 ++ ";\n"
  | dropAction => margin 1 ++ "mark_to_drop(im);\n"
  | tableHead name => "table " ++ name ++ "\x7b\n"
  | keysOpen => margin 1 ++ "key = \x7b\n"
  | keyMargin => margin 2
  | keyEnd => " : exact;\n"
  | actionsOpen => margin 1 ++ "actions = \x7b\n"
  | actionName name => margin 2 ++ name ++ ";\n"
  | defaultAction name => margin 1 ++ "default_action = " ++ name ++ "();\n"
  | sectionClose => margin 1 ++ "\x7d\n"
  | declare type name => type ++ " " ++ name ++ ";\n"
  | entry e => e.line

def render (ps : List Piece) : String :=
  String.join (ps.map text)

end Piece

inductive TextKind where
  | control
  | action
  | table
  | entry
  | temp
  | register
  | vars
deriving Repr, DecidableEq, Inhabited

namespace TextKind

def ending : TextKind → String
  | control => "_control.pne"
  | action => "_action.pne"
  | table => "_table.pne"
  | entry => "_entry.pne"
  | temp => "_tem.pne"
  | register => "_reg.pne"
  | vars => "_var.pne"

end TextKind

/-- A text of a fragment, or the variables of a naming scope. -/
structure TextKey where
  owner : String
  kind : TextKind
deriving Repr, DecidableEq, Inhabited

namespace TextKey

def fileName (k : TextKey) : String :=
  k.owner ++ k.kind.ending

end TextKey

end Pathwise
