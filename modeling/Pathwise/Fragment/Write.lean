import Pathwise.Fragment.Scope
import Pathwise.Fragment.State

/-!
# Writing statements

How assignments, calculations and primitives are written.  The place where a statement goes is a
`Site`: a fragment, an indentation level, and whether the text is control code or the body of an
action.

Operands and assignments are also gone through without writing anything, by the checks that look for
instructions which fit into a single table.  What they are gone through for is their `Mode`.
-/

namespace Pathwise

/-- Where an instruction is written. -/
structure Site where
  fragment : String
  level : Nat
  inAction : Bool
deriving Repr, DecidableEq, Inhabited

namespace Site

/-- The text that statements go to. -/
def text (s : Site) : TextKey :=
  ⟨s.fragment, if s.inAction then .action else .control⟩

def key (s : Site) (kind : TextKind) : TextKey :=
  ⟨s.fragment, kind⟩

end Site

/-- What an operand or an assignment is gone through for. -/
inductive Mode where
  /-- to write it -/
  | write
  /-- to find out whether it can stand in an action of a table that has these keys -/
  | check (available : List String)
  /-- for neither of both -/
  | idle
deriving Repr, DecidableEq, Inhabited

namespace Mode

def writes : Mode → Bool
  | write => true
  | _ => false

/-- A step that is taken only to write. -/
def when (mode : Mode) (x : Gen Unit) : Gen Unit :=
  if mode.writes then x else pure ()

end Mode

/-- What an assignment was found to be. -/
inductive AssignKind where
  /-- operand to operand -/
  | simple
  /-- from a map; `fits` if its keys are among those available -/
  | lookup (fits : Bool)
  /-- from a map, and written -/
  | written
deriving Repr, DecidableEq, Inhabited

namespace AssignKind

def isSimple : AssignKind → Bool
  | simple => true
  | _ => false

/-- Whether the assignment can stand in an action of a table with the available keys. -/
def fitsAction : AssignKind → Bool
  | simple => true
  | lookup fits => fits
  | written => false

end AssignKind

namespace Emit

/-- Resolves an operand, and writes it if that is asked for. -/
def operand (mode : Mode) (sc : Scope) (k : TextKey) (t : Tree) : Gen Operand := do
  let o ← (sc.resolve t : Report Operand)
  mode.when (Gen.emit k [.operand o])
  pure o

/-! ### Entries -/

/-- The entry for a row of a table: its first columns match the keys, the others are parameters. -/
def rowEntry (table action : String) (keys : List String) (row : List String) : Gen Entry := do
  if row.length < keys.length then throw .outOfRange
  let matches_ := OrderedMap.ofList (keys.zip row)
  pure ⟨table, matches_, action, row.drop keys.length⟩

/-- The name of the token class of a type, by which messages show it. -/
def showType (type : String) : String :=
  let cls := if type.startsWith "bit<" then "BIT_TYPE" else "NAME"
  s!"Token('{cls}', {Text.quote type})"

def showRows (rows : List (List String)) : String :=
  "\x7b" ++ ", ".intercalate (rows.zipIdx.map fun (r, i) => s!"{i}: {Text.quoteList r}") ++ "\x7d"

/--
Writes the entries of a table.  The first row must have as many columns as there are keys and
parameters; `shown` is how the parameters appear in the message if it has not.
-/
def entries (k : TextKey) (table action : String) (keys : List String) (paramCount : Nat)
    (shown : String) (rows : List (List String)) : Gen Unit := do
  Gen.emit k []
  match rows with
  | [] => pure ()
  | first :: _ =>
    if keys.length + paramCount ≠ first.length then
      (Report.say "error-generate_if_single_table key value entry" : Gen Unit)
      Report.say (Text.quoteList keys)
      Report.say shown
      Report.halt (showRows rows)
    for row in rows do
      let e ← rowEntry table action keys row
      Gen.emit k [.entry e]

/-! ### Tables -/

def keyLines (keys : List Operand) : List Piece :=
  keys.flatMap fun o => [.keyMargin, .operand o, .keyEnd]

def actionParams (types : List String) : Gen (List Piece) :=
  types.zipIdx.mapM fun (t, i) => do pure (.actionParam i (← Gen.typeOf t))

/-! ### Assignments from maps -/

/-- The map that an indexed operand refers to. -/
def indexedName (source : Tree) : Report String :=
  source.textAt? [0, 0, 0, 0]

/-- The indexes of an indexed operand, which must name a map; a blank index is refused. -/
def indexes (source : Tree) : Report (List Tree) := do
  let ix ← source.descend? [0, 1]
  if (← ix.rule?) = "index_null" then Report.halt "error-generate-ins-assign map[_]"
  else ix.children?

/-- Whether an assignment takes its value from a map, and refuses registers on either side. -/
def isLookup (sc : Scope) (targets : List Tree) (source : Tree) : Report Bool := do
  let target ← firstOf targets
  let targetPart ← target.child? 0
  if (← targetPart.rule?) = "array" then Report.halt "generate-ins-assign error function 2"
  let sourcePart ← source.child? 0
  if (← sourcePart.rule?) = "array" then
    let name ← indexedName source
    if sc.maps.contains name then pure true
    else Report.halt "generate-ins-assign error function 3"
  else pure false

/-- Whether there are enough available keys and all indexes are among them. -/
def indexesFit (sc : Scope) (k : TextKey) (available : List String) (source : Tree) : Gen Bool := do
  let ixs ← (indexes source : Report _)
  if available.length < ixs.length then pure false
  else
    ixs.foldlM (fun fits ix => do
      let o ← operand (.check available) sc k (← ix.child? 0)
      pure (fits && available.contains o.text)) true

/-- Writes the table for an assignment from a map and applies it. -/
def lookup (sc : Scope) (site : Site) (targets : List Tree) (source : Tree) (name : String)
    (map : Lookup) :
    Gen Unit := do
  let frag := site.fragment
  Gen.recordTable frag
  let table ← Gen.drawTable (sc.stem ++ "_" ++ name)
  let ixs ← (indexes source : Report _)
  let keys ← ixs.mapM fun ix => do
    let o ← (sc.resolve (← ix.child? 0) : Report Operand)
    if o.kind == .header || o.kind == .var || o.kind == .packet then pure o
    else (Report.halt s!"error-generate-ins-assign what key {o.kind.name}" : Gen Operand)
  for o in keys do
    Gen.recordInput frag o.text
  Gen.emit (site.key .table) [.tableHead table, .keysOpen]
  for o in keys do
    Gen.emit (site.key .table) [.keyMargin, .operand o, .keyEnd, .sectionClose]
  let action ← Gen.drawAction table
  let params ← actionParams map.value
  Gen.emit (site.key .action) (.actionHead action :: params ++ [.actionBody])
  for (t, i) in targets.zipIdx do
    let o ← (sc.resolve t : Report Operand)
    Gen.recordOutput frag o.text
    Gen.emit (site.key .action) [.indent 1, .operand o, .assignSign, .param i, .endStatement]
  Gen.emit (site.key .action) [.blockClose]
  Gen.emit (site.key .table) [.actionsOpen, .actionName action, .sectionClose, .blockClose]
  let values := (List.range map.value.length).map paramName
  entries (site.key .entry) table action (keys.map (·.text)) values.length
    (Text.quoteList values) map.entries
  Gen.emit (site.key .control) [.apply table]

/-- Inside an action, an assignment from a map takes the action's parameters. -/
def fromParams (sc : Scope) (site : Site) (targets : List Tree) : Gen Unit := do
  for (t, i) in targets.zipIdx do
    if i ≠ 0 then Gen.emit site.text [.indent site.level]
    let o ← operand .write sc site.text t
    Gen.recordOutput site.fragment o.text
    Gen.emit site.text [.assignSign, .param i, .endStatement]

/-- Records a use of an operand if it is a variable or a header field. -/
def recordStored (o : Operand) (recorder : String → Gen Unit) : Gen Unit :=
  if o.isStored then recorder o.text else pure ()

/-- Writes an assignment from a map: as a table of its own, or from the parameters of the action
that it stands in. -/
def fromMap (sc : Scope) (site : Site) (targets : List Tree) (source : Tree) : Gen Unit := do
  let name ← (indexedName source : Report String)
  if site.inAction then fromParams sc site targets
  else match sc.maps.find? name with
    | some map => lookup sc site targets source name map
    | none => throw (.missingKey name)

/-! ### Statements -/

/-- Writes an assignment from operand to operand. -/
def fromOperand (sc : Scope) (site : Site) (targets : List Tree) (source : Tree) : Gen Unit := do
  let target ← (firstOf targets : Report Tree)
  let o ← operand .write sc site.text target
  recordStored o (Gen.recordOutput site.fragment)
  Gen.emit site.text [.assignSign]
  let o ← operand .write sc site.text source
  recordStored o (Gen.recordInput site.fragment)
  Gen.emit site.text [.endStatement]

/-- An assignment; tells what kind of assignment it is. -/
def assign (mode : Mode) (sc : Scope) (site : Site) (targets : List Tree) (source : Tree) :
    Gen AssignKind := do
  mode.when (Gen.emit site.text [.indent site.level])
  if ← (isLookup sc targets source : Report Bool) then
    match mode with
    | .write =>
      fromMap sc site targets source
      pure .written
    | .check available => pure (.lookup (← indexesFit sc site.text available source))
    | .idle => Report.halt "error-generate-ins-assign what generate?"
  else
    mode.when (fromOperand sc site targets source)
    pure .simple

def arith (sc : Scope) (site : Site) (targets : List Tree) (left : Tree) (op : String)
    (right : Tree) :
    Gen Unit := do
  Gen.emit site.text [.indent site.level]
  let target ← (firstOf targets : Report Tree)
  let o ← operand .write sc site.text target
  Gen.recordOutput site.fragment o.text
  Gen.emit site.text [.assignSign]
  let o ← operand .write sc site.text left
  recordStored o (Gen.recordInput site.fragment)
  Gen.emit site.text [.operator op]
  let o ← operand .write sc site.text right
  recordStored o (Gen.recordInput site.fragment)
  Gen.emit site.text [.endStatement]

def primitive (sc : Scope) (site : Site) (kind : String) (args : List Tree) : Gen Unit := do
  Gen.emit site.text [.indent site.level]
  if kind = "drop" then Gen.emit site.text [.dropPacket]
  else if kind = "headercompress" then
    Gen.emit site.text [.compressOpen]
    let arg ← (firstOf args : Report Tree)
    let _ ← operand .write sc site.text arg
    Gen.emit site.text [.compressClose]
  else if kind = "nop" then Gen.emit site.text [.endStatement]
  else Report.halt s!"error-generate_primitive what primitive {kind}"

end Emit

end Pathwise
