import Pathwise.Node.NextHop
import Pathwise.Session
import Pathwise.Workspace

/-!
# The control code of a node

The control code is put together from the texts of the fragments placed on the node: declarations,
actions, tables, registers, and the statements inside one `apply` block.
-/

namespace Pathwise

namespace Node

/-- What is needed to put nodes together. -/
structure Plan where
  workspace : Workspace
  relation : OrderedMap String RelationEntry
  paths : Paths
  topology : Topology
  assignment : Placement.Assignment
deriving Inhabited

def fragmentText (p : Plan) (fragment kind : String) : Run String :=
  Run.read (p.workspace.componentFile (fragment ++ "_" ++ kind ++ ".pne"))

/-- The files of variables that the fragments of a node need, each once. -/
def varFiles (p : Plan) (node : String) : Except Fault (List String) := do
  let files ← (p.assignment.on node).mapM fun f => do
    pure (← Placement.fragment p.relation f).varFiles
  pure (OrderedMap.ofList (files.flatten.map fun f => (f, ()))).keys

/-- Copies the texts of one kind of all fragments of a node. -/
def copyAll (p : Plan) (node kind target : String) : Run Unit :=
  (p.assignment.on node).forM fun f => do Run.append target (← fragmentText p f kind)

/-- Fills in the next hop in a line of a fragment's text. -/
def routeLine (p : Plan) (node fragment line : String) : Run String := do
  if NextHop.occurs line then
    Report.say s!"ag 555 {Text.quoteList (NextHop.nameParts fragment)}"
    match p.topology.find? node with
    | none => throw (.missingKey node)
    | some info => pure (NextHop.fillLine (← NextHop.inText p.paths info fragment node) line)
  else pure line

/-- Copies a fragment's text with the next hop filled in, each line behind `indent`. -/
def copyRouted (p : Plan) (node fragment kind indent target : String) : Run Unit := do
  (Text.lines (← fragmentText p fragment kind)).forM fun line => do
    Run.append target (indent ++ (← routeLine p node fragment line))

/-- The line that divides the statements of fragments. -/
def divider : String := "\n    /*******************************************/\n\n"

def control (p : Plan) (node : String) : Run Unit := do
  let target := p.workspace.codeFile node "control"
  let vars ← varFiles p node
  Run.create target ""
  vars.forM fun v => do Run.append target (← Run.read (p.workspace.componentFile v))
  Run.append target "\n"
  copyAll p node "tem" target
  (p.assignment.on node).forM fun f => copyRouted p node f "action" "" target
  Run.append target "\n"
  copyAll p node "table" target
  Run.append target "\n"
  copyAll p node "reg" target
  Run.append target "\n"
  Run.append target ("apply \x7b\n" ++ divider)
  (p.assignment.on node).forM fun f => do
    copyRouted p node f "control" "    " target
    Run.append target divider
  Run.append target "\x7d\n"

end Node

end Pathwise
