import Pathwise.Node.Entries
import Pathwise.Node.Headers
import Pathwise.PacketParser.Collect
import Pathwise.PacketParser.Render

/-!
# Putting nodes together

From the fragments of all services, the paths and the header and parser definitions of the project
to the code files of every node.
-/

namespace Pathwise

namespace Node

/-- The header that an operand belongs to, if it belongs to one. -/
def headerOf (operand : String) : Except Fault (Option String) :=
  match Text.parts '.' operand with
  | ["hdr"] => .error .outOfRange
  | "hdr" :: header :: _ => .ok (some header)
  | _ => .ok none

def usedHeaders (p : Plan) (node : String) : Except Fault (List String) := do
  let rs ← (p.assignment.on node).mapM (Placement.fragment p.relation)
  let operands := rs.flatMap (·.inputs) ++ rs.flatMap (·.outputs)
  pure ((← operands.mapM headerOf).filterMap id)

def parseInclude (w : Workspace) (g : Grammar) (name : String) : Run Tree := do
  match g.parse (← Run.read (w.projectFile ("include//" ++ name))) with
  | .ok t => pure t
  | .error e => throw (.refusedText e)

/-- Reads the paths and the topology, writing both down beside the intermediate results. -/
def readPaths (w : Workspace) : Run (Paths × Topology) := do
  let file ← Run.readJson (w.projectFile "path//path.json")
  Run.create w.pathFile ""
  let lists ← Paths.ofJson file
  Run.create w.pathFile ((Json.obj (lists.entries.map fun (s, ns) => (s, .arr ns))).compact true)
  Run.create w.topologyFile ""
  let survey ← Survey.ofJson file
  Run.create w.topologyFile (survey.toJson.compact true)
  pure (Paths.ofLists lists, survey.topology)

/-- Writes the parser states, the headers and the deparser of every node. -/
def parsers (p : Plan) (types : OrderedMap String String) : Run String := do
  let nodes := p.topology.keys
  let used ← nodes.mapM fun n => do pure (n, ← (usedHeaders p n : Except Fault _))
  let layout ← Layout.collect types (← parseInclude p.workspace Language.headers "header.pne")
  let tree ← parseInclude p.workspace Language.states "parser.pne"
  let sig ← PacketParser.signature tree
  let deparser ← PacketParser.deparser sig layout tree
  let constants := (← get).constants
  let table ← PacketParser.table constants sig layout tree
  let extracted ← used.mapM fun (node, hs) => do
    let pruned ← PacketParser.prune hs table
    Run.draft (p.workspace.codeFile node "parser") (PacketParser.tableText constants sig pruned)
    pure (node, PacketParser.extractedHeaders pruned)
  extracted.forM fun (node, hs) => do
    Run.create (p.workspace.codeFile node "header") ""
    Run.draft (p.workspace.codeFile node "header") (headersText layout sig.headerType hs)
  extracted.forM fun (node, hs) =>
    Run.append (p.workspace.codeFile node "header") (structsText layout sig.headerType hs)
  extracted.forM fun (node, hs) =>
    Run.append (p.workspace.codeFile node "deparser") (deparserText sig.headerName deparser hs)
  pure sig.headerType

/-- Puts all nodes together; gives the name of the header structure. -/
def assemble (w : Workspace) (relation : OrderedMap String RelationEntry)
    (services : OrderedMap String Service) : Run String := do
  Report.say "aggregate..."
  let types ← Run.readDefinitions (← Run.read (w.projectFile "include//define.pne"))
  let (paths, topology) ← readPaths w
  let assignment ← (Placement.placeAll relation paths topology services : Except Fault _)
  let p : Plan := ⟨w, relation, paths, topology, assignment⟩
  let result := w.projectFile "path_out//path-result.json"
  Run.create result ""
  let overview ← (Placement.overview assignment paths services : Except Fault _)
  Run.create result (overview.pretty true 2 0)
  topology.keys.forM fun node => do
    control p node
    entries p node
  parsers p types

end Node

end Pathwise
