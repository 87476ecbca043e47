import Pathwise.Json.Key
import Pathwise.Target.Basic
import Pathwise.Target.Script
import Pathwise.Workspace

/-!
# The programs of all nodes

The parts of a node's code are joined into one program for the node's target, with a file of table
entries beside it.
-/

namespace Pathwise

namespace Target

def part (w : Workspace) (node kind : String) : Run String :=
  Run.read (w.codeFile node kind)

def program (w : Workspace) (headerType : String) (node : String) (info : Run Json)
    (file : String) : Run Target := do
  Run.create file "#include <core.p4>\n"
  let t ← Target.ofResource (← (← info).get "resource")
  Run.append file t.library
  Run.append file (← part w node "header")
  Run.append file ("\n" ++ t.parserHead headerType)
  Run.append file (t.parserStates (← part w node "parser"))
  Run.append file ("\x7d\n\n" ++ t.checksum headerType)
  let control ← part w node "control"
  Run.append file (t.ingressHead headerType)
  Run.append file (String.join ((Text.lines control).map fun line => "    " ++ t.controlLine line))
  Run.append file "\x7d\n\n"
  let deparser ← part w node "deparser"
  Run.append file (t.deparserHead headerType ++ deparser ++ "\x7d\n\n")
  let rest ← Run.read (w.componentFile ("rest//" ++ t.restName))
  Run.append file (Text.replace "LynetteHeader" headerType rest)
  pure t

/-- Writes the table entries of a node; `stem` is what the file's name begins with. -/
def entryFile (w : Workspace) (t : Target) (node stem : String) : Run Unit := do
  let entries ← Run.readJson (w.codeFile node "entry")
  let file := stem ++ t.entryEnding
  Run.create file ""
  match t with
  | software => Run.append file (entries.pretty true 2 0)
  | hardware => Run.draft file (Script.entries node entries)

def node (w : Workspace) (headerType output : String) (topology name : Json) : Run Unit := do
  match name with
  | .str n =>
    let t ← program w headerType n (liftM (topology.part name)) (output ++ n ++ ".p4")
    entryFile w t n (output ++ n)
  | j => throw (.mismatch (.operands "+" j.kind "str"))

def topology (w : Workspace) : Run Json := do
  Report.say "output..."
  let topology ← Run.readJson w.topologyFile
  (← topology.items).forM fun n => do let _ ← n.key
  pure topology

/-- Writes the files of all nodes of a topology in place of the files that are there. -/
def write (w : Workspace) (headerType directory : String) (topology : Json) : Run Unit := do
  Run.removeFilesIn directory
  (← topology.items).forM (node w headerType directory topology)

def output (w : Workspace) (headerType directory : String) : Run Json := do
  let t ← topology w
  write w headerType directory t
  pure t

end Target

end Pathwise
