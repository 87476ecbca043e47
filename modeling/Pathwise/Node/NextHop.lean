import Pathwise.Json.Shown
import Pathwise.Placement.Place

/-!
# The next hop

A program may name the next node on the path without knowing it.  Where the code of a node is put
together, the name is replaced by the port that leads to the node behind it on the path, and by zero
on the last node.
-/

namespace Pathwise

namespace NextHop

/-- The word that stands for the next hop in program text. -/
def word : String := "Next"

/-- The operand that stands for the next hop in table entries. -/
def operand : String := "_Next"

def pathOf (paths : Paths) (service : String) : Except Fault (List String) :=
  match paths.find? service with
  | some nodes => .ok nodes
  | none => .error (.missingKey service)

/-- The node behind a node on a path, if it is not the last one. -/
def after (nodes : List String) (node : String) : Except Fault (Option String) :=
  match nodes.idxOf? node with
  | some i => .ok nodes[i + 1]?
  | none => .error (.notListed node)

def nameParts (fragment : String) : List String :=
  Text.parts '_' fragment

/-- The service that program text of a fragment is routed for: the name up to the first
underscore. -/
def serviceOf (fragment : String) : String :=
  (nameParts fragment).headD ""

/-- What the next hop is called in the text of a node: a port, or the name of a node that no link
leads to. -/
def inText (paths : Paths) (info : NodeInfo String) (fragment node : String) :
    Except Fault String := do
  match ← after (← pathOf paths (serviceOf fragment)) node with
  | none => pure "0"
  | some next =>
    match info.next.find? next with
    | some port => pure port.text
    | none => pure next

def fillLine (hop line : String) : String :=
  Text.replace word hop line

def occurs (line : String) : Bool :=
  Json.occursIn word.toList line.toList

end NextHop

end Pathwise
