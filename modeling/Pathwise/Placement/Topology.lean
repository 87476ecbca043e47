import Pathwise.Json.Key

/-!
# Paths and topology

A path file gives, for every service, the nodes on its path, and for every node its links to next
nodes, its room for tables, its address and the kind of hardware it is.  From it follow the list of
nodes of each service and the topology, in which the services' views of a node are merged: links of
different services stay side by side, and for the rest the last service wins.
-/

namespace Pathwise

/-- What is known about a node of the network, where `κ` are the names of next nodes. -/
structure NodeInfo (κ : Type) where
  /-- the port that leads to each next node -/
  next : OrderedMap κ Json
  tables : Json
  ip : Json
  /-- the kind of hardware -/
  resource : Json
deriving Inhabited

namespace NodeInfo

def unknown {κ : Type} : NodeInfo κ := ⟨{}, .int 0, .str "0.0.0.0", .str "CPU"⟩

def toJson (n : NodeInfo Json.Key) : Json :=
  .obj [("next", .obj (n.next.entries.map fun (k, v) => (k.name, v))), ("tables", n.tables),
    ("ip", n.ip),
    ("resource", n.resource)]

/-- The node with the names under which its next nodes are written; of two that are written alike
the last one counts. -/
def named (n : NodeInfo Json.Key) : NodeInfo String :=
  ⟨.ofList (n.next.entries.map fun (k, v) => (k.name, v)), n.tables, n.ip, n.resource⟩

end NodeInfo

abbrev Topology := OrderedMap String (NodeInfo String)

/-- The nodes of the network as a path file describes them, where anything may stand for a next
node. -/
abbrev Survey := OrderedMap String (NodeInfo Json.Key)

abbrev Paths := OrderedMap String (List String)

namespace Paths

/-- The lists of nodes in a path file. -/
def ofJson (j : Json) : Except Mismatch (OrderedMap String (List Json)) := do
  (← j.items).foldlM (fun ps s => do
    let name ← s.key
    pure (ps.insert name.name (← (← j.part s).items))) {}

/-- The nodes of each service, for lists of names. -/
def ofLists (ps : OrderedMap String (List Json)) : Paths :=
  ps.map fun nodes => nodes.filterMap Json.str?

end Paths

namespace Survey

/-- Adds the links of a node, of which `info` is what the file says; a link that is known already
stays as it is. -/
def addLinks (t : Survey) (node : String) (info : Json) : Except Mismatch Survey := do
  let t := t.insertNew node .unknown
  let links ← info.get "next"
  (← links.items).foldlM (fun t n => do
    let name ← n.key
    match t.find? node with
    | some known =>
      if known.next.contains name then pure t
      else
        let port ← links.part n
        pure (t.modify node fun k => { k with next := k.next.insert name port })
    | none => pure t) t

def addPath (t : Survey) (path : Json) : Except Mismatch Survey := do
  let nodes ← path.items
  let each (t : Survey) (f : Survey → String → Json → Except Mismatch Survey) :
    Except Mismatch Survey :=
    nodes.foldlM (fun t n => do f t (← n.key).name (← path.part n)) t
  let t ← each t addLinks
  let t ← each t fun t node info => do
    let v ← info.get "tables"
    pure (t.modify node fun k => { k with tables := v })
  let t ← each t fun t node info => do
    let v ← info.get "ip"
    pure (t.modify node fun k => { k with ip := v })
  each t fun t node info => do
    if ← info.member "resource" then
      let v ← info.get "resource"
      pure (t.modify node fun k => { k with resource := v })
    else pure t

/-- What a path file says about the nodes. -/
def ofJson (j : Json) : Except Mismatch Survey := do
  (← j.items).foldlM (fun t s => do t.addPath (← j.part s)) {}

def toJson (t : Survey) : Json :=
  .obj (t.entries.map fun (n, i) => (n, i.toJson))

def topology (t : Survey) : Topology :=
  t.map NodeInfo.named

end Survey

end Pathwise
