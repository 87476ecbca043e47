import Pathwise.Node.Control

/-!
# The table entries of a node

Entries are taken over from the fragments placed on the node.  A parameter that stands for the next
hop becomes the port towards the next node; on the last node it becomes a port of the last host of
the service, if the service configuration names one, and zero otherwise.
-/

namespace Pathwise

namespace Node

/-- The port of the last host in one service of the configuration, if the service is the one with
the name. -/
def hostPortIn (service : String) (s : Json) : Except Mismatch (Option String) := do
  if ← s.member "service_hosts" then
    if (← s.get "service_name") == .str service then
      let hosts ← s.get "service_hosts"
      let ports ← (← hosts.nth (-1)).get "ports"
      (← ports.items).foldlM (fun _ h => do pure (some (← ports.part h).text)) none
    else pure none
  else pure none

/-- The port of the last host of a service in the service configuration. -/
def hostPort (service : String) (config : Json) : Except Mismatch (Option String) := do
  (← config.items).foldlM (fun found user => do
    let services ← (← config.part user).get "services"
    (← services.items).foldlM (fun found s => do
      pure ((← hostPortIn service s).or found)) found) none

/-- The port that the next hop stands for in the entries of a fragment. -/
def nextPort (p : Plan) (node fragment : String) : Run String := do
  let service := (p.assignment.services.find? fragment).getD ""
  match ← NextHop.after (← NextHop.pathOf p.paths service) node with
  | some next =>
    match (p.topology.find? node).bind (·.next.find? next) with
    | some port => pure port.text
    | none => throw (.missingKey next)
  | none =>
    if p.workspace.debug then pure "0"
    else
      let config ← Run.readJson (p.workspace.projectFile p.workspace.config)
      pure ((← hostPort service config).getD "0")

/-- Fills in the next hop among the parameters of an entry. -/
def routeEntry (p : Plan) (node fragment : String) (entry : Json) : Run Json := do
  let params ← entry.get "action_params"
  let params' ← (← params.items).foldlM (fun acc v => do
    let values ← (← params.part v).items
    if values.any (· == .str NextHop.operand) then
      let port ← nextPort p node fragment
      pure (acc.set (← v.key).name (.strs [port]))
    else pure acc) params
  pure (entry.set "action_params" params')

/-- A line that is too short to hold an entry. -/
def isBlankEntry (line : String) : Bool :=
  line.length ≤ 10

def fragmentEntries (p : Plan) (node fragment : String) : Run (List Json) := do
  let lines := (Text.lines (← fragmentText p fragment "entry")).filter fun l => !isBlankEntry l
  lines.mapM fun line => do
    match Json.parse line with
    | .ok e => routeEntry p node fragment e
    | .error e => throw (.badJson e)

def entries (p : Plan) (node : String) : Run Unit := do
  let target := p.workspace.codeFile node "entry"
  Run.append target ""
  let es ← (p.assignment.on node).flatMapM (fragmentEntries p node)
  Run.append target ((Json.obj [("target", .str node), ("entries", .arr es)]).pretty true 2 0)

end Node

end Pathwise
