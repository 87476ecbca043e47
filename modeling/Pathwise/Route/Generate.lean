import Pathwise.Route.Device
import Pathwise.Route.Network
import Pathwise.Session

/-!
# Path files

A path file is made from the topology of the network and the hosts of each service: the path of a
service is a shortest way from its first host to its last one.
-/

namespace Pathwise

namespace Route

/-- The network that a topology file describes, and its descriptions of devices. -/
structure Surroundings where
  network : Network Json.Key String
  descriptions : Json
deriving Inhabited

def addLink (n : Network Json.Key String) (link : Json) :
    Except Mismatch (Network Json.Key String) := do
  let source ← (← link.get "src").get "device"
  let target ← (← link.get "dst").get "device"
  let port ← (← link.get "src").get "port"
  let port := Device.portNumber (← Device.searchable port)
  pure (n.addLink (← source.key) (← target.key) port)

def surroundings (file : Json) : Except Mismatch Surroundings := do
  let links ← Device.described file "links" (.arr [])
  let network ← (← links.items).foldlM addLink Network.empty
  pure ⟨network, ← Device.described file "deviceStaticInfo" (.obj [])⟩

abbrev PathConfig := OrderedMap String Json

def hostCount (hosts : Json) : Except Mismatch Nat :=
  match hosts with
  | .arr xs => .ok xs.length
  | .obj fs => .ok fs.length
  | .str s => .ok s.length
  | j => .error (.noLength j.kind)

def lonePath (s : Surroundings) (hosts : Json) : Except Mismatch PathConfig := do
  let device ← (← hosts.nth 0).get "device_uuid"
  let tables ← Device.tables device s.descriptions
  let name ← Device.searchable device
  pure (OrderedMap.empty.insert name
    (.obj [("next", .obj []), ("tables", .nat tables),
      ("ip", .str (Device.address name Device.defaultBase))]))

/-- A way between two devices; the second one is only looked at if the first one is in the
network. -/
def wayBetween (n : Network Json.Key String) (first last : Json) :
    Except Mismatch (Option (List Json.Key)) := do
  let start ← first.key
  if n.devices.contains start then pure (n.route start (← last.key)).2
  else pure none

/-- The names of the devices on a way, the first of which is at a position. -/
def namesFrom : Nat → List Json.Key → Except Mismatch (List String)
  | _, [] => .ok []
  | i, k :: ks =>
    match k with
    | .str s => do pure (s :: (← namesFrom (i + 1) ks))
    | k => .error (.notJoinable i k.toJson.kind)

def nextLink (n : Network Json.Key String) (node : String) (next : Option String) :
    Report Json := do
  match next with
  | none => pure (.obj [])
  | some next =>
    let port := ((n.port (.str node) (.str next)).2).getD ""
    if port.isEmpty then
      Report.say s!"⚠️  No port found from {node} to {next}, using default"
      pure (.obj [(next, .int 1)])
    else
      match Text.integer port with
      | .ok p => pure (.obj [(next, .int p)])
      | .error e => throw (.notInteger e)

def alongWay (s : Surroundings) : List String → PathConfig → Report PathConfig
  | [], c => pure c
  | node :: rest, c => do
    let tables ← Device.tables (.str node) s.descriptions
    let ip := Device.address node Device.defaultBase
    let next ← nextLink s.network node rest.head?
    alongWay s rest (c.insert node
      (.obj [("tables", .nat tables), ("ip", .str ip), ("next", next)]))

def servicePath (s : Surroundings) (name hosts : Json) : Report PathConfig := do
  if (← hostCount hosts) < 2 then
    Report.say s!"⚠️  Service '{name.text}' has less than 2 hosts, using first host only"
    lonePath s hosts
  else
    let first ← (← hosts.nth 0).get "device_uuid"
    let last ← (← hosts.nth (-1)).get "device_uuid"
    match ← (wayBetween s.network first last : Except Mismatch _) with
    | none =>
      Report.say s!"❌ No path found from {first.text} to {last.text}"
      pure {}
    | some way =>
      let names ← namesFrom 0 way
      let shown := " -> ".intercalate names
      Report.say s!"✅ Found path for '{name.text}': {shown}"
      alongWay s names {}

abbrev PathFile := OrderedMap Json.Key PathConfig

def userPaths (s : Surroundings) (user : Json) (done : PathFile) : Report PathFile := do
  let services ← Device.described user "services" (.arr [])
  (← services.items).foldlM (fun done service => do
    let name ← Device.described service "service_name" .null
    let hosts ← Device.described service "service_hosts" (.arr [])
    if !name.isTruthy then pure done
    else
      Report.say s!"📍 Processing service: {name.text}"
      let c ← servicePath s name hosts
      if c.isEmpty then pure done else pure (done.insert (← name.key) c)) done

def pathJson (paths : PathFile) : Json :=
  .obj (paths.entries.map fun (s, c) => (s.name, .obj c.entries))

/-- Makes the directory in which a file is to be written, unless it is there. -/
def provideDirectoryOf (file : String) : Run Unit := do
  let dir := (Run.splitPath file).1
  if !dir.isEmpty && !(← Run.exists? dir) then Run.provideDirectory dir

def generate (serviceFile topologyFile output : String) : Run PathFile := do
  Report.say "🔄 Loading topology..."
  let s ← surroundings (← Run.readJson topologyFile)
  Report.say "🔄 Loading service configuration..."
  let services ← Run.readJson serviceFile
  Report.say "🔄 Generating path configurations...\n"
  let users ← services.fields "items"
  let paths ← users.foldlM (fun done (_, user) => userPaths s user done) ({} : PathFile)
  provideDirectoryOf output
  Run.create output ((pathJson paths).pretty false 4 0)
  Report.say s!"\n✅ Path configuration generated: {output}"
  pure paths

end Route

end Pathwise
