import Pathwise.Fragment.Generate
import Pathwise.Json.Key
import Pathwise.Json.Shown

/-!
# Service configurations

A service configuration lists the users, and for each user the services with the applications they
are made of.  Anything may stand for a name in it, but only texts name something: a service is
compiled up to the first name that does not.
-/

namespace Pathwise

structure ServiceEntry where
  name : Json.Key
  applications : List Json
deriving Inhabited

namespace ServiceEntry

/-- The service, if all names are texts. -/
def service? (e : ServiceEntry) : Option Service := do
  let name ← e.name.str?
  pure ⟨name, ← e.applications.mapM Json.str?⟩

/-- Why a value names no application. -/
def unnamed : Json → Mismatch
  | .arr _ => .noKey "list"
  | .obj _ => .noKey "slice"
  | j => .noParts j.kind

/--
How far a service is compiled: the applications before the first name that is no text, and what is
wrong with that name.  Hosts are passed over as `Gen.serviceFrom` passes over them.
-/
def compiled (p : Program) (service : Json.Key) (apps : List Json) (i : Nat) (done : List String) :
    List String × Option Fault :=
  if h : i < apps.length then
    match apps[i].str? with
    | none => (done, some (.mismatch (unnamed apps[i])))
    | some name =>
      if Gen.isHost name then compiled p service (apps.erase (.str name)) (i + 1) done
      else match service with
        | .str _ => compiled p service apps (i + 1) (done ++ [name])
        | k =>
          (done, some (if p.applications.contains name
            then .mismatch (.operands "+" k.toJson.kind "str") else .missingKey name))
  else (done, none)
termination_by apps.length - i
decreasing_by
  · have := List.length_erase_le (a := Json.str name) (l := apps)
    omega
  · omega

/-- What is wrong with a service that can be compiled but not placed. -/
def unplaced (e : ServiceEntry) : Fault :=
  match e.name with
  | .str _ => .mismatch (.concatenation
    ((e.applications.find? fun j => j.str?.isNone).getD .null).kind)
  | k => .missingKey k.toJson.text

end ServiceEntry

/-- The services of a user as a configuration has them. -/
abbrev ServiceEntries := OrderedMap Json.Key ServiceEntry

namespace ServiceEntries

/-- The services of a user; a service without applications does not count. -/
def ofUser (configuration user : Json) : Except Mismatch ServiceEntries := do
  let list ← (← configuration.part user).get "services"
  (← list.items).foldlM (fun acc s => do
    let name ← s.get "service_name"
    let apps ← (← s.get "applications").items
    if apps.isEmpty then pure acc
    else
      let name ← name.key
      pure (acc.insert name ⟨name, apps⟩)) {}

/-- The services up to the first name that is no text, and what is wrong with that name. -/
def services (p : Program) : List (Json.Key × ServiceEntry) → List Service →
    List Service × Option Fault
  | [], done => (done, none)
  | (_, e) :: rest, done =>
    match e.service? with
    | some s => services p rest (done ++ [s])
    | none =>
      let (apps, fault) := ServiceEntry.compiled p e.name e.applications 0 []
      (done ++ [⟨e.name.name, apps⟩], some (fault.getD e.unplaced))

end ServiceEntries

namespace Configuration

def userCount : Json → Except Mismatch Nat
  | .arr xs => .ok xs.length
  | .obj fs => .ok fs.length
  | .str s => .ok s.length
  | j => .error (.noLength j.kind)

def namesMainFile (configuration user : Json) : Except Mismatch Bool := do
  (← (← (← configuration.part user).get "services").nth 0).member "main_file"

def mainFile (configuration user : Json) : Except Mismatch Json := do
  (← (← (← configuration.part user).get "services").nth 0).get "main_file"

def userName (user : Json) : Except Mismatch String :=
  match user with
  | .str u => .ok u
  | .arr _ => .error (.arrayConcatenation "str")
  | j => .error (.operands "+" j.kind "str")

/-- The service that debug mode makes up for an application. -/
def debugService (number : Nat) (app : String) : Json :=
  .obj [("service_name", .str s!"admin_{number}"), ("applications", .strs [app]),
    ("service_hosts", .arr [
      .obj [("device_uuid", .str "s1"), ("ports", .obj [("h1", .int 21)])],
      .obj [("device_uuid", .str "s2"), ("ports", .obj [("h2", .int 22)])]])]

/-- The services that debug mode makes up, one for each application. -/
def debugServices (apps : List String) : List Json :=
  apps.zipIdx.map fun (app, i) => debugService (i + 1) app

def countOf : Json → Except Mismatch Int
  | .int n => .ok n
  | .bool b => .ok (if b then 1 else 0)
  | j => .error (.notInteger j.kind)

/-- The path file for services that nothing is known about, numbered below `count`. -/
def templatePaths (count : Int) : Json :=
  .obj ((List.range (count - 1).toNat).map fun i =>
    (s!"admin_{i + 1}",
      .obj [("node1", .obj [("next", .obj [("node2", .int 12)]), ("tables", .int 6),
      ("ip", .str "192.168.0.1")])]))

end Configuration

end Pathwise
