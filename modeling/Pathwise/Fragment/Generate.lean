import Pathwise.Fragment.Emit

/-!
# Generating the fragments of services

Every instruction of an application becomes a fragment of its own, numbered from zero.  Calls of
modules and functions are followed to a bounded depth.  Without recursion among them the bound is
never reached, and modules that call each other in a circle come to an end before, when the name of
a text becomes too long.
-/

namespace Pathwise

namespace Gen

def runJob : Nat → Job → Gen Unit
  | 0, _ => throw .tooDeep
  | depth + 1, job => Emit.block (runJob depth) job.scope job.site ⟨false, 0, 0⟩ job.body

/--
A depth that calls without recursion stay below: a module and a function for each module, and the
start.  It leaves room for all calls of modules whose texts have a name that is not too long.
-/
def callDepth (modules : OrderedMap String Module) : Nat :=
  2 * (modules.size + Disk.maxName) + 4

/-- Where the control text of an application goes that belongs to no fragment. -/
def looseFragment : String := "app"

/-- Generates the fragments of an application; all names start with `stem`. -/
def application (modules : OrderedMap String Module) (stem : String) (a : Application) :
    Gen Unit := do
  let vars ← Emit.declareVars a.vars {} stem
  let sc : Scope := ⟨stem, vars, {}, {}, {}, modules⟩
  Emit.block (runJob (callDepth modules)) sc ⟨looseFragment, 0, false⟩ ⟨true, 0, 0⟩ a.body

/-- Whether an application stands for a host at the end of a path. -/
def isHost (name : String) : Bool :=
  name.startsWith "host"

/--
Generates the applications of a service from position `i` on, where `apps` is what is left of the
list.  A host is taken out of the list at its first place, so the application behind it moves up and
the next position may pass over it.
-/
def serviceFrom (p : Program) (service : String) (apps : List String) (i : Nat) :
    Gen (List String) :=
  match h : apps[i]? with
  | none => pure apps
  | some name =>
    if isHost name then serviceFrom p service (apps.erase name) (i + 1)
    else do
      match p.applications.find? name with
      | none => throw (.missingKey name)
      | some a => application p.modules (service ++ "_" ++ name) a
      serviceFrom p service apps (i + 1)
termination_by apps.length - i
decreasing_by
  · have hi : i < apps.length := (List.getElem?_eq_some_iff.mp h).1
    have := List.length_erase_le (a := name) (l := apps)
    omega
  · have hi : i < apps.length := (List.getElem?_eq_some_iff.mp h).1
    omega

/-- Reads the definitions of a project from their syntax tree. -/
def define (t : Tree) : Gen Unit := do
  modify fun s => { s with definitions := { s.definitions with types := {} } }
  let (d, bad) ← (← get).definitions.addAll (← t.children?)
  modify fun s => { s with definitions := d }
  match bad with
  | none => pure ()
  | some b => Report.halt s!"666565 {← b.rule?}"

def readDefinitions (text : String) : Gen Unit := do
  modify fun s => { s with definitions := { s.definitions with types := {} } }
  match Language.definitions.parse text with
  | .ok t => define t
  | .error e => throw (.refusedText e)

/-- Generates all services; gives them back without the hosts that were passed. -/
def services (p : Program) : Gen (OrderedMap String Service) := do
  p.services.entries.foldlM (fun done (name, s) => do
    let apps ← serviceFrom p name s.applications 0
    pure (done.insert name { s with applications := apps })) {}

end Gen

end Pathwise
