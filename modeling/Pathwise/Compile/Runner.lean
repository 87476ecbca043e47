import Pathwise.Compile.Configuration
import Pathwise.Node.Assemble
import Pathwise.Project.Forest
import Pathwise.Route.Generate
import Pathwise.Target.Output

/-!
# Compilations

A compilation goes from a service configuration and the programs of its users to the programs of all
nodes.  In debug mode there is a single program, and the service configuration is made up from the
applications in it.
-/

namespace Pathwise

structure Runner where
  session : Session
  workspace : Workspace
  /-- what the names of output files begin with; anything may have been given for it -/
  output : Json
  /-- the program that is compiled in debug mode -/
  mainFile : Option String
  /-- the service configuration, empty until it is read -/
  services : Json
  /-- the topology, once the programs of all nodes are written -/
  topology : Option Json
deriving Inhabited

abbrev Compiling := EStateM Fault Runner

namespace Runner

instance : MonadLift Run Compiling where
  monadLift x := fun r =>
    match x r.session with
    | .ok a s => .ok a { r with session := s }
    | .error e s => .error e { r with session := s }

instance : MonadLift Report Compiling where
  monadLift x := ((x : Run _) : Compiling _)

def absolute (home : Place) (path : String) : Place :=
  Disk.resolve (if path.startsWith "/" then [] else home) path

/-- A place as a path, with two slashes before each name. -/
def pathOf (p : Place) : String :=
  String.join (p.map ("//" ++ ·))

/-- A compilation that is about to begin. -/
def start (session : Session) (system : String) (output : Json) (config : String)
    (mainFile : Option String) (plain : Bool) : Runner where
  session := session
  workspace := {
    project := pathOf (absolute session.home (mainFile.getD config)).dropLast
    system := system
    config := config
    debug := mainFile.isSome
    plain := plain }
  output := output
  mainFile := mainFile
  services := .obj []
  topology := none

def mainEnding : String := "_main.pne"

/-- Removes what earlier compilations left behind. -/
def clean : Compiling Unit := do
  let dir := (← get).workspace.component
  ["//topo", "//path", "//code", "//main", ""].forM fun name => Run.removeFilesIn (dir ++ name)

def debugMain : Compiling String := do
  match (← get).mainFile with
  | some f => pure f
  | none => throw .noMainFile

def prepareMain : Compiling Unit := do
  let file ← debugMain
  let text ← Run.read file
  let text ← (Quotation.bracket text : Except Fault _)
  Run.create ((← get).workspace.componentFile ("main//" ++ file)) text

/-- Takes the program of debug mode as node code: all lines but the first and the last. -/
def copyMain : Compiling Unit := do
  let text ← Run.read (← debugMain)
  match (← get).output with
  | .str output =>
    Run.create (output ++ "code.p4") (String.join ((Text.lines text).drop 1).dropLast)
  | .arr _ => throw (.mismatch (.arrayConcatenation "str"))
  | j => throw (.mismatch (.operands "+" j.kind "str"))

def forest (mainFile : String) : Compiling Forest := do
  Forest.grow (← get).workspace mainFile

def collect (f : Forest) : Compiling Program := do
  f.program (← get).workspace

def writeTemplate (count : Int) : Run Unit := do
  if !(← Run.exists? "path") then
    modify fun s => { s with disk := s.disk.makeDirectories (absolute s.home "path") }
  Run.create "path//path.json" ((Configuration.templatePaths count).pretty false 4 0)
  ["⚠️  Generated template path.json with placeholder values!",
    "📝 Please edit 'path/path.json' with actual:",
    "   - Node names (e.g., s1, s2 instead of node1, node2)", "   - IP addresses of your devices",
    "   - Correct port numbers", "   - Table resource limits"].forM fun line => Report.say line

/-- Makes up the service configuration of debug mode, and a path file with it. -/
def makeServices (user : String) : Compiling Unit := do
  modify fun r => { r with services := .obj [(user, .obj [("services", .arr [])])] }
  let f ← forest (← debugMain)
  Run.print "debug "
  let p ← collect f
  let apps := p.applications.keys
  modify fun r =>
    { r with services := .obj [(user,
    .obj [("services", .arr (Configuration.debugServices apps))])] }
  Run.create "service.json" ((← get).services.pretty false 4 0)
  Report.say "\n✅ Generated: service.json"
  let count : Int := apps.length + 1
  let topology := (← get).workspace.project ++ "//topology.json"
  if ← Run.exists? topology then
    Report.say "\n🔍 Found topology.json, auto-generating path.json..."
    let paths : Run Unit := do
      try
        let _ ← Route.generate "service.json" topology "path//path.json"
      catch e =>
        Report.say s!"⚠️  Auto-generation failed: {e.message}"
        Report.say "📝 Falling back to template generation..."
        writeTemplate count
    paths
  else
    Report.say "\n⚠️  topology.json not found, generating path.json template..."
    Report.say "📝 Please edit 'path/path.json' with actual network configuration"
    writeTemplate count

def placeMain (user file : String) : Compiling Unit := do
  let text ← (Quotation.hide (← Run.read file) : Except Fault _)
  Run.create ((← get).workspace.componentFile ("main//" ++ user ++ mainEnding)) text

/--
Brings in place a main file that a user names.  Only a file without quotation marks can be brought
in place.
-/
def placeNamedMain (user : Except Mismatch String) (file : Json) : Compiling Unit := do
  match file with
  | .str path =>
    let text ← Run.read path
    let hidden ← (Quotation.hide text : Except Fault _)
    if text.contains '"' then throw (.mismatch (.concatenation "int"))
    else Run.create ((← get).workspace.componentFile ("main//" ++ (← user) ++ mainEnding)) hidden
  | j => throw (Fault.ofOpening j)

/-- Reads the service configuration if that was not done before, and brings the main files of all
users in place. -/
def readServices : Compiling (List Json) := do
  if (← Configuration.userCount (← get).services) = 0 then
    let j ← Run.readJson (← get).workspace.config
    modify fun r => { r with services := j }
  let services := (← get).services
  let users ← services.items
  let own ← users.filterM fun u => do
    pure !(← (Configuration.namesMainFile services u : Except Mismatch _))
  own.forM fun u => do
    let name ← Configuration.userName u
    placeMain name (name ++ mainEnding)
  let named ← users.filterM fun u => do
    if ← (Configuration.namesMainFile services u : Except Mismatch _) then
      placeNamedMain (Configuration.userName u) (← Configuration.mainFile services u)
      pure true
    else pure false
  pure (own ++ named)

/-- Generates fragments and writes their texts among the intermediate results. -/
def generating {α : Type} (x : Gen α) : Compiling (α × Generation) := do
  let w := (← get).workspace
  let flush (g : Generation) : Run Unit := do
    modify fun s => { s with console := g.console }
    g.files.forM fun (name, text) => Run.append (w.componentFile name) text
  let s := (← get).session
  let place := absolute s.home w.component
  let folders := (s.disk.directories.filter place.isPrefixOf).map (·.drop place.length)
  match x { Generation.empty with console := s.console, folders := folders } with
  | .ok a g =>
    flush g
    pure (a, g)
  | .error e g =>
    flush g
    throw e

def generate (p : Program) :
    Compiling (OrderedMap String Service × OrderedMap String RelationEntry) := do
  Report.say "generate..."
  Forest.log (← get).workspace "generate...\n"
  let text ← Run.read "include//define.pne"
  let (services, g) ← generating do
    Gen.readDefinitions text
    Gen.services p
  pure (services, g.relation)

def addNew {β : Type} (m n : OrderedMap String β) : OrderedMap String β :=
  n.entries.foldl (fun m (k, v) => m.insertNew k v) m

/-- Announces the next step for a user, on the console and in the log. -/
def announce (user : String) (isFirst : Bool) : Compiling Unit := do
  let text := user ++ mainEnding ++ " "
  Run.print text
  let file := (← get).workspace.logFile
  if isFirst then Run.create file text else Run.append file text

def compileUser (acc : OrderedMap String Service × OrderedMap String RelationEntry) (user : Json) :
    Compiling (OrderedMap String Service × OrderedMap String RelationEntry) := do
  let name ← Configuration.userName user
  announce name true
  let f ← forest (name ++ mainEnding)
  announce name false
  let p ← collect f
  let entries ← ServiceEntries.ofUser (← get).services user
  announce name false
  let (services, fault) := ServiceEntries.services p entries.entries []
  let (services, relation) ← generate
    { p with services := .ofList (services.map fun s => (s.name, s)) }
  match fault with
  | none => pure (addNew acc.1 services, addNew acc.2 relation)
  | some e => throw e

def assemble (services : OrderedMap String Service) (relation : OrderedMap String RelationEntry) :
    Compiling String := do
  Run.print "All "
  Node.assemble (← get).workspace relation services

def writeOutput (headerType : String) : Compiling Unit := do
  Run.print "ALL "
  let r ← get
  let t ← Target.topology r.workspace
  match r.output with
  | .str directory =>
    Target.write r.workspace headerType directory t
    modify fun r => { r with topology := some t }
  | j => throw (Fault.ofListing j)

def compileServices : Compiling Unit := do
  let users ← readServices
  let (services, relation) ← users.foldlM compileUser ({}, {})
  let headerType ← assemble services relation
  let w := (← get).workspace
  Forest.log w "All aggregate...\n"
  writeOutput headerType
  Forest.log w "ALL output...\nALL compile success!!\n"

end Runner

end Pathwise
