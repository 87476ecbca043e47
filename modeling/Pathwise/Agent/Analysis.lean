import Pathwise.Agent.Desk

/-!
# Analyses

An analysis tells what a program consists of without compiling it.  Its depth says what is looked at
besides the syntax: the structure, which is the services, applications and modules that the program
defines, and the dependencies, which are the files that it includes.
-/

namespace Pathwise

namespace Agent

inductive Depth where
  | syntaxOnly
  | definitions
  | dependencies
  | all
deriving Repr, DecidableEq, Inhabited

namespace Depth

/-- The depth of a name; a name that is not known asks for the syntax only. -/
def ofName (name : Json) : Depth :=
  match name with
  | .str "structure" => definitions
  | .str "dependencies" => dependencies
  | .str "all" => all
  | _ => syntaxOnly

def wantsStructure (d : Depth) : Bool := d = definitions || d = all

def wantsDependencies (d : Depth) : Bool := d = dependencies || d = all

end Depth

structure Analysis where
  /-- the definitions, if the structure was looked at -/
  program : Program
  /-- the files of the program, if the dependencies were looked at -/
  includes : Option (List String)
  /-- why the program could not be analysed -/
  error : Option String
deriving Inhabited

namespace Analysis

/-- The analysis of a program that cannot be read. -/
def failed (reason : String) : Analysis := ⟨.empty, none, some reason⟩

def isValid (a : Analysis) : Bool := a.error.isNone

def serviceJson (name : String) (s : Service) : Json :=
  .obj [("name", .str name), ("applications", .strs s.applications)]

def applicationJson (name : String) (a : Application) : Json :=
  .obj [("name", .str name), ("variables", .strs a.vars.keys),
    ("instructions_count", .nat a.body.length)]

def moduleJson (name : String) (m : Module) : Json :=
  .obj [("name", .str name), ("functions", .strs m.funcs.keys),
    ("tables", .strs (m.maps.keys ++ m.sets.keys))]

/-- One value for each entry of a table. -/
def each {β : Type} (f : String → β → Json) (m : OrderedMap String β) : Json :=
  .arr (m.entries.map fun (k, v) => f k v)

def toJson (a : Analysis) : Json :=
  .obj ([("syntax_valid", .bool a.isValid), ("services", each serviceJson a.program.services),
    ("applications", each applicationJson a.program.applications),
    ("modules", each moduleJson a.program.modules),
    ("dependencies", match a.includes with
      | some files => .obj [("includes", .strs files), ("modules", .arr [])]
      | none => .obj [])] ++
    match a.error with
    | some reason => [("error", .str reason)]
    | none => [])

def baseName (path : String) : String :=
  (Disk.names path).getLastD ""

def workspace (d : Desk) (path : String) : Workspace where
  project := Runner.pathOf (Runner.absolute d.session.home path).dropLast
  system := d.system
  config := ""
  debug := false
  plain := d.plain

/-- Looks at a program, whose main file is among the intermediate results. -/
def look (w : Workspace) (mainFile : String) (depth : Depth) : Run Analysis := do
  let forest ← Forest.grow w mainFile
  let program ← if depth.wantsStructure then forest.program w else pure .empty
  pure ⟨program, if depth.wantsDependencies then some forest.keys else none, none⟩

end Analysis

/-- Analyses a program.  Whatever goes wrong is told in the analysis, except for the end of the
whole run. -/
def Serving.analyze (inputFile depth : Json) : Serving Analysis :=
  recover
    (do
      let path ← pathOf inputFile
      Analysis.look (Analysis.workspace (← get) path) (Analysis.baseName path) (Depth.ofName depth))
    fun e => pure (.failed e.message)

end Agent

end Pathwise
