/-!
# Where a compilation takes place
-/

namespace Pathwise

/-- The directories and the configuration of a compilation. -/
structure Workspace where
  /-- the directory of the project that is compiled -/
  project : String
  /-- the directory that holds the component directory -/
  system : String
  /-- the path of the service configuration -/
  config : String
  /-- whether a single program is compiled without a service configuration -/
  debug : Bool
  /-- whether right sides of assignments are taken out of the expressions around them -/
  plain : Bool
deriving Repr, Inhabited

namespace Workspace

def component (w : Workspace) : String := w.system ++ "/component"

def componentFile (w : Workspace) (name : String) : String := w.component ++ "//" ++ name

def codeFile (w : Workspace) (node part : String) : String :=
    w.component ++ "//code//" ++ node ++ "_" ++ part

def topologyFile (w : Workspace) : String := w.component ++ "//topo//topo.json"

def pathFile (w : Workspace) : String := w.component ++ "//path//path.json"

def projectFile (w : Workspace) (name : String) : String := w.project ++ "//" ++ name

def logFile (w : Workspace) : String := w.project ++ "//log_out//log.txt"

end Workspace

end Pathwise
