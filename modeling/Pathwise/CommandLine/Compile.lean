import Pathwise.CommandLine.Options
import Pathwise.Compile.Deploy

/-!
# The compiler on the command line
-/

namespace Pathwise

structure CompileSettings where
  config : String
  logDir : String
  outputDir : String
  debugMain : Option String
  verbosity : String
  clean : Bool
  target : String
  entry : Bool
  onlyProgram : Bool
  check : Bool
  deploy : Bool
deriving Repr, DecidableEq, Inhabited

namespace CompileSettings

def specs : List OptionSpec := [
  ⟨"--config", .text⟩, ⟨"--log-dir", .text⟩, ⟨"--output-dir", .text⟩, ⟨"--debug-main", .text⟩,
    ⟨"--verbosity", .text⟩,
  ⟨"--clean", .nothing⟩, ⟨"--target", .text⟩, ⟨"--entry", .nothing⟩, ⟨"--p4", .nothing⟩,
    ⟨"--check", .nothing⟩,
  ⟨"--deploy", .nothing⟩]

/-- The settings on a command line; directories lie in `home` unless others are given. -/
def parse (home : String) (args : List String) : Except UsageError CompileSettings := do
  let found ← Options.parse specs args
  let value (name default : String) : String := (Options.value? found name).getD default
  pure {
    config := value "--config" "./service.json"
    logDir := value "--log-dir" (home ++ "/log/")
    outputDir := value "--output-dir" (home ++ "/pne_out/")
    debugMain := Options.value? found "--debug-main"
    verbosity := value "--verbosity" "info"
    clean := true
    target := value "--target" "v1model"
    entry := Options.has found "--entry"
    onlyProgram := Options.has found "--p4"
    check := Options.has found "--check"
    deploy := Options.has found "--deploy" }

end CompileSettings

namespace Runner

def inSession {α : Type} (build : Session → Runner) (x : Compiling α) : Run α := fun s =>
  match x (build s) with
  | .ok a r => .ok a r.session
  | .error e r => .error e r.session

/-- The compiler: `home` is the current directory and `system` the directory with the component
directory. -/
def command (home system : String) (plain : Bool) (args : List String) : Run Unit := do
  match CompileSettings.parse home args with
  | .error e => throw (.exited e.code)
  | .ok c =>
    if c.clean then Run.removeFilesIn c.outputDir
    inSession (fun s => start s system (.str c.outputDir) c.config c.debugMain plain)
      (run c.onlyProgram c.deploy c.entry)
    Report.say "ALL compile success!!"

end Runner

end Pathwise
