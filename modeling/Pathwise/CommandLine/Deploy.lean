import Pathwise.CommandLine.Options
import Pathwise.Compile.Deploy

/-!
# Sending a file from the command line
-/

namespace Pathwise

namespace Deploy

def specs : List OptionSpec := [⟨"--config", .text⟩, ⟨"--ip", .text⟩, ⟨"--port", .number⟩]

def settings (args : List String) : Except UsageError (String × String × Int) := do
  let found ← Options.parse specs args
  let port := match (Options.value? found "--port").map Text.integer with
    | some (.ok p) => p
    | _ => devicePort
  match Options.value? found "--config", Options.value? found "--ip" with
  | some file, some ip => pure (file, ip, port)
  | _, _ => .error .wrong

def command (args : List String) : Run Unit := do
  match settings args with
  | .error e => throw (.exited e.code)
  | .ok (file, ip, port) =>
    if ← Run.isFile file then single file ip port
    else Report.say "Error file path!"

end Deploy

end Pathwise
