import Pathwise.Agent.Demonstration
import Pathwise.Agent.Protocol
import Pathwise.CommandLine.Deploy
import Pathwise.CommandLine.Paths
import Pathwise.Target.Rest

/-!
# The command line

The first argument says which tool is wanted: `paths` makes a path file and `plain-paths` does so
with default names, `deploy` sends a file, `serve` answers requests on standard input and `show`
gives a demonstration; anything else is an argument of the compiler.  A tool works on a picture of
the current directory; what it changed there is written back at the end.  Exchanges with devices are
told on standard error.
-/

namespace Pathwise

namespace Tool

/-- The place of the current directory in the picture. -/
def homePlace : Place := ["home"]

/-- The place of the intermediate results, which are in the picture only. -/
def systemPath : String := "/system"

def joinPath (directory name : String) : String := directory ++ "/" ++ name

/-- Takes the files below a directory into a picture. -/
partial def takeIn (disk : Disk) (place : Place) (directory : String) : IO Disk := do
  let home ← IO.FS.realPath directory
  let mut disk := disk.makeDirectories place
  for entry in ← home.readDir do
    let path := joinPath directory entry.fileName
    if ← entry.path.isDir then
      disk ← takeIn disk (place ++ [entry.fileName]) path
    else
      try
        disk := disk.put (place ++ [entry.fileName]) (← IO.FS.readFile path)
      catch _ => pure ()
  return disk

/-- Writes back what is different in a later picture. -/
def writeBack (before after : Disk) : IO Unit := do
  for (place, text) in before.changesBelow after homePlace do
    let path := "/".intercalate ("." :: place)
    match text with
    | some t =>
      IO.FS.createDirAll ("/".intercalate ("." :: place.dropLast))
      IO.FS.writeFile path t
    | none => IO.FS.removeFile path

def describe : Exchange → String
  | .command line => s!"run {line}"
  | .connect host port => s!"connect {host} {port}"
  | .send bytes => s!"send {bytes.length} bytes"
  | .receive limit => s!"receive up to {limit} bytes"
  | .close => "close"
  | .sleep seconds => s!"wait {seconds} s"

/-- Shows what a session did: its console, its exchanges and its files. -/
def conclude (before : Disk) (s : Session) : IO Unit := do
  IO.print s.console
  for x in s.exchanges do
    IO.eprintln (describe x)
  writeBack before s.disk

def exitCode (f : Fault) : IO UInt32 := do
  match f with
  | .halted => return 0
  | .exited n => return n.toUInt32
  | f =>
    IO.eprintln f.message
    return 1

def runTool (s : Session) (x : Run Unit) : IO UInt32 := do
  match x.run s with
  | .ok _ s' =>
    conclude s.disk s'
    return 0
  | .error f s' =>
    conclude s.disk s'
    exitCode f

def runAgent (d : Agent.Desk) (x : Agent.Serving Unit) : IO (Agent.Desk × Option UInt32) := do
  let before := d.session.disk
  match x.run d with
  | .ok _ d' =>
    conclude before d'.session
    return ({ d' with session := { d'.session with console := "", exchanges := #[] } }, none)
  | .error e d' =>
    conclude before d'.session
    match e with
    | .fault f => return (d', some (← exitCode f))
    | e =>
      IO.eprintln e.message
      return (d', some 1)

/-- Answers requests, one on a line, until the input or the run ends. -/
partial def serveRequests (input : IO.FS.Stream) (d : Agent.Desk) : IO UInt32 := do
  let line ← input.getLine
  if line.isEmpty then return 0
  let (d, code) ← runAgent d (Agent.Protocol.serveLine line)
  (← IO.getStdout).flush
  match code with
  | some c => return c
  | none => serveRequests input d

def start (args : List String) : IO UInt32 := do
  let disk ← takeIn Disk.empty homePlace "."
  let session := Session.start (Target.install disk ["system", "component"]) homePlace
  let desk := Agent.Desk.start session systemPath false true
  match args with
  | "paths" :: rest => runTool session (Route.command rest)
  | "plain-paths" :: rest => runTool session (Route.plainCommand rest)
  | "deploy" :: rest => runTool session (Deploy.command rest)
  | "serve" :: _ => serveRequests (← IO.getStdin) desk
  | "show" :: _ => return ((← runAgent desk Agent.Demonstration.all).2).getD 0
  | args => runTool session (Runner.command "/home" systemPath false args)

end Tool

end Pathwise

def main (args : List String) : IO UInt32 :=
  Pathwise.Tool.start args
