import Pathwise.Fragment.State
import Pathwise.Text.Lines

/-!
# Sessions

What a run of the tool sees and leaves behind: the console, the files, the constants that were
defined so far, and what it exchanged with devices.  A step that fails leaves its traces too, so the
state outlives an error.
-/

namespace Pathwise

/-- One exchange with the world outside. -/
inductive Exchange where
  | command (line : String)
  | connect (host : String) (port : Int)
  | send (bytes : List UInt8)
  | receive (limit : Nat)
  | close
  | sleep (seconds : Nat)
deriving Inhabited

/-- How devices behave: what they reply, and which of them take no connection. -/
structure Peer where
  reply : String
  refusing : List String
deriving Inhabited

structure Session where
  console : String
  disk : Disk
  /-- the directory that relative paths start from -/
  home : Place
  /-- the constants defined so far, which outlive a compilation -/
  constants : OrderedMap String String
  peer : Peer
  exchanges : Array Exchange
deriving Inhabited

namespace Session

def start (disk : Disk) (home : Place) : Session :=
  ⟨"", disk, home, {}, ⟨"ok", []⟩, #[]⟩

end Session

abbrev Run := EStateM Fault Session

namespace Run

instance : MonadLift Report Run where
  monadLift x := fun s =>
    match x s.console with
    | .ok a c => .ok a { s with console := c }
    | .error e c => .error e { s with console := c }

def print (text : String) : Run Unit :=
  modify fun s => { s with console := s.console ++ text }

def locate (path : String) : Run Place := do
  let s ← get
  match s.disk.locate s.home path with
  | .ok p => pure p
  | .error e => throw (.disk e path)

def readRaw (path : String) : Run String := do
  let p ← locate path
  let d := (← get).disk
  match d.file? p with
  | some text => pure text
  | none => throw (.disk (if d.isDirectory p then .isDirectory else .noSuchFile) path)

/-- The text of a file with line feeds for all line ends. -/
def read (path : String) : Run String :=
  Text.unifyLineEnds <$> readRaw path

/-- The place of a file that is about to be written. -/
def locateForWriting (path : String) : Run Place := do
  let p ← locate path
  let d := (← get).disk
  if d.isDirectory p then throw (.disk .isDirectory path)
  else pure p

def create (path : String) (text : String) : Run Unit := do
  let p ← locateForWriting path
  modify fun s => { s with disk := s.disk.put p text }

def append (path : String) (text : String) : Run Unit := do
  let p ← locateForWriting path
  modify fun s => { s with disk := s.disk.extend p text }

def readJson (path : String) : Run Json := do
  match Json.parse (← read path) with
  | .ok j => pure j
  | .error e => throw (.badJson e)

def isFile (path : String) : Run Bool := do
  let s ← get
  match s.disk.locate s.home path with
  | .ok p => pure (s.disk.file? p).isSome
  | .error _ => pure false

def isDirectory (path : String) : Run Bool := do
  let s ← get
  match s.disk.locate s.home path with
  | .ok p => pure (s.disk.isDirectory p)
  | .error _ => pure false

def exists? (path : String) : Run Bool := do
  pure ((← isFile path) || (← isDirectory path))

def directory (path : String) : Run Place := do
  let p ← locate path
  let d := (← get).disk
  if d.isDirectory p then pure p
  else throw (.disk (if (d.file? p).isSome then .notDirectory else .noSuchFile) path)

/-- Makes the directory that names lead to, of which all but the last have to lead to a
directory. -/
def makeDirectory (path : String) : Run Unit := do
  let p ← locate path
  if ← exists? path then throw (.disk .alreadyThere path)
  else modify fun s => { s with disk := { s.disk with directories := s.disk.directories ++ [p] } }

/-- A path without its last name, and that name. -/
def splitPath (path : String) : String × String :=
  let name := (path.toList.reverse.takeWhile (· ≠ '/')).reverse
  let front := path.toList.take (path.length - name.length)
  let cut := (front.reverse.dropWhile (· = '/')).reverse
  (String.ofList (if cut.isEmpty then front else cut), String.ofList name)

/-- Makes a directory and the directories on the way to it; `depth` bounds how many there are. -/
def makeDirectories : Nat → String → Run Unit
  | 0, path => makeDirectory path
  | depth + 1, path => do
    let (front, name) := match splitPath path with
      | (front, "") => splitPath front
      | r => r
    if !front.isEmpty && !name.isEmpty && !(← exists? front) then
      try makeDirectories depth front
      catch
        | .disk .alreadyThere _ => pure ()
        | e => throw e
      if name ≠ "." then makeDirectory path
    else makeDirectory path

def provideDirectory (path : String) : Run Unit :=
  makeDirectories path.length path

def removeFilesIn (path : String) : Run Unit := do
  let p ← directory path
  modify fun s => { s with disk := (s.disk.filesIn p).foldl Disk.removeFile s.disk }

def exchange (x : Exchange) : Run Unit :=
  modify fun s => { s with exchanges := s.exchanges.push x }

/--
Reads the definitions of a project and gives its named types.  The constants are added to those
known already, also when a later definition is not understood.
-/
def readDefinitions (text : String) : Run (OrderedMap String String) := do
  match Language.definitions.parse text with
  | .error e => throw (.refusedText e)
  | .ok t =>
    let (d, bad) ← Definitions.addAll ⟨{}, (← get).constants⟩ (← t.children?)
    modify fun s => { s with constants := d.constants }
    match bad with
    | none => pure d.types
    | some b => Report.halt s!"666565 {← b.rule?}"

end Run

end Pathwise
