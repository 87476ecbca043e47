import Pathwise.Compile.Runner

/-!
# Deployment

Files are sent to devices over a connection each: first the name of the file, then, after a reply,
its content in blocks.
-/

namespace Pathwise

namespace Deploy

def devicePort : Int := 13345

/-- How many bytes are sent or received at once. -/
def blockSize : Nat := 1024

/-- Blocks of at most `n + 1` bytes. -/
def blocksFrom (n : Nat) : List UInt8 → List (List UInt8)
  | [] => []
  | b :: bs => (b :: bs.take n) :: blocksFrom n (bs.drop n)
termination_by bs => bs.length
decreasing_by
  have h : (bs.drop n).length ≤ bs.length := by rw [List.length_drop]; exact Nat.sub_le _ _
  exact Nat.lt_succ_of_le h

def blocks (bytes : List UInt8) : List (List UInt8) :=
  blocksFrom (blockSize - 1) bytes

def connect (host : Json) (port : Int) : Run Unit := do
  match host with
  | .str h =>
    Run.exchange (.connect h port)
    if (← get).peer.refusing.contains h then throw .refused
  | j => throw (.mismatch (.notHost j.kind))

def sendFile (path name : String) : Run Unit := do
  let content ← Run.readRaw path
  Run.exchange (.send (Text.bytes name))
  Run.exchange (.receive blockSize)
  Report.say s!"file recive: {(← get).peer.reply}"
  (blocks (Text.bytes content)).forM fun b => Run.exchange (.send b)

def baseName (path : String) : String :=
  (path.splitOn "/").getLastD ""

def single (path host : String) (port : Int) : Run Unit := do
  connect (.str host) port
  sendFile path (baseName path)
  Run.exchange .close

/-- Sends the file `name` in the directory `dir` to the device of a node. -/
def toNode (host : Json) (dir name : String) : Run Unit := do
  connect host devicePort
  sendFile (dir ++ name) name
  Run.exchange (.sleep 2)
  Run.exchange .close

def topology : Compiling Json := do
  match (← get).topology with
  | some t => pure t
  | none => throw .noTopology

/-- Does something for every node of the topology: with its address and its name. -/
def forNodes (f : Json → String → Run Unit) : Compiling Unit := do
  let t ← topology
  (← t.items).forM fun node => do
    let ip ← (← t.part node).get "ip"
    match node with
    | .str name => f ip name
    | j => throw (.mismatch (.operands "+" j.kind "str"))

/-- Has the program of every node checked and sends what the check made of it. -/
def programs : Compiling Unit :=
  forNodes fun ip node => do
    Run.exchange (.command s!"p4test pne_out/{node}.p4 --toJSON pne_out/{node}.json")
    toNode ip "pne_out//" (node ++ ".json")

/-- Sends the table entries of every node; entries prepared by hand go first. -/
def entries : Compiling Unit :=
  forNodes fun ip node => do
    let dir := if ← Run.isDirectory "flows//" then "flows//" else "pne_out//"
    toNode ip dir (node ++ "_entry.json")

end Deploy

namespace Runner

def debugUser (mainFile : String) : String :=
  (mainFile.splitOn mainEnding).headD ""

def run (onlyProgram deployPrograms deployEntries : Bool) : Compiling Unit := do
  clean
  match (← get).mainFile with
  | some file =>
    prepareMain
    if onlyProgram then
      copyMain
      throw (.exited 0)
    makeServices (debugUser file)
  | none => pure ()
  compileServices
  if deployPrograms then Deploy.programs
  if deployEntries then Deploy.entries

end Runner

end Pathwise
