import Pathwise.Definitions
import Pathwise.Fragment.Piece

/-!
# The state of generation

What generation has produced so far: the texts, what is known about every fragment, and how often
table and action names were drawn.  All effects of generation go through the operations of this
file.
-/

namespace Pathwise

/-- What is recorded about a fragment: its operands, its files of variables, its modules and its
tables. -/
structure Relation where
  inputs : List String
  outputs : List String
  varFiles : List String
  modules : List String
  tableCount : Int
deriving Repr, Inhabited, BEq, DecidableEq

namespace Relation

def empty : Relation := ⟨[], [], [], [], 0⟩

end Relation

/-- An entry of the relation: the last fragment number of an application, or a fragment. -/
inductive RelationEntry where
  | last (number : Int)
  | fragment (r : Relation)
deriving Repr, Inhabited, BEq, DecidableEq

structure Generation where
  console : String
  definitions : Definitions
  /-- naming scopes whose variables are declared -/
  scopes : List String
  relation : OrderedMap String RelationEntry
  /-- how often each table name was drawn again -/
  tableNames : OrderedMap String Nat
  /-- how often each action name was drawn again -/
  actionNames : OrderedMap String Nat
  /-- the directories in which texts can be put -/
  folders : List Place
  texts : List (TextKey × Array Piece)
deriving Inhabited

namespace Generation

/-- The directories beside the texts that are always there. -/
def standardFolders : List Place := [["topo"], ["path"], ["code"], ["main"], ["rest"]]

def empty : Generation := ⟨"", .empty, [], {}, {}, {}, standardFolders, []⟩

/-- Adds pieces to a text, which comes into being with its first addition. -/
def addPieces (k : TextKey) (ps : List Piece) : List (TextKey × Array Piece) →
    List (TextKey × Array Piece)
  | [] => [(k, ps.toArray)]
  | (k', qs) :: rest =>
    if k' = k then (k', qs.appendList ps) :: rest else (k', qs) :: addPieces k ps rest

def pieces? (g : Generation) (k : TextKey) : Option (List Piece) :=
  (g.texts.find? (·.1 = k)).map (·.2.toList)

def files (g : Generation) : List (String × String) :=
  g.texts.map fun (k, ps) => (k.fileName, Piece.render ps.toList)

end Generation

abbrev Gen := EStateM Fault Generation

namespace Gen

instance : MonadLift Report Gen where
  monadLift x := fun s =>
    match x s.console with
    | .ok a c => .ok a { s with console := c }
    | .error e c => .error e { s with console := c }

/-- A text can be begun only if its name is the name of a file in one of the directories. -/
def checkName (k : TextKey) : Gen Unit := do
  let s ← get
  if !s.texts.any (·.1 = k) then
    match (⟨[], s.folders⟩ : Disk).locate [] ("./" ++ k.fileName) with
    | .ok _ => pure ()
    | .error e => throw (.disk e k.fileName)

def emit (k : TextKey) (ps : List Piece) : Gen Unit := do
  checkName k
  modify fun s => { s with texts := Generation.addPieces k ps s.texts }

def fragment (name : String) : Gen Relation := do
  match (← get).relation.find? name with
  | some (.fragment r) => pure r
  | some (.last _) => throw .notAFragment
  | none => throw (.missingKey name)

def record (name : String) (f : Relation → Relation) : Gen Unit := do
  let r ← fragment name
  modify fun s => { s with relation := s.relation.insert name (.fragment (f r)) }

def recordInput (name : String) (o : String) : Gen Unit :=
  record name fun r => { r with inputs := r.inputs ++ [o] }

def recordOutput (name : String) (o : String) : Gen Unit :=
  record name fun r => { r with outputs := r.outputs ++ [o] }

def recordTable (name : String) : Gen Unit :=
  record name fun r => { r with tableCount := r.tableCount + 1 }

/-- Draws a name: the name itself at first, and with a running number from then on. -/
def drawName (names : OrderedMap String Nat) (name : String) : String × OrderedMap String Nat :=
  match names.find? name with
  | none => (name, names.insert name 0)
  | some n => (s!"{name}_{n + 1}", names.insert name (n + 1))

def drawTable (name : String) : Gen String :=
  modifyGet fun s =>
    let (drawn, names) := drawName s.tableNames name
    (drawn, { s with tableNames := names })

def drawAction (table : String) : Gen String :=
  modifyGet fun s =>
    let (drawn, names) := drawName s.actionNames (table ++ "_action")
    (drawn, { s with actionNames := names })

def typeOf (type : String) : Gen String := do
  pure (Definitions.typeOf (← get).definitions.types type)

end Gen

end Pathwise
