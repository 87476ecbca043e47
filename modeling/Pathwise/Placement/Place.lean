import Pathwise.Fragment.State
import Pathwise.Placement.Topology

/-!
# Placement

Fragments are placed on the nodes along the path of their service.  Every node takes the first and
the last fragment of the application at hand and, between them, as many of the fragments that are
next in line as its room for tables allows.  When an application has no fragments left, the next
node begins with the next application.
-/

namespace Pathwise

namespace Placement

def fragmentName (stem : String) (number : Int) : String :=
  stem ++ "_" ++ toString number

def lastNumber (relation : OrderedMap String RelationEntry) (stem : String) : Except Fault Int :=
  match relation.find? stem with
  | some (.last n) => .ok n
  | some (.fragment _) => .error (.missingKey (stem ++ "_"))
  | none => .error (.missingKey stem)

def fragment (relation : OrderedMap String RelationEntry) (name : String) : Except Fault Relation :=
  match relation.find? name with
  | some (.fragment r) => .ok r
  | some (.last _) => .error .notAFragment
  | none => .error (.missingKey name)

def cost (relation : OrderedMap String RelationEntry) (name : String) : Except Fault Int := do
  pure (← fragment relation name).tableCount

inductive Room where
  /-- room for a number of tables -/
  | tables (n : Int)
  /-- room for everything -/
  | unlimited
  /-- room for nothing -/
  | none
deriving Repr, DecidableEq, Inhabited

namespace Room

/-- Room as a path file gives it: of a fraction only the whole part counts. -/
def ofJson (tables : Json) : Except Fault Room :=
  match tables with
  | .int n => .ok (.tables n)
  | .bool b => .ok (.tables (if b then 1 else 0))
  | .real (.finite negative m e) =>
    let whole : Int := if 0 ≤ e then (m * Nat.pow 2 e.toNat : Nat)
      else (m / Nat.pow 2 (-e).toNat : Nat)
    let exact := 0 ≤ e || m % Nat.pow 2 (-e).toNat = 0
    .ok (.tables (if negative then (if exact then -whole else -whole - 1) else whole))
  | .real (.infinite false) => .ok .unlimited
  | .real _ => .ok .none
  | j => .error (.mismatch (.operands "-" j.kind "int"))

def toJson : Room → Json
  | tables n => .int n
  | unlimited => .real (.infinite false)
  | none => .real .nan

/-- Whether there is room for `cost` tables. -/
def holds (r : Room) (cost : Int) : Bool :=
  match r with
  | tables n => cost ≤ n
  | unlimited => true
  | none => false

/-- The room that `cost` tables leave. -/
def less (r : Room) (cost : Int) : Room :=
  match r with
  | tables n => tables (n - cost)
  | r => r

end Room

/-- How far the placement of a service has come: the application at hand and the next fragment in
line. -/
structure Progress where
  /-- the position of the application in the service -/
  app : Nat
  /-- what the names of its fragments begin with -/
  stem : String
  /-- the number of its last fragment -/
  last : Int
  /-- the number of the next fragment in line -/
  next : Nat
deriving Repr, Inhabited, DecidableEq

/-- The progress at the start of an application. -/
def Progress.begin (relation : OrderedMap String RelationEntry) (service : String) (app : Nat)
    (name : String) :
    Except Fault Progress := do
  let stem := service ++ "_" ++ name
  pure ⟨app, stem, ← lastNumber relation stem, 1⟩

/-- Takes fragments from number `next` on while there is room; gives the next number and the room
that is left. -/
def fill (cost : Nat → Except Fault Int) (last : Int) (next : Nat) (room : Room) :
    Except Fault (Nat × Room) :=
  if next < last then do
    let c ← cost next
    if room.holds c then fill cost last (next + 1) (room.less c) else pure (next, room)
  else pure (next, room)
termination_by (last - next).toNat

/-- The fragments that a node takes and what is left of its room. -/
structure Share where
  fragments : List String
  room : Room
deriving Repr, Inhabited, DecidableEq

/-- Places fragments on one node with room `tables`. -/
def placeNode (relation : OrderedMap String RelationEntry) (p : Progress) (tables : Json) :
    Except Fault (Share × Progress) := do
  let head := fragmentName p.stem 0
  let tail := fragmentName p.stem p.last
  let headCost ← cost relation head
  let whole ← Room.ofJson tables
  let tailCost ← cost relation tail
  let (next, left) ← fill (fun n => cost relation (fragmentName p.stem n)) p.last p.next
    ((whole.less headCost).less tailCost)
  let middle := (List.range' p.next (next - p.next)).map fun (n : Nat) => fragmentName p.stem n
  pure (⟨head :: middle ++ [tail], left⟩, { p with next := next })

/-- Goes on to the next application if there is one and the one at hand is used up. -/
def advance (relation : OrderedMap String RelationEntry) (s : Service) (p : Progress) :
    Except Fault Progress :=
  if p.next = p.last then
    match s.applications[p.app + 1]? with
    | some name => Progress.begin relation s.name (p.app + 1) name
    | none => pure p
  else pure p

/-- Which fragments every node has, which service each fragment belongs to, and the room that is
left. -/
structure Assignment where
  fragments : OrderedMap String (List String)
  services : OrderedMap String String
  room : OrderedMap String Json
deriving Inhabited

namespace Assignment

def start (t : Topology) : Assignment :=
  ⟨t.map fun _ => [], {}, t.map (·.tables)⟩

def on (a : Assignment) (node : String) : List String :=
  (a.fragments.find? node).getD []

def give (a : Assignment) (service node : String) (share : Share) : Assignment where
  fragments := a.fragments.modify node (· ++ share.fragments)
  services := share.fragments.foldl (fun m f => m.insert f service) a.services
  room := a.room.modify node fun _ => share.room.toJson

end Assignment

def placeAlong (relation : OrderedMap String RelationEntry) (s : Service) :
    List String → Progress → Assignment → Except Fault Assignment
  | [], _, a => pure a
  | node :: nodes, p, a => do
    match a.room.find? node with
    | none => throw (.missingKey node)
    | some tables =>
      let (share, p) ← placeNode relation p tables
      let p ← advance relation s p
      placeAlong relation s nodes p (a.give s.name node share)

def placeService (relation : OrderedMap String RelationEntry) (paths : Paths) (a : Assignment)
    (s : Service) :
    Except Fault Assignment := do
  match paths.find? s.name with
  | none => throw (.missingKey s.name)
  | some nodes =>
    match s.applications with
    | [] => throw .outOfRange
    | name :: _ => placeAlong relation s nodes (← Progress.begin relation s.name 0 name) a

def placeAll (relation : OrderedMap String RelationEntry) (paths : Paths) (t : Topology)
    (services : OrderedMap String Service) :
    Except Fault Assignment :=
  services.values.foldlM (placeService relation paths) (.start t)

/-- The applications of a service of which a node has a part, as far as its first fragment tells. -/
def applicationsOn (a : Assignment) (s : Service) (node : String) : Except Fault (List String) :=
  match a.on node with
  | [] => if s.applications.isEmpty then pure [] else throw .outOfRange
  | first :: _ => pure (s.applications.filter fun app => Json.occursIn app.toList first.toList)

/-- The overview of which node runs which applications, for every service. -/
def overview (a : Assignment) (paths : Paths) (services : OrderedMap String Service) :
    Except Fault Json := do
  let rows ← services.entries.mapM fun (name, s) => do
    match paths.find? name with
    | none => throw (.missingKey name)
    | some nodes =>
      let cells ← nodes.foldlM (fun (m : OrderedMap String Json) node => do
        if m.contains node then pure m
        else pure (m.insert node (.strs (← applicationsOn a s node)))) {}
      pure (name, Json.obj cells.entries)
  pure (.obj rows)

end Placement

end Pathwise
