import Pathwise.PacketParser.Basic

/-!
# Headers downstream of a state

For every state, the headers that are extracted in it or in some state that can follow.  They are
found by going through the table again and again, each state taking over what its next states know,
until a pass changes nothing.  A pass that changes something adds a header to a state that did not
know it, so there are at most as many such passes as there are pairs of states.
-/

namespace Pathwise.PacketParser

/-- Adds the members of the second list that are not in the first one, in their order. -/
def union (known new : List String) : List String :=
  new.foldl (fun acc p => if acc.contains p then acc else acc ++ [p]) known

def State.targets (s : State) : List String :=
  s.next.keys.filter (· ≠ acceptName)

/-- What is known about the headers downstream of a state. -/
def known (t : Table) (name : String) : List String :=
  match t.find? name with
  | some s => s.protocols
  | none => []

/-- A state takes over what its next states know. -/
def absorb (t : Table) (name : String) : Table :=
  match t.find? name with
  | none => t
  | some s =>
    let ps := s.targets.foldl (fun ps target =>
      union ps (if target = name then ps else known t target)) s.protocols
    t.insert name { s with protocols := ps }

def pass (t : Table) : Table :=
  t.keys.foldl absorb t

/-- How many headers all states know of together. -/
def knowledge (t : Table) : Nat :=
  (t.values.map (·.protocols.length)).foldr (· + ·) 0

/-- Passes until nothing changes, at most `n` that change something. -/
def passes : Nat → Table → Table
  | 0, t => t
  | n + 1, t =>
    let t' := pass t
    if knowledge t' = knowledge t then t' else passes n t'

/-- Every state knows at least the header it extracts. -/
def seed (t : Table) : Table :=
  t.map fun s => { s with protocols := s.extracted.toList }

def downstream (t : Table) : Table :=
  passes (t.size * t.size) (seed t)

/-- Fills in, for every state, the states that can go on to it. -/
def linkBack (t : Table) : Table :=
  t.entries.foldl (fun acc (name, s) =>
    s.targets.foldl (fun acc target =>
      acc.modify target fun s' => { s' with before := s'.before ++ [name] }) acc) t

/-- The first target that no state has the name of. -/
def danglingTarget? (t : Table) : Option String :=
  (t.values.flatMap State.targets).find? fun target => !t.contains target

end Pathwise.PacketParser
