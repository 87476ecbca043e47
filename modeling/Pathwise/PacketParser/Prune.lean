import Pathwise.Fault
import Pathwise.PacketParser.Downstream

/-!
# Pruning a parser for a node

A node that uses only some headers needs only the states on the way to them.  A state is kept if one
of the used headers is extracted in it or downstream of it; the first state is always kept.  A state
that is not kept is taken out of what can follow the states before it.
-/

namespace Pathwise.PacketParser

def isNeeded (used : List String) (name : String) (s : State) : Bool :=
  name = startName || used.any s.protocols.contains

/--
Takes a target out of what can follow a state.  A state that is not in the table is passed over; a
state in the table must have the target.
-/
def detach (target : String) (t : Table) (name : String) : Except Fault Table :=
  match t.find? name with
  | none => .ok t
  | some s =>
    if s.next.contains target then .ok (t.insert name { s with next := s.next.erase target })
    else .error (.missingKey target)

def prune (used : List String) (t : Table) : Except Fault Table :=
  let needed : Table := ⟨t.entries.filter fun e => isNeeded used e.1 e.2⟩
  let others := t.entries.filter fun e => !isNeeded used e.1 e.2
  others.foldlM (fun kept e => e.2.before.foldlM (detach e.1) kept) needed

def extractedHeaders (t : Table) : List String :=
  union [] (t.values.filterMap (·.extracted))

end Pathwise.PacketParser
