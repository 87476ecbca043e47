import Pathwise.OrderedMap
import Pathwise.Syntax.Tree

/-!
# Packet parsers

A packet parser is a table of states.  A state extracts at most one header, runs some instructions,
and goes on to another state or accepts the packet; which one may depend on a selected value.
-/

namespace Pathwise

namespace PacketParser

/-- The state that parsing begins with. -/
def startName : String := "start"

/-- The target that ends parsing and is no state. -/
def acceptName : String := "accept"

structure State where
  extracted : Option String
  /-- the value that the next state depends on -/
  select : Option Tree
  /-- the headers that are extracted here or in a state that can follow -/
  protocols : List String
  /-- the states that can go on to this one -/
  before : List String
  /-- the next states, each with the value that leads to it -/
  next : OrderedMap String String
  /-- the instructions -/
  body : List Tree
deriving Inhabited

namespace State

/-- A state before anything is known about it. -/
def blank : State := ⟨none, none, [], [], {}, []⟩

end State

abbrev Table := OrderedMap String State

/-- The names and types under which a parser hands over headers and metadata. -/
structure Signature where
  headerType : String
  headerName : String
  metaType : String
  metaName : String
deriving Repr, Inhabited, DecidableEq

end PacketParser

end Pathwise
