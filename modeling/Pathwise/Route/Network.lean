import Pathwise.OrderedMap

/-!
# Networks

Devices and the links between them.  A link goes one way and leaves its device by a port; a later
link between the same two devices replaces an earlier one.  `Network.route` finds a shortest way by
going through the network breadth first.  Looking at the links of a device brings an entry for it
into being, and the entry stays.

Devices are told apart by `==`, and a device goes by the name under which it was first met.
-/

namespace Pathwise

/-- Devices `δ`, and for each of them the ports `π` that lead to its neighbours. -/
structure Network (δ π : Type) where
  links : OrderedMap δ (OrderedMap δ π)
  devices : List δ
deriving Inhabited

namespace Network

variable {δ π : Type} [BEq δ]

omit [BEq δ] in
def empty : Network δ π := ⟨{}, []⟩

def addDevice (devices : List δ) (d : δ) : List δ :=
  if devices.contains d then devices else devices ++ [d]

def ports (n : Network δ π) (device : δ) : OrderedMap δ π :=
  (n.links.find? device).getD {}

def neighbours (n : Network δ π) (device : δ) : List δ :=
  (n.ports device).keys

def addLink (n : Network δ π) (source target : δ) (port : π) : Network δ π where
  links := n.links.insert source ((n.ports source).insert target port)
  devices := addDevice (addDevice n.devices source) target

def touch (n : Network δ π) (device : δ) : Network δ π :=
  { n with links := n.links.insertNew device {} }

def fresh (seen neighbours : List δ) : List δ :=
  neighbours.filter fun d => !seen.contains d

/--
Goes through the network breadth first.  The queue holds the ways to devices that are still to be
looked at, each with the device at its end, and `seen` the devices that were in the queue at some
time; `steps` bounds how many devices are looked at.
-/
def search (goal : δ) : Nat → List (δ × List δ) → List δ → Network δ π →
    Network δ π × Option (List δ)
  | 0, _, _, n => (n, none)
  | _, [], _, n => (n, none)
  | steps + 1, (here, way) :: queue, seen, n =>
    let n := n.touch here
    let around := n.neighbours here
    match around.find? (· == goal) with
    | some last => (n, some (way ++ [last]))
    | none =>
      let new := fresh seen around
      search goal steps (queue ++ new.map fun d => (d, way ++ [d])) (seen ++ new) n

/-- A shortest way between two devices. -/
def route (n : Network δ π) (start goal : δ) : Network δ π × Option (List δ) :=
  if n.devices.contains start && n.devices.contains goal then
    if start == goal then (n, some [start])
    else search goal n.devices.length [(start, [start])] [start] n
  else (n, none)

def port (n : Network δ π) (source target : δ) : Network δ π × Option π :=
  let n := n.touch source
  (n, (n.ports source).find? target)

end Network

end Pathwise
