/-!
# Insertion-ordered maps

A map whose keys keep the order in which they were first inserted: replacing the value of a key
leaves the key in its place.  Many answers of this library show that order.  Keys are told apart by
`==`; where keys can be equal without being the same, the key that came first stays.
-/

namespace Pathwise

/-- A map with keys in order of first insertion. -/
structure OrderedMap (κ : Type w) (β : Type u) where
  entries : List (κ × β)
deriving Repr, Inhabited

namespace OrderedMap

variable {κ : Type w} {β : Type u} {γ : Type v}

instance [BEq κ] [BEq β] : BEq (OrderedMap κ β) := ⟨fun m n => m.entries == n.entries⟩

def empty : OrderedMap κ β := ⟨[]⟩

instance : EmptyCollection (OrderedMap κ β) := ⟨empty⟩

/-- Replaces the value of a key in its place, or adds the key at the end. -/
def insertEntry [BEq κ] (k : κ) (v : β) : List (κ × β) → List (κ × β)
  | [] => [(k, v)]
  | (k', v') :: es => if k' == k then (k', v) :: es else (k', v') :: insertEntry k v es

def insert [BEq κ] (m : OrderedMap κ β) (k : κ) (v : β) : OrderedMap κ β :=
  ⟨insertEntry k v m.entries⟩

def find? [BEq κ] (m : OrderedMap κ β) (k : κ) : Option β :=
  (m.entries.find? (·.1 == k)).map (·.2)

def contains [BEq κ] (m : OrderedMap κ β) (k : κ) : Bool :=
  m.entries.any (·.1 == k)

def erase [BEq κ] (m : OrderedMap κ β) (k : κ) : OrderedMap κ β :=
  ⟨m.entries.filter (·.1 != k)⟩

def keys (m : OrderedMap κ β) : List κ :=
  m.entries.map (·.1)

def values (m : OrderedMap κ β) : List β :=
  m.entries.map (·.2)

def size (m : OrderedMap κ β) : Nat :=
  m.entries.length

def isEmpty (m : OrderedMap κ β) : Bool :=
  m.entries.isEmpty

/-- Inserts pairs one after another. -/
def ofList [BEq κ] (es : List (κ × β)) : OrderedMap κ β :=
  es.foldl (fun m e => m.insert e.1 e.2) empty

def insertNew [BEq κ] (m : OrderedMap κ β) (k : κ) (v : β) : OrderedMap κ β :=
  if m.contains k then m else m.insert k v

def modify [BEq κ] (m : OrderedMap κ β) (k : κ) (f : β → β) : OrderedMap κ β :=
  ⟨m.entries.map fun e => if e.1 == k then (e.1, f e.2) else e⟩

def map (f : β → γ) (m : OrderedMap κ β) : OrderedMap κ γ :=
  ⟨m.entries.map fun e => (e.1, f e.2)⟩

end OrderedMap

end Pathwise
