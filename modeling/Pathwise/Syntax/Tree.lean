/-!
# Syntax trees

A parsed text is a tree: an inner node carries the name of the rule that derived it, a leaf the text
of a named token.  Punctuation and keywords leave nothing behind.

The later stages walk these trees by position.  A walk can go wrong in four ways, listed in
`ShapeError`, and the partial accessors below say which one.
-/

namespace Pathwise

/-- The result of parsing: leaves are token texts, nodes are rules with what they derived. -/
inductive Tree where
  | leaf (text : String)
  | node (rule : String) (children : List Tree)
deriving Repr, Inhabited, BEq

/-- What can be wrong with a place in a tree that a walk steps on. -/
inductive ShapeError where
  /-- the node has fewer children than the position asked for -/
  | missingChild
  | leafWithoutChildren
  | leafWithoutRule
  | nodeWithoutText
deriving Repr, DecidableEq, Inhabited

namespace ShapeError

def message : ShapeError → String
  | missingChild => "list index out of range"
  | leafWithoutChildren => "'Token' object has no attribute 'children'"
  | leafWithoutRule => "'Token' object has no attribute 'data'"
  | nodeWithoutText => "'Tree' object has no attribute 'value'"

end ShapeError

namespace Tree

def children? : Tree → Except ShapeError (List Tree)
  | leaf _ => .error .leafWithoutChildren
  | node _ cs => .ok cs

def child? (t : Tree) (i : Nat) : Except ShapeError Tree :=
  match t with
  | leaf _ => .error .leafWithoutChildren
  | node _ cs => match cs[i]? with
    | some c => .ok c
    | none => .error .missingChild

/-- The child reached by following several positions one after another. -/
def descend? : Tree → List Nat → Except ShapeError Tree
  | t, [] => .ok t
  | t, i :: path => t.child? i >>= fun c => c.descend? path

def rule? : Tree → Except ShapeError String
  | leaf _ => .error .leafWithoutRule
  | node r _ => .ok r

def text? : Tree → Except ShapeError String
  | leaf s => .ok s
  | node _ _ => .error .nodeWithoutText

/-- The text of the leaf reached by following several positions. -/
def textAt? (t : Tree) (path : List Nat) : Except ShapeError String :=
  t.descend? path >>= text?

end Tree

end Pathwise
