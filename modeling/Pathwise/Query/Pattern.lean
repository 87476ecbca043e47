import Pathwise.Text.Word

/-!
# Patterns

Patterns over texts.  Repetition takes as much as it can and gives back as far as needed, and of two
alternatives the first one that leads to a match counts, so a pattern that matches at a place does
so in one definite way.
-/

namespace Pathwise

namespace Query

/-- The letters that count as the same as an ASCII letter when case does not matter. -/
def foldLetter (c : Char) : Char :=
  if c.isUpper then c.toLower
  else if c = 'İ' || c = 'ı' then 'i'
  else if c = 'ſ' then 's'
  else if c = 'K' then 'k'
  else c

inductive CharClass where
  /-- the character itself -/
  | exact (c : Char)
  /-- the character in either case -/
  | letter (c : Char)
  /-- one of some characters in either case -/
  | oneOf (cs : List Char)
  /-- letters, digits and underscores of all scripts, and what paths are made of -/
  | pathPart
  /-- letters, digits and underscores of all scripts -/
  | word
  /-- letters, digits and underscores of all scripts, and dashes -/
  | identifier
  | blank
  /-- everything but the end of a line -/
  | any
deriving Repr, Inhabited

namespace CharClass

def has (k : CharClass) (c : Char) : Bool :=
  match k with
  | exact d => c = d
  | letter d => foldLetter c = foldLetter d
  | oneOf ds => ds.any fun d => foldLetter c = foldLetter d
  | pathPart => Text.isWord c || c = '/' || c = '\\' || c = '-'
  | word => Text.isWord c
  | identifier => Text.isWord c || c = '-'
  | blank => Text.isBlank c
  | any => c ≠ '\n'

end CharClass

inductive Pattern where
  | empty
  | one (k : CharClass)
  | many (k : CharClass)
  | seq (p q : Pattern)
  | alt (p q : Pattern)
  | capture (p : Pattern)
deriving Repr, Inhabited

/-- A part of a text: where it begins and where it ends. -/
structure Span where
  start : Nat
  stop : Nat
deriving Repr, DecidableEq, Inhabited

/-- A place in a text, what is behind it, and what was captured before it. -/
structure Cursor where
  position : Nat
  rest : List Char
  captured : Option Span
deriving Repr, Inhabited

namespace Pattern

/-- As many characters of a set as possible, and fewer if that does not lead to a match. -/
def takeMany {β : Type} (k : CharClass) (captured : Option Span) (next : Cursor → Option β) :
    Nat → List Char → Option β
  | position, [] => next ⟨position, [], captured⟩
  | position, c :: cs =>
    if k.has c then
      match takeMany k captured next (position + 1) cs with
      | some r => some r
      | none => next ⟨position, c :: cs, captured⟩
    else next ⟨position, c :: cs, captured⟩

def run {β : Type} : Pattern → Cursor → (Cursor → Option β) → Option β
  | empty, at_, next => next at_
  | one k, at_, next =>
    match at_.rest with
    | c :: cs => if k.has c then next ⟨at_.position + 1, cs, at_.captured⟩ else none
    | [] => none
  | many k, at_, next => takeMany k at_.captured next at_.position at_.rest
  | seq p q, at_, next => p.run at_ fun mid => q.run mid next
  | alt p q, at_, next =>
    match p.run at_ next with
    | some r => some r
    | none => q.run at_ next
  | capture p, at_, next =>
    p.run at_ fun stop => next { stop with captured := some ⟨at_.position, stop.position⟩ }

/-- A match: the part that matches, and the part that was captured in it. -/
structure Found where
  whole : Span
  captured : Option Span
deriving Repr, DecidableEq, Inhabited

def matchAt (p : Pattern) (position : Nat) (rest : List Char) : Option Found :=
  p.run ⟨position, rest, none⟩ fun stop => some ⟨⟨position, stop.position⟩, stop.captured⟩

def findFrom (p : Pattern) (position : Nat) : List Char → Option Found
  | [] => p.matchAt position []
  | c :: cs =>
    match p.matchAt position (c :: cs) with
    | some f => some f
    | none => findFrom p (position + 1) cs

/-- All matches from a place on, each behind the one before; `skip` characters belong to the match
before. -/
def findAllFrom (p : Pattern) (position skip : Nat) : List Char → List Found
  | [] => []
  | c :: cs =>
    match skip with
    | skip + 1 => findAllFrom p (position + 1) skip cs
    | 0 =>
      match p.matchAt position (c :: cs) with
      | some f => f :: findAllFrom p (position + 1) (f.whole.stop - position - 1) cs
      | none => findAllFrom p (position + 1) 0 cs

def Span.text (s : Span) (t : List Char) : String :=
  String.ofList ((t.drop s.start).take (s.stop - s.start))

/-- What a match says: what it captured, or all of it. -/
def Found.value (f : Found) (t : List Char) : String :=
  Span.text (f.captured.getD f.whole) t

def first? (p : Pattern) (t : List Char) : Option String :=
  (p.findFrom 0 t).map (·.value t)

def all (p : Pattern) (t : List Char) : List String :=
  (p.findAllFrom 0 0 t).map (·.value t)

def occursIn (p : Pattern) (t : List Char) : Bool :=
  (p.findFrom 0 t).isSome

/-! ### Building patterns -/

def chain : List Pattern → Pattern
  | [] => empty
  | [p] => p
  | p :: ps => seq p (chain ps)

/-- The first of some patterns that fits. -/
def choice : List Pattern → Pattern
  | [] => empty
  | [p] => p
  | p :: ps => alt p (choice ps)

def optional (p : Pattern) : Pattern := alt p empty

def text (s : String) : Pattern := chain (s.toList.map fun c => one (.letter c))

def exactText (s : String) : Pattern := chain (s.toList.map fun c => one (.exact c))

def many1 (k : CharClass) : Pattern := seq (one k) (many k)

end Pattern

end Query

end Pathwise
