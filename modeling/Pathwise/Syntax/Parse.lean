import Pathwise.Syntax.Chart

/-!
# Parsing

`Grammar.parse` reads a whole text.  A text that does not derive from the start rule is refused at
the last offset that reading could reach: at the end of the text, or at the character that stands
there.
-/

namespace Pathwise

inductive SyntaxError where
  /-- the text ends too early -/
  | unexpectedEnd
  /-- no expected token stands at the character; line and column count from one -/
  | unexpectedChar (char : Char) (line column : Nat)
deriving Repr, DecidableEq, Inhabited

namespace SyntaxError

/-- Line and column behind a text, counted from one.  Only a line feed ends a line. -/
def position (front : List Char) : Nat × Nat :=
  front.foldl (fun (l, c) ch => if ch = '\n' then (l + 1, 1) else (l, c + 1)) (1, 1)

def message : SyntaxError → String
  | unexpectedEnd => "Unexpected end-of-input. Expected one of: "
  | unexpectedChar ch l c =>
    s!"No terminal matches '{ch}' in the current parser context, at line {l} col {c}"

end SyntaxError

namespace Grammar

/-- The remaining text at every offset. -/
def tailsOf : List Char → List (List Char)
  | [] => [[]]
  | c :: cs => (c :: cs) :: tailsOf cs

/-- The error for a text whose reading comes no further than `offset`. -/
def errorAt (text : List Char) (offset : Nat) : SyntaxError :=
  match text[offset]? with
  | none => .unexpectedEnd
  | some ch =>
    let (l, c) := SyntaxError.position (text.take offset)
    .unexpectedChar ch l c

def parse (g : Grammar) (text : String) : Except SyntaxError Tree :=
  let cs := text.toList
  let ch := (Chart.fill g cs).chart
  let first := Chart.gapLength cs
  let depth := (g.rules.size + 1) * (cs.length + 2)
  match Chart.derive g ch (tailsOf cs).toArray depth startRule first cs.length with
  | some [t] => .ok t
  | _ => .error (errorAt cs ch.reach)

end Grammar

end Pathwise
