/-!
# Lines and bytes

Texts are read with one kind of line end, a line feed: a carriage return, with or without a line
feed behind it, is read as one.  They are sent and received as bytes, in the encoding UTF-8.
-/

namespace Pathwise.Text

def unifyLineEndChars : List Char → List Char
  | [] => []
  | '\r' :: '\n' :: cs => '\n' :: unifyLineEndChars cs
  | '\r' :: cs => '\n' :: unifyLineEndChars cs
  | c :: cs => c :: unifyLineEndChars cs

def unifyLineEnds (s : String) : String :=
  if s.toList.contains '\r' then String.ofList (unifyLineEndChars s.toList) else s

/-- The lines of a text, each with its line end if it has one; `current` is read already, last
character first. -/
def linesFrom (current : List Char) : List Char → List String
  | [] => if current.isEmpty then [] else [String.ofList current.reverse]
  | c :: cs =>
    if c = '\n' then String.ofList (('\n' :: current).reverse) :: linesFrom [] cs
    else linesFrom (c :: current) cs

def lines (s : String) : List String :=
  linesFrom [] s.toList

def bytes (s : String) : List UInt8 := s.toUTF8.toList

def ofBytes? (b : List UInt8) : Option String := String.fromUTF8? ⟨b.toArray⟩

end Pathwise.Text
