/-!
# Parts of a text

A text is taken apart at a separator, and the occurrences of a word in it are replaced.
-/

namespace Pathwise.Text

/-- The parts of a text between separators; `current` is read already, last character first. -/
def partsFrom (separator : Char) (current : List Char) : List Char → List String
  | [] => [String.ofList current.reverse]
  | c :: cs =>
    if c = separator then String.ofList current.reverse :: partsFrom separator [] cs
    else partsFrom separator (c :: current) cs

def parts (separator : Char) (s : String) : List String :=
  partsFrom separator [] s.toList

/--
The parts of a text between the occurrences of a word, from left to right; `current` is read
already, last character first, and `skip` characters belong to an occurrence that was found.
-/
def cutFrom (word current : List Char) (skip : Nat) : List Char → List String
  | [] => [String.ofList current.reverse]
  | c :: cs =>
    match skip with
    | n + 1 => cutFrom word current n cs
    | 0 =>
      if word.isPrefixOf (c :: cs) then
        String.ofList current.reverse :: cutFrom word [] (word.length - 1) cs
      else cutFrom word (c :: current) 0 cs

/-- The parts of a text between the occurrences of a word. -/
def cut (word s : String) : List String :=
  cutFrom word.toList [] 0 s.toList

/-- Replaces a word from left to right; `skip` characters belong to an occurrence that is replaced
already. -/
def replaceFrom (word new : List Char) (skip : Nat) : List Char → List Char
  | [] => []
  | c :: cs =>
    match skip with
    | n + 1 => replaceFrom word new n cs
    | 0 =>
      if word.isPrefixOf (c :: cs) then new ++ replaceFrom word new (word.length - 1) cs
      else c :: replaceFrom word new 0 cs

def replace (word new s : String) : String :=
  String.ofList (replaceFrom word.toList new.toList 0 s.toList)

end Pathwise.Text
