import Pathwise.Fault

/-!
# Quotation marks

The grammar knows file names between marks `>-<` instead of quotation marks.  Program files are
brought into that form before they are parsed; files that stay with the user are brought back
afterwards.  Marks come in pairs, so a text with an odd number of them is refused.
-/

namespace Pathwise

namespace Quotation

/-- What stands for a quotation mark. -/
def mark : String := ">-<"

/-- The parts of a text between separators, for an even number of separators. -/
def pairedParts (separator text : String) : Except Fault (List String) :=
  let parts := Text.cut separator text
  if parts.length % 2 = 1 then .ok parts else .error .outOfRange

def hide (text : String) : Except Fault String := do
  pure (mark.intercalate (← pairedParts "\"" text))

def restore (text : String) : Except Fault String := do
  pure ("\"".intercalate (← pairedParts mark text))

/-- Joins parts with opening and closing brackets in turn. -/
def bracketParts : List String → String
  | [] => ""
  | [a] => a
  | a :: b :: rest => a ++ "<" ++ b ++ ">" ++ bracketParts rest

def bracket (text : String) : Except Fault String := do
  pure (bracketParts (← pairedParts "\"" text))

end Quotation

end Pathwise
