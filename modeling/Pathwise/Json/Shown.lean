import Pathwise.Json.Basic
import Pathwise.Text.Quoted

/-!
# Showing JSON values in messages

In a message a value stands in a notation of its own: texts in quotes, `None`, `True` and `False`
for the three constants, brackets and braces for arrays and objects.  A text that stands alone is
shown as it is.
-/

namespace Pathwise.Json

mutual

def shown : Json → String
  | null => "None"
  | bool true => "True"
  | bool false => "False"
  | int n => toString n
  | real .nan => "nan"
  | real (.infinite false) => "inf"
  | real (.infinite true) => "-inf"
  | real x => x.toText
  | str s => Text.quote s
  | arr xs => "[" ++ shownItems xs ++ "]"
  | obj fs => "\x7b" ++ shownFields fs ++ "\x7d"

def shownItems : List Json → String
  | [] => ""
  | [j] => shown j
  | j :: js => shown j ++ ", " ++ shownItems js

def shownFields : List (String × Json) → String
  | [] => ""
  | [(k, j)] => Text.quote k ++ ": " ++ shown j
  | (k, j) :: fs => Text.quote k ++ ": " ++ shown j ++ ", " ++ shownFields fs

end

def text : Json → String
  | str s => s
  | j => shown j

end Pathwise.Json
