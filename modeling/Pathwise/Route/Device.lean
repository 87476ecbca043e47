import Pathwise.Json.Key
import Pathwise.Json.Shown
import Pathwise.Text.Character

/-!
# Devices

What is read off the names and descriptions of devices: port numbers, addresses and room for tables.
-/

namespace Pathwise

namespace Device

/-- The digits in parentheses at the start of a text, if there are any. -/
def parenthesised? : List Char → Option (List Char)
  | '(' :: cs =>
    let digits := cs.takeWhile Text.isDecimal
    if digits.isEmpty then none
    else match cs.drop digits.length with
      | ')' :: _ => some digits
      | _ => none
  | _ => none

def firstParenthesised? : List Char → Option (List Char)
  | [] => none
  | c :: cs => (parenthesised? (c :: cs)).or (firstParenthesised? cs)

/-- The number of a port: the first digits in parentheses, or the whole text without blanks at its
ends. -/
def portNumber (port : String) : String :=
  match firstParenthesised? port.toList with
  | some digits => String.ofList digits
  | none => Text.trimString port

/-- The first run of digits in a text. -/
def firstNumber? (name : String) : Option String :=
  let digits := (name.toList.dropWhile fun c => !Text.isDecimal c).takeWhile Text.isDecimal
  if digits.isEmpty then none else some (String.ofList digits)

def defaultBase : String := "192.168.0"

/-- The address of a device ends in the first number of its name. -/
def address (name base : String) : String :=
  base ++ "." ++ (firstNumber? name).getD "100"

/-- The room for tables of a device model: it depends on the series. -/
def modelTables (model : Json) : Except Mismatch Nat := do
  if ← model.member "A1000" then pure 8
  else if ← model.member "B1000" then pure 12
  else pure 6

/-- A field of a description, or a value for descriptions without it. -/
def described (j : Json) (k : String) (default : Json) : Except Mismatch Json := do
  pure (((← j.fields "get").lookup k).getD default)

/-- The room for tables of a device, from the descriptions of all devices; only a text names a
description. -/
def tables (device descriptions : Json) : Except Mismatch Nat := do
  let known ← descriptions.fields "get"
  let name := (← device.key).str?
  modelTables (← described ((name.bind fun n => known.lookup n).getD (.obj [])) "设备型号" (.str ""))

/-- A value that has to be a text to be searched. -/
def searchable (j : Json) : Except Mismatch String :=
  match j with
  | .str s => .ok s
  | j => .error (.notSearchable j.kind)

end Device

end Pathwise
