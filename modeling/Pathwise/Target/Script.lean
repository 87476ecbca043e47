import Pathwise.Draft

/-!
# Entry scripts of hardware switches

A hardware switch gets its table entries as a script: one call per entry, with the match values and
the parameters as arguments.
-/

namespace Pathwise

namespace Script

open Drafting (write)

def fourDigits (group : String) : String :=
  String.ofList (List.replicate (4 - group.length) '0') ++ group

/-- Groups of hexadecimal digits as one number: all groups but the first have four digits. -/
def hexLiteral : List String → String
  | [] => "0x"
  | first :: groups => "0x" ++ first ++ String.join (groups.map fourDigits)

/-- A match value: dotted addresses stand in quotes, and an address with colons is one number. -/
def matchText (value : String) : String :=
  let value := if value.contains '.' then "\"" ++ value ++ "\"" else value
  if value.contains ':' then hexLiteral (Text.parts ':' value) else value

def matchValue (value : Json) : Except Mismatch Json :=
  match value with
  | .str s => .ok (.str (matchText s))
  | .arr xs =>
    if xs.any (· == .str ".") then .error (.concatenation "list")
    else if xs.any (· == .str ":") then .error (.noOperation "list" "split")
    else .ok value
  | .obj fs =>
    if fs.any (·.1 = ".") then .error (.concatenation "dict")
    else if fs.any (·.1 = ":") then .error (.noOperation "dict" "split")
    else .ok value
  | j => .error (.noMembers j.kind)

/-- The name of a match field without the header it belongs to. -/
def fieldName (key : String) : String :=
  (Text.parts '.' key).getLastD key

/-- Writes a value that has to be a text. -/
def writeText (j : Json) : Drafting Unit :=
  match j with
  | .str s => write s
  | j => throw (.mismatch (.notText "write() argument" j.kind))

def matchFields (table : Json) : Bool → List Json → Drafting Unit
  | _, [] => pure ()
  | isFirst, key :: keys => do
    if !isFirst then write ", "
    let value ← (← table.part key).nth 0
    let value ← matchValue value
    match key with
    | .str k => write (fieldName k)
    | j => throw (.mismatch (.noMembers j.kind))
    write " = "
    writeText value
    matchFields table false keys

def params (table : Json) : Nat → List Json → Drafting Unit
  | _, [] => pure ()
  | n, key :: keys => do
    write ", "
    let value ← (← table.part key).nth 0
    write s!"value_{n} = "
    writeText value
    params table (n + 1) keys

def entry (node : String) (e : Json) : Drafting Unit := do
  write s!"bfrt.{node}.pipe.LynetteIngress."
  writeText (← e.get "table")
  write ".add_with_"
  writeText (← e.get "action_name")
  write "("
  let keys ← e.get "match"
  matchFields keys true (← keys.items)
  let values ← e.get "action_params"
  params values 0 (← values.items)
  write ")\n"

def entries (node : String) (file : Json) : Drafting Unit := do
  (← (← file.get "entries").items).forM (entry node)

end Script

end Pathwise
