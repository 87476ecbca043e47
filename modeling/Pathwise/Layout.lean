import Pathwise.Fault
import Pathwise.Language.Headers

/-!
# Field layouts

The packet headers of a project and the structures that hold them, each a list of typed fields.
Named types are replaced by the bit strings they stand for.
-/

namespace Pathwise

structure Layout where
  headers : OrderedMap String (OrderedMap String String)
  structs : OrderedMap String (OrderedMap String String)
deriving Inhabited

namespace Layout

def isBitString (type : String) : Bool :=
  type.startsWith "bit<"

/-- The type of a header field: a bit string, or a name for one. -/
def headerFieldType (types : OrderedMap String String) (type : String) : Report String :=
  if isBitString type then pure type
  else match types.find? type with
    | some t => pure t
    | none => Report.halt s!"error-aggregate_collect_header what type {type}"

/-- The type of a structure field, which may also be a header or a structure declared before. -/
def structFieldType (types : OrderedMap String String) (l : Layout) (type : String) :
    Report String :=
  if isBitString type || l.headers.contains type then pure type
  else match types.find? type with
    | some t => pure t
    | none =>
      if l.structs.contains type then pure type
      else do
        Report.say "error-aggregate_collect_header what type"
        Report.halt type

/-- The name and the fields of a declaration whose name stands under the rule `nameRule`. -/
def fields (nameRule : String) (typeOf : String → Report String) (parts : List Tree) :
    Report (String × OrderedMap String String) :=
  parts.foldlM (fun (name, fs) part => do
    if (← part.rule?) = nameRule then
      pure (← part.textAt? [0], fs)
    else
      let field ← part.textAt? [1]
      let type ← typeOf (← part.textAt? [0])
      pure (name, fs.insert field type)) ("", {})

def addHeader (types : OrderedMap String String) (l : Layout) (t : Tree) : Report Layout := do
  if (← t.rule?) = "header" then
    let (name, fs) ← fields "header_name" (headerFieldType types) (← t.children?)
    pure { l with headers := l.headers.insert name fs }
  else pure l

def addStruct (types : OrderedMap String String) (l : Layout) (t : Tree) : Report Layout := do
  if (← t.rule?) = "struct" then
    let (name, fs) ← fields "struct_name" (structFieldType types l) (← t.children?)
    pure { l with structs := l.structs.insert name fs }
  else pure l

/-- Collects the headers of a file and then its structures. -/
def collect (types : OrderedMap String String) (t : Tree) : Report Layout := do
  let parts ← t.children?
  let l ← parts.foldlM (addHeader types) ⟨{}, {}⟩
  parts.foldlM (addStruct types) l

def struct (l : Layout) (name : String) : Except Fault (OrderedMap String String) :=
  match l.structs.find? name with
  | some fs => .ok fs
  | none => .error (.missingKey name)

end Layout

end Pathwise
