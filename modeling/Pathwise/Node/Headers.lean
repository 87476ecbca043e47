import Pathwise.Draft
import Pathwise.Layout

/-!
# The header file and the deparser of a node

A node declares the headers its parser extracts, the structures with only those headers left in the
header structure, and writes exactly those headers back to packets.
-/

namespace Pathwise

namespace Node

open Drafting (write)

def fieldLines (fs : List (String × String)) : String :=
  String.join (fs.map fun (name, type) => s!"    {type} {name};\n")

def headerText (l : Layout) (headerType header : String) : Drafting Unit := do
  match (← l.struct headerType).find? header with
  | none => throw (.missingKey header)
  | some type =>
    write s!"header {type} \x7b\n"
    match l.headers.find? type with
    | none => throw (.missingKey type)
    | some fs => write (fieldLines fs.entries)
    write "\x7d\n"

def headersText (l : Layout) (headerType : String) (extracted : List String) : Drafting Unit :=
  extracted.forM (headerText l headerType)

def structText (headerType : String) (extracted : List String) (name : String)
    (fs : OrderedMap String String) : String :=
  let fields := if name = headerType then fs.entries.filter fun f => extracted.contains f.1
    else fs.entries
  s!"struct {name} \x7b\n" ++ fieldLines fields ++ "\x7d\n"

def structsText (l : Layout) (headerType : String) (extracted : List String) : String :=
  "\n" ++ String.join (l.structs.entries.map fun (name, fs) =>
    structText headerType extracted name fs)

/-- The headers that are written back, of those that the node extracts. -/
def deparserText (headerName : String) (deparser extracted : List String) : String :=
  "    apply\x7b \n" ++
    String.join ((deparser.filter extracted.contains).map fun h =>
      s!"        pkt.emit({headerName}.{h});\n") ++
    "    \x7d \n"

end Node

end Pathwise
