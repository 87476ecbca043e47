import Pathwise.Json.Basic
import Pathwise.Program.Basic

/-!
# Programs as JSON

The form in which programs and their parts are handed over to other tools and taken over from them.
A tree is an array of its rule and its children, and a leaf a text.  Where something is missing in
what is taken over, it is empty.
-/

namespace Pathwise

namespace Json

def textAt (j : Json) (k : String) : String :=
  ((j.field? k).bind str?).getD ""

def arrayAt (j : Json) (k : String) : List Json :=
  ((j.field? k).bind arr?).getD []

def texts (j : Json) : List String :=
  (j.arr?.getD []).filterMap str?

def textsAt (j : Json) (k : String) : List String :=
  (j.arrayAt k).filterMap str?

def pairsAt {β : Type} (j : Json) (k : String) (f : String → Json → β) : OrderedMap String β :=
  .ofList ((j.arrayAt k).filterMap fun
    | .arr [.str name, v] => some (name, f name v)
    | _ => none)

def ofMap {β : Type} (f : β → Json) (m : OrderedMap String β) : Json :=
  .pairs (m.entries.map fun e => (e.1, f e.2))

mutual

/-- How deep arrays and objects lie inside each other. -/
def depth : Json → Nat
  | arr xs => depthList xs + 1
  | obj fs => depthFields fs + 1
  | _ => 0

def depthList : List Json → Nat
  | [] => 0
  | j :: js => max (depth j) (depthList js)

def depthFields : List (String × Json) → Nat
  | [] => 0
  | (_, j) :: fs => max (depth j) (depthFields fs)

end

end Json

namespace Tree

mutual

def toJson : Tree → Json
  | leaf s => .str s
  | node r cs => .arr (.str r :: listToJson cs)

def listToJson : List Tree → List Json
  | [] => []
  | t :: ts => toJson t :: listToJson ts

end

mutual

def ofJson : Json → Tree
  | .str s => leaf s
  | .arr (.str r :: cs) => node r (listOfJson cs)
  | _ => leaf ""

def listOfJson : List Json → List Tree
  | [] => []
  | j :: js => ofJson j :: listOfJson js

end

end Tree

namespace Json

def trees (ts : List Tree) : Json := arr (Tree.listToJson ts)

def treeAt (j : Json) (k : String) : Tree :=
  Tree.ofJson ((j.field? k).getD .null)

def treesAt (j : Json) (k : String) : List Tree :=
  Tree.listOfJson (j.arrayAt k)

end Json

namespace Condition

def toJson (c : Condition) : Json :=
  .obj [("type", .str c.test.name), ("left", .trees c.left), ("right", .trees c.right)]

def ofJson (j : Json) : Condition :=
  ⟨.ofName (j.textAt "type"), j.treesAt "left", j.treesAt "right"⟩

end Condition

namespace Call

def toJson (c : Call) : Json :=
  .obj [("type", .str c.kind), ("call_name", .str c.name), ("call_par", .trees c.args)]

def ofJson (j : Json) : Call :=
  ⟨j.textAt "type" == "ins_call", j.textAt "call_name", j.treesAt "call_par"⟩

end Call

namespace Ins

mutual

def toJson : Ins → Json
  | assign l r => .obj [("type", .str "ins_assign"), ("left", .trees l), ("right1", r.toJson)]
  | arith l a op b =>
    .obj [("type", .str "ins_cul"), ("left", .trees l), ("right1", a.toJson), ("op", .str op),
      ("right2", b.toJson)]
  | call c => c.toJson
  | primitive k as =>
    .obj [("type", .str "primitive"), ("primitive_type", .str k), ("primitive_par", .trees as)]
  | assert cs => .obj [("type", .str "assert"), ("condition", .arr (cs.map Condition.toJson))]
  | branch cs bs e d => .obj ([("type", .str "if"), ("condition", .arr (cs.map Condition.toJson)),
      ("condition_block", .arr (blocksToJson bs))] ++ elseToJson e ++ otherwiseToJson d)
  | switch ks cs fs => .obj [("type", .str "switch"), ("key", .trees ks), ("case", .trees cs),
      ("func", .arr (fs.map Call.toJson))]
  | other k => .obj [("type", .str k)]

def listToJson : List Ins → List Json
  | [] => []
  | i :: is => toJson i :: listToJson is

def blocksToJson : List (List Ins) → List Json
  | [] => []
  | b :: bs => .arr (listToJson b) :: blocksToJson bs

def elseToJson : Option Ins → List (String × Json)
  | none => []
  | some i => [("else_ins", toJson i)]

def otherwiseToJson : Option (List Ins) → List (String × Json)
  | none => []
  | some b => [("default", .arr (listToJson b))]

end

def blockToJson (b : List Ins) : Json := .arr (listToJson b)

/-- The instruction that a value stands for, where `depth` bounds how deep instructions lie inside
each other. -/
def ofJsonTo : Nat → Json → Ins
  | 0, _ => blank
  | depth + 1, j =>
    let block (j : Json) : List Ins := (j.arr?.getD []).map (ofJsonTo depth)
    match j.textAt "type" with
    | "ins_assign" => .assign (j.treesAt "left") (j.treeAt "right1")
    | "ins_cul" => .arith (j.treesAt "left") (j.treeAt "right1") (j.textAt "op") (j.treeAt "right2")
    | "ins_call" => .call (.ofJson j)
    | "func_call" => .call (.ofJson j)
    | "primitive" => .primitive (j.textAt "primitive_type") (j.treesAt "primitive_par")
    | "assert" => .assert ((j.arrayAt "condition").map .ofJson)
    | "if" => .branch ((j.arrayAt "condition").map .ofJson)
        ((j.arrayAt "condition_block").map block)
        ((j.field? "else_ins").map (ofJsonTo depth)) ((j.field? "default").map block)
    | "switch" => .switch (j.treesAt "key") (j.treesAt "case") ((j.arrayAt "func").map .ofJson)
    | k => .other k

def ofJson (j : Json) : Ins := ofJsonTo (j.depth + 1) j

def blockOfJson (j : Json) : List Ins := (j.arr?.getD []).map ofJson

end Ins

namespace Lookup

def toJson (isMap : Bool) (l : Lookup) : Json :=
  .obj ([("name", .str l.name), ("key", .strs l.key)] ++
    (if isMap then [("value", .strs l.value)] else []) ++
    [("size", .str (toString l.size)), ("entry", .arr (l.entries.map Json.strs))])

def ofJson (name : String) (j : Json) : Lookup :=
  ⟨name, j.textsAt "key", j.textsAt "value", defaultSize, (j.arrayAt "entry").map Json.texts⟩

end Lookup

namespace Register

def toJson (r : Register) : Json :=
  .obj [("name", .str r.name), ("type", .str r.type), ("size", .str (toString r.size))]

end Register

def Json.varsAt (j : Json) (k : String) : OrderedMap String String :=
  j.pairsAt k fun _ v => v.str?.getD ""

namespace Module

def toJson (m : Module) : Json :=
  .obj [("name", .str m.name), ("call_type", .strs m.directions), ("call_par", .strs m.params),
    ("call_par_type", .strs m.paramTypes), ("var", .ofMap .str m.vars),
    ("tuple", .ofMap .trees m.tuples),
    ("map", .ofMap (Lookup.toJson true) m.maps), ("set", .ofMap (Lookup.toJson false) m.sets),
    ("reg", .ofMap Register.toJson m.registers), ("ins", Ins.blockToJson m.body),
    ("func", .ofMap Ins.blockToJson m.funcs)]

def ofJson (j : Json) : Module where
  name := j.textAt "name"
  directions := j.textsAt "call_type"
  params := j.textsAt "call_par"
  paramTypes := j.textsAt "call_par_type"
  vars := j.varsAt "var"
  tuples := {}
  maps := j.pairsAt "map" Lookup.ofJson
  sets := j.pairsAt "set" Lookup.ofJson
  registers := {}
  body := (j.arrayAt "ins").map Ins.ofJson
  funcs := j.pairsAt "func" fun _ v => Ins.blockOfJson v

end Module

namespace Application

def toJson (a : Application) : Json :=
  .obj [("name", .str a.name), ("var", .ofMap .str a.vars), ("ins", Ins.blockToJson a.body)]

def ofJson (j : Json) : Application :=
  ⟨j.textAt "name", j.varsAt "var", (j.arrayAt "ins").map Ins.ofJson⟩

end Application

namespace Service

def toJson (s : Service) : Json :=
  .obj [("name", .str s.name), ("application", .strs s.applications)]

def ofJson (j : Json) : Service :=
  ⟨j.textAt "name", j.textsAt "application"⟩

end Service

/-- The parts of a program in the array under a name, by their own names. -/
def Json.namedAt {β : Type} (j : Json) (k : String) (f : Json → β) : OrderedMap String β :=
  .ofList ((j.arrayAt k).map fun v => (v.textAt "name", f v))

namespace Program

def toJson (p : Program) : Json :=
  .obj [("services", .arr (p.services.values.map Service.toJson)),
    ("applications", .arr (p.applications.values.map Application.toJson)),
    ("modules", .arr (p.modules.values.map Module.toJson))]

def ofJson (j : Json) : Program :=
  ⟨j.namedAt "services" Service.ofJson, j.namedAt "applications" Application.ofJson,
    j.namedAt "modules" Module.ofJson⟩

end Program

end Pathwise
