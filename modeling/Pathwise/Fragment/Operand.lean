import Pathwise.Fault

/-!
# Operands

The operands of instructions as they stand in generated text.  A variable is written by the name
that was generated for it, a packet attribute by a mark that the target fills in later, an address
as a number.  `Operand.resolve` refuses on the console what it cannot write.
-/

namespace Pathwise

/-- What an operand refers to. -/
inductive OperandKind where
  | var
  | header
  | packet
  | metadata
  | system
  | integer
  | address
deriving Repr, DecidableEq, Inhabited

namespace OperandKind

def name : OperandKind → String
  | .var => "var"
  | header => "hdr"
  | packet => "pkt"
  | metadata => "gmeta"
  | system => "sys_data"
  | integer => "int"
  | address => "ip_data"

end OperandKind

structure Operand where
  text : String
  kind : OperandKind
deriving Repr, DecidableEq, Inhabited

namespace Operand

/-- Whether uses of the operand are recorded with the fragment: variables and header fields are. -/
def isStored (o : Operand) : Bool :=
  o.kind == .var || o.kind == .header

def systemText? : String → Option String
  | "_FALSE" => some "0"
  | "_TRUE" => some "1"
  | "_Next" => some "Next"
  | _ => none

def octet (parts : List String) (i : Nat) : Report Int :=
  match parts[i]? with
  | none => throw .outOfRange
  | some s => match Text.integer s with
    | .ok n => pure n
    | .error e => throw (.notInteger e)

/-- The number that four dotted parts stand for, eight bits each. -/
def addressNumber (parts : List String) : Report Int := do
  let a ← octet parts 0
  let b ← octet parts 1
  let c ← octet parts 2
  let d ← octet parts 3
  pure (((a * 256 + b) * 256 + c) * 256 + d)

/-- A dotted name: a header field, a packet attribute or a metadata field. -/
def resolveField (parts : List String) : Report Operand :=
  match parts with
  | [] => throw (.shape .missingChild)
  | "hdr" :: _ => pure ⟨".".intercalate parts, .header⟩
  | ["pkt", "out_port"] => pure ⟨"LynettePKT.LynetteOutPort", .packet⟩
  | ["pkt", "in_port"] => pure ⟨"LynettePKT.LynetteInPort", .packet⟩
  | ["pkt", _] => Report.halt "error-generate_data pkt what"
  | ["gmeta", f] => pure ⟨"gmeta." ++ f, .metadata⟩
  | "pkt" :: _ => Report.halt "error-generate_data pkt small than 2"
  | "gmeta" :: _ => Report.halt "error-generate_data pkt small than 2"
  | first :: _ => do
    Report.say "generate_data what type? error function 2"
    Report.halt first

/-- The operand that a syntax tree stands for, where `vars` gives the generated names of
variables. -/
def resolve (vars : OrderedMap String String) (t : Tree) : Report Operand := do
  let d ← t.child? 0
  let kind ← d.rule?
  if kind = "name" then
    let name ← d.textAt? [0]
    match vars.find? name with
    | some generated => pure ⟨generated, .var⟩
    | none =>
      Report.say "error-generate_data no find this data"
      Report.halt name
  else if kind = "name_field" then
    let parts ← (← d.children?).mapM fun c => (c.text? : Report String)
    resolveField parts
  else if kind = "sys_data" then
    match systemText? (← d.textAt? [0]) with
    | some text => pure ⟨text, .system⟩
    | none => Report.halt "error-generate_data what sys data"
  else if kind = "int" then
    pure ⟨← d.textAt? [0], .integer⟩
  else if kind = "ip_data" then
    match Text.decimal (← addressNumber ((← d.textAt? [0]).splitOn ".")) with
    | .ok text => pure ⟨text, .address⟩
    | .error e => throw (.notInteger e)
  else
    Report.say "generate_data what type? error function 1"
    Report.halt kind

end Operand

end Pathwise
