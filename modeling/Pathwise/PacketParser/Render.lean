import Pathwise.Draft
import Pathwise.PacketParser.Prune

/-!
# The text of parser states

Every state becomes a block: the extraction, the instructions, and the transition.  Constants are
replaced by their values.
-/

namespace Pathwise.PacketParser

open Drafting (write)

def dotted (t : Tree) : Except ShapeError String := do
  pure (".".intercalate (← (← t.children?).mapM Tree.text?))

def constantValue (constants : OrderedMap String String) (name : String) : String :=
  (constants.find? name).getD name

/-- One side of an assignment.  `owner` and `kind` are the codes of the two refusals. -/
def side (constants : OrderedMap String String) (sig : Signature) (t : Tree) (owner : String)
    (kind : String → Report Unit) : Drafting Unit := do
  let rule ← t.rule?
  if rule = "name_field" then
    let first ← t.textAt? [0]
    if first = sig.headerName || first = sig.metaName then write (← dotted t)
    else Report.halt owner
  else if rule = "name" then write (constantValue constants (← t.textAt? [0]))
  else kind rule

def instruction (constants : OrderedMap String String) (sig : Signature) (t : Tree) :
    Drafting Unit := do
  let ins ← t.child? 0
  let rule ← ins.rule?
  if rule = "tmp_def" then
    let type ← ins.textAt? [0, 0]
    let name ← ins.textAt? [1, 0]
    write s!"        {type} {name};\n"
  else if rule = "lookahead" then
    let target ← ins.descend? [0, 0]
    let kind ← target.rule?
    if kind = "name" then
      let name ← target.textAt? [0]
      let type ← ins.textAt? [1, 0]
      write s!"        {name} = pkt.lookahead<{type}>();\n"
    else Report.halt s!"error-aggragate_execute what lookahead {kind}"
  else if rule = "advance" then
    write "        pkt.advance("
    let amount ← ins.child? 0
    let kind ← amount.rule?
    if kind = "data" then
      write (constantValue constants (← amount.textAt? [0, 0]))
    else if kind = "data_plus" then
      write (constantValue constants (← amount.textAt? [0, 0, 0]))
      write " * "
      write (← amount.textAt? [1, 0])
    write ");\n"
  else if rule = "assign" then
    write "        "
    let left ← ins.descend? [0, 0]
    let right ← ins.descend? [1, 0]
    side constants sig left "error-aggragate_execute 999" fun _ =>
      Report.halt "error-aggragate_execute 9991"
    write " = "
    side constants sig right "error-aggragate_execute 9992" fun kind => do
      Report.say "error-aggragate_execute 9993"
      Report.halt kind
    write ";\n"
  else Report.halt s!"error-aggragate_execute what ins {rule}"

/-- The value that a transition depends on. -/
def selected (sig : Signature) (t : Tree) : Drafting Unit := do
  let value ← t.child? 0
  let rule ← value.rule?
  if rule = "name_field" then
    let first ← value.textAt? [0]
    if first ≠ sig.headerName && first = "pkt" then
      if (← value.textAt? [1]) = "in_port" then write "im.ingress_port"
      else Report.say "error-aggragate_execute 8888"
    else write (← dotted value)
  else if rule = "aheaddata" then
    let type ← value.textAt? [0]
    write s!"pkt.lookahead<{type}>()"
  else Report.halt s!"error-aggragate_execute select what {rule}"

def transitionText (constants : OrderedMap String String) (sig : Signature) (s : State) :
    Drafting Unit := do
  match s.select with
  | none =>
    write "        transition "
    if s.next.isEmpty then write acceptName else write (String.join s.next.keys)
    write ";\n"
  | some value =>
    write "        transition select("
    selected sig value
    write ") \x7b\n"
    if s.next.isEmpty then write "            default: accept;\n"
    else s.next.entries.forM fun (target, cond) =>
      write s!"            {constantValue constants cond}: {target};\n"
    write "        \x7d\n"

def stateText (constants : OrderedMap String String) (sig : Signature) (name : String) (s : State) :
    Drafting Unit := do
  write s!"    state {name} \x7b\n"
  match s.extracted with
  | some header => write s!"        pkt.extract({sig.headerName}.{header});\n"
  | none => pure ()
  s.body.forM (instruction constants sig)
  transitionText constants sig s
  write "    \x7d\n"

def tableText (constants : OrderedMap String String) (sig : Signature) (t : Table) :
    Drafting Unit :=
  t.entries.forM fun (name, s) => stateText constants sig name s

end Pathwise.PacketParser
