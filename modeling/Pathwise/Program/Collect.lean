import Pathwise.Fault
import Pathwise.Program.Basic

/-!
# From syntax trees to programs

`Program.collect` walks the trees of a set of files and gathers services, applications and modules;
the first definition of a name counts.  A construct that has no place is refused on the console
(`CollectError`), and the run stops.
-/

namespace Pathwise

/-- A construct in a place where it is not understood. -/
inductive CollectError where
  | statement (kind : String)
  | condition (kind : String)
  | branchPart (kind : String)
  | applicationDefinition (kind : String)
  | applicationStatement (kind : String)
  | switchCall
  | switchPart (kind : String)
  | setPart (kind : String)
  | mapPart (kind : String)
  | moduleDefinition (kind : String)
  | moduleStatement (kind : String)
  | modulePart (kind : String)
  | component (kind : String)
deriving Repr, DecidableEq, Inhabited

namespace CollectError

def message : CollectError → String
  | statement k => s!"?-collect.py-collect_code_body-ins_type {k}"
  | condition k => s!"?-collect.py-collect_condition {k}"
  | branchPart k => s!"?-collect.py-collect_if {k}"
  | applicationDefinition k => s!"?-collect.py-collect_app-define_type {k}"
  | applicationStatement k => s!"?-collect.py-collect_app-ins_type {k}"
  | switchCall => "?-collect.py-collect_switch call what?"
  | switchPart k => s!"?-collect.py-collect_switch {k}"
  | setPart k => s!"?-collect.py-collect_module-define-set {k}"
  | mapPart k => s!"?-collect.py-collect_module-define-map {k}"
  | moduleDefinition k => s!"?-collect.py-collect_module-define {k}"
  | moduleStatement k => s!"?-collect.py-collect_module-control {k}"
  | modulePart k => s!"?-collect.py-collect_module {k}"
  | component k => s!"?-collect.py-execute {k}"

end CollectError

namespace Collect

def refuse {α : Type} (e : CollectError) : Report α :=
  Report.halt e.message

/-! ### Simple instructions -/

def assign (t : Tree) : Report Ins := do
  let left ← t.child? 0
  let targets ← left.children?
  let source ← t.descend? [1, 0]
  pure (.assign targets source)

def arith (t : Tree) : Report Ins := do
  let target ← t.child? 0
  let left ← t.child? 1
  let op ← t.textAt? [2]
  let right ← t.child? 3
  pure (.arith [target] left op right)

/-- A call: the first child is the name, the second, if there is one, holds the arguments. -/
def call (isApply : Bool) (t : Tree) : Report Call := do
  let name ← t.textAt? [0]
  match ← t.children? with
  | _ :: args :: _ => pure ⟨isApply, name, ← args.children?⟩
  | _ => pure ⟨isApply, name, []⟩

/-- A primitive with its operands; one that is not known is reported and kept without operands. -/
def primitive (t : Tree) : Report Ins := do
  let p ← t.child? 0
  let kind ← p.rule?
  if kind = "addheader" || kind = "removeheader" || kind = "headercompress" then
    pure (.primitive kind [← p.child? 0])
  else if kind = "updatechecksum" then
    pure (.primitive kind (← p.children?))
  else if kind = "drop" || kind = "return" || kind = "nop" then
    pure (.primitive kind [])
  else
    Report.say s!"?-collect.py-collect_primitive {kind}"
    pure (.primitive kind [])

/-! ### Conditions -/

def conditionPart (c : Condition) (t : Tree) : Report Condition := do
  let kind ← t.rule?
  if kind = "compare" then
    let cmp ← t.child? 0
    let test ← cmp.rule?
    let left ← cmp.child? 0
    let right ← cmp.child? 1
    pure ⟨.ofName test, c.left ++ [left], c.right ++ [right]⟩
  else if kind = "isvalid" then
    pure ⟨.valid, c.left ++ [← t.child? 0], c.right⟩
  else if kind = "check" then
    let keys ← t.child? 0
    let left ← keys.children?
    let right ← t.descend? [1, 0]
    pure ⟨.member, c.left ++ left, c.right ++ [right]⟩
  else refuse (.condition kind)

def condition (t : Tree) : Report Condition := do
  (← t.children?).foldlM conditionPart ⟨.other "", [], []⟩

def assert (t : Tree) : Report Ins := do
  pure (.assert (← (← t.children?).mapM condition))

/-! ### Blocks and branches -/

/-- An instruction of a block that has no blocks of its own. -/
def leafStatement (kind : String) (t : Tree) : Report Ins :=
  if kind = "ins_assign" then assign t
  else if kind = "ins_call" then do pure (.call (← call true t))
  else if kind = "primitive" then primitive t
  else if kind = "ins_cul" then arith t
  else refuse (.statement kind)

/-- What was collected of an if: conditions, blocks, the `else if` and the `else` part. -/
structure BranchParts where
  conditions : List Condition
  blocks : List (List Ins)
  elseIf : Option Ins
  otherwise : Option (List Ins)
deriving Inhabited

mutual

/-- The instructions of a code body. -/
def block : Tree → Report (List Ins)
  | .leaf _ => throw (.shape .leafWithoutChildren)
  | .node _ cs => statements cs

/-- The instructions among the children of a code body; other children are skipped. -/
def statements : List Tree → Report (List Ins)
  | [] => pure []
  | .leaf _ :: _ => throw (.shape .leafWithoutRule)
  | .node r cs :: ts =>
    if r = "instruction" then
      match cs with
      | [] => throw (.shape .missingChild)
      | .leaf _ :: _ => throw (.shape .leafWithoutRule)
      | .node kind parts :: _ => do
        let i ←
          if kind = "if" then do
            let b ← branchParts ⟨[], [], none, none⟩ parts
            pure (Ins.branch b.conditions b.blocks b.elseIf b.otherwise)
          else leafStatement kind (.node kind parts)
        let rest ← statements ts
        pure (i :: rest)
    else statements ts

def branchParts (acc : BranchParts) : List Tree → Report BranchParts
  | [] => pure acc
  | .leaf _ :: _ => throw (.shape .leafWithoutRule)
  | .node r cs :: ts =>
    if r = "if_block" then
      match cs with
      | [] => throw (.shape .missingChild)
      | c :: rest => do
        let cond ← condition c
        match rest with
        | [] => throw (.shape .missingChild)
        | body :: _ =>
          let b ← block body
          branchParts { acc with
            conditions := acc.conditions ++ [cond], blocks := acc.blocks ++ [b] } ts
    else if r = "else_block" then
      match cs with
      | [] => throw (.shape .missingChild)
      | .leaf _ :: _ => throw (.shape .leafWithoutRule)
      | .node kind parts :: _ =>
        if kind = "else" then
          match parts with
          | [] => throw (.shape .missingChild)
          | body :: _ => do
            let b ← block body
            branchParts { acc with otherwise := some b } ts
        else do
          let b ← branchParts ⟨[], [], none, none⟩ parts
          branchParts { acc with
            elseIf := some (.branch b.conditions b.blocks b.elseIf b.otherwise) } ts
    else refuse (.branchPart r)

end

def branch (t : Tree) : Report Ins := do
  let b ← branchParts ⟨[], [], none, none⟩ (← t.children?)
  pure (.branch b.conditions b.blocks b.elseIf b.otherwise)

/-! ### Switches -/

/-- Adds one part of a switch: its keys, or a case with its call. -/
def switchPart (acc : List Tree × List Tree × List Call) (t : Tree) :
    Report (List Tree × List Tree × List Call) := do
  let (keys, cases, calls) := acc
  let kind ← t.rule?
  if kind = "switch_key" then
    pure (keys ++ (← t.children?), cases, calls)
  else if kind = "switch_item" then
    let case ← t.child? 0
    let target ← t.child? 1
    let word ← target.rule?
    if word = "func_call" then
      pure (keys, cases ++ [case], calls ++ [← call false target])
    else if word = "ins_call" then
      pure (keys, cases ++ [case], calls ++ [← call true target])
    else refuse .switchCall
  else refuse (.switchPart kind)

def switch (t : Tree) : Report Ins := do
  let (keys, cases, calls) ← (← t.children?).foldlM switchPart ([], [], [])
  pure (.switch keys cases calls)

/-! ### Services and applications -/

def service (t : Tree) : Report Service := do
  let name ← t.textAt? [0]
  let chain ← t.child? 1
  let apps ← (← chain.children?).mapM fun a => (a.text? : Report String)
  pure ⟨name, apps⟩

/-- Adds the definition of a variable; the first definition of a name counts. -/
def declaration (vars : OrderedMap String String) (t : Tree) :
    Report (OrderedMap String String) := do
  let type ← t.textAt? [0]
  let name ← t.textAt? [1]
  pure (vars.insertNew name type)

def applicationStatement (a : Application) (node : Tree) : Report Application := do
  let t ← node.child? 0
  let kind ← t.rule?
  if kind = "define" then
    let d ← t.child? 0
    let what ← d.rule?
    if what = "ins_define_var" then
      pure { a with vars := ← declaration a.vars d }
    else refuse (.applicationDefinition what)
  else if kind = "ins_assign" then pure { a with body := a.body ++ [← assign t] }
  else if kind = "ins_call" then pure { a with body := a.body ++ [.call (← call true t)] }
  else if kind = "if" then pure { a with body := a.body ++ [← branch t] }
  else if kind = "primitive" then pure { a with body := a.body ++ [← primitive t] }
  else refuse (.applicationStatement kind)

/-- An application; a clause between its name and its body is skipped. -/
def application (t : Tree) : Report Application := do
  let name ← t.textAt? [0]
  let cs ← t.children?
  let body ← if 2 < cs.length then t.child? 2 else t.child? 1
  (← body.children?).foldlM applicationStatement ⟨name, {}, []⟩

/-! ### Modules -/

def number (text : String) : Report Int :=
  match Text.integer text with
  | .ok n => pure n
  | .error e => throw (.notInteger e)

def entryRows (t : Tree) : Report (List (List String)) := do
  (← t.children?).mapM fun row => do
    (← row.children?).mapM fun d => (d.textAt? [0, 0] : Report String)

def columnTypes (t : Tree) : Report (List String) := do
  (← t.children?).mapM fun c => (c.text? : Report String)

def setPart (s : Lookup) (t : Tree) : Report Lookup := do
  let kind ← t.rule?
  if kind = "set_name" then pure { s with name := ← t.textAt? [0] }
  else if kind = "set_key" then pure { s with key := s.key ++ (← columnTypes t) }
  else if kind = "entry" then pure { s with entries := overwrite s.entries (← entryRows t) }
  else refuse (.setPart kind)
where
  /-- rows are numbered from zero in each list of entries, so a later list replaces the rows it
  reaches -/
  overwrite (old new : List (List String)) : List (List String) := new ++ old.drop new.length

def mapPart (m : Lookup) (t : Tree) : Report Lookup := do
  let kind ← t.rule?
  if kind = "map_name" then pure { m with name := ← t.textAt? [0] }
  else if kind = "map_key" then pure { m with key := m.key ++ (← columnTypes t) }
  else if kind = "map_value" then pure { m with value := m.value ++ (← columnTypes t) }
  else if kind = "map_len" then pure { m with size := ← number (← t.textAt? [0, 0]) }
  else if kind = "entry" then pure { m with entries := setPart.overwrite m.entries (← entryRows t) }
  else refuse (.mapPart kind)

/-- A register; without a size it has the usual one. -/
def register (t : Tree) : Report Register := do
  let type ← t.textAt? [0]
  let name ← t.textAt? [1]
  let cs ← t.children?
  let size ← if 2 < cs.length then do number (← t.textAt? [2]) else pure defaultSize
  pure ⟨name, type, size⟩

/-- Adds one definition of a module; of two tables, registers or functions of one name the last
counts. -/
def moduleDefinition (m : Module) (t : Tree) : Report Module := do
  let what ← t.rule?
  if what = "tuple" then
    let name ← t.textAt? [0]
    let items ← t.child? 1
    pure { m with tuples := m.tuples.insert name (← items.children?) }
  else if what = "set" then
    let s ← (← t.children?).foldlM setPart ⟨defaultName, [], [], defaultSize, []⟩
    pure { m with sets := m.sets.insert s.name s }
  else if what = "map" then
    let l ← (← t.children?).foldlM mapPart ⟨defaultName, [], [], defaultSize, []⟩
    pure { m with maps := m.maps.insert l.name l }
  else if what = "func" then
    let body ← t.child? 1
    let b ← block body
    let name ← t.textAt? [0]
    pure { m with funcs := m.funcs.insert name b }
  else if what = "ins_define_var" then pure { m with vars := ← declaration m.vars t }
  else if what = "reg" then
    let r ← register t
    pure { m with registers := m.registers.insert r.name r }
  else refuse (.moduleDefinition what)

def moduleStatement (m : Module) (node : Tree) : Report Module := do
  let t ← node.child? 0
  let kind ← t.rule?
  let add (i : Ins) : Module := { m with body := m.body ++ [i] }
  if kind = "assert" then return add (← assert t)
  else if kind = "define" then moduleDefinition m (← t.child? 0)
  else if kind = "switch" then return add (← switch t)
  else if kind = "if" then return add (← branch t)
  else if kind = "ins_assign" then return add (← assign t)
  else if kind = "ins_call" then return add (.call (← call true t))
  else if kind = "ins_cul" then return add (← arith t)
  else if kind = "primitive" then return add (← primitive t)
  else if kind = "annotation" || kind = "ins_null" then return m
  else refuse (.moduleStatement kind)

/-- Adds one parameter of a module: direction, type and name. -/
def moduleParam (m : Module) (t : Tree) : Report Module := do
  let direction ← t.textAt? [0]
  let type ← t.textAt? [1]
  let name ← t.textAt? [2, 0, 0]
  pure { m with
    directions := m.directions ++ [direction]
    params := m.params ++ [name]
    paramTypes := m.paramTypes ++ [type] }

def modulePart (m : Module) (t : Tree) : Report Module := do
  let kind ← t.rule?
  if kind = "module_name" || kind = "parser" || kind = "module_parser" then pure m
  else if kind = "control" then
    let body ← t.child? 0
    (← body.children?).foldlM moduleStatement m
  else if kind = "module_pars" then (← t.children?).foldlM moduleParam m
  else refuse (.modulePart kind)

def module (t : Tree) : Report Module := do
  let name ← t.textAt? [0, 0]
  (← t.children?).foldlM modulePart (.named name)

end Collect

namespace Program

/-- Adds one service, application or module; the first definition of a name counts. -/
def addComponent (p : Program) (t : Tree) : Report Program := do
  let kind ← t.rule?
  if kind = "service" then
    let s ← Collect.service t
    pure { p with services := p.services.insertNew s.name s }
  else if kind = "application" then
    let a ← Collect.application t
    pure { p with applications := p.applications.insertNew a.name a }
  else if kind = "module" then
    let m ← Collect.module t
    pure { p with modules := p.modules.insertNew m.name m }
  else Collect.refuse (.component kind)

def addFile (p : Program) (t : Tree) : Report Program := do
  (← t.children?).foldlM (fun p part => do
    if (← part.rule?) = "code" then (← part.children?).foldlM addComponent p else pure p) p

def gather (files : List Tree) : Report Program :=
  files.foldlM addFile empty

/-- Gathers the definitions of a list of files, announced on the console. -/
def collect (files : List Tree) : Report Program := do
  Report.say "collect..."
  gather files

end Program

end Pathwise
