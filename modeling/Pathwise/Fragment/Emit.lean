import Pathwise.Fragment.Fit

/-!
# Emitting instructions

How conditions, calls, tables and blocks are written.  Blocks of other modules and functions are
generated by the parameter `run`, so that the recursion here follows the instructions themselves;
`Fragment.Generate` ties the knot.
-/

namespace Pathwise

/-- A block that is generated in a scope of its own. -/
structure Job where
  scope : Scope
  site : Site
  body : List Ins
deriving Inhabited

namespace Emit

/-! ### Conditions -/

def flagAction (site : Site) (table flag : String) (value : Bool) : Gen String := do
  let action ← Gen.drawAction table
  Gen.emit (site.key .action) [.actionHead action, .actionBody, .setFlag flag value, .blockClose]
  pure action

/-- A membership test: a table sets a flag, and the flag is tested. -/
def membership (sc : Scope) (site : Site) (c : Condition) : Gen Unit := do
  let frag := site.fragment
  let right ← (firstOf c.right : Report Tree)
  let name ← (tableNameOf right : Report String)
  let rows ← match (sc.maps.find? name).orElse fun _ => sc.sets.find? name with
    | some t => pure t.entries
    | none => Report.halt "error-generate_condition check what"
  let table ← Gen.drawTable (sc.stem ++ "_" ++ name)
  Gen.recordTable frag
  let flag := table ++ "_data"
  Gen.emit (site.key .temp) [.declare "bit<1>" flag]
  let hit ← flagAction site table flag true
  let miss ← flagAction site table flag false
  Gen.emit (site.key .table) [.tableHead table, .keysOpen]
  let keys ← c.left.mapM fun t => do
    Gen.emit (site.key .table) [.keyMargin]
    let o ← operand .write sc (site.key .table) t
    Gen.recordInput frag o.text
    Gen.emit (site.key .table) [.keyEnd]
    pure o.text
  Gen.emit (site.key .table) [.sectionClose, .actionsOpen, .actionName hit, .actionName miss,
    .sectionClose, .defaultAction miss, .blockClose]
  Gen.emit (site.key .entry) []
  for row in rows do
    let e ← rowEntry table miss keys row
    Gen.emit (site.key .entry) [.entry { e with params := [] }]
  Gen.emit (site.key .control) [.indent site.level, .apply table, .indent site.level, .ifFlag flag]

def recordCompared (frag : String) (o : Operand) : Gen Unit :=
  if o.kind == .header || o.kind == .packet || o.kind == .var then
    Gen.recordInput frag o.text else pure ()

def comparison (sc : Scope) (site : Site) (cmp : Comparison) (c : Condition) : Gen Unit := do
  let k := site.key .control
  Gen.emit k [.indent site.level, .ifOpen]
  let o ← operand .write sc k (← (firstOf c.left : Report Tree))
  recordCompared site.fragment o
  Gen.emit k [.compareSign cmp]
  let o ← operand .write sc k (← (firstOf c.right : Report Tree))
  recordCompared site.fragment o
  Gen.emit k [.ifClose]

/-- A test of validity, which is written without indentation. -/
def validity (site : Site) (c : Condition) : Gen Unit := do
  let k := site.key .control
  Gen.emit k [.ifOpen]
  let t ← (firstOf c.left : Report Tree)
  let hdr ← (t.textAt? [0, 0] : Report String)
  let name ← (t.textAt? [0, 1] : Report String)
  let o : Operand := ⟨hdr ++ "." ++ name, .header⟩
  Gen.recordInput site.fragment o.text
  Gen.emit k [.operand o, .validClose]

def condition (sc : Scope) (site : Site) (c : Condition) : Gen Unit :=
  match c.test with
  | .member => membership sc site c
  | .compare cmp => comparison sc site cmp c
  | .valid => validity site c
  | .other name => do
    (Report.say "generate_condition error function 1" : Gen Unit)
    Report.halt name

/-! ### Module calls -/

/-- What the parameters of a module are bound to, collected one after another. -/
def bindParam (sc : Scope) (site : Site) (m : Module) (stem : String)
    (bound : OrderedMap String String) (p : (String × String × String) × Tree) :
    Gen (OrderedMap String String) := do
  let ((direction, name, type), arg) := p
  if direction = "out" || direction = "inout" then
    if m.vars.contains name then (Report.halt "error-generate_module error par and var" : Gen Unit)
    let o ← (sc.resolve arg : Report Operand)
    pure (bound.insert name o.text)
  else if direction = "in" then
    let o ← (sc.resolve arg : Report Operand)
    let var := stem ++ "_" ++ name
    Gen.emit ⟨stem, .vars⟩ [.declare (← Gen.typeOf type) var]
    Gen.emit (site.key .control) ((List.replicate site.level
      [.indent 1, .operand ⟨var, .var⟩, .assignSign, .operand o, .endStatement]).flatten)
    pure (bound.insert name var)
  else Report.halt "error-generate_module error call par type"

/-- The variables with named types replaced. -/
def resolveTypes (vars : OrderedMap String String) : Gen (OrderedMap String String) := do
  let types := (← get).definitions.types
  pure (vars.map (Definitions.typeOf types))

/--
Declares the variables of a scope and binds their names.  A scope that was declared before is left
as it is, and binds nothing.
-/
def declareVars (vars : OrderedMap String String) (bound : OrderedMap String String)
    (stem : String) :
    Gen (OrderedMap String String) := do
  if (← get).scopes.contains stem then pure bound
  else
    modify fun s => { s with scopes := s.scopes ++ [stem] }
    let vars ← resolveTypes vars
    let name (v : String) : String := stem ++ "_" ++ v
    Gen.emit ⟨stem, .vars⟩ (vars.entries.map fun (v, t) => .declare t (name v))
    pure (vars.keys.foldl (fun b v => b.insert v (name v)) bound)

def moduleCall (run : Job → Gen Unit) (sc : Scope) (site : Site) (c : Call) : Gen Unit := do
  match sc.modules.find? c.name with
  | none =>
    (Report.say "error-generate_module what module" : Gen Unit)
    Report.halt s!"{c.name} {sc.stem}"
  | some m =>
    Gen.record site.fragment fun r =>
      { r with modules := if r.modules.contains m.name then r.modules else r.modules ++ [m.name] }
    if m.params.length ≠ m.paramTypes.length || m.params.length ≠ m.directions.length then
      Report.halt "error-generate_module error par"
    if m.params.length ≠ c.args.length then Report.halt "error-generate_module error call"
    let stem := sc.stem ++ "_" ++ c.name
    let params := (m.directions.zip (m.params.zip m.paramTypes)).zip c.args
    let bound ← params.foldlM (bindParam sc site m stem) {}
    let vars ← declareVars m.vars bound stem
    Gen.record site.fragment fun r => { r with varFiles := r.varFiles ++ [stem ++ "_var.pne"] }
    run ⟨⟨stem, vars, m.maps, m.sets, m.funcs, sc.modules⟩, { site with inAction := false }, m.body⟩

/-! ### Switches -/

/-- The action of one case; gives its name and parameter types. -/
def switchCase (run : Job → Gen Unit) (sc : Scope) (site : Site) (table : String)
    (keys : List Operand) (calls : List Call) (deflt : Option String) (p : Tree × Nat) :
    Gen (Option String) := do
  let (case, i) := p
  let action ← Gen.drawAction table
  let name ← (tableNameOf case : Report String)
  Gen.emit (site.key .table) [.actionName action]
  let map? := if name = "default" then none else sc.maps.find? name
  let types := (map?.map (·.value)).getD []
  let params ← actionParams types
  Gen.emit (site.key .action) (.actionHead action :: params ++ [.actionBody])
  match calls[i]? with
  | none => throw .outOfRange
  | some c =>
    match sc.funcs.find? c.name with
    | some body => run ⟨sc, ⟨site.fragment, 1, true⟩, body⟩
    | none =>
      if c.name = "nop" then Gen.emit (site.key .action) [.emptyAction]
      else if c.name = "drop" then Gen.emit (site.key .action) [.dropAction]
      else Report.halt s!"error-generate_switch_single_table what call {c.name}"
  Gen.emit (site.key .action) [.blockClose]
  match map? with
  | some m =>
    let shown ← types.mapM Gen.typeOf
    entries (site.key .entry) table action (keys.map (·.text)) types.length
      (Text.quoteList shown) m.entries
  | none => pure ()
  pure (if name = "default" then some action else deflt)

/-- A switch as a single table: an action for every case, with the entries of the maps it names. -/
def switch (run : Job → Gen Unit) (sc : Scope) (site : Site) (keys cases : List Tree)
    (calls : List Call) :
    Gen Unit := do
  let frag := site.fragment
  Gen.recordTable frag
  let first ← (firstOf cases : Report Tree)
  let table ← Gen.drawTable (sc.stem ++ "_" ++ (← (tableNameOf first : Report String)))
  let keys ← keys.mapM fun t => do
    let o ← (sc.resolve t : Report Operand)
    Gen.recordInput frag o.text
    pure o
  Gen.emit (site.key .table) ([.tableHead table, .keysOpen] ++ keyLines keys ++
    [.sectionClose, .actionsOpen])
  let deflt ← cases.zipIdx.foldlM (switchCase run sc site table keys calls) none
  Gen.emit (site.key .table) (.sectionClose :: (deflt.map Piece.defaultAction).toList ++
    [.blockClose])
  Gen.emit (site.key .control) [.apply table]

/-! ### Blocks and branches -/

def beginFragment (stem : String) (number : Nat) : Gen String := do
  let frag := s!"{stem}_{number}"
  let r : Relation := { Relation.empty with varFiles := [stem ++ "_var.pne"] }
  modify fun s => { s with
    relation := (s.relation.insert stem (.last number)).insert frag (.fragment r) }
  for kind in [TextKind.control, .register, .action, .table, .temp, .entry] do
    Gen.emit ⟨frag, kind⟩ []
  pure frag

def openBlock (site : Site) : Gen Unit :=
  Gen.emit (site.key .control) [.indent site.level, .blockOpen]

def closeBlock (site : Site) : Gen Unit :=
  Gen.emit (site.key .control) [.indent site.level, .blockClose]

def openElse (site : Site) : Gen Unit :=
  Gen.emit (site.key .control) [.indent site.level, .elseLine, .indent site.level, .blockOpen]

/-- Closes the blocks that assertions opened, from the innermost level outwards. -/
def closeBlocks (site : Site) : Nat → Gen Unit
  | 0 => pure ()
  | n + 1 => do
    closeBlock { site with level := site.level + n }
    closeBlocks site n

/-- Begins the action of a link of an if chain; gives its name, its map or set, and whether it is a
map. -/
def linkAction (sc : Scope) (site : Site) (table : String) (conditions : List Condition) :
    Gen (String × String × Option Lookup) := do
  let action ← Gen.drawAction table
  Gen.emit (site.key .table) [.actionName action]
  Gen.emit (site.key .action) [.actionHead action]
  let c ← (firstOf conditions : Report Condition)
  let name ← (tableNameOf (← (firstOf c.right : Report Tree)) : Report String)
  let map? := sc.maps.find? name
  let params ← actionParams ((map?.map (·.value)).getD [])
  Gen.emit (site.key .action) (params ++ [.actionBody])
  pure (action, name, map?)

def linkEntries (sc : Scope) (site : Site) (table : String) (keys : List Operand)
    (link : String × String × Option Lookup) : Gen Unit := do
  let (action, name, map?) := link
  Gen.emit (site.key .entry) []
  match map? with
  | some m =>
    let shown := "[" ++ ", ".intercalate (m.value.map showType) ++ "]"
    entries (site.key .entry) table action (keys.map (·.text)) m.value.length shown m.entries
  | none =>
    match sc.sets.find? name with
    | some s => entries (site.key .entry) table action (keys.map (·.text)) 0 "\x7b\x7d" s.entries
    | none => throw (.missingKey name)

def beginDefault (site : Site) (table : String) : Gen String := do
  let action ← Gen.drawAction table
  Gen.emit (site.key .table) [.actionName action]
  Gen.emit (site.key .action) [.actionHead action, .actionBody]
  pure action

def beginTable (sc : Scope) (site : Site) (conditions : List Condition) :
    Gen (String × List Operand) := do
  let frag := site.fragment
  Gen.recordTable frag
  let c ← (firstOf conditions : Report Condition)
  let name ← (tableNameOf (← (firstOf c.right : Report Tree)) : Report String)
  let table ← Gen.drawTable (sc.stem ++ "_" ++ name)
  let keys ← c.left.mapM fun t => (sc.resolve t : Report Operand)
  Gen.emit (site.key .table) ([.tableHead table, .keysOpen] ++ keyLines keys ++ [.sectionClose])
  for o in keys do
    Gen.recordInput frag o.text
  Gen.emit (site.key .table) [.actionsOpen]
  pure (table, keys)

def endTable (site : Site) (table : String) (deflt : Option String) : Gen Unit := do
  Gen.emit (site.key .table) (.sectionClose :: (deflt.map Piece.defaultAction).toList ++
    [.blockClose])
  Gen.emit (site.key .control) [.indent site.level, .apply table]

/-- The place of an instruction in a list: whether the list is cut into fragments, and how far it
came. -/
structure Progress where
  /-- start a new fragment for every instruction -/
  cut : Bool
  /-- number of the next fragment -/
  number : Nat
  /-- assertions whose block is still open -/
  asserts : Nat
deriving Repr, DecidableEq, Inhabited

mutual

/--
A list of instructions.  `site` is where the list stands; an assertion opens a block at the current
level that lasts to the end of the list.
-/
def block (run : Job → Gen Unit) (sc : Scope) (site : Site) (p : Progress) : List Ins → Gen Unit
  | [] => closeBlocks site p.asserts
  | i :: is => do
    let frag ← if p.cut then beginFragment sc.stem p.number else pure site.fragment
    let level := site.level + p.asserts
    let here : Site := ⟨frag, level, site.inAction⟩
    let next := { p with number := p.number + 1 }
    match i with
    | .assign targets source => do
      let _ ← assign .write sc here targets source
      block run sc site next is
    | .arith targets left op right => do
      arith sc here targets left op right
      block run sc site next is
    | .primitive kind args => do
      primitive sc here kind args
      block run sc site next is
    | .call c => do
      if c.isApply then moduleCall run sc here c
      else Report.halt s!"?-generate.py-generate_ins what ins {c.kind}"
      block run sc site next is
    | .switch keys cases calls => do
      if ← Fit.switch sc level keys cases calls then switch run sc here keys cases calls
      else Report.halt "error here 7894"
      block run sc site next is
    | .assert conditions => do
      let c ← (firstOf conditions : Report Condition)
      let there : Site := { site with level := level }
      condition sc there c
      openBlock there
      block run sc site { next with asserts := p.asserts + 1 } is
    | .branch cs bs e d => do
      if ← Fit.branch sc level (.branch cs bs e d) then
        let (table, keys) ← beginTable sc here cs
        let deflt ← tableLinks run sc here table keys (.branch cs bs e d)
        endTable here table deflt
      else nested run sc here (.branch cs bs e d)
      block run sc site next is
    | .other kind => Report.halt s!"?-generate.py-generate_ins what ins {kind}"

def nested (run : Job → Gen Unit) (sc : Scope) (site : Site) : Ins → Gen Unit
  | .branch cs bs e d => do
    let c ← (firstOf cs : Report Condition)
    condition sc site c
    openBlock site
    let inner : Site := ⟨site.fragment, site.level + 1, false⟩
    match bs with
    | [] => throw .outOfRange
    | b :: _ => block run sc inner ⟨false, 0, 0⟩ b
    closeBlock site
    match e with
    | none => pure ()
    | some e => do
      openElse site
      nested run sc inner e
      closeBlock site
    match d with
    | none => pure ()
    | some d => do
      openElse site
      block run sc inner ⟨false, 0, 0⟩ d
      closeBlock site
  | i => do
    -- anything else has a condition at best, and no block
    condition sc site (← (firstOf i.conditions : Report Condition))
    openBlock site
    throw .outOfRange

/-- The actions and entries of an if table, link by link; gives the default action if there is
one. -/
def tableLinks (run : Job → Gen Unit) (sc : Scope) (site : Site) (table : String)
    (keys : List Operand) :
    Ins → Gen (Option String)
  | .branch cs bs e d => do
    let body : Site := ⟨site.fragment, 1, true⟩
    let link ← linkAction sc site table cs
    match bs with
    | [] => throw .outOfRange
    | b :: _ => block run sc body ⟨false, 0, 0⟩ b
    Gen.emit (site.key .action) [.blockClose]
    linkEntries sc site table keys link
    match e with
    | some e => tableLinks run sc site table keys e
    | none =>
      match d with
      | none => pure none
      | some d => do
        let action ← beginDefault site table
        block run sc body ⟨false, 0, 0⟩ d
        Gen.emit (site.key .action) [.blockClose]
        pure (some action)
  | i => do
    let _ ← linkAction sc site table i.conditions
    throw .outOfRange

end

def table (run : Job → Gen Unit) (sc : Scope) (site : Site) (i : Ins) : Gen Unit := do
  let (name, keys) ← beginTable sc site i.conditions
  let deflt ← tableLinks run sc site name keys i
  endTable site name deflt

end Emit

end Pathwise
