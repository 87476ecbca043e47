import Pathwise.Fragment.Write

/-!
# Which instructions fit into a single table

An if whose conditions all ask for membership of the same keys, and a switch, can become one table
whose actions do the work of the branches.  The checks of this file decide that.  They go through
operands and assignments with the functions that write them, in a mode in which nothing is to be
written.
-/

namespace Pathwise

namespace Fit

/-- Where a check would write. -/
def nowhere (level : Nat) : Site := ⟨"//component//trash.pne", level, false⟩

/-- Resolves an operand for a check. -/
def operand (sc : Scope) (t : Tree) : Gen Operand :=
  Emit.operand (.check []) sc (nowhere 0).text t

/-- Whether every instruction of a block can stand in an action; `report` tells what cannot. -/
def blockFits (sc : Scope) (level : Nat) (available : List String) (accepts : AssignKind → Bool)
    (report : String → Gen Unit) (block : List Ins) : Gen Bool :=
  block.foldlM (fun fits i => do
    match i with
    | .assign targets source =>
      pure (fits && accepts (← Emit.assign (.check available) sc (nowhere level) targets source))
    | .arith .. => pure fits
    | .primitive .. => pure fits
    | i => do
      report i.kind
      pure false) true

def isKey (o : Operand) : Bool :=
  o.kind == .var || o.kind == .header || o.kind == .metadata || o.kind == .packet

def conditionOf (i : Ins) : Gen Condition :=
  (firstOf i.conditions : Report Condition)

/-- The keys of the first condition and whether all of them can be keys. -/
def firstKeys (sc : Scope) (i : Ins) : Gen (List String × Bool) := do
  (← conditionOf i).left.foldlM (fun (keys, fits) t => do
    let o ← operand sc t
    if isKey o then pure (keys ++ [o.text], fits)
    else
      Report.say o.kind.name
      pure (keys, false)) ([], true)

/-- Whether the keys of a later condition are those of the first one, up to their order. -/
def laterKeysFit (sc : Scope) (keys : List String) (i : Ins) : Gen Bool := do
  let left := (← conditionOf i).left
  let fits ← left.foldlM (fun fits t => do
    let o ← operand sc t
    pure (fits && isKey o && keys.contains o.text)) true
  pure (fits && left.length == keys.length)

/-- Whether all conditions ask for membership. -/
def allMembership (links : List Ins) : Gen Bool :=
  links.foldlM (fun fits i => do pure (fits && (← conditionOf i).test == .member)) true

def blockOf (i : Ins) : Gen (List Ins) :=
  (firstOf i.blocks : Report (List Ins))

/-- The report on an instruction that fits into no action. -/
def reportMisfit (mark : String) (kind : String) : Gen Unit :=
  Report.say s!"{kind} {mark}"

/-- Whether what follows `else` can be the default action of a table. -/
def otherwiseFits (sc : Scope) (level : Nat) (keys : List String) (last : Ins) : Gen Bool :=
  match last.otherwise with
  | some b => blockFits sc level keys (·.isSimple) (reportMisfit "5454545") b
  | none => pure true

/-- Whether an if with its `else` parts can become a single table. -/
def branch (sc : Scope) (level : Nat) (i : Ins) : Gen Bool := do
  let links := i.chain
  let later := links.drop 1
  let membership ← allMembership links
  let (keys, firstFits) ← firstKeys sc i
  let laterFit ← later.foldlM (fun fits l => do pure (fits && (← laterKeysFit sc keys l))) true
  let firstBlock ← blockFits sc level keys (·.fitsAction) (fun _ => pure ()) (← blockOf i)
  let laterBlocks ← later.foldlM (fun fits l => do
    let b ← blockFits sc level keys (·.fitsAction) (reportMisfit "5454545") (← blockOf l)
    pure (fits && b)) true
  let otherwise ← otherwiseFits sc level keys (links.getLast?.getD i)
  pure (membership && firstFits && laterFit && firstBlock && laterBlocks && otherwise)

/-- A case must name a map or set with as many key columns as the switch has keys, or be the
default. -/
def switchCase (sc : Scope) (keyCount : Nat) (case : Tree) : Report Unit := do
  let name ← tableNameOf case
  if name = "default" then pure ()
  else
    match (sc.maps.find? name).orElse fun _ => sc.sets.find? name with
    | none => Report.halt "error-generate_switch_can_single_table what case"
    | some table =>
      if keyCount ≠ table.key.length then
        Report.halt "error-generate_switch_can_single_table what key num"

/-- Whether a called function can stand in an action. -/
def switchCall (sc : Scope) (level : Nat) (keys : List String) (c : Call) : Gen Bool :=
  if c.name = "nop" || c.name = "drop" then pure true
  else match sc.funcs.find? c.name with
    | none => Report.halt "error-generate_switch_can_single_table what func"
    | some body => blockFits sc level keys (·.fitsAction) (reportMisfit "323232323") body

/-- Whether a switch can become a single table. -/
def switch (sc : Scope) (level : Nat) (keys cases : List Tree) (calls : List Call) : Gen Bool := do
  let keyTexts ← keys.mapM fun k => do pure (← operand sc k).text
  for case in cases do
    switchCase sc keys.length case
  calls.foldlM (fun fits c => do
    let b ← switchCall sc level keyTexts c
    pure (fits && b)) true

end Fit

end Pathwise
