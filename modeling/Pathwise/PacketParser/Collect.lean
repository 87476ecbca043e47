import Pathwise.Language.States
import Pathwise.Layout
import Pathwise.PacketParser.Downstream

/-!
# Collecting a packet parser

The table of states, the signature and the list of headers that are written back, read off the
syntax tree of a parser definition.
-/

namespace Pathwise.PacketParser

/-- The children of a node that stand under a rule. -/
def underRule (rule : String) (t : Tree) : Except ShapeError (List Tree) := do
  (← t.children?).filterM fun c => do pure ((← c.rule?) == rule)

def signature (t : Tree) : Except ShapeError Signature := do
  (← t.children?).foldlM (fun sig part => do
    let rule ← part.rule?
    if rule = "par_hdr" then
      pure { sig with headerType := ← part.textAt? [0, 0], headerName := ← part.textAt? [1, 0] }
    else if rule = "par_gmeta" then
      pure { sig with metaType := ← part.textAt? [0, 0], metaName := ← part.textAt? [1, 0] }
    else pure sig) ⟨"", "", "", ""⟩

/-- A header that is written back to the packet. -/
def emitted (sig : Signature) (l : Layout) (t : Tree) : Report String := do
  let place ← t.child? 0
  if 2 < (← place.children?).length then
    Report.halt "error-aggregate_collect_deparser 74514"
  else
    let owner ← place.textAt? [0]
    let header ← place.textAt? [1]
    if owner ≠ sig.headerName then Report.halt "error-aggregate_collect_deparser 74516"
    else match l.struct sig.headerType with
      | .error e => throw e
      | .ok fs =>
        if fs.contains header then pure header
        else Report.halt "error-aggregate_collect_deparser 74517"

def deparser (sig : Signature) (l : Layout) (t : Tree) : Report (List String) := do
  let blocks ← underRule "deparser" t
  let places ← blocks.flatMapM fun b => liftM (underRule "deparser_hdr" b)
  places.mapM (emitted sig l)

def extraction (sig : Signature) (l : Layout) (t : Tree) : Report String := do
  if (← t.textAt? [0, 0]) ≠ sig.headerName then
    Report.halt "error-aggregate_collect_parser 74514"
  else
    let header ← t.textAt? [0, 1]
    match l.struct sig.headerType with
    | .error e => throw e
    | .ok fs =>
      if fs.contains header then pure header
      else Report.halt s!"error-aggregate_collect_parser 74515 {header}"

/-- The value that leads to a next state: a number, a constant, or `default`. -/
def selector (constants : OrderedMap String String) (t : Tree) : Report String := do
  let value ← t.textAt? [0]
  if (← t.rule?) = "int" || value = "default" then pure value
  else match constants.find? value with
    | some c => pure c
    | none => do
      Report.say "error-aggregate_collect_parser 777888"
      Report.halt value

def addEntry (constants : OrderedMap String String) (s : State) (t : Tree) : Report State := do
  let target ← t.textAt? [1, 0]
  let value ← selector constants (← t.descend? [0, 0])
  pure { s with next := s.next.insert target value }

def transition (constants : OrderedMap String String) (s : State) (t : Tree) : Report State := do
  let t ← t.child? 0
  let rule ← t.rule?
  if rule = "transition" then
    pure { s with next := s.next.insert (← t.textAt? [0, 0]) "default" }
  else if rule = "transition_select" then
    let chosen ← underRule "data" t
    let s := match chosen.getLast? with
      | some d => { s with select := some d }
      | none => s
    (← underRule "transition_entry" t).foldlM (addEntry constants) s
  else pure s

def state (constants : OrderedMap String String) (sig : Signature) (l : Layout) (t : Tree) :
    Report (String × State) := do
  let name ← t.textAt? [0, 0]
  let extracted ← (← underRule "exact" t).mapM (extraction sig l)
  let s : State := ⟨extracted.getLast?, none, [], [], {}, []⟩
  let s ← (← underRule "trans" t).foldlM (transition constants) s
  pure (name, { s with body := ← underRule "ins" t })

def nodeTrees (t : Tree) : Except ShapeError (List Tree) := do
  match (← underRule "nodes" t).getLast? with
  | some b => b.children?
  | none => .ok []

def file (constants : OrderedMap String String) (sig : Signature) (l : Layout)
    (acc : Table) (n : Tree) :
    Report Table := do
  let (name, s) ← state constants sig l n
  pure (acc.insert name s)

def filed (constants : OrderedMap String String) (sig : Signature) (l : Layout)
    (nodes : List Tree) :
    Report Table :=
  nodes.foldlM (file constants sig l) {}

/-- Fills in the headers downstream of each state and the states before it. -/
def linked (t : Table) : Report Table :=
  if t.contains startName then
    match danglingTarget? t with
    | some target => throw (.missingKey target)
    | none => pure (linkBack (downstream t))
  else Report.halt "error-aggregate_collect_parser no start"

/-- The table of states, with the headers downstream of each and the states before it. -/
def table (constants : OrderedMap String String) (sig : Signature) (l : Layout) (t : Tree) :
    Report Table := do
  linked (← filed constants sig l (← nodeTrees t))

end Pathwise.PacketParser
