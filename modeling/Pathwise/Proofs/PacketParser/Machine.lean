import Pathwise.PacketParser.Render
import Pathwise.Proofs.PacketParser.Prune

/-!
# What a packet parser does

A parser, be it described in a definition or written for a node, is a machine: in every state it
extracts headers and then goes on to another state, accepts or rejects.  Here the machine is given
its meaning (`Machine.place`), and two machines are read off the two ends of the pipeline:

* `described` is what a definition says, entry by entry, before anything is filed by name;
* `written` is what the text of a table says, and `stateText_eq` that the text of a state says
  nothing else.

Between them stands `Files`: how a state of the table keeps what was described.  A select is filed
by target, so of several entries with one target only the value of the last one is kept; of several
extractions only the last one is.
-/

namespace Pathwise.PacketParser

open Steps List OrderedMap
open Drafting (write)

/-! ### Machines -/

/-- The value of an entry that is taken when no other one is. -/
def defaultWord : String := "default"

/-- How a state is left: to one target, or to the target that stands beside the selected value. -/
inductive Transition where
  | goto (target : String)
  | select (value : Tree) (entries : List (String × String))

/-- What a state does. -/
structure Stage where
  headers : List String
  transition : Transition

/-- The states of a parser by name, each with what it does. -/
abbrev Machine := OrderedMap String Stage

/-- Where a parser stands. -/
inductive Place where
  | visiting (name : String)
  | accepted
  | rejected
deriving DecidableEq

def Place.ofTarget (target : String) : Place :=
  if target = acceptName then .accepted else .visiting target

/-- The place that a choice of a target leads to.  Without a choice the packet is rejected. -/
def Place.ofChoice : Option String → Place
  | some target => .ofTarget target
  | none => .rejected

section Run

variable {V : Type} [DecidableEq V] (denote : String → V)

/-- The first entry that stands for the value is taken, else the first default entry. -/
def choose (entries : List (String × String)) (v : V) : Option String :=
  match entries.find? fun e => e.1 ≠ defaultWord && denote e.1 = v with
  | some e => some e.2
  | none => (entries.find? fun e => e.1 = defaultWord).map (·.2)

def Transition.follow (val : Tree → V) : Transition → Place
  | goto target => .ofTarget target
  | select e entries => .ofChoice (choose denote entries (val e))

def Machine.step (m : Machine) (val : Tree → V) : Place → Place
  | .visiting name => match m.find? name with
    | some g => g.transition.follow denote val
    | none => .rejected
  | p => p

/-- Where a machine stands after `k` steps.  The value of a select may be another one at every
step. -/
def Machine.place (m : Machine) (val : Nat → Tree → V) : Nat → Place
  | 0 => .visiting startName
  | k + 1 => m.step denote (val k) (m.place val k)

end Run

variable {t : Tree} {s : State} {sig : Signature} {l : Layout} {c c' : String}
  {constants : OrderedMap String String}

def Machine.headersAt (m : Machine) : Place → List String
  | .visiting name => match m.find? name with
    | some g => g.headers
    | none => []
  | _ => []

/-! ### The machine that a definition describes -/

def value? (constants : OrderedMap String String) (t : Tree) : Option String := do
  let text ← (t.textAt? [0]).toOption
  let rule ← t.rule?.toOption
  if rule = "int" || text = defaultWord then some text else constants.find? text

/-- An entry of a select: its value and its target. -/
def arm? (constants : OrderedMap String String) (t : Tree) : Option (String × String) := do
  let target ← (t.textAt? [1, 0]).toOption
  let value ← value? constants (← (t.descend? [0, 0]).toOption)
  some (value, target)

/-- The transition that a tree describes, with exactly one selected value. -/
def transition? (constants : OrderedMap String String) (t : Tree) : Option Transition := do
  let t ← (t.child? 0).toOption
  let rule ← t.rule?.toOption
  if rule = "transition" then
    some (.goto (← (t.textAt? [0, 0]).toOption))
  else if rule = "transition_select" then
    match ← (underRule "data" t).toOption with
    | [e] => some (.select e (← (← (underRule "transition_entry" t).toOption).mapM
      (arm? constants)))
    | _ => none
  else none

/-- The state that a tree describes, with exactly one transition. -/
def stage? (constants : OrderedMap String String) (t : Tree) : Option (String × Stage) := do
  let name ← (t.textAt? [0, 0]).toOption
  let headers ← (← (underRule "exact" t).toOption).mapM fun x => (x.textAt? [0, 1]).toOption
  match ← (underRule "trans" t).toOption with
  | [x] => some (name, ⟨headers, ← transition? constants x⟩)
  | _ => none

/-- The machine that a definition describes.  Of several states of one name the last one counts. -/
def described (constants : OrderedMap String String) (t : Tree) : Option Machine := do
  let stages ← (← (nodeTrees t).toOption).mapM (stage? constants)
  some (.ofList stages)

/--
The tree of a state as the grammar of definitions derives it: there is one transition, and a select
has one selected value.
-/
def IsStateTree (t : Tree) : Prop :=
  ∃ x y, underRule "trans" t = .ok [x] ∧ x.child? 0 = .ok y ∧
    (y.rule? = .ok "transition" ∨ y.rule? = .ok "transition_select" ∧
      ∃ e, underRule "data" y = .ok [e])

/-! ### How the table keeps it -/

def Transition.value? : Transition → Option Tree
  | goto _ => none
  | select e _ => some e

/-- The next states of a transition, each with the last value that leads to it. -/
def Transition.next : Transition → OrderedMap String String
  | goto target => .ofList [(target, defaultWord)]
  | select _ entries => .ofList (entries.map fun e => (e.2, e.1))

/-- A state of the table keeps the last header, the selected value and the next states of what was
described. -/
structure State.Files (s : State) (g : Stage) : Prop where
  extracted : s.extracted = g.headers.getLast?
  select : s.select = g.transition.value?
  next : s.next = g.transition.next

/-- The table has the names of the machine, and each state keeps what was described under its
name. -/
structure Files (t : Table) (m : Machine) : Prop where
  keys : t.keys = m.keys
  state : ∀ n s, t.find? n = some s → ∃ g, m.find? n = some g ∧ s.Files g

theorem Files.insert {t : Table} {m : Machine} (h : Files t m) (name : String) {g : Stage}
    (hs : s.Files g) : Files (t.insert name s) (m.insert name g) := by
  refine ⟨?_, fun n s' hn => ?_⟩
  · by_cases hmem : name ∈ t.keys
    · rw [keys_insert_of_mem hmem, keys_insert_of_mem (h.keys ▸ hmem), h.keys]
    · have hmem' : name ∉ m.keys := h.keys ▸ hmem
      rw [← OrderedMap.contains_iff, Bool.not_eq_true] at hmem hmem'
      rw [keys_insert_of_not_contains hmem, keys_insert_of_not_contains hmem', h.keys]
  · rw [find?_insert] at hn ⊢
    by_cases hname : n = name
    · rw [if_pos hname] at hn ⊢
      obtain rfl := Option.some.inj hn
      exact ⟨g, rfl, hs⟩
    · rw [if_neg hname] at hn ⊢
      exact h.state n s' hn

theorem extraction_eq_ok {h : String}
    (hx : extraction sig l t c = .ok h c') : (t.textAt? [0, 1]).toOption = some h := by
  simp only [extraction, bind_eq_ok, lift_shape_eq_ok] at hx
  obtain ⟨owner, _, _, hx⟩ := hx
  split at hx
  · exact absurd hx halt_ne_ok
  · simp only [bind_eq_ok, lift_shape_eq_ok] at hx
    obtain ⟨header, _, ⟨ht, _⟩, hx⟩ := hx
    rw [ht]
    cases hs : l.struct sig.headerType with
    | error e =>
      rw [hs] at hx
      exact absurd hx throw_ne_ok
    | ok fs =>
      simp only [hs] at hx
      split at hx
      · obtain ⟨rfl, _⟩ := pure_eq_ok.mp hx
        rfl
      · exact absurd hx halt_ne_ok

theorem selector_eq_ok {v : String}
    (h : selector constants t c = .ok v c') : value? constants t = some v := by
  simp only [selector, bind_eq_ok, lift_shape_eq_ok] at h
  obtain ⟨text, _, ⟨ht, _⟩, rule, _, ⟨hr, _⟩, h⟩ := h
  simp only [value?, ht, hr, Except.toOption, Option.bind_eq_bind, Option.bind_some]
  split at h
  · next hc =>
    obtain ⟨rfl, _⟩ := pure_eq_ok.mp h
    exact if_pos hc
  · next hc =>
    refine (if_neg hc).trans ?_
    cases hv : constants.find? text with
    | some v' =>
      rw [hv] at h
      obtain ⟨rfl, _⟩ := pure_eq_ok.mp h
      rfl
    | none =>
      rw [hv, bind_eq_ok] at h
      obtain ⟨_, _, _, h⟩ := h
      exact absurd h halt_ne_ok

theorem foldlM_addEntry : ∀ (ts : List Tree) {s s' : State} {c c' : String},
    ts.foldlM (addEntry constants) s c = .ok s' c' → ∃ es, ts.mapM (arm? constants) = some es ∧
      s' = { s with
        next := (es.map fun e => (e.2, e.1)).foldl (fun m e => m.insert e.1 e.2) s.next } := by
  intro ts
  induction ts with
  | nil =>
    intro s s' c c' h
    obtain ⟨rfl, _⟩ := pure_eq_ok.mp h
    exact ⟨[], rfl, rfl⟩
  | cons t ts ih =>
    intro s s' c c' h
    rw [foldlM_cons] at h
    simp only [addEntry, bind_eq_ok, lift_shape_eq_ok, pure_eq_ok] at h
    obtain ⟨s1, _, ⟨target, _, ⟨ht, _⟩, place, _, ⟨hp, _⟩, value, _, hv, rfl, _⟩, h⟩ := h
    obtain ⟨es, hes, rfl⟩ := ih h
    refine ⟨(value, target) :: es, ?_, rfl⟩
    have hentry : arm? constants t = some (value, target) := by
      simp only [arm?, ht, hp, Except.toOption, Option.bind_eq_bind, Option.bind_some,
        selector_eq_ok hv]
    rw [mapM_cons, hentry, hes]
    rfl

theorem transition_eq_ok {s' : State} {x y : Tree}
    (hs : s.select = none) (hn : s.next = {}) (hy : x.child? 0 = .ok y)
    (hshape : y.rule? = .ok "transition" ∨ y.rule? = .ok "transition_select" ∧
      ∃ e, underRule "data" y = .ok [e])
    (h : transition constants s x c = .ok s' c') :
    ∃ tr, transition? constants x = some tr ∧
      s'.extracted = s.extracted ∧ s'.select = tr.value? ∧ s'.next = tr.next := by
  simp only [transition, bind_eq_ok, lift_shape_eq_ok] at h
  obtain ⟨y', _, ⟨hy', _⟩, rule, _, ⟨hr, _⟩, h⟩ := h
  obtain rfl := Except.ok.inj (hy.symm.trans hy')
  rcases hshape with hgoto | ⟨hselect, e, he⟩
  · obtain rfl := Except.ok.inj (hr.symm.trans hgoto)
    simp only [if_true, bind_eq_ok, lift_shape_eq_ok, pure_eq_ok] at h
    obtain ⟨target, _, ⟨ht, _⟩, rfl, _⟩ := h
    refine ⟨.goto target, ?_, rfl, hs, ?_⟩
    · simp only [transition?, hy, hgoto, ht, Except.toOption, Option.bind_eq_bind,
        Option.bind_some, if_true]
    · rw [hn]
      rfl
  · obtain rfl := Except.ok.inj (hr.symm.trans hselect)
    simp only [String.reduceEq, if_false, if_true, bind_eq_ok, lift_shape_eq_ok] at h
    obtain ⟨chosen, _, ⟨hc, _⟩, ts, _, ⟨hts, _⟩, h⟩ := h
    obtain rfl := Except.ok.inj (hc.symm.trans he)
    obtain ⟨es, hes, rfl⟩ := foldlM_addEntry ts h
    refine ⟨.select e es, ?_, rfl, rfl, ?_⟩
    · simp only [transition?, hy, hselect, he, hts, hes, Except.toOption, Option.bind_eq_bind,
        Option.bind_some, String.reduceEq, if_false, if_true]
    · simp only [getLast?_singleton, hn]
      rfl

theorem state_eq_ok {name : String} (hshape : IsStateTree t)
    (h : state constants sig l t c = .ok (name, s) c') :
    ∃ g, stage? constants t = some (name, g) ∧ s.Files g := by
  obtain ⟨x, y, hx, hy, hxy⟩ := hshape
  simp only [state, bind_eq_ok, lift_shape_eq_ok, pure_eq_ok] at h
  obtain ⟨n, _, ⟨hname, _⟩, es, _, ⟨hes, _⟩, hs, _, hmap, ts, _, ⟨hts, _⟩, s1, _, h1, body, _,
    _, he, _⟩ := h
  obtain ⟨rfl, rfl⟩ := Prod.mk.inj he
  obtain rfl := Except.ok.inj (hts.symm.trans hx)
  simp only [foldlM_cons, foldlM_nil, bind_eq_ok, pure_eq_ok] at h1
  obtain ⟨s2, _, h2, rfl, _⟩ := h1
  obtain ⟨tr, htr, hextracted, hselect, hnext⟩ := transition_eq_ok rfl rfl hy hxy h2
  have hheaders : es.mapM (fun x => (x.textAt? [0, 1]).toOption) = some hs :=
    mapM_eq_some (fun _ _ _ _ hx => extraction_eq_ok hx) es hmap
  refine ⟨⟨hs, tr⟩, ?_, hextracted, hselect, hnext⟩
  rw [stage?, hname, hes, hx]
  simp only [Except.toOption, Option.bind_eq_bind, Option.bind_some] at hheaders ⊢
  rw [hheaders, htr]
  rfl

/-- **Filing the states keeps what the definition describes.** -/
theorem foldlM_file :
    ∀ (nodes : List Tree) {t t' : Table} {m : Machine}
    {c c' : String}, (∀ n ∈ nodes, IsStateTree n) → Files t m →
      nodes.foldlM (file constants sig l) t c = .ok t' c' →
      ∃ stages, nodes.mapM (stage? constants) = some stages ∧
        Files t' (stages.foldl (fun m e => m.insert e.1 e.2) m) := by
  intro nodes
  induction nodes with
  | nil =>
    intro t t' m c c' _ hf h
    obtain ⟨rfl, _⟩ := pure_eq_ok.mp h
    exact ⟨[], rfl, hf⟩
  | cons n nodes ih =>
    intro t t' m c c' hshape hf h
    rw [foldlM_cons] at h
    simp only [file, bind_eq_ok, pure_eq_ok] at h
    obtain ⟨_, _, ⟨⟨name, s⟩, _, hs, rfl, _⟩, h⟩ := h
    obtain ⟨g, hg, hsg⟩ := state_eq_ok (hshape n mem_cons_self) hs
    obtain ⟨stages, hstages, hf'⟩ := ih (fun n' hn' => hshape n' (mem_cons_of_mem n hn'))
      (hf.insert name hsg) h
    refine ⟨(name, g) :: stages, ?_, hf'⟩
    rw [mapM_cons, hg, hstages]
    rfl

/-- **The finished table keeps what the definition describes.** -/
theorem table_files {tree : Tree} {t : Table} (h : table constants sig l tree c = .ok t c')
    (hshape : ∀ nodes, nodeTrees tree = .ok nodes → ∀ n ∈ nodes, IsStateTree n) :
    ∃ m, described constants tree = some m ∧ Files t m := by
  obtain ⟨nodes, t0, hnodes, hfiled, _, _, rfl⟩ := table_eq_ok h
  obtain ⟨hnd, hfresh⟩ := filed_fresh hfiled
  obtain ⟨stages, hstages, hfiles⟩ := foldlM_file (m := {}) nodes (hshape nodes hnodes)
    ⟨rfl, fun n s hn => by cases hn⟩ hfiled
  refine ⟨.ofList stages, ?_, ?_, ?_⟩
  · simp only [described, hnodes, hstages, Except.toOption, Option.bind_eq_bind, Option.bind_some]
  · obtain ⟨g, _⟩ := downstream_growing hnd
    rw [keys_linkBack, g.keys]
    exact hfiles.keys
  · intro n s hs
    obtain ⟨s0, h0, rfl⟩ := find?_linkBack_downstream hnd hfresh hs
    obtain ⟨g, hg, hextracted, hselect, hnext⟩ := hfiles.state n s0 h0
    exact ⟨g, hg, hextracted, hselect, hnext⟩

/-! ### What the text of a state says -/

def State.writtenTransition (constants : OrderedMap String String) (s : State) : Transition :=
  match s.select with
  | none => .goto (if s.next.isEmpty then acceptName else String.join s.next.keys)
  | some e => .select e (if s.next.isEmpty then [(defaultWord, acceptName)]
      else s.next.entries.map fun x => (constantValue constants x.2, x.1))

/-- What the text of a state writes down. -/
def State.written (constants : OrderedMap String String) (s : State) : Stage :=
  ⟨s.extracted.toList, s.writtenTransition constants⟩

def Transition.draft (sig : Signature) : Transition → Drafting Unit
  | goto target => do
    write "        transition "
    write target
    write ";\n"
  | select e entries => do
    write "        transition select("
    selected sig e
    write ") \x7b\n"
    entries.forM fun x => write s!"            {x.1}: {x.2};\n"
    write "        \x7d\n"

/-- The text of a state: its extractions, its instructions and its transition. -/
def Stage.draft (constants : OrderedMap String String) (sig : Signature) (name : String)
    (body : List Tree) (g : Stage) : Drafting Unit := do
  write s!"    state {name} \x7b\n"
  g.headers.forM fun header => write s!"        pkt.extract({sig.headerName}.{header});\n"
  body.forM (instruction constants sig)
  g.transition.draft sig
  write "    \x7d\n"

theorem transitionText_eq (constants : OrderedMap String String) (sig : Signature) (s : State) :
    transitionText constants sig s = (s.writtenTransition constants).draft sig := by
  rw [transitionText, State.writtenTransition]
  cases hs : s.select with
  | none =>
    simp only [Transition.draft]
    split <;> rfl
  | some e =>
    simp only [Transition.draft]
    split
    · rfl
    · simp only [forM_eq_forM, forM_map]

theorem stateText_eq (constants : OrderedMap String String) (sig : Signature) (name : String)
    (s : State) :
    stateText constants sig name s = (s.written constants).draft constants sig name s.body := by
  simp only [stateText, Stage.draft, State.written, transitionText_eq]
  cases s.extracted with
  | none => rfl
  | some header => rfl

def written (constants : OrderedMap String String) (t : Table) : Machine :=
  t.map (State.written constants)

theorem tableText_eq (constants : OrderedMap String String) (sig : Signature) (t : Table) :
    tableText constants sig t
      = t.entries.forM fun e => (e.2.written constants).draft constants sig e.1 e.2.body := by
  simp only [tableText, stateText_eq]

end Pathwise.PacketParser
