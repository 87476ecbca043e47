import Pathwise.Proofs.Fragment.Written

/-!
# What instructions mean

The instructions of a program act on a valuation of variables and header fields.  The meaning is
given over any type of values: `Meaning` says which texts are constants, what the cells of table
entries are worth, and how operators act.  Operands are known by the names that were generated for
them.

`exec` runs a list of instructions.  An assertion that does not hold ends the list it stands in, and
nothing else; a condition on a map or set asks whether its entries have the tuple of keys, in the
order in which the condition names them; an assignment from a map takes the value columns of the
first entry that fits the values its indexes have at that point.  What has no meaning here has none
(`none`): calls, switches, and assignments of one value to several targets.
-/

namespace Pathwise

open Steps

variable {sc : Scope} {t : Tree} {o : Operand} {V : Type}

/-! ### Valuations -/

/-- What happens to a packet apart from its fields. -/
inductive Mark where
  | dropped
  | compressed (operand : String)
deriving DecidableEq

/-- The values of variables and header fields, the headers that are valid, and what happened to the
packet. -/
structure Store (V : Type) where
  value : String → V
  valid : String → Bool
  marks : List Mark

/-- How texts and operators are understood. -/
structure Meaning (V : Type) where
  /-- the value of a text that is a constant -/
  constant? : String → Option V
  /-- the value of a cell of a table entry -/
  cell : String → V
  combine : String → V → V → V
  compare : Comparison → V → V → Bool

namespace Store

variable {V : Type}

def set (σ : Store V) (name : String) (v : V) : Store V :=
  { σ with value := fun x => if x = name then v else σ.value x }

def mark (σ : Store V) (m : Mark) : Store V :=
  { σ with marks := σ.marks ++ [m] }

/-- Sets several names one after another. -/
def setAll (σ : Store V) (xs : List (String × V)) : Store V :=
  xs.foldl (fun σ x => σ.set x.1 x.2) σ

def read (μ : Meaning V) (σ : Store V) (text : String) : V :=
  (μ.constant? text).getD (σ.value text)

theorem read_set_of_ne (μ : Meaning V) (σ : Store V) {name text : String}
    (h : text ≠ name) (v : V) :
    (σ.set name v).read μ text = σ.read μ text := by
  simp only [read, set, if_neg h]

theorem read_setAll_of_not_mem (μ : Meaning V) (text : String) :
    ∀ (xs : List (String × V)) (σ : Store V),
    text ∉ xs.map (·.1) → (σ.setAll xs).read μ text = σ.read μ text := by
  intro xs
  induction xs with
  | nil => exact fun _ _ => rfl
  | cons x xs ih =>
    intro σ h
    rw [List.map_cons, List.mem_cons, not_or] at h
    exact (ih _ h.2).trans (read_set_of_ne μ σ h.1 x.2)

end Store

/-! ### Instructions -/

/-- Whether an operand is indexed, as in `m[k]`. -/
def Tree.isIndexed (t : Tree) : Bool :=
  match t.child? 0 with
  | .ok part => match part.rule? with
    | .ok rule => rule = "array"
    | .error _ => false
  | .error _ => false

def Tree.indexed? (t : Tree) : Option (String × List Tree) := do
  let name ← (t.textAt? [0, 0, 0, 0]).toOption
  let ixs ← (t.descend? [0, 1] >>= Tree.children?).toOption
  some (name, ← ixs.mapM fun ix => (ix.child? 0).toOption)

def Tree.header? : Tree → Option String
  | .node _ [.node _ [.leaf owner, .leaf name]] => some (owner ++ "." ++ name)
  | _ => none

def Scope.text? (sc : Scope) (t : Tree) : Option String :=
  (sc.operand? t).map (·.text)

/-- The map or set of a name; a map hides a set. -/
def Scope.lookup? (sc : Scope) (name : String) : Option Lookup :=
  (sc.maps.find? name).orElse fun _ => sc.sets.find? name

section Meaning

variable {V : Type} (μ : Meaning V) (sc : Scope)

def Scope.value? (σ : Store V) (t : Tree) : Option V :=
  (sc.text? t).map (σ.read μ)

variable [DecidableEq V]

/-- The first entry whose key columns have the values. -/
def Lookup.row? (m : Lookup) (keys : List V) : Option (List String) :=
  m.entries.find? fun row => (row.take m.key.length).map μ.cell = keys

/-- The value columns of an entry. -/
def Lookup.values (m : Lookup) (row : List String) : List V :=
  (row.drop m.key.length).map μ.cell

def Scope.holds? (c : Condition) (σ : Store V) : Option Bool :=
  match c.test, c.left, c.right with
  | .compare cmp, [l], [r] => do some (μ.compare cmp (← sc.value? μ σ l) (← sc.value? μ σ r))
  | .valid, [t], _ => (t.header?).map σ.valid
  | .member, keys, t :: _ => do
    let m ← sc.lookup? (← (t.textAt? [0, 0]).toOption)
    some (m.row? μ (← keys.mapM (sc.value? μ σ))).isSome
  | _, _, _ => none

/-- What an assignment from a map does: nothing if no entry fits. -/
def Scope.fromMap? (targets : List Tree) (source : Tree) (σ : Store V) : Option (Store V) := do
  let (name, ixs) ← source.indexed?
  let m ← sc.maps.find? name
  let names ← targets.mapM sc.text?
  match m.row? μ (← ixs.mapM (sc.value? μ σ)) with
  | none => some σ
  | some row =>
    if names.length ≤ (m.values μ row).length then
      some (σ.setAll (names.zip (m.values μ row))) else none

/-- What an instruction without conditions does. -/
def Scope.step? : Ins → Store V → Option (Store V)
  | .assign targets source, σ =>
    if source.isIndexed then sc.fromMap? μ targets source σ
    else match targets with
      | [t] => do some (σ.set (← sc.text? t) (← sc.value? μ σ source))
      | _ => none
  | .arith [t] l op r, σ => do
    some (σ.set (← sc.text? t) (μ.combine op (← sc.value? μ σ l) (← sc.value? μ σ r)))
  | .primitive kind args, σ =>
    if kind = "drop" then some (σ.mark .dropped)
    else if kind = "nop" then some σ
    else if kind = "headercompress" then do some (σ.mark (.compressed (← sc.text? (← args.head?))))
    else none
  | _, _ => none

mutual

/-- Runs a list of instructions. -/
def Scope.exec : List Ins → Store V → Option (Store V)
  | [], σ => some σ
  | i :: is, σ => match i with
    | .assert cs => match cs with
      | [c] => (sc.holds? μ c σ).bind fun b => if b then Scope.exec is σ else some σ
      | _ => none
    | .branch cs bs e d => (Scope.execIf (.branch cs bs e d) σ).bind (Scope.exec is)
    | i => (sc.step? μ i σ).bind (Scope.exec is)

/-- Runs an if with what follows it. -/
def Scope.execIf : Ins → Store V → Option (Store V)
  | .branch cs bs e d, σ => match cs, bs with
    | [c], [b] => (sc.holds? μ c σ).bind fun holds =>
      if holds then Scope.exec b σ
      else match e with
        | some e => Scope.execIf e σ
        | none => match d with
          | some d => Scope.exec d σ
          | none => some σ
    | _, _ => none
  | _, _ => none

end

/-! ### One instruction at a time -/

namespace Scope

variable (is : List Ins) (σ : Store V)

theorem step?_lookup {source : Tree} (h : source.isIndexed = true) (targets : List Tree) :
    sc.step? μ (.assign targets source) σ = sc.fromMap? μ targets source σ :=
  if_pos h

theorem exec_assign (targets : List Tree) (source : Tree) :
    sc.exec μ (.assign targets source :: is) σ = (sc.step? μ (.assign targets source) σ).bind
      (sc.exec μ is) := rfl

theorem exec_arith (targets : List Tree) (left : Tree) (op : String) (right : Tree) :
    sc.exec μ (.arith targets left op right :: is) σ
      = (sc.step? μ (.arith targets left op right) σ).bind (sc.exec μ is) := rfl

theorem exec_primitive (kind : String) (args : List Tree) :
    sc.exec μ (.primitive kind args :: is) σ = (sc.step? μ (.primitive kind args) σ).bind
      (sc.exec μ is) := rfl

theorem exec_assert (c : Condition) :
    sc.exec μ (.assert [c] :: is) σ
      = (sc.holds? μ c σ).bind fun b => if b then sc.exec μ is σ else some σ := rfl

theorem exec_branch (cs : List Condition) (bs : List (List Ins)) (e : Option Ins)
    (d : Option (List Ins)) :
    sc.exec μ (.branch cs bs e d :: is) σ = (sc.execIf μ (.branch cs bs e d) σ).bind
      (sc.exec μ is) := rfl

theorem execIf_branch (c : Condition) (b : List Ins) (e : Option Ins) (d : Option (List Ins)) :
    sc.execIf μ (.branch [c] [b] e d) σ = (sc.holds? μ c σ).bind fun holds =>
      if holds then sc.exec μ b σ
      else match e with
        | some e => sc.execIf μ e σ
        | none => match d with
          | some d => sc.exec μ d σ
          | none => some σ := by
  cases e <;> cases d <;> rfl

end Scope

end Meaning

/-! ### Operands that are resolved -/

theorem Scope.text?_eq (h : sc.operand? t = some o) :
    sc.text? t = some o.text := by
  rw [Scope.text?, h]
  rfl

theorem Scope.value?_eq (h : sc.operand? t = some o) (μ : Meaning V)
    (σ : Store V) : sc.value? μ σ t = some (σ.read μ o.text) := by
  rw [Scope.value?, Scope.text?_eq h]
  rfl

theorem Scope.mapM_value?_eq (μ : Meaning V) (σ : Store V) {ts : List Tree} {xs : List String}
    (h : ts.mapM sc.text? = some xs) : ts.mapM (sc.value? μ σ) = some (xs.map (σ.read μ)) :=
  mapM_map_eq_some (σ.read μ) h

end Pathwise
