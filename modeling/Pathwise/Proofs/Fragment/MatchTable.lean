import Pathwise.Proofs.Fragment.Statement
import Pathwise.Proofs.Numbered
import Pathwise.Proofs.OrderedMap

/-!
# Generated tables

A table compares its key fields with its entries in order.  The first entry that fits runs the
action it names, with its parameters; if none fits, the default action runs, or nothing.

* `MatchTable.run` is that meaning.
* `readCode?` reads a table off the pieces that were added to the texts of a fragment: its head, its
  actions, its entries and the line that applies it.
* `MatchTable.run_ofCases`: a table that is made of cases, each with an action of its own, runs the
  first case that has a row for the keys (`dispatch`).
-/

namespace Pathwise

open List OrderedMap

/-! ### Tables and their meaning -/

/-- An action: the number of its parameters and its statements. -/
structure Action where
  name : String
  arity : Nat
  body : List Statement

/-- A table with its actions and entries. -/
structure MatchTable where
  name : String
  keys : List String
  actions : List Action
  default? : Option String
  entries : List Entry

section Run

variable {V : Type}

/-- What the words of a body stand for where the parameters have the given values. -/
def paramValues (values : List V) : String → Option V :=
  fun w => (values.zipIdx.find? fun x => paramName x.2 = w).map (·.1)

variable (μ : Meaning V)

/-- Runs the action of a name; an action takes as many values as it has parameters. -/
def runAction (actions : List Action) (name : String) (values : List V) (σ : Store V) : Store V :=
  match actions.find? (·.name = name) with
  | some a => Statement.runAll μ (paramValues (values.take a.arity)) a.body σ
  | none => σ

variable [DecidableEq V]

/-- Whether all key fields have the values that an entry gives for them. -/
def Entry.fits (keys : List String) (σ : Store V) (e : Entry) : Bool :=
  keys.all fun k => (e.keys.find? k).any fun cell => σ.read μ k = μ.cell cell

def MatchTable.run (t : MatchTable) (σ : Store V) : Store V :=
  match t.entries.find? fun e => e.table == t.name && e.fits μ t.keys σ with
  | some e => runAction μ t.actions e.action (e.params.map μ.cell) σ
  | none => match t.default? with
    | some name => runAction μ t.actions name [] σ
    | none => σ

end Run

/-! ### Names of parameters -/

theorem paramName_inj {i j : Nat} (h : paramName i = paramName j) : i = j := by
  have hlist := congrArg String.toList h
  simp only [paramName, toString, String.toList_append, append_cancel_left_eq,
    Nat.toList_repr] at hlist
  exact toDigits_inj hlist

theorem paramValues_paramName {V : Type} (values : List V) (j : Nat) :
    paramValues values (paramName j) = values[j]? := by
  have hfrom : ∀ (values : List V) (n j : Nat),
      ((values.zipIdx n).find? fun x => paramName x.2 = paramName (n + j)).map
      (·.1) = values[j]? := by
    intro values
    induction values with
    | nil => intro n j; rfl
    | cons v values ih =>
      intro n j
      rw [zipIdx_cons]
      cases j with
      | zero => simp
      | succ j =>
        have hne : paramName n ≠ paramName (n + (j + 1)) := fun h => by
          have := paramName_inj h; omega
        rw [find?_cons_of_neg (by simpa using hne), show n + (j + 1) = n + 1 + j by omega, ih,
          getElem?_cons_succ]
  have := hfrom values 0 j
  rwa [Nat.zero_add] at this

theorem paramValues_eq_none {V : Type} {values : List V} {w : String}
    (hw : ∀ j < values.length, w ≠ paramName j) :
    paramValues values w = none := by
  rw [paramValues, find?_eq_none.mpr, Option.map_none]
  rintro ⟨v, j⟩ hx
  have hj := snd_lt_of_mem_zipIdx hx
  simpa using fun h => hw j (by simpa using hj) h.symm

/-! ### Tables made of cases -/

/-- A case of a table: rows whose first columns belong to the keys, and what is done with the
others. -/
structure Case where
  rows : List (List String)
  arity : Nat
  body : List Statement

def Entry.ofRow (table action : String) (keys row : List String) : Entry :=
  ⟨table, .ofList (keys.zip row), action, row.drop keys.length⟩

section Dispatch

variable {V : Type} (μ : Meaning V) [DecidableEq V]

/-- Whether the keys have the values of a row's columns.  If a key stands twice, its last column
counts. -/
def rowFits (keys : List String) (σ : Store V) (row : List String) : Bool :=
  keys.all fun k => ((OrderedMap.ofList (keys.zip row)).find? k).any fun cell =>
    σ.read μ k = μ.cell cell

/-- Runs the first case that has a row for the keys, with the other columns of the first such
row. -/
def dispatch (keys : List String) (otherwise : List Statement) : List Case → Store V → Store V
  | [], σ => Statement.runAll μ noParams otherwise σ
  | c :: cs, σ => match c.rows.find? (rowFits μ keys σ) with
    | some row =>
      Statement.runAll μ (paramValues (((row.drop keys.length).map μ.cell).take c.arity)) c.body σ
    | none => dispatch keys otherwise cs σ

omit [DecidableEq V] in
theorem forall_mem_zip_iff (keys : List String) (σ : Store V) : ∀ row :
    List String, keys.length ≤ row.length →
    ((∀ x ∈ keys.zip row, σ.read μ x.1 = μ.cell x.2) ↔
      (row.take keys.length).map μ.cell = keys.map (σ.read μ)) := by
  induction keys with
  | nil => intro row _; simp
  | cons k keys ih =>
    intro row hlen
    cases row with
    | nil => exact absurd hlen (by simp)
    | cons cell row =>
      rw [zip_cons_cons, forall_mem_cons, ih row (by simpa using hlen)]
      simp only [length_cons, take_succ_cons, map_cons, List.cons.injEq, eq_comm (a := μ.cell cell)]

/-- **If no key stands twice, a row fits if its first columns are the values of the keys**, in
order. -/
theorem rowFits_iff {keys : List String} (hkeys : keys.Nodup) (σ : Store V) {row : List String}
    (hlen : keys.length ≤ row.length) :
    rowFits μ keys σ row = true ↔ (row.take keys.length).map μ.cell = keys.map (σ.read μ) := by
  have hfst : (keys.zip row).map (·.1) = keys := map_fst_zip hlen
  have hentries := entries_ofList_of_nodup (by rwa [hfst] : ((keys.zip row).map (·.1)).Nodup)
  have hfind : ∀ k cell, (OrderedMap.ofList (keys.zip row)).find? k = some cell ↔
      (k, cell) ∈ keys.zip row := by
    intro k cell
    rw [← mem_entries_iff (nodup_ofList _), hentries]
  rw [← forall_mem_zip_iff μ keys σ row hlen, rowFits, all_eq_true]
  constructor
  · rintro h ⟨k, cell⟩ hx
    have hk := h k (of_mem_zip hx).1
    rw [(hfind k cell).mpr hx] at hk
    simpa using hk
  · intro h k hk
    rw [← hfst, mem_map] at hk
    obtain ⟨⟨k', cell⟩, hx, rfl⟩ := hk
    rw [(hfind _ cell).mpr hx]
    simpa using h _ hx

end Dispatch

namespace MatchTable

/-- A table of cases, each with the name of its action, and a default action. -/
def ofCases (name : String) (keys : List String) (cases : List (String × Case))
    (otherwise : Option (String × List Statement)) : MatchTable where
  name := name
  keys := keys
  actions := cases.map (fun x => ⟨x.1, x.2.arity, x.2.body⟩) ++ otherwise.toList.map fun x =>
    ⟨x.1, 0, x.2⟩
  default? := otherwise.map (·.1)
  entries := cases.flatMap fun x => x.2.rows.map (Entry.ofRow name x.1 keys)

theorem find?_of_nodup {actions : List Action} (h : (actions.map (·.name)).Nodup) {a : Action}
    (ha : a ∈ actions) :
    actions.find? (·.name = a.name) = some a := by
  obtain ⟨a', ha'⟩ := Option.isSome_iff_exists.mp
    (find?_isSome.mpr ⟨a, ha, by simp⟩ : (List.find? (·.name = a.name) _).isSome)
  have hname : a'.name = a.name := by simpa using find?_some ha'
  rw [ha', inj_on_of_nodup_map h (mem_of_find?_eq_some ha') ha hname]

section

variable {V : Type} (μ : Meaning V) [DecidableEq V]

theorem run_entries (name : String) (keys : List String) (otherwise : List Statement) (σ : Store V)
    (actions : List Action) : ∀ cases : List (String × Case),
    (∀ x ∈ cases, actions.find? (·.name = x.1) = some ⟨x.1, x.2.arity, x.2.body⟩) →
    (match (cases.flatMap fun x => x.2.rows.map (Entry.ofRow name x.1 keys)).find?
        fun e => e.table == name && e.fits μ keys σ with
      | some e => runAction μ actions e.action (e.params.map μ.cell) σ
      | none => Statement.runAll μ noParams otherwise σ)
    = dispatch μ keys otherwise (cases.map (·.2)) σ := by
  intro cases
  induction cases with
  | nil => intro _; rfl
  | cons x cases ih =>
    intro hactions
    obtain ⟨hx, hcases⟩ := forall_mem_cons.mp hactions
    have hrow : ((fun e : Entry => e.table == name && e.fits μ keys σ) ∘ Entry.ofRow name x.1 keys)
        = rowFits μ keys σ := by
      funext row
      simp only [Function.comp_apply, Entry.ofRow, Entry.fits, rowFits, beq_self_eq_true,
        Bool.true_and]
    rw [flatMap_cons, find?_append, find?_map, hrow, map_cons, dispatch]
    cases hfind : x.2.rows.find? (rowFits μ keys σ) with
    | none => exact ih hcases
    | some row => simp only [Option.map_some, Option.some_or, runAction, Entry.ofRow, hx]

theorem run_ofCases (name : String) (keys : List String) (cases : List (String × Case))
    (otherwise : Option (String × List Statement)) (σ : Store V)
    (hnames : (cases.map (·.1) ++ otherwise.toList.map (·.1)).Nodup) :
    (ofCases name keys cases otherwise).run μ σ
      = dispatch μ keys ((otherwise.map (·.2)).getD []) (cases.map (·.2)) σ := by
  have hnodup : ((ofCases name keys cases otherwise).actions.map (·.name)).Nodup := by
    simpa [ofCases, Function.comp_def] using hnames
  rw [← run_entries μ name keys _ σ (ofCases name keys cases otherwise).actions cases]
  · rw [run]
    cases otherwise with
    | none => rfl
    | some d =>
      have hd := find?_of_nodup hnodup (a := ⟨d.1, 0, d.2⟩) (by simp [ofCases])
      have hrun : runAction μ (ofCases name keys cases (some d)).actions d.1 [] σ
          = Statement.runAll μ noParams d.2 σ := by
        rw [runAction, hd]
        rfl
      simp only [ofCases, Option.map_some, Option.getD_some] at hrun ⊢
      rw [hrun]
  · intro x hx
    refine find?_of_nodup hnodup (a := ⟨x.1, x.2.arity, x.2.body⟩) ?_
    simp only [ofCases, mem_append, mem_map]
    exact Or.inl ⟨x, hx, rfl⟩

end

end MatchTable

/-! ### Groups of pieces -/

/-- Cuts a list before every item that begins a group.  What stands before the first group comes
first. -/
def cut {α : Type} (begins : α → Bool) : List α → List α × List (List α)
  | [] => ([], [])
  | x :: xs =>
    if begins x then ([], (x :: (cut begins xs).1) :: (cut begins xs).2) else
      (x :: (cut begins xs).1, (cut begins xs).2)

def readGroups? {α β : Type} (begins : α → Bool) (read : List α → Option β) (xs : List α) :
    Option (List β) :=
  if (cut begins xs).1.isEmpty then (cut begins xs).2.mapM read else none

section Groups

variable {α β : Type} {begins : α → Bool} {read : List α → Option β}

theorem cut_of_none {xs : List α} (h : ∀ x ∈ xs, begins x = false) : cut begins xs = (xs, []) := by
  induction xs with
  | nil => rfl
  | cons x xs ih =>
    obtain ⟨hx, hxs⟩ := forall_mem_cons.mp h
    rw [cut, hx, ih hxs]
    rfl

theorem cut_append {rest : List α} (h : (cut begins rest).1 = []) (xs : List α) :
    cut begins (xs ++ rest) = ((cut begins xs).1, (cut begins xs).2 ++ (cut begins rest).2) := by
  induction xs with
  | nil => exact Prod.ext h rfl
  | cons x xs ih =>
    rw [cons_append, cut, cut, ih]
    split <;> rfl

theorem readGroups?_group {x : α} {xs : List α} {b : β} (hx : begins x = true)
    (hxs : ∀ y ∈ xs, begins y = false) (hread : read (x :: xs) = some b) :
    readGroups? begins read (x :: xs) = some [b] := by
  simp only [readGroups?, cut, hx, cut_of_none hxs, if_true, isEmpty_nil, mapM_cons,
    hread, mapM_nil]
  rfl

theorem readGroups?_append {xs ys : List α} {bs cs : List β}
    (hxs : readGroups? begins read xs = some bs) (hys : readGroups? begins read ys = some cs) :
    readGroups? begins read (xs ++ ys) = some (bs ++ cs) := by
  rw [readGroups?] at hxs hys
  split at hxs
  · next hx =>
    split at hys
    · next hy =>
      simp only [readGroups?, cut_append (isEmpty_iff.mp hy), hx, if_true, mapM_append, hxs, hys]
      rfl
    · cases hys
  · cases hxs

end Groups

/-! ### Reading actions -/

/-- Whether a piece begins a line of an action's body. -/
def Piece.isIndent : Piece → Bool
  | indent _ => true
  | _ => false

def Piece.isActionHead : Piece → Bool
  | actionHead _ => true
  | _ => false

def Piece.isActionParam : Piece → Bool
  | actionParam .. => true
  | _ => false

def readLine? : List Piece → Option Statement
  | [.indent _, .operand o, .assignSign, .operand o', .endStatement] =>
    some (.assign o.text o'.text)
  | [.indent _, .operand o, .assignSign, .param i, .endStatement] =>
    some (.assign o.text (paramName i))
  | [.indent _, .operand o, .assignSign, .operand l, .operator op, .operand r, .endStatement] =>
    some (.arith o.text l.text op r.text)
  | [.indent _, .dropPacket] => some .drop
  | [.indent _, .compressOpen, .operand o, .compressClose] => some (.compress o.text)
  | [.indent _, .endStatement] => some .empty
  | _ => none

def readBody? : List Piece → Option (List Statement) :=
  readGroups? Piece.isIndent readLine?

def readAction? : List Piece → Option Action
  | .actionHead name :: ps =>
    match ps.dropWhile Piece.isActionParam with
    | .actionBody :: body => match body.getLast? with
      | some .blockClose =>
        (readBody? body.dropLast).map fun ss =>
          ⟨name, (ps.takeWhile Piece.isActionParam).length, ss⟩
      | _ => none
    | _ => none
  | _ => none

def readActions? : List Piece → Option (List Action) :=
  readGroups? Piece.isActionHead readAction?

def actionPieces (name : String) (params body : List Piece) : List Piece :=
  .actionHead name :: (params ++ .actionBody :: (body ++ [.blockClose]))

theorem readAction?_actionPieces (name : String) {params body : List Piece} {ss : List Statement}
    (hparams : ∀ p ∈ params, p.isActionParam = true) (hbody : readBody? body = some ss) :
    readAction? (actionPieces name params body) = some ⟨name, params.length, ss⟩ := by
  have htake : (params ++ Piece.actionBody :: (body ++ [.blockClose])).takeWhile
      Piece.isActionParam = params := by
    rw [takeWhile_append_of_pos hparams]
    exact append_nil params
  have hdrop : (params ++ Piece.actionBody :: (body ++ [.blockClose])).dropWhile Piece.isActionParam
      = .actionBody :: (body ++ [.blockClose]) := by
    rw [dropWhile_append_of_pos hparams]
    rfl
  simp only [actionPieces, readAction?, htake, hdrop, getLast?_concat, dropLast_concat, hbody,
    Option.map_some]

/-! ### Reading tables -/

def readKeys : List Piece → List String × List Piece
  | .keyMargin :: .operand o :: .keyEnd :: ps => (o.text :: (readKeys ps).1, (readKeys ps).2)
  | ps => ([], ps)

def readNames : List Piece → List String × List Piece
  | .actionName a :: ps => (a :: (readNames ps).1, (readNames ps).2)
  | ps => ([], ps)

def readEnd? : List Piece → Option (Option String)
  | [.sectionClose, .blockClose] => some none
  | [.sectionClose, .defaultAction a, .blockClose] => some (some a)
  | _ => none

/-- The name, the keys, the actions and the default action of a table. -/
def readTable? : List Piece → Option (String × List String × List String × Option String)
  | .tableHead name :: .keysOpen :: ps =>
    match (readKeys ps).2 with
    | .sectionClose :: .actionsOpen :: qs =>
      (readEnd? (readNames qs).2).map fun d => (name, (readKeys ps).1, (readNames qs).1, d)
    | _ => none
  | _ => none

def readEntry? : Piece → Option Entry
  | .entry e => some e
  | _ => none

/-- The table that a line of control code applies. -/
def readApply? : List Piece → Option String
  | [.indent _, .apply name] => some name
  | _ => none

/-- What is added to the texts of a fragment for a table. -/
structure Code where
  table : List Piece
  action : List Piece
  entry : List Piece
  control : List Piece

/-- Reads a table that is applied where it is declared, and whose actions are those it names. -/
def readCode? (c : Code) : Option MatchTable := do
  let (name, ks, names, d) ← readTable? c.table
  let actions ← readActions? c.action
  let entries ← c.entry.mapM readEntry?
  if readApply? c.control = some name ∧ actions.map (·.name) = names then
    some ⟨name, ks, actions, d, entries⟩ else none

theorem readKeys_keyLines (os : List Operand) (ps : List Piece) :
    readKeys (Emit.keyLines os ++ .sectionClose :: ps) =
      (os.map (·.text), .sectionClose :: ps) := by
  induction os with
  | nil => rfl
  | cons o os ih =>
    rw [Emit.keyLines, flatMap_cons, append_assoc, ← Emit.keyLines]
    simp only [cons_append, nil_append, readKeys, ih, map_cons]

theorem readNames_map (names : List String) (ps : List Piece) :
    readNames (names.map .actionName ++ .sectionClose :: ps) = (names, .sectionClose :: ps) := by
  induction names with
  | nil => rfl
  | cons a names ih => simp only [map_cons, cons_append, readNames, ih]

theorem readTable?_eq (name : String) (os : List Operand) (names : List String)
    (d : Option String) :
    readTable? (.tableHead name :: .keysOpen ::
      (Emit.keyLines os ++ .sectionClose :: .actionsOpen ::
      (names.map .actionName ++ .sectionClose ::
        ((d.map Piece.defaultAction).toList ++ [.blockClose]))))
      = some (name, os.map (·.text), names, d) := by
  simp only [readTable?, readKeys_keyLines, readNames_map]
  cases d <;> rfl

theorem mapM_readEntry? (es : List Entry) : (es.map Piece.entry).mapM readEntry? = some es := by
  induction es with
  | nil => rfl
  | cons e es ih =>
    rw [map_cons, mapM_cons, ih]
    rfl

/-- **A table is read back from its head, its actions, its entries and its application.** -/
theorem readCode?_eq {t : MatchTable} {os : List Operand} (hkeys : t.keys = os.map (·.text))
    {action : List Piece} (haction : readActions? action = some t.actions) (level : Nat) :
    readCode? ⟨.tableHead t.name :: .keysOpen ::
      (Emit.keyLines os ++ .sectionClose :: .actionsOpen ::
        ((t.actions.map (·.name)).map .actionName ++ .sectionClose ::
          ((t.default?.map Piece.defaultAction).toList ++ [.blockClose]))),
      action, t.entries.map .entry, [.indent level, .apply t.name]⟩ = some t := by
  simp only [readCode?, readTable?_eq, haction, mapM_readEntry?, Option.bind_eq_bind,
    Option.bind_some, readApply?, and_self, if_true, ← hkeys]

end Pathwise
