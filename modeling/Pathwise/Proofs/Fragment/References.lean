import Pathwise.Proofs.Fragment.IfTable

/-!
# References between the texts of a fragment

The texts of a fragment name each other's parts: control code applies tables, tables list actions,
entries name a table and one of its actions, and all of them mention variables.

* `tables?` reads the tables off a table text, with the actions that they list and their default
  actions.
* `Linked`: what an effect adds refers to tables and actions that it declares.
* `Tabled`: what is referred to is moreover found in the right table, and tables are declared in the
  order of use.
* `Covered`: every variable that is mentioned is declared, or known in the scope, or no variable at
  all.
* `Fitting`: entries pass as many parameters as the actions that they run declare, as far as rows
  are of one width.
* `Sound` is all of this, with the counts of tables and actions, and it is kept when effects are
  joined (`sound_joins`).
-/

namespace Pathwise

open List

/-! ### Reading names off texts -/

namespace Piece

def tableHead? : Piece → Option String
  | tableHead t => some t
  | _ => none

def listed? : Piece → Option String
  | actionName a => some a
  | _ => none

def default? : Piece → Option String
  | defaultAction a => some a
  | _ => none

def declared? : Piece → Option String
  | declare _ v => some v
  | _ => none

end Piece

/-- The tables that a table text begins, in order. -/
def tableNames (ps : List Piece) : List String :=
  ps.filterMap Piece.tableHead?

def appliedTables (ps : List Piece) : List String :=
  ps.filterMap Piece.applied?

def actionNames (ps : List Piece) : List String :=
  ps.filterMap Piece.actionHead?

/-- The variables that a text declares. -/
def declaredVars (ps : List Piece) : List String :=
  ps.filterMap Piece.declared?

/-- The variables that a text mentions. -/
def mentioned (ps : List Piece) : List String :=
  ps.flatMap Piece.mentions

/-- A table as its text shows it: its name, the actions that it lists and its default action. -/
structure WrittenTable where
  name : String
  listed : List String
  default? : Option String
deriving Repr, DecidableEq

def WrittenTable.read? : List Piece → Option WrittenTable
  | .tableHead t :: ps => some ⟨t, ps.filterMap Piece.listed?, ps.findSome? Piece.default?⟩
  | _ => none

def tables? (ps : List Piece) : Option (List WrittenTable) :=
  readGroups? (fun p => p.tableHead?.isSome) WrittenTable.read? ps

section Lists

variable (ps qs : List Piece)

@[simp] theorem tableNames_append : tableNames (ps ++ qs) = tableNames ps ++ tableNames qs :=
  filterMap_append

@[simp] theorem appliedTables_append :
    appliedTables (ps ++ qs) = appliedTables ps ++ appliedTables qs :=
  filterMap_append

@[simp] theorem actionNames_append : actionNames (ps ++ qs) = actionNames ps ++ actionNames qs :=
  filterMap_append

@[simp] theorem declaredVars_append :
    declaredVars (ps ++ qs) = declaredVars ps ++ declaredVars qs :=
  filterMap_append

@[simp] theorem mentioned_append : mentioned (ps ++ qs) = mentioned ps ++ mentioned qs :=
  flatMap_append

end Lists

theorem tables?_single {t : String} {ps : List Piece} (hps : tableNames ps = []) :
    tables? (.tableHead t :: ps) =
      some [⟨t, ps.filterMap Piece.listed?, ps.findSome? Piece.default?⟩] := by
  refine readGroups?_group rfl ?_ rfl
  intro p hp
  have hnone := filterMap_eq_nil_iff.mp hps p hp
  simp [hnone]

/-! ### Effects that are closed under references -/

/-- What is added to the texts of a fragment refers to nothing but itself, and to a table that is
not finished yet. -/
structure Linked (unfinished : Option String) (e : Effect) : Prop where
  /-- the tables that are declared are applied, each as often as it is declared -/
  applied : (tableNames (e.own .table)).Perm (appliedTables (e.own .control))
  listed : ∀ a ∈ (e.own .table).filterMap Piece.listed?, a ∈ actionNames (e.own .action)
  default : ∀ a ∈ (e.own .table).filterMap Piece.default?, a ∈ actionNames (e.own .action)
  entries : ∀ p ∈ e.own .entry, ∃ x, p = .entry x ∧
    (x.table ∈ tableNames (e.own .table) ∨ unfinished = some x.table) ∧
    x.action ∈ (e.own .table).filterMap Piece.listed?

namespace Linked

variable {t : Option String} {e e' : Effect}

theorem append (h : Linked t e) (h' : Linked t e') : Linked t (e ++ e') := by
  refine ⟨?_, ?_, ?_, ?_⟩
  · simpa using h.applied.append h'.applied
  · intro a ha
    rw [Effect.own_append, filterMap_append, mem_append] at ha
    rw [Effect.own_append, actionNames_append, mem_append]
    exact ha.imp (h.listed a) (h'.listed a)
  · intro a ha
    rw [Effect.own_append, filterMap_append, mem_append] at ha
    rw [Effect.own_append, actionNames_append, mem_append]
    exact ha.imp (h.default a) (h'.default a)
  · intro p hp
    rw [Effect.own_append, filterMap_append, tableNames_append]
    rcases mem_append.mp hp with hp | hp
    · obtain ⟨x, rfl, hx, ha⟩ := h.entries p hp
      exact ⟨x, rfl, hx.imp_left (mem_append_left _), mem_append_left _ ha⟩
    · obtain ⟨x, rfl, hx, ha⟩ := h'.entries p hp
      exact ⟨x, rfl, hx.imp_left (mem_append_right _), mem_append_right _ ha⟩

theorem of_table_nil (htable : e.own .table = []) (hentry : e.own .entry = [])
    (hcontrol : appliedTables (e.own .control) = []) : Linked t e := by
  refine ⟨?_, ?_, ?_, ?_⟩
  · rw [htable, hcontrol]
    exact .nil
  · rw [htable]
    exact forall_mem_nil _
  · rw [htable]
    exact forall_mem_nil _
  · rw [hentry]
    exact forall_mem_nil _

theorem congr (h : Linked t e) (hown : ∀ kind, kind ≠ .vars → e'.own kind = e.own kind) :
    Linked t e' := by
  obtain ⟨happlied, hlisted, hdefault, hentries⟩ := h
  have htable := hown .table (by decide)
  have haction := hown .action (by decide)
  have hentry := hown .entry (by decide)
  have hcontrol := hown .control (by decide)
  refine ⟨?_, ?_, ?_, ?_⟩
  · rw [htable, hcontrol]
    exact happlied
  · rw [htable, haction]
    exact hlisted
  · rw [htable, haction]
    exact hdefault
  · rw [htable, hentry]
    exact hentries

end Linked

variable {e e' : Effect} {ps qs : List Piece} {v a : String} {n : Nat}
  {modules : OrderedMap String Module}

/-- What is referred to is found in the right table, and tables are declared in the order in which
they are applied. -/
structure Tabled (e : Effect) : Prop where
  /-- the tables that are declared are applied, in the same order -/
  applied : tableNames (e.own .table) = appliedTables (e.own .control)
  /-- tables list declared actions, and entries name a table and one of the actions that it lists -/
  listed : ∃ ts, tables? (e.own .table) = some ts ∧ ts.map (·.name) = tableNames (e.own .table) ∧
    (∀ t ∈ ts, ∀ a ∈ t.listed ++ t.default?.toList, a ∈ actionNames (e.own .action)) ∧
    ∀ p ∈ e.own .entry, ∃ x, p = .entry x ∧ ∃ t ∈ ts, t.name = x.table ∧ x.action ∈ t.listed

theorem Tabled.append (h : Tabled e) (h' : Tabled e') : Tabled (e ++ e') := by
  obtain ⟨ts, hts, hnames, hlist, hentry⟩ := h.listed
  obtain ⟨ts', hts', hnames', hlist', hentry'⟩ := h'.listed
  refine ⟨?_, ts ++ ts', readGroups?_append hts hts', ?_, ?_, ?_⟩
  · simp [h.applied, h'.applied]
  · simp [hnames, hnames']
  · intro t ht a ha
    rw [Effect.own_append, actionNames_append, mem_append]
    rcases mem_append.mp ht with ht | ht
    · exact .inl (hlist t ht a ha)
    · exact .inr (hlist' t ht a ha)
  · intro p hp
    rcases mem_append.mp hp with hp | hp
    · obtain ⟨x, rfl, t, ht, hx⟩ := hentry p hp
      exact ⟨x, rfl, t, mem_append_left _ ht, hx⟩
    · obtain ⟨x, rfl, t, ht, hx⟩ := hentry' p hp
      exact ⟨x, rfl, t, mem_append_right _ ht, hx⟩

theorem Tabled.congr (h : Tabled e) (hown : ∀ kind, kind ≠ .vars → e'.own kind = e.own kind) :
    Tabled e' := by
  have htable := hown .table (by decide)
  have haction := hown .action (by decide)
  have hentry := hown .entry (by decide)
  have hcontrol := hown .control (by decide)
  refine ⟨?_, ?_⟩
  · rw [htable, hcontrol]
    exact h.applied
  · rw [htable, haction, hentry]
    exact h.listed

theorem Tabled.single {t : String} (htable : e.own .table = .tableHead t :: ps)
    (hps : tableNames ps = []) (hcontrol : appliedTables (e.own .control) = [t])
    (haction : ∀ a ∈ ps.filterMap Piece.listed? ++ (ps.findSome? Piece.default?).toList, a ∈
      actionNames (e.own .action))
    (hentry : ∀ p ∈ e.own .entry, ∃ x, p = .entry x ∧ x.table = t ∧
      x.action ∈ ps.filterMap Piece.listed?) : Tabled e := by
  have hnames : tableNames (e.own .table) = [t] := by
    rw [htable]
    show t :: tableNames ps = [t]
    rw [hps]
  refine ⟨by rw [hnames, hcontrol], _, by rw [htable]; exact tables?_single hps, ?_, ?_, ?_⟩
  · rw [hnames]
    rfl
  · intro x hx
    rw [mem_singleton.mp hx]
    exact haction
  · intro p hp
    obtain ⟨x, rfl, hx⟩ := hentry p hp
    exact ⟨x, rfl, _, mem_singleton_self _, hx.1.symm, hx.2⟩

/-! ### Variables -/

/-- The variable is declared among the temporary variables of the fragment, or in one of its files
of variables. -/
def Effect.Declares (e : Effect) (v : String) : Prop :=
  v ∈ declaredVars (e.own .temp) ∨ ∃ scope, v ∈ declaredVars (e.vars scope) ∧ scope ∈ e.scopes

theorem Effect.Declares.left (h : e.Declares v) : (e ++ e').Declares v := by
  rcases h with h | ⟨scope, h, hscope⟩
  · exact .inl (by simp [h])
  · exact .inr ⟨scope, by simp [h], by simp [hscope]⟩

theorem Effect.Declares.right (h : e'.Declares v) : (e ++ e').Declares v := by
  rcases h with h | ⟨scope, h, hscope⟩
  · exact .inl (by simp [h])
  · exact .inr ⟨scope, by simp [h], by simp [hscope]⟩

/-- Every variable that is mentioned satisfies `known` or is declared. -/
def Covered (known : String → Prop) (e : Effect) : Prop :=
  ∀ kind, ∀ v ∈ mentioned (e.own kind), known v ∨ e.Declares v

theorem Covered.append {known : String → Prop} (h : Covered known e) (h' : Covered known e') :
    Covered known (e ++ e') := by
  intro kind v hv
  rw [Effect.own_append, mentioned_append, mem_append] at hv
  rcases hv with hv | hv
  · exact (h kind v hv).imp_right .left
  · exact (h' kind v hv).imp_right .right

/-! ### Parameters -/

/-- The map or set belongs to one of the modules. -/
def HasLookup (modules : OrderedMap String Module) (l : Lookup) : Prop :=
  ∃ name m t, modules.find? name = some m ∧ (m.maps.find? t = some l ∨ m.sets.find? t = some l)

/--
The entry has `n` parameters, or it stands for a row that is not as wide as the first row of its map
or set, and has as many parameters more or less.
-/
def Entry.Fits (modules : OrderedMap String Module) (n : Nat) (x : Entry) : Prop :=
  x.params.length = n ∨ ∃ l first row keys, HasLookup modules l ∧ l.entries.head? = some first ∧
    row ∈ l.entries ∧ x = .ofRow x.table x.action keys row ∧
    row.length ≠ first.length ∧ x.params.length + first.length = n + row.length

/-- What comes behind the head of an action declares `n` parameters. -/
def DeclaresParams (ps : List Piece) (n : Nat) : Prop :=
  ∃ params r, ps = params ++ .actionBody :: r ∧ params.length = n ∧
    ∀ p ∈ params, p.isActionParam = true

/-- The action is begun in the text, with `n` parameters. -/
def BeginsAction (ps : List Piece) (a : String) (n : Nat) : Prop :=
  ∃ l r, ps = l ++ .actionHead a :: r ∧ DeclaresParams r n

theorem DeclaresParams.left (h : DeclaresParams ps n) : DeclaresParams (ps ++ qs) n := by
  obtain ⟨params, r, rfl, hparams⟩ := h
  exact ⟨params, r ++ qs, by simp, hparams⟩

theorem BeginsAction.left (h : BeginsAction ps a n) : BeginsAction (ps ++ qs) a n := by
  obtain ⟨l, r, rfl, hr⟩ := h
  exact ⟨l, r ++ qs, by simp, hr.left⟩

theorem BeginsAction.right (h : BeginsAction qs a n) : BeginsAction (ps ++ qs) a n := by
  obtain ⟨l, r, rfl, hr⟩ := h
  exact ⟨ps ++ l, r, by simp, hr⟩

/-- Every entry fits the action that it runs, which is begun beside it. -/
def Fitting (modules : OrderedMap String Module) (e : Effect) : Prop :=
  ∀ p ∈ e.own .entry, ∃ x n, p = .entry x ∧ BeginsAction (e.own .action) x.action n ∧
    x.Fits modules n

theorem Fitting.append (h : Fitting modules e) (h' : Fitting modules e') :
    Fitting modules (e ++ e') := by
  intro p hp
  rcases mem_append.mp hp with hp | hp
  · obtain ⟨x, n, rfl, hx, hfits⟩ := h p hp
    exact ⟨x, n, rfl, hx.left, hfits⟩
  · obtain ⟨x, n, rfl, hx, hfits⟩ := h' p hp
    exact ⟨x, n, rfl, hx.right, hfits⟩

theorem Fitting.of_entry_nil (h : e.own .entry = []) : Fitting modules e := by
  rw [Fitting, h]
  exact forall_mem_nil _

/-! ### Sound effects -/

/-- What is assumed about the program that is generated. -/
structure Setting where
  modules : OrderedMap String Module
  /-- functions that have the name of a primitive hold nothing but steps -/
  regular : Prop
  /-- the texts of arguments that are not variables -/
  literal : String → Prop

/-- What every emitter ensures about its effect. -/
structure Sound (S : Setting) (sc : Scope) (e : Effect) : Prop where
  count : e.tables = (tableNames (e.own .table)).length
  actions : e.actions = actionNames (e.own .action)
  linked : Linked none e
  tabled : S.regular → Tabled e
  covered : Covered (fun v => sc.Binds v ∨ S.literal v) e
  fitting : Fitting S.modules e

theorem sound_joins (S : Setting) (sc : Scope) : Joins (Sound S sc) where
  empty := by
    refine ⟨rfl, rfl, .of_table_nil rfl rfl rfl, fun _ => ⟨rfl, [], rfl, rfl, ?_, ?_⟩, ?_,
      .of_entry_nil rfl⟩
    · intro t ht
      cases ht
    · intro p hp
      cases hp
    · intro kind v hv
      cases hv
  append := by
    intro e e' h h'
    refine ⟨?_, ?_, h.linked.append h'.linked, fun hS => (h.tabled hS).append (h'.tabled hS),
      h.covered.append h'.covered, h.fitting.append h'.fitting⟩
    · simp [h.count, h'.count]
    · simp [h.actions, h'.actions]

/-- Nothing but pieces is added to the texts of the fragment, and each of them is as `P` says. -/
structure Adds (P : TextKind → Piece → Prop) (e : Effect) : Prop where
  own : ∀ kind, ∀ p ∈ e.own kind, P kind p
  vars : ∀ scope, e.vars scope = []
  tables : e.tables = 0
  scopes : e.scopes = []
  actions : e.actions = []

theorem adds_joins (P : TextKind → Piece → Prop) : Joins (Adds P) where
  empty := by
    refine ⟨?_, fun _ => rfl, rfl, rfl, rfl⟩
    intro kind p hp
    cases hp
  append := by
    intro e e' h h'
    refine ⟨?_, ?_, ?_, ?_, ?_⟩
    · intro kind p hp
      rcases mem_append.mp hp with hp | hp
      · exact h.own kind p hp
      · exact h'.own kind p hp
    · intro scope
      simp [h.vars, h'.vars]
    · simp [h.tables, h'.tables]
    · simp [h.scopes, h'.scopes]
    · simp [h.actions, h'.actions]

namespace Adds

variable {P P' : TextKind → Piece → Prop} {e : Effect}

theorem own_eq_nil (h : Adds P e) {kind : TextKind} (hP : ∀ p, ¬ P kind p) : e.own kind = [] :=
  eq_nil_iff_forall_not_mem.mpr fun p hp => hP p (h.own kind p hp)

theorem write {kind : TextKind} {ps : List Piece} (hps : ∀ p ∈ ps, P kind p) :
    Adds P (.write kind ps) := by
  refine ⟨?_, fun _ => rfl, rfl, rfl, rfl⟩
  intro kind' p hp
  rw [Effect.write_own] at hp
  split at hp
  · next hk =>
    subst hk
    exact hps p hp
  · cases hp

end Adds

/-- Plain pieces are added to control code or to actions. -/
abbrev Plain (sc : Scope) : Effect → Prop :=
  Adds fun kind p => (kind = .control ∨ kind = .action) ∧ p.IsPlain sc

namespace Plain

variable {sc : Scope} {e : Effect}

theorem appliedTables_eq (h : Plain sc e) (kind : TextKind) : appliedTables (e.own kind) = [] :=
  filterMap_eq_nil_iff.mpr fun p hp => (h.own kind p hp).2.applied

theorem actionNames_eq (h : Plain sc e) (kind : TextKind) : actionNames (e.own kind) = [] :=
  filterMap_eq_nil_iff.mpr fun p hp => (h.own kind p hp).2.head

theorem binds (h : Plain sc e) (kind : TextKind) {v : String} (hv : v ∈ mentioned (e.own kind)) :
    sc.Binds v := by
  obtain ⟨p, hp, hv⟩ := mem_flatMap.mp hv
  exact (h.own kind p hp).2.binds v hv

theorem sound (h : Plain sc e) (S : Setting) : Sound S sc e := by
  have htable : e.own .table = [] := h.own_eq_nil (by simp)
  have hentry : e.own .entry = [] := h.own_eq_nil (by simp)
  refine ⟨?_, ?_, .of_table_nil htable hentry (h.appliedTables_eq _),
    fun _ => ⟨?_, [], ?_, ?_, ?_, ?_⟩, ?_, .of_entry_nil hentry⟩
  · rw [h.tables, htable]
    rfl
  · rw [h.actions, h.actionNames_eq]
  · rw [htable, h.appliedTables_eq]
    rfl
  · rw [htable]
    rfl
  · rw [htable]
    rfl
  · intro t ht
    cases ht
  · rw [hentry]
    exact forall_mem_nil _
  · intro kind v hv
    exact .inl (.inl (h.binds kind hv))

end Plain

end Pathwise
