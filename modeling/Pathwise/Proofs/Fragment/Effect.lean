import Pathwise.Proofs.Fragment.Written
import Pathwise.Proofs.Numbered
import Pathwise.Proofs.OrderedMap

/-!
# The effect of a step of generation

A step of generation works for one fragment.  If it succeeds, it has added pieces to the texts of
the fragment and declarations to texts of variables, counted tables and files of variables in what
is recorded about the fragment, and drawn names of actions that were never drawn before.  `Effect`
is the account of that, `Performs f g e g'` says that a step for the fragment `f` had the effect
`e`, and effects of steps that follow each other are joined (`Performs.trans`).

`Yields f x P` is what a step ensures if it succeeds: its result and its effect satisfy `P`.  The
rules for sequences and loops take the emitters apart without looking at states again.
-/

namespace Pathwise

open Steps List

variable {table a name line : String} {ps : List Piece} {u : Unit} {err : Fault}

/-! ### Names of actions -/

/-- How many names of actions were drawn for a table. -/
def Generation.drawn (g : Generation) (table : String) : Nat :=
  match g.actionNames.find? (table ++ "_action") with
  | none => 0
  | some n => n + 1

/-- The name that is drawn when `n` names were drawn before. -/
def actionNameAt (table : String) (n : Nat) : String :=
  if n = 0 then table ++ "_action" else table ++ "_action" ++ "_" ++ toString n

theorem toList_actionNameAt (table : String) {n : Nat} (hn : n ≠ 0) :
    (actionNameAt table n).toList = (table ++ "_action").toList ++ '_' :: Nat.toDigits 10 n := by
  simp only [actionNameAt, hn, if_false, toString, String.toList_append, Nat.toList_repr,
    append_assoc]
  rfl

theorem actionNameAt_injective {table' : String} {m n : Nat}
    (h : actionNameAt table m = actionNameAt table' n) :
    table = table' ∧ m = n := by
  have hlist := congrArg String.toList h
  have hfirst : ∀ table : String, (actionNameAt table 0).toList = table.toList ++ '_' ::
      "action".toList := by
    intro table
    rw [actionNameAt, if_pos rfl, String.toList_append]
    rfl
  have haction : '_' ∉ "action".toList := by decide
  have hdigits : ∀ n, '_' ∉ Nat.toDigits 10 n := notMem_toDigits (by decide)
  -- a number is not spelled like the word
  have hword : ∀ n, "action".toList ≠ Nat.toDigits 10 n := by
    intro n heq
    exact notMem_toDigits (c := 'a') (by decide) n (heq ▸ by decide)
  by_cases hm : m = 0 <;> by_cases hn : n = 0
  · subst hm hn
    rw [hfirst, hfirst] at hlist
    exact ⟨String.toList_injective (append_separator_inj haction haction hlist).1, rfl⟩
  · subst hm
    rw [hfirst, toList_actionNameAt table' hn] at hlist
    exact absurd (append_separator_inj haction (hdigits n) hlist).2 (hword n)
  · subst hn
    rw [hfirst, toList_actionNameAt table hm] at hlist
    exact absurd (append_separator_inj (hdigits m) haction hlist).2.symm (hword m)
  · rw [toList_actionNameAt table hm, toList_actionNameAt table' hn] at hlist
    obtain ⟨htable, hnumber⟩ := append_separator_inj (hdigits m) (hdigits n) hlist
    rw [String.toList_append, String.toList_append, append_cancel_right_eq] at htable
    exact ⟨String.toList_injective htable, toDigits_inj hnumber⟩

/-- The name of the action was drawn. -/
def Generation.Drawn (g : Generation) (a : String) : Prop :=
  ∃ table n, n < g.drawn table ∧ a = actionNameAt table n

namespace Gen

variable {g g' : Generation}

theorem find?_drawName (names : OrderedMap String Nat) (name n : String) :
    (drawName names name).2.find? n =
      if n = name then some ((names.find? name).elim 0 (· + 1)) else names.find? n := by
  unfold drawName
  cases names.find? name <;> exact OrderedMap.find?_insert ..

theorem drawAction_eq_ok (h : drawAction table g = .ok a g') :
    a = actionNameAt table (g.drawn table) ∧ g'.drawn table = g.drawn table + 1 := by
  obtain ⟨rfl, rfl⟩ := eq_of_drawAction h
  refine ⟨?_, ?_⟩
  · rw [drawName, Generation.drawn]
    cases g.actionNames.find? (table ++ "_action") <;> rfl
  · simp only [drawName, Generation.drawn]
    cases hf : g.actionNames.find? (table ++ "_action") <;> simp

end Gen

/-! ### Effects -/

/-- What a step for a fragment adds. -/
structure Effect where
  /-- the pieces that are added to the texts of the fragment -/
  own : TextKind → List Piece
  /-- the declarations that are added to the variables of a naming scope -/
  vars : String → List Piece
  /-- how many tables are counted -/
  tables : Nat
  /-- the naming scopes whose files of variables are recorded -/
  scopes : List String
  /-- the names of actions that are drawn -/
  actions : List String

attribute [ext] Effect

namespace Effect

@[simps] def empty : Effect := ⟨fun _ => [], fun _ => [], 0, [], []⟩

instance : Append Effect :=
  ⟨fun e e' => ⟨fun kind => e.own kind ++ e'.own kind, fun scope => e.vars scope ++ e'.vars scope,
    e.tables + e'.tables, e.scopes ++ e'.scopes, e.actions ++ e'.actions⟩⟩

@[simp] theorem own_append (e e' : Effect) (kind : TextKind) :
    (e ++ e').own kind = e.own kind ++ e'.own kind := rfl

@[simp] theorem vars_append (e e' : Effect) (scope : String) :
    (e ++ e').vars scope = e.vars scope ++ e'.vars scope := rfl

@[simp] theorem tables_append (e e' : Effect) : (e ++ e').tables = e.tables + e'.tables := rfl

@[simp] theorem scopes_append (e e' : Effect) : (e ++ e').scopes = e.scopes ++ e'.scopes := rfl

@[simp] theorem actions_append (e e' : Effect) : (e ++ e').actions = e.actions ++ e'.actions := rfl

theorem append_empty (e : Effect) : e ++ empty = e := by
  obtain ⟨own, vars, tables, scopes, actions⟩ := e
  show Effect.mk _ _ _ _ _ = _
  simp

theorem empty_append (e : Effect) : empty ++ e = e := by
  obtain ⟨own, vars, tables, scopes, actions⟩ := e
  show Effect.mk _ _ _ _ _ = _
  simp

/-- Pieces of one text of the fragment. -/
@[simps] def write (kind : TextKind) (ps : List Piece) : Effect :=
  { empty with own := fun kind' => if kind' = kind then ps else [] }

theorem write_append (kind : TextKind) (ps qs : List Piece) :
    write kind ps ++ write kind qs = write kind (ps ++ qs) := by
  refine Effect.ext (funext fun kind' => ?_) rfl rfl rfl rfl
  by_cases h : kind' = kind <;> simp [h]

theorem write_nil (kind : TextKind) : write kind [] = empty :=
  Effect.ext (funext fun _ => ite_self []) rfl rfl rfl rfl

@[simps] def declare (scope : String) (ps : List Piece) : Effect :=
  { empty with vars := fun scope' => if scope' = scope then ps else [] }

@[simps] def countTable : Effect := { empty with tables := 1 }

@[simps] def recordScope (scope : String) : Effect := { empty with scopes := [scope] }

/-- One name of an action is drawn. -/
@[simps] def draw (a : String) : Effect := { empty with actions := [a] }

/-- What is added to a text, where the step works for the fragment `f`. -/
def addedTo (e : Effect) (f : String) (k : TextKey) : List Piece :=
  if k.kind = .vars then e.vars k.owner else if k.owner = f then e.own k.kind else []

theorem addedTo_append (e e' : Effect) (f : String) (k : TextKey) :
    (e ++ e').addedTo f k = e.addedTo f k ++ e'.addedTo f k := by
  unfold addedTo
  split
  · rfl
  · split <;> rfl

theorem addedTo_eq_nil {e : Effect} (hown : ∀ kind, e.own kind = [])
    (hvars : ∀ scope, e.vars scope = []) (f : String) (k : TextKey) : e.addedTo f k = [] := by
  unfold addedTo
  split
  · exact hvars _
  · split
    · exact hown _
    · rfl

theorem addedTo_empty (f : String) (k : TextKey) : empty.addedTo f k = [] :=
  addedTo_eq_nil (fun _ => rfl) (fun _ => rfl) f k

end Effect

def varFileOf (scope : String) : String :=
  scope ++ "_var.pne"

/-- What the relation tells about the tables and the files of variables of a fragment. -/
def RelationEntry.outline : RelationEntry → RelationEntry
  | .last n => .last n
  | .fragment r =>
    .fragment { Relation.empty with varFiles := r.varFiles, tableCount := r.tableCount }

def RelationEntry.grow (e : Effect) : RelationEntry → RelationEntry
  | .last n => .last n
  | .fragment r => .fragment { r with
      varFiles := r.varFiles ++ e.scopes.map varFileOf, tableCount := r.tableCount + e.tables }

theorem RelationEntry.grow_append (e e' : Effect) (x : RelationEntry) :
    x.grow (e ++ e') = (x.grow e).grow e' := by
  cases x with
  | last n => rfl
  | fragment r => simp [grow, Int.add_assoc]

/-- What is known about a fragment. -/
def Generation.outline (g : Generation) (f : String) : Option RelationEntry :=
  (g.relation.find? f).map RelationEntry.outline

/-- A step for the fragment `f` had the effect `e`. -/
structure Performs (f : String) (g : Generation) (e : Effect) (g' : Generation) : Prop where
  text : ∀ k, g'.written k = g.written k ++ e.addedTo f k
  outline : g'.outline f = (g.outline f).map (RelationEntry.grow e)
  others : ∀ f', f' ≠ f → g'.relation.find? f' = g.relation.find? f'
  drawn_le : ∀ table, g.drawn table ≤ g'.drawn table
  fresh : ∀ a ∈ e.actions, ¬ g.Drawn a ∧ g'.Drawn a
  nodup : e.actions.Nodup

namespace Performs

variable {f : String} {g g' g'' : Generation} {e e' : Effect}

theorem drawn (h : Performs f g e g') (ha : g.Drawn a) : g'.Drawn a := by
  obtain ⟨table, n, hn, rfl⟩ := ha
  exact ⟨table, n, Nat.lt_of_lt_of_le hn (h.drawn_le table), rfl⟩

/-- **Effects of steps that follow each other are joined.** -/
theorem trans (h : Performs f g e g') (h' : Performs f g' e' g'') : Performs f g (e ++ e') g'' where
  text k := by rw [h'.text, h.text, Effect.addedTo_append, append_assoc]
  outline := by
    rw [h'.outline, h.outline, Option.map_map]
    congr 1
    funext x
    exact (x.grow_append e e').symm
  others f' hf := (h'.others f' hf).trans (h.others f' hf)
  drawn_le table := Nat.le_trans (h.drawn_le table) (h'.drawn_le table)
  fresh := by
    intro a ha
    rcases mem_append.mp ha with ha | ha
    · exact ⟨(h.fresh a ha).1, h'.drawn (h.fresh a ha).2⟩
    · exact ⟨fun hg => (h'.fresh a ha).1 (h.drawn hg), (h'.fresh a ha).2⟩
  nodup := by
    refine nodup_append.mpr ⟨h.nodup, h'.nodup, ?_⟩
    rintro a ha b hb rfl
    exact (h'.fresh a hb).1 (h.fresh a ha).2

theorem silent (h : Performs f g e g') (h' : Performs f g' .empty g'') : Performs f g e g'' := by
  have htrans := h.trans h'
  rwa [Effect.append_empty] at htrans

theorem append {kind : TextKind} {qs : List Piece} (h : Performs f g (.write kind ps) g')
    (h' : Performs f g' (.write kind qs) g'') :
    Performs f g (.write kind (ps ++ qs)) g'' :=
  Effect.write_append kind ps qs ▸ h.trans h'

theorem congr (h : Performs f g e g') (he : e = e') : Performs f g e' g' :=
  he ▸ h

theorem of_text (ht : ∀ k, g'.written k = g.written k ++ e.addedTo f k)
    (hr : g'.relation = g.relation) (ha : g'.actionNames = g.actionNames) (htables : e.tables = 0)
    (hscopes : e.scopes = []) (hactions : e.actions = []) :
    Performs f g e g' where
  text := ht
  outline := by
    have hgrow : RelationEntry.grow e = id := by
      funext x
      cases x with
      | last n => rfl
      | fragment r => simp [RelationEntry.grow, htables, hscopes]
    rw [Generation.outline, Generation.outline, hr, hgrow, Option.map_id]
    rfl
  others f' _ := by rw [hr]
  drawn_le table := Nat.le_of_eq (by rw [Generation.drawn, Generation.drawn, ha])
  fresh := by rw [hactions]; exact forall_mem_nil _
  nodup := by rw [hactions]; exact nodup_nil

theorem of_eq (ht : g'.texts = g.texts) (hr : g'.relation = g.relation)
    (ha : g'.actionNames = g.actionNames) :
    Performs f g .empty g' := by
  refine .of_text (fun k => ?_) hr ha rfl rfl rfl
  rw [Effect.addedTo_empty, append_nil, Generation.written, Generation.written, Generation.pieces?,
    Generation.pieces?, ht]

theorem refl (f : String) (g : Generation) : Performs f g .empty g :=
  .of_eq rfl rfl rfl

end Performs

/-! ### The operations -/

namespace Performs

variable {f : String} {g g' : Generation} {e : Effect}

theorem emit {kind : TextKind} (h : Gen.emit ⟨f, kind⟩ ps g = .ok u g')
    (hkind : kind ≠ .vars := by decide) :
    Performs f g (.write kind ps) g' := by
  obtain rfl := Gen.emit_eq_ok h
  refine .of_text ?_ rfl rfl rfl rfl rfl
  rintro ⟨owner, kind'⟩
  rw [written_addPieces, only, Effect.addedTo]
  congr 1
  by_cases hk : kind' = .vars
  · subst hk
    simp [Effect.write, Ne.symm hkind]
  · by_cases ho : owner = f
    · simp [hk, ho]
    · simp [hk, ho]

theorem emitVars {scope : String} (h : Gen.emit ⟨scope, .vars⟩ ps g = .ok u g') :
    Performs f g (.declare scope ps) g' := by
  obtain rfl := Gen.emit_eq_ok h
  refine .of_text ?_ rfl rfl rfl rfl rfl
  rintro ⟨owner, kind⟩
  rw [written_addPieces, only, Effect.addedTo]
  congr 1
  by_cases hk : kind = .vars
  · subst hk
    simp
  · simp [hk, Effect.declare]

theorem record {h : Relation → Relation} (htables : ∀ r, (h r).tableCount = r.tableCount + e.tables)
    (hfiles : ∀ r, (h r).varFiles = r.varFiles ++ e.scopes.map varFileOf)
    (hadded : ∀ k, e.addedTo f k = []) (hactions : e.actions = [])
    (hrun : Gen.record f h g = .ok u g') : Performs f g e g' := by
  obtain ⟨r, hr, rfl⟩ := Gen.record_eq_ok hrun
  refine ⟨?_, ?_, ?_, ?_, ?_, ?_⟩
  · intro k
    rw [hadded, append_nil]
    rfl
  · simp only [Generation.outline, OrderedMap.find?_insert_self, hr, Option.map_some,
      RelationEntry.outline, RelationEntry.grow, htables, hfiles]
  · intro f' hf
    exact OrderedMap.find?_insert_of_ne _ hf _
  · intro table
    exact Nat.le_refl _
  · rw [hactions]
    exact forall_mem_nil _
  · rw [hactions]
    exact nodup_nil

theorem recordTable (h : Gen.recordTable f g = .ok u g') : Performs f g .countTable g' := by
  refine .record ?_ ?_ (Effect.addedTo_eq_nil (fun _ => rfl) (fun _ => rfl) f) rfl h
  · exact fun _ => rfl
  · exact fun r => (append_nil r.varFiles).symm

theorem drawTable (h : Gen.drawTable name g = .ok table g') : Performs f g .empty g' := by
  obtain ⟨_, rfl⟩ := Gen.eq_of_drawTable h
  exact .of_eq rfl rfl rfl

/-- **A name of an action that is drawn was never drawn before.** -/
theorem drawAction (h : Gen.drawAction table g = .ok a g') : Performs f g (.draw a) g' := by
  obtain ⟨ha, hdrawn⟩ := Gen.drawAction_eq_ok h
  obtain ⟨_, rfl⟩ := Gen.eq_of_drawAction h
  refine ⟨?_, ?_, fun _ _ => rfl, ?_, ?_, ?_⟩
  · intro k
    rw [Effect.addedTo_eq_nil (fun _ => rfl) (fun _ => rfl), append_nil]
    rfl
  · exact (of_eq rfl rfl rfl : Performs f g .empty { g with console := g.console }).outline
  · intro table'
    by_cases ht : table' = table
    · subst ht
      omega
    · have hkey : table' ++ "_action" ≠ table ++ "_action" :=
        fun h => ht (String.append_left_inj _ |>.mp h)
      simp only [Generation.drawn, Gen.find?_drawName, if_neg hkey, Nat.le_refl]
  · intro b hb
    obtain rfl : b = a := mem_singleton.mp hb
    refine ⟨?_, table, g.drawn table, by omega, ha⟩
    rintro ⟨table', n, hn, heq'⟩
    obtain ⟨rfl, rfl⟩ := actionNameAt_injective (ha.symm.trans heq')
    exact absurd hn (Nat.lt_irrefl _)
  · exact nodup_singleton a

theorem report {α : Type} {x : Report α} {a : α} (h : (liftM x : Gen α) g = .ok a g') :
    Performs f g .empty g' := by
  obtain ⟨c, _, rfl⟩ := Gen.report_eq_ok.mp h
  exact .of_eq rfl rfl rfl

theorem onlyReports {α : Type} {x : Gen α} (hx : Gen.OnlyReports x) {a : α} (h : x g = .ok a g') :
    Performs f g .empty g' := by
  obtain ⟨said, rfl, _⟩ := hx.eq_ok h
  exact .of_eq rfl rfl rfl

/-- What is recorded about the operands and the modules of a fragment does not count. -/
theorem note {h : Relation → Relation} (hrun : Gen.record f h g = .ok u g')
    (htables : ∀ r, (h r).tableCount = r.tableCount) (hfiles : ∀ r, (h r).varFiles = r.varFiles) :
    Performs f g .empty g' := by
  refine .record (fun r => ?_) (fun r => ?_) (Effect.addedTo_empty f) rfl hrun
  · simp [htables]
  · simp [hfiles]

theorem recordInput {o : String} (h : Gen.recordInput f o g = .ok u g') : Performs f g .empty g' :=
  .note h (fun _ => rfl) (fun _ => rfl)

theorem recordOutput {o : String} (h : Gen.recordOutput f o g = .ok u g') :
    Performs f g .empty g' :=
  .note h (fun _ => rfl) (fun _ => rfl)

/-- **A loop writes what its passes write**, one after another. -/
theorem forIn {α : Type} (kind : TextKind) {body : α → PUnit → Gen (ForInStep PUnit)}
    (pieces : α → List Piece) (P : α → Prop)
    (hbody : ∀ a g r g', body a ⟨⟩ g = .ok r g' → r = .yield ⟨⟩ ∧ P a ∧
      Performs f g (.write kind (pieces a)) g') :
    ∀ (xs : List α) {g g' : Generation}
    {u : PUnit}, (forIn xs PUnit.unit body : Gen PUnit) g = .ok u g' →
      (∀ a ∈ xs, P a) ∧ Performs f g (.write kind (xs.flatMap pieces)) g' := by
  intro xs
  induction xs with
  | nil =>
    intro g g' u h
    rw [forIn_nil] at h
    obtain ⟨_, rfl⟩ := pure_eq_ok.mp h
    exact ⟨forall_mem_nil P, Effect.write_nil kind ▸ .refl f g⟩
  | cons x xs ih =>
    intro g g' u h
    rw [forIn_cons, bind_eq_ok] at h
    obtain ⟨r, g1, h1, h2⟩ := h
    obtain ⟨rfl, hx, hp⟩ := hbody x g r g1 h1
    obtain ⟨hxs, hp'⟩ := ih h2
    exact ⟨forall_mem_cons.mpr ⟨hx, hxs⟩, hp.append hp'⟩

theorem mapM {α β : Type} {k : α → Gen β}
    (hk : ∀ a g b g', k a g = .ok b g' → Performs f g .empty g') {xs : List α} {bs : List β}
    (h : xs.mapM k g = .ok bs g') : Performs f g .empty g' := by
  induction h using mapM_induction with
  | nil => exact .refl f _
  | cons hb _ ih => exact (hk _ _ _ _ hb).silent ih

end Performs

/-! ### What steps ensure -/

section Yields

variable {α β : Type} {f : String} {x : Gen α} {k : α → Gen β}

/-- If the step succeeds, its result and its effect on the fragment `f` are as `P` says. -/
def Yields (f : String) (x : Gen α) (P : α → Effect → Prop) : Prop :=
  ∀ ⦃g a g'⦄, x g = .ok a g' → ∃ e, Performs f g e g' ∧ P a e

/-- Properties of effects that the joined effect has if its parts have them. -/
structure Joins (C : Effect → Prop) : Prop where
  empty : C .empty
  append : ∀ {e e' : Effect}, C e → C e' → C (e ++ e')

/-- The result is as `Q` says and the effect as `C` says. -/
abbrev Keeps (f : String) (C : Effect → Prop) (x : Gen α) (Q : α → Prop) : Prop :=
  Yields f x fun a e => Q a ∧ C e

namespace Yields

variable {P P' : α → Effect → Prop}

theorem mono (h : Yields f x P) (hP : ∀ a e, P a e → P' a e) : Yields f x P' := by
  intro g a g' hx
  obtain ⟨e, he, hp⟩ := h hx
  exact ⟨e, he, hP a e hp⟩

theorem throw : Yields f (throw err : Gen α) P :=
  fun _ _ _ h => absurd h throw_ne_ok

theorem halt : Yields f (Report.halt line : Gen α) P := by
  intro g a g' h
  exact absurd h Gen.lift_halt_ne_ok

end Yields

namespace Keeps

variable {C : Effect → Prop} {Q : α → Prop} {R : β → Prop}

theorem bind (hC : Joins C) (hx : Keeps f C x Q) (hk : ∀ a, Q a → Keeps f C (k a) R) :
    Keeps f C (x >>= k) R := by
  intro g b g' h
  obtain ⟨a, g1, h1, h2⟩ := bind_eq_ok.mp h
  obtain ⟨e1, he1, ha, hc1⟩ := hx h1
  obtain ⟨e2, he2, hb, hc2⟩ := hk a ha h2
  exact ⟨e1 ++ e2, he1.trans he2, hb, hC.append hc1 hc2⟩

theorem pure (hC : Joins C) {a : α} (ha : Q a) : Keeps f C (pure a) Q := by
  intro g b g' h
  obtain ⟨rfl, rfl⟩ := pure_eq_ok.mp h
  exact ⟨.empty, .refl f g, ha, hC.empty⟩

theorem report (hC : Joins C) {x : Report α} (hQ : ∀ a c c', x c = .ok a c' → Q a) :
    Keeps f C (liftM x : Gen α) Q := by
  intro g a g' h
  obtain ⟨c, hx, _⟩ := Gen.report_eq_ok.mp h
  exact ⟨.empty, .report h, hQ a g.console c hx, hC.empty⟩

theorem onlyReports (hC : Joins C) {x : Gen α} (hx : Gen.OnlyReports x) :
    Keeps f C x fun a => ∃ g g', x g = .ok a g' :=
  fun g _ g' h => ⟨.empty, .onlyReports hx h, ⟨g, g', h⟩, hC.empty⟩

theorem forIn (hC : Joins C) {body : α → PUnit → Gen (ForInStep PUnit)} : ∀ (xs : List α),
    (∀ a ∈ xs, Keeps f C (body a ⟨⟩) fun r => r = .yield ⟨⟩) →
    Keeps f C (forIn xs PUnit.unit body : Gen PUnit) fun _ => True := by
  intro xs
  induction xs with
  | nil =>
    intro _
    rw [forIn_nil]
    exact .pure hC trivial
  | cons a xs ih =>
    intro h
    obtain ⟨ha, hxs⟩ := forall_mem_cons.mp h
    rw [forIn_cons]
    refine .bind hC ha ?_
    rintro _ rfl
    exact ih hxs

end Keeps

end Yields

end Pathwise
