import Pathwise.Proofs.Fragment.Actions

/-!
# What is written for an if that becomes a table

An if that fits into a single table is a chain of links (`Ins.chain`): each asks for membership in a
map or set and has a block.  For every link an action is written with the statements of its block,
and an entry for every row of its map or set; all entries match the keys of the first link.
`table_eq_ok` says what is written (`Links`), and `Describes.written` that it is read as a table.
-/

namespace Pathwise

open Steps List

/-! ### Cases -/

/-- The map or set that a condition asks for. -/
def Condition.tableName? (c : Condition) : Option String :=
  c.right.head?.bind fun t => (t.textAt? [0, 0]).toOption

namespace Scope

variable (sc : Scope)

/-- The number of parameters of an action: a map has one for each of its value columns, a set
none. -/
def arity (name : String) : Nat :=
  ((sc.maps.find? name).map (·.value.length)).getD 0

/-- The case of a table that a condition with its block becomes. -/
def case? (c : Condition) (b : List Ins) : Option Case := do
  let name ← c.tableName?
  let m ← sc.lookup? name
  some ⟨m.entries, sc.arity name, ← sc.statements? b⟩

/-- What a table does if no entry fits. -/
def otherwise? : Option (List Ins) → Option (Option (List Statement))
  | none => some none
  | some b => (sc.statements? b).map some

/-- The cases of an if and what follows its last `else`. -/
def cases? : Ins → Option (List Case × Option (List Statement))
  | .branch (c :: _) (b :: _) none d => do some ([← sc.case? c b], ← sc.otherwise? d)
  | .branch (c :: _) (b :: _) (some e) _ => do
    let x ← sc.case? c b
    let (xs, o) ← cases? e
    some (x :: xs, o)
  | _ => none

end Scope

/-- All blocks of an if consist of instructions that can stand in an action. -/
def Ins.StepsOnly : Ins → Prop
  | .branch _ (b :: _) none d => (∀ i ∈ b, i.IsStep) ∧ ∀ b', d = some b' → ∀ i ∈ b', i.IsStep
  | .branch _ (b :: _) (some e) _ => (∀ i ∈ b, i.IsStep) ∧ StepsOnly e
  | _ => True

/-! ### The effects of tables -/

/-- What is added for an action of a table: its name is drawn and listed, and its body and its
entries follow. -/
def actionEffect (a : String) (params : List Piece) (body : Effect)
    (entries : List Entry) : Effect :=
  .draw a ++ .write .table [.actionName a] ++ .write .action
    (.actionHead a :: (params ++ [.actionBody])) ++ body ++
    .write .action [.blockClose] ++ .write .entry (entries.map .entry)

def tableEnd (deflt : Option String) : List Piece :=
  .sectionClose :: (deflt.map Piece.defaultAction).toList ++ [.blockClose]

/-- What is added for a table: temporary variables `ds`, the head with the keys, the parts, and the
control code `ps`. -/
def tableEffect (t : String) (ds keys : List Piece) (parts : Effect) (deflt : Option String)
    (ps : List Piece) : Effect :=
  .write .temp ds ++ .countTable ++ .write .table
    (.tableHead t :: .keysOpen :: (keys ++ [.actionsOpen])) ++ parts ++
    .write .table (tableEnd deflt) ++ .write .control ps

namespace Code

/-- The pieces that are added to one text. -/
def of (c : Code) : TextKind → List Piece
  | .table => c.table
  | .action => c.action
  | .entry => c.entry
  | .control => c.control
  | _ => []

def addedTo (c : Code) (fragment : String) (k : TextKey) : List Piece :=
  if k.owner = fragment then c.of k.kind else []

end Code

/-- What was added to the texts of a fragment is read as a table. -/
def AddsTable (fragment : String) (g g' : Generation) (t : MatchTable) : Prop :=
  ∃ code : Code, (∀ k, g'.written k = g.written k ++ code.addedTo fragment k) ∧
    readCode? code = some t

/-- Actions and entries are added, where the text of the actions is read as `action`. -/
structure Describes (e : Effect) (action : List Piece) (actions : List Action)
    (entries : List Entry) : Prop where
  table : e.own .table = actions.map fun a => .actionName a.name
  action : readActions? action = some actions
  entry : e.own .entry = entries.map .entry
  names : e.actions = actions.map (·.name)
  own : ∀ kind, kind ≠ .table → kind ≠ .action → kind ≠ .entry → e.own kind = []
  vars : ∀ scope, e.vars scope = []

namespace Describes

variable {e e' : Effect} {action action' : List Piece} {actions actions' : List Action}
  {entries entries' : List Entry}

theorem empty : Describes .empty [] [] [] :=
  ⟨rfl, rfl, rfl, rfl, fun _ _ _ _ => rfl, fun _ => rfl⟩

theorem append (h : Describes e action actions entries)
    (h' : Describes e' action' actions' entries') :
    Describes (e ++ e') (action ++ action') (actions ++ actions') (entries ++ entries') where
  table := by rw [Effect.own_append, h.table, h'.table, map_append]
  action := readGroups?_append h.action h'.action
  entry := by rw [Effect.own_append, h.entry, h'.entry, map_append]
  names := by rw [Effect.actions_append, h.names, h'.names, map_append]
  own kind h1 h2 h3 := by rw [Effect.own_append, h.own kind h1 h2 h3,
    h'.own kind h1 h2 h3, append_nil]
  vars scope := by rw [Effect.vars_append, h.vars, h'.vars, append_nil]

/-- An action with its entries, where `qs` is read as its body. -/
theorem single {a : String} {params ps qs : List Piece} {ss : List Statement}
    (hparams : ∀ p ∈ params, p.isActionParam = true) (hbody : IsBody qs ss) :
    Describes (actionEffect a params (.write .action ps) entries) (actionPieces a params qs)
    [⟨a, params.length, ss⟩] entries where
  table := by simp [actionEffect]
  action := readActions?_actionPieces a hparams hbody
  entry := by simp [actionEffect]
  names := by simp [actionEffect]
  own kind h1 h2 h3 := by simp [actionEffect, h1, h2, h3]
  vars scope := by simp [actionEffect]

/-- **What is written for a table is read as that table.** -/
theorem written {t : MatchTable} {keys : List Operand} {ds ps : List Piece} {f : String}
    {g g' : Generation} (h : Describes e action t.actions t.entries)
    (hkeys : t.keys = keys.map (·.text))
    (hp : Performs f g (tableEffect t.name ds
      (Emit.keyLines keys ++ [.sectionClose]) e t.default? ps) g') :
    ∃ code : Code, (∀ k, g'.written k = g.written k ++ only ⟨f, .temp⟩ ds k ++ code.addedTo f k) ∧
      code.action = e.own .action ∧ code.control = ps ∧
      ∀ level, readCode? ⟨code.table, action, code.entry,
        [.indent level, .apply t.name]⟩ = some t := by
  refine ⟨⟨_, _, t.entries.map .entry, _⟩, ?_, rfl, rfl,
    fun level => readCode?_eq hkeys h.action level⟩
  rintro ⟨owner, kind⟩
  rw [hp.text, append_assoc]
  congr 1
  by_cases ho : owner = f
  · cases kind <;> simp [ho, tableEffect, tableEnd, Effect.addedTo, only, Code.addedTo, Code.of,
      h.table, h.entry, h.own, h.vars]
  · cases kind <;> simp [ho, tableEffect, Effect.addedTo, only, Code.addedTo, h.vars]

/-- The actions of a table have different names. -/
theorem nodup {t : String} {ds keys ps : List Piece} {deflt : Option String} {f : String}
    {g g' : Generation} (h : Describes e action actions entries)
    (hp : Performs f g (tableEffect t ds keys e deflt ps) g') : (actions.map (·.name)).Nodup := by
  have hnodup := hp.nodup
  simpa [tableEffect, h.names] using hnodup

end Describes

/-! ### Entries and parameters -/

/-- The rows have columns for `k` keys, and the first of them has columns for `n` parameters. -/
structure RowsFit (k n : Nat) (rows : List (List String)) : Prop where
  wide : ∀ row ∈ rows, k ≤ row.length
  first : ∀ row, rows.head? = some row → k + n = row.length

namespace Emit

variable {g g' : Generation} {sc : Scope} {site : Site}

theorem rowEntry_eq_ok {table action : String} {keys row : List String} {e : Entry}
    (h : rowEntry table action keys row g = .ok e g') :
    keys.length ≤ row.length ∧ e = .ofRow table action keys row ∧ g = g' := by
  rw [rowEntry] at h
  split at h
  · obtain ⟨_, _, h, _⟩ := bind_eq_ok.mp h
    exact absurd h throw_ne_ok
  · next hlen =>
    obtain ⟨rfl, rfl⟩ := pure_eq_ok.mp h
    exact ⟨Nat.le_of_not_lt hlen, rfl, rfl⟩

theorem entries_eq_ok {f table action shown : String} {keys : List String} {n : Nat}
    {rows : List (List String)} {u : Unit}
    (h : entries ⟨f, .entry⟩ table action keys n shown rows g = .ok u g') :
    RowsFit keys.length n rows ∧ Performs f g
      (.write .entry ((rows.map (.ofRow table action keys)).map .entry)) g' := by
  simp only [entries, bind_eq_ok] at h
  obtain ⟨_, g1, h1, h⟩ := h
  have p1 : Performs f g (.write .entry []) g1 := .emit h1
  cases rows with
  | nil =>
    obtain ⟨_, rfl⟩ := pure_eq_ok.mp h
    exact ⟨⟨forall_mem_nil _, fun _ h => by cases h⟩, p1⟩
  | cons first rows =>
    simp only at h
    split at h
    · simp only [bind_eq_ok] at h
      obtain ⟨_, _, _, _, _, _, _, _, _, _, _, hhalt, _⟩ := h
      exact absurd hhalt Gen.lift_halt_ne_ok
    · next hwidth =>
      simp only [bind_eq_ok, pure_eq_ok] at h
      obtain ⟨_, g2, h2, _, rfl⟩ := h
      have hloop := Performs.forIn (f := f) .entry
        (fun row => [.entry (.ofRow table action keys row)])
        (fun row => keys.length ≤ row.length) ?_ _ h2
      · rw [← map_eq_flatMap] at hloop
        refine ⟨⟨hloop.1, ?_⟩, by rw [map_map]; exact p1.append hloop.2⟩
        rintro _ ⟨⟩
        exact not_not.mp hwidth
      · intro row g r g' hpass
        simp only [bind_eq_ok, pure_eq_ok] at hpass
        obtain ⟨e, g3, h3, _, g4, h4, rfl, rfl⟩ := hpass
        obtain ⟨hlen, rfl, rfl⟩ := rowEntry_eq_ok h3
        exact ⟨rfl, hlen, .emit h4⟩

theorem actionParams_eq_ok {f : String} {types : List String} {ps : List Piece}
    (h : actionParams types g = .ok ps g') :
    Performs f g .empty g' ∧ ps.length = types.length ∧ ∀ p ∈ ps, p.isActionParam = true := by
  have hpass : ∀ (x : String × Nat) (g : Generation) (p : Piece) (g' : Generation),
      (do pure (.actionParam x.2 (← Gen.typeOf x.1)) : Gen Piece) g = .ok p g' → g = g' ∧
        p.isActionParam = true := by
    intro x g p g' h
    simp only [bind_eq_ok, pure_eq_ok] at h
    obtain ⟨type, g1, h1, rfl, rfl⟩ := h
    exact ⟨Gen.typeOf_eq_ok h1, rfl⟩
  obtain ⟨hlen, hall⟩ := mapM_all _ _ (fun x _ g p g' h => (hpass x g p g' h).2) h
  rw [length_zipIdx] at hlen
  exact ⟨.mapM (fun x g p g' h => (hpass x g p g' h).1 ▸ .refl f g) h, hlen, hall⟩

/-- Recording the keys of a table has no effect. -/
theorem recordInputs_eq_ok {f : String} {keys : List Operand} {u : PUnit}
    (h : (forIn keys PUnit.unit (fun o _ => do
      Gen.recordInput f o.text
      pure (ForInStep.yield PUnit.unit)) : Gen PUnit) g = .ok u g') : Performs f g .empty g' := by
  have hloop := (Performs.forIn (f := f) .table (fun _ => []) (fun _ => True) ?_ _ h).2
  · rwa [flatMap_eq_nil_iff.mpr fun _ _ => rfl, Effect.write_nil] at hloop
  · intro o g r g' hpass
    simp only [bind_eq_ok, pure_eq_ok] at hpass
    obtain ⟨_, g1, h1, rfl, rfl⟩ := hpass
    rw [Effect.write_nil]
    exact ⟨rfl, trivial, .recordInput h1⟩

/-! ### Links -/

/-- What the links of an if write: an action with its entries for every case, and the default action
at last. -/
inductive Links (sc : Scope) (table : String) (keys : List Operand) :
    List (String × Case) → Option (String × List Statement) → Effect → Prop
  | none : Links sc table keys [] none .empty
  | default {a : String} {ps : List Piece} {ss : List Statement} (hbody : IsBody ps ss)
      (hplain : ∀ p ∈ ps, p.IsPlain sc) :
      Links sc table keys [] (some (a, ss)) (actionEffect a [] (.write .action ps) [])
  | link {a name : String} {m : Lookup} {params ps : List Piece} {ss : List Statement}
      {named : List (String × Case)} {other : Option (String × List Statement)} {e : Effect}
      (hm : sc.lookup? name = some m) (hrows : RowsFit keys.length params.length m.entries)
      (hparams : ∀ p ∈ params, p.isActionParam = true) (hbody : IsBody ps ss)
      (hplain : ∀ p ∈ ps, p.IsPlain sc) (h : Links sc table keys named other e) :
      Links sc table keys ((a, ⟨m.entries, params.length, ss⟩) :: named) other
        (actionEffect a params (.write .action ps)
          (m.entries.map (.ofRow table a (keys.map (·.text)))) ++ e)

namespace Links

variable {table : String} {keys : List Operand} {named : List (String × Case)}
  {other : Option (String × List Statement)} {e : Effect}

theorem describes (h : Links sc table keys named other e) : Describes e (e.own .action)
    (MatchTable.ofCases table (keys.map (·.text)) named other).actions
    (MatchTable.ofCases table (keys.map (·.text)) named other).entries := by
  have haction : ∀ {a : String} {params ps : List Piece} {entries : List Entry},
      (actionEffect a params (.write .action ps) entries).own .action =
        actionPieces a params ps := by
    intro a params ps entries
    simp [actionEffect, actionPieces]
  induction h with
  | none => exact .empty
  | default hbody _ =>
    rw [haction]
    exact .single (forall_mem_nil _) hbody
  | link _ _ hparams hbody _ _ ih =>
    rw [Effect.own_append, haction]
    exact (Describes.single hparams hbody).append ih

theorem wide (h : Links sc table keys named other e) :
    ∀ x ∈ named, ∀ row ∈ x.2.rows, keys.length ≤ row.length := by
  induction h with
  | none => exact forall_mem_nil _
  | default _ _ => exact forall_mem_nil _
  | link _ hrows _ _ _ _ ih => exact forall_mem_cons.mpr ⟨hrows.wide, ih⟩

end Links

theorem tableNameOf_eq_ok {c : Condition} {t : Tree} {ts : List Tree} {name : String}
    (hc : c.right = t :: ts) (h : (liftM (tableNameOf t) : Gen String) g = .ok name g') :
    c.tableName? = some name := by
  obtain ⟨_, hname, _⟩ := Gen.report_eq_ok.mp h
  rw [Condition.tableName?, hc, head?_cons, Option.bind_some, (lift_shape_eq_ok.mp hname).1]
  rfl

theorem linkAction_eq_ok {table : String} {cs : List Condition}
    {link : String × String × Option Lookup} (h : linkAction sc site table cs g = .ok link g') :
    ∃ a c cs' name params, cs = c :: cs' ∧ c.tableName? = some name ∧
      link = (a, name, sc.maps.find? name) ∧
      (∀ p ∈ params, p.isActionParam = true) ∧ params.length = sc.arity name ∧
      Performs site.fragment g (.draw a ++ .write .table [.actionName a] ++
        .write .action (.actionHead a :: (params ++ [.actionBody]))) g' := by
  simp only [linkAction, bind_eq_ok, pure_eq_ok] at h
  obtain ⟨a, g1, h1, _, g2, h2, _, g3, h3, c, g4, h4, t, g5, h5, name, g6, h6, params, g7, h7, _,
    g8, h8, rfl, rfl⟩ := h
  obtain ⟨cs', rfl⟩ := firstOf_eq_ok h4
  obtain ⟨ts, hts⟩ := firstOf_eq_ok h5
  obtain ⟨p7, hlen, hparams⟩ := actionParams_eq_ok h7
  refine ⟨a, c, cs', name, params, rfl, tableNameOf_eq_ok hts h6, rfl, hparams, ?_, ?_⟩
  · rw [hlen, Scope.arity]
    cases sc.maps.find? name <;> rfl
  · have p8 := ((((Performs.emit h3).silent (.report h4)).silent (.report h5)).silent
      (.report h6)).silent p7 |>.append (.emit h8)
    exact ((Performs.drawAction h1).trans (.emit h2)).trans p8

theorem linkEntries_eq_ok {table action name : String} {keys : List Operand} {u : Unit}
    (h : linkEntries sc site table keys (action, name, sc.maps.find? name) g = .ok u g') :
    ∃ m, sc.lookup? name = some m ∧ RowsFit keys.length (sc.arity name) m.entries ∧
      Performs site.fragment g (.write .entry
        ((m.entries.map (.ofRow table action (keys.map (·.text)))).map .entry)) g' := by
  simp only [linkEntries, bind_eq_ok] at h
  obtain ⟨_, g1, h1, h⟩ := h
  have hentries : ∀ {m : Lookup} {n : Nat} {shown : String},
      entries ⟨site.fragment, .entry⟩ table action (keys.map (·.text)) n shown m.entries g1 =
        .ok u g' →
      RowsFit keys.length n m.entries ∧
      Performs site.fragment g (.write .entry
        ((m.entries.map (.ofRow table action (keys.map (·.text)))).map .entry)) g' := by
    intro m n shown h
    obtain ⟨hrows, p⟩ := entries_eq_ok h
    rw [length_map] at hrows
    exact ⟨hrows, (Performs.emit h1).append p⟩
  rw [Scope.lookup?, Scope.arity]
  cases hm : sc.maps.find? name with
  | some m =>
    rw [hm] at h
    exact ⟨m, rfl, hentries h⟩
  | none =>
    rw [hm] at h
    cases hs : sc.sets.find? name with
    | some s =>
      simp only [hs] at h
      exact ⟨s, rfl, hentries h⟩
    | none =>
      simp only [hs] at h
      exact absurd h throw_ne_ok

section

variable (run : Job → Gen Unit) (sc : Scope) (site : Site) (table : String) (keys : List Operand)

def defaultPart : Option (List Ins) → Gen (Option String)
  | none => pure none
  | some d => do
    let action ← beginDefault site table
    block run sc ⟨site.fragment, 1, true⟩ ⟨false, 0, 0⟩ d
    Gen.emit (site.key .action) [.blockClose]
    pure (some action)

/-- What is written after the first link. -/
def laterLinks (e : Option Ins) (d : Option (List Ins)) : Gen (Option String) :=
  match e with
  | some e => tableLinks run sc site table keys e
  | none => defaultPart run sc site table d

theorem tableLinks_branch (cs : List Condition) (b : List Ins) (bs : List (List Ins))
    (e : Option Ins) (d : Option (List Ins)) :
    tableLinks run sc site table keys (.branch cs (b :: bs) e d) = (do
      let link ← linkAction sc site table cs
      block run sc ⟨site.fragment, 1, true⟩ ⟨false, 0, 0⟩ b
      Gen.emit (site.key .action) [.blockClose]
      linkEntries sc site table keys link
      laterLinks run sc site table keys e d) := by
  cases e <;> cases d <;> rfl

theorem tableLinks_nil (cs : List Condition) (e : Option Ins) (d : Option (List Ins)) :
    tableLinks run sc site table keys (.branch cs [] e d) = (do
      let link ← linkAction sc site table cs
      (throw .outOfRange : Gen Unit)
      Gen.emit (site.key .action) [.blockClose]
      linkEntries sc site table keys link
      laterLinks run sc site table keys e d) := by
  cases e <;> cases d <;> rfl

theorem tableLinks_other {i : Ins} (hi : ∀ cs bs e d, i ≠ .branch cs bs e d) :
    tableLinks run sc site table keys i = (do
      let _ ← linkAction sc site table i.conditions
      throw .outOfRange) := by
  cases i with
  | branch cs bs e d => exact absurd rfl (hi cs bs e d)
  | _ => rfl

end

theorem defaultPart_eq_ok {run : Job → Gen Unit} {table : String} {keys : List Operand}
    {d : Option (List Ins)} {deflt : Option String} (hd : ∀ b, d = some b → ∀ i ∈ b, i.IsStep)
    (h : defaultPart run sc site table d g = .ok deflt g') :
    ∃ other e, sc.otherwise? d = some (other.map (·.2)) ∧ Links sc table keys [] other e ∧
      Performs site.fragment g e g' ∧ deflt = other.map (·.1) := by
  cases d with
  | none =>
    obtain ⟨rfl, rfl⟩ := pure_eq_ok.mp h
    exact ⟨none, _, rfl, .none, .refl _ g, rfl⟩
  | some b =>
    simp only [defaultPart, beginDefault, bind_eq_ok, pure_eq_ok] at h
    obtain ⟨_, _, ⟨a, g1, h1, _, g2, h2, _, g3, h3, rfl, rfl⟩, _, g4, h4, _, g5, h5, rfl, rfl⟩ := h
    obtain ⟨ps, ss, p4, hss, hbody, hplain⟩ := block_eq_ok b (hd b rfl) h4
    refine ⟨some (a, ss), _, ?_, .default hbody hplain, ?_, rfl⟩
    · rw [Scope.otherwise?, hss]
      rfl
    · have p := ((((Performs.drawAction h1).trans (.emit h2)).trans (.emit h3)).trans p4).trans
        (.emit h5)
      rw [actionEffect, map_nil, Effect.write_nil, Effect.append_empty]
      exact p

theorem tableLinks_eq_ok {run : Job → Gen Unit} {table : String} {keys : List Operand} (i : Ins)
    {g g' : Generation} {deflt : Option String} (hi : i.StepsOnly)
    (h : tableLinks run sc site table keys i g = .ok deflt g') :
    ∃ named other e, sc.cases? i = some (named.map (·.2), other.map (·.2)) ∧
      Links sc table keys named other e ∧
      Performs site.fragment g e g' ∧ deflt = other.map (·.1) := by
  cases i with
  | branch cs bs e d =>
    cases bs with
    | nil =>
      rw [tableLinks_nil] at h
      simp only [bind_eq_ok] at h
      obtain ⟨_, _, _, _, _, h, _⟩ := h
      exact absurd h throw_ne_ok
    | cons b bs =>
      rw [tableLinks_branch] at h
      simp only [bind_eq_ok] at h
      obtain ⟨link, g1, h1, _, g2, h2, _, g3, h3, _, g4, h4, h5⟩ := h
      obtain ⟨a, c, cs', name, params, rfl, hname, rfl, hparams, harity, p1⟩ := linkAction_eq_ok h1
      obtain ⟨m, hm, hrows, p4⟩ := linkEntries_eq_ok h4
      have hlater : (∀ i ∈ b, i.IsStep) ∧ ∃ named other er, (∀ x, sc.case? c b = some x →
          sc.cases? (.branch (c :: cs') (b :: bs) e d) =
            some (x :: named.map (·.2), other.map (·.2))) ∧
          Links sc table keys named other er ∧ Performs site.fragment g4 er g' ∧
            deflt = other.map (·.1) := by
        cases e with
        | none =>
          obtain ⟨other, er, hother, hlinks, p5, hdeflt⟩ := defaultPart_eq_ok hi.2 h5
          refine ⟨hi.1, [], other, er, fun x hx => ?_, hlinks, p5, hdeflt⟩
          rw [Scope.cases?, hx, hother]
          rfl
        | some e =>
          obtain ⟨named, other, er, hcases, hlinks, p5, hdeflt⟩ := tableLinks_eq_ok e hi.2 h5
          refine ⟨hi.1, named, other, er, fun x hx => ?_, hlinks, p5, hdeflt⟩
          rw [Scope.cases?, hx, hcases]
          rfl
      obtain ⟨hb, named, other, er, hcases, hlinks, p5, hdeflt⟩ := hlater
      obtain ⟨ps, ss, p2, hss, hbody, hplain⟩ := block_eq_ok b hb h2
      rw [← harity] at hrows
      refine ⟨(a, ⟨m.entries, params.length, ss⟩) :: named, other, _, hcases _ ?_,
        .link hm hrows hparams hbody hplain hlinks,
        (((p1.trans p2).trans (.emit h3)).trans p4).trans p5, hdeflt⟩
      rw [Scope.case?, hname, hss, harity]
      simp only [Option.bind_eq_bind, Option.bind_some, hm]
  | _ =>
    rw [tableLinks_other _ _ _ _ _ (by simp), bind_eq_ok] at h
    obtain ⟨_, _, _, h⟩ := h
    exact absurd h throw_ne_ok

/-! ### The whole table -/

theorem beginTable_eq_ok {cs : List Condition} {table : String} {keys : List Operand}
    (h : beginTable sc site cs g = .ok (table, keys) g') :
    ∃ c cs', cs = c :: cs' ∧ c.left.mapM sc.operand? = some keys ∧
      Performs site.fragment g (.countTable ++
      .write .table (.tableHead table :: .keysOpen ::
        (keyLines keys ++ [.sectionClose] ++ [.actionsOpen]))) g' := by
  simp only [beginTable, bind_eq_ok, pure_eq_ok] at h
  obtain ⟨_, g1, h1, c, g2, h2, t, g3, h3, name, g4, h4, table', g5, h5, keys', g6, h6, _, g7, h7,
    _, g8, h8, _, g9, h9, hpair, rfl⟩ := h
  cases hpair
  obtain ⟨cs', rfl⟩ := firstOf_eq_ok h2
  have hkeys := mapM_eq_some (fun t _ _ _ h => Gen.quiet_eq_ok (sc.resolve_quiet t) h) _ h6
  have p1 := ((((Performs.recordTable h1).silent (.report h2)).silent (.report h3)).silent
    (.report h4)).silent (.drawTable h5)
  have p7 : Performs site.fragment g6 _ g7 := .emit h7
  exact ⟨c, cs', rfl, hkeys, (p1.silent (.mapM (fun _ _ _ _ => .report) h6)).trans
    ((p7.silent (recordInputs_eq_ok h8)).append (.emit h9))⟩

/-- **What is written for an if that becomes a table**: an action for every case, and the entries of
its rows. -/
theorem table_eq_ok {run : Job → Gen Unit} {i : Ins} {u : Unit} (hi : i.StepsOnly)
    (h : table run sc site i g = .ok u g') :
    ∃ c cs keys name named other e, i.conditions = c :: cs ∧ c.left.mapM sc.operand? = some keys ∧
      sc.cases? i = some (named.map (·.2), other.map (·.2)) ∧ Links sc name keys named other e ∧
      Performs site.fragment g (tableEffect name [] (keyLines keys ++ [.sectionClose]) e
        (other.map (·.1)) [.indent site.level, .apply name]) g' := by
  simp only [table, endTable, bind_eq_ok] at h
  obtain ⟨⟨name, keys⟩, g1, h1, deflt, g2, h2, _, g3, h3, h4⟩ := h
  obtain ⟨c, cs, hcs, hkeys, p1⟩ := beginTable_eq_ok h1
  obtain ⟨named, other, e, hcases, hlinks, p2, rfl⟩ := tableLinks_eq_ok i hi h2
  refine ⟨c, cs, keys, name, named, other, e, hcs, hkeys, hcases, hlinks, ?_⟩
  rw [tableEffect, Effect.write_nil, Effect.empty_append]
  exact ((p1.trans p2).trans (.emit h3)).trans (.emit h4)

end Emit

end Pathwise
