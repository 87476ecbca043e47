import Pathwise.Proofs.Fragment.Blocks

/-!
# Properties of all emitters

A `Judgement` about steps for a fragment is given by rules: what the operations of generation need,
what is known behind them, and that sequences of steps inherit it.  Nothing else is done when
instructions are written, so the judgement holds of everything that is written for the fragment:
`Judgement.instruction`, `Judgement.block` and, for calls of modules and functions to any depth,
`Judgement.runJob`.

A step is judged under an assumption `H`, which grows with what is known behind every step
(`Judgement.bind`).
-/

namespace Pathwise

open Steps List

variable {α : Type} {run : Job → Gen Unit}

/-! ### Judgements -/

/-- The module has a parameter of that name that takes a value. -/
def Module.TakesValue (m : Module) (name : String) : Prop :=
  ∃ type, ("in", name, type) ∈ m.directions.zip (m.params.zip m.paramTypes)

/-- What control code copies into the variable of a parameter that takes a value. -/
def copyPieces (level : Nat) (var : String) (o : Operand) : List Piece :=
  (List.replicate level [.indent 1, .operand ⟨var, .var⟩, .assignSign, .operand o,
    .endStatement]).flatten

/-- The step stops, and nothing is left of it but what it reported. -/
def Stops {α : Type} (x : Gen α) : Prop :=
  ∀ g, ∃ e c, x g = .error e { g with console := c }

theorem Stops.ne_ok {x : Gen α} (h : Stops x) (g : Generation) (a : α) (g' : Generation) :
    x g ≠ .ok a g' := by
  obtain ⟨e, c, hx⟩ := h g
  rw [hx]
  nofun

/-- Texts of code, as opposed to declarations of variables and to entries. -/
abbrev TextKind.IsCode (kind : TextKind) : Prop :=
  kind ≠ .vars ∧ kind ≠ .entry

/-- A property of steps for the fragment `f`, by rules. -/
structure Judgement (modules : OrderedMap String Module) (f : String) where
  /-- under the assumption, the step is as required, and its result has the property -/
  holds : {α : Type} → Prop → Gen α → (α → Prop) → Prop
  /-- the names that scopes may have -/
  isScope : String → Prop
  /-- the names that tables may be given -/
  allowed : String → Prop
  /-- the operands that may be written -/
  used : Operand → Prop
  isScope_append : ∀ {stem callee : String} {m : Module}, modules.find? callee = some m →
    isScope stem → isScope (stem ++ "_" ++ callee)
  allowed_append : ∀ {stem : String} (name : String), isScope stem → allowed (stem ++ "_" ++ name)
  used_of_not_isStored : ∀ {o : Operand}, o.isStored = false → used o
  -- sequences
  imp : ∀ {α : Type} {H H' : Prop} {x : Gen α} {Q Q' : α → Prop}, holds H x Q → (H' → H) →
    (∀ a, H' → Q a → Q' a) → holds H' x Q'
  protected pure : ∀ {α : Type} {H : Prop} {a : α} {Q : α → Prop}, (H → Q a) → holds H (pure a) Q
  protected bind : ∀ {α β : Type} {H : Prop} {x : Gen α} {k : α → Gen β} {Q : α → Prop}
    {R : β → Prop}, holds H x Q → (∀ a, holds (H ∧ Q a) (k a) R) → holds H (x >>= k) R
  stopped : ∀ {α : Type} {H : Prop} {x : Gen α} {Q : α → Prop}, Stops x → holds H x Q
  onlyReports : ∀ {α : Type} {H : Prop} {x : Gen α}, Gen.OnlyReports x → holds H x fun _ => True
  typeOf : ∀ {H : Prop} (type : String), holds H (Gen.typeOf type) fun _ => True
  -- names
  drawTable : ∀ {H : Prop} {name : String}, allowed name → holds H (Gen.drawTable name) allowed
  drawAction : ∀ {H : Prop} {table : String}, (H → allowed table) →
    holds H (Gen.drawAction table) fun _ => True
  -- what is recorded
  recordInput : ∀ {H : Prop} (o : Operand), holds H (Gen.recordInput f o.text) fun _ => used o
  recordOutput : ∀ {H : Prop} (o : Operand), holds H (Gen.recordOutput f o.text) fun _ => used o
  recordTable : ∀ {H : Prop}, holds H (Gen.recordTable f) fun _ => True
  recordModule : ∀ {H : Prop} (name : String), holds H (Gen.record f fun r =>
    { r with modules := if r.modules.contains name then r.modules else r.modules ++ [name] })
      fun _ => True
  recordScope : ∀ {H : Prop} {scope : String}, isScope scope → holds H (Gen.record f fun r =>
    { r with varFiles := r.varFiles ++ [varFileOf scope] }) fun _ => True
  -- texts
  /-- pieces whose operands are accounted for by the time that what follows is done -/
  emitBefore : ∀ {β : Type} {H : Prop} {kind : TextKind} {ps : List Piece} {rest : Gen β}
    {Q : β → Prop}, kind.IsCode →
    holds H rest Q → (∀ b, H → Q b → ∀ o, .operand o ∈ ps → used o) →
      holds H (do Gen.emit ⟨f, kind⟩ ps; rest) Q
  /-- entries, whose keys are different -/
  emitEntries : ∀ {H : Prop} (es : List Entry), (H → ∀ e ∈ es, e.keys.keys.Nodup) →
    holds H (Gen.emit ⟨f, .entry⟩ (es.map .entry)) fun _ => True
  emitVars : ∀ {H : Prop} {scope : String} {ps : List Piece}, isScope scope →
    holds H (Gen.emit ⟨scope, .vars⟩ ps) fun _ => True
  declareVars : ∀ {H : Prop} {vars bound : OrderedMap String String} {stem : String}, isScope stem →
    holds H (Emit.declareVars vars bound stem) fun _ => True
  /-- a header compression, whose operand is not recorded -/
  compress : ∀ {H : Prop} {sc : Scope} {kind : TextKind}
    {args : List Tree}, kind.IsCode → holds H (do
      Gen.emit ⟨f, kind⟩ [.compressOpen]
      let arg ← (firstOf args : Report Tree)
      let _ ← Emit.operand .write sc ⟨f, kind⟩ arg
      Gen.emit ⟨f, kind⟩ [.compressClose]) fun _ => True
  /-- a value that is copied into the variable of a parameter, neither of which is recorded -/
  copy : ∀ {H : Prop} {callee stem name : String} {m : Module} {level : Nat} {o : Operand},
    modules.find? callee = some m → m.TakesValue name →
    holds H (Gen.emit ⟨f, .control⟩ (copyPieces level (stem ++ "_" ++ name) o)) fun _ => True

namespace Judgement

variable {modules : OrderedMap String Module} {f : String} (J : Judgement modules f)
  {H : Prop} {α β : Type}

variable {e : Fault} {line table action : String} {kind : TextKind} {ps : List Piece}
  {keys : List String}
  {run : Job → Gen Unit}

/-! ### Steps that stop -/

protected theorem throw {Q : α → Prop} : J.holds H (throw e : Gen α) Q :=
  J.stopped fun g => ⟨e, g.console, rfl⟩

theorem halt {Q : α → Prop} : J.holds H (Report.halt line : Gen α) Q :=
  J.stopped fun _ => ⟨_, _, rfl⟩

theorem halt_bind {k : α → Gen β} {Q : β → Prop} :
    J.holds H (liftM (Report.halt line : Report α) >>= k) Q :=
  @halt _ _ J _ _ line _

theorem throw_bind {k : α → Gen β} {Q : β → Prop} : J.holds H ((throw e : Gen α) >>= k) Q :=
  J.throw (e := e)

/-! ### Reports -/

theorem report {x : Report α} (hx : Blind x) : J.holds H (liftM x : Gen α) fun _ => True :=
  J.onlyReports (.report hx)

theorem shape {x : Except ShapeError α} : J.holds H (liftM x : Gen α) fun _ => True :=
  J.onlyReports (.shape x)

/-! ### Loops -/

protected theorem forIn {body : α → PUnit → Gen (ForInStep PUnit)} {F : α → Prop} :
    ∀ (xs : List α) {H : Prop},
    (∀ a ∈ xs, ∀ H', (H' → H) → J.holds H' (body a ⟨⟩) fun r => r = .yield ⟨⟩ ∧ F a) →
    J.holds H (forIn xs PUnit.unit body : Gen PUnit) fun _ => ∀ a ∈ xs, F a := by
  intro xs
  induction xs with
  | nil =>
    intro H _
    rw [forIn_nil]
    exact J.pure fun _ => forall_mem_nil F
  | cons a xs ih =>
    intro H h
    obtain ⟨ha, hxs⟩ := forall_mem_cons.mp h
    rw [forIn_cons]
    refine J.bind (ha H id) fun r => ?_
    cases r with
    | done b =>
      refine J.pure fun hstop => ?_
      cases hstop.2.1
    | yield b =>
      refine J.imp (ih fun a ha H' hH => hxs a ha H' fun hH' => (hH hH').1) id fun _ hH hall => ?_
      exact forall_mem_cons.mpr ⟨hH.2.2, hall⟩

protected theorem mapM {k : α → Gen β} {R : β → Prop} :
    ∀ (xs : List α) {H : Prop}, (∀ a H', J.holds H' (k a) R) →
      J.holds H (xs.mapM k) fun bs => ∀ b ∈ bs, R b := by
  intro xs
  induction xs with
  | nil =>
    intro H _
    rw [mapM_nil]
    exact J.pure fun _ => forall_mem_nil R
  | cons a xs ih =>
    intro H h
    rw [mapM_cons]
    refine J.bind (h a H) fun b => J.bind (ih h) fun bs => J.pure fun hH => ?_
    exact forall_mem_cons.mpr ⟨hH.1.2, hH.2⟩

protected theorem foldlM {k : β → α → Gen β} :
    ∀ (xs : List α) {H : Prop} {b : β}, (∀ b, ∀ a ∈ xs, ∀ H', (H' → H) →
      J.holds H' (k b a) fun _ => True) →
    J.holds H (xs.foldlM k b) fun _ => True := by
  intro xs
  induction xs with
  | nil => exact fun _ => J.pure fun _ => trivial
  | cons a xs ih =>
    intro H b h
    rw [foldlM_cons]
    refine J.bind (h b a mem_cons_self H id) fun b' => ih fun b a ha H' hH => ?_
    exact h b a (mem_cons_of_mem _ ha) H' fun hH' => (hH hH').1

/-! ### Statements -/

protected theorem firstOf (xs : List α) : J.holds H (liftM (firstOf xs) : Gen α) fun _ => True :=
  J.report (firstOf_blind xs)

theorem resolve (sc : Scope) (t : Tree) :
    J.holds H (liftM (sc.resolve t) : Gen Operand) fun _ => True :=
  J.report (sc.resolve_blind t)

protected theorem tableNameOf (t : Tree) :
    J.holds H (liftM (tableNameOf t) : Gen String) fun _ => True :=
  J.report (.lift _)

theorem emit (hkind : kind.IsCode) (hps : H → ∀ o, .operand o ∈ ps → J.used o) :
    J.holds H (Gen.emit ⟨f, kind⟩ ps) fun _ => True := by
  rw [← bind_pure (Gen.emit ⟨f, kind⟩ ps)]
  exact J.emitBefore hkind (J.pure (a := ()) fun _ => trivial) fun _ hH _ => hps hH

theorem operand {sc : Scope} (hkind : kind.IsCode) {t : Tree} {recorder : Operand → Gen Unit}
    {rest : Operand → Gen β} {R : β → Prop}
    (hrecorder : ∀ o H, J.holds H (recorder o) fun _ => J.used o)
    (hrest : ∀ o H, J.holds H (rest o) R) : J.holds H (do
      let o ← Emit.operand .write sc ⟨f, kind⟩ t
      recorder o
      rest o) R := by
  have hwrite : ∀ o H, J.holds H (do
      Gen.emit ⟨f, kind⟩ [.operand o]
      recorder o
      rest o) R := by
    intro o H
    have hboth : J.holds H (do recorder o; rest o) fun b => R b ∧ J.used o :=
      J.bind (hrecorder o H) fun _ => J.imp (hrest o _) id fun _ hH hR => ⟨hR, hH.2⟩
    refine J.imp (J.emitBefore hkind hboth fun _ _ h o' ho' => ?_) id fun _ _ h => h.1
    obtain rfl : o' = o := by simpa using ho'
    exact h.2
  simp only [Emit.operand, Mode.when, Mode.writes, if_true, bind_assoc, pure_bind]
  exact J.bind (J.resolve sc t) fun o => hwrite o _

theorem emitFrame (hkind : kind.IsCode) (hps : ∀ o, .operand o ∉ ps) :
    J.holds H (Gen.emit ⟨f, kind⟩ ps) fun _ => True :=
  J.emit hkind fun _ o ho => absurd ho (hps o)

variable {sc : Scope} {level : Nat} {inAction : Bool}

theorem statementKind_isCode (inAction : Bool) :
    (if inAction then TextKind.action else .control).IsCode := by
  cases inAction <;> decide

theorem recordStored {recorder : String → Gen Unit}
    (hrecorder : ∀ o : Operand, J.holds H (recorder o.text) fun _ => J.used o)
    (o : Operand) : J.holds H (Emit.recordStored o recorder) fun _ => J.used o := by
  unfold Emit.recordStored
  split
  · exact hrecorder o
  · next h => exact J.pure fun _ => J.used_of_not_isStored (by simpa using h)

theorem recordCompared (o : Operand) : J.holds H (Emit.recordCompared f o) fun _ => J.used o := by
  unfold Emit.recordCompared
  split
  · exact J.recordInput o
  · next h =>
    refine J.pure fun _ => J.used_of_not_isStored ?_
    simp only [Bool.or_eq_true, not_or] at h
    simp [Operand.isStored, h]

theorem fromParams (targets : List Tree) :
    J.holds H (Emit.fromParams sc ⟨f, level, inAction⟩ targets) fun _ => True := by
  unfold Emit.fromParams
  refine J.bind (J.forIn (F := fun _ => True) _ ?_) fun _ => J.pure fun _ => trivial
  rintro ⟨t, i⟩ _ H' _
  have hkind := statementKind_isCode inAction
  have hline : ∀ H', J.holds H' (do
      let o ← Emit.operand .write sc (Site.text ⟨f, level, inAction⟩) t
      Gen.recordOutput f o.text
      Gen.emit (Site.text ⟨f, level, inAction⟩) [.assignSign, .param i, .endStatement]
      pure (ForInStep.yield PUnit.unit) : Gen (ForInStep PUnit)) fun r => r = .yield ⟨⟩ ∧
        True := fun H' =>
    J.operand hkind (fun o H => J.recordOutput o) fun o H =>
      J.bind (J.emitFrame hkind (by simp)) fun _ => J.pure fun _ => ⟨rfl, trivial⟩
  by_cases hi : i = 0
  · simp only [hi, ne_eq, not_true_eq_false, if_false] at hline ⊢
    exact hline H'
  · simp only [ne_eq, hi, not_false_eq_true, if_true]
    exact J.bind (J.emitFrame hkind (by simp)) fun _ => hline _

theorem rowEntry {row : List String} :
    J.holds H (Emit.rowEntry table action keys row) fun e => e.keys.keys.Nodup := by
  unfold Emit.rowEntry
  split
  · exact J.throw_bind
  · exact J.pure fun _ => OrderedMap.nodup_ofList _

theorem emitNoEntry : J.holds H (Gen.emit ⟨f, .entry⟩ []) fun _ => True :=
  J.emitEntries [] fun _ => forall_mem_nil _

theorem emitEntry {e : Entry} (he : H → e.keys.keys.Nodup) :
    J.holds H (Gen.emit ⟨f, .entry⟩ [.entry e]) fun _ => True :=
  J.emitEntries [e] fun hH => by simpa using he hH

theorem entries {shown : String} {n : Nat} {rows : List (List String)} :
    J.holds H (Emit.entries ⟨f, .entry⟩ table action keys n shown rows) fun _ => True := by
  unfold Emit.entries
  refine J.bind J.emitNoEntry fun _ => ?_
  cases rows with
  | nil => exact J.pure fun _ => trivial
  | cons first rows =>
    simp only
    split
    · refine J.bind (J.report (.say _)) fun _ => J.bind (J.report (.say _)) fun _ => ?_
      exact J.bind (J.report (.say _)) fun _ => J.halt_bind
    · refine J.bind (J.forIn (F := fun _ => True) _ fun row _ H' _ => ?_) fun _ =>
        J.pure fun _ => trivial
      exact J.bind J.rowEntry fun e => J.bind (J.emitEntry fun hH => hH.2) fun _ => J.pure fun _ =>
        ⟨rfl, trivial⟩

theorem actionParams (types : List String) :
    J.holds H (Emit.actionParams types) fun ps => ∀ p ∈ ps, ∀ o, p ≠ Piece.operand o := by
  refine J.mapM _ ?_
  rintro ⟨t, i⟩ H'
  exact J.bind (J.typeOf t) fun _ => J.pure fun _ o => by simp

theorem recordInputs (keys : List Operand) : J.holds H (forIn keys PUnit.unit (fun o _ => do
      Gen.recordInput f o.text
      pure (ForInStep.yield PUnit.unit)) : Gen PUnit) fun _ => ∀ o ∈ keys, J.used o :=
  J.forIn _ fun o _ _ _ => J.bind (J.recordInput o) fun _ => J.pure fun hH => ⟨rfl, hH.2⟩

theorem lookup (targets : List Tree) (source : Tree) (name : String) (map : Lookup)
    (hsc : J.isScope sc.stem) :
    J.holds H (Emit.lookup sc ⟨f, level, inAction⟩ targets source name map) fun _ => True := by
  have htable : TextKind.table.IsCode := by decide
  have haction : TextKind.action.IsCode := by decide
  unfold Emit.lookup
  refine J.bind J.recordTable fun _ =>
    J.bind (J.drawTable (J.allowed_append name hsc)) fun table => ?_
  refine J.bind (J.report (Emit.indexes_blind source)) fun ixs =>
    J.bind (J.mapM (R := fun _ => True) ixs fun ix H' => ?_) fun keys => ?_
  · refine J.bind J.shape fun t => J.bind (J.resolve sc t) fun o => ?_
    split
    · exact J.pure fun _ => trivial
    · exact J.halt
  refine J.bind (J.recordInputs keys) fun _ => J.bind (J.emitFrame htable (by simp)) fun _ => ?_
  refine J.bind (J.forIn (F := fun _ => True) keys fun o ho H' hH => ?_) fun _ => ?_
  · refine J.bind (J.emit htable fun hH' o' ho' => ?_) fun _ => J.pure fun _ => ⟨rfl, trivial⟩
    obtain rfl : o' = o := by simpa using ho'
    exact (hH hH').1.2 o' ho
  refine J.bind (J.drawAction fun hH => hH.1.1.1.1.1.2) fun action =>
    J.bind (J.actionParams map.value) fun params => ?_
  refine J.bind (J.emit haction fun hH o ho => ?_) fun _ => ?_
  · simp only [cons_append, mem_cons, reduceCtorEq, mem_append, not_mem_nil, or_false,
      false_or] at ho
    exact absurd rfl (hH.2 _ ho o)
  refine J.bind (J.forIn (F := fun _ => True) _ ?_) fun _ => ?_
  · rintro ⟨t, i⟩ _ H' _
    refine J.bind (J.resolve sc t) fun o => J.bind (J.recordOutput o) fun _ =>
      J.bind (J.emit haction fun hH o' ho' => ?_)
      fun _ => J.pure fun _ => ⟨rfl, trivial⟩
    obtain rfl : o' = o := by simpa using ho'
    exact hH.2
  refine J.bind (J.emitFrame haction (by simp)) fun _ =>
    J.bind (J.emitFrame htable (by simp)) fun _ => ?_
  exact J.bind J.entries fun _ => J.emitFrame (by decide) (by simp)

theorem fromMap (targets : List Tree) (source : Tree) (hsc : J.isScope sc.stem) :
    J.holds H (Emit.fromMap sc ⟨f, level, inAction⟩ targets source) fun _ => True := by
  refine J.bind (J.report (.lift _)) fun name => ?_
  cases inAction with
  | true => exact J.fromParams targets
  | false =>
    simp only [Bool.false_eq_true, if_false]
    cases sc.maps.find? name with
    | none => exact J.throw
    | some map => exact J.lookup targets source name map hsc

theorem fromOperand (targets : List Tree) (source : Tree) :
    J.holds H (Emit.fromOperand sc ⟨f, level, inAction⟩ targets source) fun _ => True := by
  have hkind := statementKind_isCode inAction
  refine J.bind (J.firstOf targets) fun target =>
    J.operand hkind (fun o H => J.recordStored J.recordOutput o) fun o H => ?_
  refine J.bind (J.emitFrame hkind (by simp)) fun _ => ?_
  exact J.operand hkind (fun o H => J.recordStored J.recordInput o) fun o H =>
    J.emitFrame hkind (by simp)

theorem assign (targets : List Tree) (source : Tree) (hsc : J.isScope sc.stem) :
    J.holds H (Emit.assign .write sc ⟨f, level, inAction⟩ targets source) fun _ => True := by
  refine J.bind (J.emitFrame (statementKind_isCode inAction) (by simp)) fun _ => ?_
  refine J.bind (J.report (Emit.isLookup_blind sc targets source)) fun isLookup => ?_
  cases isLookup with
  | true => exact J.bind (J.fromMap targets source hsc) fun _ => J.pure fun _ => trivial
  | false => exact J.bind (J.fromOperand targets source) fun _ => J.pure fun _ => trivial

theorem arith (targets : List Tree) (left : Tree) (op : String) (right : Tree) :
    J.holds H (Emit.arith sc ⟨f, level, inAction⟩ targets left op right) fun _ => True := by
  have hkind := statementKind_isCode inAction
  unfold Emit.arith
  refine J.bind (J.emitFrame hkind (by simp)) fun _ => J.bind (J.firstOf targets) fun target => ?_
  refine J.operand hkind (fun o H => J.recordOutput o) fun o H =>
    J.bind (J.emitFrame hkind (by simp)) fun _ => ?_
  refine J.operand hkind (fun o H => J.recordStored J.recordInput o) fun o H =>
    J.bind (J.emitFrame hkind (by simp)) fun _ => ?_
  exact J.operand hkind (fun o H => J.recordStored J.recordInput o) fun o H =>
    J.emitFrame hkind (by simp)

theorem primitive (kind : String) (args : List Tree) :
    J.holds H (Emit.primitive sc ⟨f, level, inAction⟩ kind args) fun _ => True := by
  have hkind := statementKind_isCode inAction
  unfold Emit.primitive
  refine J.bind (J.emitFrame hkind (by simp)) fun _ => ?_
  split
  · exact J.emitFrame hkind (by simp)
  · split
    · exact J.compress hkind
    · split
      · exact J.emitFrame hkind (by simp)
      · exact J.halt

/-! ### Conditions -/

theorem flagAction {flag : String} {value : Bool} (htable : H → J.allowed table) :
    J.holds H (Emit.flagAction ⟨f, level, inAction⟩ table flag value) fun _ => True :=
  J.bind (J.drawAction htable) fun _ => J.bind (J.emitFrame (by decide) (by simp)) fun _ =>
    J.pure fun _ => trivial

theorem membership (c : Condition) (hsc : J.isScope sc.stem) :
    J.holds H (Emit.membership sc ⟨f, level, inAction⟩ c) fun _ => True := by
  have htable : TextKind.table.IsCode := by decide
  unfold Emit.membership
  refine J.bind (J.firstOf c.right) fun right => J.bind (J.tableNameOf right) fun name => ?_
  simp only
  split
  case h_2 => exact J.halt_bind
  case h_1 rows _ =>
  rw [pure_bind]
  refine J.bind (J.drawTable (J.allowed_append name hsc)) fun table =>
    J.bind J.recordTable fun _ => ?_
  refine J.bind (J.emitFrame (by decide) (by simp)) fun _ => ?_
  refine J.bind (J.flagAction fun hH => hH.1.1.2) fun hit =>
    J.bind (J.flagAction fun hH => hH.1.1.1.2) fun miss => ?_
  refine J.bind (J.emitFrame htable (by simp)) fun _ =>
    J.bind (J.mapM (R := fun _ => True) c.left fun t H' => ?_) fun keys => ?_
  · refine J.bind (J.emitFrame htable (by simp)) fun _ =>
      J.operand htable (fun o H => J.recordInput o) fun o H => ?_
    exact J.bind (J.emitFrame htable (by simp)) fun _ => J.pure fun _ => trivial
  refine J.bind (J.emitFrame htable (by simp)) fun _ => J.bind J.emitNoEntry fun _ => ?_
  refine J.bind (J.forIn (F := fun _ => True) _ fun row _ H' _ => ?_) fun _ =>
    J.emitFrame (by decide) (by simp)
  exact J.bind J.rowEntry fun e => J.bind (J.emitEntry fun hH => hH.2) fun _ => J.pure fun _ =>
    ⟨rfl, trivial⟩

theorem comparison (cmp : Comparison) (c : Condition) :
    J.holds H (Emit.comparison sc ⟨f, level, inAction⟩ cmp c) fun _ => True := by
  have hkind : TextKind.control.IsCode := by decide
  unfold Emit.comparison
  refine J.bind (J.emitFrame hkind (by simp)) fun _ => J.bind (J.firstOf c.left) fun left => ?_
  refine J.operand hkind (fun o H => J.recordCompared o) fun o H =>
    J.bind (J.emitFrame hkind (by simp)) fun _ => ?_
  exact J.bind (J.firstOf c.right) fun right =>
    J.operand hkind (fun o H => J.recordCompared o) fun o H => J.emitFrame hkind (by simp)

theorem validity (c : Condition) :
    J.holds H (Emit.validity ⟨f, level, inAction⟩ c) fun _ => True := by
  have hkind : TextKind.control.IsCode := by decide
  unfold Emit.validity
  refine J.bind (J.emitFrame hkind (by simp)) fun _ => J.bind (J.firstOf c.left) fun t => ?_
  refine J.bind (J.report (.lift _)) fun hdr => J.bind (J.report (.lift _)) fun name => ?_
  refine J.bind (J.recordInput ⟨hdr ++ "." ++ name, .header⟩) fun _ =>
    J.emit hkind fun hH o ho => ?_
  obtain rfl : o = ⟨hdr ++ "." ++ name, .header⟩ := by simpa using ho
  exact hH.2

theorem condition (c : Condition) (hsc : J.isScope sc.stem) :
    J.holds H (Emit.condition sc ⟨f, level, inAction⟩ c) fun _ => True := by
  unfold Emit.condition
  split
  · exact J.membership c hsc
  · exact J.comparison _ c
  · exact J.validity c
  · exact J.bind (J.report (.say _)) fun _ => J.halt

/-! ### Calls -/

/-- The scope knows the modules, and names may begin with its stem. -/
structure Covers (sc : Scope) : Prop where
  modules_eq : sc.modules = modules
  isScope_stem : J.isScope sc.stem

/-- Blocks in scopes of their own are as required. -/
def Runs (run : Job → Gen Unit) : Prop :=
  ∀ sc level inAction body, J.Covers sc →
    ∀ H, J.holds H (run ⟨sc, ⟨f, level, inAction⟩, body⟩) fun _ => True

theorem bindParam {callee stem : String} {m : Module} (hm : modules.find? callee = some m)
    (hstem : J.isScope stem) (bound : OrderedMap String String)
    {p : (String × String × String) × Tree}
    (hp : p.1 ∈ m.directions.zip (m.params.zip m.paramTypes)) :
    J.holds H (Emit.bindParam sc ⟨f, level, inAction⟩ m stem bound p) fun _ => True := by
  obtain ⟨⟨direction, name, type⟩, arg⟩ := p
  simp only [Emit.bindParam]
  split
  · split
    · exact J.halt_bind
    · exact J.bind (J.resolve sc arg) fun o => J.pure fun _ => trivial
  · split
    · next hin =>
      subst hin
      refine J.bind (J.resolve sc arg) fun o => J.bind (J.typeOf type) fun type' => ?_
      refine J.bind (J.emitVars hstem) fun _ => J.bind (J.copy hm ⟨type, hp⟩) fun _ =>
        J.pure fun _ => trivial
    · exact J.halt

theorem moduleCall (hrun : J.Runs run) (c : Call) (hsc : J.Covers sc) :
    J.holds H (Emit.moduleCall run sc ⟨f, level, inAction⟩ c) fun _ => True := by
  unfold Emit.moduleCall
  cases hm : sc.modules.find? c.name with
  | none => exact J.bind (J.report (.say _)) fun _ => J.halt
  | some m =>
    have hstem : J.isScope (sc.stem ++ "_" ++ c.name) :=
      J.isScope_append (hsc.modules_eq ▸ hm) hsc.isScope_stem
    refine J.bind (J.recordModule m.name) fun _ => ?_
    simp only
    split
    · exact J.halt_bind
    split
    · exact J.halt_bind
    refine J.bind (J.foldlM _ fun bound p hp H' _ => ?_) fun bound =>
      J.bind (J.declareVars hstem) fun vars => ?_
    · exact J.bindParam (hsc.modules_eq ▸ hm) hstem bound (of_mem_zip hp).1
    · exact J.bind (J.recordScope hstem) fun _ => hrun ⟨sc.stem ++ "_" ++ c.name, vars, m.maps,
        m.sets, m.funcs, sc.modules⟩ _ _ _ ⟨hsc.modules_eq, hstem⟩ _

/-! ### Switches -/

theorem keyLines_used {keys : List Operand} (hkeys : ∀ o ∈ keys, J.used o) {o : Operand}
    (ho : .operand o ∈ Emit.keyLines keys) :
    J.used o := by
  simp only [Emit.keyLines, mem_flatMap, mem_cons, reduceCtorEq, Piece.operand.injEq,
    not_mem_nil, or_false, false_or] at ho
  obtain ⟨o', ho', rfl⟩ := ho
  exact hkeys o ho'

theorem switchCase (hrun : J.Runs run) (hsc : J.Covers sc) (htable : H → J.allowed table)
    (keys : List Operand) (calls : List Call) (deflt : Option String) (x : Tree × Nat) :
    J.holds H (Emit.switchCase run sc ⟨f, level, inAction⟩ table keys calls deflt x) fun _ =>
      True := by
  obtain ⟨case, i⟩ := x
  have haction : TextKind.action.IsCode := by decide
  rw [Emit.switchCase_eq]
  refine J.bind (J.drawAction htable) fun action => J.bind (J.tableNameOf case) fun name => ?_
  refine J.bind (J.emitFrame (by decide) (by simp)) fun _ =>
    J.bind (J.actionParams _) fun params => ?_
  refine J.bind (J.emit haction fun hH o ho => ?_) fun _ =>
    J.bind (Q := fun _ => True) ?_ fun _ => ?_
  · simp only [cons_append, mem_cons, reduceCtorEq, mem_append, not_mem_nil, or_false,
      false_or] at ho
    exact absurd rfl (hH.2 _ ho o)
  · cases calls[i]? with
    | none => exact J.throw
    | some c =>
      simp only [Emit.caseBody]
      split
      · exact hrun _ _ _ _ hsc _
      · split
        · exact J.emitFrame haction (by simp)
        · split
          · exact J.emitFrame haction (by simp)
          · exact J.halt
  refine J.bind (J.emitFrame haction (by simp)) fun _ => J.bind (Q := fun _ => True) ?_ fun _ =>
    J.pure fun _ => trivial
  split
  · exact J.pure fun _ => trivial
  · cases sc.maps.find? name with
    | none => exact J.pure fun _ => trivial
    | some m =>
      refine J.bind (J.mapM (R := fun _ => True) m.value fun t H' => J.typeOf t) fun shown => ?_
      exact J.entries

theorem switch (hrun : J.Runs run) (hsc : J.Covers sc) (keys cases : List Tree)
    (calls : List Call) :
    J.holds H (Emit.switch run sc ⟨f, level, inAction⟩ keys cases calls) fun _ => True := by
  have htable : TextKind.table.IsCode := by decide
  unfold Emit.switch
  refine J.bind J.recordTable fun _ => J.bind (J.firstOf cases) fun first =>
    J.bind (J.tableNameOf first) fun name => ?_
  refine J.bind (J.drawTable (J.allowed_append name hsc.isScope_stem)) fun table => ?_
  refine J.bind (J.mapM (R := J.used) keys fun t H' => ?_) fun keys =>
    J.bind (J.emit htable fun hH o ho => ?_) fun _ => ?_
  · exact J.bind (J.resolve sc t) fun o => J.bind (J.recordInput o) fun _ => J.pure fun hH => hH.2
  · simp only [cons_append, nil_append, mem_cons, reduceCtorEq, mem_append, not_mem_nil, or_false,
      false_or] at ho
    exact J.keyLines_used hH.2 ho
  refine J.bind (J.foldlM _ fun deflt x _ H' hH => ?_) fun deflt => ?_
  · exact J.switchCase hrun hsc (fun hH' => (hH hH').1.1.2) keys calls deflt x
  refine J.bind (J.emitFrame htable ?_) fun _ => J.emitFrame (by decide) (by simp)
  cases deflt <;> simp

/-! ### Ifs as tables -/

theorem linkAction (table : String) (htable : H → J.allowed table) (cs : List Condition) :
    J.holds H (Emit.linkAction sc ⟨f, level, inAction⟩ table cs) fun _ => True := by
  have haction : TextKind.action.IsCode := by decide
  unfold Emit.linkAction
  refine J.bind (J.drawAction htable) fun action =>
    J.bind (J.emitFrame (by decide) (by simp)) fun _ => ?_
  refine J.bind (J.emitFrame haction (by simp)) fun _ => J.bind (J.firstOf cs) fun c => ?_
  refine J.bind (J.firstOf c.right) fun t => J.bind (J.tableNameOf t) fun name =>
    J.bind (J.actionParams _) fun params => ?_
  refine J.bind (J.emit haction fun hH o ho => ?_) fun _ => J.pure fun _ => trivial
  simp only [mem_cons, reduceCtorEq, mem_append, not_mem_nil, or_false] at ho
  exact absurd rfl (hH.2 _ ho o)

theorem linkEntries (table : String) (keys : List Operand)
    (link : String × String × Option Lookup) :
    J.holds H (Emit.linkEntries sc ⟨f, level, inAction⟩ table keys link) fun _ => True := by
  unfold Emit.linkEntries
  refine J.bind J.emitNoEntry fun _ => ?_
  split
  · exact J.entries
  · split
    · exact J.entries
    · exact J.throw

theorem beginTable (hsc : J.isScope sc.stem) (cs : List Condition) :
    J.holds H (Emit.beginTable sc ⟨f, level, inAction⟩ cs) fun x => J.allowed x.1 := by
  have htable : TextKind.table.IsCode := by decide
  unfold Emit.beginTable
  refine J.bind J.recordTable fun _ => J.bind (J.firstOf cs) fun c =>
    J.bind (J.firstOf c.right) fun t => ?_
  refine J.bind (J.tableNameOf t) fun name =>
    J.bind (J.drawTable (J.allowed_append name hsc)) fun table => ?_
  refine J.bind (J.mapM (R := fun _ => True) c.left fun t H' => J.resolve sc t) fun keys => ?_
  -- the keys are recorded after their lines are written
  have hkeys : ∀ H', J.holds H' (do
      for o in keys do
        Gen.recordInput f o.text
      Gen.emit ⟨f, .table⟩ [.actionsOpen]
      pure (table, keys)) fun x => (∀ o ∈ keys, J.used o) ∧ x.1 = table := by
    intro H'
    refine J.bind (J.recordInputs keys) fun _ => J.bind (J.emitFrame htable (by simp)) fun _ =>
      J.pure fun hH => ?_
    exact ⟨hH.1.2, rfl⟩
  refine J.imp (J.emitBefore htable (hkeys _) fun _ _ h o ho => ?_) id fun x hH h => h.2 ▸ hH.1.2
  simp only [cons_append, nil_append, mem_cons, reduceCtorEq, mem_append, not_mem_nil, or_false,
    false_or] at ho
  exact J.keyLines_used h.1 ho

theorem beginDefault (htable : H → J.allowed table) :
    J.holds H (Emit.beginDefault ⟨f, level, inAction⟩ table) fun _ => True :=
  J.bind (J.drawAction htable) fun _ => J.bind (J.emitFrame (by decide) (by simp)) fun _ =>
    J.bind (J.emitFrame (by decide) (by simp)) fun _ => J.pure fun _ => trivial

theorem endTable (table : String) (deflt : Option String) :
    J.holds H (Emit.endTable ⟨f, level, inAction⟩ table deflt) fun _ => True := by
  refine J.bind (J.emitFrame (by decide) ?_) fun _ => J.emitFrame (by decide) (by simp)
  cases deflt <;> simp

/-! ### Blocks -/

theorem openBlock : J.holds H (Emit.openBlock ⟨f, level, inAction⟩) fun _ => True :=
  J.emitFrame (by decide) (by simp)

theorem closeBlock : J.holds H (Emit.closeBlock ⟨f, level, inAction⟩) fun _ => True :=
  J.emitFrame (by decide) (by simp)

theorem openElse : J.holds H (Emit.openElse ⟨f, level, inAction⟩) fun _ => True :=
  J.emitFrame (by decide) (by simp)

theorem closeBlocks (level : Nat) (inAction : Bool) : ∀ (n : Nat) {H : Prop},
    J.holds H (Emit.closeBlocks ⟨f, level, inAction⟩ n) fun _ => True
  | 0, _ => J.pure fun _ => trivial
  | n + 1, _ => J.bind J.closeBlock fun _ => closeBlocks level inAction n

theorem instruction (hrun : J.Runs run) (hsc : J.Covers sc) {i : Ins}
    (hnested : ∀ cs bs e d, i = .branch cs bs e d →
      ∀ H, J.holds H (Emit.nested run sc ⟨f, level, inAction⟩ i) fun _ => True)
    (hlinks : ∀ cs bs e d, i = .branch cs bs e d → ∀ table keys (H : Prop), (H → J.allowed table) →
      J.holds H (Emit.tableLinks run sc ⟨f, level, inAction⟩ table keys i) fun _ => True) :
    J.holds H (Emit.instruction run sc ⟨f, level, inAction⟩ i) fun _ => True := by
  cases i with
  | assign targets source =>
    exact J.bind (J.assign targets source hsc.isScope_stem) fun _ => J.pure fun _ => trivial
  | arith targets left op right => exact J.arith targets left op right
  | primitive kind args => exact J.primitive kind args
  | call c =>
    simp only [Emit.instruction]
    split
    · exact J.moduleCall hrun c hsc
    · exact J.halt
  | switch keys cases calls =>
    refine J.bind (J.onlyReports (Fit.switch_onlyReports sc _ keys cases calls)) fun fits => ?_
    cases fits with
    | false => exact J.halt
    | true => exact J.switch hrun hsc keys cases calls
  | branch cs bs e d =>
    refine J.bind (J.onlyReports (Fit.branch_onlyReports sc _ _)) fun fits => ?_
    cases fits with
    | false => exact hnested cs bs e d rfl _
    | true =>
      refine J.bind (J.beginTable hsc.isScope_stem cs) fun head => ?_
      exact J.bind (hlinks cs bs e d rfl _ _ _ fun hH => hH.2) fun deflt => J.endTable head.1 deflt
  | assert cs => exact J.pure fun _ => trivial
  | other kind => exact J.halt

mutual

/-- **A judgement holds of blocks**, if it holds of the blocks of modules and functions that are
called in them. -/
theorem block (hrun : J.Runs run) (hsc : J.Covers sc) (level : Nat) (inAction : Bool) (n a : Nat) :
    ∀ (is : List Ins) (H : Prop), J.holds H
      (Emit.block run sc ⟨f, level, inAction⟩ ⟨false, n, a⟩ is) fun _ => True
  | [], _ => J.closeBlocks level inAction a
  | i :: is, H => by
    by_cases hassert : ∃ cs, i = .assert cs
    · obtain ⟨cs, rfl⟩ := hassert
      rw [Emit.block_cons_assert, Emit.nextFragment, if_neg Bool.false_ne_true, pure_bind]
      refine J.bind (J.firstOf cs) fun c => J.bind (J.condition c hsc.isScope_stem) fun _ =>
        J.bind J.openBlock fun _ => ?_
      exact block hrun hsc level inAction (n + 1) (a + 1) is _
    · rw [Emit.block_cons _ _ _ _ _ fun cs h => hassert ⟨cs, h⟩, Emit.nextFragment,
        if_neg Bool.false_ne_true, pure_bind]
      refine J.bind (J.instruction hrun hsc
        (fun _ _ _ _ _ H => nested hrun hsc (level + a) inAction i H) ?_) fun _ => ?_
      · exact fun _ _ _ _ _ table keys H hH =>
          tableLinks hrun hsc (level + a) inAction table keys i H hH
      · exact block hrun hsc level inAction (n + 1) a is _

theorem nested (hrun : J.Runs run) (hsc : J.Covers sc) (level : Nat) (inAction : Bool) :
    ∀ (i : Ins) (H : Prop), J.holds H (Emit.nested run sc ⟨f, level, inAction⟩ i) fun _ => True
  | .branch (c :: cs) (b :: bs) e d, H => by
    have hd : ∀ H, J.holds H (Emit.elsePart run sc ⟨f, level, inAction⟩ d) fun _ => True := by
      match d with
      | none => exact fun _ => J.pure fun _ => trivial
      | some d' =>
        exact fun _ => J.bind J.openElse fun _ =>
          J.bind (block hrun hsc (level + 1) false 0 0 d' _) fun _ => J.closeBlock
    have helse : ∀ H, J.holds H (Emit.elseParts run sc ⟨f, level, inAction⟩ e d) fun _ => True := by
      match e with
      | none => exact hd
      | some e' =>
        refine fun _ => J.bind J.openElse fun _ =>
          J.bind (nested hrun hsc (level + 1) false e' _) fun _ => ?_
        exact J.bind J.closeBlock fun _ => hd _
    rw [Emit.nested_branch]
    refine J.bind (J.condition c hsc.isScope_stem) fun _ => J.bind J.openBlock fun _ => ?_
    refine J.bind (block hrun hsc (level + 1) false 0 0 b _) fun _ =>
      J.bind J.closeBlock fun _ => helse _
  | .branch [] bs e d, _ => J.stopped fun _ => ⟨_, _, by rw [Emit.nested_eq]; rfl⟩
  | .branch (c :: cs) [] e d, _ => by
    rw [Emit.nested_eq]
    refine J.bind (J.firstOf _) fun c => J.bind (J.condition c hsc.isScope_stem) fun _ => ?_
    exact J.bind J.openBlock fun _ => J.throw_bind
  | .assign .., _ | .arith .., _ | .call _, _ | .primitive .., _ | .assert _, _ | .switch .., _
  | .other _, _ => by
    refine J.bind (J.firstOf _) fun c => J.bind (J.condition c hsc.isScope_stem) fun _ => ?_
    exact J.bind J.openBlock fun _ => J.throw

theorem tableLinks (hrun : J.Runs run) (hsc : J.Covers sc) (level : Nat) (inAction : Bool)
    (table : String)
    (keys : List Operand) : ∀ (i : Ins) (H : Prop), (H → J.allowed table) →
      J.holds H (Emit.tableLinks run sc ⟨f, level, inAction⟩ table keys i) fun _ => True
  | .branch cs (b :: bs) e d, H, htable => by
    have hclose : ∀ H, J.holds H (Gen.emit ⟨f, .action⟩ [.blockClose]) fun _ => True :=
      fun _ => J.emitFrame (by decide) (by simp)
    have hlater : ∀ H', (H' → H) →
        J.holds H' (Emit.laterLinks run sc ⟨f, level, inAction⟩ table keys e d) fun _ => True := by
      intro H' hH
      match e with
      | some e' =>
        exact tableLinks hrun hsc level inAction table keys e' H' fun hH' => htable (hH hH')
      | none =>
        match d with
        | none => exact J.pure fun _ => trivial
        | some d' =>
          refine J.bind (J.beginDefault fun hH' => htable (hH hH')) fun _ => ?_
          refine J.bind (block hrun hsc 1 true 0 0 d' _) fun _ => J.bind (hclose _) fun _ =>
            J.pure fun _ => trivial
    rw [Emit.tableLinks_branch]
    refine J.bind (J.linkAction table htable cs) fun link =>
      J.bind (block hrun hsc 1 true 0 0 b _) fun _ => ?_
    exact J.bind (hclose _) fun _ => J.bind (J.linkEntries table keys link) fun _ =>
      hlater _ fun hH => hH.1.1.1.1
  | .branch cs [] e d, H, htable => by
    rw [Emit.tableLinks_nil]
    exact J.bind (J.linkAction table htable cs) fun _ => J.throw_bind
  | .assign .., _, htable | .arith .., _, htable | .call _, _, htable | .primitive .., _, htable
  | .assert _, _, htable
  | .switch .., _, htable | .other _, _, htable => by
    rw [Emit.tableLinks_other _ _ _ _ _ (by simp)]
    exact J.bind (J.linkAction table htable _) fun _ => J.throw

end

/-- **A judgement holds of the blocks of modules and functions**, however deep the calls are
nested. -/
theorem runJob (depth : Nat) : J.Runs (Gen.runJob depth) := by
  induction depth with
  | zero => exact fun _ _ _ _ _ _ => J.throw
  | succ depth ih =>
    exact fun sc level inAction body hsc H => J.block ih hsc level inAction 0 0 body H

theorem instructionAt (depth : Nat) (hsc : J.Covers sc) (level : Nat) (inAction : Bool) (i : Ins) :
    J.holds H (Emit.instruction (Gen.runJob depth) sc ⟨f, level, inAction⟩ i) fun _ => True :=
  J.instruction (J.runJob depth) hsc
    (fun _ _ _ _ _ => J.nested (J.runJob depth) hsc level inAction i)
    fun _ _ _ _ _ table keys => J.tableLinks (J.runJob depth) hsc level inAction table keys i

/-- **A judgement holds of the top level of an application**, if it holds of the fragments that are
begun there. -/
theorem topBlock (L : Judgement modules Gen.looseFragment) (depth : Nat) (hsc : L.Covers sc)
    (level : Nat) (inAction : Bool) (owned : String → Prop)
    (hbegin : ∀ n H, L.holds H (Emit.beginFragment sc.stem n) owned)
    (hinstruction : ∀ f a i H, (H → owned f) →
      L.holds H (Emit.instruction (Gen.runJob depth) sc ⟨f, level + a, inAction⟩ i) fun _ => True)
      (is : List Ins) :
    ∀ n a H, L.holds H (Emit.block (Gen.runJob depth) sc ⟨Gen.looseFragment, level, inAction⟩
      ⟨true, n, a⟩ is) fun _ => True := by
  induction is with
  | nil => exact fun n a H => L.closeBlocks level inAction a
  | cons i is ih =>
    intro n a H
    by_cases hassert : ∃ cs, i = .assert cs
    · obtain ⟨cs, rfl⟩ := hassert
      rw [Emit.block_cons_assert, Emit.nextFragment, if_pos rfl]
      refine L.bind (hbegin n _) fun _ => L.bind (L.firstOf cs) fun c =>
        L.bind (L.condition c hsc.isScope_stem) fun _ => ?_
      exact L.bind L.openBlock fun _ => ih (n + 1) (a + 1) _
    · rw [Emit.block_cons _ _ _ _ _ fun cs h => hassert ⟨cs, h⟩, Emit.nextFragment, if_pos rfl]
      exact L.bind (hbegin n _) fun f => L.bind (hinstruction f a i _ fun h => h.2) fun _ =>
        ih (n + 1) a _

end Judgement

end Pathwise
