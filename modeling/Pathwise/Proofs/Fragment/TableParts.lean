import Pathwise.Proofs.Fragment.PlainText

/-!
# The parts of a generated table

A table is written in parts: its keys, the actions that it lists with their bodies, its entries, and
the place where it is applied.  `Part S known t e` says that an effect is a part of the table `t`;
parts can be joined (`part_joins`).

* `Part.keys`, `Part.action`, `Part.close`: the keys, an action with its entries, and the end of a
  table.
* `Sound.of_part`: a head before the parts and an application after them make the effect sound
  (`tableEffect`).
-/

namespace Pathwise

open Steps List

/-! ### Parts -/

/-- What every part of the table `t` ensures about its effect, where `known` are the variables that
it may mention. -/
structure Part (S : Setting) (known : String → Prop) (t : String) (e : Effect) : Prop where
  count : e.tables = (tableNames (e.own .table)).length
  actions : e.actions = actionNames (e.own .action)
  linked : Linked (some t) e
  heads : S.regular → tableNames (e.own .table) = []
  covered : Covered known e
  fitting : Fitting S.modules e

theorem part_joins (S : Setting) (known : String → Prop) (t : String) : Joins (Part S known t) where
  empty := by
    refine ⟨rfl, rfl, .of_table_nil rfl rfl rfl, fun _ => rfl, ?_, .of_entry_nil rfl⟩
    intro kind v hv
    cases hv
  append := by
    intro e e' h h'
    refine ⟨?_, ?_, h.linked.append h'.linked, fun hS => ?_, h.covered.append h'.covered,
      h.fitting.append h'.fitting⟩
    · simp [h.count, h'.count]
    · simp [h.actions, h'.actions]
    · simp [h.heads hS, h'.heads hS]

section

variable {S : Setting} {sc : Scope} {known : String → Prop} {t : String} {e e' : Effect}

variable {kind : TextKind} {ps : List Piece} {o : Operand} {a : String} {n : Nat}

/-! ### Variables of parts -/

theorem Covered.write (h : ∀ v ∈ mentioned ps, known v) :
    Covered known (.write kind ps) := by
  intro kind' v hv
  rw [Effect.write_own] at hv
  split at hv
  · exact .inl (h v hv)
  · cases hv

theorem Covered.of_own (h : ∀ kind, e.own kind = []) : Covered known e := by
  intro kind v hv
  rw [h] at hv
  cases hv

/-- **The body of an action is a part** if it begins no action. -/
theorem Part.body (hps : actionNames ps = []) (hmentions : ∀ v ∈ mentioned ps, known v) :
    Part S known t (.write .action ps) :=
  ⟨rfl, hps.symm, .of_table_nil rfl rfl rfl, fun _ => rfl, .write hmentions, .of_entry_nil rfl⟩

theorem Part.plain (hknown : ∀ v, sc.Binds v → known v) (h : ∀ p ∈ ps, p.IsPlain sc) :
    Part S known t (.write .action ps) := by
  refine .body (filterMap_eq_nil_iff.mpr fun p hp => (h p hp).head) fun v hv => ?_
  obtain ⟨p, hp, hv⟩ := mem_flatMap.mp hv
  exact hknown v ((h p hp).binds v hv)

theorem Part.of_sound (h : Sound S sc e) (hplain : S.regular → Plain sc e) :
    Part S (fun v => sc.Binds v ∨ S.literal v) t e := by
  refine ⟨h.count, h.actions, ⟨h.linked.applied, h.linked.listed, h.linked.default, ?_⟩,
    fun hS => ?_, h.covered, h.fitting⟩
  · intro p hp
    obtain ⟨x, rfl, hx, ha⟩ := h.linked.entries p hp
    exact ⟨x, rfl, .inl (hx.resolve_right (by simp)), ha⟩
  · have htable : e.own .table = [] := (hplain hS).own_eq_nil (by simp)
    rw [htable]
    rfl

/-! ### Keys -/

/-- A piece of a table that is neither its head nor one of its actions. -/
structure Piece.IsKeyPart (sc : Scope) (p : Piece) : Prop where
  head : p.tableHead? = none
  listed : p.listed? = none
  default : p.default? = none
  binds : ∀ v ∈ p.mentions, sc.Binds v

/-- A piece of a table that names nothing. -/
def Piece.isFrame (p : Piece) : Bool :=
  p.tableHead?.isNone && p.listed?.isNone && p.default?.isNone && p.mentions.isEmpty

theorem Piece.isKeyPart_of_frame {p : Piece} (h : p.isFrame = true) : p.IsKeyPart sc := by
  simp only [isFrame, Bool.and_eq_true, Option.isNone_iff_eq_none, List.isEmpty_iff] at h
  obtain ⟨⟨⟨hhead, hlisted⟩, hdefault⟩, hmentions⟩ := h
  refine ⟨hhead, hlisted, hdefault, ?_⟩
  rw [hmentions]
  exact List.forall_mem_nil _

theorem Piece.isKeyPart_keyLine (h : sc.Known o) (hps : ps.all Piece.isFrame = true) :
    ∀ p ∈ .keyMargin :: .operand o :: ps, p.IsKeyPart sc :=
  forall_mem_cons.mpr ⟨isKeyPart_of_frame rfl,
    forall_mem_cons.mpr ⟨⟨rfl, rfl, rfl, (isPlain_operand h).binds⟩, fun p hp =>
    isKeyPart_of_frame (all_eq_true.mp hps p hp)⟩⟩

theorem isKeyPart_keyLines {keys : List Operand} (hkeys : ∀ o ∈ keys, sc.Known o) :
    ∀ p ∈ Emit.keyLines keys ++ [.sectionClose], p.IsKeyPart sc := by
  refine forall_mem_append.mpr ⟨forall_mem_flatMap.mpr fun o ho => ?_,
    forall_mem_singleton.mpr (Piece.isKeyPart_of_frame rfl)⟩
  exact Piece.isKeyPart_keyLine (hkeys o ho) rfl

theorem Part.keys (hknown : ∀ v, sc.Binds v → known v) (h : ∀ p ∈ ps, p.IsKeyPart sc) :
    Part S known t (.write .table ps) := by
  have hnone : ∀ {β : Type} {f : Piece → Option β}, (∀ p : Piece, p.IsKeyPart sc → f p = none) →
      ps.filterMap f = [] :=
    fun hf => filterMap_eq_nil_iff.mpr fun p hp => hf p (h p hp)
  have hheads : tableNames ps = [] := hnone fun p hp => hp.head
  refine ⟨(congrArg length hheads).symm, rfl, ⟨?_, ?_, ?_, forall_mem_nil _⟩, fun _ => hheads,
    .write fun v hv => ?_, .of_entry_nil rfl⟩
  · exact .of_eq hheads
  · show ∀ a ∈ ps.filterMap Piece.listed?, _
    rw [hnone fun p hp => hp.listed]
    exact forall_mem_nil _
  · show ∀ a ∈ ps.filterMap Piece.default?, _
    rw [hnone fun p hp => hp.default]
    exact forall_mem_nil _
  · obtain ⟨p, hp, hv⟩ := mem_flatMap.mp hv
    exact hknown v ((h p hp).binds v hv)

/-! ### Actions with their entries -/

/-- The entries run an action of the table, which has `n` parameters. -/
def RunAction (S : Setting) (t a : String) (n : Nat) (entries : List Entry) : Prop :=
  ∀ x ∈ entries, x.table = t ∧ x.action = a ∧ x.Fits S.modules n

/-- **The entries of a map or set fit an action with `n` parameters**, except for rows that are not
as wide as the first. -/
theorem RunAction.of_rows {l : Lookup} {keys : List String} (hl : HasLookup S.modules l)
    (hrows : RowsFit keys.length n l.entries) :
    RunAction S t a n (l.entries.map (.ofRow t a keys)) := by
  refine forall_mem_map.mpr fun row hrow => ⟨rfl, rfl, ?_⟩
  have hwide := hrows.wide row hrow
  have hparams : (Entry.ofRow t a keys row).params.length = row.length - keys.length := length_drop
  obtain ⟨first, hfirst⟩ := Option.isSome_iff_exists.mp (isSome_head?.mpr (ne_nil_of_mem hrow))
  have hwidth := hrows.first first hfirst
  by_cases hsame : row.length = first.length
  · exact .inl (by omega)
  · exact .inr ⟨l, first, row, keys, hl, hfirst, hrow, rfl, hsame, by omega⟩

/-- **An action is a part of its table**, with a body that is one and entries that run it. -/
theorem Part.action {params : List Piece} {body : Effect} {entries : List Entry}
    (hparams : ∀ p ∈ params, p.isActionParam = true) (hbody : Part S known t body)
    (hentries : RunAction S t a params.length entries) :
    Part S known t (actionEffect a params body entries) := by
  have hparam : ∀ p ∈ params, p.actionHead? = none ∧ p.mentions = [] := by
    intro p hp
    have hp := hparams p hp
    cases p with
    | actionParam i type => exact ⟨rfl, rfl⟩
    | _ => cases hp
  have hheads : actionNames params = [] := filterMap_eq_nil_iff.mpr fun p hp => (hparam p hp).1
  have hmentions : mentioned params = [] := flatMap_eq_nil_iff.mpr fun p hp => (hparam p hp).2
  have htable : (actionEffect a params body entries).own .table = .actionName a ::
      body.own .table := by
    simp [actionEffect]
  have haction : (actionEffect a params body entries).own .action =
      .actionHead a :: (params ++ .actionBody :: (body.own .action ++ [.blockClose])) := by
    simp [actionEffect]
  have hnames : actionNames ((actionEffect a params body entries).own .action) = a :: actionNames
      (body.own .action) := by
    rw [haction]
    show a :: actionNames (params ++ ([.actionBody] ++ (body.own .action ++ [.blockClose]))) = _
    rw [actionNames_append, actionNames_append, actionNames_append, hheads]
    exact congrArg (a :: ·) (append_nil _)
  have hentry : (actionEffect a params body entries).own .entry = body.own .entry ++
      entries.map .entry := by simp [actionEffect]
  have hb := hbody.linked
  refine ⟨?_, ?_, ⟨?_, ?_, ?_, ?_⟩, fun hS => ?_, ?_, ?_⟩
  · rw [htable]
    show _ = (tableNames (body.own .table)).length
    rw [← hbody.count]
    simp [actionEffect]
  · rw [hnames, ← hbody.actions]
    simp [actionEffect]
  · have hcontrol : (actionEffect a params body entries).own .control = body.own .control := by
      simp [actionEffect]
    rw [htable, hcontrol]
    exact hb.applied
  · rw [htable, hnames]
    intro x hx
    rcases mem_cons.mp (show x ∈ a ::
      (body.own .table).filterMap Piece.listed? from hx) with rfl | hx
    · exact mem_cons_self
    · exact mem_cons_of_mem _ (hb.listed x hx)
  · rw [htable, hnames]
    intro x hx
    exact mem_cons_of_mem _ (hb.default x hx)
  · rw [htable, hentry]
    refine forall_mem_append.mpr ⟨fun p hp => ?_, forall_mem_map.mpr fun x hx => ?_⟩
    · obtain ⟨x, rfl, hx, ha⟩ := hb.entries p hp
      exact ⟨x, rfl, hx, mem_cons_of_mem _ ha⟩
    · obtain ⟨ht, ha, _⟩ := hentries x hx
      exact ⟨x, rfl, .inr (by rw [ht]), ha ▸ mem_cons_self⟩
  · rw [htable]
    exact hbody.heads hS
  · have hnone : ∀ {kind : TextKind} {ps : List Piece}, mentioned ps = [] →
        Covered known (.write kind ps) :=
      fun h => .write (by rw [h]; exact forall_mem_nil _)
    refine .append
      (.append (.append (.append (.append (.of_own fun _ => rfl) (hnone rfl)) (hnone ?_))
      hbody.covered)
      (hnone rfl)) (hnone ?_)
    · show mentioned (params ++ [.actionBody]) = []
      rw [mentioned_append, hmentions]
      rfl
    · exact flatMap_eq_nil_iff.mpr (forall_mem_map.mpr fun _ _ => rfl)
  · rw [Fitting, hentry, haction]
    refine forall_mem_append.mpr ⟨fun p hp => ?_, forall_mem_map.mpr fun x hx => ?_⟩
    · obtain ⟨x, m, rfl, hx, hfits⟩ := hbody.fitting p hp
      have hx' : BeginsAction ((.actionHead a :: (params ++ [.actionBody])) ++
          (body.own .action ++ [.blockClose])) x.action m :=
        hx.left.right
      exact ⟨x, m, rfl, by simpa using hx', hfits⟩
    · obtain ⟨_, rfl, hfits⟩ := hentries x hx
      exact ⟨x, params.length, rfl, ⟨[], _, rfl, params, _, rfl, rfl, hparams⟩, hfits⟩

theorem filterMap_tableEnd {β : Type} {f : Piece → Option β} (deflt : Option String)
    (hsection : f .sectionClose = none) (hblock : f .blockClose = none)
    (hdefault : ∀ a, f (.defaultAction a) = none) : (tableEnd deflt).filterMap f = [] := by
  cases deflt <;> simp [tableEnd, hsection, hblock, hdefault]

theorem Part.close {deflt : Option String} (h : Part S known t e)
    (hdeflt : ∀ a, deflt = some a → a ∈ e.actions) :
    Part S known t (e ++ .write .table (tableEnd deflt)) := by
  have htable : (e ++ .write .table (tableEnd deflt)).own .table = e.own .table ++
      tableEnd deflt := by simp
  have hother : ∀ {kind : TextKind}, kind ≠ .table →
      (e ++ .write .table (tableEnd deflt)).own kind = e.own kind := by
    intro kind hk
    simp [hk]
  have hheads : tableNames (e.own .table ++ tableEnd deflt) = tableNames (e.own .table) := by
    rw [tableNames_append, tableNames, tableNames,
      filterMap_tableEnd deflt rfl rfl fun _ => rfl, append_nil]
  have hlisted : (e.own .table ++ tableEnd deflt).filterMap Piece.listed? =
      (e.own .table).filterMap Piece.listed? := by
    rw [filterMap_append, filterMap_tableEnd deflt rfl rfl fun _ => rfl, append_nil]
  have hdefault : (tableEnd deflt).filterMap Piece.default? = deflt.toList := by
    cases deflt <;> rfl
  have hb := h.linked
  refine ⟨?_, ?_, ⟨?_, ?_, ?_, ?_⟩, fun hS => ?_, ?_, ?_⟩
  · rw [htable, hheads, ← h.count]
    simp
  · rw [hother (by decide), ← h.actions]
    simp
  · rw [htable, hheads, hother (by decide)]
    exact hb.applied
  · rw [htable, hlisted, hother (by decide)]
    exact hb.listed
  · rw [htable, filterMap_append, hdefault, hother (by decide)]
    intro a ha
    rcases mem_append.mp ha with ha | ha
    · exact hb.default a ha
    · rw [← h.actions]
      exact hdeflt a (Option.mem_toList.mp ha)
  · rw [htable, hheads, hlisted, hother (by decide)]
    exact hb.entries
  · rw [htable, hheads]
    exact h.heads hS
  · refine h.covered.append (.write ?_)
    have hmentions : mentioned (tableEnd deflt) = [] := by cases deflt <;> rfl
    rw [hmentions]
    exact forall_mem_nil _
  · exact h.fitting.append (.of_entry_nil rfl)

/-- **A head before the parts of a table and an application after them make a sound effect.** -/
theorem Sound.of_part {ds keys : List Piece} {deflt : Option String} (h : Part S known t e)
    (hknown : ∀ v, sc.Binds v → known v) (hkeys : ∀ p ∈ keys, p.IsKeyPart sc)
    (hdeflt : ∀ a, deflt = some a → a ∈ e.actions) (hds : mentioned ds = [])
    (hcover : ∀ v, known v → (sc.Binds v ∨ S.literal v) ∨ v ∈ declaredVars ds)
    (hps : appliedTables ps = [t]) (hmentions : ∀ v ∈ mentioned ps, known v) :
    Sound S sc (tableEffect t ds keys e deflt ps) := by
  have hframe : ∀ p ∈ .keysOpen :: (keys ++ [.actionsOpen]), p.IsKeyPart sc :=
    forall_mem_cons.mpr ⟨Piece.isKeyPart_of_frame rfl,
      forall_mem_append.mpr ⟨hkeys, forall_mem_singleton.mpr (Piece.isKeyPart_of_frame rfl)⟩⟩
  have hall : Part S known t (.write .table (.keysOpen :: (keys ++ [.actionsOpen])) ++ e ++
      .write .table (tableEnd deflt)) :=
    .close ((part_joins S known t).append (.keys hknown hframe) h) fun a ha =>
      mem_append_right _ (hdeflt a ha)
  have heffect : tableEffect t ds keys e deflt ps = .write .temp ds ++ .countTable ++ .write .table
      [.tableHead t] ++
      (.write .table (.keysOpen :: (keys ++ [.actionsOpen])) ++ e ++ .write .table
        (tableEnd deflt)) ++ .write .control ps := by
    refine Effect.ext (funext fun kind => ?_) (funext fun scope => ?_) ?_ ?_ ?_
    · cases kind <;> simp [tableEffect]
    all_goals simp [tableEffect]
  rw [heffect]
  clear heffect h hdeflt
  generalize Effect.write .table (.keysOpen :: (keys ++ [.actionsOpen])) ++ e ++ .write .table
    (tableEnd deflt) = e at hall
  generalize heffect : Effect.write .temp ds ++ .countTable ++ .write .table [.tableHead t] ++ e ++
    .write .control ps = e'
  have htable : e'.own .table = .tableHead t :: e.own .table := by simp [← heffect]
  have haction : e'.own .action = e.own .action := by simp [← heffect]
  have hentry : e'.own .entry = e.own .entry := by simp [← heffect]
  have hcontrol : e'.own .control = e.own .control ++ ps := by simp [← heffect]
  have htemp : e'.own .temp = ds ++ e.own .temp := by simp [← heffect]
  have hlinked := hall.linked
  refine ⟨?_, ?_, ⟨?_, ?_, ?_, ?_⟩, fun hS => ?_,
    ?_, by rw [Fitting, hentry, haction]; exact hall.fitting⟩
  · rw [htable]
    show _ = (t :: tableNames (e.own .table)).length
    rw [length_cons, ← hall.count]
    simp [← heffect, Nat.add_comm]
  · rw [haction, ← hall.actions]
    simp [← heffect]
  · rw [htable, hcontrol, appliedTables_append, hps]
    exact (hlinked.applied.cons t).trans (perm_append_singleton t _).symm
  · rw [htable, haction]
    exact hlinked.listed
  · rw [htable, haction]
    exact hlinked.default
  · rw [htable, hentry]
    intro p hp
    obtain ⟨x, rfl, hx, ha⟩ := hlinked.entries p hp
    refine ⟨x, rfl, .inl ?_, ha⟩
    show x.table ∈ t :: tableNames (e.own .table)
    rcases hx with hx | hx
    · exact mem_cons_of_mem _ hx
    · cases hx
      exact mem_cons_self
  · have hheads := hall.heads hS
    have happlied : appliedTables (e.own .control) = [] := by
      have hperm := hlinked.applied
      rw [hheads] at hperm
      exact hperm.symm.eq_nil
    refine .single htable hheads ?_ ?_ ?_
    · rw [hcontrol, appliedTables_append, happlied, hps]
      rfl
    · intro a ha
      rw [haction]
      rcases mem_append.mp ha with ha | ha
      · exact hlinked.listed a ha
      · refine hlinked.default a ?_
        obtain ⟨p, hp, hpa⟩ := exists_of_findSome?_eq_some (Option.mem_toList.mp ha)
        exact mem_filterMap.mpr ⟨p, hp, hpa⟩
    · rw [hentry]
      intro p hp
      obtain ⟨x, rfl, hx, ha⟩ := hlinked.entries p hp
      refine ⟨x, rfl, ?_, ha⟩
      rw [hheads] at hx
      exact (Option.some.inj (hx.resolve_left not_mem_nil)).symm
  · have hcovered : Covered known e' := by
      rw [← heffect]
      refine .append (.append (.append (.append (.write ?_) (.of_own fun _ => rfl)) (.write ?_))
        hall.covered) (.write hmentions)
      · rw [hds]
        exact forall_mem_nil _
      · exact forall_mem_nil _
    intro kind v hv
    rcases hcovered kind v hv with hv | hv
    · refine (hcover v hv).imp_right fun hd => .inl ?_
      rw [htemp, declaredVars_append]
      exact mem_append_left _ hd
    · exact .inr hv

end

end Pathwise
