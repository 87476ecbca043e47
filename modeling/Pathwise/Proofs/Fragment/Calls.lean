import Pathwise.Proofs.Fragment.Tables
import Pathwise.Proofs.Fragment.Words

/-!
# Calls of modules

A call binds the parameters of a module, declares its variables, and generates its body in a scope
of its own.

* `CallBinds`: what the names in the body of a called module stand for.  A parameter for results
  stands for the argument; every other name stands for a variable of the call.
* `moduleCall_eq_ok`: a call that succeeds generates the body in a scope whose names are bound like
  that.
* `moduleCall_sound`: the variables of the scope are known to the caller or declared by the call, so
  the call is sound if the body is.
* `moduleCall_namesWords`: the variables of the scope have words for names, if those of the caller
  do.
-/

namespace Pathwise

open Steps List OrderedMap

variable {sc : Scope} {stem : String} {g g' : Generation} {run : Job → Gen Unit}

/-- The text of an operand that stands for the same in every scope. -/
def Tree.constant? (t : Tree) : Option String :=
  (result? (Operand.resolve {} t)).map (·.text)

theorem Scope.binds_or_constant {t : Tree} {o : Operand} {c c' : String}
    (h : sc.resolve t c = .ok o c') :
    sc.Binds o.text ∨ t.constant? = some o.text := by
  rcases Operand.resolve_eq_ok h with ⟨_, name, hname⟩ | ⟨_, hresolve⟩
  · exact .inl ⟨name, hname⟩
  · refine .inr ?_
    rw [Tree.constant?, ((Operand.resolve_quiet {} t).eq_ok (hresolve {})).1]
    rfl

/-- The parameters of a module, each with its direction, its name, its type and its argument. -/
def Module.signature (m : Module) (c : Call) : List ((String × String × String) × Tree) :=
  (m.directions.zip (m.params.zip m.paramTypes)).zip c.args

/-- What the generated names of a called module start with. -/
def Scope.callStem (sc : Scope) (c : Call) : String :=
  sc.stem ++ "_" ++ c.name

/-- In the body of the module `m`, called by `c` from the scope `sc`, a name stands for the
variable. -/
inductive CallBinds (sc : Scope) (m : Module) (c : Call) : String → String → Prop
  /-- a parameter that takes a result stands for the argument -/
  | result {direction name type : String} {arg : Tree} {o : Operand}
      (hparam : ((direction, name, type), arg) ∈ m.signature c)
      (hdirection : direction = "out" ∨ direction = "inout") (harg : sc.operand? arg = some o) :
      CallBinds sc m c name o.text
  /-- a parameter that takes a value is a variable of the call -/
  | value {name type : String} {arg : Tree} (hparam : (("in", name, type), arg) ∈ m.signature c) :
      CallBinds sc m c name (sc.callStem c ++ "_" ++ name)
  /-- so is a variable of the module -/
  | own {name : String} (hname : name ∈ m.vars.keys) :
      CallBinds sc m c name (sc.callStem c ++ "_" ++ name)

/-- Variables of the naming scope `stem` are declared, and control code sets them. -/
structure Introduces (sc : Scope) (stem : String) (e : Effect) : Prop where
  own : ∀ kind, ∀ p ∈ e.own kind, kind = .control ∧ p.applied? = none ∧
    ∀ v ∈ p.mentions, sc.Binds v ∨ v ∈ declaredVars (e.vars stem)
  tables : e.tables = 0
  scopes : e.scopes = []
  actions : e.actions = []

theorem introduces_joins (sc : Scope) (stem : String) : Joins (Introduces sc stem) where
  empty := by
    refine ⟨?_, rfl, rfl, rfl⟩
    intro kind p hp
    cases hp
  append := by
    intro e e' h h'
    refine ⟨?_, by simp [h.tables, h'.tables], by simp [h.scopes, h'.scopes], by simp [h.actions,
      h'.actions]⟩
    intro kind p hp
    rw [Effect.vars_append, declaredVars_append]
    rcases mem_append.mp hp with hp | hp
    · obtain ⟨hkind, happlied, hmentions⟩ := h.own kind p hp
      exact ⟨hkind, happlied, fun v hv => (hmentions v hv).imp_right (mem_append_left _)⟩
    · obtain ⟨hkind, happlied, hmentions⟩ := h'.own kind p hp
      exact ⟨hkind, happlied, fun v hv => (hmentions v hv).imp_right (mem_append_right _)⟩

theorem Sound.call {S : Setting} {sc' : Scope} {e e' : Effect} (h : Introduces sc stem e)
    (hscope : ∀ v, sc'.Binds v → (sc.Binds v ∨ S.literal v) ∨ v ∈ declaredVars (e.vars stem))
    (h' : Sound S sc' e') :
    Sound S sc (e ++ .recordScope stem ++ e') := by
  have hnil : ∀ {kind : TextKind}, kind ≠ .control → e.own kind = [] :=
    fun hk => eq_nil_iff_forall_not_mem.mpr fun p hp => hk (h.own _ p hp).1
  have happlied : appliedTables (e.own .control) = [] :=
    filterMap_eq_nil_iff.mpr fun p hp => (h.own .control p hp).2.1
  have hdeclared : ∀ v ∈ declaredVars (e.vars stem), (e ++ .recordScope stem ++ e').Declares v := by
    intro v hv
    exact .left (.inr ⟨stem, by simp [hv], by simp⟩)
  refine ⟨?_, ?_, ?_, fun hS => ?_, ?_,
    .append (.append (.of_entry_nil (hnil (by decide))) (.of_entry_nil rfl)) h'.fitting⟩
  · simp [hnil, h.tables, h'.count]
  · simp [hnil, h.actions, h'.actions]
  · refine .append (.append (.of_table_nil ?_ ?_ happlied) (.of_table_nil rfl rfl rfl)) h'.linked
    · exact hnil (by decide)
    · exact hnil (by decide)
  · obtain ⟨hnames, hlisted⟩ := h'.tabled hS
    refine ⟨?_, ?_⟩
    · simp [hnil, happlied, hnames]
    · simpa [hnil] using hlisted
  · intro kind v hv
    rw [Effect.own_append, Effect.own_append, Effect.recordScope_own, Effect.empty_own, append_nil,
      mentioned_append, mem_append] at hv
    rcases hv with hv | hv
    · obtain ⟨p, hp, hv⟩ := mem_flatMap.mp hv
      exact ((h.own kind p hp).2.2 v hv).imp .inl (hdeclared v)
    · rcases h'.covered kind v hv with (hv | hv) | hv
      · exact (hscope v hv).imp_right (hdeclared v)
      · exact .inl (.inr hv)
      · exact .inr (.right hv)

/-- A call has bound names and introduced variables. -/
structure Prepares (S : Setting) (sc : Scope) (m : Module) (c : Call)
    (bound bound' : OrderedMap String String) (e : Effect) : Prop where
  introduces : Introduces sc (sc.callStem c) e
  names : ∀ name v, bound'.find? name = some v → bound.find? name = some v ∨
    CallBinds sc m c name v ∧ ((sc.Binds v ∨ S.literal v) ∨
      v ∈ declaredVars (e.vars (sc.callStem c)))

section

variable {S : Setting} {sc : Scope} {m : Module} {c : Call}
  {bound bound' bound'' : OrderedMap String String} {e e' : Effect}

theorem Prepares.refl (S : Setting) (sc : Scope) (m : Module) (c : Call)
    (bound : OrderedMap String String) :
    Prepares S sc m c bound bound .empty :=
  ⟨(introduces_joins sc _).empty, fun _ _ h => .inl h⟩

theorem Prepares.trans (h : Prepares S sc m c bound bound' e)
    (h' : Prepares S sc m c bound' bound'' e') :
    Prepares S sc m c bound bound'' (e ++ e') := by
  refine ⟨(introduces_joins sc _).append h.introduces h'.introduces, ?_⟩
  intro name v hv
  rw [Effect.vars_append, declaredVars_append, mem_append]
  rcases h'.names name v hv with hv | ⟨hbinds, hv⟩
  · refine (h.names name v hv).imp_right fun ⟨hbinds, hv⟩ => ⟨hbinds, ?_⟩
    exact hv.imp_right .inl
  · exact .inr ⟨hbinds, hv.imp_right .inr⟩

end

namespace Emit

variable {S : Setting} {sc : Scope} {site : Site} {m : Module} {c : Call}

theorem bindParam_prepares (hargs : ∀ t ∈ c.args, ∀ v, t.constant? = some v → S.literal v)
    {x : (String × String × String) × Tree} (hx : x ∈ m.signature c)
    (bound : OrderedMap String String) :
    Yields site.fragment (bindParam sc site m (sc.callStem c) bound x) fun bound' e =>
      Prepares S sc m c bound bound' e := by
  obtain ⟨⟨direction, name, type⟩, arg⟩ := x
  have harg : arg ∈ c.args := (of_mem_zip hx).2
  have hinsert : ∀ {v : String} {e : Effect}, Introduces sc (sc.callStem c) e →
      CallBinds sc m c name v →
      ((sc.Binds v ∨ S.literal v) ∨ v ∈ declaredVars (e.vars (sc.callStem c))) →
      Prepares S sc m c bound (bound.insert name v) e := by
    intro v e hi hbinds hv
    refine ⟨hi, fun name' v' hfind => ?_⟩
    rw [find?_insert] at hfind
    split at hfind
    · next hname =>
      cases hfind
      subst hname
      exact .inr ⟨hbinds, hv⟩
    · exact .inl hfind
  intro g bound' g' h
  simp only [bindParam] at h
  split at h
  · next hdirection =>
    simp only [Bool.or_eq_true, decide_eq_true_eq] at hdirection
    split at h
    · obtain ⟨_, _, h, _⟩ := bind_eq_ok.mp h
      exact absurd h Gen.lift_halt_ne_ok
    · obtain ⟨o, h1, rfl⟩ := bind_pure_eq_ok.mp h
      have hoperand := Gen.quiet_eq_ok (sc.resolve_quiet arg) h1
      obtain ⟨_, hresolve, _⟩ := Gen.report_eq_ok.mp h1
      refine ⟨.empty, .report h1, hinsert (introduces_joins sc _).empty
        (.result hx hdirection hoperand) (.inl ?_)⟩
      exact (Scope.binds_or_constant hresolve).imp_right (hargs arg harg _)
  · split at h
    · next hin =>
      subst hin
      simp only [bind_eq_ok, pure_eq_ok] at h
      obtain ⟨o, g1, h1, type', g2, h2, _, g3, h3, _, g4, h4, rfl, rfl⟩ := h
      obtain ⟨_, hresolve, _⟩ := Gen.report_eq_ok.mp h1
      obtain rfl := Gen.typeOf_eq_ok h2
      refine ⟨_, ((Performs.report h1).trans (.emitVars h3)).trans (.emit h4),
        hinsert ⟨?_, rfl, rfl, rfl⟩ (.value hx) (.inr ?_)⟩
      · intro kind p hp
        simp only [Effect.own_append, Effect.empty_own, Effect.declare_own, nil_append,
          Effect.write_own] at hp
        split at hp
        · next hkind =>
          obtain ⟨line, hline, hp⟩ := mem_flatten.mp hp
          obtain rfl := eq_of_mem_replicate hline
          have hline : ∀ p ∈ [Piece.indent 1, .operand ⟨sc.callStem c ++ "_" ++ name, .var⟩,
              .assignSign, .operand o, .endStatement], p.applied? = none ∧
                ∀ v ∈ p.mentions, sc.Binds v ∨ v = sc.callStem c ++ "_" ++ name := by
            simp only [forall_mem_cons]
            refine ⟨⟨rfl, forall_mem_nil _⟩, ⟨rfl, ?_⟩, ⟨rfl, forall_mem_nil _⟩, ⟨rfl, ?_⟩,
              ⟨rfl, forall_mem_nil _⟩, forall_mem_nil _⟩
            · exact forall_mem_singleton.mpr (.inr rfl)
            · exact fun v hv =>
                .inl ((Piece.isPlain_operand (Scope.known_of_resolve hresolve)).binds v hv)
          refine ⟨hkind, (hline p hp).1, fun v hv => ((hline p hp).2 v hv).imp_right ?_⟩
          rintro rfl
          simp [declaredVars, Piece.declared?]
        · cases hp
      · simp [declaredVars, Piece.declared?]
    · exact absurd h Gen.lift_halt_ne_ok

theorem bindParams_prepares (hargs : ∀ t ∈ c.args, ∀ v, t.constant? = some v → S.literal v)
    (xs : List ((String × String × String) × Tree)) : (∀ x ∈ xs, x ∈ m.signature c) → ∀ bound :
    OrderedMap String String,
    Yields site.fragment (xs.foldlM (bindParam sc site m (sc.callStem c)) bound) fun bound' e =>
      Prepares S sc m c bound bound' e := by
  induction xs with
  | nil =>
    intro _ bound g bound' g' h
    obtain ⟨rfl, rfl⟩ := pure_eq_ok.mp h
    exact ⟨.empty, .refl _ _, .refl S sc m c bound⟩
  | cons x xs ih =>
    intro hxs bound g bound' g' h
    obtain ⟨hx, hrest⟩ := forall_mem_cons.mp hxs
    rw [foldlM_cons] at h
    obtain ⟨next, g1, h1, h2⟩ := bind_eq_ok.mp h
    obtain ⟨e1, p1, hprep1⟩ := bindParam_prepares hargs hx bound h1
    obtain ⟨e2, p2, hprep2⟩ := ih hrest next h2
    exact ⟨e1 ++ e2, p1.trans p2, hprep1.trans hprep2⟩

/-- **The variables of a naming scope are declared under their generated names.** -/
theorem declareVars_eq_ok {vars bound bound' : OrderedMap String String}
    (h : declareVars vars bound stem g = .ok bound' g') :
    ∃ ps, (∀ f, Performs f g (.declare stem ps) g') ∧ g'.relation = g.relation ∧
      ∀ name v, bound'.find? name = some v →
      bound.find? name = some v ∨ name ∈ vars.keys ∧ v = stem ++ "_" ++ name ∧
        v ∈ declaredVars ps := by
  obtain ⟨s, g1, hget, h⟩ := bind_eq_ok.mp h
  obtain ⟨rfl, rfl⟩ := get_eq_ok.mp hget
  split at h
  · obtain ⟨rfl, rfl⟩ := pure_eq_ok.mp h
    refine ⟨[], fun f => (Performs.refl f g).congr ?_, rfl, fun _ _ hv => .inl hv⟩
    refine Effect.ext rfl (funext fun scope => ?_) rfl rfl rfl
    simp
  · simp only [resolveTypes, bind_eq_ok, pure_eq_ok, modify_eq_ok, get_eq_ok] at h
    obtain ⟨_, g1, rfl, vars', g2, ⟨_, _, ⟨rfl, rfl⟩, rfl, rfl⟩, _, g3, h3, rfl, rfl⟩ := h
    have p1 : ∀ f, Performs f g .empty { g with scopes := g.scopes ++ [stem] } :=
      fun f => .of_eq rfl rfl rfl
    refine ⟨_, fun f => ((p1 f).trans (.emitVars h3)).congr
      (Effect.empty_append _), by rw [Gen.emit_eq_ok h3], ?_⟩
    intro name v hv
    refine (find?_foldl_insert _ hv).imp_right fun ⟨hname, hv⟩ => ?_
    rw [keys_map] at hname
    refine ⟨hname, hv, ?_⟩
    rw [← keys_map (Definitions.typeOf g.definitions.types)] at hname
    obtain ⟨x, hx, rfl⟩ := mem_map.mp hname
    rw [hv]
    exact mem_filterMap.mpr ⟨_, mem_map_of_mem hx, rfl⟩

theorem moduleCall_eq_ok (hargs : ∀ t ∈ c.args, ∀ v, t.constant? = some v → S.literal v) {u : Unit}
    (h : moduleCall run sc site c g = .ok u g') :
    ∃ m vars e g1, sc.modules.find? c.name = some m ∧ Prepares S sc m c {} vars e ∧
      Performs site.fragment g (e ++ .recordScope (sc.callStem c)) g1 ∧
      run ⟨⟨sc.callStem c, vars, m.maps, m.sets, m.funcs, sc.modules⟩,
        { site with inAction := false }, m.body⟩ g1 =
        .ok u g' := by
  unfold moduleCall at h
  cases hm : sc.modules.find? c.name with
  | none =>
    rw [hm] at h
    obtain ⟨_, _, _, h⟩ := bind_eq_ok.mp h
    exact absurd h Gen.lift_halt_ne_ok
  | some m =>
    rw [hm] at h
    simp only at h
    obtain ⟨_, g1, h1, h⟩ := bind_eq_ok.mp h
    split at h
    · obtain ⟨_, _, h, _⟩ := bind_eq_ok.mp h
      exact absurd h Gen.lift_halt_ne_ok
    · split at h
      · obtain ⟨_, _, h, _⟩ := bind_eq_ok.mp h
        exact absurd h Gen.lift_halt_ne_ok
      · simp only [bind_eq_ok] at h
        obtain ⟨bound, g2, h2, vars, g3, h3, _, g4, h4, h⟩ := h
        have p1 : Performs site.fragment g .empty g1 := .note h1 (fun _ => rfl) (fun _ => rfl)
        obtain ⟨eb, p2, hprep⟩ := bindParams_prepares hargs (m.signature c) (fun _ => id) {} h2
        obtain ⟨ps, p3, _, hnames⟩ := declareVars_eq_ok h3
        have p4 : Performs site.fragment g3 (.recordScope (sc.callStem c)) g4 := by
          refine .record ?_ ?_ (Effect.addedTo_eq_nil (fun _ => rfl) (fun _ => rfl) _) rfl h4
          · exact fun r => (Int.add_zero r.tableCount).symm
          · exact fun _ => rfl
        have hvars : Prepares S sc m c bound vars (.declare (sc.callStem c) ps) := by
          refine ⟨⟨fun kind p hp => absurd hp not_mem_nil, rfl, rfl, rfl⟩, fun name v hv => ?_⟩
          refine (hnames name v hv).imp_right fun ⟨hname, hv, hdeclared⟩ => ?_
          refine ⟨hv ▸ .own hname, .inr ?_⟩
          simpa using hdeclared
        have p := (((p1.trans p2).trans (p3 _)).trans p4).congr (by rw [Effect.empty_append])
        exact ⟨m, vars, _, g4, rfl, hprep.trans hvars, p, h⟩

theorem moduleCall_sound (hargs : ∀ t ∈ c.args, ∀ v, t.constant? = some v → S.literal v)
    (hrun : ∀ m vars, sc.modules.find? c.name = some m →
      Keeps site.fragment (Sound S ⟨sc.callStem c, vars, m.maps, m.sets, m.funcs, sc.modules⟩)
        (run ⟨⟨sc.callStem c, vars, m.maps, m.sets, m.funcs, sc.modules⟩,
          { site with inAction := false }, m.body⟩)
        fun _ => True) :
    Keeps site.fragment (Sound S sc) (moduleCall run sc site c) fun _ => True := by
  intro g u g' h
  obtain ⟨m, vars, e, g1, hm, hprep, p, hbody⟩ := moduleCall_eq_ok hargs h
  obtain ⟨e', p', _, hsound⟩ := hrun m vars hm hbody
  refine ⟨_, p.trans p', trivial, .call hprep.introduces ?_ hsound⟩
  rintro v ⟨name, hname⟩
  rcases hprep.names name v hname with hempty | ⟨_, hv⟩
  · cases hempty
  · exact hv

end Emit

/-! ### Names of variables are words

Scopes are built in two places: for an application, and for the body of a called module.  Functions
and blocks are generated in the scope that they stand in.
-/

theorem isName_generated {x : String} (hstem : IsWord stem) (hx : IsWord x) :
    IsName (stem ++ "_" ++ x) := by
  refine ⟨(hstem.append (by decide)).append hx, fun hk => ?_⟩
  have hnone : ∀ k ∈ keywords, '_' ∉ k.toList := by decide
  exact hnone _ hk (by simp)

/-- **The scope of an application names its variables by words.** -/
theorem Emit.declareVars_namesWords {vars bound : OrderedMap String String} (hstem : IsWord stem)
    (hvars : ∀ x ∈ vars.keys, IsWord x) (h : declareVars vars {} stem g = .ok bound g')
    (modules : OrderedMap String Module) : Scope.NamesWords ⟨stem, bound, {}, {}, {}, modules⟩ := by
  intro x name hname
  obtain ⟨_, _, _, hnames⟩ := declareVars_eq_ok h
  rcases hnames x name hname with hempty | ⟨hx, rfl, _⟩
  · cases hempty
  · exact isName_generated hstem (hvars x hx)

theorem CallBinds.isName {m : Module} {c : Call} {name v : String} (hsc : sc.NamesWords)
    (hstem : IsWord (sc.callStem c)) (hargs : ∀ t ∈ c.args, IsOperand t)
    (hparams : ∀ x ∈ m.params, IsWord x) (hvars : ∀ x ∈ m.vars.keys, IsWord x)
    (h : CallBinds sc m c name v) : IsName v := by
  cases h with
  | result hparam _ harg => exact (hargs _ (of_mem_zip hparam).2).writesWord hsc _ harg
  | value hparam =>
    exact isName_generated hstem (hparams _ (of_mem_zip (of_mem_zip (of_mem_zip hparam).1).2).1)
  | own hname => exact isName_generated hstem (hvars _ hname)

/--
**The scope of a called module names its variables by words**, if the names in the module are words
and the arguments are operands.
-/
theorem Emit.moduleCall_namesWords {site : Site} {m : Module} {c : Call} {u : Unit}
    (hsc : sc.NamesWords) (hstem : IsWord (sc.callStem c)) (hargs : ∀ t ∈ c.args, IsOperand t)
    (hm : sc.modules.find? c.name = some m) (hparams : ∀ x ∈ m.params, IsWord x)
    (hvars : ∀ x ∈ m.vars.keys, IsWord x) (h : moduleCall run sc site c g = .ok u g') :
    ∃ vars g₁, Scope.NamesWords ⟨sc.callStem c, vars, m.maps, m.sets, m.funcs, sc.modules⟩ ∧
      run ⟨⟨sc.callStem c, vars, m.maps, m.sets, m.funcs, sc.modules⟩,
        { site with inAction := false }, m.body⟩ g₁ =
        .ok u g' := by
  obtain ⟨m', vars, _, g₁, hm', hprepares, _, hrun⟩ :=
    moduleCall_eq_ok (S := ⟨{}, True, fun _ => True⟩) (fun _ _ _ _ => trivial) h
  obtain rfl : m = m' := Option.some.inj (hm.symm.trans hm')
  refine ⟨vars, g₁, fun x name hname => ?_, hrun⟩
  rcases hprepares.names x name hname with hempty | ⟨hbinds, _⟩
  · cases hempty
  · exact hbinds.isName hsc hstem hargs hparams hvars

end Pathwise
