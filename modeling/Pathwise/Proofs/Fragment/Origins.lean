import Pathwise.Proofs.Fragment.Applications

/-!
# Where fragments come from

To generate services is to visit applications one after another (`Gen.services_eq_ok_iff`, `Runs`).
A fragment that is there at the end was begun by one run of an application, the last one that made
its entry, and no later run touched it (`Runs.exists_madeBy`).
-/

namespace Pathwise

open Steps Placement List

variable {p : Program} {g g' : Generation}

/-! ### Programs -/

/-- The instructions are the body of an application, of a module, or of a function of the
program. -/
inductive Program.Holds (p : Program) : List Ins → Prop
  | application {name : String} {a : Application} (h : p.applications.find? name = some a) :
      Holds p a.body
  | module {name : String} {m : Module} (h : p.modules.find? name = some m) : Holds p m.body
  | function {name f : String} {m : Module} {body : List Ins} (h : p.modules.find? name = some m)
      (hf : m.funcs.find? f = some body) : Holds p body

/-- The text is a constant that the program passes to a module. -/
def Program.PassesConstant (p : Program) (v : String) : Prop :=
  ∃ is c t, p.Holds is ∧ CallIn c is ∧ t ∈ c.args ∧ t.constant? = some v

/-- Functions that have the name of a primitive hold nothing but statements. -/
def Program.Regular (p : Program) : Prop :=
  ∀ name m, p.modules.find? name = some m →
    ∀ f ∈ ["nop", "drop"], ∀ body, m.funcs.find? f = some body →
    ∀ i ∈ body, i.IsStep

/-- What is assumed about the program itself. -/
def Program.setting (p : Program) : Setting :=
  ⟨p.modules, p.Regular, p.PassesConstant⟩

theorem Program.Holds.admits {is : List Ins} (h : p.Holds is) : p.setting.Admits is :=
  fun c hc t ht _ hv => ⟨is, c, t, h, hc, ht, hv⟩

theorem Program.setting_valid (p : Program) : p.setting.Valid where
  bodies _ _ hm := Program.Holds.admits (.module hm)
  funcs _ m hm := by
    refine ⟨fun _ _ hbody => Program.Holds.admits (.function hm hbody),
      fun hregular f body hbody hf => ?_⟩
    exact hregular _ m hm f (by simpa using hf) body hbody

/-! ### Visits -/

namespace Gen

variable {p : Program}

variable {service name : String} {apps : List String} {i : Nat}

theorem serviceFrom_none (h : apps[i]? = none) :
    serviceFrom p service apps i = pure apps := by
  rw [serviceFrom]
  split
  · rfl
  · next hname => simp [h] at hname

theorem serviceFrom_some (h : apps[i]? = some name) :
    serviceFrom p service apps i =
      (if isHost name then serviceFrom p service (apps.erase name) (i + 1)
      else do
        match p.applications.find? name with
        | none => throw (.missingKey name)
        | some a => application p.modules (service ++ "_" ++ name) a
        serviceFrom p service apps (i + 1)) := by
  rw [serviceFrom]
  split
  · next hname => simp [h] at hname
  · next hname =>
    rw [h] at hname
    cases hname
    rfl

/-- The applications that `serviceFrom` generates. -/
def visitedFrom (apps : List String) (i : Nat) : List String :=
  match h : apps[i]? with
  | none => []
  | some name =>
    if isHost name then visitedFrom (apps.erase name) (i + 1)
    else name :: visitedFrom apps (i + 1)
termination_by apps.length - i
decreasing_by
  · have hi : i < apps.length := (List.getElem?_eq_some_iff.mp h).1
    have := length_erase_le (a := name) (l := apps)
    omega
  · have hi : i < apps.length := (List.getElem?_eq_some_iff.mp h).1
    omega

/-- Generates one application of a service. -/
def visit (p : Program) (v : String × String) : Gen Unit :=
  match p.applications.find? v.2 with
  | none => throw (.missingKey v.2)
  | some a => application p.modules (v.1 ++ "_" ++ v.2) a

theorem visitedFrom_none (h : apps[i]? = none) : visitedFrom apps i = [] := by
  rw [visitedFrom]
  split
  · rfl
  · next hname => simp [h] at hname

theorem visitedFrom_some (h : apps[i]? = some name) :
    visitedFrom apps i = if isHost name then visitedFrom (apps.erase name) (i + 1)
      else name :: visitedFrom apps (i + 1) := by
  rw [visitedFrom]
  split
  · next hname => simp [h] at hname
  · next hname =>
    rw [h] at hname
    cases hname
    rfl

theorem visit_eq_ok {v : String × String} {u : Unit} (h : visit p v g = .ok u g') :
    ∃ a, p.applications.find? v.2 = some a ∧
      application p.modules (v.1 ++ "_" ++ v.2) a g = .ok () g' := by
  unfold visit at h
  cases ha : p.applications.find? v.2 with
  | none =>
    rw [ha] at h
    cases h
  | some a => exact ⟨a, rfl, by rwa [ha] at h⟩

theorem serviceFrom_visit (h : apps[i]? = some name)
    (hhost : ¬ isHost name = true) :
    serviceFrom p service apps i =
      (do visit p (service, name); serviceFrom p service apps (i + 1)) := by
  rw [serviceFrom_some h, if_neg hhost, visit]
  cases p.applications.find? name <;> rfl

theorem serviceFrom_eq_ok_iff {service : String} {apps : List String} {i : Nat}
    {g g' : Generation} :
    (∃ apps', serviceFrom p service apps i g = .ok apps' g') ↔
      ((visitedFrom apps i).map (service, ·)).forM (visit p) g = .ok () g' := by
  cases hname : apps[i]? with
  | none =>
    rw [serviceFrom_none hname, visitedFrom_none hname, map_nil, forM_nil_eq_ok]
    exact ⟨fun ⟨_, h⟩ => (pure_eq_ok.mp h).2, fun h => ⟨apps, pure_eq_ok.mpr ⟨rfl, h⟩⟩⟩
  | some name =>
    have hlt : i < apps.length := (List.getElem?_eq_some_iff.mp hname).1
    rw [visitedFrom_some hname]
    by_cases hhost : isHost name = true
    · have hle := length_erase_le (a := name) (l := apps)
      rw [serviceFrom_some hname, if_pos hhost, if_pos hhost]
      exact serviceFrom_eq_ok_iff
    · rw [serviceFrom_visit hname hhost, if_neg hhost, map_cons, forM_cons_eq_ok]
      simp only [bind_eq_ok]
      constructor
      · rintro ⟨apps', _, g1, h1, h2⟩
        exact ⟨g1, h1, serviceFrom_eq_ok_iff.mp ⟨apps', h2⟩⟩
      · rintro ⟨g1, h1, h2⟩
        obtain ⟨apps', h2⟩ := serviceFrom_eq_ok_iff.mpr h2
        exact ⟨apps', (), g1, h1, h2⟩
termination_by apps.length - i

end Gen

/-- The applications that are generated for the services of a program, each with its service. -/
def Program.visits (p : Program) : List (String × String) :=
  p.services.entries.flatMap fun (service, s) => (Gen.visitedFrom s.applications 0).map (service, ·)

theorem Gen.services_eq_ok_iff :
    (∃ svcs, services p g = .ok svcs g') ↔ p.visits.forM (visit p) g = .ok () g' := by
  have hfold : ∀ (es : List (String × Service)) (done :
      OrderedMap String Service) (g g' : Generation), (∃ svcs, es.foldlM (fun done (name, s) => do
        let apps ← serviceFrom p name s.applications 0
        pure (done.insert name { s with applications := apps }) :
          _ → _ → Gen (OrderedMap String Service)) done g = .ok svcs g') ↔
      (es.flatMap fun (service, s) => (visitedFrom s.applications 0).map (service, ·)).forM
        (visit p) g = .ok () g' := by
    intro es
    induction es with
    | nil =>
      intro done g g'
      rw [flatMap_nil, forM_nil_eq_ok]
      exact ⟨fun ⟨_, h⟩ => (pure_eq_ok.mp h).2, fun h => ⟨done, pure_eq_ok.mpr ⟨rfl, h⟩⟩⟩
    | cons e es ih =>
      intro done g g'
      obtain ⟨service, s⟩ := e
      rw [flatMap_cons, forM_append_eq_ok, foldlM_cons]
      simp only [bind_eq_ok, pure_eq_ok]
      constructor
      · rintro ⟨svcs, next, g1, ⟨apps, _, h1, rfl, rfl⟩, h2⟩
        exact ⟨_, serviceFrom_eq_ok_iff.mp ⟨apps, h1⟩, (ih _ _ _).mp ⟨svcs, h2⟩⟩
      · rintro ⟨g1, h1, h2⟩
        obtain ⟨apps, h1⟩ := serviceFrom_eq_ok_iff.mpr h1
        obtain ⟨svcs, h2⟩ := (ih (done.insert service { s with applications := apps }) _ _).mpr h2
        exact ⟨svcs, _, g1, ⟨apps, g1, h1, rfl, rfl⟩, h2⟩
  exact hfold _ _ _ _

/-! ### Runs -/

/-- Applications of the program are generated one after another. -/
inductive Runs (p : Program) : Generation → Generation → Prop
  | refl (g : Generation) : Runs p g g
  | tail {g g₀ g₁ : Generation} {service name : String} {a : Application} (prior : Runs p g g₀)
      (ha : p.applications.find? name = some a)
      (h : Gen.application p.modules (service ++ "_" ++ name) a g₀ = .ok () g₁) :
      Runs p g g₁

theorem Runs.trans {g'' : Generation} (h : Runs p g g') (h' : Runs p g' g'') : Runs p g g'' := by
  induction h' with
  | refl => exact h
  | tail _ ha hrun ih => exact .tail ih ha hrun

namespace Gen

variable {p : Program}

theorem services_runs {svcs : OrderedMap String Service} (h : services p g = .ok svcs g') :
    Runs p g g' := by
  have hvisits := services_eq_ok_iff.mp ⟨svcs, h⟩
  clear h
  generalize p.visits = vs at hvisits
  induction vs generalizing g with
  | nil => exact forM_nil_eq_ok.mp hvisits ▸ .refl g
  | cons v vs ih =>
    obtain ⟨g1, h1, h2⟩ := forM_cons_eq_ok.mp hvisits
    obtain ⟨a, ha, h1⟩ := visit_eq_ok h1
    exact (Runs.tail (.refl g) ha h1).trans (ih h2)

end Gen

/-! ### Origins -/

theorem stem_ne_loose (service name : String) : service ++ "_" ++ name ≠ Gen.looseFragment := by
  intro h
  have hmem : '_' ∈ (service ++ "_" ++ name).toList := by
    rw [String.toList_append, String.toList_append]
    simp
  rw [h] at hmem
  exact absurd hmem (by decide)

theorem Gen.application_of_program {service name : String} {a : Application}
    (ha : p.applications.find? name = some a)
    (h : Gen.application p.modules (service ++ "_" ++ name) a g = .ok () g') :
    ∃ sc, sc.stem = service ++ "_" ++ name ∧
      (∀ v, sc.Binds v → v ∈ declaredVars (g'.written ⟨service ++ "_" ++ name, .vars⟩)) ∧
      Cut p.setting sc 0 a.body.length g g' :=
  Gen.application_cut p.setting_valid (Program.Holds.admits (.application ha)) h

/--
The entry `r` of the fragment `f` was made when the application `name` of a service was generated,
from `g₀` to `g₁`, and the fragment was left alone after that.
-/
structure MadeBy (p : Program) (g g' g₀ g₁ : Generation) (service name f : String)
    (r : Relation) : Prop where
  before : Runs p g g₀
  run : ∃ a, ∃ k : Nat, k < a.body.length ∧ p.applications.find? name = some a ∧
    f = fragmentName (service ++ "_" ++ name) k ∧
      Gen.application p.modules (service ++ "_" ++ name) a g₀ = .ok () g₁
  after : Runs p g₁ g'
  relation : g₁.relation.find? f = some (.fragment r)
  text : ∀ kind, kind ≠ .vars → g'.written ⟨f, kind⟩ = g₁.written ⟨f, kind⟩

/-- The variable is declared among the temporary variables of the fragment, or in a file of
variables of its entry. -/
def Generation.Declares (g : Generation) (f : String) (r : Relation) (v : String) : Prop :=
  v ∈ declaredVars (g.written ⟨f, .temp⟩) ∨
    ∃ scope, varFileOf scope ∈ r.varFiles ∧ v ∈ declaredVars (g.written ⟨scope, .vars⟩)

namespace Runs

variable {p : Program} {g g' : Generation}

theorem apart (h : Runs p g g') (hg : ActionsApart g) : ActionsApart g' := by
  induction h with
  | refl => exact hg
  | tail _ ha hrun ih =>
    obtain ⟨sc, _, _, hcut⟩ := Gen.application_of_program ha hrun
    exact hcut.apart ih

theorem loose (h : Runs p g g') (hg : g.relation.find? Gen.looseFragment = none) :
    g'.relation.find? Gen.looseFragment = none := by
  induction h with
  | refl => exact hg
  | tail _ ha hrun ih =>
    obtain ⟨sc, hstem, _, hcut⟩ := Gen.application_of_program ha hrun
    exact hcut.loose (hstem ▸ stem_ne_loose _ _) ih

/-- **Every fragment was begun by a run of an application**, with the effect `e` of one
instruction. -/
theorem exists_madeBy (h : Runs p g g') (hg : g.relation = {}) {f : String} {r : Relation}
    (hr : g'.relation.find? f = some (.fragment r)) :
    ∃ g0 g1 service name, ∃ e : Effect, MadeBy p g g' g0 g1 service name f r ∧
      (∀ file ∈ r.varFiles, ∃ scope, varFileOf scope = file) ∧
        e.tables = (tableNames (e.own .table)).length ∧ r.tableCount = e.tables ∧
      (∀ kind, kind ≠ .vars → g'.written ⟨f, kind⟩ = g0.written ⟨f, kind⟩ ++ e.own kind) ∧
      ∀ kind, ∀ v ∈ mentioned (e.own kind), p.PassesConstant v ∨ g'.Declares f r v := by
  induction h generalizing r with
  | refl =>
    rw [hg] at hr
    cases hr
  | @tail g0 g1 service name a prior ha hrun ih =>
    obtain ⟨sc, hstem, hbinds, hcut⟩ := Gen.application_of_program ha hrun
    have hloose : f ≠ Gen.looseFragment := by
      rintro rfl
      rw [(Runs.tail prior ha hrun).loose (by rw [hg]; rfl)] at hr
      cases hr
    by_cases hf : ∃ k : Nat, k < a.body.length ∧ f = fragmentName sc.stem k
    · obtain ⟨k, hk, rfl⟩ := hf
      obtain ⟨e, he, hbegun⟩ := hcut.begun k (Nat.zero_le k) hk
      obtain ⟨hfiles, hcount⟩ := hbegun.relation r hr
      refine ⟨g0, g1, service, name, e,
        ⟨prior, ⟨a, k, hk, ha, by rw [hstem], hrun⟩, .refl g1, hr, fun _ _ => rfl⟩,
        fun file hfile => ?_, he.count, hcount, hbegun.text, fun kind v hv => ?_⟩
      · rw [hfiles] at hfile
        obtain ⟨scope, _, hscope⟩ := mem_map.mp hfile
        exact ⟨scope, hscope⟩
      rcases he.covered kind v hv with (hv | hv) | hv
      · refine .inr (.inr ⟨sc.stem, by rw [hfiles]; exact mem_map_of_mem mem_cons_self, ?_⟩)
        rw [hstem]
        exact hbinds v hv
      · exact .inl hv
      · rcases hv with hv | ⟨scope, hv, hscope⟩
        · refine .inr (.inl ?_)
          rw [hbegun.text .temp (by decide), declaredVars_append]
          exact mem_append_right _ hv
        · refine .inr (.inr ⟨scope, ?_, hbegun.vars scope v hv⟩)
          rw [hfiles]
          exact mem_map_of_mem (mem_cons_of_mem _ hscope)
    · have hkept := hcut.kept f hloose fun k _ hk heq => hf ⟨k, hk, heq⟩
      obtain ⟨g2, g3, service', name', e, hmade, hfiles, hcount, hr', htext, hdeclared⟩ :=
        ih (hkept.relation r hr)
      refine ⟨g2, g3, service', name', e,
        ⟨hmade.before, hmade.run, .tail hmade.after ha hrun, hmade.relation, ?_⟩, hfiles,
        hcount, hr', ?_, ?_⟩
      · intro kind hkind
        rw [hkept.text kind hkind, hmade.text kind hkind]
      · intro kind hkind
        rw [hkept.text kind hkind, htext kind hkind]
      · intro kind v hv
        refine (hdeclared kind v hv).imp_right fun hd => hd.imp ?_ ?_
        · rw [hkept.text .temp (by decide)]
          exact id
        · rintro ⟨scope, hfile, hv⟩
          exact ⟨scope, hfile, hcut.declared scope v hv⟩

end Runs

end Pathwise
