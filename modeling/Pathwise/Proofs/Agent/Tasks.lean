import Pathwise.Agent.Desk
import Pathwise.Proofs.Compile.Generated

/-!
# How tasks end

A task that was accepted is done later.  What becomes of it depends on how the compiler ends: it
returns, it stops with a fault, or it ends the whole run.

* `Desk.noted`: a desk on which the stage of one task was noted, and nothing else about tasks.
* `Serving.Exits`: the compiler ends the whole run.
* `Serving.perform_ends`: **a task that was done is completed or failed, unless the compiler ends
  the whole run**; then it stays under way, and the run is over for the agent, too.
* `Serving.settle_ends`: so the tasks that are waiting end one after another up to the first one
  that ends the run.

The compiler ends the whole run for programs that it refuses, and also when only the program was
wanted and all went well.
-/

namespace Pathwise

open List OrderedMap

theorem OrderedMap.modify_modify {κ β : Type} [BEq κ] (m : OrderedMap κ β) (k : κ) (f g : β → β) :
    (m.modify k f).modify k g = m.modify k (g ∘ f) := by
  simp only [modify, map_map]
  congr 2
  funext e
  cases he : e.1 == k <;> simp [he]

namespace Agent

open Steps

/-- The desk after the stage of a task was noted; the session may have gone on. -/
def Desk.noted (d : Desk) (s : Session) (id : String) (stage : Stage) : Desk :=
  { d with session := s, tasks := d.tasks.modify id fun t => { t with stage := stage } }

/-- The task is completed or failed. -/
def Desk.Ended (d : Desk) (id : String) : Prop :=
  ∃ t, d.tasks.find? id = some t ∧ t.stage.isFinal = true

namespace Desk

variable {d : Desk} {s s' : Session} {id other : String} {stage stage' : Stage} {t : Task}

@[simp] theorem session_noted (d : Desk) (s : Session) (id : String) (stage : Stage) :
    (d.noted s id stage).session = s :=
  rfl

@[simp] theorem noted_noted (d : Desk) (s s' : Session) (id : String) (stage stage' : Stage) :
    (d.noted s id stage).noted s' id stage' = d.noted s' id stage' := by
  simp only [noted, modify_modify, Function.comp_def]

theorem find?_noted (h : d.tasks.find? id = some t) :
    (d.noted s id stage).tasks.find? id = some ⟨t.job, stage⟩ := by
  rw [noted, find?_modify, if_pos rfl, h, Option.map_some]

theorem find?_noted_of_ne (h : other ≠ id) :
    (d.noted s id stage).tasks.find? other = d.tasks.find? other := by
  rw [noted, find?_modify, if_neg h]

end Desk

namespace Serving

variable {d d' : Desk} {id : String} {job : Job} {t : Task}

theorem setStage_eq (id : String) (stage : Stage) (d : Desk) : setStage id stage d = .ok ()
    (d.noted d.session id stage) :=
  rfl

/-! ### What a compilation produced -/

/-- A step that leaves the session alone and does not end the whole run. -/
def Looks {α : Type} (x : Run α) : Prop :=
  ∀ s, (∃ a, x s = .ok a s) ∨ ∃ f, f.isExit = false ∧ x s = .error f s

namespace Looks

variable {α β : Type}

theorem pure (a : α) : Looks (pure a : Run α) :=
  fun _ => .inl ⟨a, rfl⟩

theorem bind {x : Run α} {f : α → Run β} (hx : Looks x) (hf : ∀ a, Looks (f a)) :
    Looks (x >>= f) := by
  intro s
  rcases hx s with ⟨a, ha⟩ | ⟨e, he, hfault⟩
  · rw [bind_of_ok ha]
    exact hf a s
  · exact .inr ⟨e, he, bind_of_error hfault⟩

theorem get : Looks (get : Run Session) :=
  fun s => .inl ⟨s, rfl⟩

theorem isFile (path : String) : Looks (Run.isFile path) := by
  intro s
  refine .inl ?_
  simp only [Run.isFile, ↓get_bind]
  cases s.disk.locate s.home path <;> exact ⟨_, rfl⟩

theorem isDirectory (path : String) : Looks (Run.isDirectory path) := by
  intro s
  refine .inl ?_
  simp only [Run.isDirectory, ↓get_bind]
  cases s.disk.locate s.home path <;> exact ⟨_, rfl⟩

theorem directory (path : String) : Looks (Run.directory path) := by
  intro s
  simp only [Run.directory, Run.locate, Bind.bind, EStateM.bind, ↓get_bind]
  cases s.disk.locate s.home path with
  | error e => exact .inr ⟨_, rfl, rfl⟩
  | ok p =>
    dsimp only [Pure.pure, EStateM.pure]
    split
    · exact .inl ⟨p, rfl⟩
    · exact .inr ⟨_, rfl, rfl⟩

theorem exists? (path : String) : Looks (Run.exists? path) :=
  bind (isFile path) fun _ => bind (isDirectory path) fun _ => pure _

theorem namesIn (path : String) : Looks (Serving.namesIn path) := by
  refine bind (exists? path) fun there => ?_
  split
  · exact bind (directory path) fun p => bind get fun s => pure _
  · exact pure _

theorem products (path : String) : Looks (Serving.products path) :=
  bind (namesIn path) fun _ => bind (exists? _) fun _ => pure _

end Looks

/-! ### Doing a task -/

/-- The compiler ends the whole run while it does a job. -/
def Exits (d : Desk) (job : Job) (f : Fault) (s : Session) : Prop :=
  ∃ runner r, runnerOf d job = .ok runner ∧
    Runner.run job.onlyProgram false false runner = .error f r ∧
    f.isExit = true ∧ r.session = s

theorem runnerOf_noted (d : Desk) (id : String) (stage : Stage) (job : Job) :
    runnerOf (d.noted d.session id stage) job = runnerOf d job :=
  rfl

theorem runnerOf_eq_ok {runner : Runner} (h : runnerOf d job = .ok runner) : ∃ main config,
    pathOf? job.inputFile = .ok main ∧
      runner = Runner.start d.session d.system job.outputDir config main d.plain := by
  obtain ⟨main, hmain, h⟩ := except_bind_eq_ok.mp h
  dsimp only at h
  split at h
  · obtain ⟨config, -, h⟩ := except_bind_eq_ok.mp h
    cases h
    exact ⟨main, config, hmain, rfl⟩
  · obtain ⟨config, -, h⟩ := except_bind_eq_ok.mp h
    cases h
    exact ⟨main, config, hmain, rfl⟩

/-- How a compilation ends: it cannot begin, or the compiler fails, or something is found to be
produced, or not. -/
inductive Compiled (d : Desk) (id : String) (job : Job) : EStateM.Result Refusal Desk Outcome → Prop
  | refused {m : Mismatch} : runnerOf d job = .error m →
    Compiled d id job (.error (.fault (.mismatch m)) (d.noted d.session id (.running 10)))
  | failed {runner r : Runner} {f : Fault} : runnerOf d job = .ok runner →
    Runner.run job.onlyProgram false false runner = .error f r →
    Compiled d id job (.error (.fault f) (d.noted r.session id (.running 30)))
  | lost {runner r : Runner} {f : Fault} : runnerOf d job = .ok runner →
    Runner.run job.onlyProgram false false runner = .ok () r → f.isExit = false →
    (∀ path o, pathOf job.outputDir = .ok path → products path r.session ≠ .ok o r.session) →
    Compiled d id job (.error (.fault f) (d.noted r.session id (.running 90)))
  | done {runner r : Runner} {o : Outcome} {path : String} : runnerOf d job = .ok runner →
    Runner.run job.onlyProgram false false runner = .ok () r → pathOf job.outputDir = .ok path →
    products path r.session = .ok o r.session →
    Compiled d id job (.ok o (d.noted r.session id (.running 90)))

theorem lift_run_eq {α : Type} (x : Run α) (d : Desk) :
    (liftM x : Serving α) d = match x d.session with
    | .ok a s => .ok a { d with session := s }
    | .error e s => .error (.fault e) { d with session := s } :=
  rfl

theorem compile_ends (d : Desk) (id : String) (job : Job) :
    Compiled d id job (compile id job d) := by
  rw [compile, bind_of_ok (setStage_eq id (.running 10) d),
    bind_of_ok (show (get : Serving Desk) _ = .ok _ _ from rfl)]
  cases hrunner : runnerOf d job with
  | error m =>
    rw [bind_of_error (show (liftM (runnerOf _ job) : Serving Runner) _ =
      .error (.fault (.mismatch m)) _ by
      rw [runnerOf_noted, hrunner]; rfl)]
    exact .refused hrunner
  | ok runner =>
    rw [bind_of_ok (show (liftM (runnerOf _ job) : Serving Runner) _ =
      .ok runner _ by rw [runnerOf_noted, hrunner]; rfl)]
    rw [bind_of_ok (setStage_eq id (.running 30) _), Desk.noted_noted, Desk.session_noted]
    have hself : { runner with session := d.session } = runner := by
      obtain ⟨_, _, _, rfl⟩ := runnerOf_eq_ok hrunner
      rfl
    have hlift : (liftM (Runner.inSession (fun s => { runner with session := s })
        (Runner.run job.onlyProgram false false)) :
        Serving Unit) (d.noted d.session id (.running 30)) =
          match Runner.run job.onlyProgram false false runner with
          | .ok u r => .ok u (d.noted r.session id (.running 30))
          | .error f r => .error (.fault f) (d.noted r.session id (.running 30)) := by
      rw [lift_run_eq, Runner.inSession]
      simp only [Desk.noted, hself]
      cases Runner.run job.onlyProgram false false runner <;> rfl
    cases hrun : Runner.run job.onlyProgram false false runner with
    | error f r =>
      rw [hrun] at hlift
      rw [bind_of_error hlift]
      exact .failed hrunner hrun
    | ok u r =>
      rw [hrun] at hlift
      rw [bind_of_ok hlift, bind_of_ok (setStage_eq id (.running 90) _), Desk.noted_noted,
        Desk.session_noted]
      cases hpath : pathOf job.outputDir with
      | error m => exact .lost hrunner hrun rfl fun _ _ h => nomatch hpath.symm.trans h
      | ok path =>
        show Compiled d id job ((liftM (products path) : Serving Outcome)
          (d.noted r.session id (.running 90)))
        rw [lift_run_eq, Desk.session_noted]
        rcases Looks.products path r.session with ⟨o, ho⟩ | ⟨f, hf, hfault⟩
        · rw [ho]
          exact .done hrunner hrun hpath ho
        · rw [hfault]
          refine .lost hrunner hrun hf fun _ _ h ho => ?_
          cases hpath.symm.trans h
          cases hfault.symm.trans ho

theorem perform_eq (h : d.tasks.find? id = some t) : perform id d = match compile id t.job d with
    | .ok o d' => .ok () (d'.noted d'.session id (.completed o))
    | .error e d' =>
      if e.isExit then .error e d' else .ok () (d'.noted d'.session id (.failed e.message)) := by
  rw [perform, bind_of_ok (show (get : Serving Desk) d = .ok d d from rfl), h]
  simp only [recover, Functor.map, EStateM.map, Bind.bind, EStateM.bind]
  cases compile id t.job d with
  | ok o d' => rfl
  | error e d' =>
    cases hexit : e.isExit with
    | true => simp [hexit]
    | false =>
      simp only [hexit]
      rfl

/-- The compiler returns from a job. -/
def Returns (d : Desk) (job : Job) : Prop :=
  ∃ runner r, runnerOf d job = .ok runner ∧ Runner.run job.onlyProgram false false runner = .ok () r

/--
**A task that was done is completed or failed**, unless the compiler ends the whole run: then the
task stays under way, and the run is over.  Nothing else about tasks changes.
-/
theorem perform_ends (h : d.tasks.find? id = some t) :
    (∃ s stage, perform id d = .ok () (d.noted s id stage) ∧ stage.isFinal = true ∧
      ((∃ o, stage = .completed o) → Returns d t.job) ∧ ∀ f s', ¬ Exits d t.job f s') ∨
      ∃ f s, perform id d = .error (.fault f) (d.noted s id (.running 30)) ∧ Exits d t.job f s := by
  rw [perform_eq h]
  have hends := compile_ends d id t.job
  generalize compile id t.job d = result at hends
  have hfailed : ∀ {f : Fault} {s : Session} {stage : Stage}, f.isExit = false →
      (if (Refusal.fault f).isExit then EStateM.Result.error (Refusal.fault f) (d.noted s id stage)
        else .ok () ((d.noted s id stage).noted (d.noted s id stage).session id
          (.failed f.message))) =
      .ok () (d.noted s id (.failed f.message)) := by
    intro f s stage hexit
    rw [if_neg (by rw [Refusal.isExit, hexit]; decide), Desk.noted_noted, Desk.session_noted]
  -- only a fault of the compiler itself can end the whole run
  cases hends with
  | @refused m hrunner =>
    refine .inl ⟨d.session, _, hfailed rfl, rfl, ?_, ?_⟩
    · rintro ⟨o, ho⟩
      cases ho
    · rintro f s' ⟨runner, r, hrunner', -⟩
      cases hrunner.symm.trans hrunner'
  | @failed runner r f hrunner hrun =>
    cases hexit : f.isExit with
    | true => exact .inr ⟨f, r.session, if_pos hexit, runner, r, hrunner, hrun, hexit, rfl⟩
    | false =>
      refine .inl ⟨r.session, _, hfailed hexit, rfl, ?_, ?_⟩
      · rintro ⟨o, ho⟩
        cases ho
      · rintro f' s' ⟨runner', r', hrunner', hrun', hexit', -⟩
        cases hrunner.symm.trans hrunner'
        cases hrun.symm.trans hrun'
        cases hexit.symm.trans hexit'
  | @lost runner r f hrunner hrun hexit _ =>
    refine .inl ⟨r.session, _, hfailed hexit, rfl, ?_, ?_⟩
    · rintro ⟨o, ho⟩
      cases ho
    · rintro f' s' ⟨runner', r', hrunner', hrun', -⟩
      cases hrunner.symm.trans hrunner'
      cases hrun.symm.trans hrun'
  | @done runner r o path hrunner hrun _ _ =>
    refine .inl ⟨r.session, .completed o, congrArg _ (Desk.noted_noted _ _ _ _ _ _), rfl,
      fun _ => ⟨runner, r, hrunner, hrun⟩, ?_⟩
    rintro f' s' ⟨runner', r', hrunner', hrun', -⟩
    cases hrunner.symm.trans hrunner'
    cases hrun.symm.trans hrun'

theorem mainFile_of_clean {r r' : Runner} {u : Unit} (h : Runner.clean r = .ok u r') :
    r'.mainFile = r.mainFile := by
  have hloop : ∀ (dir : String) (names : List String) (r : Runner),
      names.forM (fun name => (liftM (Run.removeFilesIn (dir ++ name)) : Compiling Unit)) r =
        .ok u r' → r'.mainFile = r.mainFile := by
    intro dir names
    induction names with
    | nil =>
      intro r h
      rw [forM_nil_eq_ok.mp h]
    | cons name names ih =>
      intro r h
      obtain ⟨r1, hremove, h⟩ := forM_cons_eq_ok.mp h
      obtain ⟨s, -, rfl⟩ := Runner.lift_eq_ok.mp hremove
      rw [ih _ h]
  obtain ⟨_, r1, hget, h⟩ := bind_eq_ok.mp h
  obtain ⟨rfl, rfl⟩ := get_eq_ok.mp hget
  exact hloop _ _ _ h

/-- **The compiler never returns if only a program is wanted.** -/
theorem not_returns_of_onlyProgram (hjob : job.onlyProgram = true) (hfile : job.inputFile ≠ .null) :
    ¬ Returns d job := by
  rintro ⟨runner, r, hrunner, hrun⟩
  obtain ⟨main, config, hmain, rfl⟩ := runnerOf_eq_ok hrunner
  obtain ⟨file, rfl⟩ : ∃ file, main = some file := by
    cases hinput : job.inputFile with
    | null => exact absurd hinput hfile
    | str file =>
      rw [hinput] at hmain
      cases hmain
      exact ⟨file, rfl⟩
    | _ =>
      rw [hinput] at hmain
      cases hmain
  rw [hjob] at hrun
  obtain ⟨_, r1, hclean, hrun⟩ := bind_eq_ok.mp hrun
  rw [get_bind] at hrun
  rw [mainFile_of_clean hclean] at hrun
  obtain ⟨_, r3, -, hrun⟩ := bind_eq_ok.mp hrun
  obtain ⟨_, r4, -, hrun⟩ := bind_eq_ok.mp hrun
  exact absurd hrun throw_ne_ok

/-! ### Tasks one after another -/

/--
**Tasks end one after another up to the first one that ends the whole run.**  That one stays under
way, and those behind it are not begun.
-/
theorem forM_perform_ends : ∀ {ids : List String} {d : Desk}, ids.Nodup →
    (∀ i ∈ ids, ∃ t, d.tasks.find? i = some t) →
    ∃ d', (∀ other, other ∉ ids → d'.tasks.find? other = d.tasks.find? other) ∧
      ((ids.forM perform d = .ok () d' ∧ ∀ i ∈ ids, d'.Ended i) ∨
        ∃ f before i after t, ids.forM perform d = .error (.fault f) d' ∧ f.isExit = true ∧
          ids = before ++ i :: after ∧
          (∀ j ∈ before, d'.Ended j) ∧ d'.tasks.find? i = some ⟨t, .running 30⟩ ∧
          ∀ j ∈ after, d'.tasks.find? j = d.tasks.find? j) := by
  intro ids
  induction ids with
  | nil => exact fun _ _ => ⟨_, fun _ _ => rfl, .inl ⟨rfl, forall_mem_nil _⟩⟩
  | cons i ids ih =>
    intro d hnodup hthere
    obtain ⟨hi, hnodup⟩ := nodup_cons.mp hnodup
    obtain ⟨⟨t, ht⟩, hthere⟩ := forall_mem_cons.mp hthere
    have hcons : (i :: ids).forM perform = (perform i >>= fun _ => ids.forM perform) := rfl
    rw [hcons]
    rcases perform_ends ht with ⟨s, stage, hperform, hfinal, -, -⟩ |
      ⟨f, s, hperform, -, -, -, -, hexit, -⟩
    · have hne : ∀ j ∈ ids, j ≠ i := fun j hj heq => hi (heq ▸ hj)
      obtain ⟨d', hothers, hrest⟩ := ih hnodup (d := d.noted s i stage) fun j hj => by
        rw [Desk.find?_noted_of_ne (hne j hj)]
        exact hthere j hj
      have hended : d'.Ended i :=
        ⟨⟨t.job, stage⟩, by rw [hothers i hi, Desk.find?_noted ht], hfinal⟩
      refine ⟨d', fun other hother => ?_, ?_⟩
      · obtain ⟨hother, hmem⟩ := not_or.mp (mt mem_cons.mpr hother)
        rw [hothers other hmem, Desk.find?_noted_of_ne hother]
      · rw [bind_of_ok hperform]
        rcases hrest with ⟨hrun, hall⟩ | ⟨f, before, j, after, job, hrun, hexit, rfl,
          hbefore, hj, hafter⟩
        · exact .inl ⟨hrun, forall_mem_cons.mpr ⟨hended, hall⟩⟩
        · refine .inr ⟨f, i :: before, j, after, job, hrun, hexit, rfl,
            forall_mem_cons.mpr ⟨hended, hbefore⟩, hj, ?_⟩
          intro k hk
          rw [hafter k hk, Desk.find?_noted_of_ne (hne k (by simp [hk]))]
    · refine ⟨d.noted s i (.running 30),
        fun other hother => Desk.find?_noted_of_ne (ne_of_not_mem_cons hother), .inr ?_⟩
      refine ⟨f, [], i, ids, t.job, bind_of_error hperform, hexit, rfl, forall_mem_nil _,
        Desk.find?_noted ht, fun j hj => ?_⟩
      exact Desk.find?_noted_of_ne fun heq => hi (heq ▸ hj)

/-- **What an accepted request leaves on the desk**: one more task, which is waiting. -/
theorem submit_eq_ok (h : submit job d = .ok id d') : d'.tasks = d.tasks.insert id ⟨job, .pending⟩ ∧
    d'.waiting = d.waiting ++ [id] := by
  obtain ⟨id', d1, hdraw, h⟩ := bind_eq_ok.mp h
  obtain ⟨_, _, hget, hdraw⟩ := bind_eq_ok.mp hdraw
  obtain ⟨rfl, rfl⟩ := get_eq_ok.mp hget
  obtain ⟨_, _, hmodify, hdraw⟩ := bind_eq_ok.mp hdraw
  obtain rfl := modify_eq_ok.mp hmodify
  obtain ⟨-, rfl⟩ := pure_eq_ok.mp hdraw
  split at h
  · obtain ⟨_, _, hthrow, -⟩ := bind_eq_ok.mp h
    exact absurd hthrow throw_ne_ok
  dsimp only at h
  split at h
  · obtain ⟨_, _, hthrow, -⟩ := bind_eq_ok.mp h
    exact absurd hthrow throw_ne_ok
  obtain ⟨_, d2, hinsert, h⟩ := bind_eq_ok.mp h
  obtain rfl := modify_eq_ok.mp hinsert
  rw [get_bind] at h
  dsimp only at h
  split at h
  · obtain ⟨_, _, hthrow, -⟩ := bind_eq_ok.mp h
    exact absurd hthrow throw_ne_ok
  obtain ⟨_, d3, hwait, h⟩ := bind_eq_ok.mp h
  obtain rfl := modify_eq_ok.mp hwait
  obtain ⟨rfl, rfl⟩ := pure_eq_ok.mp h
  exact ⟨rfl, rfl⟩

/--
**Every accepted compilation ends, unless the compiler ends the whole run.**  The request leaves a
pending task.  Whenever the task is done, whatever else is on the desk by then: it is completed or
failed, or the compiler ended the whole run and the task stays under way with 30 percent; and no
other task changes.  If only a program is wanted, the task is never completed.
-/
theorem accepted_task_ends_unless_exit (h : submit job d = .ok id d') :
    d'.tasks.find? id = some ⟨job, .pending⟩ ∧ id ∈ d'.waiting ∧
      (∀ other, other ≠ id → d'.tasks.find? other = d.tasks.find? other) ∧
    (∀ d₁ stage₁, d₁.tasks.find? id = some ⟨job, stage₁⟩ → ∃ d₂,
      (∀ other, other ≠ id → d₂.tasks.find? other = d₁.tasks.find? other) ∧
      ((perform id d₁ = .ok () d₂ ∧ (∀ f s, ¬ Exits d₁ job f s) ∧
          ∃ stage, stage.isFinal = true ∧ d₂.tasks.find? id = some ⟨job, stage⟩ ∧
            (job.onlyProgram = true → job.inputFile ≠ .null → ∀ o, stage ≠ .completed o)) ∨
        ∃ f, perform id d₁ = .error (.fault f) d₂ ∧ Exits d₁ job f d₂.session ∧
          d₂.tasks.find? id = some ⟨job, .running 30⟩)) ∧
    ∀ d₁ : Desk, d₁.waiting.Nodup → (∀ i ∈ d₁.waiting, ∃ t, d₁.tasks.find? i = some t) → ∃ d₂,
      (settle d₁ = .ok () d₂ ∧ ∀ i ∈ d₁.waiting, d₂.Ended i) ∨
      ∃ f before i after t, settle d₁ = .error (.fault f) d₂ ∧ f.isExit = true ∧
        d₁.waiting = before ++ i :: after ∧
        (∀ j ∈ before, d₂.Ended j) ∧ d₂.tasks.find? i = some ⟨t, .running 30⟩ ∧
        ∀ j ∈ after, d₂.tasks.find? j = d₁.tasks.find? j := by
  obtain ⟨htasks, hwaiting⟩ := submit_eq_ok h
  refine ⟨?_, ?_, fun other hother => ?_, fun d₁ stage₁ hfound => ?_, fun d₁ hnodup hthere => ?_⟩
  · rw [htasks, find?_insert_self]
  · rw [hwaiting]
    exact mem_append_right _ (mem_singleton_self id)
  · rw [htasks, find?_insert_of_ne _ hother]
  · rcases perform_ends hfound with ⟨s, stage, hperform, hfinal, hreturns, hexits⟩ |
      ⟨f, s, hperform, hexits⟩
    · refine ⟨_, fun other hother => Desk.find?_noted_of_ne hother,
        .inl ⟨hperform, hexits, stage, hfinal, Desk.find?_noted hfound, ?_⟩⟩
      exact fun hjob hfile o ho => not_returns_of_onlyProgram hjob hfile (hreturns ⟨o, ho⟩)
    · exact ⟨_, fun other hother => Desk.find?_noted_of_ne hother,
        .inr ⟨f, hperform, hexits, Desk.find?_noted hfound⟩⟩
  · obtain ⟨d₂, -, hends⟩ := forM_perform_ends (d := { d₁ with waiting := [] }) hnodup hthere
    exact ⟨d₂, hends⟩

/-- A request for a single program. -/
def programJob : Job := ⟨.str "debug", .str "m.pne", .null, .str "out/", .str "v1model", true⟩

/-- An agent in directories with everything that the compiler needs. -/
def programDesk : Desk :=
  .start (.start ⟨[(["p", "m.pne"], "a\nb\nc\n")],
    [["p"], ["p", "out"], ["c"], ["c", "component"], ["c", "component", "topo"],
    ["c", "component", "path"], ["c", "component", "code"], ["c", "component", "main"]]⟩ ["p"])
      "/c" true true

/-- Whether a step ended the whole run with the exit code of a success. -/
def exitsWell {α : Type} : EStateM.Result Refusal Desk α → Bool
  | .error (.fault (.exited 0)) _ => true
  | _ => false

theorem programJob_exits : passes (fun id d => id = "task-1" && exitsWell (perform id d))
    (submit programJob programDesk) = true := by
  decide +kernel

/-- The program is compiled, and its task stays under way for ever. -/
theorem accepted_task_ends_unless_exit_program :
    ∃ d d', submit programJob programDesk = .ok "task-1" d ∧
    perform "task-1" d = .error (.fault (.exited 0)) d' ∧
      d'.tasks.find? "task-1" = some ⟨programJob, .running 30⟩ := by
  obtain ⟨id, d, hsubmit, htest⟩ := exists_ok_of_passes programJob_exits
  simp only [Bool.and_eq_true, decide_eq_true_eq] at htest
  obtain ⟨rfl, hexits⟩ := htest
  obtain ⟨hfound, -, -, hends, -⟩ := accepted_task_ends_unless_exit hsubmit
  obtain ⟨d', -, ⟨hperform, -⟩ | ⟨f, hperform, -, hstage⟩⟩ := hends d .pending hfound
  · rw [hperform] at hexits
    cases hexits
  · rw [hperform] at hexits
    obtain rfl : f = .exited 0 := by
      unfold exitsWell at hexits
      split at hexits
      · next heq =>
        injection heq with heq
        injection heq
      · cases hexits
    exact ⟨d, d', hsubmit, hperform, hstage⟩

end Serving

end Agent

end Pathwise
