import Pathwise.Agent.Protocol
import Pathwise.Proofs.Agent.Tasks

/-!
# Requests and their replies

A request is an object.  Its reply repeats the identifier and holds a result or an error, unless the
whole run ends while the request is served.  The only requests that can end the run are those for
the analysis of a program.

* `Serving.Stays`: a step that may fail but does not end the whole run.
* `Protocol.AnalysisExits`: the request asks for an analysis, and the analysis ends the whole run.
* `Protocol.reply_ends`: **a request gets a reply exactly if it is not such a request.**
* `Protocol.Served`: lines that were served one after another, each reply being printed before the
  tasks are done.
* `Protocol.serveLines_ends`: **lines are served up to the first one that ends the whole run**, by
  the analysis that it asks for or by a task that is done after it.
-/

namespace Pathwise.Agent

open Steps Option

namespace Serving

variable {α β : Type} {d d' : Desk} {e : Refusal}

/-- A step that may fail but does not end the whole run. -/
def Stays (x : Serving α) : Prop :=
  ∀ d e d', x d = .error e d' → e.isExit = false

namespace Stays

theorem pure (a : α) : Stays (pure a : Serving α) := by
  intro d e d' h
  cases h

theorem throw (h : e.isExit = false) : Stays (throw e : Serving α) := by
  intro d e' d' he
  cases he
  exact h

theorem bind {x : Serving α} {f : α → Serving β} (hx : Stays x) (hf : ∀ a, Stays (f a)) :
    Stays (x >>= f) := by
  intro d e d' h
  cases hd : x d with
  | ok a d1 => exact hf a d1 e d' ((bind_of_ok hd).symm.trans h)
  | error e1 d1 =>
    rw [bind_of_error hd] at h
    cases h
    exact hx d e d' hd

theorem get : Stays (get : Serving Desk) := by
  intro d e d' h
  cases h

theorem modify (f : Desk → Desk) : Stays (modify f : Serving PUnit) := by
  intro d e d' h
  cases h

theorem mismatch (x : Except Mismatch α) : Stays (liftM x : Serving α) := by
  cases x with
  | ok a => exact pure a
  | error m => exact throw rfl

theorem looks {x : Run α} (hx : Looks x) : Stays (liftM x : Serving α) := by
  intro d e d' h
  rw [lift_run_eq] at h
  rcases hx d.session with ⟨a, ha⟩ | ⟨f, hf, hfault⟩
  · rw [ha] at h
    cases h
  · rw [hfault] at h
    cases h
    exact hf

theorem draw : Stays draw :=
  bind get fun _ => bind (modify _) fun _ => pure _

theorem guard {c : Prop} [Decidable c] {k : Unit → Serving α} (he : e.isExit = false)
    (hk : Stays (k ())) :
    Stays (if c then MonadExcept.throw e >>= k else k ()) := by
  split
  · exact bind (throw he) fun _ => hk
  · exact hk

theorem submit (job : Job) : Stays (submit job) :=
  bind draw fun _ => guard rfl <| guard rfl <|
    bind (modify _) fun _ => bind get fun _ => guard rfl <|
    bind (modify _) fun _ => pure _

theorem task (id : Json) : Stays (task id) := by
  refine bind (mismatch _) fun _ => bind get fun d => ?_
  split
  · exact pure _
  · exact throw rfl

end Stays

theorem recover_ends (x : Serving α) (g : Refusal → α) (d : Desk) :
    (∃ a d', recover x (fun e => pure (g e)) d = .ok a d' ∧
      (x d = .ok a d' ∨ ∃ e, x d = .error e d' ∧ e.isExit = false ∧ a = g e)) ∨
      ∃ e d', recover x (fun e => pure (g e)) d = .error e d' ∧ x d = .error e d' ∧
        e.isExit = true := by
  unfold recover
  cases x d with
  | ok a d' => exact .inl ⟨a, d', rfl, .inl rfl⟩
  | error e d' =>
    dsimp only
    cases he : e.isExit with
    | true => exact .inr ⟨e, d', rfl, rfl, he⟩
    | false => exact .inl ⟨g e, d', rfl, .inr ⟨e, rfl, he, rfl⟩⟩

theorem forM_perform_error : ∀ {ids : List String} {d : Desk}, ids.forM perform d = .error e d' →
    ∃ d1, ∃ id ∈ ids, ∃ t f, d1.tasks.find? id = some t ∧ e = .fault f ∧
      Exits d1 t.job f d'.session := by
  intro ids
  induction ids with
  | nil =>
    intro d h
    cases h
  | cons id ids ih =>
    intro d h
    have hcons : (id :: ids).forM perform = (perform id >>= fun _ => ids.forM perform) := rfl
    have hrest : ∀ {d1}, perform id d = .ok () d1 →
        ∃ d1, ∃ other ∈ id :: ids, ∃ t f, d1.tasks.find? other = some t ∧ e = .fault f ∧
          Exits d1 t.job f d'.session := by
      intro d1 hperform
      rw [hcons, bind_of_ok hperform] at h
      obtain ⟨d2, other, hother, hends⟩ := ih h
      exact ⟨d2, other, List.mem_cons_of_mem _ hother, hends⟩
    cases ht : d.tasks.find? id with
    | none =>
      have hperform : perform id d = .ok () d := by
        rw [perform, bind_of_ok (show (get : Serving Desk) d = .ok d d from rfl), ht]
        rfl
      exact hrest hperform
    | some t =>
      rcases perform_ends ht with ⟨s, stage, hperform, -⟩ | ⟨f, s, hperform, hexits⟩
      · exact hrest hperform
      · rw [hcons, bind_of_error hperform] at h
        cases h
        exact ⟨d, id, List.mem_cons_self, t, f, ht, rfl, hexits⟩

end Serving

namespace Protocol

open Serving

variable {d d' : Desk} {fs : List (String × Json)} {f : Fault} {s : Session}

variable {e : Refusal} {o : Option Json} {j : Json} {line : String}

/-- The reply has the version of the protocol, the identifier, and either a result or an error. -/
def Answers (id r : Json) : Prop :=
  r.field? "jsonrpc" = some (.str "2.0") ∧ r.field? "id" = some id ∧
    (r.field? "result").isSome = (r.field? "error").isNone

theorem answers_success (id result : Json) : Answers id (success id result) :=
  ⟨rfl, rfl, rfl⟩

theorem answers_failure (id : Json) (code : Int) (message : String) :
    Answers id (failure id code message) :=
  ⟨rfl, rfl, rfl⟩

/-- The request asks for the analysis of a program, and the analysis ends the whole run. -/
def AnalysisExits (d : Desk) (fs : List (String × Json)) (f : Fault) (s : Session) : Prop :=
  ∃ params arguments path, fs.lookup "method" = some (.str "tools/call") ∧
    fs.lookup "params" = some (.obj params) ∧
    params.lookup "name" = some (.str "analyze_pne") ∧
      params.lookup "arguments" = some (.obj arguments) ∧
    arguments.lookup "input_file" = some (.str path) ∧
    Analysis.look (Analysis.workspace d path) (Analysis.baseName path)
      (Depth.ofName ((arguments.lookup "analysis_type").getD (.str "all"))) d.session = .error f s ∧
        f.isExit = true

theorem AnalysisExits.isExit (h : AnalysisExits d fs f s) : f.isExit = true := by
  obtain ⟨_, _, _, _, _, _, _, _, _, hexit⟩ := h
  exact hexit

theorem analyze_path (path : String) (depth : Json) (d : Desk) :
    Serving.analyze (.str path) depth d =
    match Analysis.look (Analysis.workspace d path) (Analysis.baseName path)
    (Depth.ofName depth) d.session with
    | .ok a s => .ok a { d with session := s }
    | .error f s =>
      if f.isExit then .error (.fault f) { d with session := s } else
        .ok (.failed f.message) { d with session := s } := by
  have hpath : (liftM (pathOf (.str path)) : Serving String) d = .ok path d := rfl
  have hget : (get : Serving Desk) d = .ok d d := rfl
  rw [Serving.analyze, recover, bind_of_ok hpath, bind_of_ok hget, lift_run_eq]
  cases Analysis.look (Analysis.workspace d path) (Analysis.baseName path)
    (Depth.ofName depth) d.session <;> rfl

theorem analyze_error {file depth : Json} (h : Serving.analyze file depth d = .error e d') :
    ∃ path f s, file = .str path ∧ e = .fault f ∧ d' = { d with session := s } ∧ f.isExit = true ∧
      Analysis.look (Analysis.workspace d path) (Analysis.baseName path)
      (Depth.ofName depth) d.session = .error f s := by
  cases file with
  | str path =>
    rw [analyze_path] at h
    cases hlook : Analysis.look (Analysis.workspace d path) (Analysis.baseName path)
      (Depth.ofName depth) d.session with
    | ok a s =>
      rw [hlook] at h
      cases h
    | error f s =>
      rw [hlook] at h
      dsimp only at h
      split at h
      next hf =>
        cases h
        exact ⟨path, f, s, rfl, rfl, rfl, hf, hlook⟩
      next => cases h
  | _ => cases h

theorem callTool_stays {name : Json} (hname : name ≠ .str "analyze_pne") (arguments : Json) :
    Stays (callTool name arguments) := by
  unfold callTool
  split
  · exact .bind (.mismatch _) fun job => .bind (.submit job) fun _ => .pure _
  · exact .bind (.mismatch _) fun _ => .bind .draw fun _ => .pure _
  · exact absurd rfl hname
  · exact .bind (.mismatch _) fun _ => .bind (.task _) fun _ => .pure _
  · exact .bind (.mismatch _) fun _ => .bind (.mismatch _) fun _ => .pure _
  · exact .throw rfl

theorem dispatch_stays {method : Json} (hmethod : method ≠ .str "tools/call") (params : Json) :
    Stays (dispatch method params) := by
  unfold dispatch
  split
  next => exact .pure _
  next => exact .pure _
  next h =>
    unfold Method.ofName? at h
    split at h <;> first | exact absurd rfl hmethod | cases h
  next => exact .pure _
  next =>
    refine .bind (.mismatch _) fun uri => ?_
    unfold readResource
    split
    · exact .bind .get fun d =>
        .bind (.looks (.bind (.namesIn _) fun _ => .pure _)) fun _ => .pure _
    · exact .throw rfl
  next => exact .pure _
  next =>
    refine .bind (.mismatch _) fun name => .bind (.mismatch _) fun arguments => ?_
    unfold getPrompt
    split
    · exact .bind (.mismatch _) fun _ => .bind (.mismatch _) fun _ => .pure _
    · exact .bind (.mismatch _) fun _ => .pure _
    · exact .throw rfl
  next => exact .throw rfl

theorem reply_obj (fs : List (String × Json)) (d : Desk) : reply (.obj fs) d =
    recover (success ((fs.lookup "id").getD .null) <$> dispatch ((fs.lookup "method").getD .null)
      ((fs.lookup "params").getD (.obj [])))
      (fun e => pure (failure ((fs.lookup "id").getD .null) internalError e.message)) d :=
  rfl

theorem dispatch_callTool (params : List (String × Json)) : dispatch (.str "tools/call")
    (.obj params) =
    callTool ((params.lookup "name").getD .null) ((params.lookup "arguments").getD (.obj [])) :=
  rfl

theorem callTool_analyze (arguments : List (String × Json)) : callTool (.str "analyze_pne")
    (.obj arguments) =
    (Serving.analyze ((arguments.lookup "input_file").getD .null)
      ((arguments.lookup "analysis_type").getD (.str "all")) >>=
      fun a => pure (valueContent a.toJson)) :=
  rfl

theorem eq_some_of_getD {default : Json} (h : o.getD default = j) (hne : default ≠ j) :
    o = some j := by
  cases o with
  | none => exact absurd h hne
  | some k => rw [← h, getD_some]

theorem given_of_lookup {fields : List (String × Json)} {k : String}
    (h : o.getD (.obj []) = .obj fields) (hfield : fields.lookup k = some j) :
    o = some (.obj fields) := by
  refine eq_some_of_getD h fun heq => ?_
  obtain rfl := Json.obj.inj heq
  cases hfield

theorem analysisExits_of_dispatch
    (h : dispatch ((fs.lookup "method").getD .null) ((fs.lookup "params").getD (.obj [])) d =
    .error e d') (hexit : e.isExit = true) : ∃ f s, e = .fault f ∧ d' = { d with session := s } ∧
      AnalysisExits d fs f s := by
  have hstays : e.isExit ≠ false := by rw [hexit]; decide
  by_cases hmethod : (fs.lookup "method").getD .null = .str "tools/call"
  case neg => exact absurd (dispatch_stays hmethod _ _ _ _ h) hstays
  rw [hmethod] at h
  cases hparams : (fs.lookup "params").getD (.obj []) with
  | obj params =>
    rw [hparams, dispatch_callTool] at h
    by_cases hname : (params.lookup "name").getD .null = .str "analyze_pne"
    case neg => exact absurd (callTool_stays hname _ _ _ _ h) hstays
    rw [hname] at h
    cases harguments : (params.lookup "arguments").getD (.obj []) with
    | obj arguments =>
      rw [harguments, callTool_analyze] at h
      cases hanalyze : Serving.analyze ((arguments.lookup "input_file").getD .null)
          ((arguments.lookup "analysis_type").getD (.str "all")) d with
      | ok a d1 =>
        rw [bind_of_ok hanalyze] at h
        cases h
      | error e1 d1 =>
        rw [bind_of_error hanalyze] at h
        cases h
        obtain ⟨path, f, s, hpath, rfl, rfl, hf, hlook⟩ := analyze_error hanalyze
        have hfile := eq_some_of_getD hpath (by rintro ⟨⟩)
        have hcalled := eq_some_of_getD hname (by rintro ⟨⟩)
        exact ⟨f, s, rfl, rfl, params, arguments, path, eq_some_of_getD hmethod (by rintro ⟨⟩),
          given_of_lookup hparams hcalled, hcalled, given_of_lookup harguments hfile,
          hfile, hlook, hf⟩
    | _ =>
      rw [harguments] at h
      cases h
      cases hexit
  | _ =>
    rw [hparams] at h
    cases h
    cases hexit

theorem dispatch_of_analysisExits (h : AnalysisExits d fs f s) :
    dispatch ((fs.lookup "method").getD .null)
    ((fs.lookup "params").getD (.obj [])) d = .error (.fault f) { d with session := s } := by
  obtain ⟨params, arguments, path, hmethod, hparams, hname, harguments, hfile, hlook, hexit⟩ := h
  have hanalyze : Serving.analyze (.str path)
      ((arguments.lookup "analysis_type").getD (.str "all")) d =
      .error (.fault f) { d with session := s } := by
    rw [analyze_path, hlook]
    exact if_pos hexit
  rw [hmethod, hparams, getD_some, getD_some, dispatch_callTool, hname, harguments,
    getD_some, getD_some, callTool_analyze, hfile, getD_some]
  exact bind_of_error hanalyze

/--
**A request gets a reply, or it ends the whole run.**  The reply has the request's identifier and
either a result or an error.  The run ends exactly if the request asks for the analysis of a program
and the analysis ends it.
-/
theorem reply_ends (fs : List (String × Json)) (d : Desk) :
    (∃ r d', reply (.obj fs) d = .ok r d' ∧ Answers ((fs.lookup "id").getD .null) r ∧
      ∀ f s, ¬ AnalysisExits d fs f s) ∨
      ∃ f s, reply (.obj fs) d = .error (.fault f) { d with session := s } ∧
        AnalysisExits d fs f s := by
  have hmap : ∀ (g : Json → Json) (x : Serving Json), (g <$> x) d = match x d with
      | .ok j d' => .ok (g j) d'
      | .error e d' => .error e d' := by
    intro g x
    simp only [Functor.map, EStateM.map]
    cases x d <;> rfl
  rw [reply_obj]
  rcases recover_ends (success _ <$> dispatch _ _)
    (fun e => failure _ internalError e.message) d with
    ⟨r, d', hok, hr⟩ | ⟨e, d', herror, hdispatch, hexit⟩
  · have hstays : ∀ f s, ¬ AnalysisExits d fs f s := by
      intro f s h
      rw [hmap, dispatch_of_analysisExits h] at hr
      rcases hr with hr | ⟨e, he, hstays, -⟩
      · cases hr
      · cases he
        cases h.isExit.symm.trans hstays
    refine .inl ⟨r, d', hok, ?_, hstays⟩
    rcases hr with hr | ⟨e, -, -, rfl⟩
    · rw [hmap] at hr
      split at hr
      · cases hr
        exact answers_success _ _
      · cases hr
    · exact answers_failure _ _ _
  · rw [hmap] at hdispatch
    split at hdispatch
    · cases hdispatch
    next e1 d1 hd =>
      cases hdispatch
      obtain ⟨f, s, rfl, rfl, hexits⟩ := analysisExits_of_dispatch hd hexit
      exact .inr ⟨f, s, herror, hexits⟩

/-! ### The loop -/

def printed (d : Desk) (r : Json) : Desk :=
  { d with session := { d.session with console := d.session.console ++ (r.compact false ++ "\n") } }

/-- Lines that were served one after another.  Blank lines are passed over; every other line has its
reply. -/
inductive Served : Desk → List String → Desk → Prop
  | nil {d : Desk} : Served d [] d
  | blank {d d' : Desk} {line : String} {lines : List String} :
      (Text.trimString line).isEmpty = true → Served d lines d' →
    Served d (line :: lines) d'
  | replied {d d₁ d₂ d' : Desk} {line : String} {lines : List String} {r : Json} :
    replyToLine (Text.trimString line) d = .ok r d₁ → settle (printed d₁ r) = .ok () d₂ →
      Served d₂ lines d' →
    Served d (line :: lines) d'

/-- The line ends the whole run, by the analysis that it asks for or by a task that is done after
its reply. -/
inductive Ends (d : Desk) (line : String) : Fault → Prop
  | analysis {fs : List (String × Json)} {f : Fault} {s : Session} :
      Json.parse (Text.trimString line) = .ok (.obj fs) →
    AnalysisExits d fs f s → Ends d line f
  | task {r : Json} {d₁ d₂ : Desk} {id : String} {t : Task} {f : Fault} {s : Session} :
    replyToLine (Text.trimString line) d = .ok r d₁ → id ∈ d₁.waiting → d₂.tasks.find? id = some t →
      Exits d₂ t.job f s →
    Ends d line f

theorem replyToLine_error (h : replyToLine line d = .error e d') :
    ∃ fs f s, Json.parse line = .ok (.obj fs) ∧ e = .fault f ∧ AnalysisExits d fs f s := by
  unfold replyToLine at h
  cases hparse : Json.parse line with
  | error e =>
    simp only [hparse] at h
    split at h <;> cases h
  | ok request =>
    simp only [hparse] at h
    rcases recover_ends _ _ d with ⟨r, d1, hok, -⟩ | ⟨e1, d1, herror, hreply, hexit⟩
    · cases h.symm.trans hok
    cases h.symm.trans herror
    cases request with
    | obj fs =>
      rcases reply_ends fs d with ⟨r, d1, hok, -⟩ | ⟨f, s, hfault, hexits⟩
      · cases hreply.symm.trans hok
      · cases hreply.symm.trans hfault
        exact ⟨fs, f, s, rfl, rfl, hexits⟩
    | _ =>
      cases hreply
      cases hexit

theorem replyToLine_answers {r : Json} (h : replyToLine line d = .ok r d') : ∃ id, Answers id r ∧
    ∀ fs, Json.parse line = .ok (.obj fs) → id = (fs.lookup "id").getD .null ∧
      reply (.obj fs) d = .ok r d' := by
  unfold replyToLine at h
  cases hparse : Json.parse line with
  | error e =>
    simp only [hparse] at h
    split at h <;> cases h <;> exact ⟨.null, answers_failure _ _ _, fun _ hfs => by cases hfs⟩
  | ok request =>
    simp only [hparse] at h
    rcases recover_ends (reply request) (fun e => breakdown e.message) d with ⟨r1, d1, hok,
      hr⟩ | ⟨e, d1, herror, -⟩
    · cases h.symm.trans hok
      cases request with
      | obj fs =>
        rcases reply_ends fs d with ⟨r2, d2, hreply, hanswers, -⟩ | ⟨f, s, hreply, hexits⟩
        · rw [hreply] at hr
          rcases hr with hr | ⟨e, he, -⟩
          · cases hr
            refine ⟨_, hanswers, fun fs' hfs => ?_⟩
            cases hfs
            exact ⟨rfl, hreply⟩
          · cases he
        · rw [hreply] at hr
          rcases hr with hr | ⟨e, he, hstays, -⟩
          · cases hr
          · cases he
            cases hexits.isExit.symm.trans hstays
      | _ =>
        rcases hr with hr | ⟨e, -, -, rfl⟩
        · cases hr
        · exact ⟨.null, answers_failure _ _ _, fun _ hfs => by cases hfs⟩
    · cases h.symm.trans herror

theorem serveLine_eq (hline : (Text.trimString line).isEmpty = false) (d : Desk) :
    serveLine line d =
    match replyToLine (Text.trimString line) d with
    | .ok r d1 => settle (printed d1 r)
    | .error e d1 => .error e d1 := by
  unfold serveLine
  rw [if_pos (by rw [hline]; rfl)]
  cases hreply : replyToLine (Text.trimString line) d with
  | ok r d1 => exact bind_of_ok hreply
  | error e d1 => exact bind_of_error hreply

/-- How serving lines ends: all of them are served, or the ones before the first that ends the whole
run. -/
inductive ServedUpTo (d : Desk) : List String → EStateM.Result Refusal Desk Unit → Prop
  | all {lines : List String} {d' : Desk} : Served d lines d' → ServedUpTo d lines (.ok () d')
  | ended {before after : List String} {line : String} {d₁ d' : Desk} {f : Fault} :
      Served d before d₁ → Ends d₁ line f →
    f.isExit = true → ServedUpTo d (before ++ line :: after) (.error (.fault f) d')

theorem serveLines_ends :
    ∀ (lines : List String) (d : Desk), ServedUpTo d lines (lines.forM serveLine d) := by
  intro lines
  induction lines with
  | nil => exact fun d => .all .nil
  | cons line lines ih =>
    intro d
    have hcons : (line :: lines).forM serveLine =
        (serveLine line >>= fun _ => lines.forM serveLine) := rfl
    -- the rest of the lines is served from where a line was served
    have hrest : ∀ {d2}, serveLine line d = .ok () d2 →
        (∀ {before d1}, Served d2 before d1 → Served d (line :: before) d1) →
        ServedUpTo d (line :: lines) ((line :: lines).forM serveLine d) := by
      intro d2 hline hserved
      rw [hcons, bind_of_ok hline]
      have hlines := ih d2
      generalize lines.forM serveLine d2 = result at hlines
      cases hlines with
      | all h => exact .all (hserved h)
      | ended h hends hexit => exact .ended (hserved h) hends hexit
    cases hblank : (Text.trimString line).isEmpty with
    | true =>
      refine hrest ?_ (.blank hblank)
      unfold serveLine
      rw [if_neg (by rw [hblank]; decide)]
      rfl
    | false =>
      have hline := serveLine_eq hblank d
      cases hreply : replyToLine (Text.trimString line) d with
      | error e d1 =>
        rw [hreply] at hline
        obtain ⟨fs, f, s, hparse, rfl, hexits⟩ := replyToLine_error hreply
        rw [hcons, bind_of_error hline]
        exact .ended .nil (.analysis hparse hexits) hexits.isExit
      | ok r d1 =>
        rw [hreply] at hline
        cases hsettle : settle (printed d1 r) with
        | ok u d2 => exact hrest (hline.trans hsettle) (.replied hreply hsettle)
        | error e d2 =>
          obtain ⟨d3, id, hwaiting, t, f, ht, rfl, hexits⟩ :=
            forM_perform_error (d := { printed d1 r with waiting := [] }) hsettle
          rw [hcons, bind_of_error (hline.trans hsettle)]
          have hends : Ends d line f := .task hreply hwaiting ht hexits
          obtain ⟨_, _, _, _, hexit, _⟩ := hexits
          exact .ended .nil hends hexit

/--
**Requests are answered, unless the whole run ends.**  A request gets one reply with its identifier
and either a result or an error, exactly if it does not ask for an analysis that ends the run.  In
the loop, every line that is not blank gets one reply, which for a request is the reply to it, up to
the first line that ends the run: by such an analysis, or by a task that is done after the reply.
-/
theorem requests_answered_unless_exit (d : Desk) (fs : List (String × Json)) (input : String) :
    ((∃ r d', reply (.obj fs) d = .ok r d' ∧ Answers ((fs.lookup "id").getD .null) r ∧
      ∀ f s, ¬ AnalysisExits d fs f s) ∨
      ∃ f s, reply (.obj fs) d = .error (.fault f) { d with session := s } ∧
        AnalysisExits d fs f s) ∧
    ServedUpTo d (input.splitOn "\n") (serve input d) ∧
    ∀ line r d', replyToLine line d = .ok r d' → ∃ id, Answers id r ∧
      ∀ fs, Json.parse line = .ok (.obj fs) → id = (fs.lookup "id").getD .null ∧
        reply (.obj fs) d = .ok r d' :=
  ⟨reply_ends fs d, serveLines_ends (input.splitOn "\n") d, fun _ _ _ => replyToLine_answers⟩

end Protocol

end Pathwise.Agent
