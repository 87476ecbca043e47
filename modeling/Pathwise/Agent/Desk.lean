import Pathwise.CommandLine.Compile

/-!
# The desk of the agent

The agent takes requests, starts compilations for them and keeps track of what became of each.  A
compilation is a task: it is accepted at once and done later, when the agent has answered the
request.  Its stage says how far it is, and there are two stages in which a task ends: `completed`
with what was produced, and `failed` with the reason.
-/

namespace Pathwise

namespace Agent

/-- What the agent can be asked to do with a program. -/
inductive Operation where
  | compile
  | deploy
  | analyze
deriving Repr, DecidableEq, Inhabited

def Operation.name : Operation → String
  | compile => "CompileService.compile()"
  | deploy => "DeployService.deploy()"
  | analyze => "AnalyzeService.analyze()"

/-- Why the agent does not do what it is asked to do. -/
inductive Refusal where
  /-- the work itself failed -/
  | fault (f : Fault)
  /-- a single program is to be compiled and none is named -/
  | noInputFile
  /-- services are to be compiled and no configuration is named -/
  | noConfigFile
  | unknownTask (id : String)
  | unknownMethod (name : String)
  | unknownTool (name : String)
  | unknownResource (uri : String)
  | unknownPrompt (name : String)
  /-- an operation is asked for without something that it needs -/
  | missingArgument (o : Operation) (name : String)
  /-- nothing is there that could do a task later -/
  | noLoop
  /-- the body of a request does not have the form of the request -/
  | malformed
  /-- a request is answered with an error status -/
  | status (code : Nat) (detail : String)
deriving Inhabited

namespace Refusal

/-- The wording of a refusal.  An error status has none of its own. -/
def message : Refusal → String
  | fault f => f.message
  | noInputFile => "debug模式需要提供input_file参数"
  | noConfigFile => "service模式需要提供config_file参数"
  | unknownTask id => s!"任务ID {id} 不存在"
  | unknownMethod name => s!"未知的方法: {name}"
  | unknownTool name => s!"未知的工具: {name}"
  | unknownResource uri => s!"未知的资源URI: {uri}"
  | unknownPrompt name => s!"未知的提示模板: {name}"
  | missingArgument o name => s!"{o.name} missing 1 required positional argument: {Text.quote name}"
  | noLoop => "no running event loop"
  | malformed => ""
  | status _ _ => ""

/-- Whether a refusal ends the whole run, so that nothing carries on after it. -/
def isExit : Refusal → Bool
  | fault f => f.isExit
  | _ => false

end Refusal

structure Job where
  mode : Json
  inputFile : Json
  configFile : Json
  outputDir : Json
  target : Json
  /-- whether only the program is wanted, without what services need -/
  onlyProgram : Bool
deriving Inhabited

structure Outcome where
  directory : String
  files : List String
  logFile : Option String
deriving Repr, DecidableEq, Inhabited

inductive Stage where
  | pending
  /-- under way, with the share that is done in percent -/
  | running (percent : Nat)
  | completed (o : Outcome)
  | failed (reason : String)
deriving Repr, DecidableEq, Inhabited

namespace Stage

def name : Stage → String
  | pending => "pending"
  | running _ => "running"
  | completed _ => "completed"
  | failed _ => "failed"

/-- The share that is done, in percent; of a failed task nothing is done. -/
def percent : Stage → Nat
  | pending => 0
  | running p => p
  | completed _ => 100
  | failed _ => 0

/-- Whether a task ends in this stage. -/
def isFinal : Stage → Bool
  | completed _ => true
  | failed _ => true
  | _ => false

end Stage

structure Task where
  job : Job
  stage : Stage
deriving Inhabited

namespace Outcome

def toJson (o : Outcome) : Json :=
  .obj [("output_dir", .str o.directory), ("generated_files", .strs o.files),
    ("log_file", (o.logFile.map Json.str).getD .null)]

end Outcome

namespace Task

def toJson (t : Task) : Json :=
  .obj ([("status", .str t.stage.name), ("mode", t.job.mode), ("input_file", t.job.inputFile),
    ("config_file", t.job.configFile), ("output_dir", t.job.outputDir), ("target", t.job.target),
    ("progress", .nat t.stage.percent),
    ("error", match t.stage with
      | .failed reason => .str reason
      | _ => .null)] ++
    match t.stage with
    | .completed o => [("result", o.toJson)]
    | _ => [])

end Task

structure Desk where
  session : Session
  /-- the directory with the component directory -/
  system : String
  /-- whether right sides of assignments are taken out of the expressions around them -/
  plain : Bool
  /-- whether tasks can be started -/
  hasLoop : Bool
  tasks : OrderedMap String Task
  /-- how many names of tasks were given out -/
  drawn : Nat
  /-- the names of the tasks that are still to be done -/
  waiting : List String
deriving Inhabited

namespace Desk

def start (session : Session) (system : String) (plain hasLoop : Bool) : Desk :=
  ⟨session, system, plain, hasLoop, {}, 0, []⟩

end Desk

abbrev Serving := EStateM Refusal Desk

namespace Serving

instance : MonadLift Run Serving where
  monadLift x := fun d =>
    match x d.session with
    | .ok a s => .ok a { d with session := s }
    | .error e s => .error (.fault e) { d with session := s }

instance : MonadLift (Except Mismatch) Serving where
  monadLift
    | .ok a => pure a
    | .error m => throw (.fault (.mismatch m))

instance : MonadLift (Except Refusal) Serving where
  monadLift
    | .ok a => pure a
    | .error e => throw e

/-- Answers a refusal by `f`; the end of the whole run is passed on. -/
def recover {α : Type} (x : Serving α) (f : Refusal → Serving α) : Serving α := fun d =>
  match x d with
  | .ok a d' => .ok a d'
  | .error e d' => if e.isExit then .error e d' else f e d'

def draw : Serving String := do
  let n := (← get).drawn + 1
  modify fun d => { d with drawn := n }
  pure s!"task-{n}"

def setStage (id : String) (stage : Stage) : Serving Unit :=
  modify fun d => { d with tasks := d.tasks.modify id fun t => { t with stage := stage } }

def submit (job : Job) : Serving String := do
  let id ← draw
  if job.mode.str? = some "debug" && !job.inputFile.isTruthy then throw .noInputFile
  if job.mode.str? = some "service" && !job.configFile.isTruthy then throw .noConfigFile
  modify fun d => { d with tasks := d.tasks.insert id ⟨job, .pending⟩ }
  if !(← get).hasLoop then throw .noLoop
  modify fun d => { d with waiting := d.waiting ++ [id] }
  pure id

def pathOf : Json → Except Mismatch String
  | .str s => .ok s
  | j => .error (.notPath j.kind)

def pathOf? : Json → Except Mismatch (Option String)
  | .null => .ok none
  | j => some <$> pathOf j

/-- The service configuration of a compilation that names none. -/
def defaultConfig : Json := .str "./service.json"

def runnerOf (d : Desk) (job : Job) : Except Mismatch Runner := do
  let main ← pathOf? job.inputFile
  let config := if job.configFile.isTruthy then job.configFile else defaultConfig
  let config ← if main.isSome then pure (config.str?.getD "") else pathOf config
  pure (Runner.start d.session d.system job.outputDir config main d.plain)

/-- The files in the output directory that a compilation produces. -/
def isProduct (name : String) : Bool :=
  name.endsWith ".p4" || name.endsWith "_entry.json"

def fileIn (directory name : String) : String :=
  if directory.isEmpty || directory.endsWith "/" then directory ++ name else
    directory ++ "/" ++ name

/-- The names that lie in a directory, none if it is not there. -/
def namesIn (directory : String) : Run (List String) := do
  if ← Run.exists? directory then
    let p ← Run.directory directory
    let d := (← get).disk
    pure ((d.filesIn p ++ d.directoriesIn p).filterMap List.getLast?)
  else pure []

/-- What lies in the output directory after a compilation, in alphabetical order. -/
def products (directory : String) : Run Outcome := do
  let names ← namesIn directory
  let files := (names.filter isProduct).mergeSort fun a b => decide (a ≤ b)
  let log := fileIn directory "log.txt"
  pure ⟨directory, files, if ← Run.exists? log then some log else none⟩

def compile (id : String) (job : Job) : Serving Outcome := do
  setStage id (.running 10)
  let runner ← runnerOf (← get) job
  setStage id (.running 30)
  (Runner.inSession (fun s => { runner with session := s })
    (Runner.run job.onlyProgram false false) : Run Unit)
  setStage id (.running 90)
  products (← pathOf job.outputDir)

/--
Does a task.  Whatever goes wrong makes the task fail, except for the end of the whole run, which
leaves the task under way.
-/
def perform (id : String) : Serving Unit := do
  match (← get).tasks.find? id with
  | none => pure ()
  | some t =>
    let stage ← recover (Stage.completed <$> compile id t.job) fun e => pure (.failed e.message)
    setStage id stage

def settle : Serving Unit := do
  let ids := (← get).waiting
  modify fun d => { d with waiting := [] }
  ids.forM perform

def task (id : Json) : Serving Task := do
  let _ ← id.key
  match id.str?.bind (← get).tasks.find? with
  | some t => pure t
  | none => throw (.unknownTask id.text)

def accepted (id message : String) : Json :=
  .obj [("task_id", .str id), ("status", .str Stage.pending.name), ("message", .str message)]

def compileAccepted (id : String) : Json := accepted id "编译任务已创建"

/-- Accepts a deployment, which is given a name and nothing more. -/
def deploy : Serving String := draw

def deployAccepted (id : String) : Json := accepted id "部署任务已创建"

end Serving

end Agent

end Pathwise
