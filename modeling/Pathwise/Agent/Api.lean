import Pathwise.Agent.Analysis
import Pathwise.Agent.Form
import Pathwise.Query.Understand

/-!
# The web interface

The agent behind routes.  Every route but the first asks for a key before anything else.  Whatever
goes wrong is answered with an error status: an unknown task with 404 where its state is asked for,
and everything else with 500.
-/

namespace Pathwise

namespace Agent

namespace Api

inductive Route where
  | root
  | compile
  | taskStatus
  | deploy
  | analyze
  | execute
  | chat
deriving Repr, DecidableEq, Inhabited

namespace Route

def ofName? : String → Option Route
  | "GET /" => some root
  | "POST /api/v1/compile" => some compile
  | "GET /api/v1/compile/\x7btask_id\x7d/status" => some taskStatus
  | "POST /api/v1/deploy" => some deploy
  | "POST /api/v1/analyze" => some analyze
  | "POST /api/v1/nlp/execute" => some execute
  | "POST /api/v1/nlp/chat" => some chat
  | _ => none

end Route

/-- What stands before the key in the header of a request. -/
def scheme : String := "Bearer "

/-- The key that a request shows; it has to be `key`. -/
def authorize (key : String) (header : Json) : Except Refusal String :=
  match header with
  | .null => .error (.status 401 "缺少Authorization头")
  | .str h =>
    if !h.startsWith scheme then .error (.status 401 "Authorization格式错误")
    else
      let shown := Text.replace scheme "" h
      if shown = key then .ok shown else .error (.status 401 "API Key无效")
  | j => .error (.fault (.mismatch (.noOperation j.kind "startswith")))

def welcome : Json :=
  .obj [("name", .str "Lynette Agent API"), ("version", .str "0.1.0"), ("status", .str "running")]

def guarded (x : Serving Json) : Serving Json :=
  Serving.recover x fun e => throw (.status 500 e.message)

def option (options : Option Json) (k : String) (default : Json) : Except Mismatch Json :=
  match options with
  | some o => .ok ((o.field? k).getD default)
  | none => .error (.noOperation Json.null.kind "get")

def textOrNull (s : Option String) : Json := (s.map Json.str).getD .null

def compile (f : CompileForm) : Serving Json := guarded do
  let onlyProgram ← option f.options "p4_only" (.bool false)
  let id ← Serving.submit {
    mode := .str f.mode
    inputFile := textOrNull f.inputFile
    configFile := textOrNull f.configFile
    outputDir := .str f.outputDir
    target := .str f.target
    onlyProgram := onlyProgram.isTruthy }
  pure (Serving.compileAccepted id)

def taskStatus (id : Json) : Serving Json :=
  Serving.recover (Task.toJson <$> Serving.task id) fun e =>
    match e with
    | .unknownTask _ => throw (.status 404 e.message)
    | e => throw e

/-- A task has to be completed before what it produced is deployed. -/
def checkCompleted (t : Task) : Serving Unit :=
  match t.stage with
  | .completed _ => pure ()
  | _ => throw (.status 400 "编译任务尚未完成")

def isGiven (s : Option String) : Bool := s.any (!·.isEmpty)

/-- Accepts a deployment, of a task or of a directory. -/
def deploy (f : DeployForm) : Serving Json := guarded do
  if isGiven f.taskId then
    let t ← Serving.task (textOrNull f.taskId)
    checkCompleted t
  else if !isGiven f.outputDir then throw (.status 400 "需要提供task_id或output_dir")
  let _ ← option f.options "port" (.int 13345)
  pure (Serving.deployAccepted (← Serving.deploy))

def analyze (f : AnalyzeForm) : Serving Json := guarded do
  pure (← Serving.analyze (.str f.inputFile) (.str f.analysisType)).toJson

/-! ### Requests in natural language -/

def needed (o : Operation) (ps : OrderedMap String Json) (name : String) : Except Refusal Json :=
  match ps.find? name with
  | some j => .ok j
  | none => .error (.missingArgument o name)

def compileBy (ps : OrderedMap String Json) : Serving String := do
  let mode ← (needed .compile ps "mode" : Except Refusal Json)
  Serving.submit {
    mode := mode
    inputFile := (ps.find? "input_file").getD .null
    configFile := (ps.find? "config_file").getD .null
    outputDir := (ps.find? "output_dir").getD (.str "./pne_out")
    target := (ps.find? "target").getD (.str "v1model")
    onlyProgram := false }

def deployBy (ps : OrderedMap String Json) : Serving String := do
  let _ ← (needed .deploy ps "output_dir" : Except Refusal Json)
  Serving.deploy

def analyzeBy (ps : OrderedMap String Json) : Serving Analysis := do
  let file ← (needed .analyze ps "input_file" : Except Refusal Json)
  Serving.analyze file ((ps.find? "analysis_type").getD (.str "all"))

def understood (u : Query.Understanding) : List (String × Json) :=
  [("intent", .str u.intent.name), ("parameters", .obj u.parameters.entries)]

def started (u : Query.Understanding) (id message : String) : Json :=
  .obj (understood u ++ [("task_id", .str id), ("status", .str Stage.pending.name),
    ("message", .str message)])

/-- Does what a request in natural language asks for. -/
def execute (f : QueryForm) : Serving Json := guarded do
  let u := Query.understand f.query
  match u.intent with
  | .compile => pure (started u (← compileBy u.parameters) "已理解您的请求，正在编译PNE文件...")
  | .deploy => pure (started u (← deployBy u.parameters) "已理解您的请求，正在部署...")
  | .analyze =>
    let a ← analyzeBy u.parameters
    pure (.obj (understood u ++ [("result", a.toJson), ("message", .str "分析完成")]))
  | .checkStatus =>
    match u.parameters.find? "task_id" with
    | none => throw (.status 400 "未找到任务ID")
    | some id =>
      let t ← Serving.task id
      pure (.obj (understood u ++ [("status", t.toJson), ("message", .str "查询完成")]))
  | i => throw (.status 400 s!"无法识别的意图: {i.name}")

def apology : String := "抱歉，我无法理解您的请求。请尝试使用以下命令：编译、部署、分析等。"

def response (u : Query.Understanding) : Serving String := do
  match u.intent with
  | .compile =>
    let id ← compileBy u.parameters
    let file := match u.parameters.find? "input_file" with
      | some j => s!"，文件: {j.text}"
      | none => ""
    pure (s!"好的，我将为您编译PNE文件。编译任务ID: {id}" ++ file)
  | .deploy =>
    let id ← deployBy u.parameters
    pure s!"好的，我将为您部署P4代码。部署任务ID: {id}"
  | .analyze =>
    let a ← analyzeBy u.parameters
    pure s!"分析完成。发现 {a.program.services.size} 个服务，{a.program.applications.size} 个应用"
  | _ => pure apology

def chat (f : ChatForm) : Serving Json := guarded do
  let u := Query.understand f.message
  let said ← response u
  let id := match f.sessionId with
    | some s => if s.isEmpty then "default" else s
    | none => "default"
  pure (.obj ([("response", .str said)] ++ understood u ++ [("session_id", .str id)]))

def answer (route : Route) (body taskId : Json) : Serving Json := do
  match route with
  | .root => pure welcome
  | .compile => compile (← (CompileForm.read body : Except Refusal _))
  | .taskStatus => taskStatus taskId
  | .deploy => deploy (← (DeployForm.read body : Except Refusal _))
  | .analyze => analyze (← (AnalyzeForm.read body : Except Refusal _))
  | .execute => execute (← (QueryForm.read body : Except Refusal _))
  | .chat => chat (← (ChatForm.read body : Except Refusal _))

/-- Answers a request at a route.  Only the first route is open to everyone. -/
def handle (key : String) (route : Route) (header body taskId : Json) : Serving Json := do
  if route ≠ .root then
    let _ ← (authorize key header : Except Refusal String)
  answer route body taskId

end Api

end Agent

end Pathwise
