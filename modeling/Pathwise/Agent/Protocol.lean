import Pathwise.Agent.Analysis
import Pathwise.Agent.Catalogue

/-!
# The context protocol

The agent as a context server for a language model.  A request names a method; its reply repeats the
request's identifier and holds either a result or an error.  Requests come one on a line, and so do
replies.
-/

namespace Pathwise

namespace Agent

namespace Protocol

inductive Method where
  | greet
  | listTools
  | callTool
  | listResources
  | readResource
  | listPrompts
  | getPrompt
deriving Repr, DecidableEq, Inhabited

namespace Method

def ofName? : Json → Option Method
  | .str "initialize" => some greet
  | .str "tools/list" => some listTools
  | .str "tools/call" => some callTool
  | .str "resources/list" => some listResources
  | .str "resources/read" => some readResource
  | .str "prompts/list" => some listPrompts
  | .str "prompts/get" => some getPrompt
  | _ => none

end Method

/-- A field of a value that has to be an object, or what stands for the field if it is not given. -/
def fieldOr (j : Json) (k : String) (default : Json) : Except Mismatch Json :=
  match j with
  | .obj fs => .ok ((fs.lookup k).getD default)
  | j => .error (.noOperation j.kind "get")

def textContent (text : String) : Json :=
  .obj [("content", .arr [.obj [("type", .str "text"), ("text", .str text)]])]

/-- An answer that consists of a value, written as a text. -/
def valueContent (j : Json) : Json := textContent (j.pretty false 2 0)

def greeting : Json :=
  .obj [("protocolVersion", .str "2024-11-05"),
    ("capabilities", .obj [("tools", .obj []), ("resources", .obj []), ("prompts", .obj [])]),
    ("serverInfo", .obj [("name", .str "lynette-mcp-server"), ("version", .str "0.1.0")])]

/-! ### Tools -/

def jobOf (arguments : Json) : Except Mismatch Job := do
  pure {
    mode := ← fieldOr arguments "mode" .null
    inputFile := ← fieldOr arguments "input_file" .null
    configFile := ← fieldOr arguments "config_file" .null
    outputDir := ← fieldOr arguments "output_dir" (.str "./pne_out")
    target := ← fieldOr arguments "target" (.str "v1model")
    onlyProgram := (← fieldOr arguments "p4_only" (.bool false)).isTruthy }

def callTool (name arguments : Json) : Serving Json :=
  match name with
  | .str "compile_pne" => do
    let job ← jobOf arguments
    pure (valueContent (Serving.compileAccepted (← Serving.submit job)))
  | .str "deploy_p4" => do
    let _ ← fieldOr arguments "output_dir" .null
    pure (valueContent (Serving.deployAccepted (← Serving.deploy)))
  | .str "analyze_pne" => do
    let file ← fieldOr arguments "input_file" .null
    let depth ← fieldOr arguments "analysis_type" (.str "all")
    pure (valueContent (← Serving.analyze file depth).toJson)
  | .str "check_compile_status" => do
    pure (valueContent (← Serving.task (← fieldOr arguments "task_id" .null)).toJson)
  | .str "validate_p4" => do
    let file := (← fieldOr arguments "p4_file" .null).text
    let target := (← fieldOr arguments "target" (.str "v1model")).text
    pure (textContent s!"验证P4文件: {file} (目标: {target})\n注意: 实际验证功能需要p4test工具")
  | j => throw (.unknownTool j.text)

/-! ### Resources -/

def examplesUri : String := "lynette://examples"

/-- The programs that lie in the directory of examples beside the compiler. -/
def examples (system : String) : Run (List String) := do
  pure ((← Serving.namesIn (system ++ "/input")).filter (·.endsWith ".pne"))

def resources : Json :=
  .obj [("resources", .arr [.obj [("uri", .str examplesUri), ("name", .str "Lynette示例文件"),
    ("description", .str "访问Lynette项目中的示例PNE文件"), ("mimeType", .str "text/plain")]])]

def exampleList (names : List String) : String :=
  if names.isEmpty then "未找到示例文件" else "\n".intercalate names

def readResource (uri : Json) : Serving Json := do
  if uri.str? = some examplesUri then
    let names ← (examples (← get).system : Run (List String))
    pure (.obj [("contents", .arr [.obj [("uri", uri), ("mimeType", .str "text/plain"),
      ("text", .str (exampleList names))]])])
  else throw (.unknownResource uri.text)

/-! ### Prompts -/

def promptParameter (name description : String) (required : Bool) : Json :=
  .obj [("name", .str name), ("description", .str description), ("required", .bool required)]

def prompts : Json :=
  .obj [("prompts", .arr [
    .obj [("name", .str "compile_pne_template"), ("description", .str "编译PNE文件的提示模板"),
      ("arguments", .arr [promptParameter "input_file" "要编译的PNE文件路径" true,
        promptParameter "mode" "编译模式（debug或service）" false])],
    .obj [("name", .str "analyze_pne_template"), ("description", .str "分析PNE代码的提示模板"),
      ("arguments", .arr [promptParameter "input_file" "要分析的PNE文件路径" true])]])]

def userMessage (text : String) : Json :=
  .obj [("messages", .arr [.obj [("role", .str "user"),
    ("content", .obj [("type", .str "text"), ("text", .str text)])]])]

def getPrompt (name arguments : Json) : Serving Json :=
  match name with
  | .str "compile_pne_template" => do
    let file := (← fieldOr arguments "input_file" (.str "未指定")).text
    let mode := (← fieldOr arguments "mode" (.str "debug")).text
    pure (userMessage s!"请编译PNE文件: {file}，使用{mode}模式")
  | .str "analyze_pne_template" => do
    let file := (← fieldOr arguments "input_file" (.str "未指定")).text
    pure (userMessage s!"请分析PNE文件: {file}，包括语法检查、代码结构分析和依赖关系分析")
  | j => throw (.unknownPrompt j.text)

/-! ### Requests and replies -/

def dispatch (method params : Json) : Serving Json :=
  match Method.ofName? method with
  | some .greet => pure greeting
  | some .listTools => pure (.obj [("tools", .arr (Tool.all.map Tool.listed))])
  | some .callTool => do
    let name ← fieldOr params "name" .null
    callTool name (← fieldOr params "arguments" (.obj []))
  | some .listResources => pure resources
  | some .readResource => do readResource (← fieldOr params "uri" .null)
  | some .listPrompts => pure prompts
  | some .getPrompt => do
    let name ← fieldOr params "name" .null
    getPrompt name (← fieldOr params "arguments" (.obj []))
  | none => throw (.unknownMethod method.text)

def success (id result : Json) : Json :=
  .obj [("jsonrpc", .str "2.0"), ("id", id), ("result", result)]

def failure (id : Json) (code : Int) (message : String) : Json :=
  .obj [("jsonrpc", .str "2.0"), ("id", id),
    ("error", .obj [("code", .int code), ("message", .str message)])]

def internalError : Int := -32603

def parseError : Int := -32700

def reply (request : Json) : Serving Json := do
  let method ← fieldOr request "method" .null
  let params ← fieldOr request "params" (.obj [])
  let id ← fieldOr request "id" .null
  Serving.recover (success id <$> dispatch method params) fun e =>
    pure (failure id internalError e.message)

def breakdown (message : String) : Json :=
  failure .null internalError s!"内部错误: {message}"

def replyToLine (line : String) : Serving Json :=
  match Json.parse line with
  | .error e =>
    if e.cause.isLimit then pure (breakdown e.message)
    else pure (failure .null parseError s!"JSON解析错误: {e.message}")
  | .ok request => Serving.recover (reply request) fun e => pure (breakdown e.message)

/-- Serves a line of input; a blank line is passed over.  Tasks are done after the reply. -/
def serveLine (line : String) : Serving Unit := do
  let line := Text.trimString line
  if !line.isEmpty then
    let r ← replyToLine line
    Run.print (r.compact false ++ "\n")
    Serving.settle

def serve (input : String) : Serving Unit :=
  (input.splitOn "\n").forM serveLine

end Protocol

end Agent

end Pathwise
