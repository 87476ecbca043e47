import Pathwise.Agent.Api

/-!
# Demonstrations

Short runs that show on the console how the agent is used.
-/

namespace Pathwise

namespace Agent

namespace Demonstration

def say (line : String) : Serving Unit :=
  (Report.say line : Run Unit)

def program : String := "input/Alice_main.pne"

def twoDecimals (tenths : Nat) : String :=
  let whole := tenths / 10
  let tenth := tenths % 10
  s!"{whole}.{tenth}0"

def requests : List String := [
  "编译input/Alice_main.pne文件，输出到output目录",
  "部署代码到所有节点",
  "分析input/Alice_main.pne的代码结构",
  "查询任务状态，任务ID是xxx-xxx-xxx"]

def shownParameters (u : Query.Understanding) : String := (Json.obj u.parameters.entries).shown

def understanding : Serving Unit := do
  say "=== 自然语言处理示例 ===\n"
  requests.forM fun request => do
    let u := Query.understand request
    let parameters := shownParameters u
    let confidence := twoDecimals u.confidence
    say s!"查询: {request}"
    say s!"意图: {u.intent.name}"
    say s!"参数: {parameters}"
    say s!"置信度: {confidence}\n"

def pause : Nat := 2

/-- Looks at a task until it is done, at most `n` times. -/
def watch (id : String) : Nat → Serving Unit
  | 0 => pure ()
  | n + 1 => do
    let t ← Serving.task (.str id)
    say s!"进度: {t.stage.percent}%"
    match t.stage with
    | .completed o =>
      let files := (Json.strs o.files).shown
      say "编译完成！"
      say s!"生成的文件: {files}"
    | .failed reason => say s!"编译失败: {reason}"
    | _ =>
      (Run.exchange (.sleep pause) : Run Unit)
      watch id n

def sayStarted (indent id : String) : Serving Unit := do
  say s!"{indent}任务ID: {id}"
  say s!"{indent}状态: {Stage.pending.name}"

def compilation : Serving Unit := do
  say "=== 编译示例 ===\n"
  let id ← Serving.submit {
    mode := .str "debug"
    inputFile := .str program
    configFile := .null
    outputDir := .str "output"
    target := .str "v1model"
    onlyProgram := false }
  sayStarted "" id
  watch id (60 / pause)

def analysis : Serving Unit := do
  say "=== 代码分析示例 ===\n"
  let a ← Serving.analyze (.str program) (.str "all")
  let valid := (Json.bool a.isValid).shown
  say s!"语法有效: {valid}"
  say s!"服务数量: {a.program.services.size}"
  say s!"应用数量: {a.program.applications.size}"
  say s!"模块数量: {a.program.modules.size}"
  if !a.program.services.isEmpty then
    say "\n服务列表:"
    a.program.services.entries.forM fun (name, s) => do
      let applications := (Json.strs s.applications).shown
      say s!"  - {name}: {applications}"

def order : String := "编译input/Alice_main.pne文件，使用v1model架构"

def action : Serving Unit := do
  say "=== 自然语言到动作示例 ===\n"
  let u := Query.understand order
  let parameters := shownParameters u
  say s!"用户查询: {order}"
  say s!"识别意图: {u.intent.name}"
  say s!"提取参数: {parameters}"
  if u.intent = .compile then
    let id ← Api.compileBy u.parameters
    say "\n执行结果:"
    sayStarted "  " id

def rule : String := "".pushn '=' 50

def all : Serving Unit := do
  say "Lynette Agent 使用示例\n"
  say (rule ++ "\n")
  understanding
  say ("\n" ++ rule)
  say "示例完成！"

end Demonstration

end Agent

end Pathwise
