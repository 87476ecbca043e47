import Pathwise.Route.Generate

/-!
# Making path files from the command line
-/

namespace Pathwise

namespace Route

def rule (width : Nat) : String :=
  String.ofList (List.replicate width '=')

def sayAll (lines : List String) : Run Unit :=
  lines.forM fun line => Report.say line

def defaultOutput : String := "path/path.json"

def usage : List String := [
  rule 70, "Path.json 自动生成工具", rule 70, "\n用法:",
  "  python3 generate_path.py <service.json> <topology.json> [output_path]", "\n参数:",
  "  service.json   - 服务配置文件路径", "  topology.json  - 网络拓扑文件路径",
  "  output_path    - 输出文件路径 (可选，默认: path/path.json)", "\n示例:",
  "  python3 generate_path.py input/service.json input/topology.json",
  "  python3 generate_path.py input/service.json input/topology.json input/path/path.json", rule 70]

def summary (service output : String) (paths : PathFile) : List String :=
  ["\n" ++ rule 70, "✅ 生成成功！", rule 70, s!"\n生成了 {paths.size} 个服务的路径配置:"] ++
    paths.entries.map (fun (name, c) => s!"  • {name.toJson.text}: " ++ " → ".intercalate c.keys) ++
    [s!"\n✅ 配置已保存到: {output}", "\n💡 提示: 现在可以运行编译器了:", s!"   python3 -m lynette --config {service}"]

/-- Runs a step and ends the run if it fails, with a word on the failure. -/
def orEnd (word : String) (x : Run Unit) : Run Unit := do
  try x
  catch
    | .halted => throw .halted
    | .exited n => throw (.exited n)
    | e =>
      Report.say s!"\n❌ {word}: {e.message}"
      throw (.exited 1)

/-- The tool that makes a path file and explains itself. -/
def command (args : List String) : Run Unit := do
  match args with
  | service :: topology :: rest =>
    let output := rest.headD defaultOutput
    [service, topology].forM fun file => do
      if !(← Run.exists? file) then
        Report.say s!"❌ 错误: 找不到文件 '{file}'"
        throw (.exited 1)
    sayAll [rule 70, "Path.json 自动生成工具", rule 70, s!"📄 Service 配置: {service}",
      s!"🌐 Topology 配置: {topology}", s!"📤 输出文件: {output}", rule 70, ""]
    orEnd "生成失败" do
      let paths ← generate service topology output
      sayAll (summary service output paths)
  | _ =>
    Report.say "❌ 错误: 缺少必要参数\n"
    sayAll usage
    throw (.exited 1)

/-- The plain tool: all three files have default names. -/
def plainCommand (args : List String) : Run Unit := do
  let (service, topology) := match args with
    | s :: t :: _ => (s, t)
    | _ => ("service.json", "topology.json")
  let output := args[2]?.getD defaultOutput
  sayAll [rule 60, "Path Generator - 自动路径配置生成器", rule 60, s!"Service Config: {service}",
    s!"Topology Config: {topology}", s!"Output: {output}", rule 60, ""]
  orEnd "Error" do
    let _ ← generate service topology output
    sayAll ["\n" ++ rule 60, "✅ Generation completed successfully!", rule 60]

end Route

end Pathwise
