import Pathwise.Json.Basic

/-!
# The tools of the agent

What the agent offers to a language model: the tools with their parameters, in the two notations in
which tools are described.
-/

namespace Pathwise

namespace Agent

inductive ParameterType where
  | text
  /-- one of a few texts -/
  | choice (options : List String)
  | flag
  | number
  | texts
deriving Repr, DecidableEq, Inhabited

namespace ParameterType

def fields : ParameterType → List (String × Json)
  | text => [("type", .str "string")]
  | choice options => [("type", .str "string"), ("enum", .strs options)]
  | flag => [("type", .str "boolean")]
  | number => [("type", .str "integer")]
  | texts => [("type", .str "array"), ("items", .obj [("type", .str "string")])]

end ParameterType

structure ToolParameter where
  name : String
  type : ParameterType
  description : String
deriving Repr, DecidableEq, Inhabited

structure Tool where
  name : String
  description : String
  parameters : List ToolParameter
  /-- the names of the parameters that have to be given -/
  required : List String
deriving Repr, DecidableEq, Inhabited

namespace Tool

def schema (t : Tool) : Json :=
  .obj [("type", .str "object"),
    ("properties", .obj (t.parameters.map fun p =>
      (p.name, .obj (p.type.fields ++ [("description", .str p.description)])))),
    ("required", .strs t.required)]

def listed (t : Tool) : Json :=
  .obj [("name", .str t.name), ("description", .str t.description), ("inputSchema", t.schema)]

def function (t : Tool) : Json :=
  .obj [("type", .str "function"),
    ("function", .obj [("name", .str t.name), ("description", .str t.description),
      ("parameters", t.schema)])]

def architectures : ParameterType := .choice ["v1model", "tna"]

def compile : Tool where
  name := "compile_pne"
  description := "编译PNE文件为P4代码。支持debug模式（单文件编译）和service模式（完整服务编译）。"
  parameters := [
    ⟨"mode", .choice ["debug", "service"], "编译模式：debug模式用于快速测试单个文件，service模式用于完整服务编译"⟩,
    ⟨"input_file", .text, "PNE主文件路径（debug模式必需）"⟩,
    ⟨"config_file", .text, "服务配置文件路径（service模式必需）"⟩,
    ⟨"output_dir", .text, "输出目录路径，默认为./pne_out"⟩,
    ⟨"target", architectures, "目标P4架构，v1model用于软件交换机，tna用于硬件交换机"⟩,
    ⟨"p4_only", .flag, "是否只生成P4文件，不进行后续聚合和输出"⟩,
    ⟨"check", .flag, "是否使用p4test验证生成的P4代码"⟩]
  required := ["mode"]

def deploy : Tool where
  name := "deploy_p4"
  description := "部署P4代码或表项到网络设备。可以部署代码、表项或两者。"
  parameters := [
    ⟨"output_dir", .text, "包含P4文件的输出目录"⟩,
    ⟨"deploy_type", .choice ["code", "entry", "both"], "部署类型：code表示部署P4代码，entry表示部署表项，both表示两者都部署"⟩,
    ⟨"nodes", .texts, "要部署的节点列表，如果未提供则部署所有节点"⟩,
    ⟨"port", .number, "目标设备端口，默认为13345"⟩]
  required := ["output_dir", "deploy_type"]

def analyze : Tool where
  name := "analyze_pne"
  description := "分析PNE代码结构，包括语法检查、服务/应用/模块提取、依赖关系分析等。"
  parameters := [
    ⟨"input_file", .text, "要分析的PNE文件路径"⟩,
    ⟨"analysis_type", .choice ["syntax", "structure", "dependencies", "all"],
      "分析类型：syntax仅检查语法，structure提取代码结构，dependencies分析依赖关系，all执行全部分析"⟩]
  required := ["input_file"]

def checkStatus : Tool where
  name := "check_compile_status"
  description := "查询编译任务的状态和结果。"
  parameters := [⟨"task_id", .text, "编译任务ID"⟩]
  required := ["task_id"]

def validate : Tool where
  name := "validate_p4"
  description := "使用p4test验证P4代码的正确性。"
  parameters := [⟨"p4_file", .text, "要验证的P4文件路径"⟩, ⟨"target", architectures, "目标架构"⟩]
  required := ["p4_file"]

/-- All tools, in the order in which they are offered. -/
def all : List Tool := [compile, deploy, analyze, checkStatus, validate]

def functions : Json := .arr (all.map function)

end Tool

end Agent

end Pathwise
