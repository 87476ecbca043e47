import Pathwise.Query.Pattern

/-!
# The vocabulary of requests

What users say when they want something, and how they name files, directories, targets, nodes and
tasks.
-/

namespace Pathwise

namespace Query

open Pattern

inductive Intent where
  | compile
  | deploy
  | analyze
  | validate
  | checkStatus
  | unknown
deriving Repr, DecidableEq, Inhabited

namespace Intent

def all : List Intent := [compile, deploy, analyze, validate, checkStatus, unknown]

def name : Intent → String
  | compile => "compile"
  | deploy => "deploy"
  | analyze => "analyze"
  | validate => "validate"
  | checkStatus => "check_status"
  | unknown => "unknown"

def ofName? (s : String) : Option Intent :=
  all.find? (·.name = s)

def words : Intent → List String
  | compile => ["编译", "生成", "转换", "compile", "generate", "convert"]
  | deploy => ["部署", "发送", "上传", "deploy", "send", "upload"]
  | analyze => ["分析", "检查", "查看", "analyze", "check", "view"]
  | validate => ["验证", "校验", "validate", "verify"]
  | checkStatus => ["状态", "进度", "结果", "status", "progress", "result"]
  | unknown => []

def frames : Intent → List (String × String)
  | compile => [("把", "编译成"), ("将", "转换为"), ("把", "转成")]
  | checkStatus => [("查询", "状态"), ("查看", "进度")]
  | _ => []

def patterns (i : Intent) : List Pattern :=
  i.words.map text ++ i.frames.map fun (a, b) => chain [text a, many .any, text b]

end Intent

inductive Parameter where
  | filePath
  | configFile
  | outputDir
  | target
  | node
  | deployType
  | taskId
deriving Repr, DecidableEq, Inhabited

namespace Parameter

def all : List Parameter := [filePath, configFile, outputDir, target, node, deployType, taskId]

def name : Parameter → String
  | filePath => "file_path"
  | configFile => "config_file"
  | outputDir => "output_dir"
  | target => "target"
  | node => "node"
  | deployType => "deploy_type"
  | taskId => "task_id"

def ofName? (s : String) : Option Parameter :=
  all.find? (·.name = s)

/-- A colon, of either width, and blanks behind it. -/
def colon : Pattern := seq (one (.oneOf ['：', ':'])) (many .blank)

def pathEnding (ending : String) : Pattern := seq (many1 .pathPart) (text ending)

def labelled (label value : Pattern) : Pattern := chain [label, colon, capture value]

def architecture : Pattern := choice [text "v1model", text "tna"]

def patterns : Parameter → List Pattern
  | filePath => [capture (pathEnding ".pne"), labelled (text "文件") (pathEnding ".pne"),
      capture (pathEnding "_main.pne")]
  | configFile => [
      labelled (seq (text "配置") (optional (one (.oneOf ['文', '件'])))) (pathEnding ".json"),
      text "service.json", capture (pathEnding "service.json")]
  | outputDir => [labelled (choice [text "输出到", text "输出目录", text "output"]) (many1 .pathPart),
      labelled (text "输出") (many1 .pathPart)]
  | target => [labelled (choice [text "目标", text "架构", text "target"]) architecture,
    capture architecture]
  | node => [labelled (choice [text "节点", text "node"]) (many1 .word),
    labelled (text "节点") (many1 .word)]
  | deployType => [
      seq (choice [text "部署", text "发送"])
        (optional (choice [text "代码", text "表项", text "entry", text "code"])),
      capture (choice [text "code", text "entry", text "both"])]
  | taskId => [labelled (seq (text "任务") (optional (one (.oneOf ['I', 'D'])))) (many1 .identifier),
      labelled (text "task") (many1 .identifier)]

/-- What a request says about a parameter, by the first pattern that matches. -/
def first? (p : Parameter) (t : List Char) : Option String :=
  p.patterns.findSome? fun q => q.first? t

/-- Everything that a request says about a parameter, each value once. -/
def all? (p : Parameter) (t : List Char) : List String :=
  (p.patterns.flatMap fun q => q.all t).foldl
    (fun acc v => if acc.contains v then acc else acc ++ [v]) []

end Parameter

end Query

end Pathwise
