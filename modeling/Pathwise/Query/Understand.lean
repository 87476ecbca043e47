import Pathwise.Json.Access
import Pathwise.Query.Vocabulary

/-!
# Understanding requests

A request in natural language is understood as a wish with parameters, and with a measure of how
sure that is.
-/

namespace Pathwise

namespace Query

/-- What a request was understood as; the confidence is in tenths. -/
structure Understanding where
  intent : Intent
  parameters : OrderedMap String Json
  confidence : Nat
deriving Inhabited

def priorities : List Intent := [.checkStatus, .validate, .analyze, .deploy, .compile]

def classify (t : List Char) : Intent :=
  (priorities.find? fun i => i.patterns.any fun p => p.occursIn t).getD .unknown

/-- A character in lower case, as far as ASCII letters come out. -/
def lowerChar (c : Char) : List Char :=
  if c.isUpper then [c.toLower]
  else if c = 'İ' then ['i', '̇']
  else if c = 'K' then ['k']
  else [c]

/-- Whether a text holds an English word in any case. -/
def mentions (t : List Char) (word : String) : Bool :=
  Json.occursIn word.toList (t.flatMap lowerChar)

def holds (t : List Char) (word : String) : Bool :=
  Json.occursIn word.toList t

/-- A parameter that was found, under the name it is passed on with. -/
def named (name : String) (value : Option String) : List (String × Json) :=
  match value with
  | some v => [(name, .str v)]
  | none => []

/-- Whether a whole service or a single program is to be compiled. -/
def compileMode (t : List Char) (file : Option String) : List (String × Json) :=
  if mentions t "service" || mentions t "config" then [("mode", .str "service")]
  else if file.isSome then [("mode", .str "debug")]
  else []

def analysisType (t : List Char) : String :=
  if holds t "语法" || mentions t "syntax" then "syntax"
  else if holds t "依赖" || mentions t "dependencies" then "dependencies"
  else if holds t "结构" || mentions t "structure" then "structure"
  else "all"

def programPath : Pattern := .capture (.seq (.many1 .pathPart) (.exactText ".p4"))

def parameters (t : List Char) (i : Intent) : OrderedMap String Json :=
  .ofList <| match i with
  | .compile =>
    let file := Parameter.filePath.first? t
    named "input_file" file ++ named "config_file" (Parameter.configFile.first? t) ++
      named "output_dir" (Parameter.outputDir.first? t) ++ named "target"
        (Parameter.target.first? t) ++
      compileMode t file
  | .deploy =>
    let nodes := Parameter.node.all? t
    named "output_dir" (Parameter.outputDir.first? t) ++
      [("deploy_type", .str ((Parameter.deployType.first? t).getD "code"))] ++
      (if nodes.isEmpty then [] else [("nodes", .strs nodes)])
  | .analyze =>
    named "input_file" (Parameter.filePath.first? t) ++ [("analysis_type", .str (analysisType t))]
  | .checkStatus => named "task_id" (Parameter.taskId.first? t)
  | .validate =>
    named "p4_file" (programPath.first? t) ++ named "target" (Parameter.target.first? t)
  | .unknown => []

def keyParameters : Intent → List String
  | .compile => ["input_file", "config_file"]
  | .deploy => ["output_dir"]
  | .analyze => ["input_file"]
  | .checkStatus => ["task_id"]
  | _ => []

/-- Words that leave no doubt that something is to be done. -/
def actionWords : List String := ["编译", "部署", "分析", "验证", "检查"]

/-- How sure an understanding is, in tenths. -/
def confidence (t : List Char) (i : Intent) (ps : OrderedMap String Json) : Nat :=
  if i = .unknown then 0
  else 5 + (if (keyParameters i).any ps.contains then 3 else 0) +
    (if actionWords.any (holds t) then 2 else 0)

def confidenceNumber (tenths : Nat) : Json :=
  .real (.ofDecimal false tenths (-1))

def understand (request : String) : Understanding :=
  let t := request.toList
  let i := classify t
  let ps := parameters t i
  ⟨i, ps, confidence t i ps⟩

end Query

end Pathwise
