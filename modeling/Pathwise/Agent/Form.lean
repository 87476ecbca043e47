import Pathwise.Agent.Desk

/-!
# The forms of requests

The body of a request has to have the form of the request: a field that is required has to be there,
and every field has to hold a value that can be taken for one of its type.  Numbers and truth values
are taken for texts, and lists of pairs for objects.  A field that may be left out has a value that
stands for it.
-/

namespace Pathwise

namespace Agent

namespace Form

abbrev Reader (α : Type) := Json → Except Refusal α

/-- A text; a number or a truth value stands for its own text. -/
def text : Reader String
  | .null => .error .malformed
  | .arr _ => .error .malformed
  | .obj _ => .error .malformed
  | j => .ok j.text

/-- A field that is given as the two items of a value. -/
def pair (j : Json) : Except Mismatch (Option (Json.Key × Json)) := do
  match ← j.items with
  | [k, v] => pure (some (← k.key, v))
  | _ => pure none

/-- The fields with texts for names; of several fields of one name the last one counts. -/
def fieldsOf (ps : List (Json.Key × Json)) : List (String × Json) :=
  (OrderedMap.ofList ps).entries.filterMap fun (k, v) => k.str?.map fun s => (s, v)

def object : Reader Json
  | .obj fs => .ok (.obj fs)
  | j =>
    match j.items.bind fun xs => xs.mapM pair with
    | .error _ => .error .malformed
    | .ok ps =>
      match ps.mapM id with
      | none => .error .malformed
      | some ps => .ok (.obj (fieldsOf ps))

def array {α : Type} (r : Reader α) : Reader (List α)
  | .arr xs => xs.mapM r
  | _ => .error .malformed

def nullable {α : Type} (r : Reader α) : Reader (Option α)
  | .null => .ok none
  | j => some <$> r j

/-- A field that has to be there. -/
def required {α : Type} (body : Json) (k : String) (r : Reader α) : Except Refusal α :=
  match body.field? k with
  | some j => r j
  | none => .error .malformed

/-- A field that may be left out. -/
def optional {α : Type} (body : Json) (k : String) (r : Reader α) (default : α) :
    Except Refusal α :=
  match body.field? k with
  | some j => r j
  | none => .ok default

/-- The field `options` and its like: an object that may be left out and may be nothing. -/
def options (body : Json) (k : String) : Except Refusal (Option Json) :=
  optional body k (nullable object) (some (.obj []))

end Form

structure CompileForm where
  mode : String
  inputFile : Option String
  configFile : Option String
  outputDir : String
  target : String
  options : Option Json
deriving Inhabited

namespace CompileForm

def read (body : Json) : Except Refusal CompileForm := do
  pure {
    mode := ← Form.required body "mode" Form.text
    inputFile := ← Form.optional body "input_file" (Form.nullable Form.text) none
    configFile := ← Form.optional body "config_file" (Form.nullable Form.text) none
    outputDir := ← Form.optional body "output_dir" Form.text "./pne_out"
    target := ← Form.optional body "target" Form.text "v1model"
    options := ← Form.options body "options" }

end CompileForm

structure DeployForm where
  taskId : Option String
  outputDir : Option String
  deployType : String
  nodes : Option (List String)
  options : Option Json
deriving Inhabited

namespace DeployForm

def read (body : Json) : Except Refusal DeployForm := do
  pure {
    taskId := ← Form.optional body "task_id" (Form.nullable Form.text) none
    outputDir := ← Form.optional body "output_dir" (Form.nullable Form.text) none
    deployType := ← Form.required body "deploy_type" Form.text
    nodes := ← Form.optional body "nodes" (Form.nullable (Form.array Form.text)) none
    options := ← Form.options body "options" }

end DeployForm

structure AnalyzeForm where
  inputFile : String
  analysisType : String
deriving Inhabited

namespace AnalyzeForm

def read (body : Json) : Except Refusal AnalyzeForm := do
  pure {
    inputFile := ← Form.required body "input_file" Form.text
    analysisType := ← Form.optional body "analysis_type" Form.text "all" }

end AnalyzeForm

structure QueryForm where
  query : String
  context : Option Json
deriving Inhabited

namespace QueryForm

def read (body : Json) : Except Refusal QueryForm := do
  pure {
    query := ← Form.required body "query" Form.text
    context := ← Form.options body "context" }

end QueryForm

structure ChatForm where
  message : String
  sessionId : Option String
  history : Option (List Json)
deriving Inhabited

namespace ChatForm

def read (body : Json) : Except Refusal ChatForm := do
  pure {
    message := ← Form.required body "message" Form.text
    sessionId := ← Form.optional body "session_id" (Form.nullable Form.text) none
    history := ← Form.optional body "history" (Form.nullable (Form.array Form.object)) (some []) }

end ChatForm

end Agent

end Pathwise
