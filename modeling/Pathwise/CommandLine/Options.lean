import Pathwise.Text.Integer

/-!
# Options

Command lines made of long options only.  An option may be cut short as long as it stays
unambiguous, its value is the next argument or stands behind an equals sign, and nothing else is
allowed on the line.
-/

namespace Pathwise

/-- What stands behind an option. -/
inductive OptionValue where
  /-- nothing: the option is there or not -/
  | nothing
  | text
  | number
deriving Repr, DecidableEq, Inhabited

namespace OptionValue

def admits : OptionValue → String → Bool
  | nothing, _ => false
  | text, _ => true
  | number, v =>
    match Text.integer v with
    | .ok _ => true
    | .error _ => false

end OptionValue

structure OptionSpec where
  /-- the name with its two dashes -/
  name : String
  value : OptionValue
deriving Repr, DecidableEq, Inhabited

/-- Why a command line does not lead to a run. -/
inductive UsageError where
  /-- the line does not make sense -/
  | wrong
  /-- the line asks for help -/
  | help
deriving Repr, DecidableEq, Inhabited

namespace UsageError

def code : UsageError → Nat
  | wrong => 2
  | help => 0

end UsageError

inductive Argument where
  /-- an option with the value behind its equals sign -/
  | option (spec : OptionSpec) (value : Option String)
  /-- the short form of asking for help, with what stands behind its letter -/
  | shortHelp (tail : List Char)
  | value (text : String)
  /-- something that looks like an option and is none -/
  | unknown
deriving Repr, Inhabited

namespace Options

def help : OptionSpec := ⟨"--help", .nothing⟩

def allDigits (cs : List Char) : Bool :=
  cs.all Text.isDecimal

/-- Whether a text behind a dash makes a negative number. -/
def isNumber (cs : List Char) : Bool :=
  let front := cs.takeWhile Text.isDecimal
  match cs.drop front.length with
  | [] => !front.isEmpty
  | '.' :: rest => !rest.isEmpty && allDigits rest
  | _ => false

def splitValue (arg : String) : String × Option String :=
  let name := arg.toList.takeWhile (· ≠ '=')
  match arg.toList.drop name.length with
  | [] => (arg, none)
  | _ :: value => (String.ofList name, some (String.ofList value))

/--
Whether the short form of asking for help does so, with more characters behind its letter.  They are
taken for letters of other options, and neither a value nor a dash may be among the first of them.
-/
def asksForHelp : List Char → Bool
  | 'h' :: cs => asksForHelp cs
  | '=' :: _ => false
  | '-' :: _ => false
  | _ => true

def classify (specs : List OptionSpec) (arg : String) : Except UsageError Argument :=
  if !arg.startsWith "-" || arg = "-" then .ok (.value arg)
  else if arg.startsWith "-h" then .ok (.shortHelp (arg.toList.drop 2))
  else
    let (name, value) := splitValue arg
    match specs.find? (·.name = arg) with
    | some s => .ok (.option s none)
    | none =>
      match (if value.isSome then specs.find? (·.name = name) else none) with
      | some s => .ok (.option s value)
      | none =>
        if arg.startsWith "--" then
          match specs.filter fun s => s.name.startsWith name with
          | [s] => .ok (.option s value)
          | _ :: _ :: _ => .error .wrong
          | [] => if arg.contains ' ' then .ok (.value arg) else .ok .unknown
        else if isNumber (arg.toList.drop 1) then .ok (.value arg)
        else if arg.contains ' ' then .ok (.value arg)
        else .ok .unknown

/-- Classifies all arguments; behind two dashes everything is a value. -/
def classifyAll (specs : List OptionSpec) : List String → Except UsageError (List Argument)
  | [] => .ok []
  | "--" :: rest => .ok (.unknown :: rest.map .value)
  | arg :: rest => do
    let a ← classify specs arg
    pure (a :: (← classifyAll specs rest))

/-- Reads the options one after another; `stray` says that something else was on the line. -/
def read (stray : Bool) : List Argument → Except UsageError (List (String × String))
  | [] => if stray then .error .wrong else .ok []
  | .option s (some v) :: rest =>
    if s.value.admits v then do pure ((s.name, v) :: (← read stray rest)) else .error .wrong
  | .option s none :: rest =>
    if s.value = .nothing then
      if s.name = help.name then .error .help
      else do pure ((s.name, "") :: (← read stray rest))
    else
      match rest with
      | .value v :: rest =>
        if s.value.admits v then do pure ((s.name, v) :: (← read stray rest)) else .error .wrong
      | _ => .error .wrong
  | .shortHelp tail :: _ => .error (if asksForHelp tail then .help else .wrong)
  | _ :: rest => read true rest

def parse (specs : List OptionSpec) (args : List String) :
    Except UsageError (List (String × String)) := do
  read false (← classifyAll (help :: specs) args)

def value? (found : List (String × String)) (name : String) : Option String :=
  (found.reverse.find? (·.1 = name)).map (·.2)

def has (found : List (String × String)) (name : String) : Bool :=
  found.any (·.1 = name)

end Options

end Pathwise
