import Pathwise.Syntax.Parse
import Pathwise.Disk
import Pathwise.Json.Access
import Pathwise.Json.Reader

/-!
# Faults

Why a run ends before its end.  Most refusals of a program are reported on the console and then stop
the run (`Fault.halted`); the other causes carry what is wrong with them.
-/

namespace Pathwise

/-- What can be wrong with a number that is to stand for an open file. -/
inductive DescriptorError where
  | notOpen
  | notDirectory
  | negative
  | tooGreat
  | tooSmall
deriving Repr, DecidableEq, Inhabited

namespace DescriptorError

def message : DescriptorError → String
  | notOpen => "[Errno 9] Bad file descriptor"
  | notDirectory => DiskError.notDirectory.message
  | negative => "negative file descriptor"
  | tooGreat => "fd is greater than maximum"
  | tooSmall => "fd is less than minimum"

end DescriptorError

inductive Fault where
  /-- a refusal was reported on the console -/
  | halted
  /-- the command line ended the run with an exit code -/
  | exited (code : Nat)
  /-- a syntax tree does not have the expected shape -/
  | shape (e : ShapeError)
  /-- a text does not belong to its language -/
  | refusedText (e : SyntaxError)
  /-- a table has no entry under the key -/
  | missingKey (key : String)
  /-- a list is too short -/
  | outOfRange
  /-- a text does not stand for a whole number -/
  | notInteger (e : Text.IntegerError)
  /-- a name stands for a number of fragments and not for a fragment -/
  | notAFragment
  /-- calls are nested too deeply -/
  | tooDeep
  /-- the file or directory at a path cannot be opened -/
  | disk (e : DiskError) (path : String)
  /-- a number does not stand for an open file of the kind that is needed -/
  | descriptor (e : DescriptorError)
  /-- a file does not hold JSON -/
  | badJson (e : JsonError)
  /-- a configuration value does not have the expected shape -/
  | mismatch (m : Mismatch)
  | notListed (item : String)
  /-- the other side does not take the connection -/
  | refused
  /-- deployment was asked for before anything was compiled -/
  | noTopology
  /-- debug mode was asked for without a program -/
  | noMainFile
deriving Repr, DecidableEq, Inhabited

namespace Fault

/-- The text of a fault, as it is recorded with a failed task. -/
def message : Fault → String
  | halted => ""
  | exited code => toString code
  | shape e => e.message
  | refusedText e => e.message
  | missingKey key => Text.quote key
  | outOfRange => "list index out of range"
  | notInteger e => e.message
  | notAFragment => "'int' object has no attribute 'table_num'"
  | tooDeep => "maximum recursion depth exceeded"
  | disk .nullByte _ => DiskError.nullByte.message
  | disk e path => s!"{e.message}: {Text.quote path}"
  | descriptor e => e.message
  | badJson e => e.message
  | mismatch m => m.message
  | notListed item => s!"{Text.quote item} is not in list"
  | refused => "[Errno 111] Connection refused"
  | noTopology => "'LynetteRunner' object has no attribute 'topo'"
  | noMainFile => "expected str, bytes or os.PathLike object, not NoneType"

/-- Whether a number is small enough to stand for an open file. -/
def isDescriptor (n : Int) : Bool :=
  -(Nat.pow 2 31 : Int) ≤ n && n < Nat.pow 2 31

/-- The number of a value that may stand for an open file. -/
def descriptor? : Json → Option Int
  | .int n => some n
  | .bool b => some (if b then 1 else 0)
  | _ => none

/-- Why a value that is no text cannot be opened as a file. -/
def ofOpening (j : Json) : Fault :=
  match descriptor? j with
  | some n =>
    if !isDescriptor n then mismatch (.notPath j.kind)
    else if n < 0 then descriptor .negative
    else descriptor .notOpen
  | none => mismatch (.notPath j.kind)

/-- How many files are open in any case. -/
def openFiles : Int := 6

/--
Why the files in a directory that is given by a value that is no text cannot be removed.  Null and
-1 stand for the current directory, whose files are then not found.
-/
def ofListing (j : Json) : Fault :=
  match j, descriptor? j with
  | .null, _ => mismatch (.notPath j.kind)
  | _, some n =>
    if n = -1 then mismatch (.notPath j.kind)
    else if !isDescriptor n then descriptor (if n < 0 then .tooSmall else .tooGreat)
    else if 0 ≤ n && n < openFiles then descriptor .notDirectory
    else descriptor .notOpen
  | _, none => mismatch (.noDirectory j.kind)

/-- Whether a fault ends the whole run, so that nothing carries on after it. -/
def isExit : Fault → Bool
  | halted => true
  | exited _ => true
  | _ => false

end Fault

instance {σ : Type} : MonadLift (Except ShapeError) (EStateM Fault σ) where
  monadLift
    | .ok a => pure a
    | .error e => throw (.shape e)

instance {σ : Type} : MonadLift (Except Mismatch) (EStateM Fault σ) where
  monadLift
    | .ok a => pure a
    | .error e => throw (.mismatch e)

instance {σ : Type} : MonadLift (Except Fault) (EStateM Fault σ) where
  monadLift
    | .ok a => pure a
    | .error e => throw e

/-- A step that may report on the console, whose text is the state, and may stop. -/
abbrev Report := EStateM Fault String

namespace Report

def say (line : String) : Report Unit :=
  modify (· ++ line ++ "\n")

def halt {α : Type} (line : String) : Report α := do
  say line
  throw .halted

end Report

end Pathwise
