import Pathwise.Session

/-!
# Drafts

A text that is being written.  Writing may report on the console and stop, and what was written
until then stays.
-/

namespace Pathwise

structure Draft where
  console : String
  text : String
deriving Inhabited

abbrev Drafting := EStateM Fault Draft

namespace Drafting

instance : MonadLift Report Drafting where
  monadLift x := fun s =>
    match x s.console with
    | .ok a c => .ok a { s with console := c }
    | .error e c => .error e { s with console := c }

def write (text : String) : Drafting Unit :=
  modify fun s => { s with text := s.text ++ text }

end Drafting

namespace Run

def draft {α : Type} (path : String) (x : Drafting α) : Run α := do
  append path ""
  match x ⟨(← get).console, ""⟩ with
  | .ok a d =>
    modify fun s => { s with console := d.console }
    append path d.text
    pure a
  | .error e d =>
    modify fun s => { s with console := d.console }
    append path d.text
    throw e

end Run

end Pathwise
