/-!
# Journal notes

Notes about the work in progress: a level, a message, and named fields in a fixed order. A note's
line is its level, its message, and `name=value` for every field, with single blanks.
-/

set_option autoImplicit false

namespace Chore

/-- How much a note matters. -/
inductive Level where
  | trace
  | debug
  | warn
  deriving DecidableEq

/-- The name of a level. -/
def Level.name : Level → String
  | trace => "TRACE"
  | debug => "DEBUG"
  | warn => "WARN"

/-- One note. -/
structure Note where
  level : Level
  message : String
  fields : List (String × String) := []
  deriving DecidableEq

/-- A note as one line of text. -/
def Note.line (n : Note) : String :=
  " ".intercalate (n.level.name :: n.message :: n.fields.map fun f => f.1 ++ "=" ++ f.2)

/-- A note for whoever looks for a fault. -/
def Note.debug (message : String) (fields : List (String × String)) : Note :=
  { level := .debug, message, fields }

/-- A note on a single step. -/
def Note.trace (message : String) (fields : List (String × String)) : Note :=
  { level := .trace, message, fields }

end Chore
