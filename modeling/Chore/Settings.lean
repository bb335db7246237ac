import Chore.Journal
import Chore.Machine.Run
import Chore.Text.Blank
import Chore.Text.Decimal

/-!
# Settings

The settings of a run that come from environment variables: how much is noted, and the default
limits. A variable that is not set, or blank, gives the default; one that is not a number of its
range is ignored with a warning. Underscores in a number are skipped.
-/

set_option autoImplicit false

namespace Chore

/-- Settings read from the environment. -/
structure Settings where
  verbosity : Nat := 1
  limits : Machine.Limits := { stack := 0x100000, steps := UInt64.size - 1 }
  deriving DecidableEq

namespace Settings

/-- Whether notes of a level are wanted. -/
def shouldLog (s : Settings) (level : Nat) : Bool :=
  level ≤ s.verbosity

/-- The warning for a variable that is ignored. -/
def warning (key value : String) (e : Text.NumberError) : Note :=
  { level := .warn, message := s!"Ignoring env var {key} with value {value}: {e.message}" }

/-- Reads a number from a variable's text: absent for the default, with a warning if it is no
number up to the limit. -/
def readNumber (key : String) (limit : Nat) (text : String) : Option Nat × List Note :=
  let value := Text.trim text
  if value = "" then (none, [])
  else
    match Text.readUnsigned limit (value.toList.filter (· ≠ '_')) with
    | .ok n => (some n, [])
    | .error e => (none, [warning key value e])

/-- Reads a number from a variable, or takes the default. -/
def readVariable (env : String → Option String) (key : String) (limit default : Nat) :
    Nat × List Note :=
  match env key with
  | none => (default, [])
  | some text =>
    let (n?, notes) := readNumber key limit text
    (n?.getD default, notes)

/-- The variables that settings are read from. -/
def keys : List String :=
  ["SHOVEL_VERBOSITY", "SHOVEL_MAX_STACK_SIZE", "SHOVEL_MAX_OP_COUNT"]

/-- Reads the settings from an environment, with the warnings in order. -/
def ofEnvironment (env : String → Option String) : Settings × List Note :=
  let defaults : Settings := {}
  let (verbosity, a) := readVariable env "SHOVEL_VERBOSITY" (UInt8.size - 1) defaults.verbosity
  let (stack, b) := readVariable env "SHOVEL_MAX_STACK_SIZE" (UInt64.size - 1) defaults.limits.stack
  let (steps, c) := readVariable env "SHOVEL_MAX_OP_COUNT" (UInt64.size - 1) defaults.limits.steps
  ({ verbosity, limits := { stack, steps } }, a ++ b ++ c)

end Settings

end Chore
