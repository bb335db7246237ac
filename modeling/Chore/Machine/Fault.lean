import Chore.Journal
import Chore.Token

/-!
# Faults, effects and entries

What one instruction can come to: an `Effect`, which says where the program goes on, or a `Fault`,
which ends it. An `Entry` is the full account of one instruction: what it pushed, popped and
noted, in order, and what it came to.
-/

set_option autoImplicit false

namespace Chore

/-- Why an instruction failed. Kinds are listed bottom first. -/
inductive Fault where
  | popFailed
  | pushFailed
  | wrongKind (op : Word) (found : List Kind)
  | integerOverflow
  | unknownOperator (name : String)
  | unknownVariable (name : String)
  | emptyCallStack
  | negativeCount (n : Int64)
  | unresolvedJump
  | toolFailed (reason : String)
  | output (reason : String)
  | unreachable
  deriving DecidableEq

/-- The wording of a fault. -/
def Fault.message : Fault → String
  | popFailed => "Removing from an empty stack"
  | pushFailed => "Adding to a full stack"
  | wrongKind op found => s!"`{op.spelling}` cannot be applied to {Kind.showList found}"
  | integerOverflow => "Integer overflow"
  | unknownOperator name => s!"Unknown operator `{name}`"
  | unknownVariable name => s!"Unknown variable `{name}`"
  | emptyCallStack => "Returning with an empty call stack"
  | negativeCount n => s!"Negative value used as a count: {Text.showInt n}"
  | unresolvedJump => "Jump target was never resolved"
  | toolFailed reason => s!"Tool failed: {reason}"
  | output reason => s!"Failed to write output: {reason}"
  | unreachable => "Internal error in the runtime"

/-- Where the program goes on after an instruction. -/
inductive Effect where
  | next
  | jump (target : Nat)
  | call (target : Nat)
  | exit
  deriving DecidableEq

/-- Something an instruction did. -/
inductive Event where
  | pushed (v : Value)
  | popped (v : Value)
  | noted (n : Note)
  deriving DecidableEq

/-- The account of one instruction. -/
structure Entry where
  ip : Nat
  token : Token
  events : List Event
  outcome : Except Fault Effect

end Chore
