import Chore.Token

/-!
# Linked programs

A linked program is a flat list of instructions, where every word of a block's frame knows the
index it may jump to, together with a table of the procedures declared in it. Indices count
instructions from zero.
-/

set_option autoImplicit false

namespace Chore

/-- Which outcome of its test keeps a loop going. -/
inductive LoopKind where
  | whileTrue
  | untilTrue
  deriving DecidableEq

/-- The word that opens a loop. -/
def LoopKind.mark : LoopKind → Mark
  | whileTrue => .whileTrue
  | untilTrue => .untilTrue

/-- The outcome of the test that keeps the loop going. -/
def LoopKind.goesOn : LoopKind → Bool
  | whileTrue => true
  | untilTrue => false

/-- What an `end` closes: a branch, which is simply left; a loop, whose header is run again; or a
procedure body, which returns. -/
inductive Closing where
  | branch
  | loop (header : Nat)
  | procedure
  deriving DecidableEq

/-- What an instruction does for the block it belongs to. -/
inductive Role where
  | plain
  | test (kind : LoopKind) (header : Nat)
  | close (what : Closing)
  deriving DecidableEq

/-- One instruction: its token, its jump target if it has one, and its role. -/
structure Instr where
  token : Token
  next : Option Nat := none
  role : Role := .plain
  deriving DecidableEq

/-- A declared procedure: the index its body starts at and the index of the `end` behind it. -/
structure Procedure where
  start : Nat
  stop : Nat
  signature : Signature
  deriving DecidableEq

/-- The name a procedure is called by. -/
def Procedure.name (p : Procedure) : String :=
  p.signature.name

/-- A linked program. -/
structure Program where
  instructions : Array Instr
  procedures : List Procedure
  deriving DecidableEq

namespace Program

/-- The number of instructions. -/
def size (p : Program) : Nat :=
  p.instructions.size

/-- The procedure of a given name. -/
def procedure? (p : Program) (name : String) : Option Procedure :=
  p.procedures.find? fun q => q.name == name

end Program

end Chore
