import Chore.Attempt
import Chore.Typing.Effect

/-!
# The type check

The check goes through a linked program once and follows the kinds on the stack. Words that open
or divide a block save the shape they see, and the words that close it compare the shapes of the
paths that meet there. Each procedure body is followed on its own, from its declared inputs to its
declared outputs; a call uses the signature only.

A path that has returned does not take part in the comparison where it would have met another:
the walk carries a flag for it, and so does every saved shape.

Two rules are stricter than the machine: variables hold integers only, and the counts of `dret`
and `iret` are integer literals right in front of them.
-/

set_option autoImplicit false

namespace Chore.Typing

/-- A saved shape: the instruction that saved it, and whether its path had returned. -/
structure Preview where
  shape : Shape
  cause : Token
  causeIndex : Nat
  returned : Bool
  deriving DecidableEq

/-- Where the walk is: the shape of the stack, the saved shapes of the open blocks, innermost
first, and whether this path has returned. -/
structure Walk where
  shape : Shape
  previews : List Preview := []
  returned : Bool := false
  deriving DecidableEq

/-- Takes kinds from the top of a shape: those taken and those left. -/
def take (op : String) (index n : Nat) (shape : Shape) : Except TypeError (Shape × Shape) :=
  if shape.length < n then .error (.underflow op index n shape.length)
  else .ok (shape.take n, shape.drop n)

namespace Walk

/-- Saves a shape for the instruction at an index. -/
def save (w : Walk) (shape : Shape) (cause : Token) (index : Nat) : Walk :=
  { w with previews := ⟨shape, cause, index, w.returned⟩ :: w.previews }

/-- The innermost saved shape and the others. -/
def innermost (w : Walk) (m : Mark) (index : Nat) : Except TypeError (Preview × List Preview) :=
  match w.previews with
  | [] => .error (.noOpenBlock (.mark m) index)
  | p :: ps => .ok (p, ps)

/-- Two paths meet: they must have the same shape. -/
def compare (w : Walk) (m : Mark) (index : Nat) (p : Preview) : Except TypeError Unit :=
  if w.shape = p.shape then .ok ()
  else .error (.shapeMismatch (.mark m) index p.cause p.causeIndex p.shape.reverse
    w.shape.reverse)

/-- `if` and `unless`: the shape behind the condition is that of the other arm too. -/
def branch (w : Walk) (m : Mark) (index : Nat) : Except TypeError Walk := do
  let shape ← (Word.mark m).retype index w.shape
  return save { w with shape } shape m.token index

/-- `while` and `until`: the header is run again with the shape seen here. -/
def header (w : Walk) (m : Mark) (index : Nat) : Walk :=
  w.save w.shape m.token index

/-- `do`: the header must give back the shape it found, less the condition. -/
def test (w : Walk) (index : Nat) : Except TypeError Walk := do
  let shape ← (Word.mark .test).retype index w.shape
  let (p, previews) ← w.innermost .test index
  if p.cause = Mark.whileTrue.token ∨ p.cause = Mark.untilTrue.token then
    if !w.returned then compare { w with shape } .test index p
    return save { shape := p.shape, previews, returned := p.returned } p.shape Mark.test.token
      index
  else .error (.unexpectedCause (.mark .test) index p.cause p.causeIndex)

/-- `else`: goes back to the shape at the condition and saves the one the first arm left. -/
def otherwise (w : Walk) (index : Nat) : Except TypeError Walk := do
  let (p, previews) ← w.innermost .otherwise index
  if p.cause = Mark.onTrue.token ∨ p.cause = Mark.onFalse.token then
    return {
      shape := p.shape
      previews := ⟨w.shape, Mark.otherwise.token, index, w.returned⟩ :: previews
      returned := p.returned }
  else .error (.unexpectedCause (.mark .otherwise) index p.cause p.causeIndex)

/-- Whether `end` can close what the instruction opened. -/
def joins (cause : Token) : Bool :=
  cause = Mark.onTrue.token || cause = Mark.onFalse.token || cause = Mark.otherwise.token
    || cause = Mark.test.token

/-- `end`: the paths that have not returned agree on the shape. A loop is left at its `do`, so
what follows it can be reached. -/
def close (w : Walk) (index : Nat) : Except TypeError Walk := do
  let (p, previews) ← w.innermost .close index
  if joins p.cause then
    if !w.returned && !p.returned then w.compare .close index p
    let joined : Walk :=
      if w.returned then { shape := p.shape, previews, returned := p.returned }
      else { w with previews }
    return if p.cause = Mark.test.token then { joined with returned := false } else joined
  else .error (.unsupportedJoin p.cause p.causeIndex)

/-- A return: the shape left behind must be that of the declared outputs. -/
def returns (procedure : Procedure) (index : Nat) (shape : Shape) : Except TypeError Unit :=
  if shape.reverse = procedure.signature.outputs then .ok ()
  else .error (.signatureMismatch procedure.name index procedure.signature.outputs shape.reverse)

/-- The count written as a literal `back` instructions before an index of a procedure body. -/
def literalCount? (program : Program) (procedure : Procedure) (index back : Nat) : Option Nat :=
  if back ≤ index ∧ procedure.start ≤ index - back then
    match program.instructions[index - back]? with
    | some { token := .literal (.int n), .. } => if 0 ≤ n.toInt then some n.toInt.toNat else none
    | _ => none
  else none

/-- The shape `dret` leaves: its literal count says how many values go. -/
def dropRet (program : Program) (procedure : Procedure) (index : Nat) (shape : Shape) :
    Except TypeError Shape := do
  let op := Word.leave .dropRet
  match literalCount? program procedure index 1 with
  | none => .error (.countNotLiteral op index)
  | some drop =>
    let (_, shape) ← take op.spelling index 1 shape
    let (_, shape) ← take op.spelling index drop shape
    return shape

/-- The shape `iret` leaves: its literal counts say how many values stay and how many below them
go. -/
def keepRet (program : Program) (procedure : Procedure) (index : Nat) (shape : Shape) :
    Except TypeError Shape := do
  let op := Word.leave .keepRet
  match literalCount? program procedure index 1, literalCount? program procedure index 2 with
  | some drop, some keep =>
    let (_, shape) ← take op.spelling index 2 shape
    let (kept, shape) ← take op.spelling index keep shape
    let (_, shape) ← take op.spelling index drop shape
    return kept ++ shape
  | _, _ => .error (.countNotLiteral op index)

/-- A word that leaves a procedure, or the program. -/
def leave (program : Program) (procedure : Option Procedure) (w : Walk) (index : Nat)
    (l : Leave) : Except TypeError Walk :=
  match l, procedure with
  | .exit, _ => .ok w
  | l, none => .error (.returnOutside (.leave l) index)
  | .ret, some p => do
    returns p index w.shape
    return { w with returned := true }
  | .dropRet, some p => do
    returns p index (← dropRet program p index w.shape)
    return { w with returned := true }
  | .keepRet, some p => do
    returns p index (← keepRet program p index w.shape)
    return { w with returned := true }

/-- A call: the declared inputs on top are replaced by the declared outputs. -/
def call (program : Program) (w : Walk) (index : Nat) (name : String) : Except TypeError Walk :=
  match program.procedure? name with
  | none => .error (.unknownWord name index)
  | some p => do
    let (found, rest) ← take name index p.signature.inputs.length w.shape
    if found.reverse = p.signature.inputs then
      return { w with shape := p.signature.outputs.reverse ++ rest }
    else .error (.callMismatch name index p.signature.inputs found.reverse)

/-- A built-in word. -/
def word (program : Program) (procedure : Option Procedure) (w : Walk) (index : Nat) :
    Word → Except TypeError Walk
  | .mark .onTrue => w.branch .onTrue index
  | .mark .onFalse => w.branch .onFalse index
  | .mark .whileTrue => .ok (w.header .whileTrue index)
  | .mark .untilTrue => .ok (w.header .untilTrue index)
  | .mark .test => w.test index
  | .mark .otherwise => w.otherwise index
  | .mark .close => w.close index
  | .leave l => w.leave program procedure index l
  | op => do return { w with shape := ← op.retype index w.shape }

/-- One instruction, inside a procedure or outside of all. -/
def step (program : Program) (procedure : Option Procedure) (w : Walk) (index : Nat)
    (instr : Instr) : Except TypeError Walk :=
  if instr.token.isOpener && instr.next.isNone then
    .error (.unresolvedJump instr.token.display index)
  else
    match instr.token with
    | .literal v => .ok { w with shape := v.kind :: w.shape }
    | .name name => w.call program index name
    | .header sig => .error (.nestedProcedure sig.name index)
    | .word op => w.word program procedure index op

/-- Instructions in a row, the first of which stands at an index. -/
def steps (program : Program) (procedure : Option Procedure) (w : Walk) (index : Nat) :
    List Instr → Except TypeError Walk
  | [] => .ok w
  | i :: is => do
    let w ← w.step program procedure index i
    steps program procedure w (index + 1) is

/-- At the end every block must be closed. -/
def finish (w : Walk) : Except TypeError Unit :=
  match w.previews with
  | [] => .ok ()
  | p :: _ => .error (.unclosedBlock p.cause p.causeIndex)

end Walk

/-- The body of a procedure, without the `end` behind it. -/
def bodyOf (program : Program) (p : Procedure) : List Instr :=
  (program.instructions.extract p.start p.stop).toList

/-- Checks a procedure body against its signature. -/
def checkProcedure (program : Program) (p : Procedure) : Except TypeError Unit := do
  let start : Walk := { shape := p.signature.inputs.reverse }
  let w ← start.steps program (some p) p.start (bodyOf program p)
  if !w.returned then Walk.returns p p.stop w.shape
  w.finish

/-- Goes through the instructions outside of procedures from an index on; at a header it checks
the procedure and goes on behind it. The state collects the procedures looked at, last first. The
first argument bounds the number of instructions. -/
def walk (program : Program) : Nat → Nat → Walk → Attempt (List Procedure) TypeError Walk
  | 0, index, w => if index < program.size then .fail (.endless index) else pure w
  | fuel + 1, index, w =>
    match program.instructions[index]? with
    | none => pure w
    | some { token := .header sig, next, .. } =>
      match program.procedure? sig.name with
      | none => .fail (.unresolvedJump sig.name index)
      | some p => do
        .modify (p :: ·)
        .ofExcept (checkProcedure program p)
        match next with
        | none => .fail (.unresolvedJump sig.name index)
        | some target => walk program fuel target w
    | some instr => do
      let w ← .ofExcept (w.step program none index instr)
      walk program fuel (index + 1) w

/-- Enough steps for every walk that ends: a program whose headers jump forward takes at most one
per instruction, and one that jumps back can only go on while the stack lasts. -/
def walkBound (program : Program) : Nat :=
  let pushed := program.procedures.foldl (fun n p => n + p.signature.outputs.length) 0
  (program.size + pushed + 1) * (program.size + pushed + 1)

/-- The whole check, with the procedures it looked at, last first. -/
def checkSeeing (program : Program) : Attempt (List Procedure) TypeError Unit := do
  let w ← walk program (walkBound program) 0 { shape := [] }
  .ofExcept w.finish

/-- Checks a linked program. -/
def check (program : Program) : Except TypeError Unit :=
  (checkSeeing program []).1

end Chore.Typing
