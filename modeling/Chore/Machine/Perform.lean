import Chore.Attempt
import Chore.Memory
import Chore.Program
import Chore.Stack
import Chore.File.Path
import Chore.Machine.Host
import Chore.Machine.Operators

/-!
# Single instructions

What one instruction does: it takes values from the stack, one at a time, works on them, and puts
the results back. Every value that moves is recorded as an event, and a fault in the middle leaves
what was done before it. A push fails when the stack is full, however many more would follow.

The stack, the pending return addresses, the variables and the outside world together are the
`Store`; `Setup` holds what stays fixed during a run.
-/

set_option autoImplicit false

namespace Chore.Machine

variable {ω : Type}

/-- What an instruction may change. -/
structure Store (ω : Type) where
  stack : Stack Value := .empty
  calls : Stack Nat := .empty
  memory : Memory := {}
  world : ω

/-- A store in the middle of an instruction, with the events so far, latest first. -/
structure Scene (ω : Type) extends Store ω where
  events : List Event := []

/-- What stays fixed during a run: the program, the outside world's answers, and the largest size
of the stack and of the pending returns. -/
structure Setup (ω : Type) where
  program : Program
  host : Host ω
  limit : Nat

/-- A part of an instruction. -/
abbrev Action (ω α : Type) : Type :=
  Attempt (Scene ω) Fault α

/-- Takes the top value. -/
def pop : Action ω Value := fun s =>
  match s.stack.pop? with
  | none => (.error .popFailed, s)
  | some (v, stack) => (.ok v, { s with stack, events := .popped v :: s.events })

/-- Puts a value on top. -/
def push (c : Setup ω) (v : Value) : Action ω Unit := fun s =>
  if s.stack.size < c.limit then
    (.ok (), { s with stack := s.stack.push v, events := .pushed v :: s.events })
  else (.error .pushFailed, s)

/-- Puts values on top, the first of the list first. -/
def pushAll (c : Setup ω) : List Value → Action ω Unit
  | [] => pure ()
  | v :: vs => do
    push c v
    pushAll c vs

/-- The value at a depth, which stays there. -/
def peek (depth : Nat) : Action ω Value := fun s =>
  match s.stack.peek? depth with
  | none => (.error .popFailed, s)
  | some v => (.ok v, s)

/-- Takes values, the top one first. -/
def popMany : Nat → Action ω (List Value)
  | 0 => pure []
  | n + 1 => do
    let v ← pop
    return v :: (← popMany n)

/-- Adds a note. -/
def note (n : Note) : Action ω Unit :=
  .modify fun s => { s with events := .noted n :: s.events }

/-- Takes an integer for a word. -/
def popInt (op : Word) : Action ω Int64 := do
  match ← pop with
  | .int n => return n
  | v => .fail (.wrongKind op [v.kind])

/-- Takes a text for a word. -/
def popText (op : Word) : Action ω String := do
  match ← pop with
  | .text s => return s
  | v => .fail (.wrongKind op [v.kind])

/-- Takes a path for a word. -/
def popPath (op : Word) : Action ω String := do
  match ← pop with
  | .path p => return p
  | v => .fail (.wrongKind op [v.kind])

/-- Takes a text or a path for a word. -/
def popLocation (op : Word) : Action ω String := do
  match ← pop with
  | .text s => return s
  | .path p => return p
  | v => .fail (.wrongKind op [v.kind])

/-- Takes a condition for a word. -/
def popCondition (op : Word) : Action ω Bool := do
  let v ← pop
  match v.truthy with
  | some b => return b
  | none => .fail (.wrongKind op [v.kind])

/-- Takes a count for a word: an integer that is not negative. -/
def popCount (op : Word) : Action ω Nat := do
  let n ← popInt op
  if 0 ≤ n.toInt then return n.toInt.toNat else .fail (.negativeCount n)

/-- Takes two operands and pushes the result of an operator on them. -/
def binary (c : Setup ω) (f : Value → Value → Except Fault Value) : Action ω Unit := do
  let top ← pop
  let beneath ← pop
  push c (← .ofExcept (f beneath top))

/-- Prints the top value on a line of its own. -/
def print (c : Setup ω) : Action ω Unit := do
  let v ← pop
  fun s =>
    match c.host.write (v.display ++ "\n") s.world with
    | (.ok (), world) => (.ok (), { s with world })
    | (.error reason, world) => (.error (.output reason), { s with world })

/-- The words that turn a value into one of another kind. -/
def convert (c : Setup ω) (w : Conversion) : Action ω Unit := do
  let op := Word.convert w
  match w with
  | .toText => push c (.text (← pop).display)
  | .toPath => push c (.path (← popText op))
  | .absolute =>
    let path ← popLocation op
    push c (.path (Path.absolute (c.host.here? (← .get).world) path))
  | .relative =>
    let path ← popLocation op
    push c (.path (Path.relative (c.host.here? (← .get).world) path))
  | .concat =>
    let suffix ← popText op
    match ← pop with
    | .text s => push c (.text (s ++ suffix))
    | .path p => push c (.path (p ++ suffix))
    | v => .fail (.wrongKind op [v.kind, .text])

/-- The words for variables. -/
def access (c : Setup ω) (w : Access) : Action ω Unit := do
  let name ← popText (.access w)
  match w with
  | .store =>
    let v ← pop
    .modify fun s => { s with memory := s.memory.store name v }
  | .load =>
    match (← .get).memory.load name with
    | some v => push c v
    | none => .fail (.unknownVariable name)

/-- The words that rearrange the stack. Those that copy values only look at them. -/
def shuffle (c : Setup ω) : Shuffle → Action ω Unit
  | .dup => do
    let a ← peek 0
    push c a
  | .drop => do
    let _ ← pop
  | .swap => do
    let a ← pop
    let b ← pop
    pushAll c [a, b]
  | .over => do
    let a ← peek 1
    push c a
  | .dup2 => do
    let a ← peek 1
    let b ← peek 0
    pushAll c [a, b]
  | .swap2 => do
    let w ← pop
    let x ← pop
    let y ← pop
    let z ← pop
    pushAll c [x, w, z, y]

/-- Asks the outside world. -/
def ask (c : Setup ω) (r : Request) : Action ω r.Reply := fun s =>
  let (reply, world) := c.host.reply r s.world
  (.ok reply, { s with world, events := (c.host.notes r s.world).reverse.map .noted ++ s.events })

/-- The value of a reply, or a note that the tool failed. -/
def succeeded {α : Type} (w : Tool) (reply : Except ToolError α) : Action ω (Option α) :=
  match reply with
  | .ok a => return some a
  | .error e => do
    note (.debug "tool failed" [("op", (Word.tool w).spelling), ("error", e.message)])
    return none

/-- The entry of a listing at an index. -/
def entryAt (names : List String) (index : Int64) (dir : String) : Except ToolError String :=
  match if 0 ≤ index.toInt then names[index.toInt.toNat]? else none with
  | some name => .ok name
  | none => .error (.noEntry index dir names.length)

/-- The tool words: they take their operands, ask, and push how it went. Only `getd` lets a
failure end the program. -/
def tool (c : Setup ω) (w : Tool) : Action ω Unit := do
  let op := Word.tool w
  match w with
  | .download =>
    let dest ← popPath op
    let url ← popText op
    let done ← succeeded w (← ask c (.download url dest))
    push c (.ofBool done.isSome)
  | .readFile =>
    let path ← popPath op
    match ← succeeded w (← ask c (.readText path)) with
    | some text => pushAll c [.text text, .ofBool true]
    | none => pushAll c [.text "", .ofBool false]
  | .move =>
    let dst ← popPath op
    let src ← popPath op
    let done ← succeeded w (← ask c (.move src dst))
    push c (.ofBool done.isSome)
  | .copy =>
    let dst ← popPath op
    let src ← popPath op
    match ← succeeded w (← ask c (.copy src dst)) with
    | some .copied => pushAll c [.ofBool true, .ofBool false]
    | some .destinationExists => pushAll c [.ofBool false, .ofBool true]
    | none => pushAll c [.ofBool false, .ofBool false]
  | .exist =>
    let path ← popPath op
    let found : Bool ← ask c (.pathExists path)
    push c (.ofBool found)
  | .touch =>
    let path ← popPath op
    let done ← succeeded w (← ask c (.touch path))
    push c (.ofBool done.isSome)
  | .mkdir =>
    let path ← popPath op
    let done ← succeeded w (← ask c (.makeDir path))
    push c (.ofBool done.isSome)
  | .remove =>
    let path ← popPath op
    let done ← succeeded w (← ask c (.remove path))
    push c (.ofBool done.isSome)
  | .unzip =>
    let dest ← popPath op
    let archive ← popPath op
    match ← succeeded w (← ask c (.unzip archive dest)) with
    | some (dirs, files) => pushAll c [.int dirs, .int files]
    | none => pushAll c [.int (-1), .int (-1)]
  | .countFiles =>
    let dir ← popPath op
    let names ← succeeded w (← ask c (.listFiles dir))
    push c (.int (Int64.ofNat (names.getD []).length))
  | .countDirs =>
    let dir ← popPath op
    let names ← succeeded w (← ask c (.listDirs dir))
    push c (.int (Int64.ofNat (names.getD []).length))
  | .fileAt =>
    let dir ← popPath op
    let index ← popInt op
    let names : Except ToolError (List String) ← ask c (.listFiles dir)
    let name ← succeeded w (names.bind fun names => entryAt names index dir)
    push c (.text (name.getD ""))
  | .dirAt =>
    let dir ← popPath op
    let index ← popInt op
    let names : Except ToolError (List String) ← ask c (.listDirs dir)
    match names.bind fun names => entryAt names index dir with
    | .ok name => push c (.text name)
    | .error e => .fail (.toolFailed e.message)

/-- The jump target of an instruction. -/
def target (instr : Instr) : Action ω Nat :=
  match instr.next with
  | some n => return n
  | none => .fail .unresolvedJump

/-- Goes back behind the latest call. -/
def ret : Action ω Effect := fun s =>
  match s.calls.pop? with
  | some (n, calls) => (.ok (.jump n), { s with calls })
  | none => (.error .emptyCallStack, s)

/-- Goes on with the next instruction if a condition holds, and to the jump target if not. -/
def goOnIf (b : Bool) (instr : Instr) : Action ω Effect :=
  if b then return .next else return .jump (← target instr)

/-- The words of a block's frame. -/
def mark (instr : Instr) (m : Mark) : Action ω Effect :=
  match m with
  | .onTrue => do goOnIf (← popCondition (.mark m)) instr
  | .onFalse => do goOnIf (!(← popCondition (.mark m))) instr
  | .whileTrue | .untilTrue => return .next
  | .test =>
    match instr.role with
    | .test kind _ => do goOnIf ((← popCondition (.mark m)) == kind.goesOn) instr
    | _ => .fail .unresolvedJump
  | .otherwise => return .jump (← target instr)
  | .close =>
    match instr.role with
    | .close .branch => return .next
    | .close (.loop header) => return .jump header
    | .close .procedure => ret
    | _ => .fail .unresolvedJump

/-- The words that leave a procedure or the program. `dret` drops as many values as its operand
says; `iret` keeps some values and drops some below them. -/
def leave (c : Setup ω) (l : Leave) : Action ω Effect :=
  match l with
  | .ret => ret
  | .dropRet => do
    let drop ← popCount (.leave l)
    let _ ← popMany drop
    ret
  | .keepRet => do
    let drop ← popCount (.leave l)
    let keep ← popCount (.leave l)
    let kept ← popMany keep
    let _ ← popMany drop
    pushAll c kept.reverse
    ret
  | .exit => return .exit

/-- Does something and goes on with the next instruction. -/
def andNext (m : Action ω Unit) : Action ω Effect := do
  m
  return .next

/-! ## Words by family

A word is handed to its family, which knows what to do with its own words only. -/

/-- The words that turn a value into another. -/
def conversionWord (c : Setup ω) : Word → Action ω Unit
  | .convert w => convert c w
  | _ => .fail .unreachable

/-- The words for variables. -/
def memoryWord (c : Setup ω) : Word → Action ω Unit
  | .access w => access c w
  | _ => .fail .unreachable

/-- The words that calculate. -/
def arithmeticWord (c : Setup ω) : Word → Action ω Unit
  | .arithmetic w => binary c w.apply
  | .count w => do push c (← .ofExcept (w.apply (← popInt (.count w))))
  | _ => .fail .unreachable

/-- The words that rearrange the stack. -/
def stackWord (c : Setup ω) : Word → Action ω Unit
  | .shuffle w => shuffle c w
  | _ => .fail .unreachable

/-- The words that decide where the program goes on. -/
def branchWord (c : Setup ω) (instr : Instr) : Word → Action ω Effect
  | .mark m => mark instr m
  | .leave l => leave c l
  | _ => .fail .unreachable

/-- The words that compare. -/
def comparisonWord (c : Setup ω) : Word → Action ω Unit
  | .compare w => binary c w.apply
  | _ => .fail .unreachable

/-- The words that work on the bits of integers. -/
def bitwiseWord (c : Setup ω) : Word → Action ω Unit
  | .bitwise w => binary c w.apply
  | .complement => do push c (.int (~~~ (← popInt .complement)))
  | _ => .fail .unreachable

/-- The words that work on conditions. -/
def logicWord (c : Setup ω) : Word → Action ω Unit
  | .logic w => binary c w.apply
  | .negate => do push c (.ofBool (!(← popCondition .negate)))
  | _ => .fail .unreachable

/-- The words that ask the outside world. -/
def toolWord (c : Setup ω) : Word → Action ω Unit
  | .tool w => tool c w
  | _ => .fail .unreachable

/-- A built-in word. -/
def word (c : Setup ω) (instr : Instr) (w : Word) : Action ω Effect :=
  match w.family with
  | .print => andNext (print c)
  | .conversion => andNext (conversionWord c w)
  | .memory => andNext (memoryWord c w)
  | .arithmetic => andNext (arithmeticWord c w)
  | .stack => andNext (stackWord c w)
  | .branch => branchWord c instr w
  | .comparison => andNext (comparisonWord c w)
  | .bitwise => andNext (bitwiseWord c w)
  | .logic => andNext (logicWord c w)
  | .tool => andNext (toolWord c w)

/-- One instruction. Literals are pushed before anything else is looked at. -/
def perform (c : Setup ω) (instr : Instr) : Action ω Effect :=
  match instr.token.literal? with
  | some v => andNext (push c v)
  | none =>
    match instr.token with
    | .word w => word c instr w
    | .header _ => return .jump (← target instr)
    | .name name =>
      match c.program.procedure? name with
      | some p => return .call p.start
      | none => .fail (.unknownOperator name)
    | .literal _ => .fail .unreachable

/-- Every word is one that its family knows. -/
theorem word_eq (c : Setup ω) (instr : Instr) (w : Word) :
    word c instr w =
      match w with
      | .print => andNext (print c)
      | .convert w => andNext (convert c w)
      | .access w => andNext (access c w)
      | .arithmetic w => andNext (binary c w.apply)
      | .count w => andNext do push c (← .ofExcept (w.apply (← popInt (.count w))))
      | .shuffle w => andNext (shuffle c w)
      | .mark m => mark instr m
      | .leave l => leave c l
      | .compare w => andNext (binary c w.apply)
      | .bitwise w => andNext (binary c w.apply)
      | .complement => andNext do push c (.int (~~~ (← popInt .complement)))
      | .logic w => andNext (binary c w.apply)
      | .negate => andNext do push c (.ofBool (!(← popCondition .negate)))
      | .tool w => andNext (tool c w) := by
  cases w <;> rfl

/-- Behind the literals there are only words, headers and names. -/
theorem perform_eq (c : Setup ω) (instr : Instr) :
    perform c instr =
      match instr.token with
      | .literal v => andNext (push c v)
      | .word w => word c instr w
      | .header _ => do return .jump (← target instr)
      | .name name =>
        match c.program.procedure? name with
        | some p => pure (.call p.start)
        | none => .fail (.unknownOperator name) := by
  obtain ⟨token, next, role⟩ := instr
  cases token <;> rfl

end Chore.Machine
