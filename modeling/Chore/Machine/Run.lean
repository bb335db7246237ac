import Chore.Machine.Perform

/-!
# Runs

A run performs one instruction after the other until the program is left, an instruction faults,
the limit on the number of instructions is reached, or whoever watches interrupts it. `turn` is
one instruction with its account, `State.advance` goes where its effect says, and `run` repeats
the two; its first argument is the number of instructions that may still be performed.

A call is accounted for before the pending returns are found to be full.
-/

set_option autoImplicit false

namespace Chore.Machine

variable {ω τ : Type}

/-- A machine between two instructions: the index of the next one and the number performed. -/
structure State (ω : Type) where
  ip : Nat := 0
  counter : Nat := 0
  store : Store ω

/-- Why a run ended before its program did. -/
inductive RunError where
  | instructionFailed (token : Token) (index counter : Nat) (fault : Fault)
  | tooLong (counter : Nat)
  | interrupted (reason : String)
  deriving DecidableEq

/-- The wording of a run error. -/
def RunError.message : RunError → String
  | instructionFailed token index counter fault =>
    s!"Instruction {Text.showNat index} ({token.display}) failed (instruction counter " ++
      s!"{Text.showNat counter}): {fault.message}"
  | tooLong counter =>
    s!"The program ran for too long ({Text.showNat counter} instructions had been run)."
  | interrupted reason => s!"Tracer interrupted program execution: {reason}"

/-- Whoever looks at the accounts of a run, and may interrupt it with a reason. -/
abbrev Watch (τ : Type) : Type :=
  τ → Entry → τ × Option String

/-- How a run ended: without error or with one, in which state, and what was seen. -/
structure Ending (ω τ : Type) where
  error? : Option RunError
  state : State ω
  seen : τ

/-- Performs an instruction: its account, and the store afterwards. -/
def turn (c : Setup ω) (s : State ω) (instr : Instr) : Entry × Store ω :=
  let (outcome, scene) := perform c instr { s.store with }
  ({ ip := s.ip, token := instr.token, events := scene.events.reverse, outcome }, scene.toStore)

/-- Goes where an effect says, with the store the instruction left. -/
def State.advance (c : Setup ω) (s : State ω) (store : Store ω) :
    Effect → Except Fault (State ω)
  | .next => .ok { ip := s.ip + 1, counter := s.counter + 1, store }
  | .jump n => .ok { ip := n, counter := s.counter + 1, store }
  | .call n =>
    if store.calls.size < c.limit then
      .ok {
        ip := n
        counter := s.counter + 1
        store := { store with calls := store.calls.push (s.ip + 1) } }
    else .error .pushFailed
  | .exit => .ok { ip := c.program.size, counter := s.counter + 1, store }

/-- Runs on from a state, for at most so many instructions. -/
def run (c : Setup ω) (watch : Watch τ) : Nat → State ω → τ → Ending ω τ
  | 0, s, seen =>
    if s.ip < c.program.size then ⟨some (.tooLong s.counter), s, seen⟩ else ⟨none, s, seen⟩
  | n + 1, s, seen =>
    match c.program.instructions[s.ip]? with
    | none => ⟨none, s, seen⟩
    | some instr =>
      let (entry, store) := turn c s instr
      let failed (fault : Fault) (seen : τ) : Ending ω τ :=
        ⟨some (.instructionFailed instr.token s.ip s.counter fault), { s with store }, seen⟩
      match watch seen entry with
      | (seen, some reason) => ⟨some (.interrupted reason), { s with store }, seen⟩
      | (seen, none) =>
        match entry.outcome with
        | .error fault => failed fault seen
        | .ok effect =>
          match s.advance c store effect with
          | .error fault => failed fault seen
          | .ok s => run c watch n s seen

/-- The limits of a run: the size of the stack and of the pending returns, and the number of
instructions. -/
structure Limits where
  stack : Nat
  steps : Nat
  deriving DecidableEq

/-- Runs a program from its start in a world. -/
def runProgram (program : Program) (host : Host ω) (limits : Limits) (watch : Watch τ) (world : ω)
    (seen : τ) : Ending ω τ :=
  run { program, host, limit := limits.stack } watch limits.steps { store := { world } } seen

end Chore.Machine
