import Chore.Proofs.Block.Halting
import Chore.Proofs.Block.Reading
import Chore.Machine.Script
import Chore.Machine.Trace

/-!
# Runs of linked programs

A token list that can be linked spells one block, and running the linked program is running that
block: `linked_execution_eq_structured`. The machine is given any host, any limit on its stacks
and any watcher that does not interrupt; only the limit on the number of instructions must not be
reached, which the interpreter of blocks does not have.
-/

set_option autoImplicit false

namespace Chore.Block

open Machine

variable {ω τ : Type}

/-- The procedure under a name is the one declared under it. -/
theorem procedure?_program (b : Block) (name : String) :
    b.program.procedure? name = (b.declaration? name).map Declaration.procedure := by
  rw [Program.procedure?, program, procedures_eq, List.find?_map]
  rfl

/-- The machine on a linked program serves the block of the program. -/
theorem serves_program {b : Block} (proper : b.Proper) (host : Host ω) (limit : Nat) :
    Serves { program := b.program, host, limit } { host, limit, find? := b.declaration? } where
  host := rfl
  limit := rfl
  unknown name h := by
    rw [procedure?_program]
    exact congrArg (Option.map Declaration.procedure) h
  known name d h := by
    refine ⟨?_, stands_of_mem_declarations (standsAt_program proper) (List.mem_of_find?_eq_some h)⟩
    rw [procedure?_program]
    exact congrArg (Option.map Declaration.procedure) h

/-- A run of the machine ended like a block: with the same data, and at the same fault of the same
token if there was one. -/
def Outcome.Agrees : Outcome ω → Ending ω τ → Prop
  | done d, ending => ending.error? = none ∧ ending.state.store.data = d
  | returned _, _ => False
  | exited d, ending => ending.error? = none ∧ ending.state.store.data = d
  | failed index token fault d, ending =>
    (∃ counter, ending.error? = some (.instructionFailed token index counter fault)) ∧
      ending.state.store.data = d

/-- Outside of procedures a block ends where the machine is stuck. -/
theorem stuck_of_meets {c : Setup ω} {o : Outcome ω} {s : State ω}
    (h : Meets c .empty c.program.size o s) : Stuck c s := by
  cases o with
  | done d => exact stuck_of_size_le (Nat.le_of_eq h.ip.symm)
  | returned d =>
    obtain ⟨i, calls, popped, -⟩ := h
    cases popped
  | exited d => exact stuck_of_size_le (Nat.le_of_eq h.1.symm)
  | failed i token fault d =>
    obtain ⟨-, instr, fetched, -, fails, -⟩ := h
    exact stuck_of_follow fetched fails

/-- A run that is not cut short ends like the block the machine has run through. -/
theorem agrees_of_ends {c : Setup ω} {o : Outcome ω} {s t : State ω} {is : List Instr} {n : Nat}
    {ending : Ending ω τ} (path : Path c s is t) (meets : Meets c .empty c.program.size o t)
    (ends : Ends c s n ending.error? ending.state)
    (long : ∀ counter, ending.error? ≠ some (.tooLong counter))
    (patient : ∀ reason, ending.error? ≠ some (.interrupted reason)) : o.Agrees ending := by
  have final := ends.at_stuck path (stuck_of_meets meets) long patient
  cases o with
  | done d =>
    obtain ⟨-, error, state⟩ | ⟨instr, fault, fetched, -⟩ := final
    · exact ⟨error, by rw [state, meets.store]; rfl⟩
    · exact absurd (lt_size_of_getElem?_eq_some fetched) (by rw [meets.ip]; omega)
  | returned d =>
    obtain ⟨i, calls, popped, -⟩ := meets
    cases popped
  | exited d =>
    obtain ⟨-, error, state⟩ | ⟨instr, fault, fetched, -⟩ := final
    · exact ⟨error, by rw [state, meets.2]⟩
    · exact absurd (lt_size_of_getElem?_eq_some fetched) (by rw [meets.1]; omega)
  | failed i token fault d =>
    obtain ⟨rfl, instr, fetched, rfl, fails, data⟩ := meets
    obtain ⟨behind, -⟩ | ⟨other, fault', fetched', fails', error, state⟩ := final
    · exact absurd (lt_size_of_getElem?_eq_some fetched) (Nat.not_lt.2 behind)
    · obtain rfl : instr = other := Option.some.inj (fetched.symm.trans fetched')
      obtain rfl : fault = fault' := Except.error.inj (fails.symm.trans fails')
      exact ⟨⟨t.counter, error⟩, by rw [state]; exact data⟩

/-- **Linked execution is structured execution.** A token list that can be linked spells exactly
one block. Whatever the block comes to when it is run directly, every run of the linked program
that may perform enough instructions comes to as well; and every run that is not cut short comes to
what the block does. -/
theorem linked_execution_eq_structured {tokens : List Token} {program : Program}
    (linked : Program.ofTokens tokens = .ok program) :
    ∃ b : Block, (∀ b' : Block, b'.WellFormed ∧ b'.tokens = tokens ↔ b' = b) ∧
      ∀ {ω τ : Type} (host : Host ω) (limit : Nat) (world : ω) (watch : Watch τ) (seen : τ),
        Patient watch →
        (∀ fuel o, b.interpret host limit fuel world = some o →
          ∃ enough, ∀ steps, enough ≤ steps →
            o.Agrees (runProgram program host ⟨limit, steps⟩ watch world seen)) ∧
        (∀ steps, (∀ counter,
            (runProgram program host ⟨limit, steps⟩ watch world seen).error? ≠
              some (.tooLong counter)) →
          ∃ fuel o, b.interpret host limit fuel world = some o ∧
            o.Agrees (runProgram program host ⟨limit, steps⟩ watch world seen)) := by
  obtain ⟨b, read, rfl⟩ : ∃ b, ofTokens tokens = .ok b ∧ b.program = program := by
    unfold Program.ofTokens at linked
    cases read : ofTokens tokens with
    | error e => rw [read] at linked; cases linked
    | ok b => rw [read] at linked; exact ⟨b, rfl, Except.ok.inj linked⟩
  have proper : b.Proper := (ofTokens_eq_ok_iff.1 read).1.proper
  refine ⟨b, fun b' => ?_, ?_⟩
  · rw [← ofTokens_eq_ok_iff, read]
    exact ⟨fun h => (Except.ok.inj h).symm, fun h => h ▸ rfl⟩
  intro ω τ host limit world watch seen patient
  let c : Setup ω := { program := b.program, host, limit }
  let start : State ω := { store := { world } }
  have serves : Serves c { host, limit, find? := b.declaration? } :=
    serves_program proper host limit
  have stands : b.StandsAt c.program 0 := standsAt_program proper
  have here : At 0 .empty { world } start := ⟨rfl, rfl⟩
  have size : 0 + b.size = c.program.size := by simp [c]
  have leads {fuel : Nat} {o : Outcome ω} (h : b.interpret host limit fuel world = some o) :
      Leads c start .empty c.program.size o := by
    rw [← size]
    exact exec_leads serves fuel stands here h
  have ends (steps : Nat) := run_ends c watch steps start seen
  have quiet (steps : Nat) := run_not_interrupted patient c steps start seen
  constructor
  · intro fuel o h
    obtain ⟨is, t, path, meets⟩ := leads h
    refine ⟨is.length + 1, fun steps le =>
      agrees_of_ends path meets (ends steps) ?_ (quiet steps)⟩
    intro counter long
    have cut := ends steps
    rw [show (run c watch steps start seen).error? = _ from long] at cut
    have := cut.le_of_tooLong path (stuck_of_meets meets)
    omega
  · intro steps long
    obtain ⟨is, t, path, stuck⟩ := (ends steps).stuck long (quiet steps)
    obtain ⟨fuel, o, settled⟩ :=
      exec_of_halts serves is.length stands here ⟨is, t, path, stuck, Nat.le_refl _⟩
    have h : b.interpret host limit fuel world = some o := settled fuel (Nat.le_refl _)
    obtain ⟨is, t, path, meets⟩ := leads h
    exact ⟨fuel, o, h, agrees_of_ends path meets (ends steps) long (quiet steps)⟩

/-- A procedure that counts one up, called once: the run of its program ends like its block. -/
theorem linked_execution_eq_structured_call :
    let tokens : List Token :=
      [.header ⟨"f", [.int], [.int]⟩, .word (.count .increment), Mark.close.token,
        .literal (.int 1), .name "f"]
    let world : World Script := { tools := { answers := [] } }
    ∃ (program : Program) (b : Block), Program.ofTokens tokens = .ok program ∧ b.tokens = tokens ∧
      ∃ fuel o, b.interpret (Script.tools "/").host 2 fuel world = some o ∧
        o.Agrees (runProgram program (Script.tools "/").host ⟨2, 5⟩ quiet world ()) := by
  obtain ⟨b, only, agree⟩ := @linked_execution_eq_structured
    [.header ⟨"f", [.int], [.int]⟩, .word (.count .increment), Mark.close.token,
      .literal (.int 1), .name "f"] _ rfl
  obtain ⟨-, back⟩ := agree (Script.tools "/").host 2 { tools := { answers := [] } } quiet ()
    fun _ _ => rfl
  refine ⟨_, b, rfl, ((only b).2 rfl).2, back 5 ?_⟩
  intro counter h
  exact nomatch (show (none : Option RunError) = some (.tooLong counter) from h)

end Chore.Block
