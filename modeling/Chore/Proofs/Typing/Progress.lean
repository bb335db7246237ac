import Chore.Machine.Script
import Chore.Machine.Trace
import Chore.Proofs.Typing.Preservation

/-!
# Loaded programs do not go wrong

Every state a loaded program gets to is typed, up to the first `exit`, which leaves the program at
once (`WellTyped.path`). So no run of a loaded program, whatever the outside world answers, however
small the limits, and whoever watches, fails for any other reason than `Token.MayFail` gives.
-/

set_option autoImplicit false

namespace Chore.Typing

open Machine

variable {ω τ : Type} {c : Setup ω} {s t : State ω}

/-- A run starts in a typed state without calls. -/
theorem wellTyped_start (h : Accepted c.program) (world : ω) :
    WellTyped c [] { store := { world } } where
  fits := ⟨fun _ vs trail => by cases trail; exact ⟨[], rfl⟩, _, [], spot_start h, rfl, rfl⟩
  returns := rfl
  awaits := trivial
  ints := Memory.ints_empty

theorem WellTyped.size_calls {calls : List Call} (typed : WellTyped c calls s) :
    s.store.calls.size = calls.length := by
  rw [s.store.calls.size_eq, typed.returns, List.length_map]

theorem WellTyped.step (h : Accepted c.program) {calls : List Call} (typed : WellTyped c calls s)
    {instr : Instr} (step : Step c s instr t) : Turn c calls s instr t := by
  have turned := typed.turn h step.fetched
  rwa [step.followed] at turned

theorem not_step_behind {instr : Instr} (behind : c.program.size ≤ s.ip) (step : Step c s instr t) :
    False :=
  (stuck_of_size_le behind).no_step step

/-- A path leads to typed states until `exit` is performed, which ends it. -/
theorem WellTyped.path (h : Accepted c.program) {calls : List Call} (typed : WellTyped c calls s)
    {is : List Instr} (path : Path c s is t) :
    (∃ calls', WellTyped c calls' t) ∨
      c.program.size ≤ t.ip ∧ ∃ instr ∈ is, instr.token = .word (.leave .exit) := by
  induction path generalizing calls with
  | nil => exact .inl ⟨calls, typed⟩
  | @cons s u t instr is step others ih =>
    have later {calls' : List Call} (typed : WellTyped c calls' u) :
        (∃ calls', WellTyped c calls' t) ∨
          c.program.size ≤ t.ip ∧ ∃ i ∈ instr :: is, i.token = .word (.leave .exit) := by
      rcases ih typed with typed | ⟨behind, i, mem, token⟩
      · exact .inl typed
      · exact .inr ⟨behind, i, List.mem_cons_of_mem _ mem, token⟩
    cases typed.step h step with
    | stays _ typed => exact later typed
    | calls _ _ _ _ typed => exact later typed
    | returns _ _ _ _ _ typed => exact later typed
    | exits token ip _ =>
      cases others with
      | nil => exact .inr ⟨Nat.le_of_eq ip.symm, instr, List.mem_cons_self, token⟩
      | cons step _ => exact (not_step_behind (Nat.le_of_eq ip.symm) step).elim

/-- **Type soundness.** A run of a loaded program that fails at an instruction does so for want of
room on a stack, or for a reason of the outside that this instruction's word has: arithmetic that
overflows, a variable that is not set, a listing without the entry, an output that is refused. -/
theorem loaded_fails_only_as_allowed {source : String} {program : Program}
    (loaded : load source = .ok program) (host : Host ω) (limits : Limits) (watch : Watch τ)
    (world : ω) (seen : τ) {token : Token} {index counter : Nat} {fault : Fault}
    (failed : (runProgram program host limits watch world seen).error? =
      some (.instructionFailed token index counter fault)) :
    token.MayFail fault := by
  have accepted := accepted_of_load loaded
  let c : Setup ω := { program, host, limit := limits.stack }
  have ends := run_ends c watch limits.steps { store := { world } } seen
  rw [show (run c watch limits.steps { store := { world } } seen).error? = _ from failed] at ends
  obtain ⟨is, t, instr, path, fetched, rfl, fails⟩ := ends.at_fault
  rcases (wellTyped_start accepted world).path accepted path with ⟨calls, typed⟩ | ⟨behind, -⟩
  · have turned := typed.turn accepted fetched
    rwa [fails] at turned
  · exact absurd (lt_size_of_getElem?_eq_some fetched) (Nat.not_lt.2 behind)

/-- Counting up from the largest integer overflows, and that is one of the ways to fail. -/
theorem loaded_fails_only_as_allowed_overflow :
    let world : World Script := { tools := { answers := [] } }
    ∃ program, load "9223372036854775807 ++" = .ok program ∧
      (runProgram program (Script.tools "/").host ⟨1, 2⟩ quiet world ()).error? =
        some (.instructionFailed (.word (.count .increment)) 1 1 .integerOverflow) ∧
      (Token.word (.count .increment)).MayFail .integerOverflow := by
  refine ⟨_, rfl, rfl, ?_⟩
  exact @loaded_fails_only_as_allowed _ _ "9223372036854775807 ++" _ rfl (Script.tools "/").host
    ⟨1, 2⟩ quiet { tools := { answers := [] } } () _ 1 1 _ rfl

end Chore.Typing
