import Chore.Proofs.Typing.Progress

/-!
# The stack map

The check holds one shape for every index it comes to, and every run of a loaded program, however
it got there, has a stack of that shape there: the whole stack outside of procedures, and inside of
them the part above the base of the current activation. `Active` follows a run and keeps its
activations: a call begins one, at the height of the stack below its operands, and an instruction
that takes a return address ends the latest.
-/

set_option autoImplicit false

namespace Chore.Typing

open Machine

variable {ω : Type} {c : Setup ω} {s t : State ω}

/-- A call that has not returned: the procedure, and the height of the stack below its operands. -/
structure Activation where
  procedure : Procedure
  base : Nat

/-- The activations behind an instruction, latest first. -/
def activate (c : Setup ω) (s : State ω) (instr : Instr) (t : State ω) (acts : List Activation) :
    List Activation :=
  match instr.token with
  | .name name =>
    match c.program.procedure? name with
    | some p => ⟨p, s.store.stack.size - p.signature.inputs.length⟩ :: acts
    | none => acts
  | _ => if t.store.calls.size < s.store.calls.size then acts.tail else acts

/-- A run has come to a state, and these are its activations. -/
inductive Active (c : Setup ω) (start : State ω) : State ω → List Activation → Prop where
  | start : Active c start start []
  | step {s t : State ω} {instr : Instr} {acts : List Activation} (before : Active c start s acts)
      (step : Step c s instr t) : Active c start t (activate c s instr t acts)

/-- Every run has activations. -/
theorem exists_active {start : State ω} {is : List Instr} (path : Path c s is t)
    {acts : List Activation} (before : Active c start s acts) :
    ∃ acts', Active c start t acts' := by
  induction path generalizing acts with
  | nil => exact ⟨acts, before⟩
  | cons step _ ih => exact ih (before.step step)

/-- The activations of pending calls. -/
def activations : List Call → List Activation
  | [] => []
  | call :: calls => ⟨call.callee, (held (call :: calls)).length⟩ :: activations calls

theorem activate_other {instr : Instr} (other : ∀ name, instr.token ≠ .name name)
    (acts : List Activation) :
    activate c s instr t acts =
      if t.store.calls.size < s.store.calls.size then acts.tail else acts := by
  unfold activate
  cases token : instr.token with
  | name name => exact absurd token (other name)
  | _ => rfl

/-- The activations of a run are those of the pending calls, until it leaves the program. -/
theorem Active.wellTyped (h : Accepted c.program) {world : ω} {acts : List Activation}
    (active : Active c { store := { world } } s acts) :
    c.program.size ≤ s.ip ∨ ∃ calls, WellTyped c calls s ∧ acts = activations calls := by
  induction active with
  | start => exact .inr ⟨[], wellTyped_start h world, rfl⟩
  | @step s t instr acts _ step ih =>
    rcases ih with behind | ⟨calls, typed, rfl⟩
    · exact (not_step_behind behind step).elim
    · cases typed.step h step with
      | stays other typed' =>
        refine .inr ⟨calls, typed', ?_⟩
        rw [activate_other other, typed.size_calls, typed'.size_calls, if_neg (Nat.lt_irrefl _)]
      | @calls name p args kept token found inputs before typed' =>
        refine .inr ⟨_, typed', ?_⟩
        have count : args.length = p.signature.inputs.length := by
          simpa using congrArg List.length inputs
        have base : s.store.stack.size - p.signature.inputs.length =
            (held (⟨p, s.ip + 1, kept⟩ :: calls)).length := by
          rw [s.store.stack.size_eq, before, List.length_append, count, Nat.add_sub_cancel_left]
          rfl
        simp only [activate, token, found, base, activations]
      | @returns call rest outs other latest _ _ _ typed' =>
        subst latest
        refine .inr ⟨rest, typed', ?_⟩
        rw [activate_other other, typed.size_calls, typed'.size_calls,
          if_pos (by simp)]
        rfl
      | exits _ ip _ => exact .inl (Nat.le_of_eq ip.symm)

/-- The one walk the check comes to an index with has a shape. -/
def MapsTo (program : Program) (o : Option Procedure) (i : Nat) (shape : Shape) : Prop :=
  ∃ w, Reaches program o i w ∧ w.shape = shape ∧ ∀ w', Reaches program o i w' → w' = w

theorem Spot.mapsTo {program : Program} (h : Accepted program) {o : Option Procedure} {i : Nat}
    {w : Walk} (spot : Spot program o i w) : MapsTo program o i w.shape :=
  ⟨w, spot.reached, rfl, fun _ reached => reached.unique h spot.reached⟩

section

variable {calls : List Call}

/-- Outside of procedures nothing is pending, and the stack has the kinds of the map. -/
theorem WellTyped.mapsTo_outside (h : Accepted c.program) (typed : WellTyped c calls s)
    (outside : ∀ p ∈ c.program.procedures, ¬(p.start ≤ s.ip ∧ s.ip ≤ p.stop)) :
    MapsTo c.program none s.ip (s.store.stack.toList.map Value.kind) := by
  obtain ⟨-, w, own, spot, kinds, stack⟩ := typed.fits
  cases calls with
  | nil =>
    rw [stack, held, List.flatMap_nil, List.append_nil, kinds]
    exact spot.mapsTo h
  | cons call rest =>
    obtain ⟨-, declared, inside⟩ := spot.reached.follows h
    exact absurd inside (outside call.callee declared)

/-- Inside of a procedure its latest call is pending, and the current procedure is this one. -/
theorem WellTyped.in_body (h : Accepted c.program) (typed : WellTyped c calls s) {p : Procedure}
    (hp : p ∈ c.program.procedures) (inside : p.start ≤ s.ip ∧ s.ip ≤ p.stop) :
    ∃ base others w own, activations calls = ⟨p, base⟩ :: others ∧
      Spot c.program (some p) s.ip w ∧ own.map Value.kind = w.shape ∧
      s.store.stack.toList = own ++ held calls ∧ (held calls).length = base := by
  obtain ⟨-, w, own, spot, kinds, stack⟩ := typed.fits
  cases calls with
  | nil => exact absurd inside (spot.reached.outside h hp)
  | cons call rest =>
    obtain ⟨-, declared, inside'⟩ := spot.reached.follows h
    obtain rfl := h.apart hp declared inside inside'
    exact ⟨_, _, w, own, rfl, spot, kinds, stack, rfl⟩

/-- What lies above the base of the latest call has the kinds of the map. -/
theorem WellTyped.mapsTo_inside (h : Accepted c.program) (typed : WellTyped c calls s)
    {p : Procedure} (hp : p ∈ c.program.procedures) (inside : p.start ≤ s.ip ∧ s.ip ≤ p.stop) :
    ∃ base others, activations calls = ⟨p, base⟩ :: others ∧ base ≤ s.store.stack.size ∧
      MapsTo c.program (some p) s.ip
        ((s.store.stack.toList.take (s.store.stack.size - base)).map Value.kind) ∧
      (s.ip = p.stop →
        (s.store.stack.toList.take (s.store.stack.size - base)).map Value.kind =
          p.signature.outputs.reverse) := by
  obtain ⟨base, others, w, own, latest, spot, kinds, stack, rfl⟩ := typed.in_body h hp inside
  have size : s.store.stack.size = own.length + (held calls).length := by
    rw [s.store.stack.size_eq, stack, List.length_append]
  have top : s.store.stack.toList.take (s.store.stack.size - (held calls).length) = own := by
    rw [size, Nat.add_sub_cancel, stack, List.take_left]
  refine ⟨_, _, latest, by omega, ?_, ?_⟩
  · rw [top, kinds]
    exact spot.mapsTo h
  · intro atEnd
    rw [top, kinds]
    exact h.outputs (atEnd ▸ spot.reached) spot.live

/-- Behind the program the stack has the kinds the check ended with. -/
theorem WellTyped.kinds_at_end (h : Accepted c.program) (typed : WellTyped c calls s) {final : Walk}
    {fuel : Nat} {seen : List Procedure}
    (walked : (walk c.program fuel 0 { shape := [] } seen).1 = .ok final)
    (behind : c.program.size ≤ s.ip) : s.store.stack.toList.map Value.kind = final.shape := by
  obtain ⟨-, w, own, spot, kinds, stack⟩ := typed.fits
  cases calls with
  | nil =>
    have none : c.program.instructions[s.ip]? = none := by simpa [Program.size] using behind
    rw [stack, held, List.flatMap_nil, List.append_nil, kinds,
      (spot.reached.passes ⟨_, _, walked⟩).behind none]
  | cons call rest =>
    obtain ⟨-, declared, -, upTo⟩ := spot.reached.follows h
    have stop : call.callee.stop < c.program.size := h.stop_lt declared
    omega

end

/-- **Type preservation.** Whenever a run of a loaded program is about to perform an instruction,
its stack has the kinds the check has for that index: outside of procedures the whole stack; inside
of one the part above the base of the current activation, which is one of this procedure, and at
the `end` of the body these are the declared outputs. Every run that ends without `exit` ends with
the kinds the check ended with. -/
theorem stack_has_checked_kinds {source : String} {program : Program}
    (loaded : load source = .ok program) :
    ∃ final, (walk program (walkBound program) 0 { shape := [] } []).1 = .ok final ∧
      ∀ {ω : Type} (host : Host ω) (limit : Nat) (world : ω),
        let c : Setup ω := { program, host, limit }
        let start : State ω := { store := { world } }
        (∀ is s, Path c start is s → ∃ acts, Active c start s acts) ∧
        (∀ s acts, Active c start s acts → s.ip < program.size →
          ((∀ p ∈ program.procedures, ¬(p.start ≤ s.ip ∧ s.ip ≤ p.stop)) →
            MapsTo program none s.ip (s.store.stack.toList.map Value.kind)) ∧
          ∀ p ∈ program.procedures, p.start ≤ s.ip ∧ s.ip ≤ p.stop →
            ∃ base others, acts = ⟨p, base⟩ :: others ∧ base ≤ s.store.stack.size ∧
              MapsTo program (some p) s.ip
                ((s.store.stack.toList.take (s.store.stack.size - base)).map Value.kind) ∧
              (s.ip = p.stop →
                (s.store.stack.toList.take (s.store.stack.size - base)).map Value.kind =
                  p.signature.outputs.reverse)) ∧
        ∀ is t, Path c start is t → program.size ≤ t.ip →
          (∀ instr ∈ is, instr.token ≠ .word (.leave .exit)) →
          t.store.stack.toList.map Value.kind = final.shape := by
  have accepted : Accepted program := accepted_of_load loaded
  obtain ⟨final, walked, -⟩ := accepted.walked
  refine ⟨final, walked, ?_⟩
  intro ω host limit world c start
  refine ⟨fun is s path => exists_active path .start, ?_, ?_⟩
  · intro s acts active within
    obtain behind | ⟨calls, typed, rfl⟩ := active.wellTyped accepted
    · exact absurd within (Nat.not_lt.2 behind)
    exact ⟨typed.mapsTo_outside accepted, fun p hp inside => typed.mapsTo_inside accepted hp inside⟩
  · intro is t path behind noExit
    rcases (wellTyped_start accepted world).path accepted path with
      ⟨calls, typed⟩ | ⟨-, instr, mem, token⟩
    · exact typed.kinds_at_end accepted walked behind
    · exact absurd token (noExit instr mem)

/-- A program with a procedure that is called once: all its runs end with one integer. -/
theorem stack_has_checked_kinds_call :
    let program := (Block.procedure ⟨"one", [], [.int]⟩ (.plain (.literal (.int 1)) .nil)
      (.plain (.name "one") .nil)).program
    load "proc one in int do 1 end one" = .ok program ∧
      ∀ {ω : Type} (host : Host ω) (limit : Nat) (world : ω) (is : List Instr) (t : State ω),
        Path { program, host, limit } { store := { world } } is t → program.size ≤ t.ip →
        (∀ instr ∈ is, instr.token ≠ .word (.leave .exit)) →
        t.store.stack.toList.map Value.kind = [.int] := by
  intro program
  have loaded : load "proc one in int do 1 end one" = .ok program :=
    ok_of_toOption (by decide +kernel)
  have ends : (walk program (walkBound program) 0 { shape := [] } []).1 = .ok { shape := [.int] } :=
    ok_of_toOption (by decide +kernel)
  obtain ⟨final, walked, runs⟩ := stack_has_checked_kinds loaded
  obtain rfl := Except.ok.inj (walked.symm.trans ends)
  exact ⟨loaded, fun host limit world is t path behind noExit =>
    (runs host limit world).2.2 is t path behind noExit⟩

end Chore.Typing
