import Chore.Proofs.Typing.Progress

/-!
# Calls and what lies below them

There is no frame pointer: nothing in the machine keeps a procedure from popping what its caller
left on the stack. In a loaded program it never does. `During` follows a run for as long as a call
is pending, that is, while there are more return addresses than before the call; all that time the
values below the operands stay where they are, and behind the return they lie below the outputs.
-/

set_option autoImplicit false

namespace Chore.Typing

open Machine

variable {ω : Type} {c : Setup ω} {s t u v : State ω}

/-- A run goes on from a state to another one, all the time with more than so many pending
returns. -/
inductive During (c : Setup ω) (depth : Nat) (s : State ω) : State ω → Prop where
  | start (deep : depth < s.store.calls.size) : During c depth s s
  | step {t u : State ω} {instr : Instr} (before : During c depth s t) (step : Step c t instr u)
      (deep : depth < u.store.calls.size) : During c depth s u

theorem held_append (inner calls : List Call) : held (inner ++ calls) = held inner ++ held calls :=
  List.flatMap_append

/-- While a call is pending, it is pending below the calls made since, or the program was left with
all that is held still on the stack. -/
theorem During.wellTyped (h : Accepted c.program) {call : Call} {calls : List Call}
    (typed : WellTyped c (call :: calls) s) (during : During c calls.length s t) :
    (∃ inner, WellTyped c (inner ++ call :: calls) t) ∨
      c.program.size ≤ t.ip ∧ ∃ ys, t.store.stack.toList = ys ++ held (call :: calls) := by
  induction during with
  | start => exact .inl ⟨[], typed⟩
  | @step t u instr _ step deep ih =>
    rcases ih with ⟨inner, typed⟩ | ⟨behind, -⟩
    · cases typed.step h step with
      | stays _ typed' => exact .inl ⟨inner, typed'⟩
      | calls _ _ _ _ typed' => exact .inl ⟨_ :: inner, typed'⟩
      | @returns latest rest outs _ same _ _ _ typed' =>
        cases inner with
        | nil =>
          -- this would be the return from the call itself, behind which it is not pending
          obtain ⟨rfl, rfl⟩ := List.cons.inj same
          exact absurd deep (by rw [typed'.size_calls]; exact Nat.lt_irrefl _)
        | cons _ inner =>
          obtain ⟨-, rfl⟩ := List.cons.inj same
          exact .inl ⟨inner, typed'⟩
      | exits _ ip store =>
        obtain ⟨-, w, own, -, -, stack⟩ := typed.fits
        refine .inr ⟨Nat.le_of_eq ip.symm, own ++ held inner, ?_⟩
        rw [store, stack, held_append, List.append_assoc]
    · exact (not_step_behind behind step).elim

/-- The instruction that ends a pending call leaves the outputs on what was held. -/
theorem During.returns (h : Accepted c.program) {call : Call} {calls : List Call}
    (typed : WellTyped c (call :: calls) s) (during : During c calls.length s t) {instr : Instr}
    (step : Step c t instr u) (ended : u.store.calls.size ≤ calls.length) :
    u.ip = call.back ∧ u.store.calls.toList = calls.map Call.back ∧
      ∃ outs, u.store.stack.toList = outs ++ held (call :: calls) ∧
        outs.map Value.kind = call.callee.signature.outputs.reverse := by
  rcases during.wellTyped h typed with ⟨inner, typed⟩ | ⟨behind, -⟩
  · cases typed.step h step with
    | stays _ typed' =>
      rw [typed'.size_calls, List.length_append, List.length_cons] at ended
      omega
    | calls _ _ _ _ typed' =>
      rw [typed'.size_calls, List.length_cons, List.length_append, List.length_cons] at ended
      omega
    | @returns latest rest outs _ same back outputs after typed' =>
      rw [typed'.size_calls] at ended
      cases inner with
      | nil =>
        obtain ⟨rfl, rfl⟩ := List.cons.inj same
        exact ⟨back, typed'.returns, outs, after, outputs⟩
      | cons _ inner =>
        have longer := congrArg List.length (List.cons.inj same).2
        rw [List.append_eq, List.length_append, List.length_cons] at longer
        omega
    | exits _ _ store =>
      rw [store, typed.size_calls, List.length_append, List.length_cons] at ended
      omega
  · exact (not_step_behind behind step).elim

/-- **Call frames are protected.** When a run of a loaded program calls a procedure, its operands
lie on top of the stack. As long as the call is pending, what lies below them stays as it is; and
when it returns, the run goes on behind the call, with the pending returns from before it, and with
values of the declared outputs in the place of the operands. -/
theorem call_frames_protected {source : String} {program : Program}
    (loaded : load source = .ok program) (host : Host ω) (limit : Nat) (world : ω)
    {is : List Instr} {s t : State ω} {instr : Instr} {name : String} {p : Procedure}
    (run : Path { program, host, limit } { store := { world } } is s)
    (call : Step { program, host, limit } s instr t) (token : instr.token = .name name)
    (found : program.procedure? name = some p) :
    ∃ args xs, s.store.stack.toList = args ++ xs ∧ args.length = p.signature.inputs.length ∧
      (∀ u, During { program, host, limit } s.store.calls.size t u →
        ∃ ys, u.store.stack.toList = ys ++ xs) ∧
      ∀ u v instr', During { program, host, limit } s.store.calls.size t u →
        Step { program, host, limit } u instr' v → v.store.calls.size ≤ s.store.calls.size →
        v.ip = s.ip + 1 ∧ v.store.calls = s.store.calls ∧
          ∃ outs, v.store.stack.toList = outs ++ xs ∧
            outs.map Value.kind = p.signature.outputs.reverse := by
  let c : Setup ω := { program, host, limit }
  have accepted : Accepted c.program := accepted_of_load loaded
  rcases (wellTyped_start accepted world).path accepted run with ⟨calls, typed⟩ | ⟨behind, -⟩
  · cases typed.step accepted call with
    | stays other _ => exact absurd token (other name)
    | returns other _ _ _ _ _ => exact absurd token (other name)
    | exits exit _ _ => exact absurd (token.symm.trans exit) nofun
    | @calls name' q args kept token' found' inputs before typed' =>
      obtain rfl := Token.name.inj (token.symm.trans token')
      obtain rfl := Option.some.inj (found.symm.trans found')
      refine ⟨args, held (⟨p, s.ip + 1, kept⟩ :: calls), before, ?_, ?_, ?_⟩
      · simpa using congrArg List.length inputs
      · intro u during
        rw [typed.size_calls] at during
        rcases during.wellTyped accepted typed' with ⟨inner, typed⟩ | ⟨-, still⟩
        · obtain ⟨-, w, own, -, -, stack⟩ := typed.fits
          exact ⟨own ++ held inner, by rw [stack, held_append, List.append_assoc]⟩
        · exact still
      · intro u v instr' during step ended
        rw [typed.size_calls] at during ended
        obtain ⟨back, returns, outs⟩ := during.returns accepted typed' step ended
        exact ⟨back, Stack.ext (returns.trans typed.returns.symm), outs⟩
  · exact (not_step_behind behind call).elim

/-- A procedure called with a value below it: the run comes back behind the call, with one integer
more on that value. -/
theorem call_frames_protected_above :
    let program := (Block.plain (.literal (.int 7)) (.procedure ⟨"one", [], [.int]⟩
      (.plain (.literal (.int 1)) .nil) (.plain (.name "one") .nil))).program
    load "7 proc one in int do 1 end one" = .ok program ∧
      ∀ {ω : Type} (host : Host ω) (world : ω), ∃ is s call t u last v,
        Path { program, host, limit := 2 } { store := { world } } is s ∧
        Step { program, host, limit := 2 } s call t ∧ call.token = .name "one" ∧
        During { program, host, limit := 2 } s.store.calls.size t u ∧
        Step { program, host, limit := 2 } u last v ∧ v.store.calls.size ≤ s.store.calls.size ∧
        v.ip = 5 ∧ ∃ out, v.store.stack.toList = [out, .int 7] ∧ out.kind = .int := by
  intro program
  have loaded : load "7 proc one in int do 1 end one" = .ok program :=
    ok_of_toOption (by decide +kernel)
  refine ⟨loaded, ?_⟩
  intro ω host world
  let c : Setup ω := { program, host, limit := 2 }
  let below : Store ω := { stack := .ofList [.int 7], world }
  let entered : Store ω := { below with calls := .ofList [5] }
  let above : Stack Value := .ofList [.int 1, .int 7]
  have run : Path c { store := { world } } _ ⟨4, 2, below⟩ :=
    .cons (t := ⟨1, 1, below⟩) ⟨rfl, rfl⟩ (.cons ⟨rfl, rfl⟩ (.nil _))
  have call : Step c ⟨4, 2, below⟩ { token := .name "one" } ⟨2, 3, entered⟩ := ⟨rfl, rfl⟩
  have during : During c 0 ⟨2, 3, entered⟩ ⟨3, 4, { entered with stack := above }⟩ :=
    .step (.start Nat.one_pos) ⟨rfl, rfl⟩ Nat.one_pos
  have last : Step c ⟨3, 4, { entered with stack := above }⟩ _
      ⟨5, 5, { below with stack := above }⟩ := ⟨rfl, rfl⟩
  obtain ⟨args, xs, before, count, -, returns⟩ :=
    call_frames_protected loaded host 2 world run call rfl rfl
  obtain rfl : args = [] := List.eq_nil_of_length_eq_zero count
  obtain rfl : [.int 7] = xs := before
  obtain ⟨back, -, outs, after, kinds⟩ := returns _ _ _ during last (Nat.le_refl 0)
  obtain ⟨out, rfl, kind⟩ := List.map_eq_singleton_iff.1 kinds
  exact ⟨_, _, _, _, _, _, _, run, call, rfl, during, last, Nat.le_refl 0, back, out, after, kind⟩

end Chore.Typing
