import Chore.Proofs.Block.Instructions
import Chore.Proofs.Machine.Limits

/-!
# Where instructions go

What an instruction does to the pending returns, and where the machine goes on behind it, whatever
its operands are: `Sends` has one case for each way, and `sends_perform` says that there is no
other. An instruction that finds no call to go back behind is one that goes back
(`returns_of_follow`). Where the instruction stands, and whether the program was linked, has no part
in it.
-/

set_option autoImplicit false

namespace Chore.Machine

open Block

variable {ω α : Type}

/-- Where an instruction sends the machine, and the pending returns it leaves: `calls` are those it
found. -/
inductive Sends (program : Program) (instr : Instr) (calls : Stack Nat) :
    Effect → Stack Nat → Prop where
  | next (other : ∀ sig, instr.token ≠ .header sig)
      (stays : instr.token = Mark.close.token → instr.role ≠ .close .procedure) :
      Sends program instr calls .next calls
  | jump {n : Nat} (target : instr.next = some n) : Sends program instr calls (.jump n) calls
  | again {n : Nat} (role : instr.role = .close (.loop n)) :
      Sends program instr calls (.jump n) calls
  | call {name : String} {p : Procedure} (token : instr.token = .name name)
      (found : program.procedure? name = some p) : Sends program instr calls (.call p.start) calls
  | back {n : Nat} {rest : Stack Nat} (returns : Returns instr)
      (popped : calls.pop? = some (n, rest)) : Sends program instr calls (.jump n) rest
  | exit (token : instr.token = .word (.leave .exit)) : Sends program instr calls .exit calls

/-- A part of an instruction that comes to such an effect, if it comes to one. -/
def Controls (program : Program) (instr : Instr) (m : Action ω Effect) : Prop :=
  ∀ s e u, m s = (.ok e, u) → Sends program instr s.calls e u.calls

/-- A part that does the same on any pending returns keeps them. -/
theorem Mirrors.calls {m m' : Action ω α} (h : Mirrors m m') (s : Scene ω) :
    (m s).2.calls = s.calls :=
  congrArg (fun r => r.2.calls) (h s s.calls)

section Rules

variable {program : Program} {instr : Instr}

theorem controls_pure {e : Effect} (h : ∀ calls, Sends program instr calls e calls) :
    Controls program instr (pure e : Action ω Effect) := by
  rintro s _ _ ⟨⟩
  exact h s.calls

theorem controls_fail (fault : Fault) :
    Controls program instr (.fail fault : Action ω Effect) :=
  nofun

theorem controls_bind {m m' : Action ω α} {f : α → Action ω Effect} (h : Mirrors m m')
    (g : ∀ a, Controls program instr (f a)) : Controls program instr (m >>= f) := by
  intro s e u performed
  have kept := h.calls s
  rw [Attempt.bind_apply] at performed
  rcases hm : m s with ⟨_ | a, t⟩ <;> rw [hm] at performed kept
  · cases performed
  · exact kept ▸ g a t e u performed

theorem controls_ret (returns : Returns instr) :
    Controls program instr (ret : Action ω Effect) := by
  intro s e u performed
  unfold ret at performed
  split at performed
  next popped =>
    cases performed
    exact .back returns popped
  next => cases performed

theorem controls_target :
    Controls program instr (do return .jump (← target instr) : Action ω Effect) := by
  unfold target
  cases target : instr.next with
  | none => exact controls_fail _
  | some n => exact controls_pure fun _ => .jump target

theorem controls_goOnIf (b : Bool) (next : ∀ calls, Sends program instr calls .next calls) :
    Controls program instr (goOnIf b instr : Action ω Effect) := by
  cases b with
  | true => exact controls_pure next
  | false => exact controls_target

/-- The words of a block's frame. -/
theorem controls_mark (m : Mark) (token : instr.token = m.token) :
    Controls program instr (mark instr m : Action ω Effect) := by
  have other (sig : Signature) : instr.token ≠ .header sig := by
    rw [token]
    nofun
  have next (inner : m ≠ .close) (calls : Stack Nat) : Sends program instr calls .next calls := by
    refine .next other fun close => absurd ?_ inner
    exact Word.mark.inj (Token.word.inj (token.symm.trans close))
  cases m with
  | onTrue =>
    exact controls_bind (mirrors_popCondition _) fun b => controls_goOnIf b (next nofun)
  | onFalse =>
    exact controls_bind (mirrors_popCondition _) fun b => controls_goOnIf _ (next nofun)
  | whileTrue => exact controls_pure (next nofun)
  | untilTrue => exact controls_pure (next nofun)
  | test =>
    unfold mark
    cases instr.role with
    | test kind header =>
      exact controls_bind (mirrors_popCondition _) fun b => controls_goOnIf _ (next nofun)
    | _ => exact controls_fail _
  | otherwise => exact controls_target
  | close =>
    obtain ⟨_, target, role⟩ := instr
    obtain rfl := token
    cases role with
    | close what =>
      cases what with
      | branch => exact controls_pure fun _ => .next other nofun
      | loop header => exact controls_pure fun _ => .again rfl
      | procedure => exact controls_ret .close
    | _ => exact controls_fail _

end Rules

theorem perform_of_isData (c : Setup ω) {instr : Instr} (data : instr.token.isData = true) :
    perform c instr = perform c { token := instr.token } := by
  obtain ⟨token, next, role⟩ := instr
  cases token with
  | literal v => rfl
  | word w =>
    cases w with
    | mark m => cases data
    | leave l => cases data
    | _ => rfl
  | _ => cases data

/-- **Where an instruction goes**: every instruction that does not fail goes on, jumps to its
target, calls, goes back behind a call, or leaves the program. -/
theorem sends_perform (c : Setup ω) (instr : Instr) :
    Controls c.program instr (perform c instr) := by
  by_cases data : instr.token.isData = true
  · obtain ⟨m, m', left, -, mirrors⟩ := @perform_data ω c c rfl rfl _ data
    rw [perform_of_isData c data, left]
    refine controls_bind mirrors fun _ => controls_pure fun _ => .next ?_ ?_
    · intro sig header
      rw [header] at data
      cases data
    · intro close
      rw [close] at data
      cases data
  · obtain ⟨token, next, role⟩ := instr
    cases token with
    | literal v => exact absurd rfl data
    | header sig => exact controls_target
    | name name =>
      simp only [perform_eq]
      cases found : c.program.procedure? name with
      | none => exact controls_fail _
      | some p => exact controls_pure fun _ => .call rfl found
    | word w =>
      cases w with
      | mark m => exact controls_mark m rfl
      | leave l =>
        simp only [perform_eq, word_eq, leave_eq]
        refine controls_bind (mirrors_unwind rfl l) fun _ => ?_
        by_cases exits : l = .exit
        · rw [if_pos exits]
          exact controls_pure fun _ => .exit (by rw [exits])
        · rw [if_neg exits]
          exact controls_ret (.leave exits)
      | _ => exact absurd rfl data

/-- A step goes where its instruction sends the machine. -/
theorem Step.sends {c : Setup ω} {s t : State ω} {instr : Instr} (step : Step c s instr t) :
    ∃ e store, Sends c.program instr s.store.calls e store.calls ∧
      s.advance c store e = .ok t := by
  have followed := step.followed
  rw [follow_eq] at followed
  rcases performed : perform c instr { s.store with } with ⟨fault | e, scene⟩ <;>
    rw [performed] at followed
  · cases followed
  · exact ⟨e, scene.toStore, sends_perform c instr _ _ _ performed, followed⟩

/-- `exit` leaves the program, and everything else as it is. -/
theorem Step.of_exit {c : Setup ω} {s t : State ω} {instr : Instr} (step : Step c s instr t)
    (exit : instr.token = .word (.leave .exit)) :
    t = { ip := c.program.size, counter := s.counter + 1, store := s.store } := by
  have followed := step.followed
  obtain ⟨token, next, role⟩ := instr
  obtain rfl := exit
  exact (Except.ok.inj followed).symm

theorem Step.stuck_of_exit {c : Setup ω} {s t : State ω} {instr : Instr} (step : Step c s instr t)
    (exit : instr.token = .word (.leave .exit)) : Stuck c t := by
  rw [step.of_exit exit]
  exact stuck_of_size_le (Nat.le_refl _)

/-! ## Returns without a call -/

/-- What a word takes from the stack before it goes back never fails for want of a call. -/
theorem quiet_unwind (c : Setup ω) {E : Fault → Prop}
    (usual : ∀ fault : Fault, fault.isUsual = true → E fault) (l : Leave) :
    Quiet E fun n => unwind (c.withLimit n) l := by
  cases l with
  | ret => exact quiet_pure ()
  | exit => exact quiet_pure ()
  | dropRet =>
    exact quiet_bind (quiet_popCount usual _) fun n =>
      quiet_bind (quiet_popMany usual n) fun _ => quiet_pure ()
  | keepRet =>
    exact quiet_bind (quiet_popCount usual _) fun drop =>
      quiet_bind (quiet_popCount usual _) fun keep => quiet_putBack c usual keep drop

theorem pop?_eq_none_of_ret {s u : Scene ω} (h : ret s = (.error .emptyCallStack, u)) :
    s.calls.pop? = none := by
  unfold ret at h
  split at h
  next => cases h
  next popped => exact popped

theorem usual_ne_emptyCallStack {fault : Fault} (usual : fault.isUsual = true) :
    fault ≠ .emptyCallStack := by
  rintro rfl
  cases usual

/-- An instruction that goes back finds no call only if there is none. -/
theorem Returns.pop?_eq_none {c : Setup ω} {instr : Instr} (returns : Returns instr)
    {s u : Scene ω} (room : s.stack.size ≤ c.limit)
    (performed : perform c instr s = (.error .emptyCallStack, u)) : s.calls.pop? = none := by
  cases returns with
  | close => exact pop?_eq_none_of_ret performed
  | @leave l next role other =>
    obtain ⟨r, faults, -, same⟩ :=
      quiet_unwind c (fun _ => usual_ne_emptyCallStack) l s
    have unwound : unwind c l s = r := same c.limit room
    have kept := (mirrors_unwind (rfl : c.limit = c.limit) l).calls s
    have left : perform c { token := .word (.leave l), next, role } s =
        (unwind c l >>= fun _ => if l = .exit then pure .exit else ret) s := by
      rw [← leave_eq]
      rfl
    rw [left, Attempt.bind_apply, unwound] at performed
    rw [unwound] at kept
    obtain ⟨fault | a, t⟩ := r
    · obtain rfl : fault = .emptyCallStack := Except.error.inj (congrArg Prod.fst performed)
      exact absurd rfl (faults _ rfl)
    · simp only [if_neg other] at performed
      rw [← kept]
      exact pop?_eq_none_of_ret performed

/-- **Only returns fail for want of a call**, and only where none is pending. -/
theorem returns_of_follow {c : Setup ω} {s : State ω} {instr : Instr} (room : Fits c.limit s)
    (fails : s.follow c instr = .error .emptyCallStack) :
    Returns instr ∧ s.store.calls.pop? = none := by
  rw [follow_eq] at fails
  rcases performed : perform c instr { s.store with } with ⟨fault | e, scene⟩ <;>
    rw [performed] at fails
  · obtain rfl : fault = .emptyCallStack := Except.error.inj fails
    by_cases returns : Returns instr
    · exact ⟨returns, returns.pop?_eq_none room.stack performed⟩
    · obtain ⟨r, faults, -, cut⟩ := truncates_perform c (fun _ => usual_ne_emptyCallStack)
        (fun h => absurd h returns) { s.store with }
      have cut : Cut c.limit r (perform c instr { s.store with }) := cut c.limit room.stack
      by_cases fits : r.2.stack.size ≤ c.limit
      · have same := performed.symm.trans (cut.fits fits)
        exact absurd rfl (faults .emptyCallStack (congrArg Prod.fst same).symm).1
      · have full := (cut.full (Nat.lt_of_not_le fits)).1
        rw [performed] at full
        cases full
  · -- the effect of an instruction fails for want of room only
    cases e with
    | call n =>
      simp only [State.advance] at fails
      split at fails <;> cases fails
    | _ => cases fails

end Chore.Machine
