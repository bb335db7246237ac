import Chore.Proofs.Block.Control

/-!
# Instructions at other indices

A program may be laid out at other indices: `Instr.rename f` is an instruction whose targets went
where `f` says. `Renames f m m'` says that `m'` does with such pending returns what `m` does with
the original ones, and goes where `f` takes the effect of `m`. `renames_perform` is the result for
whole instructions: the values and the outside world never see an index.
-/

set_option autoImplicit false

namespace Chore

/-- The same closing, with the loop at another index. -/
def Closing.rename (f : Nat → Nat) : Closing → Closing
  | branch => branch
  | loop header => loop (f header)
  | procedure => procedure

/-- The same role, with the loop at another index. -/
def Role.rename (f : Nat → Nat) : Role → Role
  | plain => plain
  | test kind header => test kind (f header)
  | close what => close (what.rename f)

/-- The same instruction, with its targets at other indices. -/
def Instr.rename (f : Nat → Nat) (instr : Instr) : Instr where
  token := instr.token
  next := instr.next.map f
  role := instr.role.rename f

/-- The same procedure at other indices. -/
def Procedure.rename (f : Nat → Nat) (p : Procedure) : Procedure where
  start := f p.start
  stop := f p.stop
  signature := p.signature

/-- The same effect, with its target at another index. -/
def Effect.rename (f : Nat → Nat) : Effect → Effect
  | next => next
  | jump n => jump (f n)
  | call n => call (f n)
  | exit => exit

/-- The stack of what its elements go to. -/
def Stack.map {α β : Type} (f : α → β) (s : Stack α) : Stack β where
  toList := s.toList.map f
  size := s.size
  size_eq := by rw [List.length_map, s.size_eq]

namespace Stack

variable {α β : Type} (f : α → β)

@[simp] theorem map_push (s : Stack α) (a : α) : (s.push a).map f = (s.map f).push (f a) := rfl

@[simp] theorem size_map (s : Stack α) : (s.map f).size = s.size := rfl

theorem pop?_map (s : Stack α) : (s.map f).pop? = s.pop?.map fun (a, t) => (f a, t.map f) := by
  cases popped : s.pop? with
  | none =>
    rw [pop?_eq_none_iff] at popped
    exact pop?_eq_none_iff.2 (congrArg (List.map f) popped)
  | some r =>
    rw [pop?_eq_some_iff] at popped
    exact pop?_eq_some_iff.2 (congrArg (List.map f) popped)

end Stack

namespace Machine

open Block

variable {ω α : Type} {f : Nat → Nat}

/-- The same store, with the pending returns at other indices. -/
def Store.rename (f : Nat → Nat) (s : Store ω) : Store ω :=
  { s with calls := s.calls.map f }

/-- The same scene, with the pending returns at other indices. -/
def Scene.rename (f : Nat → Nat) (s : Scene ω) : Scene ω :=
  s.withCalls (s.calls.map f)

/-- `m'` does at other indices what `m` does. -/
def Renames (f : Nat → Nat) (m m' : Action ω Effect) : Prop :=
  ∀ s : Scene ω, m' (s.rename f) = ((m s).1.map (Effect.rename f), (m s).2.rename f)

theorem renames_pure (e : Effect) :
    Renames f (pure e : Action ω Effect) (pure (e.rename f)) :=
  fun _ => rfl

theorem renames_fail (fault : Fault) :
    Renames f (.fail fault : Action ω Effect) (.fail fault) :=
  fun _ => rfl

/-- A part that only works on values, and then one that goes somewhere. -/
theorem renames_bind {m m' : Action ω α} {k k' : α → Action ω Effect} (kept : Mirrors m m')
    (mirrors : Mirrors m' m) (h : ∀ a, Renames f (k a) (k' a)) :
    Renames f (m >>= k) (m' >>= k') := by
  intro s
  have same := mirrors s (s.calls.map f)
  rw [← kept.calls s] at same
  rw [Attempt.bind_apply, Attempt.bind_apply, Scene.rename, ← kept.calls s, same]
  rcases m s with ⟨fault | a, t⟩
  · rfl
  · exact h a t

theorem renames_ret : Renames f (ret : Action ω Effect) ret := by
  intro s
  have popped : (s.rename f).calls.pop? = s.calls.pop?.map fun (n, t) => (f n, t.map f) :=
    s.calls.pop?_map f
  unfold ret
  rw [popped]
  cases s.calls.pop? <;> rfl

theorem renames_target (instr : Instr) :
    Renames f (do return .jump (← target instr) : Action ω Effect)
      (do return .jump (← target (instr.rename f))) := by
  unfold target Instr.rename
  cases instr.next with
  | none => exact renames_fail _
  | some n => exact renames_pure (.jump n)

theorem renames_goOnIf (b : Bool) (instr : Instr) :
    Renames f (goOnIf b instr : Action ω Effect) (goOnIf b (instr.rename f)) := by
  cases b with
  | true => exact renames_pure .next
  | false => exact renames_target instr

theorem renames_mark (instr : Instr) (m : Mark) :
    Renames f (mark instr m : Action ω Effect) (mark (instr.rename f) m) := by
  have condition (op : Word) (k : Bool → Bool) :
      Renames f (popCondition op >>= fun b => goOnIf (k b) instr : Action ω Effect)
        (popCondition op >>= fun b => goOnIf (k b) (instr.rename f)) :=
    renames_bind (mirrors_popCondition op) (mirrors_popCondition op) fun b =>
      renames_goOnIf (k b) instr
  cases m with
  | onTrue => exact condition _ id
  | onFalse => exact condition _ not
  | whileTrue => exact renames_pure .next
  | untilTrue => exact renames_pure .next
  | otherwise => exact renames_target instr
  | test =>
    obtain ⟨token, next, role⟩ := instr
    cases role with
    | test kind header => exact condition _ (· == kind.goesOn)
    | _ => exact renames_fail _
  | close =>
    obtain ⟨token, next, role⟩ := instr
    cases role with
    | close what =>
      cases what with
      | branch => exact renames_pure .next
      | loop header => exact renames_pure (.jump header)
      | procedure => exact renames_ret
    | _ => exact renames_fail _

section Setups

variable {c c' : Setup ω} (host : c.host = c'.host) (limit : c.limit = c'.limit)

include limit in
theorem renames_leave (l : Leave) : Renames f (leave c l) (leave c' l) := by
  rw [leave_eq, leave_eq]
  refine renames_bind (mirrors_unwind limit l) (mirrors_unwind limit.symm l) fun _ => ?_
  split
  · exact renames_pure .exit
  · exact renames_ret

include host limit in
theorem renames_data {instr : Instr} (data : instr.token.isData = true) :
    Renames f (perform c instr) (perform c' (instr.rename f)) := by
  intro s
  rw [perform_of_isData c data, perform_of_isData c' (show (instr.rename f).token.isData = true
    from data)]
  have kept := (perform_mirrors host limit data).calls s
  have same := perform_mirrors host.symm limit.symm data s (s.calls.map f)
  rw [← kept] at same
  rw [Scene.rename, ← kept]
  refine same.trans ?_
  rcases performed : perform c { token := instr.token } s with ⟨fault | e, t⟩
  · rfl
  · obtain rfl := effect_of_isData data performed
    rfl

include host limit in
/-- **Instructions do at other indices what they did**, if the names lead where the procedures
went. -/
theorem renames_perform (found : ∀ name, c'.program.procedure? name =
      (c.program.procedure? name).map (Procedure.rename f)) (instr : Instr) :
    Renames f (perform c instr) (perform c' (instr.rename f)) := by
  by_cases data : instr.token.isData = true
  · exact renames_data host limit data
  · obtain ⟨token, next, role⟩ := instr
    cases token with
    | literal v => exact absurd rfl data
    | header sig => exact renames_target _
    | name name =>
      simp only [perform_eq, Instr.rename, found]
      cases c.program.procedure? name with
      | none => exact renames_fail _
      | some p => exact renames_pure (.call p.start)
    | word w =>
      cases w with
      | mark m => exact renames_mark _ m
      | leave l => exact renames_leave limit l
      | _ => exact absurd rfl data

end Setups

end Machine

end Chore
