import Chore.Proofs.Typing.Step

/-!
# Why a step of the check fails

The errors of the check are of two families. Some are about kinds and names: a program with such an
error is ill-typed. The others are structural: the blocks of the program do not fit together, or the
check finds no way through it. Here is, for each kind of instruction a block has, that a step on it
fails with no structural error (`Orderly`), given that the innermost saved shape is that of the word
the instruction belongs to.
-/

set_option autoImplicit false

namespace Chore

/-- The errors that are about the blocks of a program and the way through it. -/
def TypeError.IsStructural : TypeError → Prop
  | unexpectedCause .. | unsupportedJoin .. | noOpenBlock .. | unclosedBlock ..
  | unresolvedJump .. | nestedProcedure .. | endless .. => True
  | _ => False

namespace Typing

variable {α β : Type}

/-- A result that is no structural error. -/
def Orderly (r : Except TypeError α) : Prop :=
  ∀ e, r = .error e → ¬e.IsStructural

namespace Orderly

theorem ok (a : α) : Orderly (.ok a) := by
  rintro e ⟨⟩

theorem error {e : TypeError} (h : ¬e.IsStructural) : Orderly (.error e : Except TypeError α) := by
  rintro _ ⟨⟩
  exact h

theorem bind {x : Except TypeError α} {f : α → Except TypeError β} (h : Orderly x)
    (g : ∀ a, Orderly (f a)) : Orderly (x >>= f) := by
  cases x with
  | error e => exact error (h e rfl)
  | ok a => exact g a

/-- One of two results, whichever a condition chooses. -/
theorem ite {c : Prop} [Decidable c] {x y : Except TypeError α} (h : Orderly x)
    (g : Orderly y) : Orderly (if c then x else y) := by
  by_cases hc : c
  · rwa [if_pos hc]
  · rwa [if_neg hc]

end Orderly

theorem orderly_retype (op : Word) (i : Nat) (shape : Shape) : Orderly (op.retype i shape) := by
  unfold Word.retype
  apply Orderly.ite
  · exact .error nofun
  · cases op.results? (shape.take op.arity) with
    | none => exact .error nofun
    | some kinds => exact .ok _

theorem orderly_take (op : String) (i n : Nat) (shape : Shape) : Orderly (take op i n shape) := by
  unfold take
  exact .ite (.error nofun) (.ok _)

namespace Walk

variable {program : Program} {o : Option Procedure} {w : Walk} {i : Nat}

theorem orderly_compare (m : Mark) (p : Preview) : Orderly (w.compare m i p) := by
  unfold compare
  exact .ite (.ok _) (.error nofun)

theorem orderly_returns (p : Procedure) (shape : Shape) : Orderly (returns p i shape) := by
  unfold returns
  exact .ite (.ok _) (.error nofun)

theorem orderly_dropRet (p : Procedure) (shape : Shape) :
    Orderly (dropRet program p i shape) := by
  unfold dropRet
  cases literalCount? program p i 1 with
  | none => exact .error nofun
  | some drop =>
    apply (orderly_take _ _ _ _).bind
    intro first
    apply (orderly_take _ _ _ _).bind
    intro second
    exact .ok _

theorem orderly_keepRet (p : Procedure) (shape : Shape) :
    Orderly (keepRet program p i shape) := by
  unfold keepRet
  cases literalCount? program p i 1 with
  | none => exact .error nofun
  | some drop =>
    cases literalCount? program p i 2 with
    | none => exact .error nofun
    | some keep =>
      apply (orderly_take _ _ _ _).bind
      intro first
      apply (orderly_take _ _ _ _).bind
      intro second
      apply (orderly_take _ _ _ _).bind
      intro third
      exact .ok _

theorem orderly_leave (l : Leave) : Orderly (w.leave program o i l) := by
  cases o with
  | none =>
    cases l with
    | exit => exact .ok w
    | _ => exact .error nofun
  | some p =>
    cases l with
    | exit => exact .ok w
    | ret => exact (orderly_returns p _).bind fun _ => .ok _
    | dropRet =>
      apply (orderly_dropRet p _).bind
      intro shape
      exact (orderly_returns p shape).bind fun _ => .ok _
    | keepRet =>
      apply (orderly_keepRet p _).bind
      intro shape
      exact (orderly_returns p shape).bind fun _ => .ok _

theorem orderly_call (name : String) : Orderly (w.call program i name) := by
  unfold call
  cases program.procedure? name with
  | none => exact .error nofun
  | some p =>
    apply (orderly_take _ _ _ _).bind
    intro taken
    exact .ite (.ok _) (.error nofun)

/-- A plain token never finds the blocks in disorder. -/
theorem orderly_plain {token : Token} (plain : token.isPlain = true) :
    Orderly (w.step program o i { token }) := by
  cases token with
  | literal v => exact .ok _
  | header sig => cases plain
  | name name => exact orderly_call name
  | word op =>
    cases op with
    | mark m => cases plain
    | leave l => exact orderly_leave l
    | _ => exact (orderly_retype _ _ _).bind fun _ => .ok _

theorem orderly_branch (k : BranchKind) (n : Nat) :
    Orderly (w.step program o i { token := k.mark.token, next := some n }) := by
  cases k with
  | onTrue => exact (orderly_retype _ _ _).bind fun _ => .ok _
  | onFalse => exact (orderly_retype _ _ _).bind fun _ => .ok _

theorem orderly_loop (k : LoopKind) (n : Nat) :
    Orderly (w.step program o i { token := k.mark.token, next := some n }) := by
  cases k with
  | whileTrue => exact .ok _
  | untilTrue => exact .ok _

theorem innermost_eq (m : Mark) {p : Preview} {previews : List Preview}
    (opened : w.previews = p :: previews) : w.innermost m i = .ok (p, previews) := by
  unfold innermost
  rw [opened]

/-- A `do` finds the shape that the word in front of its header saved. -/
theorem orderly_test {k : LoopKind} {n : Nat} {role : Role} {p : Preview}
    {previews : List Preview} (opened : w.previews = p :: previews)
    (cause : p.cause = k.mark.token) :
    Orderly (w.step program o i { token := Mark.test.token, next := some n, role }) := by
  have loops : p.cause = Mark.whileTrue.token ∨ p.cause = Mark.untilTrue.token := by
    rw [cause]
    cases k <;> simp [LoopKind.mark]
  apply (orderly_retype (.mark .test) i w.shape).bind
  intro shape
  rw [innermost_eq .test opened]
  change Orderly (if _ then _ else _)
  rw [if_pos loops]
  cases w.returned with
  | false => exact (orderly_compare .test p).bind fun _ => .ok _
  | true => exact .ok _

/-- An `else` finds the shape that the word in front of its first arm saved. -/
theorem orderly_otherwise {k : BranchKind} {n : Nat} {p : Preview} {previews : List Preview}
    (opened : w.previews = p :: previews) (cause : p.cause = k.mark.token) :
    Orderly (w.step program o i { token := Mark.otherwise.token, next := some n }) := by
  have branches : p.cause = Mark.onTrue.token ∨ p.cause = Mark.onFalse.token := by
    rw [cause]
    cases k <;> simp [BranchKind.mark]
  change Orderly (w.innermost .otherwise i >>= _)
  rw [innermost_eq .otherwise opened]
  change Orderly (if _ then _ else _)
  rw [if_pos branches]
  exact .ok _

/-- An `end` finds a shape it can join. -/
theorem orderly_close {next : Option Nat} {role : Role} {p : Preview} {previews : List Preview}
    (opened : w.previews = p :: previews) (closes : joins p.cause = true) :
    Orderly (w.step program o i { token := Mark.close.token, next, role }) := by
  change Orderly (w.innermost .close i >>= _)
  rw [innermost_eq .close opened]
  change Orderly (if _ then _ else _)
  rw [if_pos closes]
  cases !w.returned && !p.returned with
  | false => exact .ok _
  | true => exact (orderly_compare .close p).bind fun _ => .ok _

end Walk

end Typing

end Chore
