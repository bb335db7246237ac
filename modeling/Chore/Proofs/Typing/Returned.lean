import Chore.Proofs.Block.WellFormed
import Chore.Proofs.Typing.Step

/-!
# Paths that have returned

The check marks a path that has returned, and such a path takes no part where it would meet
another. Whether the path behind a block is marked depends on the block and on the mark in front of
it alone (`Block.returnedBehind`). A mark stays through every block without loops, so the shape of
unreachable code is compared nowhere (`Walk.close_unseen`, `checkProcedure_unseen`).

Not so behind a loop: its `end` takes the mark away, whether or not the path that came to the loop
had returned. Behind a loop in unreachable code the check compares shapes again, and rejects
programs for what no run can get to (`dead_loop_is_compared`).
-/

set_option autoImplicit false

namespace Chore

/-- The token ends a path. -/
def Token.returns : Token → Bool
  | .word (.leave .exit) => false
  | .word (.leave _) => true
  | _ => false

namespace Block

/-- Whether the path behind a block is marked as returned, from the mark in front of it. -/
def returnedBehind : Block → Bool → Bool
  | nil, returned => returned
  | plain t rest, returned => rest.returnedBehind (returned || t.returns)
  | branch _ body rest, returned => rest.returnedBehind (body.returnedBehind returned && returned)
  | choice _ body alternative rest, returned =>
    rest.returnedBehind (alternative.returnedBehind returned && body.returnedBehind returned)
  | loop _ _ _ rest, _ => rest.returnedBehind false
  | procedure _ _ rest, returned => rest.returnedBehind returned

/-- There is no loop in the block. -/
def loopFree : Block → Bool
  | nil => true
  | plain _ rest => rest.loopFree
  | branch _ body rest => body.loopFree && rest.loopFree
  | choice _ body alternative rest => body.loopFree && (alternative.loopFree && rest.loopFree)
  | loop .. => false
  | procedure _ body rest => body.loopFree && rest.loopFree

/-- Behind a block without loops, a path that had returned still has. -/
theorem returnedBehind_true {b : Block} (h : b.loopFree = true) : b.returnedBehind true = true := by
  induction b with
  | nil => rfl
  | plain t rest ih => exact ih h
  | branch k body rest ihb ihr =>
    simp only [loopFree, Bool.and_eq_true] at h
    rw [returnedBehind, ihb h.1, Bool.and_self, ihr h.2]
  | choice k body alternative rest ihb iha ihr =>
    simp only [loopFree, Bool.and_eq_true] at h
    rw [returnedBehind, ihb h.1, iha h.2.1, Bool.and_self, ihr h.2.2]
  | loop k header body rest => cases h
  | procedure sig body rest ihb ihr =>
    simp only [loopFree, Bool.and_eq_true] at h
    exact ihr h.2

end Block

namespace Typing

namespace Walk

variable {program : Program} {o : Option Procedure} {w w' : Walk} {i : Nat}

theorem steps_cons_ok {instr : Instr} {is : List Instr}
    (h : w.steps program o i (instr :: is) = .ok w') :
    ∃ v, w.step program o i instr = .ok v ∧ v.steps program o (i + 1) is = .ok w' :=
  bind_ok h

theorem steps_append_ok {is js : List Instr} (h : w.steps program o i (is ++ js) = .ok w') :
    ∃ v, w.steps program o i is = .ok v ∧ v.steps program o (i + is.length) js = .ok w' := by
  induction is generalizing w i with
  | nil => exact ⟨w, rfl, h⟩
  | cons instr is ih =>
    obtain ⟨u, stepped, h⟩ := steps_cons_ok h
    obtain ⟨v, first, second⟩ := ih h
    refine ⟨v, ?_, ?_⟩
    · rw [steps, stepped]
      exact first
    · rw [List.length_cons, ← Nat.add_assoc, Nat.add_right_comm]
      exact second

/-- A plain token that is accepted marks the path if it ends it, and takes no mark away. -/
theorem returned_step {token : Token} (plain : token.isPlain = true)
    (h : w.step program o i { token } = .ok w') : w'.returned = (w.returned || token.returns) := by
  by_cases data : token.isData = true
  · have noReturn : token.returns = false := by
      cases token with
      | word op => cases op <;> first | rfl | cases data
      | _ => rfl
    rw [(step_data data h).2.1, noReturn, Bool.or_false]
  · cases token with
    | literal v => exact absurd rfl data
    | header sig => cases plain
    | name s =>
      obtain ⟨p, -, -, -, rfl⟩ := step_name h
      exact (Bool.or_false _).symm
    | word op =>
      cases op with
      | mark m => cases plain
      | leave l =>
        cases l with
        | ret => rw [(step_ret h).1]; exact (Bool.or_true _).symm
        | dropRet => rw [(step_dropRet h).1]; exact (Bool.or_true _).symm
        | keepRet => rw [(step_keepRet h).1]; exact (Bool.or_true _).symm
        | exit => rw [← Except.ok.inj h]; exact (Bool.or_false _).symm
      | _ => exact absurd rfl data

/-- Two paths that meet have returned if both have; behind a loop none has. -/
theorem returned_joined (p : Preview) (previews : List Preview) :
    (w.joined p previews).returned =
      (p.cause ≠ Mark.test.token && (w.returned && p.returned)) := by
  unfold joined
  by_cases test : p.cause = Mark.test.token
  · simp [test]
  · cases w.returned <;> simp [test]

/-- **What the check knows behind a block**: the blocks that were open in front of it, and the mark
that the block makes of the one there. -/
theorem steps_returned {b : Block} (proper : b.Proper) {base : Nat}
    (h : w.steps program o i (b.instructions base) = .ok w') :
    w'.previews = w.previews ∧ w'.returned = b.returnedBehind w.returned := by
  induction b generalizing base i w w' with
  | nil =>
    obtain rfl := Except.ok.inj h
    exact ⟨rfl, rfl⟩
  | plain t rest ih =>
    obtain ⟨v, stepped, h⟩ := steps_cons_ok h
    obtain ⟨previews, returned⟩ := ih proper.2 h
    rw [previews_step proper.1 stepped] at previews
    rw [returned_step proper.1 stepped] at returned
    exact ⟨previews, returned⟩
  | branch k body rest ihb ihr =>
    obtain ⟨u, entered, h⟩ := steps_cons_ok h
    obtain ⟨kind, shape, -, -, rfl⟩ := step_branch entered
    obtain ⟨v, inside, h⟩ := steps_append_ok h
    obtain ⟨saved, marked⟩ := ihb proper.1 inside
    obtain ⟨x, closed, h⟩ := steps_cons_ok h
    obtain ⟨-, rfl⟩ := step_close saved closed
    obtain ⟨previews, returned⟩ := ihr proper.2 h
    have noTest : k.mark.token ≠ Mark.test.token := by cases k <;> decide
    rw [previews_joined] at previews
    rw [returned_joined, marked, decide_eq_true noTest, Bool.true_and] at returned
    exact ⟨previews, returned⟩
  | choice k body alternative rest ihb iha ihr =>
    obtain ⟨u, entered, h⟩ := steps_cons_ok h
    obtain ⟨kind, shape, -, -, rfl⟩ := step_branch entered
    obtain ⟨v, inside, h⟩ := steps_append_ok h
    obtain ⟨saved, marked⟩ := ihb proper.1 inside
    obtain ⟨x, divided, h⟩ := steps_cons_ok h
    obtain rfl := step_otherwise saved divided
    obtain ⟨y, second, h⟩ := steps_append_ok h
    obtain ⟨saved', marked'⟩ := iha proper.2.1 second
    obtain ⟨z, closed, h⟩ := steps_cons_ok h
    obtain ⟨-, rfl⟩ := step_close saved' closed
    obtain ⟨previews, returned⟩ := ihr proper.2.2 h
    have noTest : Mark.otherwise.token ≠ Mark.test.token := by decide
    rw [previews_joined] at previews
    rw [returned_joined, marked', marked, decide_eq_true noTest, Bool.true_and] at returned
    exact ⟨previews, returned⟩
  | loop k header body rest ihh ihb ihr =>
    obtain ⟨u, entered, h⟩ := steps_cons_ok h
    obtain rfl := step_loop entered
    obtain ⟨v, inside, h⟩ := steps_append_ok h
    obtain ⟨saved, -⟩ := ihh proper.1 inside
    obtain ⟨x, tested, h⟩ := steps_cons_ok h
    obtain ⟨-, rfl⟩ := step_test saved tested
    obtain ⟨y, again, h⟩ := steps_append_ok h
    obtain ⟨saved', -⟩ := ihb proper.2.1 again
    obtain ⟨z, closed, h⟩ := steps_cons_ok h
    obtain ⟨-, rfl⟩ := step_close saved' closed
    obtain ⟨previews, returned⟩ := ihr proper.2.2 h
    rw [previews_joined] at previews
    rw [returned_joined] at returned
    exact ⟨previews, returned⟩
  | procedure sig body rest =>
    obtain ⟨u, entered, -⟩ := steps_cons_ok h
    exact absurd entered (step_header rfl)

/-- An `else` saves the shape and the mark of the arm in front of it. -/
theorem otherwise_saves (h : w.otherwise i = .ok w') :
    ∃ p previews, w'.previews = p :: previews ∧ p.shape = w.shape ∧
      p.cause = Mark.otherwise.token ∧ p.returned = w.returned := by
  obtain ⟨⟨p, previews⟩, -, h⟩ := bind_ok h
  by_cases branches : p.cause = Mark.onTrue.token ∨ p.cause = Mark.onFalse.token
  · simp only [if_pos branches] at h
    obtain rfl := Except.ok.inj h
    exact ⟨_, previews, rfl, rfl, rfl, rfl⟩
  · simp only [if_neg branches] at h
    cases h

/-- At an `end` where one of the two paths has returned, nothing is compared. -/
theorem close_unseen {p : Preview} {previews : List Preview} (opened : w.previews = p :: previews)
    (closes : joins p.cause = true) (unseen : w.returned = true ∨ p.returned = true) :
    w.close i = .ok (w.joined p previews) := by
  have noCompare : (!w.returned && !p.returned) = false := by
    rcases unseen with h | h <;> simp [h]
  unfold close innermost
  rw [opened]
  simp only [bind, Except.bind, closes, noCompare, if_true]
  rfl

end Walk

/-- A procedure whose body ends behind a return is not compared with its outputs there. -/
theorem checkProcedure_unseen {program : Program} {p : Procedure} {w : Walk}
    (followed : ({ shape := p.signature.inputs.reverse } : Walk).steps program (some p) p.start
      (bodyOf program p) = .ok w)
    (unseen : w.returned = true) : checkProcedure program p = w.finish := by
  unfold checkProcedure
  simp only [followed, bind, Except.bind, unseen]
  rfl

/-- The shape of a walk is compared with no other: not at the `end` of the block around it, not at
the `end` behind the arm that an `else` begins, and not with the outputs of a procedure. -/
structure Walk.Unseen (w : Walk) : Prop where
  close {i : Nat} {p : Preview} {previews : List Preview} : w.previews = p :: previews →
    joins p.cause = true → w.close i = .ok (w.joined p previews)
  otherwise {i j : Nat} {v x : Walk} {p : Preview} {previews : List Preview} :
    w.otherwise i = .ok v → v.previews = p :: previews → x.previews = p :: previews →
    x.close j = .ok (x.joined p previews)
  outputs {program : Program} {p : Procedure} :
    ({ shape := p.signature.inputs.reverse } : Walk).steps program (some p) p.start
      (bodyOf program p) = .ok w → checkProcedure program p = w.finish

theorem Walk.unseen_of_returned {w : Walk} (h : w.returned = true) : w.Unseen where
  close opened closes := close_unseen opened closes (.inl h)
  otherwise divided saved opened := by
    obtain ⟨q, previews, saved', -, cause, marked⟩ := otherwise_saves divided
    obtain ⟨rfl, rfl⟩ := List.cons.inj (saved.symm.trans saved')
    exact close_unseen opened (by rw [cause]; rfl) (.inr (marked.trans h))
  outputs followed := checkProcedure_unseen followed h

/-- **Paths that have returned**, behind a block that the check accepts: the blocks open in front of
it are those open behind it, and the mark behind it is the one the block makes of the mark in front
of it. If the block has no loop, a path that had returned still has, and its shape is compared with
no other. -/
theorem returned_behind_block {b : Block} (proper : b.Proper) {program : Program} {p : Procedure}
    {i : Nat} {w w' : Walk} (h : w.steps program (some p) i (b.instructions i) = .ok w') :
    w'.previews = w.previews ∧ w'.returned = b.returnedBehind w.returned ∧
      (b.loopFree = true → w.returned = true → w'.returned = true ∧ w'.Unseen) := by
  obtain ⟨previews, returned⟩ := Walk.steps_returned proper h
  refine ⟨previews, returned, fun noLoop dead => ?_⟩
  have still : w'.returned = true := by rw [returned, dead, Block.returnedBehind_true noLoop]
  exact ⟨still, Walk.unseen_of_returned still⟩

/-- A choice in unreachable code whose arms leave two shapes, neither of which is the one in front
of it. -/
theorem returned_behind_choice :
    let b := Block.choice .onTrue (.plain (.literal (.text "")) .nil) .nil .nil
    let p : Procedure := ⟨0, 4, ⟨"f", [], []⟩⟩
    let w : Walk := { shape := [.int, .path], returned := true }
    let w' : Walk := { shape := [.text, .path], returned := true }
    w.steps b.program (some p) 0 (b.instructions 0) = .ok w' ∧ b.loopFree = true ∧ w'.Unseen := by
  intro b p w w'
  have accepted : w.steps b.program (some p) 0 (b.instructions 0) = .ok w' := rfl
  have proper : b.Proper := ⟨⟨rfl, trivial⟩, trivial, trivial⟩
  obtain ⟨-, -, unseen⟩ := returned_behind_block proper accepted
  exact ⟨accepted, rfl, (unseen rfl rfl).2⟩

/-- **A loop in unreachable code** is taken for a way to what is behind it. The procedure returns in
front of the loop, as declared, and no run gets further; but the mark is gone behind the loop, and
the check compares the shape there with the outputs. -/
theorem dead_loop_is_compared :
    let loop := Block.loop .whileTrue (.plain (.literal (.int 1)) .nil) .nil
    let b := Block.procedure ⟨"f", [], [.int]⟩ (.plain (.literal (.int 5))
      (.plain (.word (.leave .ret)) (loop (.plain (.word (.shuffle .drop)) .nil)))) .nil
    let p : Procedure := ⟨1, 8, ⟨"f", [], [.int]⟩⟩
    let w : Walk := { shape := [.int], returned := true }
    Program.ofTokens b.tokens = .ok b.program ∧ b.program.procedures = [p] ∧
      ({ shape := [] } : Walk).steps b.program (some p) 1
        [{ token := .literal (.int 5) }, { token := .word (.leave .ret) }] = .ok w ∧
      w.steps b.program (some p) 3 ((loop .nil).instructions 3) = .ok { w with returned := false } ∧
      check b.program = .error (.signatureMismatch "f" 8 [.int] []) :=
  ⟨rfl, rfl, rfl, rfl, rfl⟩

end Typing

end Chore
