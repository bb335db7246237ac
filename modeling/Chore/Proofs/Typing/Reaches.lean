import Chore.Proofs.Block.Layout
import Chore.Proofs.Typing.Step

/-!
# Where the check comes to

The check goes through the instructions outside of procedures, and through each procedure body on
its own. `Reaches` says with which walk it comes to an index in either case: this is the stack map
of the program. Where no step fails (`Smooth`), the check goes through whole blocks, and the saved
shapes behind a block are those in front of it (`Smooth.through`).
-/

set_option autoImplicit false

namespace Chore.Typing

/-- An index is not behind the end of the procedure that is being checked. -/
def Bounds (o : Option Procedure) (i : Nat) : Prop :=
  ∀ p, o = some p → i ≤ p.stop

theorem Bounds.mono {o : Option Procedure} {i j : Nat} (h : Bounds o j) (le : i ≤ j) : Bounds o i :=
  fun p hp => Nat.le_trans le (h p hp)

/-- Where the check of a procedure, or of what is outside of all, ends. -/
def limitOf (program : Program) : Option Procedure → Nat
  | none => program.size
  | some p => p.stop

/-- The check, of a procedure or of what is outside of all, comes to an index with a walk. -/
inductive Reaches (program : Program) : Option Procedure → Nat → Walk → Prop where
  | start : Reaches program none 0 { shape := [] }
  | enter {p : Procedure} (declared : p ∈ program.procedures) :
      Reaches program (some p) p.start { shape := p.signature.inputs.reverse }
  | step {o : Option Procedure} {i : Nat} {w w' : Walk} {instr : Instr}
      (reached : Reaches program o i w) (bounds : Bounds o (i + 1))
      (fetched : program.instructions[i]? = some instr)
      (stepped : w.step program o i instr = .ok w') : Reaches program o (i + 1) w'
  | skip {i n : Nat} {w : Walk} {instr : Instr} {sig : Signature}
      (reached : Reaches program none i w) (fetched : program.instructions[i]? = some instr)
      (header : instr.token = .header sig) (next : instr.next = some n) : Reaches program none n w

/-- No step of the check fails, and headers are met outside of procedures only. -/
def Smooth (program : Program) (o : Option Procedure) : Prop :=
  ∀ i w instr, Reaches program o i w → Bounds o (i + 1) →
    program.instructions[i]? = some instr →
    (∃ w', w.step program o i instr = .ok w') ∨ o = none ∧ ∃ sig, instr.token = .header sig

variable {program : Program} {o : Option Procedure} {i : Nat} {w : Walk} {instr : Instr}

/-- An instruction that is no header is stepped over. -/
theorem Smooth.next (smooth : Smooth program o) (reached : Reaches program o i w)
    (bounds : Bounds o (i + 1)) (fetched : program.instructions[i]? = some instr)
    (other : ∀ sig, instr.token ≠ .header sig) :
    ∃ w', w.step program o i instr = .ok w' ∧ Reaches program o (i + 1) w' := by
  rcases smooth i w instr reached bounds fetched with ⟨w', stepped⟩ | ⟨-, sig, header⟩
  · exact ⟨w', stepped, .step reached bounds fetched stepped⟩
  · exact absurd header (other sig)

theorem mark_ne_header (m : Mark) (sig : Signature) : m.token ≠ .header sig :=
  nofun

theorem plain_ne_header {token : Token} (plain : token.isPlain = true) (sig : Signature) :
    token ≠ .header sig := by
  rintro rfl
  cases plain

/-- An `end` is stepped over, and the innermost saved shape is gone behind it. -/
theorem Smooth.close (smooth : Smooth program o) {next : Option Nat} {role : Role} {p : Preview}
    {previews : List Preview} (reached : Reaches program o i w) (bounds : Bounds o (i + 1))
    (fetched : program.instructions[i]? = some { token := Mark.close.token, next, role })
    (opened : w.previews = p :: previews) :
    (w.returned = false → p.returned = false → w.shape = p.shape) ∧
      Reaches program o (i + 1) (w.joined p previews) := by
  obtain ⟨w', stepped, there⟩ := smooth.next reached bounds fetched (mark_ne_header _)
  obtain ⟨same, rfl⟩ := Walk.step_close opened stepped
  exact ⟨same, there⟩

/-- The check comes to the headers of some procedures. -/
def MeetsHeaders (program : Program) (o : Option Procedure) (ds : List Block.Declaration) : Prop :=
  ∀ d ∈ ds, ∃ i w, d.start = i + 1 ∧ Reaches program o i w

theorem MeetsHeaders.append {ds es : List Block.Declaration} (h : MeetsHeaders program o ds)
    (g : MeetsHeaders program o es) : MeetsHeaders program o (ds ++ es) := by
  intro d hd
  rcases List.mem_append.1 hd with hd | hd
  · exact h d hd
  · exact g d hd

/-- **The check goes through a block.** It has the same shapes saved behind it as in front, and it
comes to the headers of the procedures declared in it. -/
theorem Smooth.through (smooth : Smooth program o) {b : Block} {base : Nat}
    (stands : b.StandsAt program base) (bounds : Bounds o (base + b.size)) {w : Walk}
    (reached : Reaches program o base w) :
    ∃ w', Reaches program o (base + b.size) w' ∧ w'.previews = w.previews ∧
      (b.Proper → MeetsHeaders program o (b.declarations base)) := by
  induction b generalizing base w with
  | nil => exact ⟨w, reached, rfl, fun _ => nofun⟩
  | plain t rest ih =>
    obtain ⟨plain, fetched, rest_stands⟩ := stands
    have size : base + (Block.plain t rest).size = base + 1 + rest.size := by
      simp only [Block.size]; omega
    rw [size] at bounds ⊢
    obtain ⟨w₁, stepped, reached⟩ :=
      smooth.next reached (bounds.mono (by omega)) fetched (plain_ne_header plain)
    obtain ⟨w₂, reached, previews, headers⟩ := ih rest_stands bounds reached
    exact ⟨w₂, reached, previews.trans (Walk.previews_step plain stepped),
      fun proper => headers proper.2⟩
  | branch k body rest ihb ihr =>
    obtain ⟨opens, body_stands, closes, rest_stands⟩ := stands
    have size : base + (Block.branch k body rest).size = base + body.size + 2 + rest.size := by
      simp only [Block.size]; omega
    rw [size] at bounds ⊢
    obtain ⟨w₁, stepped, reached⟩ :=
      smooth.next reached (bounds.mono (by omega)) opens (mark_ne_header _)
    obtain ⟨kind, shape, -, -, rfl⟩ := Walk.step_branch stepped
    obtain ⟨w₂, reached, previews, headers⟩ := ihb body_stands (bounds.mono (by omega)) reached
    rw [show base + 1 + body.size = base + body.size + 1 by omega] at reached
    obtain ⟨-, reached⟩ := smooth.close reached (bounds.mono (by omega)) closes previews
    obtain ⟨w₃, reached, previews, headers'⟩ := ihr rest_stands bounds reached
    exact ⟨w₃, reached, previews.trans (Walk.previews_joined _ _),
      fun proper => (headers proper.1).append (headers' proper.2)⟩
  | choice k body alternative rest ihb iha ihr =>
    obtain ⟨opens, body_stands, divides, alternative_stands, closes, rest_stands⟩ := stands
    have size : base + (Block.choice k body alternative rest).size =
        base + body.size + alternative.size + 3 + rest.size := by simp only [Block.size]; omega
    rw [size] at bounds ⊢
    obtain ⟨w₁, stepped, reached⟩ :=
      smooth.next reached (bounds.mono (by omega)) opens (mark_ne_header _)
    obtain ⟨kind, shape, -, -, rfl⟩ := Walk.step_branch stepped
    obtain ⟨w₂, reached, previews, headers⟩ := ihb body_stands (bounds.mono (by omega)) reached
    rw [show base + 1 + body.size = base + body.size + 1 by omega] at reached
    obtain ⟨w₃, stepped, reached⟩ :=
      smooth.next reached (bounds.mono (by omega)) divides (mark_ne_header _)
    obtain rfl := Walk.step_otherwise previews stepped
    obtain ⟨w₄, reached, previews, headers'⟩ :=
      iha alternative_stands (bounds.mono (by omega)) reached
    rw [show base + body.size + 2 + alternative.size = base + body.size + alternative.size + 2
      by omega] at reached
    obtain ⟨-, reached⟩ := smooth.close reached (bounds.mono (by omega)) closes previews
    obtain ⟨w₅, reached, previews, headers''⟩ := ihr rest_stands bounds reached
    exact ⟨w₅, reached, previews.trans (Walk.previews_joined _ _), fun proper =>
      (headers proper.1).append ((headers' proper.2.1).append (headers'' proper.2.2))⟩
  | loop k header body rest ihh ihb ihr =>
    obtain ⟨opens, header_stands, tests, body_stands, closes, rest_stands⟩ := stands
    have size : base + (Block.loop k header body rest).size =
        base + header.size + body.size + 3 + rest.size := by simp only [Block.size]; omega
    rw [size] at bounds ⊢
    obtain ⟨w₁, stepped, reached⟩ :=
      smooth.next reached (bounds.mono (by omega)) opens (mark_ne_header _)
    obtain rfl := Walk.step_loop stepped
    obtain ⟨w₂, reached, previews, headers⟩ := ihh header_stands (bounds.mono (by omega)) reached
    rw [show base + 1 + header.size = base + header.size + 1 by omega] at reached
    obtain ⟨w₃, stepped, reached⟩ :=
      smooth.next reached (bounds.mono (by omega)) tests (mark_ne_header _)
    obtain ⟨-, rfl⟩ := Walk.step_test previews stepped
    obtain ⟨w₄, reached, previews, headers'⟩ := ihb body_stands (bounds.mono (by omega)) reached
    rw [show base + header.size + 2 + body.size = base + header.size + body.size + 2
      by omega] at reached
    obtain ⟨-, reached⟩ := smooth.close reached (bounds.mono (by omega)) closes previews
    obtain ⟨w₅, reached, previews, headers''⟩ := ihr rest_stands bounds reached
    exact ⟨w₅, reached, previews.trans (Walk.previews_joined _ _), fun proper =>
      (headers proper.1).append ((headers' proper.2.1).append (headers'' proper.2.2))⟩
  | procedure sig body rest _ ihr =>
    obtain ⟨opens, -, -, rest_stands⟩ := stands
    have size : base + (Block.procedure sig body rest).size = base + body.size + 2 + rest.size := by
      simp only [Block.size]; omega
    rw [size] at bounds ⊢
    rcases smooth base w _ reached (bounds.mono (by omega)) opens with ⟨w', stepped⟩ | ⟨rfl, -⟩
    · exact absurd stepped (Walk.step_header rfl)
    · obtain ⟨w₁, reached', previews, headers⟩ :=
        ihr rest_stands bounds (.skip reached opens rfl rfl)
      refine ⟨w₁, reached', previews, ?_⟩
      intro proper d hd
      rcases List.mem_cons.1 hd with rfl | hd
      · exact ⟨base, w, rfl, reached⟩
      · rw [Block.declarations_eq_nil proper.2.1, List.nil_append] at hd
        exact headers proper.2.2 d hd

end Chore.Typing
