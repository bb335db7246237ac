import Chore.Proofs.Block.Instructions
import Chore.Proofs.Typing.Accepted

/-!
# Where control can be

The check follows the instructions in the order they stand; the machine jumps. A `Spot` is an index
the machine can be at, with the walk the check came to it with: a block stands there, inside of
constructs whose saved shapes are still open, and no path to it has returned. The check's own flag
is not enough for this: behind a loop it is always down, also where the loop cannot be reached. So
`Inside` keeps, for every construct around the block, that it was entered by a live path.

`Spot.flow` says what each instruction at a spot is and where it leads: to spots again, with the
shape the instruction leaves.
-/

set_option autoImplicit false

namespace Chore.Typing

open Machine

variable {program : Program} {o : Option Procedure} {i : Nat} {w : Walk}

/-! ## Literals in front of an index -/

/-- Literals stand right in front of an index, the last one first. -/
inductive Trail (program : Program) : Nat → List Value → Prop where
  | nil (i : Nat) : Trail program i []
  | cons {i : Nat} {v : Value} {vs : List Value} {instr : Instr}
      (fetched : program.instructions[i]? = some instr) (literal : instr.token = .literal v)
      (others : Trail program i vs) : Trail program (i + 1) (v :: vs)

/-- A loop starts at an index. -/
def LoopAt (program : Program) (i : Nat) : Prop :=
  ∃ (k : LoopKind) (instr : Instr),
    program.instructions[i]? = some instr ∧ instr.token = k.mark.token

/-- The literals right in front of an index are on top of the stack. Only loops are exempt: their
end jumps back to them. -/
def Fresh (program : Program) (i : Nat) (stack : List Value) : Prop :=
  ¬LoopAt program i → ∀ vs, Trail program i vs → ∃ rest, stack = vs ++ rest

/-- An index that may be jumped to: unless it is a loop, no literal stands in front of it. -/
def Landing (program : Program) (i : Nat) : Prop :=
  ¬LoopAt program i → ∀ vs, Trail program i vs → vs = []

theorem Landing.fresh (h : Landing program i) (stack : List Value) : Fresh program i stack := by
  intro noLoop vs trail
  exact ⟨stack, by rw [h noLoop vs trail]; rfl⟩

theorem landing_succ {instr : Instr} (fetched : program.instructions[i]? = some instr)
    (other : ∀ v, instr.token ≠ .literal v) : Landing program (i + 1) := by
  intro _ vs trail
  cases trail with
  | nil => rfl
  | cons fetched' literal _ =>
    obtain rfl := Option.some.inj (fetched.symm.trans fetched')
    exact absurd literal (other _)

theorem landing_loop {k : LoopKind} {instr : Instr}
    (fetched : program.instructions[i]? = some instr) (token : instr.token = k.mark.token) :
    Landing program i :=
  fun noLoop => absurd ⟨k, instr, fetched, token⟩ noLoop

theorem mark_ne_literal (m : Mark) (v : Value) : m.token ≠ .literal v :=
  nofun

theorem mark_ne_name (m : Mark) (name : String) : m.token ≠ .name name :=
  nofun

/-- A literal is fresh on top of what was fresh before it. -/
theorem Fresh.push {stack : List Value} (h : Fresh program i stack) {instr : Instr} {v : Value}
    (fetched : program.instructions[i]? = some instr) (literal : instr.token = .literal v) :
    Fresh program (i + 1) (v :: stack) := by
  intro _ vs trail
  cases trail with
  | nil => exact ⟨v :: stack, rfl⟩
  | cons fetched' literal' others =>
    obtain rfl := Option.some.inj (fetched.symm.trans fetched')
    obtain rfl := Token.literal.inj (literal.symm.trans literal')
    have noLoop : ¬LoopAt program i := by
      rintro ⟨k, instr', at_, token⟩
      obtain rfl := Option.some.inj (fetched.symm.trans at_)
      rw [literal] at token
      cases token
    obtain ⟨rest, rfl⟩ := h noLoop _ others
    exact ⟨rest, rfl⟩

/-- A count that the check read off a literal. -/
theorem literalCount?_eq_some {p : Procedure} {back count : Nat}
    (h : Walk.literalCount? program p i back = some count) :
    ∃ j n instr, i = j + back ∧ program.instructions[j]? = some instr ∧
      instr.token = .literal (.int n) ∧ 0 ≤ n.toInt ∧ count = n.toInt.toNat := by
  unfold Walk.literalCount? at h
  split at h
  · rename_i within
    split at h
    · rename_i n _ _ fetched
      split at h
      · rename_i positive
        exact ⟨i - back, n, _, by omega, fetched, rfl, positive, (Option.some.inj h).symm⟩
      · cases h
    · cases h
  · cases h

/-- A fresh stack has the count in front of an index on top. -/
theorem Fresh.one {p : Procedure} {stack : List Value} (h : Fresh program i stack)
    (noLoop : ¬LoopAt program i) {drop : Nat}
    (literal : Walk.literalCount? program p i 1 = some drop) :
    ∃ n rest, stack = .int n :: rest ∧ 0 ≤ n.toInt ∧ drop = n.toInt.toNat := by
  obtain ⟨j, n, instr, rfl, fetched, token, positive, rfl⟩ := literalCount?_eq_some literal
  obtain ⟨rest, rfl⟩ := h noLoop _ (.cons fetched token (.nil j))
  exact ⟨n, rest, rfl, positive, rfl⟩

/-- A fresh stack has the two counts in front of an index on top. -/
theorem Fresh.two {p : Procedure} {stack : List Value} (h : Fresh program i stack)
    (noLoop : ¬LoopAt program i) {drop keep : Nat}
    (literal : Walk.literalCount? program p i 1 = some drop)
    (literal' : Walk.literalCount? program p i 2 = some keep) :
    ∃ n m rest, stack = .int n :: .int m :: rest ∧ 0 ≤ n.toInt ∧ 0 ≤ m.toInt ∧
      drop = n.toInt.toNat ∧ keep = m.toInt.toNat := by
  obtain ⟨j, n, instr, rfl, fetched, token, positive, rfl⟩ := literalCount?_eq_some literal
  obtain ⟨l, m, instr', here, fetched', token', positive', rfl⟩ := literalCount?_eq_some literal'
  obtain rfl : j = l + 1 := by omega
  obtain ⟨rest, rfl⟩ := h noLoop _ (.cons fetched token (.cons fetched' token' (.nil l)))
  exact ⟨n, m, rest, rfl, positive, positive', rfl, rfl⟩

/-! ## Constructs around a block -/

/-- What is open at the end of a part of a program: the part ends at an index, and the shapes saved
there are those of the constructs around it, each of them entered by a live path. -/
inductive Inside (program : Program) (o : Option Procedure) : Nat → List Preview → Prop where
  | whole (outside : o = none) : Inside program o program.size []
  | procedure {p : Procedure} (inside : o = some p) : Inside program o p.stop []
  | branch {k : BranchKind} {body rest : Block} {base : Nat} {shape : Shape}
      {previews : List Preview} (stands : (Block.branch k body rest).StandsAt program base)
      (outer : Inside program o (base + (Block.branch k body rest).size) previews) :
      Inside program o (base + body.size + 1) (⟨shape, k.mark.token, base, false⟩ :: previews)
  | first {k : BranchKind} {body alternative rest : Block} {base : Nat} {shape : Shape}
      {previews : List Preview}
      (stands : (Block.choice k body alternative rest).StandsAt program base)
      (outer : Inside program o (base + (Block.choice k body alternative rest).size) previews) :
      Inside program o (base + body.size + 1) (⟨shape, k.mark.token, base, false⟩ :: previews)
  | second {k : BranchKind} {body alternative rest : Block} {base : Nat} {shape : Shape}
      {returned : Bool} {previews : List Preview}
      (stands : (Block.choice k body alternative rest).StandsAt program base)
      (outer : Inside program o (base + (Block.choice k body alternative rest).size) previews) :
      Inside program o (base + body.size + alternative.size + 2)
        (⟨shape, Mark.otherwise.token, base + body.size + 1, returned⟩ :: previews)
  | header {k : LoopKind} {header body rest : Block} {base : Nat} {shape : Shape}
      {previews : List Preview} (stands : (Block.loop k header body rest).StandsAt program base)
      (again : Reaches program o base ⟨shape, previews, false⟩)
      (outer : Inside program o (base + (Block.loop k header body rest).size) previews) :
      Inside program o (base + header.size + 1) (⟨shape, k.mark.token, base, false⟩ :: previews)
  | body {k : LoopKind} {header body rest : Block} {base : Nat} {shape : Shape}
      {previews : List Preview} (stands : (Block.loop k header body rest).StandsAt program base)
      (again : Reaches program o base ⟨shape, previews, false⟩)
      (outer : Inside program o (base + (Block.loop k header body rest).size) previews) :
      Inside program o (base + header.size + body.size + 2)
        (⟨shape, Mark.test.token, base + header.size + 1, false⟩ :: previews)

theorem Inside.bounds {j : Nat} {previews : List Preview} (h : Inside program o j previews) :
    Bounds o j := by
  induction h with
  | whole outside => exact fun p hp => nomatch outside.symm.trans hp
  | procedure inside =>
    intro p hp
    obtain rfl := Option.some.inj (inside.symm.trans hp)
    exact Nat.le_refl _
  | branch _ _ ih => exact ih.mono (by simp only [Block.size]; omega)
  | first _ _ ih => exact ih.mono (by simp only [Block.size]; omega)
  | second _ _ ih => exact ih.mono (by simp only [Block.size]; omega)
  | header _ _ _ ih => exact ih.mono (by simp only [Block.size]; omega)
  | body _ _ _ ih => exact ih.mono (by simp only [Block.size]; omega)

/-- The machine can be at an index, where the check came to with a walk. -/
structure Spot (program : Program) (o : Option Procedure) (i : Nat) (w : Walk) : Prop where
  place : ∃ b : Block, b.StandsAt program i ∧ Inside program o (i + b.size) w.previews
  reached : Reaches program o i w
  live : w.returned = false

/-- What an instruction at a spot does, and the spots it leads to. -/
inductive Flow (program : Program) (o : Option Procedure) (i : Nat) (w : Walk) : Instr → Prop where
  | work {token : Token} {w' : Walk} (data : token.isData = true)
      (stepped : w.step program o i { token } = .ok w') (next : Spot program o (i + 1) w') :
      Flow program o i w { token }
  | call {name : String} {p : Procedure} (found : program.procedure? name = some p)
      (enough : p.signature.inputs.length ≤ w.shape.length)
      (inputs : w.shape.take p.signature.inputs.length = p.signature.inputs.reverse)
      (next : Spot program o (i + 1) { w with
        shape := p.signature.outputs.reverse ++ w.shape.drop p.signature.inputs.length }) :
      Flow program o i w { token := .name name }
  | leave {l : Leave} {w' : Walk}
      (stepped : w.step program o i { token := .word (.leave l) } = .ok w') :
      Flow program o i w { token := .word (.leave l) }
  | test {instr : Instr} {m : Mark} {wanted : Bool} {n : Nat} {kind : Kind} {shape : Shape}
      {previews previews' : List Preview}
      (tests : ∀ {ω : Type} (c : Setup ω), Block.Tests c instr m wanted)
      (target : instr.next = some n) (condition : kind ≠ .path) (top : w.shape = kind :: shape)
      (goesOn : Spot program o (i + 1) ⟨shape, previews, false⟩)
      (jumps : Spot program o n ⟨shape, previews', false⟩) (landing : Landing program n) :
      Flow program o i w instr
  | goto {instr : Instr} {n : Nat} {w' : Walk} (other : ∀ name, instr.token ≠ .name name)
      (moves : ∀ {ω : Type} (c : Setup ω), perform c instr = pure (.jump n) ∨
        n = i + 1 ∧ perform c instr = pure .next)
      (there : Spot program o n w') (same : w'.shape = w.shape) (landing : Landing program n) :
      Flow program o i w instr
  | back {p : Procedure} (inside : o = some p)
      (outputs : w.shape = p.signature.outputs.reverse) :
      Flow program o i w { token := Mark.close.token, role := .close .procedure }

theorem spot_start (h : Accepted program) : Spot program none 0 { shape := [] } := by
  obtain ⟨b, wellFormed, rfl⟩ := h.linked
  have size : b.program.size = 0 + b.size := by rw [Block.size_program, Nat.zero_add]
  exact ⟨⟨b, Block.standsAt_program wellFormed.proper, size ▸ .whole rfl⟩, .start, rfl⟩

/-- A call leads to a spot: the start of the procedure, with its inputs. -/
theorem spot_enter (h : Accepted program) {p : Procedure} (hp : p ∈ program.procedures) :
    Spot program (some p) p.start { shape := p.signature.inputs.reverse } ∧
      Landing program p.start := by
  obtain ⟨j, start, header⟩ := h.header hp
  obtain ⟨d, rfl, standing, -⟩ := h.declaration hp
  refine ⟨⟨⟨d.body, standing.body, .procedure rfl⟩, .enter hp, rfl⟩, ?_⟩
  rw [start]
  exact landing_succ header nofun

/-! ## Each instruction -/

theorem Inside.at_index {j j' : Nat} {previews : List Preview} (h : Inside program o j previews)
    (same : j' = j) : Inside program o j' previews :=
  same ▸ h

/-- A part that was entered with a live shape saved is left with that shape behind its `end`. -/
theorem Smooth.leave_part (smooth : Smooth program o) {part : Block} {base : Nat} {w : Walk}
    {p : Preview} {previews : List Preview} {next : Option Nat} {role : Role}
    (stands : part.StandsAt program base) (bounds : Bounds o (base + part.size + 1))
    (reached : Reaches program o base w) (opened : w.previews = p :: previews)
    (live : p.returned = false)
    (closes : program.instructions[base + part.size]? =
      some { token := Mark.close.token, next, role }) :
    Reaches program o (base + part.size + 1) ⟨p.shape, previews, false⟩ := by
  obtain ⟨w', reached, saved, -⟩ := smooth.through stands (bounds.mono (Nat.le_succ _)) reached
  obtain ⟨same, reached⟩ := smooth.close reached bounds closes (saved.trans opened)
  rwa [Walk.joined_live live fun l => same l live] at reached

/-- At the end of a part: the instruction there belongs to the construct around it. -/
theorem flow_at_end (h : Accepted program) {previews : List Preview} {instr : Instr}
    (inside : Inside program o i previews) (reached : Reaches program o i w)
    (live : w.returned = false) (saved : w.previews = previews)
    (fetched : program.instructions[i]? = some instr) : Flow program o i w instr := by
  have smooth := h.smooth o
  cases inside with
  | whole => exact absurd (Array.getElem?_eq_some_iff.1 fetched).1 (Nat.lt_irrefl _)
  | @procedure p inside =>
    subst inside
    obtain ⟨-, declared, -⟩ := reached.follows h
    obtain ⟨d, rfl, standing, -⟩ := h.declaration declared
    obtain rfl := Option.some.inj (fetched.symm.trans standing.close)
    exact .back rfl (h.outputs reached live)
  | @branch k body rest base shape previews stands outer =>
    obtain ⟨-, -, closes, rest_stands⟩ := stands
    obtain rfl := Option.some.inj (fetched.symm.trans closes)
    have bounds := outer.bounds.mono (i := base + body.size + 1 + 1)
      (by simp only [Block.size]; omega)
    obtain ⟨-, reached⟩ := smooth.close reached bounds fetched saved
    rw [Walk.joined_self live] at reached
    exact .goto (mark_ne_name _) (fun c => .inr ⟨rfl, rfl⟩)
      ⟨⟨rest, rest_stands, outer.at_index (by simp only [Block.size]; omega)⟩, reached, rfl⟩ rfl
      (landing_succ fetched (mark_ne_literal _))
  | @first k body alternative rest base shape previews stands outer =>
    obtain ⟨-, -, divides, alternative_stands, closes, rest_stands⟩ := stands
    obtain rfl := Option.some.inj (fetched.symm.trans divides)
    have bounds := outer.bounds.mono (i := base + body.size + alternative.size + 3)
      (by simp only [Block.size]; omega)
    obtain ⟨w₁, stepped, reached⟩ :=
      smooth.next reached (bounds.mono (by omega)) fetched (mark_ne_header _)
    obtain rfl := Walk.step_otherwise saved stepped
    have place :
        base + body.size + 2 + alternative.size = base + body.size + alternative.size + 2 := by
      omega
    have reached := smooth.leave_part alternative_stands (by rwa [place]) reached rfl live
      (by rw [place]; exact closes)
    rw [place] at reached
    exact .goto (mark_ne_name _) (fun c => .inl rfl)
      ⟨⟨rest, rest_stands, outer.at_index (by simp only [Block.size]; omega)⟩, reached, rfl⟩ rfl
      (landing_succ closes (mark_ne_literal _))
  | @second k body alternative rest base shape returned previews stands outer =>
    obtain ⟨-, -, -, -, closes, rest_stands⟩ := stands
    obtain rfl := Option.some.inj (fetched.symm.trans closes)
    have bounds := outer.bounds.mono (i := base + body.size + alternative.size + 2 + 1)
      (by simp only [Block.size]; omega)
    obtain ⟨-, reached⟩ := smooth.close reached bounds fetched saved
    rw [Walk.joined_self live] at reached
    exact .goto (mark_ne_name _) (fun c => .inr ⟨rfl, rfl⟩)
      ⟨⟨rest, rest_stands, outer.at_index (by simp only [Block.size]; omega)⟩, reached, rfl⟩ rfl
      (landing_succ fetched (mark_ne_literal _))
  | @header k header body rest base shape previews stands again outer =>
    have whole := stands
    obtain ⟨-, -, tests, body_stands, closes, rest_stands⟩ := stands
    obtain rfl := Option.some.inj (fetched.symm.trans tests)
    have bounds := outer.bounds.mono (i := base + header.size + body.size + 3)
      (by simp only [Block.size]; omega)
    obtain ⟨w₁, stepped, reached⟩ :=
      smooth.next reached (bounds.mono (by omega)) fetched (mark_ne_header _)
    obtain ⟨⟨kind, rest', condition, top, back⟩, rfl⟩ := Walk.step_test saved stepped
    obtain rfl := back live
    have place : base + header.size + 2 + body.size = base + header.size + body.size + 2 := by omega
    have behind := smooth.leave_part body_stands (by rwa [place]) reached rfl rfl
      (by rw [place]; exact closes)
    rw [place] at behind
    exact .test (fun c => Block.tests_loop c k base _) rfl condition top
      ⟨⟨body, body_stands, (Inside.body whole again outer).at_index place⟩, reached, rfl⟩
      ⟨⟨rest, rest_stands, outer.at_index (by simp only [Block.size]; omega)⟩, behind, rfl⟩
      (landing_succ closes (mark_ne_literal _))
  | @body k header body rest base shape previews stands again outer =>
    have whole := stands
    obtain ⟨opens, -, -, -, closes, -⟩ := stands
    obtain rfl := Option.some.inj (fetched.symm.trans closes)
    have bounds := outer.bounds.mono (i := base + header.size + body.size + 2 + 1)
      (by simp only [Block.size]; omega)
    obtain ⟨same, -⟩ := smooth.close reached bounds fetched saved
    exact .goto (mark_ne_name _) (fun c => .inl rfl) ⟨⟨_, whole, outer⟩, again, rfl⟩
      (same live rfl).symm (landing_loop opens rfl)

/-- **What an instruction at a spot does**, and the spots it leads to. -/
theorem Spot.flow (h : Accepted program) (spot : Spot program o i w) {instr : Instr}
    (fetched : program.instructions[i]? = some instr) : Flow program o i w instr := by
  obtain ⟨⟨b, stands, inside⟩, reached, live⟩ := spot
  have smooth := h.smooth o
  have bounds := inside.bounds
  cases b with
  | nil => exact flow_at_end h inside reached live rfl fetched
  | plain token rest =>
    obtain ⟨plain, at_, rest_stands⟩ := stands
    obtain rfl := Option.some.inj (fetched.symm.trans at_)
    have place : i + (Block.plain token rest).size = i + 1 + rest.size := by
      simp only [Block.size]; omega
    rw [place] at inside bounds
    obtain ⟨w', stepped, reached⟩ :=
      smooth.next reached (bounds.mono (by omega)) fetched (plain_ne_header plain)
    have saved := Walk.previews_step plain stepped
    rw [← saved] at inside
    by_cases call : ∃ name, token = .name name
    · obtain ⟨name, rfl⟩ := call
      obtain ⟨p, found, enough, inputs, rfl⟩ := Walk.step_name stepped
      exact .call found enough inputs ⟨⟨rest, rest_stands, inside⟩, reached, live⟩
    · by_cases leaves : ∃ l, token = .word (.leave l)
      · obtain ⟨l, rfl⟩ := leaves
        exact .leave stepped
      · rw [not_exists] at call leaves
        have data := Block.isData_of_isPlain plain call leaves
        exact .work data stepped ⟨⟨rest, rest_stands, inside⟩, reached,
          (Walk.step_data data stepped).2.1.trans live⟩
  | branch k body rest =>
    have whole := stands
    obtain ⟨opens, body_stands, closes, rest_stands⟩ := stands
    obtain rfl := Option.some.inj (fetched.symm.trans opens)
    have place : i + 1 + body.size = i + body.size + 1 := by omega
    obtain ⟨w', stepped, reached⟩ := smooth.next reached
      (bounds.mono (by simp only [Block.size]; omega)) fetched (mark_ne_header _)
    obtain ⟨kind, shape, condition, top, rfl⟩ := Walk.step_branch stepped
    rw [live] at reached
    have behind := smooth.leave_part body_stands
      (bounds.mono (by simp only [Block.size]; omega)) reached rfl rfl (by rw [place]; exact closes)
    rw [place] at behind
    exact .test (fun c => Block.tests_branch c k _) rfl condition top
      ⟨⟨body, body_stands, (Inside.branch whole inside).at_index place⟩, reached, rfl⟩
      ⟨⟨rest, rest_stands, inside.at_index (by simp only [Block.size]; omega)⟩, behind, rfl⟩
      (landing_succ closes (mark_ne_literal _))
  | choice k body alternative rest =>
    have whole := stands
    obtain ⟨opens, body_stands, divides, alternative_stands, closes, rest_stands⟩ := stands
    obtain rfl := Option.some.inj (fetched.symm.trans opens)
    have place : i + 1 + body.size = i + body.size + 1 := by omega
    have bounds : Bounds o (i + body.size + 2) := bounds.mono (by simp only [Block.size]; omega)
    obtain ⟨w', stepped, reached⟩ :=
      smooth.next reached (bounds.mono (by omega)) fetched (mark_ne_header _)
    obtain ⟨kind, shape, condition, top, rfl⟩ := Walk.step_branch stepped
    rw [live] at reached
    obtain ⟨w₁, behind, saved, -⟩ := smooth.through body_stands (bounds.mono (by omega)) reached
    rw [place] at behind
    obtain ⟨w₂, stepped, behind⟩ := smooth.next behind bounds divides (mark_ne_header _)
    obtain rfl := Walk.step_otherwise saved stepped
    exact .test (fun c => Block.tests_branch c k _) rfl condition top
      ⟨⟨body, body_stands, (Inside.first whole inside).at_index place⟩, reached, rfl⟩
      ⟨⟨alternative, alternative_stands,
        (Inside.second whole inside).at_index (by omega)⟩, behind, rfl⟩
      (landing_succ divides (mark_ne_literal _))
  | loop k header body rest =>
    have whole := stands
    obtain ⟨opens, header_stands, -⟩ := stands
    obtain rfl := Option.some.inj (fetched.symm.trans opens)
    obtain ⟨w', stepped, next⟩ := smooth.next reached
      (bounds.mono (by simp only [Block.size]; omega)) fetched (mark_ne_header _)
    obtain rfl := Walk.step_loop stepped
    obtain ⟨shape, previews, returned⟩ := w
    obtain rfl : returned = false := live
    exact .goto (mark_ne_name _) (fun c => .inr ⟨rfl, by cases k <;> rfl⟩)
      ⟨⟨header, header_stands, (Inside.header whole reached inside).at_index (by omega)⟩, next, rfl⟩
      rfl (landing_succ fetched (mark_ne_literal _))
  | procedure sig body rest =>
    obtain ⟨opens, -, closes, rest_stands⟩ := stands
    obtain rfl := Option.some.inj (fetched.symm.trans opens)
    rcases smooth i w _ reached (bounds.mono (by simp only [Block.size]; omega)) fetched with
      ⟨w', stepped⟩ | ⟨rfl, -⟩
    · exact absurd stepped (Walk.step_header rfl)
    · exact .goto (by rintro _ ⟨⟩) (fun c => .inl rfl)
        ⟨⟨rest, rest_stands, inside.at_index (by simp only [Block.size]; omega)⟩,
          .skip reached fetched rfl rfl, live⟩ rfl (landing_succ closes (mark_ne_literal _))

end Chore.Typing
