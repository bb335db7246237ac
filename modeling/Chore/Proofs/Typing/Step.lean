import Chore.Proofs.Machine.Locality
import Chore.Block
import Chore.Typing.Check

/-!
# Steps of the check

What one step of the check says about the walk before and behind it, for each kind of instruction
a block has: an accepted instruction found the shape it needs, and the walk behind it is known
exactly. Later proofs use these lemmas and never open `Walk.step`.
-/

set_option autoImplicit false

namespace Chore

/-- An accepted word finds its operands and leaves its results in their place. -/
theorem Word.retype_ok {op : Word} {i : Nat} {shape shape' : Shape}
    (h : op.retype i shape = .ok shape') :
    ∃ kinds, op.arity ≤ shape.length ∧ op.results? (shape.take op.arity) = some kinds ∧
      shape' = kinds ++ shape.drop op.arity := by
  unfold retype at h
  split at h
  · cases h
  · rename_i enough
    split at h
    · rename_i kinds accepted
      exact ⟨kinds, Nat.le_of_not_lt enough, accepted, (Except.ok.inj h).symm⟩
    · cases h

namespace Typing

/-- Taking kinds off a shape. -/
theorem take_ok {op : String} {i n : Nat} {shape taken rest : Shape}
    (h : take op i n shape = .ok (taken, rest)) :
    n ≤ shape.length ∧ taken = shape.take n ∧ rest = shape.drop n := by
  unfold take at h
  split at h
  · cases h
  · rename_i enough
    obtain ⟨rfl, rfl⟩ := Prod.mk.inj (Except.ok.inj h)
    exact ⟨Nat.le_of_not_lt enough, rfl, rfl⟩

namespace Walk

variable {program : Program} {o : Option Procedure} {w w' : Walk} {i : Nat}

/-- A word that is a condition takes one kind, which is no path. -/
theorem retype_condition {m : Mark} (hm : m = .onTrue ∨ m = .onFalse ∨ m = .test)
    {shape shape' : Shape} (h : (Word.mark m).retype i shape = .ok shape') :
    ∃ kind, kind ≠ .path ∧ shape = kind :: shape' := by
  obtain ⟨kinds, enough, accepted, rfl⟩ := Word.retype_ok h
  cases shape with
  | nil => rcases hm with rfl | rfl | rfl <;> cases enough
  | cons kind shape =>
    have arity : (Word.mark m).arity = 1 := by rcases hm with rfl | rfl | rfl <;> rfl
    have results : (Word.mark m).results? [kind] = if kind = .path then none else some [] := by
      rcases hm with rfl | rfl | rfl <;> rfl
    rw [arity, List.take_succ_cons, List.take_zero, results] at accepted
    by_cases path : kind = .path
    · rw [if_pos path] at accepted
      cases accepted
    · rw [if_neg path] at accepted
      obtain rfl := Option.some.inj accepted
      exact ⟨kind, path, by rw [arity]; rfl⟩

/-- A branch takes a condition and saves the shape behind it. -/
theorem step_branch {k : BranchKind} {n : Nat}
    (h : w.step program o i { token := k.mark.token, next := some n } = .ok w') :
    ∃ kind shape, kind ≠ .path ∧ w.shape = kind :: shape ∧
      w' = ⟨shape, ⟨shape, k.mark.token, i, w.returned⟩ :: w.previews, w.returned⟩ := by
  have branch : w.branch k.mark i = .ok w' := by cases k <;> exact h
  obtain ⟨shape, retyped, saved⟩ := bind_ok branch
  obtain ⟨kind, condition, shape_eq⟩ :=
    retype_condition (by cases k <;> simp [BranchKind.mark]) retyped
  exact ⟨kind, shape, condition, shape_eq, (Except.ok.inj saved).symm⟩

/-- The header of a loop saves the shape in front of it. -/
theorem step_loop {k : LoopKind} {n : Nat}
    (h : w.step program o i { token := k.mark.token, next := some n } = .ok w') :
    w' = ⟨w.shape, ⟨w.shape, k.mark.token, i, w.returned⟩ :: w.previews, w.returned⟩ := by
  cases k <;> exact (Except.ok.inj h).symm

theorem compare_ok {m : Mark} {p : Preview} {u : Unit} (h : w.compare m i p = .ok u) :
    w.shape = p.shape := by
  unfold compare at h
  split at h
  · assumption
  · cases h

/-- The test of a loop takes a condition and goes back to the shape its header saved; the path that
comes here, unless it has returned, has that shape. -/
theorem step_test {k : LoopKind} {n header : Nat} {role : Role} {shape : Shape} {returned : Bool}
    {previews : List Preview}
    (open_ : w.previews = ⟨shape, k.mark.token, header, returned⟩ :: previews)
    (h : w.step program o i { token := Mark.test.token, next := some n, role } = .ok w') :
    (∃ kind rest, kind ≠ .path ∧ w.shape = kind :: rest ∧ (w.returned = false → rest = shape)) ∧
      w' = ⟨shape, ⟨shape, Mark.test.token, i, returned⟩ :: previews, returned⟩ := by
  obtain ⟨rest, retyped, h⟩ := bind_ok (show w.test i = .ok w' from h)
  obtain ⟨kind, condition, shape_eq⟩ := retype_condition (by simp) retyped
  obtain ⟨⟨p, ps⟩, innermost, h⟩ := bind_ok h
  rw [Walk.innermost, open_] at innermost
  obtain ⟨rfl, rfl⟩ := Prod.mk.inj (Except.ok.inj innermost)
  have cause : k.mark.token = Mark.whileTrue.token ∨ k.mark.token = Mark.untilTrue.token := by
    cases k <;> simp [LoopKind.mark]
  simp only [if_pos cause] at h
  cases live : w.returned with
  | false =>
    simp only [live, Bool.not_false, if_true] at h
    obtain ⟨u, compared, saved⟩ := bind_ok h
    exact ⟨⟨kind, rest, condition, shape_eq, fun _ => compare_ok compared⟩,
      (Except.ok.inj saved).symm⟩
  | true =>
    simp only [live, Bool.not_true, Bool.false_eq_true, if_false] at h
    exact ⟨⟨kind, rest, condition, shape_eq, nofun⟩, (Except.ok.inj h).symm⟩

/-- The word between two arms goes back to the shape of the condition and saves its own. -/
theorem step_otherwise {k : BranchKind} {n opener : Nat} {shape : Shape} {returned : Bool}
    {previews : List Preview}
    (open_ : w.previews = ⟨shape, k.mark.token, opener, returned⟩ :: previews)
    (h : w.step program o i { token := Mark.otherwise.token, next := some n } = .ok w') :
    w' = ⟨shape, ⟨w.shape, Mark.otherwise.token, i, w.returned⟩ :: previews, returned⟩ := by
  obtain ⟨⟨p, ps⟩, innermost, h⟩ := bind_ok (show w.otherwise i = .ok w' from h)
  rw [Walk.innermost, open_] at innermost
  obtain ⟨rfl, rfl⟩ := Prod.mk.inj (Except.ok.inj innermost)
  have cause : k.mark.token = Mark.onTrue.token ∨ k.mark.token = Mark.onFalse.token := by
    cases k <;> simp [BranchKind.mark]
  simp only [if_pos cause] at h
  exact (Except.ok.inj h).symm

/-- The walk behind an `end`: a path that has returned leaves the other one, and what is behind a
loop can be reached. -/
def joined (w : Walk) (p : Preview) (previews : List Preview) : Walk :=
  let after : Walk :=
    if w.returned then { shape := p.shape, previews, returned := p.returned }
      else { w with previews }
  if p.cause = Mark.test.token then { after with returned := false } else after

@[simp] theorem previews_joined (p : Preview) (previews : List Preview) :
    (w.joined p previews).previews = previews := by
  unfold joined
  cases w.returned <;> by_cases test : p.cause = Mark.test.token <;> simp [test]

/-- An `end` joins two paths, which have one shape unless one of them has returned. -/
theorem step_close {next : Option Nat} {role : Role} {p : Preview} {previews : List Preview}
    (open_ : w.previews = p :: previews)
    (h : w.step program o i { token := Mark.close.token, next, role } = .ok w') :
    (w.returned = false → p.returned = false → w.shape = p.shape) ∧ w' = w.joined p previews := by
  obtain ⟨⟨q, ps⟩, innermost, h⟩ := bind_ok (show w.close i = .ok w' from h)
  rw [Walk.innermost, open_] at innermost
  obtain ⟨rfl, rfl⟩ := Prod.mk.inj (Except.ok.inj innermost)
  by_cases joins_ : joins p.cause = true
  · simp only [joins_, if_true] at h
    by_cases live : (!w.returned && !p.returned) = true
    · simp only [live, if_true] at h
      obtain ⟨u, compared, saved⟩ := bind_ok h
      exact ⟨fun _ _ => compare_ok compared, (Except.ok.inj saved).symm⟩
    · simp only [live] at h
      exact ⟨fun l l' => absurd (by simp [l, l']) live, (Except.ok.inj h).symm⟩
  · simp only [joins_] at h
    cases h

/-- Two paths of one shape, not both returned, go on with it. -/
theorem joined_live {p : Preview} {previews : List Preview} (live : p.returned = false)
    (same : w.returned = false → w.shape = p.shape) :
    w.joined p previews = ⟨p.shape, previews, false⟩ := by
  obtain ⟨shape, saved, returned⟩ := w
  unfold joined
  cases returned with
  | false =>
    obtain rfl : shape = p.shape := same rfl
    simp
  | true => simp [live]

/-- A path that is live at an `end` goes on with its shape. -/
theorem joined_self {p : Preview} {previews : List Preview} (live : w.returned = false) :
    w.joined p previews = ⟨w.shape, previews, false⟩ := by
  obtain ⟨shape, saved, returned⟩ := w
  obtain rfl : returned = false := live
  simp [joined]

/-- A token that only works on values pushes its literal or has the effect of its word. -/
theorem step_data {token : Token} (data : token.isData = true)
    (h : w.step program o i { token } = .ok w') :
    w'.previews = w.previews ∧ w'.returned = w.returned ∧
      ((∃ v, token = .literal v ∧ w'.shape = v.kind :: w.shape) ∨
        ∃ op, token = .word op ∧ op.retype i w.shape = .ok w'.shape) := by
  cases token with
  | literal v =>
    obtain rfl := Except.ok.inj h
    exact ⟨rfl, rfl, .inl ⟨v, rfl, rfl⟩⟩
  | header sig => cases data
  | name s => cases data
  | word op =>
    cases op with
    | mark m => cases data
    | leave l => cases data
    | _ =>
      obtain ⟨shape, retyped, saved⟩ := bind_ok h
      obtain rfl := Except.ok.inj saved
      exact ⟨rfl, rfl, .inr ⟨_, rfl, retyped⟩⟩

/-- A call replaces the inputs by the outputs. -/
theorem step_name {name : String} (h : w.step program o i { token := .name name } = .ok w') :
    ∃ p, program.procedure? name = some p ∧ p.signature.inputs.length ≤ w.shape.length ∧
      w.shape.take p.signature.inputs.length = p.signature.inputs.reverse ∧
      w' = { w with
        shape := p.signature.outputs.reverse ++ w.shape.drop p.signature.inputs.length } := by
  have h : w.call program i name = .ok w' := h
  unfold call at h
  split at h
  · cases h
  · rename_i p found
    obtain ⟨⟨taken, rest⟩, took, h⟩ := bind_ok h
    obtain ⟨enough, rfl, rfl⟩ := take_ok took
    simp only at h
    split at h
    · rename_i same
      exact ⟨p, found, enough, List.reverse_eq_iff.1 same, (Except.ok.inj h).symm⟩
    · cases h

theorem returns_ok {p : Procedure} {shape : Shape} {u : Unit} (h : returns p i shape = .ok u) :
    shape = p.signature.outputs.reverse := by
  unfold returns at h
  split at h
  · rename_i same
    rw [← same, List.reverse_reverse]
  · cases h

/-- An early return leaves the declared outputs. -/
theorem step_ret (h : w.step program o i { token := .word (.leave .ret) } = .ok w') :
    w' = { w with returned := true } ∧
      ∃ p, o = some p ∧ w.shape = p.signature.outputs.reverse := by
  cases o with
  | none => cases h
  | some p =>
    obtain ⟨u, returned, saved⟩ := bind_ok h
    exact ⟨(Except.ok.inj saved).symm, p, rfl, returns_ok returned⟩

/-- The shape `dret` leaves, once its literal count of kinds is gone. -/
theorem dropRet_ok {p : Procedure} {shape left : Shape} (h : dropRet program p i shape = .ok left) :
    ∃ drop, literalCount? program p i 1 = some drop ∧ drop + 1 ≤ shape.length ∧
      left = shape.drop (drop + 1) := by
  unfold dropRet at h
  split at h
  · cases h
  · rename_i drop literal
    obtain ⟨⟨_, _⟩, first, h⟩ := bind_ok h
    obtain ⟨enough, -, rfl⟩ := take_ok first
    obtain ⟨⟨_, _⟩, second, h⟩ := bind_ok h
    obtain ⟨enough', -, rfl⟩ := take_ok second
    rw [List.length_drop] at enough'
    refine ⟨drop, literal, by omega, ?_⟩
    rw [← Except.ok.inj h, List.drop_drop, Nat.add_comm]

/-- The shape `iret` leaves: the kinds its first literal counts, on top of what is left below those
its second literal counts. -/
theorem keepRet_ok {p : Procedure} {shape left : Shape} (h : keepRet program p i shape = .ok left) :
    ∃ drop keep, literalCount? program p i 1 = some drop ∧ literalCount? program p i 2 = some keep ∧
      keep + drop + 2 ≤ shape.length ∧
      left = (shape.drop 2).take keep ++ shape.drop (keep + drop + 2) := by
  unfold keepRet at h
  split at h
  · rename_i drop keep literal literal'
    obtain ⟨⟨_, _⟩, first, h⟩ := bind_ok h
    obtain ⟨enough, -, rfl⟩ := take_ok first
    obtain ⟨⟨_, _⟩, second, h⟩ := bind_ok h
    obtain ⟨enough', rfl, rfl⟩ := take_ok second
    obtain ⟨⟨_, _⟩, third, h⟩ := bind_ok h
    obtain ⟨enough'', -, rfl⟩ := take_ok third
    simp only [List.length_drop] at enough' enough''
    refine ⟨drop, keep, literal, literal', by omega, ?_⟩
    rw [← Except.ok.inj h, List.drop_drop, List.drop_drop,
      show 2 + (keep + drop) = keep + drop + 2 by omega]
  · cases h

/-- The shape `dret` leaves is that of the declared outputs. -/
theorem step_dropRet (h : w.step program o i { token := .word (.leave .dropRet) } = .ok w') :
    w' = { w with returned := true } ∧
      ∃ p, o = some p ∧ dropRet program p i w.shape = .ok p.signature.outputs.reverse := by
  cases o with
  | none => cases h
  | some p =>
    obtain ⟨shape, dropped, h⟩ := bind_ok h
    obtain ⟨u, returned, saved⟩ := bind_ok h
    exact ⟨(Except.ok.inj saved).symm, p, rfl, returns_ok returned ▸ dropped⟩

/-- The shape `iret` leaves is that of the declared outputs. -/
theorem step_keepRet (h : w.step program o i { token := .word (.leave .keepRet) } = .ok w') :
    w' = { w with returned := true } ∧
      ∃ p, o = some p ∧ keepRet program p i w.shape = .ok p.signature.outputs.reverse := by
  cases o with
  | none => cases h
  | some p =>
    obtain ⟨shape, kept, h⟩ := bind_ok h
    obtain ⟨u, returned, saved⟩ := bind_ok h
    exact ⟨(Except.ok.inj saved).symm, p, rfl, returns_ok returned ▸ kept⟩

/-- Plain tokens open and close no block. -/
theorem previews_step {token : Token} (plain : token.isPlain = true)
    (h : w.step program o i { token } = .ok w') : w'.previews = w.previews := by
  by_cases data : token.isData = true
  · exact (step_data data h).1
  · cases token with
    | literal v => exact absurd rfl data
    | header sig => cases plain
    | name s =>
      obtain ⟨p, -, -, -, rfl⟩ := step_name h
      rfl
    | word op =>
      cases op with
      | mark m => cases plain
      | leave l =>
        cases l with
        | ret => rw [(step_ret h).1]
        | dropRet => rw [(step_dropRet h).1]
        | keepRet => rw [(step_keepRet h).1]
        | exit => rw [← Except.ok.inj h]
      | _ => exact absurd rfl data

/-- The check of a procedure, and of what is outside of all, accepts no header. -/
theorem step_header {sig : Signature} {instr : Instr} (token : instr.token = .header sig) :
    w.step program o i instr ≠ .ok w' := by
  intro h
  unfold step at h
  split at h
  · cases h
  · rw [token] at h
    cases h

end Walk

end Typing

end Chore
