import Chore.Load
import Chore.Proofs.Typing.Reaches

/-!
# Accepted programs

What is known of a program that was linked and passed the check: wherever the check comes to, it
goes on (`Accepted.smooth`), every procedure body is left with the declared outputs
(`Accepted.outputs`), and the check comes to each index with one walk only (`Reaches.unique`).
-/

set_option autoImplicit false

namespace Chore.Typing

/-- A program that was linked and passed the check. -/
structure Accepted (program : Program) : Prop where
  linked : ∃ b : Block, b.WellFormed ∧ b.program = program
  checked : check program = .ok ()

/-- Every program that can be loaded is accepted. -/
theorem accepted_of_load {source : String} {program : Program} (h : load source = .ok program) :
    Accepted program := by
  obtain ⟨tokens, -, h⟩ := bind_ok h
  obtain ⟨program, linked, h⟩ := bind_ok h
  obtain ⟨u, checked, h⟩ := bind_ok h
  obtain rfl := Except.ok.inj h
  obtain ⟨b, read, laid⟩ := bind_ok (of_mapError_ok linked)
  exact ⟨⟨b, (Block.ofTokens_wellFormed read).2, Except.ok.inj laid⟩, of_mapError_ok checked⟩

/-! ## Outside of procedures -/

variable {program : Program} {final w : Walk} {i : Nat} {instr : Instr}

/-- The check outside of procedures goes on from an index to the end of the program. -/
def Passes (program : Program) (final : Walk) (i : Nat) (w : Walk) : Prop :=
  ∃ fuel seen, (walk program fuel i w seen).1 = .ok final

theorem Passes.behind (h : Passes program final i w) (none : program.instructions[i]? = none) :
    final = w := by
  obtain ⟨fuel, seen, h⟩ := h
  have size : ¬i < program.size := by simpa [Program.size] using none
  cases fuel with
  | zero =>
    rw [walk, if_neg size] at h
    exact (Except.ok.inj h).symm
  | succ fuel =>
    rw [walk, none] at h
    exact (Except.ok.inj h).symm

/-- At a header the procedure is checked, and the check goes on where the header says. -/
theorem Passes.header (h : Passes program final i w) {sig : Signature}
    (fetched : program.instructions[i]? = some instr) (header : instr.token = .header sig) :
    ∃ p n, program.procedure? sig.name = some p ∧ checkProcedure program p = .ok () ∧
      instr.next = some n ∧ Passes program final n w := by
  obtain ⟨fuel, seen, h⟩ := h
  obtain ⟨token, next, role⟩ := instr
  obtain rfl : token = .header sig := header
  have size : i < program.size := (Array.getElem?_eq_some_iff.1 fetched).1
  cases fuel with
  | zero =>
    rw [walk, if_pos size] at h
    cases h
  | succ fuel =>
    rw [walk, fetched] at h
    cases found : program.procedure? sig.name with
    | none => simp only [found] at h; cases h
    | some p =>
      simp only [found, Attempt.bind_apply, Attempt.modify_apply, Attempt.ofExcept_apply] at h
      cases checked : checkProcedure program p with
      | error e => rw [checked] at h; cases h
      | ok u =>
        rw [checked] at h
        cases next with
        | none => cases h
        | some n => exact ⟨p, n, rfl, checked, rfl, fuel, p :: seen, h⟩

/-- Any other instruction is stepped over. -/
theorem Passes.step (h : Passes program final i w)
    (fetched : program.instructions[i]? = some instr) (other : ∀ sig, instr.token ≠ .header sig) :
    ∃ w', w.step program none i instr = .ok w' ∧ Passes program final (i + 1) w' := by
  obtain ⟨fuel, seen, h⟩ := h
  have size : i < program.size := (Array.getElem?_eq_some_iff.1 fetched).1
  cases fuel with
  | zero =>
    rw [walk, if_pos size] at h
    cases h
  | succ fuel =>
    have h : ((.ofExcept (w.step program none i instr) >>= fun w => walk program fuel (i + 1) w :
        Attempt (List Procedure) TypeError Walk) seen).1 = .ok final := by
      rw [walk, fetched] at h
      obtain ⟨token, next, role⟩ := instr
      cases token with
      | header sig => exact absurd rfl (other sig)
      | _ => exact h
    rw [Attempt.bind_apply, Attempt.ofExcept_apply] at h
    cases stepped : w.step program none i instr with
    | error e => rw [stepped] at h; cases h
    | ok w' => rw [stepped] at h; exact ⟨w', rfl, fuel, seen, h⟩

theorem Reaches.passes (start : Passes program final 0 { shape := [] })
    (h : Reaches program none i w) : Passes program final i w := by
  generalize outside : none = o at h
  induction h with
  | start => exact start
  | enter => cases outside
  | step _ _ fetched stepped ih =>
    subst outside
    obtain ⟨w', stepped', passes⟩ :=
      (ih rfl).step fetched fun sig header => Walk.step_header header stepped
    obtain rfl := Except.ok.inj (stepped.symm.trans stepped')
    exact passes
  | skip _ fetched header next ih =>
    obtain ⟨p, n, -, -, next', passes⟩ := (ih rfl).header fetched header
    obtain rfl := Option.some.inj (next.symm.trans next')
    exact passes

theorem previews_of_finish (h : w.finish = .ok ()) : w.previews = [] := by
  unfold Walk.finish at h
  split at h
  · assumption
  · cases h

namespace Accepted

/-- The check outside of procedures comes to the end of the program with every block closed. -/
theorem walked (h : Accepted program) :
    ∃ final, (walk program (walkBound program) 0 { shape := [] } []).1 = .ok final ∧
      final.previews = [] := by
  have checked := h.checked
  rw [check, checkSeeing, Attempt.bind_apply] at checked
  rcases walked : walk program (walkBound program) 0 { shape := [] } [] with ⟨e | final, seen⟩
  · rw [walked] at checked
    cases checked
  · rw [walked] at checked
    exact ⟨final, rfl, previews_of_finish checked⟩

theorem smooth_outside (h : Accepted program) : Smooth program none := by
  intro i w instr reached _ fetched
  obtain ⟨final, walked, -⟩ := h.walked
  have passes := reached.passes ⟨_, _, walked⟩
  by_cases header : ∃ sig, instr.token = .header sig
  · exact .inr ⟨rfl, header⟩
  · obtain ⟨w', stepped, -⟩ := passes.step fetched fun sig is => header ⟨sig, is⟩
    exact .inl ⟨w', stepped⟩

/-! ## Procedures -/

/-- A declared procedure is found under its name. -/
theorem procedure?_eq (h : Accepted program) {p : Procedure} (hp : p ∈ program.procedures) :
    program.procedure? p.name = some p := by
  obtain ⟨b, wellFormed, rfl⟩ := h.linked
  exact Block.procedure?_of_mem wellFormed.distinct hp

/-- A declared procedure stands in the program, and its body was checked. -/
theorem declaration (h : Accepted program) {p : Procedure} (hp : p ∈ program.procedures) :
    ∃ d : Block.Declaration, d.procedure = p ∧ d.Stands program ∧
      checkProcedure program p = .ok () := by
  obtain ⟨b, wellFormed, rfl⟩ := h.linked
  have stands := Block.standsAt_program wellFormed.proper
  rw [show b.program.procedures = _ from b.procedures_eq 0] at hp
  obtain ⟨d, hd, rfl⟩ := List.mem_map.1 hp
  have standing := Block.stands_of_mem_declarations stands hd
  obtain ⟨-, -, -, headers⟩ := h.smooth_outside.through stands nofun .start
  obtain ⟨i, w, start, reached⟩ := headers wellFormed.proper d hd
  obtain ⟨base, start', header⟩ := standing.header
  obtain rfl : i = base := by omega
  obtain ⟨final, walked, -⟩ := h.walked
  obtain ⟨q, n, found, checked, -⟩ := (reached.passes ⟨_, _, walked⟩).header header rfl
  have named : b.program.procedure? d.signature.name = some d.procedure :=
    h.procedure?_eq (p := d.procedure)
      (by rwa [show b.program.procedures = _ from b.procedures_eq 0])
  obtain rfl : d.procedure = q := Option.some.inj (named.symm.trans found)
  exact ⟨d, rfl, standing, checked⟩

/-- The body of a procedure ends in front of an instruction of the program. -/
theorem stop_lt (h : Accepted program) {p : Procedure} (hp : p ∈ program.procedures) :
    p.stop < program.size := by
  obtain ⟨d, rfl, standing, -⟩ := h.declaration hp
  exact (Array.getElem?_eq_some_iff.1 standing.close).1

end Accepted

/-- The check of a procedure goes on from an index to the end of its body, and finds the declared
outputs there unless it has returned. -/
def Follows (program : Program) (p : Procedure) (i : Nat) (w : Walk) : Prop :=
  ∃ final, w.steps program (some p) i (program.instructions.extract i p.stop).toList = .ok final ∧
    final.previews = [] ∧ (final.returned = false → final.shape = p.signature.outputs.reverse)

theorem toList_extract_cons {α : Type} {xs : Array α} {i stop : Nat} {a : α}
    (fetched : xs[i]? = some a) (lt : i < stop) :
    (xs.extract i stop).toList = a :: (xs.extract (i + 1) stop).toList := by
  obtain ⟨bound, rfl⟩ := Array.getElem?_eq_some_iff.1 fetched
  rw [Array.toList_extract, Array.toList_extract, List.extract_eq_take_drop,
    List.extract_eq_take_drop, List.drop_eq_getElem_cons (by simpa using bound),
    show stop - i = stop - (i + 1) + 1 by omega, List.take_succ_cons, Array.getElem_toList]

theorem Follows.step {p : Procedure} (h : Follows program p i w) (lt : i < p.stop)
    (fetched : program.instructions[i]? = some instr) :
    ∃ w', w.step program (some p) i instr = .ok w' ∧ Follows program p (i + 1) w' := by
  obtain ⟨final, followed, ends⟩ := h
  rw [toList_extract_cons fetched lt, Walk.steps] at followed
  obtain ⟨w', stepped, followed⟩ := bind_ok followed
  exact ⟨w', stepped, final, followed, ends⟩

theorem Follows.behind {p : Procedure} (h : Follows program p p.stop w) :
    w.previews = [] ∧ (w.returned = false → w.shape = p.signature.outputs.reverse) := by
  obtain ⟨final, followed, ends⟩ := h
  rw [Array.extract_eq_empty_of_le (by omega)] at followed
  obtain rfl := Except.ok.inj followed
  exact ends

theorem follows_of_checkProcedure {p : Procedure} (h : checkProcedure program p = .ok ()) :
    Follows program p p.start { shape := p.signature.inputs.reverse } := by
  obtain ⟨final, followed, h⟩ := bind_ok h
  have ends : final.finish = .ok () ∧
      (final.returned = false → final.shape = p.signature.outputs.reverse) := by
    cases live : final.returned with
    | false =>
      simp only [live, Bool.not_false, if_true] at h
      obtain ⟨u, returned, finished⟩ := bind_ok h
      exact ⟨finished, fun _ => Walk.returns_ok returned⟩
    | true =>
      simp only [live, Bool.not_true, Bool.false_eq_true, if_false] at h
      exact ⟨h, nofun⟩
  exact ⟨final, followed, previews_of_finish ends.1, ends.2⟩

theorem Reaches.follows (h : Accepted program) {p : Procedure}
    (reached : Reaches program (some p) i w) :
    Follows program p i w ∧ p ∈ program.procedures ∧ p.start ≤ i ∧ i ≤ p.stop := by
  generalize inside : some p = o at reached
  induction reached with
  | start => cases inside
  | enter declared =>
    obtain rfl := Option.some.inj inside
    obtain ⟨d, rfl, -, checked⟩ := h.declaration declared
    exact ⟨follows_of_checkProcedure checked, declared, Nat.le_refl _, Nat.le_add_right _ _⟩
  | step reached bounds fetched stepped ih =>
    subst inside
    obtain ⟨follows, declared, start, -⟩ := ih rfl
    have lt := bounds p rfl
    obtain ⟨w', stepped', follows⟩ := follows.step lt fetched
    obtain rfl := Except.ok.inj (stepped.symm.trans stepped')
    exact ⟨follows, declared, by omega, lt⟩
  | skip => cases inside

namespace Accepted

/-- **The check of an accepted program** goes on from wherever it comes to. -/
theorem smooth (h : Accepted program) (o : Option Procedure) : Smooth program o := by
  cases o with
  | none => exact h.smooth_outside
  | some p =>
    intro i w instr reached bounds fetched
    obtain ⟨follows, -⟩ := reached.follows h
    obtain ⟨w', stepped, -⟩ := follows.step (bounds p rfl) fetched
    exact .inl ⟨w', stepped⟩

/-- At the end of a procedure body the declared outputs are there, unless it has returned. -/
theorem outputs (h : Accepted program) {p : Procedure} (reached : Reaches program (some p) p.stop w)
    (live : w.returned = false) : w.shape = p.signature.outputs.reverse :=
  (reached.follows h).1.behind.2 live

/-! ## Ranges of procedures -/

/-- The header of a procedure stands right in front of its body and leads behind its end. -/
theorem header (h : Accepted program) {p : Procedure} (hp : p ∈ program.procedures) :
    ∃ i, p.start = i + 1 ∧ program.instructions[i]? =
      some { token := .header p.signature, next := some (p.stop + 1) } := by
  obtain ⟨d, rfl, standing, -⟩ := h.declaration hp
  exact standing.header

/-- The check comes to every index of a procedure body. -/
theorem reaches_inside (h : Accepted program) {p : Procedure} (hp : p ∈ program.procedures)
    (start : p.start ≤ i) (stop : i ≤ p.stop) : ∃ w, Reaches program (some p) i w := by
  induction start with
  | refl => exact ⟨_, .enter hp⟩
  | @step i _ ih =>
    obtain ⟨w, reached⟩ := ih (Nat.le_of_succ_le stop)
    have size : i < program.instructions.size := Nat.lt_trans stop (h.stop_lt hp)
    obtain ⟨w', stepped, -⟩ := (reached.follows h).1.step stop (Array.getElem?_eq_getElem size)
    refine ⟨w', .step reached (fun q hq => ?_) (Array.getElem?_eq_getElem size) stepped⟩
    obtain rfl := Option.some.inj hq
    exact stop

/-- There is no header in a procedure body. -/
theorem no_header (h : Accepted program) {p : Procedure} (hp : p ∈ program.procedures)
    (start : p.start ≤ i) (stop : i < p.stop) {sig : Signature}
    (fetched : program.instructions[i]? = some instr) : instr.token ≠ .header sig := by
  intro header
  obtain ⟨w, reached⟩ := h.reaches_inside hp start (by omega)
  obtain ⟨w', stepped, -⟩ := (reached.follows h).1.step stop fetched
  exact Walk.step_header header stepped

/-- Procedures do not overlap. -/
theorem apart (h : Accepted program) {p q : Procedure} (hp : p ∈ program.procedures)
    (hq : q ∈ program.procedures) (hpi : p.start ≤ i ∧ i ≤ p.stop)
    (hqi : q.start ≤ i ∧ i ≤ q.stop) :
    p = q := by
  obtain ⟨j, hj, fetched⟩ := h.header hp
  obtain ⟨k, hk, fetched'⟩ := h.header hq
  rcases Nat.lt_trichotomy j k with lt | rfl | lt
  · exact absurd rfl (h.no_header hp (by omega) (by omega) fetched')
  · have same : p.signature = q.signature := by
      rw [fetched] at fetched'
      injection fetched' with fetched'
      injection fetched' with token
      injection token
    have named := h.procedure?_eq hp
    rw [show p.name = q.name from congrArg Signature.name same, h.procedure?_eq hq] at named
    exact (Option.some.inj named).symm
  · exact absurd rfl (h.no_header hq (by omega) (by omega) fetched)

/-- A header belongs to a declared procedure and leads behind its end. -/
theorem exists_procedure (h : Accepted program) {sig : Signature} {n : Nat}
    (fetched : program.instructions[i]? = some instr) (header : instr.token = .header sig)
    (next : instr.next = some n) : ∃ p ∈ program.procedures, p.start = i + 1 ∧ n = p.stop + 1 := by
  obtain ⟨b, wellFormed, rfl⟩ := h.linked
  have size : i < 0 + b.size := by
    rw [Nat.zero_add, ← b.size_program]
    exact (Array.getElem?_eq_some_iff.1 fetched).1
  obtain ⟨d, hd, start, next'⟩ := Block.exists_declaration
    (Block.standsAt_program wellFormed.proper) (Nat.zero_le i) size fetched header
  refine ⟨d.procedure, ?_, start, Option.some.inj (next.symm.trans next')⟩
  rw [show b.program.procedures = _ from b.procedures_eq 0]
  exact List.mem_map_of_mem hd

end Accepted

/-- The check outside of procedures comes to no index of a procedure. -/
theorem Reaches.outside (h : Accepted program) (reached : Reaches program none i w) {p : Procedure}
    (hp : p ∈ program.procedures) : ¬(p.start ≤ i ∧ i ≤ p.stop) := by
  obtain ⟨j, start, atHeader⟩ := h.header hp
  rintro ⟨behindStart, beforeStop⟩
  generalize none_ : none = o at reached
  induction reached with
  | start => omega
  | enter => cases none_
  | @step _ i _ _ _ _ _ fetched stepped ih =>
    by_cases first : p.start = i + 1
    · obtain rfl : j = i := by omega
      obtain rfl := Option.some.inj (fetched.symm.trans atHeader)
      exact Walk.step_header rfl stepped
    · exact ih (by omega) (by omega) none_
  | skip _ fetched header next _ =>
    obtain ⟨q, hq, -, rfl⟩ := h.exists_procedure fetched header next
    obtain ⟨d, rfl, standing, -⟩ := h.declaration hq
    by_cases first : p.start = d.procedure.stop + 1
    · obtain rfl : j = d.procedure.stop := by omega
      cases Option.some.inj (standing.close.symm.trans atHeader)
    · have inside : d.procedure.start ≤ d.procedure.stop := Nat.le_add_right _ _
      obtain rfl := h.apart hp hq (i := d.procedure.stop) ⟨by omega, by omega⟩ ⟨inside, by omega⟩
      omega

/-- **The stack map is fixed**: the check comes to an index with one walk only. -/
theorem Reaches.unique (h : Accepted program) {o : Option Procedure} {w' : Walk}
    (reached : Reaches program o i w) (reached' : Reaches program o i w') : w = w' := by
  induction reached generalizing w' with
  | start =>
    generalize zero : 0 = i at reached'
    cases reached' with
    | start => rfl
    | step => cases zero
    | skip _ fetched header next =>
      obtain ⟨q, -, -, rfl⟩ := h.exists_procedure fetched header next
      cases zero
  | @enter p declared =>
    generalize here : p.start = i at reached'
    cases reached' with
    | enter => rfl
    | step before =>
      obtain ⟨-, -, start, -⟩ := before.follows h
      omega
  | @step o i w w₁ instr before _ fetched stepped ih =>
    generalize here : i + 1 = j at reached'
    cases reached' with
    | start => cases here
    | enter =>
      obtain ⟨-, -, start, -⟩ := before.follows h
      omega
    | step before' _ fetched' stepped' =>
      obtain rfl := Nat.succ.inj here
      obtain rfl := ih before'
      obtain rfl := Option.some.inj (fetched.symm.trans fetched')
      exact Except.ok.inj (stepped.symm.trans stepped')
    | skip _ fetched' header next =>
      obtain ⟨q, hq, -, rfl⟩ := h.exists_procedure fetched' header next
      obtain rfl := Nat.succ.inj here
      obtain ⟨d, rfl, -⟩ := h.declaration hq
      exact absurd ⟨Nat.le_add_right _ _, Nat.le_refl _⟩ (before.outside h hq)
  | @skip i n w instr sig before fetched header next ih =>
    obtain ⟨q, hq, start, here⟩ := h.exists_procedure fetched header next
    obtain ⟨d, rfl, -⟩ := h.declaration hq
    have inside : d.procedure.start ≤ d.procedure.stop := Nat.le_add_right _ _
    cases reached' with
    | start => cases here
    | step before' =>
      obtain rfl := Nat.succ.inj here
      exact absurd ⟨inside, Nat.le_refl _⟩ (before'.outside h hq)
    | skip before' fetched' header' next' =>
      obtain ⟨q, hq', start', here'⟩ := h.exists_procedure fetched' header' next'
      obtain ⟨d', rfl, -⟩ := h.declaration hq'
      have inside' : d'.procedure.start ≤ d'.procedure.stop := Nat.le_add_right _ _
      have same := h.apart hq hq' (i := d.procedure.stop) ⟨inside, by omega⟩ ⟨by omega, by omega⟩
      rw [same, start'] at start
      obtain rfl := Nat.succ.inj start
      exact ih before'

end Chore.Typing
