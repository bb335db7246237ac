import Chore.Proofs.Machine.CountedReturns
import Chore.Proofs.Machine.Limits
import Chore.Proofs.Typing.StackMap

/-!
# Counted returns in loaded programs

The check does not look at the stack for the counts of `dret` and `iret`: it reads them off the
instructions in front. The machine takes what is on top. In a loaded program these are the same
numbers, for nothing jumps between the literals and the word (`Fresh`), and so the shape the check
computes is that of what the machine leaves (`WellTyped.drops`, `WellTyped.keeps`).
-/

set_option autoImplicit false

namespace Chore.Typing

open Machine

variable {ω : Type} {c : Setup ω} {s : State ω}

/-- A run keeps to the limit. -/
theorem Active.fits_limit {start : State ω} {acts : List Activation}
    (room : Machine.Fits c.limit start) (active : Active c start s acts) : Machine.Fits c.limit s := by
  induction active with
  | start => exact room
  | step _ step ih => exact ih.step step

/-- The machine returns as the check has it: the values it leaves above the base of the activation
have the shape that is compared with the outputs, and below the base nothing is changed. -/
def ReturnsAs (c : Setup ω) (s : State ω) (instr : Instr) (p : Procedure) (base : Nat)
    (checked : Except TypeError Shape) : Prop :=
  ∃ left t, checked = .ok (left.map Value.kind) ∧
    (left.map Value.kind).reverse = p.signature.outputs ∧ s.follow c instr = .ok t ∧
    s.store.calls.toList = t.ip :: t.store.calls.toList ∧
    t.store.stack.toList = left ++ s.store.stack.toList.drop (s.store.stack.size - base)

section

variable {calls : List Call} {p : Procedure} {w : Walk} {own : List Value} {instr : Instr}
  {l : Leave}

/-- The check has accepted what stands in a body. -/
theorem Spot.accepted_leave (h : Accepted c.program) {i : Nat} (spot : Spot c.program (some p) i w)
    (inside : i < p.stop) (fetched : c.program.instructions[i]? = some instr)
    (token : instr.token = .word (.leave l)) :
    ∃ w', w.step c.program (some p) i { token := .word (.leave l) } = .ok w' := by
  have bounds : Bounds (some p) (i + 1) := by
    rintro _ ⟨⟩
    exact inside
  have same : w.step c.program (some p) i instr =
      w.step c.program (some p) i { token := .word (.leave l) } := by
    simp only [Walk.step, token]
    rfl
  obtain ⟨w', stepped⟩ | ⟨outside, -⟩ := h.smooth (some p) i w instr spot.reached bounds fetched
  · exact ⟨w', same ▸ stepped⟩
  · cases outside

/-- A word that goes back with values of the declared outputs. -/
theorem WellTyped.returnsAs (typed : WellTyped c calls s) (inCall : calls ≠ [])
    (room : s.store.stack.size ≤ c.limit) (stack : s.store.stack.toList = own ++ held calls)
    (token : instr.token = .word (.leave l)) {left : List Value}
    (goes : GoesBack c l (own ++ held calls) (left ++ held calls))
    {checked : Except TypeError Shape} (accepted : checked = .ok p.signature.outputs.reverse)
    (kinds : left.map Value.kind = p.signature.outputs.reverse) :
    ReturnsAs c s instr p (held calls).length checked := by
  obtain ⟨call, rest, rfl⟩ := List.exists_cons_of_ne_nil inCall
  have pending : s.store.calls.toList = call.back :: rest.map Call.back := typed.returns
  refine ⟨left, _, kinds ▸ accepted, by rw [kinds, List.reverse_reverse],
    goes s instr _ _ ⟨token, stack, room, pending⟩, pending, ?_⟩
  rw [s.store.stack.size_eq, stack, List.length_append, Nat.add_sub_cancel, List.drop_left]
  rfl

variable (h : Accepted c.program) (typed : WellTyped c calls s) (inCall : calls ≠ [])
  (room : s.store.stack.size ≤ c.limit) (spot : Spot c.program (some p) s.ip w)
  (inside : s.ip < p.stop) (kinds : own.map Value.kind = w.shape)
  (stack : s.store.stack.toList = own ++ held calls)
  (fetched : c.program.instructions[s.ip]? = some instr)
include h typed inCall room spot inside kinds stack fetched

/-- Where `dret` stands, the count the check has read is on top. -/
theorem WellTyped.drops (token : instr.token = .word (.leave .dropRet)) :
    ∃ d rest, s.store.stack.toList = .int d :: rest ∧ 0 ≤ d.toInt ∧
      Walk.literalCount? c.program p s.ip 1 = some d.toInt.toNat ∧
      ReturnsAs c s instr p (held calls).length (Walk.dropRet c.program p s.ip w.shape) := by
  obtain ⟨w', stepped⟩ := spot.accepted_leave h inside fetched token
  obtain ⟨-, _, ⟨⟩, accepted⟩ := Walk.step_dropRet stepped
  obtain ⟨d, ds, outs, rfl, literal, count, outsKinds⟩ :=
    typed.fits.1.dropRet (not_loopAt_leave fetched token) kinds stack accepted
  refine ⟨d, ds ++ outs ++ held calls, stack, by omega, literal, ?_⟩
  refine typed.returnsAs inCall room stack token ?_ accepted outsKinds
  rw [List.cons_append, List.append_assoc]
  exact dropRet_goesBack count _

/-- Where `iret` stands, the counts the check has read are on top. -/
theorem WellTyped.keeps (token : instr.token = .word (.leave .keepRet)) :
    ∃ d r rest, s.store.stack.toList = .int d :: .int r :: rest ∧ 0 ≤ d.toInt ∧ 0 ≤ r.toInt ∧
      Walk.literalCount? c.program p s.ip 1 = some d.toInt.toNat ∧
      Walk.literalCount? c.program p s.ip 2 = some r.toInt.toNat ∧
      ReturnsAs c s instr p (held calls).length (Walk.keepRet c.program p s.ip w.shape) := by
  obtain ⟨w', stepped⟩ := spot.accepted_leave h inside fetched token
  obtain ⟨-, _, ⟨⟩, accepted⟩ := Walk.step_keepRet stepped
  obtain ⟨d, r, ks, ds, outs, rfl, literal, literal', count, count', leftKinds⟩ :=
    typed.fits.1.keepRet (not_loopAt_leave fetched token) kinds stack accepted
  refine ⟨d, r, ks ++ (ds ++ outs) ++ held calls, stack, by omega, by omega, literal, literal', ?_⟩
  refine typed.returnsAs inCall room stack token ?_ accepted leftKinds
  simp only [List.cons_append, List.append_assoc]
  exact keepRet_goesBack count count' _

end

/-- **Counted returns do what they count, and what the check takes them to do.** On every stack that
holds enough below its counts they drop and keep as many values as these say, and go back; they fail
where there are too few, or the first count is negative. In a loaded program, whenever a run is
about to perform one in a body, the counts the check has read off the literals in front are the
integers on top of the stack, and the shape it compares with the outputs is that of what the run
leaves above the base of the activation. -/
theorem counted_returns_exact :
    (∀ {ω : Type} (c : Setup ω), CountsExactly c) ∧
    ∀ {source : String} {program : Program}, load source = .ok program →
      ∀ {ω : Type} (host : Host ω) (limit : Nat) (world : ω),
        let c : Setup ω := { program, host, limit }
        let start : State ω := { store := { world } }
        (∀ is s, Path c start is s → ∃ acts, Active c start s acts) ∧
        ∀ s acts, Active c start s acts →
          ∀ p ∈ program.procedures, p.start ≤ s.ip → s.ip < p.stop →
            ∃ base others w, acts = ⟨p, base⟩ :: others ∧ base ≤ s.store.stack.size ∧
              (∀ w', Reaches program (some p) s.ip w' ↔ w' = w) ∧
              ∀ instr, program.instructions[s.ip]? = some instr →
                (instr.token = .word (.leave .dropRet) →
                  ∃ d rest, s.store.stack.toList = .int d :: rest ∧ 0 ≤ d.toInt ∧
                    Walk.literalCount? program p s.ip 1 = some d.toInt.toNat ∧
                    ReturnsAs c s instr p base (Walk.dropRet program p s.ip w.shape)) ∧
                (instr.token = .word (.leave .keepRet) →
                  ∃ d r rest, s.store.stack.toList = .int d :: .int r :: rest ∧
                    0 ≤ d.toInt ∧ 0 ≤ r.toInt ∧
                    Walk.literalCount? program p s.ip 1 = some d.toInt.toNat ∧
                    Walk.literalCount? program p s.ip 2 = some r.toInt.toNat ∧
                    ReturnsAs c s instr p base (Walk.keepRet program p s.ip w.shape)) := by
  refine ⟨countsExactly, ?_⟩
  intro source program loaded ω host limit world c start
  have accepted : Accepted c.program := accepted_of_load loaded
  refine ⟨fun is s path => exists_active path .start, ?_⟩
  intro s acts active p hp from_ upTo
  have room := (active.fits_limit ⟨Nat.zero_le _, Nat.zero_le _⟩).stack
  obtain behind | ⟨calls, typed, rfl⟩ := active.wellTyped accepted
  · have stop : p.stop < c.program.size := accepted.stop_lt hp
    omega
  · obtain ⟨base, others, w, own, latest, spot, kinds, stack, rfl⟩ :=
      typed.in_body accepted hp ⟨from_, Nat.le_of_lt upTo⟩
    have inCall : calls ≠ [] := by
      rintro rfl
      cases latest
    refine ⟨_, others, w, latest, ?_, ?_, ?_⟩
    · rw [s.store.stack.size_eq, stack, List.length_append]
      exact Nat.le_add_left _ _
    · intro w'
      refine ⟨fun reached => reached.unique accepted spot.reached, ?_⟩
      rintro rfl
      exact spot.reached
    · intro instr fetched
      exact ⟨typed.drops accepted inCall room spot upTo kinds stack fetched,
        typed.keeps accepted inCall room spot upTo kinds stack fetched⟩

/-- A procedure that keeps the upper one of its two operands: at its `iret` the counts are on top,
and the run goes back with that operand alone. -/
theorem counted_returns_exact_last :
    let sig : Signature := ⟨"last", [.int, .int], [.int]⟩
    let body : Block := .plain (.literal (.int 1)) (.plain (.literal (.int 1))
      (.plain (.word (.leave .keepRet)) .nil))
    let program := (Block.procedure sig body
      (.plain (.literal (.int 7)) (.plain (.literal (.int 8)) (.plain (.name "last") .nil)))).program
    load "proc last int int in int do 1 1 iret end 7 8 last" = .ok program ∧
      ∀ {ω : Type} (host : Host ω) (world : ω), ∃ s acts instr t,
        Active { program, host, limit := 4 } { store := { world } } s acts ∧
        program.instructions[s.ip]? = some instr ∧ instr.token = .word (.leave .keepRet) ∧
        s.store.stack.toList = [.int 1, .int 1, .int 8, .int 7] ∧
        s.follow { program, host, limit := 4 } instr = .ok t ∧ t.ip = 8 ∧
        t.store.stack.toList.map Value.kind = [.int] := by
  intro sig body program
  have loaded : load "proc last int int in int do 1 1 iret end 7 8 last" = .ok program :=
    ok_of_toOption (by decide +kernel)
  refine ⟨loaded, ?_⟩
  intro ω host world
  let c : Setup ω := { program, host, limit := 4 }
  let inside (stack : List Value) : Store ω :=
    { stack := .ofList stack, calls := .ofList [8], world }
  let s : State ω := ⟨3, 6, inside [.int 1, .int 1, .int 8, .int 7]⟩
  have after (s : State ω) {t : State ω} (acts : List Activation) {acts' : List Activation}
      {instr : Instr} (before : Active c { store := { world } } s acts) (step : Step c s instr t)
      (same : activate c s instr t acts = acts') : Active c { store := { world } } t acts' :=
    same ▸ before.step step
  have called : Active c _ ⟨1, 4, inside [.int 8, .int 7]⟩ [⟨⟨1, 4, sig⟩, 0⟩] :=
    after ⟨7, 3, { stack := .ofList [.int 8, .int 7], world }⟩ []
      (after ⟨6, 2, { stack := .ofList [.int 7], world }⟩ []
        (after ⟨5, 1, { world }⟩ [] (after _ [] .start ⟨rfl, rfl⟩ rfl) ⟨rfl, rfl⟩ rfl)
        ⟨rfl, rfl⟩ rfl) ⟨rfl, rfl⟩ rfl
  have active : Active c _ s [⟨⟨1, 4, sig⟩, 0⟩] :=
    after ⟨2, 5, inside [.int 1, .int 8, .int 7]⟩ [⟨⟨1, 4, sig⟩, 0⟩]
      (after _ _ called ⟨rfl, rfl⟩ rfl) ⟨rfl, rfl⟩ rfl
  obtain ⟨base, others, w, latest, -, -, performs⟩ :=
    (counted_returns_exact.2 loaded host 4 world).2 s _ active ⟨1, 4, sig⟩ (by decide)
      (Nat.le_add_left 1 2) (Nat.lt_succ_self 3)
  cases latest
  obtain ⟨-, -, -, -, -, -, -, -, left, t, -, outputs, goes, back, stack⟩ := (performs _ rfl).2 rfl
  refine ⟨s, _, _, t, active, rfl, rfl, rfl, goes, ?_, ?_⟩
  · exact (List.cons.inj back).1.symm
  · rw [stack]
    change ((left ++ []).map Value.kind) = _
    rw [List.append_nil]
    exact List.reverse_inj.1 outputs

end Chore.Typing
