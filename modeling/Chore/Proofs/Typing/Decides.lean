import Chore.Proofs.Block.Reading
import Chore.Proofs.Typing.Accepted
import Chore.Proofs.Typing.System

/-!
# The check decides the type system

For programs without returns the check and the typing rules accept the same programs
(`check_iff_derivable`). Where the check goes through a block, the shapes it comes by are a
derivation (`Smooth.typed`); and along a derivation no step of the check fails
(`Typed.reaches`), so that the check comes to the end of the program and of each body
(`Reaches.walks`, `checkProcedure_of_reaches`).
-/

set_option autoImplicit false

namespace Chore

namespace Block

/-- The only way out of a block is its end, or that of the program. -/
def Returnless (b : Block) : Prop :=
  ∀ l, Token.word (.leave l) ∈ b.tokens → l = .exit

theorem Returnless.of_subset {b b' : Block} (h : b.Returnless) (part : b'.tokens ⊆ b.tokens) :
    b'.Returnless :=
  fun l hl => h l (part hl)

end Block

namespace Typing

variable {program : Program} {o : Option Procedure} {signatures : List Signature}

/-- The names a program knows are those of some signatures. -/
structure Knows (program : Program) (signatures : List Signature) : Prop where
  signature : ∀ name p, program.procedure? name = some p →
    p.signature ∈ signatures ∧ p.signature.name = name
  procedure : ∀ sig ∈ signatures, ∃ p, program.procedure? sig.name = some p ∧ p.signature = sig

/-! ## From the check to a derivation -/

/-- **The shapes of the check are a derivation**: where it goes through a block, the block leads
from the shape in front of it to the shape behind it. -/
theorem Smooth.typed (smooth : Smooth program o) (knows : Knows program signatures) {b : Block}
    {base : Nat} (stands : b.StandsAt program base) (bounds : Bounds o (base + b.size))
    (returnless : b.Returnless) {s : Shape} {previews : List Preview}
    (reached : Reaches program o base ⟨s, previews, false⟩) :
    ∃ t, Typed signatures Kind.IsCondition s b t ∧
      Reaches program o (base + b.size) ⟨t, previews, false⟩ := by
  induction b generalizing base s previews with
  | nil => exact ⟨s, .nil s, reached⟩
  | plain token rest ih =>
    obtain ⟨plain, fetched, rest_stands⟩ := stands
    have size : base + (Block.plain token rest).size = base + 1 + rest.size := by
      simp only [Block.size]; omega
    rw [size] at bounds ⊢
    have behind : rest.Returnless := returnless.of_subset fun t ht => by simp [Block.tokens, ht]
    obtain ⟨w, stepped, reached⟩ :=
      smooth.next reached (bounds.mono (by omega)) fetched (plain_ne_header plain)
    cases token with
    | header sig => cases plain
    | literal v =>
      obtain rfl := Except.ok.inj stepped
      obtain ⟨t, typed, reached⟩ := ih rest_stands bounds behind reached
      exact ⟨t, .literal typed, reached⟩
    | name name =>
      obtain ⟨p, found, enough, inputs, rfl⟩ := Walk.step_name stepped
      obtain ⟨declared, rfl⟩ := knows.signature name p found
      obtain ⟨t, typed, reached⟩ := ih rest_stands bounds behind reached
      have split : s = p.signature.inputs.reverse ++ s.drop p.signature.inputs.length := by
        rw [← inputs, List.take_append_drop]
      refine ⟨t, ?_, reached⟩
      rw [split]
      exact .call declared typed
    | word op =>
      have returns : ∀ l, op = .leave l → l = .exit := by
        rintro l rfl
        exact returnless l (by simp [Block.tokens])
      obtain ⟨before, after, s', effect, shape, rfl⟩ :=
        Walk.hasEffect_of_step plain returns stepped
      obtain rfl : s = before.reverse ++ s' := shape
      obtain ⟨t, typed, reached⟩ := ih rest_stands bounds behind reached
      exact ⟨t, .word effect typed, reached⟩
  | branch k body rest ihb ihr =>
    obtain ⟨opens, body_stands, closes, rest_stands⟩ := stands
    have size : base + (Block.branch k body rest).size = base + body.size + 2 + rest.size := by
      simp only [Block.size]; omega
    rw [size] at bounds ⊢
    obtain ⟨w, stepped, reached⟩ :=
      smooth.next reached (bounds.mono (by omega)) opens (mark_ne_header _)
    obtain ⟨c, s', condition, shape, rfl⟩ := Walk.step_branch stepped
    obtain rfl : s = c :: s' := shape
    obtain ⟨t, inside, reached⟩ := ihb body_stands (bounds.mono (by omega))
      (returnless.of_subset fun t ht => by simp [Block.tokens, ht]) reached
    rw [show base + 1 + body.size = base + body.size + 1 by omega] at reached
    obtain ⟨same, reached⟩ := smooth.close reached (bounds.mono (by omega)) closes rfl
    obtain rfl : t = s' := same rfl rfl
    rw [Walk.joined_self rfl] at reached
    obtain ⟨u, behind, reached⟩ := ihr rest_stands bounds
      (returnless.of_subset fun t ht => by simp [Block.tokens, ht]) reached
    exact ⟨u, .branch (Kind.isCondition_iff.2 condition) inside behind, reached⟩
  | choice k body alternative rest ihb iha ihr =>
    obtain ⟨opens, body_stands, divides, alternative_stands, closes, rest_stands⟩ := stands
    have size : base + (Block.choice k body alternative rest).size =
        base + body.size + alternative.size + 3 + rest.size := by simp only [Block.size]; omega
    rw [size] at bounds ⊢
    obtain ⟨w, stepped, reached⟩ :=
      smooth.next reached (bounds.mono (by omega)) opens (mark_ne_header _)
    obtain ⟨c, s', condition, shape, rfl⟩ := Walk.step_branch stepped
    obtain rfl : s = c :: s' := shape
    obtain ⟨t, first, reached⟩ := ihb body_stands (bounds.mono (by omega))
      (returnless.of_subset fun t ht => by simp [Block.tokens, ht]) reached
    rw [show base + 1 + body.size = base + body.size + 1 by omega] at reached
    obtain ⟨w, stepped, reached⟩ :=
      smooth.next reached (bounds.mono (by omega)) divides (mark_ne_header _)
    obtain rfl := Walk.step_otherwise rfl stepped
    obtain ⟨t', second, reached⟩ := iha alternative_stands (bounds.mono (by omega))
      (returnless.of_subset fun t ht => by simp [Block.tokens, ht]) reached
    rw [show base + body.size + 2 + alternative.size = base + body.size + alternative.size + 2
      by omega] at reached
    obtain ⟨same, reached⟩ := smooth.close reached (bounds.mono (by omega)) closes rfl
    obtain rfl : t' = t := same rfl rfl
    rw [Walk.joined_self rfl] at reached
    obtain ⟨u, behind, reached⟩ := ihr rest_stands bounds
      (returnless.of_subset fun t ht => by simp [Block.tokens, ht]) reached
    exact ⟨u, .choice (Kind.isCondition_iff.2 condition) first second behind, reached⟩
  | loop k header body rest ihh ihb ihr =>
    obtain ⟨opens, header_stands, tests, body_stands, closes, rest_stands⟩ := stands
    have size : base + (Block.loop k header body rest).size =
        base + header.size + body.size + 3 + rest.size := by simp only [Block.size]; omega
    rw [size] at bounds ⊢
    obtain ⟨w, stepped, reached⟩ :=
      smooth.next reached (bounds.mono (by omega)) opens (mark_ne_header _)
    obtain rfl := Walk.step_loop stepped
    obtain ⟨t, head, reached⟩ := ihh header_stands (bounds.mono (by omega))
      (returnless.of_subset fun t ht => by simp [Block.tokens, ht]) reached
    rw [show base + 1 + header.size = base + header.size + 1 by omega] at reached
    obtain ⟨w, stepped, tested⟩ :=
      smooth.next reached (bounds.mono (by omega)) tests (mark_ne_header _)
    obtain ⟨⟨c, s', condition, shape, same⟩, rfl⟩ := Walk.step_test rfl stepped
    obtain rfl : s' = s := same rfl
    obtain rfl : t = c :: s' := shape
    obtain ⟨t, inside, reached⟩ := ihb body_stands (bounds.mono (by omega))
      (returnless.of_subset fun t ht => by simp [Block.tokens, ht]) tested
    rw [show base + header.size + 2 + body.size = base + header.size + body.size + 2
      by omega] at reached
    obtain ⟨same, reached⟩ := smooth.close reached (bounds.mono (by omega)) closes rfl
    obtain rfl : t = s' := same rfl rfl
    rw [Walk.joined_self rfl] at reached
    obtain ⟨u, behind, reached⟩ := ihr rest_stands bounds
      (returnless.of_subset fun t ht => by simp [Block.tokens, ht]) reached
    exact ⟨u, .loop head (Kind.isCondition_iff.2 condition) inside behind, reached⟩
  | procedure sig body rest _ ihr =>
    obtain ⟨opens, -, -, rest_stands⟩ := stands
    have size : base + (Block.procedure sig body rest).size = base + body.size + 2 + rest.size := by
      simp only [Block.size]; omega
    rw [size] at bounds ⊢
    rcases smooth base _ _ reached (bounds.mono (by omega)) opens with ⟨w, stepped⟩ | ⟨rfl, -⟩
    · exact absurd stepped (Walk.step_header rfl)
    · obtain ⟨t, behind, reached⟩ := ihr rest_stands bounds
        (returnless.of_subset fun t ht => by simp [Block.tokens, ht]) (.skip reached opens rfl rfl)
      exact ⟨t, .procedure behind, reached⟩

/-! ## From a derivation to the check -/

/-- **Along a derivation no step of the check fails.** -/
theorem Typed.reaches {s t : Shape} {b : Block} (typed : Typed signatures Kind.IsCondition s b t)
    (knows : Knows program signatures) {base : Nat} (stands : b.StandsAt program base)
    (bounds : Bounds o (base + b.size)) (flat : o ≠ none → b.names = [])
    {previews : List Preview} (reached : Reaches program o base ⟨s, previews, false⟩) :
    Reaches program o (base + b.size) ⟨t, previews, false⟩ := by
  induction typed generalizing base previews with
  | nil => exact reached
  | @literal v rest s t _ ih =>
    obtain ⟨-, fetched, rest_stands⟩ := stands
    have size : base + (Block.plain (.literal v) rest).size = base + 1 + rest.size := by
      simp only [Block.size]; omega
    rw [size] at bounds ⊢
    exact ih rest_stands bounds flat (.step reached (bounds.mono (by omega)) fetched rfl)
  | @word op before after rest s t effect _ ih =>
    obtain ⟨-, fetched, rest_stands⟩ := stands
    have size : base + (Block.plain (.word op) rest).size = base + 1 + rest.size := by
      simp only [Block.size]; omega
    rw [size] at bounds ⊢
    exact ih rest_stands bounds flat (.step reached (bounds.mono (by omega)) fetched
      (Walk.step_of_hasEffect effect rfl))
  | @call sig rest s t declared _ ih =>
    obtain ⟨-, fetched, rest_stands⟩ := stands
    have size : base + (Block.plain (.name sig.name) rest).size = base + 1 + rest.size := by
      simp only [Block.size]; omega
    rw [size] at bounds ⊢
    obtain ⟨p, found, rfl⟩ := knows.procedure sig declared
    exact ih rest_stands bounds flat (.step reached (bounds.mono (by omega)) fetched
      (Walk.step_of_call found rfl))
  | @branch k c body rest s t condition _ _ ihb ihr =>
    obtain ⟨opens, body_stands, closes, rest_stands⟩ := stands
    have size : base + (Block.branch k body rest).size = base + body.size + 2 + rest.size := by
      simp only [Block.size]; omega
    rw [size] at bounds ⊢
    have opened := Reaches.step reached (bounds.mono (by omega)) opens
      (Walk.step_of_branch condition)
    have through := ihb body_stands (bounds.mono (by omega))
      (fun h => (List.append_eq_nil_iff.1 (flat h)).1) opened
    rw [show base + 1 + body.size = base + body.size + 1 by omega] at through
    have closed := Reaches.step through (bounds.mono (by omega)) closes
      (Walk.step_of_close (by cases k <;> rfl))
    exact ihr rest_stands bounds (fun h => (List.append_eq_nil_iff.1 (flat h)).2) closed
  | @choice k c body alternative rest s t u condition _ _ _ ihb iha ihr =>
    obtain ⟨opens, body_stands, divides, alternative_stands, closes, rest_stands⟩ := stands
    have size : base + (Block.choice k body alternative rest).size =
        base + body.size + alternative.size + 3 + rest.size := by simp only [Block.size]; omega
    rw [size] at bounds ⊢
    have parts (h : o ≠ none) : body.names = [] ∧ alternative.names = [] ∧ rest.names = [] := by
      simpa [Block.names] using flat h
    have opened := Reaches.step reached (bounds.mono (by omega)) opens
      (Walk.step_of_branch condition)
    have through := ihb body_stands (bounds.mono (by omega)) (fun h => (parts h).1) opened
    rw [show base + 1 + body.size = base + body.size + 1 by omega] at through
    have divided := Reaches.step through (bounds.mono (by omega)) divides Walk.step_of_otherwise
    have through := iha alternative_stands (bounds.mono (by omega)) (fun h => (parts h).2.1) divided
    rw [show base + body.size + 2 + alternative.size = base + body.size + alternative.size + 2
      by omega] at through
    have closed := Reaches.step through (bounds.mono (by omega)) closes (Walk.step_of_close rfl)
    exact ihr rest_stands bounds (fun h => (parts h).2.2) closed
  | @loop k c header body rest s t _ condition _ _ ihh ihb ihr =>
    obtain ⟨opens, header_stands, tests, body_stands, closes, rest_stands⟩ := stands
    have size : base + (Block.loop k header body rest).size =
        base + header.size + body.size + 3 + rest.size := by simp only [Block.size]; omega
    rw [size] at bounds ⊢
    have parts (h : o ≠ none) : header.names = [] ∧ body.names = [] ∧ rest.names = [] := by
      simpa [Block.names] using flat h
    have stepped : (⟨s, previews, false⟩ : Walk).step program o base
        { token := k.mark.token, next := some (base + header.size + 2) } =
          .ok ⟨s, ⟨s, k.mark.token, base, false⟩ :: previews, false⟩ := by
      cases k <;> rfl
    have opened := Reaches.step reached (bounds.mono (by omega)) opens stepped
    have through := ihh header_stands (bounds.mono (by omega)) (fun h => (parts h).1) opened
    rw [show base + 1 + header.size = base + header.size + 1 by omega] at through
    have tested := Reaches.step through (bounds.mono (by omega)) tests
      (Walk.step_of_test condition)
    have through := ihb body_stands (bounds.mono (by omega)) (fun h => (parts h).2.1) tested
    rw [show base + header.size + 2 + body.size = base + header.size + body.size + 2
      by omega] at through
    have closed := Reaches.step through (bounds.mono (by omega)) closes (Walk.step_of_close rfl)
    exact ihr rest_stands bounds (fun h => (parts h).2.2) closed
  | @procedure sig body rest s t _ ih =>
    obtain ⟨opens, -, -, rest_stands⟩ := stands
    have size : base + (Block.procedure sig body rest).size = base + body.size + 2 + rest.size := by
      simp only [Block.size]; omega
    rw [size] at bounds ⊢
    -- a header stands outside of procedures, where the check goes around it
    cases o with
    | some p => cases flat (Option.some_ne_none p)
    | none => exact ih rest_stands bounds (absurd rfl) (.skip reached opens rfl rfl)

/-- The check of a body that comes to an index goes on from there. -/
theorem Reaches.steps_eq {p : Procedure} {i : Nat} {w : Walk}
    (reached : Reaches program (some p) i w) :
    ({ shape := p.signature.inputs.reverse } : Walk).steps program (some p) p.start
        (bodyOf program p) =
      w.steps program (some p) i (program.instructions.extract i p.stop).toList := by
  generalize inside : some p = o at reached
  induction reached with
  | start => cases inside
  | enter =>
    obtain rfl := Option.some.inj inside
    rfl
  | @step _ i _ _ _ _ bounds fetched stepped ih =>
    subst inside
    have lt : i < p.stop := bounds p rfl
    rw [ih rfl, toList_extract_cons fetched lt, Walk.steps, stepped]
    rfl
  | skip => cases inside

/-- A body that leads to its outputs, or returns before, is accepted. -/
theorem checkProcedure_of_reaches {p : Procedure} {w : Walk}
    (reached : Reaches program (some p) p.stop w) (closed : w.previews = [])
    (outputs : w.returned = false → w.shape = p.signature.outputs.reverse) :
    checkProcedure program p = .ok () := by
  have stepped := reached.steps_eq
  rw [Array.extract_eq_empty_of_le (by omega)] at stepped
  obtain ⟨shape, previews, returned⟩ := w
  obtain rfl : previews = [] := closed
  unfold checkProcedure
  simp only [stepped]
  cases returned with
  | true => rfl
  | false =>
    have fits : Walk.returns p p.stop shape = .ok () :=
      if_pos (by rw [show shape = _ from outputs rfl, List.reverse_reverse])
    change (Walk.returns p p.stop shape >>= _) = _
    rw [fits]
    rfl

/-- What the check needs of the headers of a program. -/
def HeadersPass (program : Program) : Prop :=
  ∀ (i : Nat) (instr : Instr) (sig : Signature) (n : Nat),
    program.instructions[i]? = some instr → instr.token = .header sig → instr.next = some n →
      i < n ∧ ∃ p, program.procedure? sig.name = some p ∧ checkProcedure program p = .ok ()

theorem walk_of_step {i : Nat} {w w' : Walk} {instr : Instr}
    (fetched : program.instructions[i]? = some instr)
    (stepped : w.step program none i instr = .ok w') (fuel : Nat) (seen : List Procedure) :
    walk program (fuel + 1) i w seen = walk program fuel (i + 1) w' seen := by
  have onward : ((.ofExcept (w.step program none i instr) >>= fun w => walk program fuel (i + 1) w :
      Attempt (List Procedure) TypeError Walk) seen) = walk program fuel (i + 1) w' seen := by
    rw [Attempt.bind_apply, Attempt.ofExcept_apply, stepped]
  rw [walk, fetched]
  obtain ⟨token, next, role⟩ := instr
  cases token with
  | header sig => exact absurd stepped (Walk.step_header rfl)
  | _ => exact onward

theorem walk_of_header {i n : Nat} {w : Walk} {instr : Instr} {sig : Signature} {p : Procedure}
    (fetched : program.instructions[i]? = some instr) (header : instr.token = .header sig)
    (next : instr.next = some n) (found : program.procedure? sig.name = some p)
    (checked : checkProcedure program p = .ok ()) (fuel : Nat) (seen : List Procedure) :
    walk program (fuel + 1) i w seen = walk program fuel n w (p :: seen) := by
  obtain ⟨token, target, role⟩ := instr
  obtain rfl : token = .header sig := header
  obtain rfl : target = some n := next
  rw [walk, fetched]
  simp only [found, Attempt.bind_apply, Attempt.modify_apply, Attempt.ofExcept_apply, checked]

/-- The check outside of procedures that comes to an index has taken no more steps than there are
instructions in front of it. -/
theorem Reaches.walks {i : Nat} {w : Walk} (headers : HeadersPass program)
    (reached : Reaches program none i w) (seen : List Procedure) :
    ∃ spent seen', spent ≤ i ∧ ∀ fuel,
      walk program (fuel + spent) 0 { shape := [] } seen = walk program fuel i w seen' := by
  generalize outside : none = o at reached
  induction reached with
  | start => exact ⟨0, seen, Nat.le_refl 0, fun _ => rfl⟩
  | enter => cases outside
  | @step _ i w w' instr _ _ fetched stepped ih =>
    subst outside
    obtain ⟨spent, seen', le, same⟩ := ih rfl
    refine ⟨spent + 1, seen', by omega, fun fuel => ?_⟩
    rw [show fuel + (spent + 1) = fuel + 1 + spent by omega, same (fuel + 1)]
    exact walk_of_step fetched stepped fuel seen'
  | @skip i n w instr sig _ fetched header next ih =>
    obtain ⟨spent, seen', le, same⟩ := ih rfl
    obtain ⟨lt, p, found, checked⟩ := headers i instr sig n fetched header next
    refine ⟨spent + 1, p :: seen', by omega, fun fuel => ?_⟩
    rw [show fuel + (spent + 1) = fuel + 1 + spent by omega, same (fuel + 1)]
    exact walk_of_header fetched header next found checked fuel seen'

theorem size_le_walkBound (program : Program) : program.size ≤ walkBound program := by
  unfold walkBound
  generalize program.procedures.foldl (fun n p => n + p.signature.outputs.length) 0 = pushed
  have square := Nat.le_mul_self (program.size + pushed + 1)
  simp only
  omega

/-- A program is accepted if the check comes to its end with all blocks closed. -/
theorem check_of_reaches {w : Walk} (headers : HeadersPass program)
    (reached : Reaches program none program.size w) (closed : w.previews = []) :
    check program = .ok () := by
  obtain ⟨spent, seen, le, same⟩ := reached.walks headers []
  have bound := size_le_walkBound program
  have walked : walk program (walkBound program) 0 { shape := [] } [] = (.ok w, seen) := by
    rw [show walkBound program = walkBound program - spent + spent by omega, same]
    cases walkBound program - spent with
    | zero => rw [walk, if_neg (Nat.lt_irrefl _)]; rfl
    | succ fuel =>
      have behind : program.instructions[program.size]? = none := by simp [Program.size]
      rw [walk, behind]
      rfl
  rw [check, checkSeeing, Attempt.bind_apply, walked]
  change w.finish = .ok ()
  unfold Walk.finish
  rw [closed]

/-- The headers of a linked program lead behind the bodies of its procedures. -/
theorem headersPass_of_bodies {b : Block} (wellFormed : b.WellFormed)
    (bodies : ∀ p ∈ b.program.procedures, checkProcedure b.program p = .ok ()) :
    HeadersPass b.program := by
  have stands := Block.standsAt_program wellFormed.proper
  intro i instr sig n fetched header next
  have size : i < 0 + b.size := by
    rw [Nat.zero_add, ← b.size_program]
    exact (Array.getElem?_eq_some_iff.1 fetched).1
  obtain ⟨d, hd, start, next'⟩ :=
    Block.exists_declaration stands (Nat.zero_le i) size fetched header
  have there : n = d.start + d.body.size + 1 := Option.some.inj (next.symm.trans next')
  obtain ⟨base, start', opens⟩ := (Block.stands_of_mem_declarations stands hd).header
  obtain rfl : i = base := by omega
  obtain rfl := Option.some.inj (fetched.symm.trans opens)
  obtain rfl := Token.header.inj header
  have declared := Block.procedure_mem_program hd
  have found := Block.procedure?_of_mem wellFormed.distinct declared
  exact ⟨by omega, d.procedure, found, bodies d.procedure declared⟩

/-! ## The theorem -/

theorem knows_program {b : Block} (wellFormed : b.WellFormed) :
    Knows b.program ((b.declarations 0).map (·.signature)) where
  signature name p found := by
    have hp := List.mem_of_find?_eq_some found
    have named : p.name = name := by simpa using List.find?_some found
    rw [show b.program.procedures = _ from b.procedures_eq 0] at hp
    obtain ⟨d, hd, rfl⟩ := List.mem_map.1 hp
    exact ⟨List.mem_map_of_mem hd, named⟩
  procedure sig declared := by
    obtain ⟨d, hd, rfl⟩ := List.mem_map.1 declared
    have found := Block.procedure?_of_mem wellFormed.distinct (Block.procedure_mem_program hd)
    exact ⟨d.procedure, found, rfl⟩

theorem bounds_procedure (d : Block.Declaration) :
    Bounds (some d.procedure) (d.start + d.body.size) := by
  intro p same
  obtain rfl := Option.some.inj same
  exact Nat.le_refl _

theorem derivable_of_check {b : Block} (wellFormed : b.WellFormed) (returnless : b.Returnless)
    (checked : check b.program = .ok ()) : Derivable Kind.IsCondition b := by
  have accepted : Accepted b.program := ⟨⟨b, wellFormed, rfl⟩, checked⟩
  have knows := knows_program wellFormed
  have stands := Block.standsAt_program wellFormed.proper
  refine ⟨?_, fun d hd => ?_⟩
  · obtain ⟨t, typed, -⟩ := (accepted.smooth none).typed knows stands nofun returnless .start
    exact ⟨t, typed⟩
  · obtain ⟨-, part⟩ := Block.body_of_mem_declarations wellFormed.proper hd
    have standing := Block.stands_of_mem_declarations stands hd
    obtain ⟨t, typed, reached⟩ := (accepted.smooth (some d.procedure)).typed knows standing.body
      (bounds_procedure d) (returnless.of_subset part) (.enter (Block.procedure_mem_program hd))
    obtain rfl : t = d.signature.outputs.reverse := accepted.outputs reached rfl
    exact typed

theorem check_of_derivable {b : Block} (wellFormed : b.WellFormed)
    (derivable : Derivable Kind.IsCondition b) : check b.program = .ok () := by
  have knows := knows_program wellFormed
  have stands := Block.standsAt_program wellFormed.proper
  have headers : HeadersPass b.program := by
    refine headersPass_of_bodies wellFormed fun p hp => ?_
    rw [show b.program.procedures = _ from b.procedures_eq 0] at hp
    obtain ⟨d, hd, rfl⟩ := List.mem_map.1 hp
    obtain ⟨flat, -⟩ := Block.body_of_mem_declarations wellFormed.proper hd
    have standing := Block.stands_of_mem_declarations stands hd
    have entered := Reaches.enter (Block.procedure_mem_program hd)
    have reached := (derivable.bodies d hd).reaches knows standing.body (bounds_procedure d)
      (fun _ => flat) entered
    exact checkProcedure_of_reaches reached rfl fun _ => rfl
  obtain ⟨t, typed⟩ := derivable.outside
  have reached := @Typed.reaches b.program none _ _ _ _ typed knows 0 stands nofun
    (fun h => absurd rfl h) [] .start
  rw [Nat.zero_add, ← b.size_program] at reached
  exact check_of_reaches headers reached rfl

/-- **The check decides the type system**: a linked program without returns passes it exactly if
its block is derivable by the typing rules. -/
theorem check_iff_derivable {ts : List Token} {program : Program} {b : Block}
    (linked : Program.ofTokens ts = .ok program) (tree : Block.ofTokens ts = .ok b)
    (returnless : ∀ l, Token.word (.leave l) ∈ ts → l = .exit) :
    check program = .ok () ↔ Derivable Kind.IsCondition b := by
  obtain ⟨wellFormed, rfl⟩ := Block.ofTokens_eq_ok_iff.1 tree
  obtain rfl : b.program = program := by
    rw [Program.ofTokens, tree] at linked
    exact Except.ok.inj linked
  exact ⟨derivable_of_check wellFormed returnless, check_of_derivable wellFormed⟩

/-- A procedure with two arms, a loop, and a call: the check accepts them, so there is a
derivation. -/
theorem check_iff_derivable_arms :
    let ts : List Token := [.header ⟨"f", [.int], [.text]⟩, Mark.onTrue.token,
      .literal (.text "a"), Mark.otherwise.token, .literal (.text "b"), Mark.close.token,
      Mark.close.token, Mark.whileTrue.token, .literal (.int 0), Mark.test.token,
      .literal (.int 1), .name "f", .word .print, Mark.close.token]
    ∃ program b, Program.ofTokens ts = .ok program ∧ Block.ofTokens ts = .ok b ∧
      (∀ l, Token.word (.leave l) ∈ ts → l = .exit) ∧ check program = .ok () ∧
      Derivable Kind.IsCondition b := by
  intro ts
  have returnless : ∀ l, Token.word (.leave l) ∈ ts → l = .exit := by
    intro l hl
    simp [ts, Mark.token] at hl
  refine ⟨_, _, rfl, rfl, returnless, rfl, ?_⟩
  exact (check_iff_derivable rfl rfl returnless).1 rfl

/-- The condition in front of two arms must be one: if any kind were taken there, a path would be,
and the check rejects it. -/
theorem check_rejects_path_before_arms :
    let ts : List Token := [.literal (.path "p"), Mark.onTrue.token, Mark.otherwise.token,
      Mark.close.token]
    ∃ program b, Program.ofTokens ts = .ok program ∧ Block.ofTokens ts = .ok b ∧
      (∀ l, Token.word (.leave l) ∈ ts → l = .exit) ∧
      ¬(check program = .ok () ↔ Derivable (fun _ => True) b) := by
  intro ts
  refine ⟨_, .plain (.literal (.path "p")) (.choice .onTrue .nil .nil .nil), rfl, rfl, ?_, ?_⟩
  · intro l hl
    simp [ts, Mark.token] at hl
  · intro same
    have typed : Derivable (fun _ => True)
        (.plain (.literal (.path "p")) (.choice .onTrue .nil .nil .nil)) :=
      ⟨⟨[], .literal (.choice trivial (.nil []) (.nil []) (.nil []))⟩, by rintro d ⟨⟩⟩
    cases same.2 typed

end Typing

end Chore
