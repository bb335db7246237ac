import Chore.Proofs.Block.Zones
import Chore.Proofs.Typing.Decides

/-!
# The tour of the check

Where the check goes. A tour is the check with every instruction looked up by its index, and with a
log: each step of the check is a `Visit`. An index without an instruction stops the tour, so a tour
that ends as the check does (`tells_tourProgram`) has not looked outside of the program. Whatever
comes of it, the visits for a procedure take place in its body, and the others outside of all
procedures (`places_tourProgram`).
-/

set_option autoImplicit false

namespace Chore

namespace Typing

/-- A step of the check: the procedure whose body is followed, if any, the index of the
instruction, and the walk that comes there. -/
structure Visit where
  procedure? : Option Procedure
  index : Nat
  walk : Walk

/-- Why a tour stops short: the check rejects the program, or there is no instruction at an index
it looks at. -/
inductive Halt where
  | rejected (e : TypeError)
  | outside (index : Nat)

/-- A part of a tour, with the visits so far, latest first. -/
abbrev Tour (α : Type) : Type :=
  Attempt (List Visit) Halt α

/-- Takes over a result of the check. -/
def Tour.ofCheck {α : Type} (r : Except TypeError α) : Tour α :=
  .ofExcept (r.mapError .rejected)

/-- One step of the check, on the instruction at an index. -/
def visit (program : Program) (o : Option Procedure) (i : Nat) (w : Walk) : Tour Walk := do
  .modify (⟨o, i, w⟩ :: ·)
  match program.instructions[i]? with
  | none => .fail (.outside i)
  | some instr => .ofCheck (w.step program o i instr)

/-- A step of the check, and on to the next index. -/
def moveOn (program : Program) (o : Option Procedure) (i : Nat) (w : Walk) : Tour (Nat × Walk) := do
  return (i + 1, ← visit program o i w)

/-- Moves as long as a limit is not reached. The first argument bounds the number of moves. -/
def tour (move : Nat → Walk → Tour (Nat × Walk)) (stop : Nat) : Nat → Nat → Walk → Tour Walk
  | 0, i, w => if i < stop then .fail (.rejected (.endless i)) else pure w
  | fuel + 1, i, w =>
    if i < stop then do
      let (i, w) ← move i w
      tour move stop fuel i w
    else pure w

/-- What is checked at the end of a procedure body. -/
def ending (p : Procedure) (w : Walk) : Except TypeError Unit := do
  if !w.returned then Walk.returns p p.stop w.shape
  w.finish

/-- The tour of a procedure body. -/
def tourProcedure (program : Program) (p : Procedure) : Tour Unit := do
  let w ← tour (moveOn program (some p)) p.stop (p.stop - p.start) p.start
    { shape := p.signature.inputs.reverse }
  .ofCheck (ending p w)

/-- A move outside of procedures: at a header the body is toured, and the next index is that of the
jump. -/
def moveOutside (program : Program) (i : Nat) (w : Walk) : Tour (Nat × Walk) :=
  match program.instructions[i]? with
  | some { token := .header sig, next, .. } =>
    match program.procedure? sig.name with
    | none => .ofCheck (.error (.unresolvedJump sig.name i))
    | some p => do
      tourProcedure program p
      match next with
      | none => .ofCheck (.error (.unresolvedJump sig.name i))
      | some target => return (target, w)
  | _ => moveOn program none i w

/-- The tour of a whole program. -/
def tourProgram (program : Program) : Tour Unit := do
  let w ← tour (moveOutside program) program.size (walkBound program) 0 { shape := [] }
  .ofCheck w.finish

/-! ## The tour ends as the check does -/

variable {program : Program} {o : Option Procedure} {p : Procedure} {i j n : Nat} {w : Walk}
  {instr : Instr} {seen : List Visit}

/-- A tour ends as a part of the check does. -/
def Tells {α : Type} (m : Tour α) (r : Except TypeError α) : Prop :=
  ∀ seen, (m seen).1 = r.mapError .rejected

theorem Tells.bind {α β : Type} {m : Tour α} {r : Except TypeError α} {f : α → Tour β}
    {g : α → Except TypeError β} (h : Tells m r) (next : ∀ a, Tells (f a) (g a)) :
    Tells (m >>= f) (r >>= g) := by
  intro seen
  have first := h seen
  rw [Attempt.bind_apply]
  rcases told : m seen with ⟨result, visits⟩
  rw [told] at first
  obtain rfl : result = r.mapError .rejected := first
  cases r with
  | error e => rfl
  | ok a => exact next a visits

theorem visit_apply (fetched : program.instructions[i]? = some instr) :
    visit program o i w seen =
      ((w.step program o i instr).mapError .rejected, ⟨o, i, w⟩ :: seen) := by
  unfold visit
  rw [Attempt.bind_apply, Attempt.modify_apply, fetched]
  rfl

theorem tells_visit (fetched : program.instructions[i]? = some instr) :
    Tells (visit program o i w) (w.step program o i instr) := by
  intro seen
  rw [visit_apply fetched]

theorem tour_behind {move : Nat → Walk → Tour (Nat × Walk)} {stop : Nat} (fuel : Nat)
    (h : ¬i < stop) : tour move stop fuel i w = pure w := by
  cases fuel with
  | zero => rw [tour, if_neg h]
  | succ fuel => rw [tour, if_neg h]

theorem tour_moveOn {move : Nat → Walk → Tour (Nat × Walk)} {stop : Nat} (fuel : Nat)
    (h : i < stop) (moves : move i w = moveOn program o i w) :
    tour move stop (fuel + 1) i w = visit program o i w >>= tour move stop fuel (i + 1) := by
  rw [tour, if_pos h, moves, moveOn, Attempt.bind_assoc]
  rfl

theorem tells_tour_inside (bound : p.stop ≤ program.size) (i : Nat) (w : Walk) :
    Tells (tour (moveOn program (some p)) p.stop (p.stop - i) i w)
      (w.steps program (some p) i (program.instructions.extract i p.stop).toList) := by
  generalize left : p.stop - i = n
  induction n generalizing i w with
  | zero =>
    rw [tour_behind _ (by omega), Array.extract_eq_empty_of_le (by omega)]
    exact fun _ => rfl
  | succ n ih =>
    have lt : i < p.stop := by omega
    have fetched := Array.getElem?_eq_getElem (Nat.lt_of_lt_of_le lt bound)
    rw [tour_moveOn n lt rfl, toList_extract_cons fetched lt]
    exact (tells_visit fetched).bind fun w' => ih (i + 1) w' (by omega)

theorem tells_tourProcedure (bound : p.stop ≤ program.size) :
    Tells (tourProcedure program p) (checkProcedure program p) :=
  (tells_tour_inside bound p.start _).bind fun _ _ => rfl

/-- No body of a procedure ends outside of the program. -/
def Bounded (program : Program) : Prop :=
  ∀ p ∈ program.procedures, p.stop ≤ program.size

theorem moveOutside_eq (fetched : program.instructions[i]? = some instr)
    (other : ∀ sig, instr.token ≠ .header sig) :
    moveOutside program i w = moveOn program none i w := by
  unfold moveOutside
  rw [fetched]
  obtain ⟨token, next, role⟩ := instr
  cases token with
  | header sig => exact absurd rfl (other sig)
  | _ => rfl

/-- A step of the check outside of procedures. -/
theorem walk_step (fetched : program.instructions[i]? = some instr)
    (other : ∀ sig, instr.token ≠ .header sig) (fuel : Nat) (ps : List Procedure) :
    (walk program (fuel + 1) i w ps).1 =
      w.step program none i instr >>= fun w => (walk program fuel (i + 1) w ps).1 := by
  rw [walk, fetched]
  obtain ⟨token, next, role⟩ := instr
  cases token with
  | header sig => exact absurd rfl (other sig)
  | _ =>
    simp only [Attempt.bind_apply, Attempt.ofExcept_apply]
    cases w.step program none i _ <;> rfl

/-- At a header the check and the tour go through the body. -/
theorem tells_header (bounded : Bounded program) {sig : Signature} {next : Option Nat} {role : Role}
    (fetched : program.instructions[i]? = some ⟨.header sig, next, role⟩) {fuel : Nat}
    (ih : ∀ i w ps, Tells (tour (moveOutside program) program.size fuel i w)
      (walk program fuel i w ps).1) (ps : List Procedure) :
    Tells (tour (moveOutside program) program.size (fuel + 1) i w)
      (walk program (fuel + 1) i w ps).1 := by
  have lt : i < program.size := (Array.getElem?_eq_some_iff.1 fetched).1
  intro seen
  rw [tour, if_pos lt, moveOutside, walk, fetched]
  cases found : program.procedure? sig.name with
  | none =>
    simp only [found]
    rfl
  | some p =>
    have body := tells_tourProcedure (bounded p (List.mem_of_find?_eq_some found)) seen
    simp only [found, Attempt.bind_apply, Attempt.modify_apply, Attempt.ofExcept_apply]
    rcases told : tourProcedure program p seen with ⟨result, visits⟩
    rw [told] at body
    obtain rfl : result = (checkProcedure program p).mapError .rejected := body
    cases checkProcedure program p with
    | error e => rfl
    | ok _ =>
      cases next with
      | none => rfl
      | some target => exact ih target w (p :: ps) visits

theorem tells_tour_outside (bounded : Bounded program) (fuel i : Nat) (w : Walk)
    (ps : List Procedure) :
    Tells (tour (moveOutside program) program.size fuel i w) (walk program fuel i w ps).1 := by
  induction fuel generalizing i w ps with
  | zero =>
    intro seen
    rw [tour, walk]
    split <;> rfl
  | succ fuel ih =>
    cases fetched : program.instructions[i]? with
    | none =>
      have behind : program.size ≤ i := by simpa [Program.size] using fetched
      rw [tour_behind _ (by omega), walk, fetched]
      exact fun _ => rfl
    | some instr =>
      have lt : i < program.size := (Array.getElem?_eq_some_iff.1 fetched).1
      by_cases header : ∃ sig, instr.token = .header sig
      · obtain ⟨token, next, role⟩ := instr
        obtain ⟨sig, rfl⟩ := header
        exact tells_header bounded fetched ih ps
      · have other : ∀ sig, instr.token ≠ .header sig := fun sig is => header ⟨sig, is⟩
        rw [tour_moveOn fuel lt (moveOutside_eq fetched other), walk_step fetched other]
        exact (tells_visit fetched).bind fun w' => ih (i + 1) w' ps

/-- **The tour of a program ends as its check does**, so it meets an instruction at every index it
looks at. -/
theorem tells_tourProgram (bounded : Bounded program) :
    Tells (tourProgram program) (check program) := by
  have walked := tells_tour_outside bounded (walkBound program) 0 { shape := [] } []
  have told := Tells.bind walked (f := fun w => Tour.ofCheck w.finish) fun w => fun _ => rfl
  have checked : check program = (walk program (walkBound program) 0 { shape := [] } []).1 >>=
      fun w => w.finish := by
    rw [check, checkSeeing, Attempt.bind_apply]
    rcases walk program (walkBound program) 0 { shape := [] } [] with ⟨_ | w, ps⟩ <;> rfl
  rw [checked]
  exact told

/-! ## Where visits take place -/

/-- A visit takes place in the body of the procedure it is for, or outside of all procedures. -/
def Visit.Placed (program : Program) (v : Visit) : Prop :=
  match v.procedure? with
  | none => ¬program.Inside v.index
  | some p => p ∈ program.procedures ∧ p.start ≤ v.index ∧ v.index < p.stop

/-- Every visit a tour adds takes place where it should. -/
def Places {α : Type} (program : Program) (m : Tour α) : Prop :=
  ∀ seen, (∀ v ∈ seen, Visit.Placed program v) → ∀ v ∈ (m seen).2, Visit.Placed program v

theorem Places.bind {α β : Type} {m : Tour α} {f : α → Tour β} (h : Places program m)
    (g : ∀ seen a seen', m seen = (.ok a, seen') → Places program (f a)) :
    Places program (m >>= f) := by
  intro seen placed
  have first := h seen placed
  rw [Attempt.bind_apply]
  rcases told : m seen with ⟨_ | a, visits⟩
  · rwa [told] at first
  · rw [told] at first
    exact g seen a visits told visits first

theorem places_ofCheck {α : Type} (r : Except TypeError α) :
    Places program (Tour.ofCheck r) :=
  fun _ placed => placed

theorem places_moveOn (here : Visit.Placed program ⟨o, i, w⟩) :
    Places program (moveOn program o i w) := by
  have visits : Places program (visit program o i w) := by
    intro seen placed
    have both := List.forall_mem_cons.2 ⟨here, placed⟩
    unfold visit
    rw [Attempt.bind_apply, Attempt.modify_apply]
    cases program.instructions[i]? with
    | none => exact both
    | some instr => exact both
  exact visits.bind fun _ _ _ _ => fun _ placed => placed

/-- Moves that keep to an area place their visits well, and so does a tour of such moves. -/
theorem places_tour {move : Nat → Walk → Tour (Nat × Walk)} {stop : Nat} (area : Nat → Prop)
    (moves : ∀ i w, i < stop → area i → Places program (move i w))
    (keeps : ∀ i w seen i' w' seen', i < stop → area i →
      move i w seen = (.ok (i', w'), seen') → area i')
    (fuel i : Nat) (w : Walk) (start : area i) : Places program (tour move stop fuel i w) := by
  induction fuel generalizing i w with
  | zero =>
    rw [tour]
    split
    · exact fun _ placed => placed
    · exact fun _ placed => placed
  | succ fuel ih =>
    rw [tour]
    split
    · refine (moves i w ‹_› start).bind fun seen next seen' moved => ?_
      exact ih next.1 next.2 (keeps i w seen next.1 next.2 seen' ‹_› start moved)
    · exact fun _ placed => placed

theorem of_moveOn {i' : Nat} {w' : Walk} {seen' : List Visit}
    (moved : moveOn program o i w seen = (.ok (i', w'), seen')) : i' = i + 1 := by
  unfold moveOn at moved
  rw [Attempt.bind_apply] at moved
  rcases told : visit program o i w seen with ⟨_ | w'', visits⟩
  · rw [told] at moved
    cases moved
  · rw [told] at moved
    cases moved
    rfl

theorem places_tourProcedure (declared : p ∈ program.procedures) :
    Places program (tourProcedure program p) := by
  have body : Places program (tour (moveOn program (some p)) p.stop (p.stop - p.start) p.start
      { shape := p.signature.inputs.reverse }) := by
    refine places_tour (fun i => p.start ≤ i) (fun i w below above => ?_)
      (fun i w seen i' w' seen' _ above moved => ?_) _ _ _ (Nat.le_refl p.start)
    · exact places_moveOn ⟨declared, above, below⟩
    · have next := of_moveOn moved
      omega
  exact body.bind fun _ _ _ _ => places_ofCheck _

/-- From a header the tour outside of procedures goes to the target of the jump. -/
theorem of_moveOutside {sig : Signature} {next : Option Nat} {role : Role}
    (fetched : program.instructions[i]? = some ⟨.header sig, next, role⟩) :
    Places program (moveOutside program i w) ∧ ∀ seen i' w' seen',
      moveOutside program i w seen = (.ok (i', w'), seen') → next = some i' := by
  unfold moveOutside
  simp only [fetched]
  cases found : program.procedure? sig.name with
  | none => exact ⟨places_ofCheck _, by rintro seen i' w' seen' ⟨⟩⟩
  | some p =>
    constructor
    · apply (places_tourProcedure (List.mem_of_find?_eq_some found)).bind
      intro _ _ _ _
      cases next with
      | none => exact places_ofCheck _
      | some target => exact fun _ placed => placed
    · intro seen i' w' seen' moved
      simp only [Attempt.bind_apply] at moved
      rcases told : tourProcedure program p seen with ⟨_ | _, visits⟩
      · rw [told] at moved
        cases moved
      · rw [told] at moved
        cases next with
        | none => cases moved
        | some target =>
          cases moved
          rfl

/-- **Visits take place** in the body they are for, or outside of all procedures. -/
theorem places_tourProgram {b : Block} (proper : b.Proper) :
    Places b.program (tourProgram b.program) := by
  have start : ¬b.program.Inside 0 := by
    rintro ⟨p, hp, covers⟩
    exact absurd ((Block.covers_bounds proper hp).2 0 covers).1 (Nat.lt_irrefl 0)
  have outside : Places b.program (tour (moveOutside b.program) b.program.size
      (walkBound b.program) 0 { shape := [] }) := by
    refine places_tour (fun i => ¬b.program.Inside i) (fun i w below out => ?_)
      (fun i w seen i' w' seen' below out moved => ?_) _ _ _ start
    all_goals
      have fetched := Array.getElem?_eq_getElem below
      generalize b.program.instructions[i] = instr at fetched
    · by_cases header : ∃ sig, instr.token = .header sig
      · obtain ⟨token, next, role⟩ := instr
        obtain ⟨sig, rfl⟩ := header
        exact (of_moveOutside fetched).1
      · rw [moveOutside_eq fetched fun sig is => header ⟨sig, is⟩]
        exact places_moveOn out
    · have zone := Block.zoned proper fetched
      by_cases header : ∃ sig, instr.token = .header sig
      · obtain ⟨token, next, role⟩ := instr
        obtain ⟨sig, rfl⟩ := header
        have jumps := (of_moveOutside fetched).2 _ _ _ _ moved
        exact fun inside => out ((zone.jump i' jumps).1.inside_iff.2 inside)
      · rw [moveOutside_eq fetched fun sig is => header ⟨sig, is⟩] at moved
        obtain rfl := of_moveOn moved
        have same := zone.next (fun sig is => header ⟨sig, is⟩) fun _ ends => out (zone.inside ends)
        exact fun inside => out (same.inside_iff.2 inside)
  exact outside.bind fun _ _ _ _ => places_ofCheck _

end Typing

end Chore
