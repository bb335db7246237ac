import Chore.Proofs.Typing.Rejections
import Chore.Proofs.Typing.Tour

/-!
# Crossing a block

What a tour of the check does on a block: it crosses the instructions from the first index to the
one behind them (`balanced`). Every instruction is visited once and in order, headers and ends of
procedures apart, and the saved shapes behind the block are those in front, unless the program is
ill-typed. So the check of a linked program finds no disorder among its blocks, and what it accepts
it has seen as a whole.
-/

set_option autoImplicit false

namespace Chore

/-- The header of a procedure, or the `end` behind its body. -/
def Instr.framesProcedure (instr : Instr) : Bool :=
  instr.token.signature?.isSome || instr.role = .close .procedure

/-- There is an instruction at an index that does not frame a procedure. -/
def Program.worksAt (program : Program) (i : Nat) : Bool :=
  program.instructions[i]?.any fun instr => !instr.framesProcedure

namespace Typing

variable {program : Program} {o : Option Procedure} {p : Procedure} {i n : Nat} {w : Walk}
  {instr : Instr} {seen : List Visit}

/-- The saved shapes name the instructions that saved them. -/
def Recalls (program : Program) (previews : List Preview) : Prop :=
  ∀ p ∈ previews, ∃ instr, program.instructions[p.causeIndex]? = some instr ∧ instr.token = p.cause

/-- A visit looks at instructions of the program: at the one it steps on, and at those that saved
the shapes of the open blocks. -/
structure Visit.Sound (program : Program) (v : Visit) : Prop where
  here : ∃ instr, program.instructions[v.index]? = some instr
  causes : Recalls program v.walk.previews

/-- The indices of `n` instructions from `i` on, without those that frame procedures. -/
def worked (program : Program) (i n : Nat) : List Nat :=
  (List.range' i n).filter program.worksAt

/-- The moves of the tour of a procedure, or of what is outside of all. -/
def moveIn (program : Program) : Option Procedure → Nat → Walk → Tour (Nat × Walk)
  | none => moveOutside program
  | some p => moveOn program (some p)

/-- The tour of a procedure, or of what is outside of all, from an index on. -/
def tourIn (program : Program) (o : Option Procedure) : Nat → Nat → Walk → Tour Walk :=
  tour (moveIn program o) (limitOf program o)

/-- What comes of a tour that has `n` instructions in front of it: the program is ill-typed, or the
tour comes to the index behind them, with known saved shapes, and has visited them all. -/
inductive Crossing (program : Program) (o : Option Procedure) (i n : Nat) (w : Walk)
    (previews : List Preview) (fuel : Nat) (seen : List Visit) : Prop where
  | rejected {e : TypeError} (visits : List Visit) (sound : ∀ v ∈ visits, v.Sound program)
      (orderly : ¬e.IsStructural)
      (fails : tourIn program o (fuel + n) i w seen = (.error (.rejected e), visits ++ seen)) :
      Crossing program o i n w previews fuel seen
  | crossed {w' : Walk} {fuel' : Nat} (visits : List Visit) (sound : ∀ v ∈ visits, v.Sound program)
      (enough : fuel ≤ fuel') (saved : w'.previews = previews)
      (all : visits.reverse.map Visit.index = worked program i n)
      (goes : tourIn program o (fuel + n) i w seen =
        tourIn program o fuel' (i + n) w' (visits ++ seen)) :
      Crossing program o i n w previews fuel seen

/-- The tour crosses `n` instructions. -/
def Crosses (program : Program) (o : Option Procedure) (i n : Nat) (w : Walk)
    (previews : List Preview) : Prop :=
  ∀ fuel seen, Crossing program o i n w previews fuel seen

theorem worked_append (program : Program) (i m n : Nat) :
    worked program i (m + n) = worked program i m ++ worked program (i + m) n := by
  unfold worked
  rw [← List.filter_append, ← List.range'_append, Nat.one_mul]

theorem worked_one (fetched : program.instructions[i]? = some instr) :
    worked program i 1 = if instr.framesProcedure then [] else [i] := by
  cases frames : instr.framesProcedure <;> simp [worked, Program.worksAt, fetched, frames]

theorem ne_header_of_works (works : instr.framesProcedure = false) (sig : Signature) :
    instr.token ≠ .header sig := by
  intro header
  simp [Instr.framesProcedure, header, Token.signature?] at works

variable {previews previews' : List Preview}

theorem Recalls.save (h : Recalls program previews)
    (fetched : program.instructions[i]? = some instr) (shape : Shape) (returned : Bool) :
    Recalls program (⟨shape, instr.token, i, returned⟩ :: previews) := by
  intro p hp
  rcases List.mem_cons.1 hp with rfl | hp
  · exact ⟨instr, fetched, rfl⟩
  · exact h p hp

theorem Crosses.nil (program : Program) (o : Option Procedure) (i : Nat) (w : Walk) :
    Crosses program o i 0 w w.previews :=
  fun fuel _ => .crossed [] (by simp) (Nat.le_refl fuel) rfl rfl rfl

/-- Crossings in a row. -/
theorem Crosses.trans {m : Nat} (h : Crosses program o i m w previews)
    (g : ∀ w', w'.previews = previews → Crosses program o (i + m) n w' previews') :
    Crosses program o i (m + n) w previews' := by
  intro fuel seen
  have total : fuel + (m + n) = fuel + n + m := by omega
  cases h (fuel + n) seen with
  | rejected visits sound orderly fails =>
    rw [← total] at fails
    exact .rejected visits sound orderly fails
  | @crossed w' fuel' visits sound enough saved all goes =>
    obtain ⟨spare, rfl⟩ := Nat.exists_eq_add_of_le enough
    rw [← total, show fuel + n + spare = fuel + spare + n by omega] at goes
    cases g w' saved (fuel + spare) (visits ++ seen) with
    | rejected visits' sound' orderly fails =>
      refine .rejected (visits' ++ visits) (List.forall_mem_append.2 ⟨sound', sound⟩) orderly ?_
      rw [goes, fails, List.append_assoc]
    | crossed visits' sound' enough' saved' all' goes' =>
      refine .crossed (visits' ++ visits) (List.forall_mem_append.2 ⟨sound', sound⟩)
        (Nat.le_trans (Nat.le_add_right fuel spare) enough') saved' ?_ ?_
      · rw [List.reverse_append, List.map_append, all, all', worked_append]
      · rw [goes, goes', List.append_assoc, Nat.add_assoc]

theorem moveIn_eq (fetched : program.instructions[i]? = some instr)
    (works : instr.framesProcedure = false) : moveIn program o i w = moveOn program o i w := by
  cases o with
  | none => exact moveOutside_eq fetched (ne_header_of_works works)
  | some p => rfl

/-- A visit crosses one instruction. -/
theorem Crosses.step (within : i < limitOf program o)
    (fetched : program.instructions[i]? = some instr) (works : instr.framesProcedure = false)
    (recalls : Recalls program w.previews) (orderly : Orderly (w.step program o i instr))
    (saved : ∀ w', w.step program o i instr = .ok w' → w'.previews = previews) :
    Crosses program o i 1 w previews := by
  intro fuel seen
  have sound : ∀ v ∈ [(⟨o, i, w⟩ : Visit)], v.Sound program := by
    intro v hv
    obtain rfl := List.mem_singleton.1 hv
    exact ⟨⟨instr, fetched⟩, recalls⟩
  have goes : tourIn program o (fuel + 1) i w =
      visit program o i w >>= tourIn program o fuel (i + 1) :=
    tour_moveOn fuel within (moveIn_eq fetched works)
  have goes := congrFun goes seen
  rw [Attempt.bind_apply, visit_apply fetched] at goes
  cases stepped : w.step program o i instr with
  | error e =>
    rw [stepped] at goes
    exact .rejected _ sound (orderly e stepped) goes
  | ok w' =>
    rw [stepped] at goes
    refine .crossed _ sound (Nat.le_refl fuel) (saved w' stepped) ?_ goes
    rw [worked_one fetched, works]
    rfl

/-- An `end` crosses to what was saved around its block. -/
theorem Crosses.close {next : Option Nat} {role : Role} {q : Preview} (within : i < limitOf program o)
    (fetched : program.instructions[i]? = some { token := Mark.close.token, next, role })
    (works : role ≠ .close .procedure) (recalls : Recalls program w.previews)
    (opened : w.previews = q :: previews) (joins : Walk.joins q.cause = true) :
    Crosses program o i 1 w previews := by
  refine .step within fetched ?_ recalls (Walk.orderly_close opened joins) ?_
  · simpa [Instr.framesProcedure, Token.signature?, Mark.token] using works
  · intro w' stepped
    obtain ⟨-, rfl⟩ := Walk.step_close opened stepped
    exact Walk.previews_joined _ _

/-- What comes of a tour of `n` instructions that ends behind them: the program is ill-typed, or
all of them have been visited. -/
inductive Tours (program : Program) (m : Tour Unit) (i n : Nat) (seen : List Visit) : Prop where
  | rejected {e : TypeError} (visits : List Visit) (sound : ∀ v ∈ visits, v.Sound program)
      (orderly : ¬e.IsStructural) (fails : m seen = (.error (.rejected e), visits ++ seen)) :
      Tours program m i n seen
  | accepted (visits : List Visit) (sound : ∀ v ∈ visits, v.Sound program)
      (all : visits.reverse.map Visit.index = worked program i n)
      (passes : m seen = (.ok (), visits ++ seen)) : Tours program m i n seen

theorem Tours.sound {m : Tour Unit} (h : Tours program m i n []) :
    ∀ v ∈ (m []).2, v.Sound program := by
  cases h with
  | rejected visits sound _ fails =>
    rw [fails, List.append_nil]
    exact sound
  | accepted visits sound _ passes =>
    rw [passes, List.append_nil]
    exact sound

theorem Tours.orderly {m : Tour Unit} {e : TypeError} (h : Tours program m i n seen)
    (rejected : (m seen).1 = .error (.rejected e)) : ¬e.IsStructural := by
  cases h with
  | rejected _ _ orderly fails =>
    rw [fails] at rejected
    cases rejected
    exact orderly
  | accepted _ _ _ passes =>
    rw [passes] at rejected
    cases rejected

theorem Tours.all {m : Tour Unit} (h : Tours program m i n []) (accepted : (m []).1 = .ok ()) :
    (m []).2.reverse.map Visit.index = worked program i n := by
  cases h with
  | rejected _ _ _ fails =>
    rw [fails] at accepted
    cases accepted
  | accepted visits _ all passes =>
    rw [passes, List.append_nil]
    exact all

/-- A crossing to the end of a tour, and what is checked there. -/
theorem Crosses.tours {f : Walk → Except TypeError Unit} (h : Crosses program o i n w previews)
    (ends : limitOf program o = i + n) (orderly : ∀ w', w'.previews = previews → Orderly (f w'))
    (fuel : Nat) (seen : List Visit) :
    Tours program (tourIn program o (fuel + n) i w >>= fun w => .ofCheck (f w)) i n seen := by
  cases h fuel seen with
  | rejected visits sound orderly fails =>
    exact .rejected visits sound orderly (Attempt.bind_apply_error fails _)
  | @crossed w' fuel' visits sound _ saved all goes =>
    have behind : tourIn program o fuel' (i + n) w' = pure w' := tour_behind fuel' (by omega)
    rw [behind] at goes
    have checks := Attempt.bind_apply_ok goes fun w => Tour.ofCheck (f w)
    cases checked : f w' with
    | error e =>
      rw [checked] at checks
      exact .rejected visits sound (orderly w' saved e checked) checks
    | ok _ =>
      rw [checked] at checks
      exact .accepted visits sound all checks

theorem orderly_finish (closed : w.previews = []) : Orderly w.finish := by
  unfold Walk.finish
  rw [closed]
  exact .ok ()

/-- At the end of a body only the declared outputs can be missing. -/
theorem orderly_ending (closed : w.previews = []) : Orderly (ending p w) := by
  unfold ending
  cases w.returned with
  | true => exact orderly_finish closed
  | false => exact (Walk.orderly_returns p w.shape).bind fun _ => orderly_finish closed

theorem Crosses.tourProcedure (stop : p.stop = p.start + n)
    (body : Crosses program (some p) p.start n { shape := p.signature.inputs.reverse } [])
    (seen : List Visit) : Tours program (tourProcedure program p) p.start n seen := by
  have tours := body.tours stop (fun _ => orderly_ending (p := p)) 0 seen
  rwa [show 0 + n = p.stop - p.start by omega] at tours

/-- Where the tour outside of procedures goes from a header. -/
theorem tourIn_header {sig : Signature} {target : Nat} {role : Role}
    (opens : program.instructions[i]? = some ⟨.header sig, some target, role⟩)
    (found : program.procedure? sig.name = some p) (fuel : Nat) :
    tourIn program none (fuel + 1) i w =
      tourProcedure program p >>= fun _ => tourIn program none fuel target w := by
  have within : i < program.size := (Array.getElem?_eq_some_iff.1 opens).1
  have moves : moveOutside program i w =
      tourProcedure program p >>= fun _ => pure (target, w) := by
    unfold moveOutside
    rw [opens]
    simp only [found]
  rw [tourIn, tour, limitOf, if_pos within, moveIn, moves, Attempt.bind_assoc]
  rfl

/-- A header is crossed together with the body behind it, which is toured on its own. -/
theorem Crosses.procedure {sig : Signature}
    (opens : program.instructions[i]? = some { token := .header sig, next := some (i + n + 2) })
    (closes : program.instructions[i + n + 1]? =
      some { token := Mark.close.token, role := .close .procedure })
    (found : program.procedure? sig.name = some ⟨i + 1, i + 1 + n, sig⟩)
    (body : Crosses program (some ⟨i + 1, i + 1 + n, sig⟩) (i + 1) n
      { shape := sig.inputs.reverse } []) :
    Crosses program none i (n + 2) w w.previews := by
  intro fuel seen
  have goes := congrFun (tourIn_header (w := w) opens found (fuel + (n + 1))) seen
  rw [show fuel + (n + 1) + 1 = fuel + (n + 2) by omega] at goes
  cases body.tourProcedure rfl seen with
  | rejected visits sound orderly fails =>
    rw [Attempt.bind_apply_error fails] at goes
    exact .rejected visits sound orderly goes
  | accepted visits sound all passes =>
    rw [Attempt.bind_apply_ok passes] at goes
    refine .crossed visits sound (Nat.le_add_right fuel (n + 1)) rfl ?_ goes
    have framed : worked program (i + 1 + n) 1 = [] := by
      rw [show i + 1 + n = i + n + 1 by omega, worked_one closes]
      rfl
    rw [show n + 2 = 1 + (n + 1) by omega, worked_append, worked_append, worked_one opens, framed,
      all, List.append_nil]
    rfl

theorem works_mark {m : Mark} {next : Option Nat} {role : Role} (other : role ≠ .close .procedure) :
    ({ token := m.token, next, role } : Instr).framesProcedure = false := by
  simpa [Instr.framesProcedure, Token.signature?, Mark.token] using other

theorem works_plain {token : Token} (plain : token.isPlain = true) :
    ({ token } : Instr).framesProcedure = false := by
  cases token with
  | header sig => cases plain
  | _ => rfl

/-- A part is crossed up to the `end` behind it. -/
theorem Crosses.closed {next : Option Nat} {role : Role} {q : Preview} {outer : List Preview}
    (part : Crosses program o i n w (q :: outer)) (within : i + n < limitOf program o)
    (closes : program.instructions[i + n]? = some { token := Mark.close.token, next, role })
    (works : role ≠ .close .procedure) (recalls : Recalls program (q :: outer))
    (joins : Walk.joins q.cause = true) : Crosses program o i (n + 1) w outer :=
  part.trans fun w' saved => .close within closes works (by rwa [saved]) saved joins

/-- The word that opens a branch saves the shape behind the condition. -/
theorem Crosses.branch {k : BranchKind} {target : Nat} (within : i < limitOf program o)
    (opens : program.instructions[i]? = some { token := k.mark.token, next := some target })
    (recalls : Recalls program w.previews) :
    Crosses program o i 1 w (⟨w.shape.tail, k.mark.token, i, w.returned⟩ :: w.previews) := by
  refine .step within opens (works_mark nofun) recalls (Walk.orderly_branch k target) ?_
  intro w' stepped
  obtain ⟨kind, shape, -, same, rfl⟩ := Walk.step_branch stepped
  rw [same]
  rfl

/-- An `else` saves the shape that the first arm left. -/
theorem Crosses.otherwise {k : BranchKind} {target opener : Nat} {shape : Shape} {returned : Bool}
    (within : i < limitOf program o)
    (divides : program.instructions[i]? =
      some { token := Mark.otherwise.token, next := some target })
    (recalls : Recalls program w.previews)
    (opened : w.previews = ⟨shape, k.mark.token, opener, returned⟩ :: previews) :
    Crosses program o i 1 w (⟨w.shape, Mark.otherwise.token, i, w.returned⟩ :: previews) := by
  refine .step within divides (works_mark nofun) recalls (Walk.orderly_otherwise opened rfl) ?_
  intro w' stepped
  obtain rfl := Walk.step_otherwise opened stepped
  rfl

/-- The word that opens a loop saves the shape in front of it. -/
theorem Crosses.loop {k : LoopKind} {target : Nat} (within : i < limitOf program o)
    (opens : program.instructions[i]? = some { token := k.mark.token, next := some target })
    (recalls : Recalls program w.previews) :
    Crosses program o i 1 w (⟨w.shape, k.mark.token, i, w.returned⟩ :: w.previews) := by
  refine .step within opens (works_mark nofun) recalls (Walk.orderly_loop k target) ?_
  intro w' stepped
  obtain rfl := Walk.step_loop stepped
  rfl

/-- A `do` saves the shape its loop is entered with. -/
theorem Crosses.test {k : LoopKind} {target opener header : Nat} {shape : Shape} {returned : Bool}
    (within : i < limitOf program o)
    (tests : program.instructions[i]? =
      some { token := Mark.test.token, next := some target, role := .test k header })
    (recalls : Recalls program w.previews)
    (opened : w.previews = ⟨shape, k.mark.token, opener, returned⟩ :: previews) :
    Crosses program o i 1 w (⟨shape, Mark.test.token, i, returned⟩ :: previews) := by
  refine .step within tests (works_mark nofun) recalls (Walk.orderly_test opened rfl) ?_
  intro w' stepped
  obtain ⟨-, rfl⟩ := Walk.step_test opened stepped
  rfl

/-- The tour crosses `n` instructions, and the shapes that were saved in front of them are the
saved ones behind. -/
def Balanced (program : Program) (o : Option Procedure) (i n : Nat) : Prop :=
  ∀ w : Walk, Recalls program w.previews → Crosses program o i n w w.previews

namespace Balanced

variable {m : Nat} {next : Option Nat} {role : Role}

theorem around (part : Balanced program o i n) (recalls : Recalls program previews) :
    ∀ w, w.previews = previews → Crosses program o i n w previews := by
  rintro w rfl
  exact part w recalls

theorem append {j size : Nat} (part : Balanced program o i m) (behind : Balanced program o j n)
    (adjacent : j = i + m) (total : size = m + n) : Balanced program o i size := by
  subst adjacent total
  exact fun w recalls => (part w recalls).trans (behind.around recalls)

theorem plain {t : Token} (within : i < limitOf program o) (plain : t.isPlain = true)
    (fetched : program.instructions[i]? = some { token := t }) : Balanced program o i 1 :=
  fun _ recalls => .step within fetched (works_plain plain) recalls (Walk.orderly_plain plain)
    fun _ => Walk.previews_step plain

theorem branch {k : BranchKind} {target : Nat} (within : i + n + 1 < limitOf program o)
    (opens : program.instructions[i]? = some { token := k.mark.token, next := some target })
    (body : Balanced program o (i + 1) n)
    (closes : program.instructions[i + n + 1]? = some { token := Mark.close.token, next, role })
    (works : role ≠ .close .procedure) : Balanced program o i (n + 2) := by
  intro w recalls
  have opened := recalls.save opens w.shape.tail w.returned
  have last : i + n + 1 = i + (1 + n) := by omega
  rw [last] at closes within
  rw [show n + 2 = 1 + n + 1 by omega]
  refine Crosses.closed ?_ within closes works opened (by cases k <;> rfl)
  exact (Crosses.branch (by omega) opens recalls).trans (body.around opened)

theorem choice {k : BranchKind} {target target' : Nat} (within : i + m + n + 2 < limitOf program o)
    (opens : program.instructions[i]? = some { token := k.mark.token, next := some target })
    (body : Balanced program o (i + 1) m)
    (divides : program.instructions[i + m + 1]? =
      some { token := Mark.otherwise.token, next := some target' })
    (alternative : Balanced program o (i + m + 2) n)
    (closes : program.instructions[i + m + n + 2]? = some { token := Mark.close.token, next, role })
    (works : role ≠ .close .procedure) : Balanced program o i (m + n + 3) := by
  intro w recalls
  have opened := recalls.save opens w.shape.tail w.returned
  have middle : i + m + 1 = i + (1 + m) := by omega
  have second : i + m + 2 = i + (1 + m) + 1 := by omega
  have last : i + m + n + 2 = i + (1 + m) + (1 + n) := by omega
  rw [middle] at divides
  rw [second] at alternative
  rw [last] at closes within
  rw [show m + n + 3 = 1 + m + (1 + n + 1) by omega]
  refine ((Crosses.branch (by omega) opens recalls).trans (body.around opened)).trans
    fun w' saved => ?_
  have divided := recalls.save divides w'.shape w'.returned
  refine Crosses.closed ?_ within closes works divided rfl
  have turns := Crosses.otherwise (o := o) (by omega) divides (by rwa [saved]) saved
  exact turns.trans (alternative.around divided)

theorem loop {k : LoopKind} {target target' opener : Nat}
    (within : i + m + n + 2 < limitOf program o)
    (opens : program.instructions[i]? = some { token := k.mark.token, next := some target })
    (header : Balanced program o (i + 1) m)
    (tests : program.instructions[i + m + 1]? =
      some { token := Mark.test.token, next := some target', role := .test k opener })
    (body : Balanced program o (i + m + 2) n)
    (closes : program.instructions[i + m + n + 2]? = some { token := Mark.close.token, next, role })
    (works : role ≠ .close .procedure) : Balanced program o i (m + n + 3) := by
  intro w recalls
  have opened := recalls.save opens w.shape w.returned
  have middle : i + m + 1 = i + (1 + m) := by omega
  have second : i + m + 2 = i + (1 + m) + 1 := by omega
  have last : i + m + n + 2 = i + (1 + m) + (1 + n) := by omega
  rw [middle] at tests
  rw [second] at body
  rw [last] at closes within
  rw [show m + n + 3 = 1 + m + (1 + n + 1) by omega]
  refine ((Crosses.loop (by omega) opens recalls).trans (header.around opened)).trans
    fun w' saved => ?_
  have tested := recalls.save tests w.shape w.returned
  refine Crosses.closed ?_ within closes works tested rfl
  have turns := Crosses.test (o := o) (by omega) tests (by rwa [saved]) saved
  exact turns.trans (body.around tested)

end Balanced

/-- **Blocks are crossed.** The saved shapes behind a block are those in front of it. -/
theorem balanced {b : Block} (proper : b.Proper) {base : Nat} (stands : b.StandsAt program base)
    (within : base + b.size ≤ limitOf program o) (flat : o ≠ none → b.names = [])
    (known : ∀ d ∈ b.declarations base, program.procedure? d.signature.name = some d.procedure) :
    Balanced program o base b.size := by
  induction b generalizing o base with
  | nil => exact fun w _ => .nil program o base w
  | plain t rest ih =>
    obtain ⟨plain, fetched, rest_stands⟩ := stands
    simp only [Block.size] at within ⊢
    have behind := ih proper.2 rest_stands (by omega) flat known
    exact (Balanced.plain (by omega) plain fetched).append behind rfl (by omega)
  | branch k body rest ihb ihr =>
    obtain ⟨opens, body_stands, closes, rest_stands⟩ := stands
    have parts (h : o ≠ none) : body.names = [] ∧ rest.names = [] := by
      simpa [Block.names] using flat h
    simp only [Block.size] at within ⊢
    simp only [Block.declarations, List.forall_mem_append] at known
    have inside := ihb proper.1 body_stands (by omega) (fun h => (parts h).1) known.1
    have behind := ihr proper.2 rest_stands (by omega) (fun h => (parts h).2) known.2
    have whole := Balanced.branch (by omega) opens inside closes (by decide)
    exact whole.append behind rfl (by omega)
  | choice k body alternative rest ihb iha ihr =>
    obtain ⟨opens, body_stands, divides, alternative_stands, closes, rest_stands⟩ := stands
    have parts (h : o ≠ none) : body.names = [] ∧ alternative.names = [] ∧ rest.names = [] := by
      simpa [Block.names] using flat h
    simp only [Block.size] at within ⊢
    simp only [Block.declarations, List.forall_mem_append] at known
    have first := ihb proper.1 body_stands (by omega) (fun h => (parts h).1) known.1
    have second := iha proper.2.1 alternative_stands (by omega) (fun h => (parts h).2.1) known.2.1
    have behind := ihr proper.2.2 rest_stands (by omega) (fun h => (parts h).2.2) known.2.2
    have whole := Balanced.choice (by omega) opens first divides second closes (by decide)
    exact whole.append behind (by omega) (by omega)
  | loop k header body rest ihh ihb ihr =>
    obtain ⟨opens, header_stands, tests, body_stands, closes, rest_stands⟩ := stands
    have parts (h : o ≠ none) : header.names = [] ∧ body.names = [] ∧ rest.names = [] := by
      simpa [Block.names] using flat h
    simp only [Block.size] at within ⊢
    simp only [Block.declarations, List.forall_mem_append] at known
    have first := ihh proper.1 header_stands (by omega) (fun h => (parts h).1) known.1
    have second := ihb proper.2.1 body_stands (by omega) (fun h => (parts h).2.1) known.2.1
    have behind := ihr proper.2.2 rest_stands (by omega) (fun h => (parts h).2.2) known.2.2
    have whole := Balanced.loop (by omega) opens first tests second closes (by simp)
    exact whole.append behind (by omega) (by omega)
  | procedure sig body rest ihb ihr =>
    obtain ⟨opens, body_stands, closes, rest_stands⟩ := stands
    cases o with
    | some p => cases flat (Option.some_ne_none p)
    | none =>
      simp only [Block.size] at within ⊢
      obtain ⟨found, known⟩ := List.forall_mem_cons.1 known
      obtain ⟨-, known⟩ := List.forall_mem_append.1 known
      have inner := ihb (o := some ⟨base + 1, base + 1 + body.size, sig⟩) proper.1 body_stands
        (Nat.le_refl _) (fun _ => proper.2.1)
        (by rw [Block.declarations_eq_nil proper.2.1]; exact List.forall_mem_nil _)
      have behind := ihr proper.2.2 rest_stands (by omega) (absurd rfl) known
      have whole : Balanced program none base (body.size + 2) := fun w _ =>
        .procedure opens closes found (inner { shape := sig.inputs.reverse } (List.forall_mem_nil _))
      exact whole.append behind rfl (by omega)

theorem bounded_program {b : Block} (proper : b.Proper) : Bounded b.program := by
  intro p hp
  obtain ⟨covers, bounds⟩ := Block.covers_bounds proper hp
  exact Nat.le_of_lt (bounds p.stop ⟨covers.2, Nat.le_refl _⟩).2

/-- **The check finds its way through every linked program.** It ends as the tour of the program
does, which looks at no index outside of it, also where it goes back to the instructions that saved
its shapes. It never rejects a program for the structure of its blocks, and it comes to an end. When
it accepts, it has visited every instruction once, in order, headers and ends of procedures apart;
each visit is one of the body that the instruction is in, or one of what is outside of all. -/
theorem check_tours_linked {ts : List Token} {program : Program}
    (linked : Program.ofTokens ts = .ok program) :
    ∃ visits : List Visit, tourProgram program [] = ((check program).mapError .rejected, visits.reverse) ∧
      (∀ e, check program = .error e → ¬e.IsStructural) ∧
      (∀ v ∈ visits, v.Sound program ∧ v.Placed program) ∧
      (check program = .ok () →
        visits.map Visit.index = (List.range program.size).filter program.worksAt) := by
  obtain ⟨b, wellFormed, -, rfl⟩ := Block.ofTokens_ok linked
  have proper := wellFormed.proper
  have told := tells_tourProgram (bounded_program proper) []
  have placed := places_tourProgram proper [] (List.forall_mem_nil _)
  have known (d) (hd : d ∈ b.declarations 0) :
      b.program.procedure? d.signature.name = some d.procedure :=
    Block.procedure?_of_mem wellFormed.distinct (Block.procedure_mem_program hd)
  have crossing := balanced (o := none) proper (Block.standsAt_program proper) (by simp [limitOf])
    (absurd rfl) known { shape := [] } (List.forall_mem_nil _)
  obtain ⟨fuel, bound⟩ := Nat.exists_eq_add_of_le' (size_le_walkBound b.program)
  rw [Block.size_program] at bound
  have tours := crossing.tours (by simp [limitOf]) (fun _ => orderly_finish) fuel []
  rw [← bound] at tours
  have tours : Tours b.program (tourProgram b.program) 0 b.size [] := tours
  refine ⟨(tourProgram b.program []).2.reverse, ?_, fun e rejected => ?_, fun v hv => ?_,
    fun accepted => ?_⟩
  · rw [List.reverse_reverse]
    exact Prod.ext told rfl
  · apply tours.orderly
    rw [told, rejected]
    rfl
  · have hv := List.mem_reverse.1 hv
    exact ⟨tours.sound v hv, placed v hv⟩
  · rw [accepted] at told
    rw [tours.all told, worked, Block.size_program, List.range_eq_range']

/-- A procedure with a branch in it, declared in the header of a loop: its body is visited between
the two words of the loop around it. -/
theorem check_tours_linked_nested :
    let ts : List Token := [Mark.whileTrue.token, .header ⟨"f", [], [.int]⟩, .literal (.int 1),
      Mark.onTrue.token, Mark.close.token, .literal (.int 0), Mark.close.token, .name "f",
      Mark.test.token, Mark.close.token]
    ∃ program, Program.ofTokens ts = .ok program ∧ check program = .ok () ∧
      ∃ visits : List Visit, tourProgram program [] = (.ok (), visits.reverse) ∧
        visits.map Visit.index = [0, 2, 3, 4, 5, 7, 8, 9] := by
  intro ts
  refine ⟨_, rfl, rfl, ?_⟩
  obtain ⟨visits, toured, -, -, all⟩ := @check_tours_linked ts _ rfl
  exact ⟨visits, toured, all rfl⟩

end Typing

end Chore
