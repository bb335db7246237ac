import Chore.Machine.Script
import Chore.Machine.Trace
import Chore.Proofs.Block.Control
import Chore.Proofs.Block.Zones

/-!
# Control is bracketed by calls

In a run of a linked program, checked or not, the pending returns are the way control came: the
machine is in a procedure because of the latest call, that call stands in a procedure because of
the one before it, and the first call stands in none. `Brackets` says so of an index and the return
addresses; each instruction keeps it (`Brackets.step`), `exit` apart, behind which there is none. So
does a run (`Brackets.path`), and `control_bracketed_by_calls` draws the consequences.
-/

set_option autoImplicit false

namespace Chore.Block

open Machine

variable {ω τ : Type} {program : Program} {i j : Nat} {calls : List Nat}

/-- How control came to an index: it is in no procedure and there is no return address, or it is in
a procedure that the instruction in front of the latest return address calls, and came to that
instruction in the same way. -/
inductive Brackets (program : Program) : Nat → List Nat → Prop where
  | outside {i : Nat} (bound : i ≤ program.size) (out : ¬program.Inside i) : Brackets program i []
  | inside {i m : Nat} {p : Procedure} {calls : List Nat} (member : p ∈ program.procedures)
      (covers : p.Covers i) (call : program.instructions[m]? = some { token := .name p.name })
      (below : Brackets program m calls) : Brackets program i ((m + 1) :: calls)

theorem Brackets.inside_iff (h : Brackets program i calls) : calls ≠ [] ↔ program.Inside i := by
  cases h with
  | outside _ out => exact ⟨fun ne => absurd rfl ne, fun inside => absurd inside out⟩
  | @inside _ m p _ member covers => exact ⟨fun _ => ⟨p, member, covers⟩, fun _ => nofun⟩

/-- Moving within a zone needs no call. -/
theorem Brackets.move (h : Brackets program i calls) (zone : program.SameZone i j)
    (bound : j ≤ program.size) : Brackets program j calls := by
  cases h with
  | outside _ out => exact .outside bound fun inside => out (zone.inside_iff.2 inside)
  | inside member covers call below => exact .inside member ((zone _ member).1 covers) call below

/-- The state of a machine between two instructions, its pending returns seen as brackets: there
are some exactly if the machine is in a procedure, the bottom one leads out of all procedures, and
every other one back into one. The list of them has the latest first and the bottom one last. -/
structure Bracketed (program : Program) (s : State ω) : Prop where
  bound : s.ip ≤ program.size
  pending : s.store.calls.toList ≠ [] ↔ program.Inside s.ip
  bottom : ∀ n, s.store.calls.toList.getLast? = some n → ¬program.Inside n
  others : ∀ n ∈ s.store.calls.toList.dropLast, program.Inside n

/-- What an instruction of a linked program does to control. -/
inductive Goes (program : Program) (s : State ω) (instr : Instr) (t : State ω) : Prop where
  | stays (zone : program.SameZone s.ip t.ip) (bound : t.ip ≤ program.size)
      (same : t.store.calls = s.store.calls)
  | calls {p : Procedure} (member : p ∈ program.procedures) (token : instr.token = .name p.name)
      (ip : t.ip = p.start) (pushed : t.store.calls = s.store.calls.push (s.ip + 1))
  | returns (returns : Returns instr) (popped : s.store.calls.pop? = some (t.ip, t.store.calls))
  | exits (token : instr.token = .word (.leave .exit))

section Linked

variable {b : Block} {c : Setup ω} {s t : State ω} {instr : Instr}

/-- Behind a call the zone is the same. -/
theorem sameZone_call (proper : b.Proper) {m : Nat} {name : String}
    (call : b.program.instructions[m]? = some { token := .name name }) :
    b.program.SameZone m (m + 1) :=
  (zoned proper call).next nofun nofun

theorem Brackets.le_size (proper : b.Proper) (h : Brackets b.program i calls) :
    i ≤ b.program.size := by
  cases h with
  | outside bound _ => exact bound
  | inside member covers => exact Nat.le_of_lt ((covers_bounds proper member).2 i covers).2

/-- Return addresses lead into procedures, the bottom one apart. -/
theorem Brackets.addresses (proper : b.Proper) (h : Brackets b.program i calls) :
    (∀ n, calls.getLast? = some n → ¬b.program.Inside n) ∧
      ∀ n ∈ calls.dropLast, b.program.Inside n := by
  induction h with
  | outside => exact ⟨nofun, nofun⟩
  | @inside i m p calls member covers call below ih =>
    -- the address is in the zone of the call, which is in a procedure if it has calls below it
    have zone := (sameZone_call proper call).inside_iff
    have pending := below.inside_iff
    cases calls with
    | nil =>
      refine ⟨?_, nofun⟩
      rintro n ⟨⟩ inside
      exact pending.2 (zone.2 inside) rfl
    | cons n calls =>
      refine ⟨ih.1, ?_⟩
      rintro n' (_ | ⟨_, hn'⟩)
      · exact zone.1 (pending.1 nofun)
      · exact ih.2 n' hn'

theorem Brackets.bracketed (proper : b.Proper)
    (h : Brackets b.program s.ip s.store.calls.toList) : Bracketed b.program s :=
  ⟨h.le_size proper, h.inside_iff, (h.addresses proper).1, (h.addresses proper).2⟩

/-- **Where a step goes** in a linked program. -/
theorem goes_of_step (wellFormed : b.WellFormed) (served : c.program = b.program)
    (step : Step c s instr t) : Goes b.program s instr t := by
  have fetched := step.fetched
  rw [served] at fetched
  have zoned := zoned wellFormed.proper fetched
  have bound := lt_size_of_getElem?_eq_some fetched
  obtain ⟨e, store, sends, advanced⟩ := step.sends
  rw [served] at sends
  generalize left : store.calls = calls at sends
  cases sends with
  | next other stays =>
    obtain rfl := Except.ok.inj advanced
    exact .stays (zoned.next other stays) bound left
  | jump target =>
    obtain rfl := Except.ok.inj advanced
    obtain ⟨zone, within⟩ := zoned.jump _ target
    exact .stays zone within left
  | again role =>
    obtain rfl := Except.ok.inj advanced
    obtain ⟨zone, within⟩ := zoned.jump _ (zoned.again _ role)
    exact .stays zone within left
  | @call name p token found =>
    obtain ⟨member, rfl⟩ := (procedure?_eq_some_iff wellFormed).1 found
    simp only [State.advance] at advanced
    split at advanced
    · obtain rfl := Except.ok.inj advanced
      exact .calls member token rfl (by rw [left])
    · cases advanced
  | back returns popped =>
    obtain rfl := Except.ok.inj advanced
    obtain rfl := left
    exact .returns returns popped
  | exit token => exact .exits token

/-- **Every step keeps the brackets**, unless it leaves the program. -/
theorem Brackets.step (wellFormed : b.WellFormed) (served : c.program = b.program)
    (h : Brackets b.program s.ip s.store.calls.toList) (step : Step c s instr t)
    (stays : instr.token ≠ .word (.leave .exit)) :
    Brackets b.program t.ip t.store.calls.toList := by
  have proper := wellFormed.proper
  cases goes_of_step wellFormed served step with
  | stays zone bound same =>
    rw [same]
    exact h.move zone bound
  | @calls p member token ip pushed =>
    obtain ⟨entry, -⟩ := covers_bounds proper member
    rw [ip, pushed]
    refine .inside member entry ?_ h
    have fetched := step.fetched
    rw [served] at fetched
    have alone := (resolved_of_getElem? proper fetched).of_plain (by rw [token]; rfl)
    rw [fetched, alone, token]
  | returns _ popped =>
    rw [Stack.pop?_eq_some_iff.1 popped] at h
    generalize t.ip = back at h
    cases h with
    | inside _ _ call below =>
      exact below.move (sameZone_call proper call) (lt_size_of_getElem?_eq_some call)
  | exits token => exact absurd token stays

/-- A run starts outside of all procedures. -/
theorem brackets_start (proper : b.Proper) : Brackets b.program 0 [] := by
  refine .outside (Nat.zero_le _) ?_
  rintro ⟨p, member, covers⟩
  exact absurd ((covers_bounds proper member).2 0 covers).1 (Nat.lt_irrefl 0)

/-- **Every run keeps the brackets**, until its last step leaves the program. -/
theorem Brackets.path (wellFormed : b.WellFormed) (served : c.program = b.program)
    {is : List Instr} (path : Path c s is t) (h : Brackets b.program s.ip s.store.calls.toList) :
    Brackets b.program t.ip t.store.calls.toList ∨
      ∃ front u instr, is = front ++ [instr] ∧ instr.token = .word (.leave .exit) ∧
        Path c s front u ∧ Step c u instr t ∧ Brackets b.program u.ip u.store.calls.toList := by
  induction path with
  | nil => exact .inl h
  | @cons s u t instr is step others ih =>
    by_cases leaves : instr.token = .word (.leave .exit)
    · -- nothing is performed behind `exit`
      cases others with
      | nil => exact .inr ⟨[], s, instr, rfl, leaves, .nil s, step, h⟩
      | cons next _ => exact ((step.stuck_of_exit leaves).no_step next).elim
    · rcases ih (h.step wellFormed served step leaves) with kept | ⟨front, v, last, rfl, rest⟩
      · exact .inl kept
      · obtain ⟨token, before, after, kept⟩ := rest
        exact .inr ⟨instr :: front, v, last, rfl, token, .cons step before, after, kept⟩

/-- As long as there is an instruction to perform, control is bracketed. -/
theorem Brackets.path_within (wellFormed : b.WellFormed) (served : c.program = b.program)
    {is : List Instr} (path : Path c s is t) (h : Brackets b.program s.ip s.store.calls.toList)
    (within : t.ip < b.program.size) : Brackets b.program t.ip t.store.calls.toList := by
  rcases h.path wellFormed served path with kept | ⟨_, _, _, -, exit, -, step, -⟩
  · exact kept
  · rw [step.of_exit exit, served] at within
    exact absurd within (Nat.lt_irrefl _)

/-! ## Consequences -/

/-- A procedure is entered by calling it, or by going back into it. -/
theorem enters (wellFormed : b.WellFormed) (served : c.program = b.program)
    (step : Step c s instr t) {p : Procedure} (member : p ∈ b.program.procedures)
    (entered : p.Covers t.ip) (outside : ¬p.Covers s.ip) :
    (instr.token = .name p.name ∧ t.ip = p.start ∧
        t.store.calls = s.store.calls.push (s.ip + 1)) ∨
      (Returns instr ∧ s.store.calls.pop? = some (t.ip, t.store.calls)) := by
  have proper := wellFormed.proper
  cases goes_of_step wellFormed served step with
  | stays zone => exact absurd ((zone p member).2 entered) outside
  | @calls q member' token ip pushed =>
    obtain rfl : p = q := by
      rw [ip] at entered
      exact eq_of_covers proper member member' entered (covers_bounds proper member').1
    exact .inl ⟨token, ip, pushed⟩
  | returns returns popped => exact .inr ⟨returns, popped⟩
  | exits token =>
    rw [step.of_exit token, served] at entered
    exact absurd ((covers_bounds proper member).2 _ entered).2 (Nat.lt_irrefl _)

/-- In a procedure the latest call is one of it. -/
theorem Brackets.called (proper : b.Proper) (h : Brackets b.program s.ip s.store.calls.toList)
    {p : Procedure} (member : p ∈ b.program.procedures) (covers : p.Covers s.ip) :
    ∃ m calls, s.store.calls.pop? = some (m + 1, calls) ∧
      b.program.instructions[m]? = some { token := .name p.name } := by
  generalize left : s.store.calls.toList = addresses at h
  cases h with
  | outside _ out => exact absurd ⟨p, member, covers⟩ out
  | @inside _ m q calls member' covers' call _ =>
    obtain rfl := eq_of_covers proper member member' covers covers'
    exact ⟨m, .ofList calls, Stack.pop?_eq_some_iff.2 left, call⟩

/-- A return without a call stands outside of all procedures. -/
theorem Brackets.outside_of_follow (proper : b.Proper)
    (h : Brackets b.program s.ip s.store.calls.toList) (room : Fits c.limit s)
    (fetched : b.program.instructions[s.ip]? = some instr)
    (fails : s.follow c instr = .error .emptyCallStack) :
    ¬b.program.Inside s.ip ∧ ∃ l, l ≠ .exit ∧ instr.token = .word (.leave l) := by
  obtain ⟨returns, none⟩ := returns_of_follow room fails
  have out : ¬b.program.Inside s.ip :=
    fun inside => h.inside_iff.2 inside (Stack.pop?_eq_none_iff.1 none)
  refine ⟨out, ?_⟩
  cases returns with
  | leave other => exact ⟨_, other, rfl⟩
  | close => exact absurd ((zoned proper fetched).inside rfl) out

/-- A run that comes to the end of its program has returns pending exactly if it left the program
in a procedure. -/
theorem Brackets.pending_at_end (wellFormed : b.WellFormed) (served : c.program = b.program)
    {is : List Instr} (h : Brackets b.program s.ip s.store.calls.toList) (path : Path c s is t)
    (behind : c.program.size ≤ t.ip) :
    t.store.calls.toList ≠ [] ↔ ∃ front u instr v, Path c s front u ∧ Step c u instr v ∧
      instr.token = .word (.leave .exit) ∧ b.program.Inside u.ip := by
  constructor
  · intro pending
    rcases h.path wellFormed served path with kept | ⟨front, u, instr, -, exit, before, step, kept⟩
    · obtain ⟨p, member, covers⟩ := kept.inside_iff.1 pending
      have within := ((covers_bounds wellFormed.proper member).2 _ covers).2
      rw [served] at behind
      exact absurd within (Nat.not_lt.2 behind)
    · refine ⟨front, u, instr, t, before, step, exit, kept.inside_iff.1 ?_⟩
      rw [step.of_exit exit] at pending
      exact pending
  · rintro ⟨front, u, instr, v, before, step, exit, inside⟩
    have fetched := step.fetched
    rw [served] at fetched
    have kept := h.path_within wellFormed served before (lt_size_of_getElem?_eq_some fetched)
    obtain rfl : t = v := path.unique (before.append (.one step)) (stuck_of_size_le behind)
      (step.stuck_of_exit exit)
    rw [step.of_exit exit]
    exact kept.inside_iff.2 inside

end Linked

/-- **Control is bracketed by calls** in every run of a linked program, whatever its types.

Before an `exit` the machine is within the program, has returns pending exactly if it is in a
procedure, and of the return addresses the bottom one leads out of all procedures and every other
one into one. Control comes into a procedure by a call of it, or back into it by a return, and while
it is there the latest pending return is from a call of that procedure. So a run that succeeds has
returns pending exactly if it performed an `exit` in a procedure; and only a `ret`, `dret` or `iret`
outside of all procedures finds no call to go back behind, so that no run fails for want of one
elsewhere. -/
theorem control_bracketed_by_calls {ts : List Token} {program : Program}
    (linked : Program.ofTokens ts = .ok program) (host : Host ω) (limits : Limits)
    (watch : Watch τ) (world : ω) (seen : τ) :
    let c : Setup ω := { program, host, limit := limits.stack }
    let start : State ω := { store := { world } }
    let ending := runProgram program host limits watch world seen
    (∀ is s, Path c start is s → (∀ instr ∈ is, instr.token ≠ .word (.leave .exit)) →
      Bracketed program s) ∧
    (∀ s instr t, Step c s instr t → ∀ p ∈ program.procedures, p.Covers t.ip → ¬p.Covers s.ip →
      (instr.token = .name p.name ∧ t.ip = p.start ∧
        t.store.calls = s.store.calls.push (s.ip + 1)) ∨
      (Returns instr ∧ s.store.calls.pop? = some (t.ip, t.store.calls))) ∧
    (∀ is s, Path c start is s → ∀ p ∈ program.procedures, p.Covers s.ip →
      ∃ m calls, s.store.calls.pop? = some (m + 1, calls) ∧
        program.instructions[m]? = some { token := .name p.name }) ∧
    (ending.error? = none →
      (ending.state.store.calls.toList ≠ [] ↔ ∃ is s instr t, Path c start is s ∧
        Step c s instr t ∧ instr.token = .word (.leave .exit) ∧ program.Inside s.ip)) ∧
    (∀ is s instr, Path c start is s → program.instructions[s.ip]? = some instr →
      s.follow c instr = .error .emptyCallStack →
      ¬program.Inside s.ip ∧ ∃ l, l ≠ .exit ∧ instr.token = .word (.leave l)) ∧
    (∀ token index counter,
      ending.error? = some (.instructionFailed token index counter .emptyCallStack) →
      ¬program.Inside index ∧ ∃ l, l ≠ .exit ∧ token = .word (.leave l)) := by
  obtain ⟨b, wellFormed, rfl, rfl⟩ := ofTokens_ok linked
  have proper := wellFormed.proper
  intro c start ending
  have outside : Brackets b.program start.ip start.store.calls.toList := brackets_start proper
  have ends : Ends c start limits.steps ending.error? ending.state :=
    run_ends c watch limits.steps start seen
  have raised : ∀ is s instr, Path c start is s → b.program.instructions[s.ip]? = some instr →
      s.follow c instr = .error .emptyCallStack →
      ¬b.program.Inside s.ip ∧ ∃ l, l ≠ .exit ∧ instr.token = .word (.leave l) := by
    intro is s instr path fetched fails
    have kept := outside.path_within wellFormed rfl path (lt_size_of_getElem?_eq_some fetched)
    have room : Fits c.limit start := ⟨Nat.zero_le _, Nat.zero_le _⟩
    exact kept.outside_of_follow proper (room.path path) fetched fails
  refine ⟨?_, ?_, ?_, ?_, raised, ?_⟩
  · intro is s path stays
    rcases outside.path wellFormed rfl path with kept | ⟨front, u, instr, rfl, exit, -⟩
    · exact kept.bracketed proper
    · exact absurd exit (stays instr (List.mem_append_right _ List.mem_cons_self))
  · intro s instr t step p member
    exact enters wellFormed rfl step member
  · intro is s path p member covers
    have within := ((covers_bounds proper member).2 _ covers).2
    exact (outside.path_within wellFormed rfl path within).called proper member covers
  · intro succeeds
    rw [succeeds] at ends
    generalize ending.state = final at ends
    cases ends with
    | finished path _ behind => exact outside.pending_at_end wellFormed rfl path behind
  · intro token index counter fails
    rw [fails] at ends
    generalize ending.state = final at ends
    cases ends with
    | failed path _ fetched fails => exact raised _ _ _ path fetched fails

/-- A procedure that calls another one, and a `ret` behind the call of it: in the inner procedure two
returns are pending, one into the outer procedure and one out of both, and the `ret` itself finds no
call to go back behind. -/
theorem control_bracketed_by_calls_ret :
    let f : Signature := { name := "f", inputs := [], outputs := [] }
    let g : Signature := { name := "g", inputs := [], outputs := [] }
    let ts : List Token := [.header f, Mark.close.token, .header g, .name "f", Mark.close.token,
      .name "g", .word (.leave .ret)]
    let program := (Block.procedure f .nil (.procedure g (.plain (.name "f") .nil)
      (.plain (.name "g") (.plain (.word (.leave .ret)) .nil)))).program
    let host := (Script.tools "/").host
    let world : World Script := { tools := { answers := [] } }
    Program.ofTokens ts = .ok program ∧
      (∃ is s, Path { program, host, limit := 2 } { store := { world } } is s ∧
        s.store.calls.toList = [4, 6] ∧ program.Inside s.ip ∧ program.Inside 4 ∧
        ¬program.Inside 6) ∧
      (runProgram program host ⟨2, 9⟩ quiet world ()).error? =
        some (.instructionFailed (.word (.leave .ret)) 6 6 .emptyCallStack) := by
  intro f g ts program host world
  have linked : Program.ofTokens ts = .ok program := rfl
  obtain ⟨brackets, -, -, -, -, empty⟩ :=
    control_bracketed_by_calls linked host ⟨2, 9⟩ quiet world ()
  let c : Setup (World Script) := { program, host, limit := 2 }
  have first : Step c { store := { world } } { token := .header f, next := some 2 }
    ⟨2, 1, { world }⟩ := ⟨rfl, rfl⟩
  have second : Step c ⟨2, 1, { world }⟩ { token := .header g, next := some 5 }
    ⟨5, 2, { world }⟩ := ⟨rfl, rfl⟩
  have outer : Step c ⟨5, 2, { world }⟩ { token := .name "g" }
    ⟨3, 3, { calls := .ofList [6], world }⟩ := ⟨rfl, rfl⟩
  have inner : Step c ⟨3, 3, { calls := .ofList [6], world }⟩ { token := .name "f" }
    ⟨1, 4, { calls := .ofList [4, 6], world }⟩ := ⟨rfl, rfl⟩
  have run := Path.cons first (.cons second (.cons outer (.one inner)))
  have fails : (runProgram program host ⟨2, 9⟩ quiet world ()).error? =
    some (.instructionFailed (.word (.leave .ret)) 6 6 .emptyCallStack) := rfl
  have bracketed := brackets _ _ run (by simp)
  refine ⟨linked, ⟨_, _, run, rfl, bracketed.pending.1 ?_, ?_, (empty _ _ _ fails).1⟩, fails⟩
  · exact List.cons_ne_nil 4 [6]
  · exact bracketed.others 4 List.mem_cons_self

end Chore.Block
