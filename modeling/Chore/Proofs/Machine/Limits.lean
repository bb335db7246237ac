import Chore.Machine.Script
import Chore.Machine.Trace
import Chore.Proofs.Machine.Path
import Chore.Proofs.Machine.Truncation

/-!
# Runs under limits

A run under limits is the run without limits, cut short. `Attempts` is one instruction without a
limit: what it comes to under every limit from some one on. `Unlimited` puts such instructions in a
row. Under a limit that the state fits, an instruction does the same as without one if the state
behind it fits as well, and fails with a full stack if not (`exists_comes`); from this,
`truncated_run` says how a run under limits ends, seen from the run without.
-/

set_option autoImplicit false

namespace Chore.Machine

variable {ω τ : Type}

/-- An instruction attempted: the error it ends with, if it fails, and the state behind it. A
machine whose instruction fails stays where it is, with the store the instruction left. -/
def State.attempt (c : Setup ω) (s : State ω) (instr : Instr) : Option RunError × State ω :=
  match s.follow c instr with
  | .ok t => (none, t)
  | .error fault =>
    (some (.instructionFailed instr.token s.ip s.counter fault),
      { s with store := (turn c s instr).2 })

/-- An instruction attempted without a limit: what it comes to under every limit from some one
on. -/
def Attempts (program : Program) (host : Host ω) (s : State ω) (instr : Instr)
    (error? : Option RunError) (t : State ω) : Prop :=
  ∃ enough, ∀ limit, enough ≤ limit → s.attempt { program, host, limit } instr = (error?, t)

/-- The run of a program without limits: the instructions attempted so far, the error of the last
one if it failed, and the state behind it. -/
inductive Unlimited (program : Program) (host : Host ω) (world : ω) :
    List Instr → Option RunError → State ω → Prop where
  | start : Unlimited program host world [] none { store := { world } }
  | attempt {is : List Instr} {s t : State ω} {instr : Instr} {error? : Option RunError}
      (run : Unlimited program host world is none s)
      (fetched : program.instructions[s.ip]? = some instr)
      (attempted : Attempts program host s instr error? t) :
      Unlimited program host world (is ++ [instr]) error? t

/-- The stack and the pending returns fit a limit. -/
structure Fits (limit : Nat) (s : State ω) : Prop where
  stack : s.store.stack.size ≤ limit
  calls : s.store.calls.size ≤ limit

/-- The run without limits fits a limit after each of its first `n` instructions. -/
def FitsFor (program : Program) (host : Host ω) (world : ω) (limit n : Nat) : Prop :=
  ∀ is error? t, Unlimited program host world is error? t → is.length ≤ n → Fits limit t

/-- The run without limits has come to its end: the last instruction failed, or there is none
left. -/
def Final (program : Program) (error? : Option RunError) (s : State ω) : Prop :=
  error? ≠ none ∨ program.size ≤ s.ip

/-! ## One instruction -/

theorem Fits.mono {limit limit' : Nat} {s : State ω} (h : Fits limit s) (le : limit ≤ limit') :
    Fits limit' s :=
  ⟨Nat.le_trans h.stack le, Nat.le_trans h.calls le⟩

/-- Where an effect leads under all limits that the pending returns fit; under the others it is a
call that finds them full. -/
structure Advances (c : Setup ω) (s : State ω) (store : Store ω) (e : Effect) (t : State ω) :
    Prop where
  counter : t.counter = s.counter + 1
  stack : t.store.stack = store.stack
  memory : t.store.memory = store.memory
  world : t.store.world = store.world
  fits : ∀ limit, t.store.calls.size ≤ limit → s.advance (c.withLimit limit) store e = .ok t
  full : ∀ limit, store.calls.size ≤ limit → limit < t.store.calls.size →
    s.advance (c.withLimit limit) store e = .error .pushFailed

theorem exists_advances (c : Setup ω) (s : State ω) (store : Store ω) (e : Effect) :
    ∃ t, Advances c s store e t := by
  have free (ip : Nat) (h : ∀ limit, s.advance (c.withLimit limit) store e =
      .ok { ip, counter := s.counter + 1, store }) :
      Advances c s store e { ip, counter := s.counter + 1, store } :=
    ⟨rfl, rfl, rfl, rfl, fun limit _ => h limit, fun _ room full => absurd full (Nat.not_lt.2 room)⟩
  cases e with
  | next => exact ⟨_, free (s.ip + 1) fun _ => rfl⟩
  | jump n => exact ⟨_, free n fun _ => rfl⟩
  | exit => exact ⟨_, free c.program.size fun _ => rfl⟩
  | call n =>
    refine ⟨⟨n, s.counter + 1, { store with calls := store.calls.push (s.ip + 1) }⟩, rfl, rfl, rfl,
      rfl, fun limit room => if_pos room, fun limit _ full => if_neg ?_⟩
    exact Nat.not_lt.2 (Nat.le_of_lt_succ full)

/-- The outcome of an instruction: its account, its error and the state behind it are the same
under every limit that fits the states before and behind it, and under the others it finds the
stack or the pending returns full. -/
structure Comes (c : Setup ω) (s : State ω) (instr : Instr) (entry : Entry)
    (error? : Option RunError) (t : State ω) : Prop where
  counter : error? = none → t.counter = s.counter + 1
  fits : ∀ limit, Fits limit s → Fits limit t →
    (turn (c.withLimit limit) s instr).1 = entry ∧
      s.attempt (c.withLimit limit) instr = (error?, t)
  full : ∀ limit, Fits limit s → ¬Fits limit t → error? = none ∧ ∃ store : Store ω,
    s.attempt (c.withLimit limit) instr =
      (some (.instructionFailed instr.token s.ip s.counter .pushFailed), { s with store }) ∧
    store.memory = t.store.memory ∧ store.world = t.store.world

/-- **One instruction under a limit** has one outcome. -/
theorem exists_comes (c : Setup ω) (s : State ω) (instr : Instr) :
    ∃ entry error? t, Comes c s instr entry error? t := by
  have truncates : Truncates (fun _ => True) fun n => perform (c.withLimit n) instr :=
    truncates_perform c (fun _ _ => trivial) fun _ => trivial
  obtain ⟨⟨outcome, scene⟩, faults, calls, cut⟩ := truncates { s.store with }
  simp only at calls
  have turned {limit : Nat} (room : Fits limit s) (fits : scene.stack.size ≤ limit) :
      turn (c.withLimit limit) s instr =
        (⟨s.ip, instr.token, scene.events.reverse, outcome⟩, scene.toStore) := by
    have performed := (cut limit room.stack).fits fits
    simp only [turn, performed]
  refine ⟨⟨s.ip, instr.token, scene.events.reverse, outcome⟩, ?_⟩
  cases outcome with
  | error fault =>
    obtain ⟨-, smaller⟩ := faults fault rfl
    have fits {limit : Nat} (room : Fits limit s) :
        Fits limit { s with store := scene.toStore } :=
      ⟨Nat.le_trans smaller.stack room.stack, Nat.le_trans smaller.calls room.calls⟩
    refine ⟨some (.instructionFailed instr.token s.ip s.counter fault),
      { s with store := scene.toStore }, (by rintro ⟨⟩), fun limit room _ => ?_,
      fun limit room full => absurd (fits room) full⟩
    have same := turned room (fits room).stack
    refine ⟨congrArg Prod.fst same, ?_⟩
    simp only [State.attempt, State.follow, same]
  | ok e =>
    obtain ⟨t, advances⟩ := exists_advances c s scene.toStore e
    refine ⟨none, t, fun _ => advances.counter, fun limit room fits => ?_,
      fun limit room full => ⟨rfl, (turn (c.withLimit limit) s instr).2, ?_⟩⟩
    · have same := turned room (advances.stack ▸ fits.stack)
      refine ⟨congrArg Prod.fst same, ?_⟩
      simp only [State.attempt, State.follow, same, advances.fits limit fits.calls]
    · -- either the values do not fit, or the pending returns do not
      by_cases fits : scene.stack.size ≤ limit
      · have same := turned room fits
        have many : limit < t.store.calls.size :=
          Nat.lt_of_not_le fun few => full ⟨advances.stack ▸ fits, few⟩
        have refused := advances.full limit (Nat.le_trans calls room.calls) many
        refine ⟨?_, ?_⟩
        · simp only [State.attempt, State.follow, same, refused]
        · rw [same]
          exact ⟨advances.memory.symm, advances.world.symm⟩
      · obtain ⟨refused, -, memory, world⟩ := (cut limit room.stack).full (Nat.lt_of_not_le fits)
        have outcome : (turn (c.withLimit limit) s instr).1.outcome = .error .pushFailed := refused
        refine ⟨?_, memory.trans advances.memory.symm, world.trans advances.world.symm⟩
        simp only [State.attempt, State.follow, outcome]

/-- The limit that a state fits. -/
theorem exists_fits (s t : State ω) : ∃ limit, Fits limit s ∧ Fits limit t := by
  refine ⟨s.store.stack.size + s.store.calls.size + t.store.stack.size + t.store.calls.size,
    ⟨?_, ?_⟩, ⟨?_, ?_⟩⟩ <;> omega

theorem Comes.attempts {program : Program} {host : Host ω} {limit : Nat} {s t : State ω}
    {instr : Instr} {entry : Entry} {error? : Option RunError}
    (h : Comes ⟨program, host, limit⟩ s instr entry error? t) :
    Attempts program host s instr error? t := by
  obtain ⟨enough, before, behind⟩ := exists_fits s t
  exact ⟨enough, fun limit le => (h.fits limit (before.mono le) (behind.mono le)).2⟩

theorem Attempts.unique {program : Program} {host : Host ω} {s t t' : State ω} {instr : Instr}
    {error? error'? : Option RunError} (h : Attempts program host s instr error? t)
    (h' : Attempts program host s instr error'? t') : error? = error'? ∧ t = t' := by
  obtain ⟨enough, same⟩ := h
  obtain ⟨enough', same'⟩ := h'
  have both := (same _ (Nat.le_max_left enough enough')).symm.trans
    (same' _ (Nat.le_max_right enough enough'))
  exact Prod.mk.inj both

/-! ## The run without limits -/

section Unlimited

variable {program : Program} {host : Host ω} {world : ω}

theorem Unlimited.unique {is js : List Instr} {error? error'? : Option RunError} {s s' : State ω}
    (h : Unlimited program host world is error? s)
    (h' : Unlimited program host world js error'? s') (length : is.length = js.length) :
    is = js ∧ error? = error'? ∧ s = s' := by
  induction h generalizing js error'? s' with
  | start =>
    cases h' with
    | start => exact ⟨rfl, rfl, rfl⟩
    | attempt => simp at length
  | attempt _ fetched attempted ih =>
    cases h' with
    | start => simp at length
    | attempt run' fetched' attempted' =>
      obtain ⟨rfl, -, rfl⟩ := ih run' (by simpa using length)
      obtain rfl := Option.some.inj (fetched.symm.trans fetched')
      obtain ⟨rfl, rfl⟩ := attempted.unique attempted'
      exact ⟨rfl, rfl, rfl⟩

/-- Nothing follows the end of a run. -/
theorem Unlimited.length_le {is js : List Instr} {error? error'? : Option RunError}
    {s s' : State ω} (h : Unlimited program host world is error? s)
    (final : Final program error? s) (h' : Unlimited program host world js error'? s') :
    js.length ≤ is.length := by
  induction h' with
  | start => exact Nat.zero_le _
  | attempt run fetched _ ih =>
    rw [List.length_append, List.length_singleton]
    refine Nat.lt_of_le_of_ne ih fun same => ?_
    obtain ⟨-, rfl, rfl⟩ := h.unique run same.symm
    rcases final with failed | behind
    · exact failed rfl
    · exact Nat.not_lt.2 behind (lt_size_of_getElem?_eq_some fetched)

theorem Unlimited.counter {is : List Instr} {s : State ω}
    (h : Unlimited program host world is none s) : s.counter = is.length := by
  generalize ended : (none : Option RunError) = error? at h
  induction h with
  | start => rfl
  | @attempt is s t instr error? _ _ attempted ih =>
    obtain ⟨entry, error'?, t', comes⟩ := exists_comes ⟨program, host, 0⟩ s instr
    obtain ⟨rfl, rfl⟩ := attempted.unique comes.attempts
    rw [comes.counter ended.symm, ih rfl, List.length_append, List.length_singleton]

/-- One more instruction that fits. -/
theorem FitsFor.snoc {limit : Nat} {is : List Instr} {instr : Instr} {error? : Option RunError}
    {t : State ω} (h : FitsFor program host world limit is.length)
    (run : Unlimited program host world (is ++ [instr]) error? t) (fits : Fits limit t) :
    FitsFor program host world limit (is ++ [instr]).length := by
  intro js error'? u run' le
  by_cases same : js.length = (is ++ [instr]).length
  · obtain ⟨-, -, rfl⟩ := run'.unique run same
    exact fits
  · refine h js error'? u run' ?_
    simp only [List.length_append, List.length_singleton] at le same
    omega

end Unlimited

/-! ## The run under limits -/

/-- One instruction of a run that nobody interrupts. -/
theorem run_attempt {watch : Watch τ} (patient : Patient watch) {c : Setup ω} {s : State ω}
    {instr : Instr} (n : Nat) (seen : τ) (fetched : c.program.instructions[s.ip]? = some instr) :
    run c watch (n + 1) s seen =
      match s.attempt c instr with
      | (none, t) => run c watch n t (watch seen (turn c s instr).1).1
      | (some e, t) => ⟨some e, t, (watch seen (turn c s instr).1).1⟩ := by
  rw [run_succ watch n seen fetched, State.attempt]
  have goesOn := patient seen (turn c s instr).1
  rcases hw : watch seen (turn c s instr).1 with ⟨seen', _ | reason⟩
  · cases s.follow c instr <;> rfl
  · rw [hw] at goesOn
    cases goesOn

/-- How a run under limits ends, seen from the run without. -/
inductive Truncated (program : Program) (host : Host ω) (world : ω) (limits : Limits) :
    Option RunError → State ω → Prop where
  | ended {is : List Instr} {error? : Option RunError} {t : State ω}
      (run : Unlimited program host world is error? t) (final : Final program error? t)
      (short : is.length ≤ limits.steps)
      (fits : FitsFor program host world limits.stack is.length) :
      Truncated program host world limits error? t
  | full {is : List Instr} {s t : State ω} {instr : Instr} {store : Store ω}
      (run : Unlimited program host world is none s)
      (path : Path ⟨program, host, limits.stack⟩ { store := { world } } is s)
      (short : is.length < limits.steps)
      (fits : FitsFor program host world limits.stack is.length)
      (fetched : program.instructions[s.ip]? = some instr)
      (attempted : Attempts program host s instr none t) (exceeds : ¬Fits limits.stack t)
      (memory : store.memory = t.store.memory) (outside : store.world = t.store.world) :
      Truncated program host world limits
        (some (.instructionFailed instr.token s.ip is.length .pushFailed)) { s with store }
  | tooLong {is : List Instr} {t : State ω} (run : Unlimited program host world is none t)
      (path : Path ⟨program, host, limits.stack⟩ { store := { world } } is t)
      (length : is.length = limits.steps) (within : t.ip < program.size)
      (fits : FitsFor program host world limits.stack is.length) :
      Truncated program host world limits (some (.tooLong limits.steps)) t

section Runs

variable {program : Program} {host : Host ω} {world : ω} {watch : Watch τ}

/-- A step of the machine under a limit. -/
theorem step_of_attempt {c : Setup ω} {s t : State ω} {instr : Instr}
    (fetched : c.program.instructions[s.ip]? = some instr)
    (attempted : s.attempt c instr = (none, t)) : Step c s instr t := by
  refine ⟨fetched, ?_⟩
  unfold State.attempt at attempted
  cases followed : s.follow c instr with
  | error fault =>
    rw [followed] at attempted
    cases attempted
  | ok u =>
    rw [followed] at attempted
    exact congrArg Except.ok (Prod.mk.inj attempted).2

/-- A step of the machine keeps to its limit. -/
theorem Fits.step {c : Setup ω} {s t : State ω} {instr : Instr} (room : Fits c.limit s)
    (step : Step c s instr t) : Fits c.limit t := by
  obtain ⟨entry, error?, u, comes⟩ := exists_comes c s instr
  have attempted : s.attempt (c.withLimit c.limit) instr = (none, t) := by
    simp only [State.attempt, show s.follow (c.withLimit c.limit) instr = _ from step.followed]
  by_cases fits : Fits c.limit u
  · obtain ⟨-, rfl⟩ := Prod.mk.inj (attempted.symm.trans (comes.fits _ room fits).2)
    exact fits
  · obtain ⟨-, store, full, -⟩ := comes.full _ room fits
    cases attempted.symm.trans full

theorem Fits.path {c : Setup ω} {s t : State ω} {is : List Instr} (room : Fits c.limit s)
    (path : Path c s is t) : Fits c.limit t := by
  induction path with
  | nil => exact room
  | cons step _ ih => exact ih (room.step step)

/-- **A run under limits is cut short** where the run without limits exceeds them. -/
theorem truncated_run (patient : Patient watch) {limits : Limits} {n : Nat} {is : List Instr}
    {s : State ω} (seen : τ) (run : Unlimited program host world is none s)
    (path : Path ⟨program, host, limits.stack⟩ { store := { world } } is s)
    (fits : FitsFor program host world limits.stack is.length)
    (length : is.length + n = limits.steps) :
    Truncated program host world limits
      (Machine.run ⟨program, host, limits.stack⟩ watch n s seen).error?
      (Machine.run ⟨program, host, limits.stack⟩ watch n s seen).state := by
  induction n generalizing is s seen with
  | zero =>
    rw [Machine.run]
    by_cases within : s.ip < program.size
    · rw [if_pos within, run.counter, show is.length = limits.steps from length]
      exact .tooLong run path length within fits
    · rw [if_neg within]
      exact .ended run (.inr (Nat.le_of_not_lt within)) (Nat.le_of_eq length) fits
  | succ n ih =>
    have room : Fits limits.stack s := fits is none s run (Nat.le_refl _)
    cases fetched : program.instructions[s.ip]? with
    | none =>
      rw [Machine.run, fetched]
      exact .ended run (.inr (size_le_of_getElem?_eq_none fetched)) (by omega) fits
    | some instr =>
      rw [run_attempt patient n seen fetched]
      obtain ⟨entry, error?, t, comes⟩ := exists_comes ⟨program, host, limits.stack⟩ s instr
      have attempted := comes.attempts
      by_cases fits' : Fits limits.stack t
      · obtain ⟨-, same⟩ := comes.fits limits.stack room fits'
        rw [show s.attempt ⟨program, host, limits.stack⟩ instr = _ from same]
        have run' := run.attempt fetched attempted
        have all := fits.snoc run' fits'
        cases error? with
        | none =>
          have step : Step ⟨program, host, limits.stack⟩ s instr t := step_of_attempt fetched same
          refine ih _ run' (path.append (.one step)) all ?_
          rw [List.length_append, List.length_singleton]
          omega
        | some e =>
          refine .ended run' (.inl (Option.some_ne_none e)) ?_ all
          rw [List.length_append, List.length_singleton]
          omega
      · obtain ⟨rfl, store, failed, memory, outside⟩ := comes.full limits.stack room fits'
        rw [show s.attempt ⟨program, host, limits.stack⟩ instr = _ from failed]
        have cut := Truncated.full run path (by omega) fits fetched attempted fits' memory outside
        rw [← run.counter] at cut
        exact cut

/-- Behind the program nothing is left to do. -/
theorem run_behind {c : Setup ω} {n : Nat} {s : State ω} {seen : τ}
    (none : c.program.instructions[s.ip]? = none) :
    run c watch n s seen = ⟨.none, s, seen⟩ := by
  cases n with
  | zero => rw [run, if_neg (Nat.not_lt.2 (size_le_of_getElem?_eq_none none))]
  | succ n => rw [run, none]

/-- A run that is not cut short is the same under larger limits. -/
theorem run_raise (patient : Patient watch) {limit limit' n n' : Nat} {s : State ω} {seen : τ}
    (room : Fits limit s) (le : limit ≤ limit') (le' : n ≤ n')
    (notFull : ∀ token i k, (run ⟨program, host, limit⟩ watch n s seen).error? ≠
      some (.instructionFailed token i k .pushFailed))
    (notLong : ∀ k, (run ⟨program, host, limit⟩ watch n s seen).error? ≠ some (.tooLong k)) :
    run ⟨program, host, limit'⟩ watch n' s seen = run ⟨program, host, limit⟩ watch n s seen := by
  induction n generalizing s seen n' with
  | zero =>
    by_cases within : s.ip < program.size
    · rw [run, if_pos within] at notLong
      exact absurd rfl (notLong _)
    · have none : program.instructions[s.ip]? = none := by
        simpa [Program.size] using within
      rw [run_behind none, run_behind none]
  | succ n ih =>
    obtain ⟨m, rfl⟩ : ∃ m, n' = m + 1 := ⟨n' - 1, by omega⟩
    cases fetched : program.instructions[s.ip]? with
    | none => rw [run_behind fetched, run_behind fetched]
    | some instr =>
      obtain ⟨entry, error?, t, comes⟩ := exists_comes ⟨program, host, limit⟩ s instr
      rw [run_attempt patient n seen fetched] at notFull notLong ⊢
      rw [run_attempt patient m seen fetched]
      by_cases fits : Fits limit t
      · obtain ⟨account, same⟩ := comes.fits limit room fits
        obtain ⟨account', same'⟩ := comes.fits limit' (room.mono le) (fits.mono le)
        simp only [Setup.withLimit] at account same account' same'
        rw [account, same] at notFull notLong ⊢
        rw [account', same']
        cases error? with
        | none => exact ih fits (by omega) notFull notLong
        | some e => rfl
      · obtain ⟨-, store, failed, -⟩ := comes.full limit room fits
        simp only [Setup.withLimit] at failed
        rw [failed] at notFull
        exact absurd rfl (notFull _ _ _)

/-- A run that ends while it fits fits for as long as one looks. -/
theorem Unlimited.fitsFor {is : List Instr} {error? : Option RunError} {t : State ω} {limit : Nat}
    (h : Unlimited program host world is error? t) (final : Final program error? t)
    (fits : FitsFor program host world limit is.length) (n : Nat) :
    FitsFor program host world limit n :=
  fun js error'? u run _ => fits js error'? u run (h.length_le final run)

/-- A run that ends in time and fits is not cut short. -/
theorem Truncated.eq_of_final {limits : Limits} {is : List Instr} {error? error'? : Option RunError}
    {t t' : State ω} (h : Truncated program host world limits error'? t')
    (run : Unlimited program host world is error? t) (final : Final program error? t)
    (short : is.length ≤ limits.steps)
    (fits : FitsFor program host world limits.stack limits.steps) : error'? = error? ∧ t' = t := by
  cases h with
  | ended run' final' =>
    have same := Nat.le_antisymm (run.length_le final run') (run'.length_le final' run)
    obtain ⟨-, rfl, rfl⟩ := run'.unique run same
    exact ⟨rfl, rfl⟩
  | full run' _ short' _ fetched attempted exceeds =>
    refine absurd (fits _ _ _ (run'.attempt fetched attempted) ?_) exceeds
    rw [List.length_append, List.length_singleton]
    exact short'
  | tooLong run' _ length within =>
    have same := Nat.le_antisymm (run.length_le final run') (by omega)
    obtain ⟨-, rfl, rfl⟩ := run'.unique run same
    rcases final with failed | behind
    · exact absurd rfl failed
    · omega

/-- **Limits are exact truncations.** Seen from the run of a program without limits, the run under
limits on the stacks and on the number of instructions ends in one of three ways. If the run
without limits ends in time and its stacks fit all along, both end alike. If a stack does not fit
after one of the first instructions, the run under limits performs the same instructions up to the
first such one and fails there with a full stack, the variables and the outside world being as
that instruction leaves them. Else it performs as many of the same instructions as it may, and
then ran for too long. So a run that ended in neither of the latter ways ends the same under all
larger limits. -/
theorem limits_truncate_exactly (program : Program) (host : Host ω) (limits : Limits)
    {watch : Watch τ} (patient : Patient watch) (world : ω) (seen : τ) :
    let start : State ω := { store := { world } }
    let limited : Setup ω := { program, host, limit := limits.stack }
    let ending := runProgram program host limits watch world seen
    (∀ is error? t, Unlimited program host world is error? t → Final program error? t →
      is.length ≤ limits.steps → FitsFor program host world limits.stack limits.steps →
      ending.error? = error? ∧ ending.state = t) ∧
    (¬FitsFor program host world limits.stack limits.steps →
      ∃ is s instr t store, Unlimited program host world is none s ∧ is.length < limits.steps ∧
        FitsFor program host world limits.stack is.length ∧
        program.instructions[s.ip]? = some instr ∧ Attempts program host s instr none t ∧
        ¬Fits limits.stack t ∧ Path limited start is s ∧
        ending.error? = some (.instructionFailed instr.token s.ip is.length .pushFailed) ∧
        ending.state = { s with store } ∧ store.memory = t.store.memory ∧
        store.world = t.store.world) ∧
    (FitsFor program host world limits.stack limits.steps →
      (∀ is error? t, Unlimited program host world is error? t → Final program error? t →
        limits.steps < is.length) →
      ending.error? = some (.tooLong limits.steps) ∧ ∃ is, is.length = limits.steps ∧
        Unlimited program host world is none ending.state ∧ Path limited start is ending.state) ∧
    ∀ larger : Limits, limits.stack ≤ larger.stack → limits.steps ≤ larger.steps →
      (∀ token i k, ending.error? ≠ some (.instructionFailed token i k .pushFailed)) →
      (∀ k, ending.error? ≠ some (.tooLong k)) →
      runProgram program host larger watch world seen = ending := by
  intro start limited ending
  have fitsAtStart : Fits limits.stack start := ⟨Nat.zero_le _, Nat.zero_le _⟩
  have first : FitsFor program host world limits.stack 0 := by
    intro is error? t run short
    obtain ⟨-, -, rfl⟩ := run.unique .start (Nat.le_zero.1 short)
    exact fitsAtStart
  have cut : Truncated program host world limits ending.error? ending.state :=
    truncated_run patient seen .start (.nil start) first (Nat.zero_add _)
  refine ⟨fun is error? t run final short fits => cut.eq_of_final run final short fits, ?_, ?_,
    fun larger le le' notFull notLong => run_raise patient fitsAtStart le le' notFull notLong⟩
  all_goals
    clear_value ending
    obtain ⟨error?, state, seen'⟩ := ending
  · intro exceeds
    cases cut with
    | ended run final _ fits => exact absurd (run.fitsFor final fits _) exceeds
    | full run path short fits fetched attempted full memory outside =>
      exact ⟨_, _, _, _, _, run, short, fits, fetched, attempted, full, path, rfl, rfl, memory,
        outside⟩
    | tooLong _ _ length _ fits => exact absurd (length ▸ fits) exceeds
  · intro fits longer
    cases cut with
    | ended run final short => exact absurd short (Nat.not_le.2 (longer _ _ _ run final))
    | full run _ short _ fetched attempted full =>
      refine absurd (fits _ _ _ (run.attempt fetched attempted) ?_) full
      rw [List.length_append, List.length_singleton]
      exact short
    | tooLong run path length => exact ⟨rfl, _, length, run, path⟩

end Runs

/-- Two values on a stack for one: the run fails at the second. Where both have room, more room and
more time change nothing. -/
theorem limits_truncate_exactly_dup :
    let program : Program :=
      { instructions := #[{ token := .literal (.int 1) }, { token := .word (.shuffle .dup) }]
        procedures := [] }
    let host := (Script.tools "/").host
    let world : World Script := { tools := { answers := [] } }
    ¬FitsFor program host world 1 5 ∧
      (∃ token index count, (runProgram program host ⟨1, 5⟩ quiet world ()).error? =
        some (.instructionFailed token index count .pushFailed)) ∧
      runProgram program host ⟨7, 9⟩ quiet world () =
        runProgram program host ⟨2, 2⟩ quiet world () := by
  intro program host world
  have patient : Patient quiet := fun _ _ => rfl
  have exceeds : ¬FitsFor program host world 1 5 := by
    intro fits
    let one : Stack Value := Stack.empty.push (.int 1)
    have first : Attempts program host { store := { world } } { token := .literal (.int 1) } none
        { ip := 1, counter := 1, store := { stack := one, world } } := by
      refine ⟨2, fun limit le => ?_⟩
      obtain ⟨k, rfl⟩ := Nat.exists_eq_add_of_le' le
      rfl
    have second : Attempts program host { ip := 1, counter := 1, store := { stack := one, world } }
        { token := .word (.shuffle .dup) } none
        { ip := 2, counter := 2, store := { stack := one.push (.int 1), world } } := by
      refine ⟨2, fun limit le => ?_⟩
      obtain ⟨k, rfl⟩ := Nat.exists_eq_add_of_le' le
      rfl
    have run := (Unlimited.start.attempt rfl first).attempt rfl second
    exact absurd (fits _ _ _ run (by decide)).stack (by decide)
  refine ⟨exceeds, ?_, ?_⟩
  · obtain ⟨-, full, -⟩ := limits_truncate_exactly program host ⟨1, 5⟩ patient world ()
    obtain ⟨is, s, instr, t, store, -, -, -, -, -, -, -, error, -⟩ := full exceeds
    exact ⟨instr.token, s.ip, is.length, error⟩
  · obtain ⟨-, -, -, raise⟩ := limits_truncate_exactly program host ⟨2, 2⟩ patient world ()
    exact raise ⟨7, 9⟩ (by decide) (by decide) nofun nofun

end Chore.Machine
