import Chore.Machine.Run

/-!
# Runs as paths

A run is a path of single steps. `State.follow` is where one instruction leads, `Step` is a step
with the instruction it performs, and `Path` is any number of them in a row. `run_ends` says how a
run of the machine is made up: a path, and then the reason why it goes no further. Two paths from
one state never part (`Path.split`), so a run that is not cut short ends where any path to a state
without a next step does (`Ends.at_stuck`).
-/

set_option autoImplicit false

namespace Chore.Machine

variable {ω τ : Type}

/-- Where an instruction leads: the state behind it, or the fault it ends with. -/
def State.follow (c : Setup ω) (s : State ω) (instr : Instr) : Except Fault (State ω) :=
  match (turn c s instr).1.outcome with
  | .error fault => .error fault
  | .ok effect => s.advance c (turn c s instr).2 effect

/-- One instruction is performed and the machine goes on. -/
structure Step (c : Setup ω) (s : State ω) (instr : Instr) (t : State ω) : Prop where
  fetched : c.program.instructions[s.ip]? = some instr
  followed : s.follow c instr = .ok t

/-- Instructions performed one after the other. -/
inductive Path (c : Setup ω) : State ω → List Instr → State ω → Prop where
  | nil (s : State ω) : Path c s [] s
  | cons {s t u : State ω} {instr : Instr} {instrs : List Instr} :
      Step c s instr t → Path c t instrs u → Path c s (instr :: instrs) u

/-- A state in which the machine goes no further: behind the program, or at a fault. -/
def Stuck (c : Setup ω) (s : State ω) : Prop :=
  ∀ instr, c.program.instructions[s.ip]? = some instr → ∃ fault, s.follow c instr = .error fault

theorem Step.unique {c : Setup ω} {s t u : State ω} {i j : Instr} (h : Step c s i t)
    (g : Step c s j u) : i = j ∧ t = u := by
  obtain rfl : i = j := Option.some.inj (h.fetched.symm.trans g.fetched)
  exact ⟨rfl, Except.ok.inj (h.followed.symm.trans g.followed)⟩

theorem Stuck.no_step {c : Setup ω} {s t : State ω} {i : Instr} (h : Stuck c s)
    (g : Step c s i t) : False := by
  obtain ⟨fault, hf⟩ := h i g.fetched
  rw [g.followed] at hf
  cases hf

theorem Path.append {c : Setup ω} {s t u : State ω} {is js : List Instr} (h : Path c s is t)
    (g : Path c t js u) : Path c s (is ++ js) u := by
  induction h with
  | nil => exact g
  | cons step _ ih => exact .cons step (ih g)

theorem Path.one {c : Setup ω} {s t : State ω} {i : Instr} (h : Step c s i t) : Path c s [i] t :=
  .cons h (.nil t)

/-- A path to where the machine is stuck goes through the end of every other path. -/
theorem Path.split {c : Setup ω} {s t u : State ω} {is js : List Instr} (h : Path c s is t)
    (g : Path c s js u) (stuck : Stuck c u) : ∃ rest, js = is ++ rest ∧ Path c t rest u := by
  induction h generalizing js with
  | nil => exact ⟨js, rfl, g⟩
  | cons step _ ih =>
    cases g with
    | nil => exact (stuck.no_step step).elim
    | cons first others =>
      obtain ⟨rfl, rfl⟩ := step.unique first
      obtain ⟨rest, rfl, path⟩ := ih others
      exact ⟨rest, rfl, path⟩

/-- How a run from a state ends that may perform so many instructions: a path, and why it goes no
further. -/
inductive Ends (c : Setup ω) (s : State ω) (n : Nat) : Option RunError → State ω → Prop where
  | finished {t : State ω} {is : List Instr} (path : Path c s is t) (short : is.length ≤ n)
      (behind : c.program.size ≤ t.ip) : Ends c s n none t
  | failed {t : State ω} {is : List Instr} {instr : Instr} {fault : Fault} (path : Path c s is t)
      (short : is.length < n) (fetched : c.program.instructions[t.ip]? = some instr)
      (fails : t.follow c instr = .error fault) :
      Ends c s n (some (.instructionFailed instr.token t.ip t.counter fault))
        { t with store := (turn c t instr).2 }
  | tooLong {t : State ω} {is : List Instr} (path : Path c s is t) (full : is.length = n)
      (within : t.ip < c.program.size) : Ends c s n (some (.tooLong t.counter)) t
  | interrupted {t : State ω} {is : List Instr} {instr : Instr} {reason : String}
      (path : Path c s is t) (fetched : c.program.instructions[t.ip]? = some instr) :
      Ends c s n (some (.interrupted reason)) { t with store := (turn c t instr).2 }

/-- A step in front of a run. -/
theorem Ends.cons {c : Setup ω} {s t u : State ω} {instr : Instr} {n : Nat}
    {error? : Option RunError} (step : Step c s instr t) (h : Ends c t n error? u) :
    Ends c s (n + 1) error? u := by
  cases h with
  | finished path short behind =>
    exact .finished (.cons step path) (by simpa using short) behind
  | failed path short fetched fails =>
    exact .failed (.cons step path) (by simpa using short) fetched fails
  | tooLong path full within => exact .tooLong (.cons step path) (by simpa using full) within
  | interrupted path fetched => exact .interrupted (.cons step path) fetched

theorem size_le_of_getElem?_eq_none {p : Program} {i : Nat} (h : p.instructions[i]? = none) :
    p.size ≤ i := by
  simpa [Program.size] using h

theorem lt_size_of_getElem?_eq_some {p : Program} {i : Nat} {instr : Instr}
    (h : p.instructions[i]? = some instr) : i < p.size := by
  obtain ⟨bound, -⟩ := Array.getElem?_eq_some_iff.1 h
  exact bound

/-- One instruction of a run. -/
theorem run_succ {c : Setup ω} {s : State ω} {instr : Instr} (watch : Watch τ) (n : Nat) (seen : τ)
    (fetched : c.program.instructions[s.ip]? = some instr) :
    run c watch (n + 1) s seen =
      match watch seen (turn c s instr).1 with
      | (seen, some reason) =>
        ⟨some (.interrupted reason), { s with store := (turn c s instr).2 }, seen⟩
      | (seen, none) =>
        match s.follow c instr with
        | .error fault =>
          ⟨some (.instructionFailed instr.token s.ip s.counter fault),
            { s with store := (turn c s instr).2 }, seen⟩
        | .ok t => run c watch n t seen := by
  rw [run, fetched]
  simp only [State.follow]
  rcases watch seen (turn c s instr).1 with ⟨seen, _ | reason⟩
  · cases (turn c s instr).1.outcome with
    | error fault => rfl
    | ok effect => cases s.advance c (turn c s instr).2 effect <;> rfl
  · rfl

/-- **A run is a path** and the reason why it goes no further. -/
theorem run_ends (c : Setup ω) (watch : Watch τ) (n : Nat) (s : State ω) (seen : τ) :
    Ends c s n (run c watch n s seen).error? (run c watch n s seen).state := by
  induction n generalizing s seen with
  | zero =>
    rw [run]
    by_cases h : s.ip < c.program.size
    · rw [if_pos h]
      exact .tooLong (.nil s) rfl h
    · rw [if_neg h]
      exact .finished (.nil s) (Nat.zero_le 0) (Nat.le_of_not_lt h)
  | succ n ih =>
    cases fetched : c.program.instructions[s.ip]? with
    | none =>
      rw [run, fetched]
      exact .finished (.nil s) (Nat.zero_le _) (size_le_of_getElem?_eq_none fetched)
    | some instr =>
      rw [run_succ watch n seen fetched]
      rcases watch seen (turn c s instr).1 with ⟨seen, _ | reason⟩
      · cases followed : s.follow c instr with
        | error fault => exact .failed (.nil s) (Nat.succ_pos n) fetched followed
        | ok t => exact (ih t seen).cons ⟨fetched, followed⟩
      · exact .interrupted (.nil s) fetched

/-! ## Where a run ends -/

theorem stuck_of_size_le {c : Setup ω} {s : State ω} (h : c.program.size ≤ s.ip) : Stuck c s := by
  intro instr fetched
  exact absurd (lt_size_of_getElem?_eq_some fetched) (Nat.not_lt.2 h)

theorem stuck_of_follow {c : Setup ω} {s : State ω} {instr : Instr} {fault : Fault}
    (fetched : c.program.instructions[s.ip]? = some instr) (h : s.follow c instr = .error fault) :
    Stuck c s := by
  intro other fetched'
  obtain rfl : instr = other := Option.some.inj (fetched.symm.trans fetched')
  exact ⟨fault, h⟩

/-- Paths to where the machine is stuck end in one place. -/
theorem Path.unique {c : Setup ω} {s t u : State ω} {is js : List Instr} (h : Path c s is t)
    (g : Path c s js u) (stuck : Stuck c t) (stuck' : Stuck c u) : t = u := by
  obtain ⟨rest, -, path⟩ := h.split g stuck'
  cases path with
  | nil => rfl
  | cons step _ => exact (stuck.no_step step).elim

/-- Nobody interrupts. -/
def Patient (watch : Watch τ) : Prop :=
  ∀ seen entry, (watch seen entry).2 = none

theorem run_not_interrupted {watch : Watch τ} (patient : Patient watch) (c : Setup ω) (n : Nat)
    (s : State ω) (seen : τ) (reason : String) :
    (run c watch n s seen).error? ≠ some (.interrupted reason) := by
  induction n generalizing s seen with
  | zero =>
    rw [run]
    split <;> simp
  | succ n ih =>
    cases fetched : c.program.instructions[s.ip]? with
    | none => rw [run, fetched]; simp
    | some instr =>
      rw [run_succ watch n seen fetched]
      have goesOn := patient seen (turn c s instr).1
      rcases hw : watch seen (turn c s instr).1 with ⟨seen, _ | reason⟩
      · cases s.follow c instr with
        | error fault => simp
        | ok t => exact ih t seen
      · rw [hw] at goesOn
        cases goesOn

/-- A run that is cut short is so at a number of instructions no path to its end exceeds. -/
theorem Ends.le_of_tooLong {c : Setup ω} {s t u : State ω} {n counter : Nat} {is : List Instr}
    (h : Ends c s n (some (.tooLong counter)) u) (path : Path c s is t) (stuck : Stuck c t) :
    n ≤ is.length := by
  cases h with
  | tooLong front full _ =>
    obtain ⟨rest, rfl, -⟩ := front.split path stuck
    simp [full]

/-- A run that fails does so at the end of a path. -/
theorem Ends.at_fault {c : Setup ω} {s u : State ω} {n index counter : Nat} {token : Token}
    {fault : Fault} (h : Ends c s n (some (.instructionFailed token index counter fault)) u) :
    ∃ is t instr, Path c s is t ∧ c.program.instructions[t.ip]? = some instr ∧
      instr.token = token ∧ t.follow c instr = .error fault := by
  cases h with
  | failed path _ fetched fails => exact ⟨_, _, _, path, fetched, rfl, fails⟩

/-- A run that is neither cut short nor interrupted ends where the machine is stuck. -/
theorem Ends.stuck {c : Setup ω} {s u : State ω} {n : Nat} {error? : Option RunError}
    (h : Ends c s n error? u) (long : ∀ counter, error? ≠ some (.tooLong counter))
    (patient : ∀ reason, error? ≠ some (.interrupted reason)) :
    ∃ is t, Path c s is t ∧ Stuck c t := by
  cases h with
  | finished path _ behind => exact ⟨_, _, path, stuck_of_size_le behind⟩
  | failed path _ fetched fails => exact ⟨_, _, path, stuck_of_follow fetched fails⟩
  | tooLong => exact absurd rfl (long _)
  | interrupted => exact absurd rfl (patient _)

/-- **Where a run ends** that is neither cut short nor interrupted: behind the program, or at the
fault of the instruction there. -/
theorem Ends.at_stuck {c : Setup ω} {s t u : State ω} {n : Nat} {is : List Instr}
    {error? : Option RunError} (h : Ends c s n error? u) (path : Path c s is t) (stuck : Stuck c t)
    (long : ∀ counter, error? ≠ some (.tooLong counter))
    (patient : ∀ reason, error? ≠ some (.interrupted reason)) :
    (c.program.size ≤ t.ip ∧ error? = none ∧ u = t) ∨
      ∃ instr fault, c.program.instructions[t.ip]? = some instr ∧
        t.follow c instr = .error fault ∧
        error? = some (.instructionFailed instr.token t.ip t.counter fault) ∧
        u = { t with store := (turn c t instr).2 } := by
  cases h with
  | finished ran _ behind =>
    obtain rfl := ran.unique path (stuck_of_size_le behind) stuck
    exact .inl ⟨behind, rfl, rfl⟩
  | failed ran _ fetched fails =>
    obtain rfl := ran.unique path (stuck_of_follow fetched fails) stuck
    exact .inr ⟨_, _, fetched, fails, rfl, rfl⟩
  | tooLong => exact absurd rfl (long _)
  | interrupted => exact absurd rfl (patient _)

end Chore.Machine
