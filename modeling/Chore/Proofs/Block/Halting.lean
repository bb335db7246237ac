import Chore.Proofs.Block.Execution

/-!
# The block does what the machine runs

A machine that gets stuck has run through a block that has an outcome. `exec_of_halts` finds it: the
path is cut into the parts that belong to the parts of the block, and each is shorter than the
whole, so that the fuel needed for each is found first. Which path belongs to a part is known from
`exec_leads`.
-/

set_option autoImplicit false

namespace Chore.Block

open Machine

variable {ω : Type} {c : Setup ω} {e : Scope ω} {s t : State ω} {d : Data ω} {k : Stack Nat}

/-- The machine goes on for so many instructions at most until it is stuck. -/
def Halts (c : Setup ω) (s : State ω) (n : Nat) : Prop :=
  ∃ instrs t, Path c s instrs t ∧ Stuck c t ∧ instrs.length ≤ n

theorem Halts.after {n : Nat} (h : Halts c s n) {instrs : List Instr} (path : Path c s instrs t) :
    Halts c t n := by
  obtain ⟨whole, u, ends, stuck, short⟩ := h
  obtain ⟨rest, rfl, others⟩ := path.split ends stuck
  exact ⟨rest, u, others, stuck, by simp at short; omega⟩

theorem Halts.step {n : Nat} (h : Halts c s n) {instr : Instr} (step : Step c s instr t) :
    ∃ m, m < n ∧ Halts c t m := by
  obtain ⟨whole, u, ends, stuck, short⟩ := h
  obtain ⟨rest, rfl, others⟩ := (Path.one step).split ends stuck
  exact ⟨rest.length, by simp at short; omega, rest, u, others, stuck, Nat.le_refl _⟩

/-- A path to another index is not empty. -/
theorem Halts.later {n : Nat} (h : Halts c s n) {instrs : List Instr} (path : Path c s instrs t)
    (moved : s.ip ≠ t.ip) : ∃ m, m < n ∧ Halts c t m := by
  cases path with
  | nil => exact absurd rfl moved
  | cons step others =>
    obtain ⟨m, lt, halts⟩ := h.step step
    exact ⟨m, lt, halts.after others⟩

/-- With enough fuel there is an outcome. -/
def Settles (f : Nat → Option (Outcome ω)) : Prop :=
  ∃ fuel o, ∀ more, fuel ≤ more → f more = some o

theorem settles_const (o : Outcome ω) : Settles fun _ => some o :=
  ⟨0, o, fun _ _ => rfl⟩

theorem Settles.map {f : Nat → Option (Outcome ω)} (h : Settles f) (g : Outcome ω → Outcome ω) :
    Settles fun fuel => (f fuel).map g := by
  obtain ⟨fuel, o, h⟩ := h
  exact ⟨fuel, g o, fun more le => congrArg (Option.map g) (h more le)⟩

theorem Settles.succ {f : Nat → Option (Outcome ω)} (h : Settles fun fuel => f (fuel + 1)) :
    Settles f := by
  obtain ⟨fuel, o, h⟩ := h
  refine ⟨fuel + 1, o, ?_⟩
  intro more le
  obtain ⟨less, rfl⟩ : ∃ less, more = less + 1 := ⟨more - 1, by omega⟩
  exact h less (by omega)

/-- One block behind another: the machine that gets behind the first goes on from there. -/
theorem Settles.andThen {f : Nat → Option (Outcome ω)} {next : Nat → Data ω → Option (Outcome ω)}
    {mid : Nat} (first : Settles f) (leads : ∀ fuel o, f fuel = some o → Leads c s k mid o)
    (second : ∀ d t instrs, Path c s instrs t → At mid k d t → Settles fun fuel => next fuel d) :
    Settles fun fuel => Block.andThen (f fuel) (next fuel) := by
  obtain ⟨fuel, o, settled⟩ := first
  rcases o with d | d | d | ⟨i, token, fault, d⟩
  · obtain ⟨instrs, t, path, there⟩ := leads fuel _ (settled fuel (Nat.le_refl _))
    obtain ⟨fuel', o, settled'⟩ := second d t instrs path there
    refine ⟨max fuel fuel', o, ?_⟩
    intro more le
    simp only [settled more (by omega), Block.andThen]
    exact settled' more (by omega)
  all_goals
    exact ⟨fuel, _, fun more le =>
      (congrArg (fun o => Block.andThen o (next more)) (settled more le)).trans rfl⟩

/-- A condition, and then whatever it leads to. -/
theorem settles_condition {i target n : Nat} {instr : Instr} {m : Mark} {wanted : Bool}
    (here : At i k d s) (fetched : c.program.instructions[i]? = some instr)
    (tests : Tests c instr m wanted) (jumps : instr.next = some target) (halts : Halts c s n)
    {next : Nat → Bool → Data ω → Option (Outcome ω)}
    (go : ∀ b d t less, less < n → At (if b = wanted then i + 1 else target) k d t →
      Halts c t less → Settles fun fuel => next fuel b d) :
    Settles fun fuel => condition i m d (next fuel) := by
  have stepped := step_tests here fetched tests jumps
  unfold condition
  rcases hd : d.does (popCondition (.mark m)) with ⟨fault | b, after⟩ <;> simp only [hd] at stepped
  · exact settles_const _
  · obtain ⟨t, step, there⟩ := stepped
    obtain ⟨less, lt, halts⟩ := halts.step step
    exact go b after t less lt there halts

/-- Blocks have an outcome where the machine halts within so many instructions. -/
def Resolves (c : Setup ω) (e : Scope ω) (n : Nat) : Prop :=
  ∀ {b : Block} {base : Nat} {d : Data ω} {s : State ω} {k : Stack Nat},
    b.StandsAt c.program base → At base k d s → Halts c s n →
    Settles fun fuel => exec e fuel k.size b base d

section

variable {n base : Nat}

theorem settles_plain (serves : Serves c e) (ih : ∀ m, m < n → Resolves c e m)
    {token : Token} {rest : Block} (stands : (Block.plain token rest).StandsAt c.program base)
    (here : At base k d s) (halts : Halts c s n) :
    Settles fun fuel => exec e (fuel + 1) k.size (.plain token rest) base d := by
  obtain ⟨plain, fetched, rest_stands⟩ := stands
  have behind : ∀ d t instrs, Path c s instrs t → At (base + 1) k d t →
      Settles fun fuel => exec e fuel k.size rest (base + 1) d := by
    intro d t instrs path there
    obtain ⟨m, lt, halts⟩ := halts.later path (by rw [here.ip, there.ip]; omega)
    exact ih m lt rest_stands there halts
  by_cases call : ∃ name, token = .name name
  · obtain ⟨name, rfl⟩ := call
    simp only [exec_name]
    cases found : e.find? name with
    | none => exact settles_const _
    | some p =>
      by_cases room : k.size < e.limit
      · simp only [room, if_true]
        have body_stands := (serves.known name p found).2.body
        obtain ⟨t, step, inside⟩ := step_call serves found room here fetched
        obtain ⟨m, lt, halts'⟩ := halts.step step
        refine .andThen ((ih m lt body_stands inside halts').map _) ?_ behind
        intro fuel o ho
        obtain ⟨o, ran, rfl⟩ := Option.map_eq_some_iff.1 ho
        exact leads_call serves found room here fetched fun t inside =>
          exec_leads serves _ body_stands inside ran
      · simp only [room, if_false]
        exact settles_const _
  · by_cases leaves : ∃ l, token = .word (.leave l)
    · obtain ⟨l, rfl⟩ := leaves
      exact settles_const _
    · rw [not_exists] at call leaves
      simp only [exec_other e _ _ call leaves]
      refine .andThen (settles_const _) ?_ behind
      intro fuel o ho
      obtain rfl := Option.some.inj ho
      exact leads_work serves (isData_of_isPlain plain call leaves) here fetched

theorem settles_branch (serves : Serves c e) (ih : ∀ m, m < n → Resolves c e m)
    {kind : BranchKind} {body rest : Block}
    (stands : (Block.branch kind body rest).StandsAt c.program base)
    (here : At base k d s) (halts : Halts c s n) :
    Settles fun fuel => exec e (fuel + 1) k.size (.branch kind body rest) base d := by
  obtain ⟨opens, body_stands, closes, rest_stands⟩ := stands
  refine settles_condition here opens (tests_branch c kind _) rfl halts ?_
  intro b d t less lt there halts
  by_cases enters : b = kind.enters
  · simp only [enters, if_true] at there ⊢
    refine .andThen (ih less lt body_stands there halts)
      (fun fuel o ho => exec_leads serves fuel body_stands there ho) ?_
    intro d t instrs path there
    rw [show base + 1 + body.size = base + body.size + 1 by omega] at there
    obtain ⟨u, step, behindEnd⟩ := step_next there closes rfl
    exact ih less lt rest_stands behindEnd ((halts.after path).after (.one step))
  · simp only [enters, if_false] at there ⊢
    exact ih less lt rest_stands there halts

theorem settles_choice (serves : Serves c e) (ih : ∀ m, m < n → Resolves c e m)
    {kind : BranchKind} {body alternative rest : Block}
    (stands : (Block.choice kind body alternative rest).StandsAt c.program base)
    (here : At base k d s) (halts : Halts c s n) :
    Settles fun fuel => exec e (fuel + 1) k.size (.choice kind body alternative rest) base d := by
  obtain ⟨opens, body_stands, divides, alternative_stands, closes, rest_stands⟩ := stands
  refine settles_condition here opens (tests_branch c kind _) rfl halts ?_
  intro b d t less lt there halts
  by_cases enters : b = kind.enters
  · simp only [enters, if_true] at there ⊢
    refine .andThen (ih less lt body_stands there halts)
      (fun fuel o ho => exec_leads serves fuel body_stands there ho) ?_
    intro d t instrs path there
    rw [show base + 1 + body.size = base + body.size + 1 by omega] at there
    obtain ⟨u, step, behindEnd⟩ := step_jump there divides rfl
    exact ih less lt rest_stands behindEnd ((halts.after path).after (.one step))
  · simp only [enters, if_false] at there ⊢
    refine .andThen (ih less lt alternative_stands there halts)
      (fun fuel o ho => exec_leads serves fuel alternative_stands there ho) ?_
    intro d t instrs path there
    rw [show base + body.size + 2 + alternative.size = base + body.size + alternative.size + 2
      by omega] at there
    obtain ⟨u, step, behindEnd⟩ := step_next there closes rfl
    exact ih less lt rest_stands behindEnd ((halts.after path).after (.one step))

theorem settles_loop (serves : Serves c e) (ih : ∀ m, m < n → Resolves c e m)
    {kind : LoopKind} {header body rest : Block}
    (stands : (Block.loop kind header body rest).StandsAt c.program base)
    (here : At base k d s) (halts : Halts c s n) :
    Settles fun fuel => exec e (fuel + 1) k.size (.loop kind header body rest) base d := by
  have whole := stands
  obtain ⟨opens, header_stands, tests, body_stands, closes, rest_stands⟩ := stands
  obtain ⟨t, step, inside⟩ := step_next here opens (by cases kind <;> rfl)
  obtain ⟨m, lt, halts⟩ := halts.step step
  refine .andThen (ih m lt header_stands inside halts)
    (fun fuel o ho => exec_leads serves fuel header_stands inside ho) ?_
  intro d t instrs path there
  rw [show base + 1 + header.size = base + header.size + 1 by omega] at there
  refine settles_condition there tests (tests_loop c kind base _) rfl (halts.after path) ?_
  intro b d t less less_lt there halts
  have lt : less < n := by omega
  by_cases goesOn : b = kind.goesOn
  · simp only [goesOn, if_true] at there ⊢
    refine .andThen (ih less lt body_stands there halts)
      (fun fuel o ho => exec_leads serves fuel body_stands there ho) ?_
    intro d t instrs path there
    rw [show base + header.size + 2 + body.size = base + header.size + body.size + 2
      by omega] at there
    -- the whole loop once more, with fewer instructions left
    obtain ⟨u, step, again⟩ := step_jump there closes rfl
    exact ih less lt whole again ((halts.after path).after (.one step))
  · simp only [goesOn, if_false] at there ⊢
    exact ih less lt rest_stands there halts

theorem settles_procedure (ih : ∀ m, m < n → Resolves c e m)
    {sig : Signature} {body rest : Block}
    (stands : (Block.procedure sig body rest).StandsAt c.program base)
    (here : At base k d s) (halts : Halts c s n) :
    Settles fun fuel => exec e (fuel + 1) k.size (.procedure sig body rest) base d := by
  obtain ⟨opens, -, -, rest_stands⟩ := stands
  obtain ⟨t, step, there⟩ := step_jump here opens rfl
  obtain ⟨m, lt, halts⟩ := halts.step step
  exact ih m lt rest_stands there halts

end

/-- **A machine that halts** runs through blocks that have an outcome. The induction is on the
length of the path that is left: every part of a block is entered by an instruction. -/
theorem exec_of_halts (serves : Serves c e) (n : Nat) : Resolves c e n := by
  induction n using Nat.strongRecOn with
  | ind n ih =>
    intro b base d s k stands here halts
    apply Settles.succ
    cases b with
    | nil => exact settles_const _
    | plain token rest => exact settles_plain serves ih stands here halts
    | branch kind body rest => exact settles_branch serves ih stands here halts
    | choice kind body alternative rest => exact settles_choice serves ih stands here halts
    | loop kind header body rest => exact settles_loop serves ih stands here halts
    | procedure sig body rest => exact settles_procedure ih stands here halts

end Chore.Block
