import Chore.Machine.Script
import Chore.Proofs.Block.Brackets
import Mathlib.Algebra.GroupWithZero.Nat

/-!
# Programs that end

Only loops and recursion run for ever. In a linked program without `while` and `until` the machine
goes ahead as long as it stays in its zone, and only calls and returns take it elsewhere. If no
procedure comes to call itself, fewer procedures can be called from where a call leads
(`Program.depth`). So the indices have weights (`Program.weight`) such that going ahead, calling and
going back all make the weights of the next instruction and of the pending returns less in total
(`load_lt_of_step`). The first weight bounds the length of every run, whatever the values, the tools
and the limit of the stack are (`halts_without_loops`).
-/

set_option autoImplicit false

namespace Chore

namespace Program

variable {program : Program} {i j : Nat}

/-- A procedure calls another: the name of the other stands in its body. -/
def Calls (program : Program) (p q : Procedure) : Prop :=
  p ∈ program.procedures ∧ q ∈ program.procedures ∧
    ∃ i instr, p.start ≤ i ∧ i < p.stop ∧ program.instructions[i]? = some instr ∧
      instr.token = .name q.name

/-- No procedure comes to call itself. -/
def Acyclic (program : Program) : Prop :=
  ∀ p, ¬Relation.TransGen program.Calls p p

/-- A rank that every call lowers rules recursion out. -/
theorem acyclic_of_rank (rank : Procedure → Nat)
    (lower : ∀ p q, program.Calls p q → rank q < rank p) : program.Acyclic := by
  have below {p q : Procedure} (h : Relation.TransGen program.Calls p q) : rank q < rank p := by
    induction h with
    | single call => exact lower _ _ call
    | tail _ call ih => exact Nat.lt_trans (lower _ _ call) ih
  exact fun p cycle => Nat.lt_irrefl _ (below cycle)

/-- No instruction opens a loop. -/
def Loopless (program : Program) : Prop :=
  ∀ instr ∈ program.instructions, ∀ k : LoopKind, instr.token ≠ k.mark.token

/-- A procedure can be called from an index, at once or through others; any can from outside of
all. -/
def Callable (program : Program) (i : Nat) (q : Procedure) : Prop :=
  ∀ p ∈ program.procedures, p.Covers i → Relation.TransGen program.Calls p q

open Classical in
/-- How many procedures can be called from an index. -/
noncomputable def depth (program : Program) (i : Nat) : Nat :=
  (program.procedures.filter fun q => program.Callable i q).length

/-- How many instructions can be performed from an index on until control is back behind its
zone. -/
noncomputable def weight (program : Program) (i : Nat) : Nat :=
  (program.size - i) * (program.size + 1) ^ program.depth i

/-- The weights of an index and of the pending returns. -/
noncomputable def load (program : Program) (i : Nat) (calls : List Nat) : Nat :=
  ((i :: calls).map program.weight).sum

theorem depth_le (program : Program) (i : Nat) :
    program.depth i ≤ program.procedures.length :=
  List.length_filter_le _ _

theorem depth_eq_of_sameZone (zone : program.SameZone i j) :
    program.depth i = program.depth j := by
  have callable : program.Callable i = program.Callable j := by
    funext q
    refine forall_congr fun p => forall_congr fun member => ?_
    rw [zone p member]
  rw [depth, depth, callable]

theorem weight_pos (within : i < program.size) : 0 < program.weight i :=
  Nat.mul_pos (by omega) (Nat.pow_pos (Nat.succ_pos _))

/-- Going ahead in a zone takes weight away. -/
theorem weight_lt_of_ahead (zone : program.SameZone i j) (ahead : i < j)
    (within : i < program.size) : program.weight j < program.weight i := by
  rw [weight, weight, depth_eq_of_sameZone zone]
  exact Nat.mul_lt_mul_of_pos_right (by omega) (Nat.pow_pos (Nat.succ_pos _))

/-- From where fewer procedures can be called there is less to do than in one step of a zone. -/
theorem weight_lt_of_depth (less : program.depth j < program.depth i) :
    program.weight j < (program.size + 1) ^ program.depth i :=
  calc program.weight j
      ≤ program.size * (program.size + 1) ^ program.depth j :=
        Nat.mul_le_mul_right _ (Nat.sub_le _ _)
    _ < (program.size + 1) ^ program.depth j * (program.size + 1) := by
        rw [Nat.mul_comm]
        exact Nat.mul_lt_mul_of_pos_left (Nat.lt_succ_self _) (Nat.pow_pos (Nat.succ_pos _))
    _ = (program.size + 1) ^ (program.depth j + 1) := rfl
    _ ≤ (program.size + 1) ^ program.depth i := Nat.pow_le_pow_right (Nat.succ_pos _) less

/-- Where a call leads and where it comes back to are less than where it stands. -/
theorem weight_call (less : program.depth j < program.depth i)
    (zone : program.SameZone i (i + 1)) (within : i < program.size) :
    program.weight j + program.weight (i + 1) < program.weight i := by
  have entry := weight_lt_of_depth less
  have back : program.weight i =
      program.weight (i + 1) + (program.size + 1) ^ program.depth i := by
    rw [weight, weight, ← depth_eq_of_sameZone zone, ← Nat.succ_mul]
    congr 1
    omega
  omega

/-- A number of instructions that no run exceeds, if there are neither loops nor recursion. -/
def stepBound (program : Program) : Nat :=
  program.size * (program.size + 1) ^ program.procedures.length

theorem weight_le (program : Program) (i : Nat) : program.weight i ≤ program.stepBound :=
  Nat.mul_le_mul (Nat.sub_le _ _) (Nat.pow_le_pow_right (Nat.succ_pos _) (program.depth_le i))

end Program

namespace Block

open Machine

variable {ω τ : Type} {b : Block} {c : Setup ω} {s t : State ω} {instr : Instr} {i m : Nat}

/-- A name in the range of a procedure stands in its body. -/
theorem calls_of_covers (proper : b.Proper) {p q : Procedure} (hp : p ∈ b.program.procedures)
    (hq : q ∈ b.program.procedures) (covers : p.Covers m)
    (fetched : b.program.instructions[m]? = some instr) (token : instr.token = .name q.name) :
    b.program.Calls p q := by
  obtain ⟨_, -, body⟩ := (mem_procedures_iff proper).1 hp
  have here := (resolved_of_getElem? proper fetched).token
  have ne : m ≠ p.stop := ne_of_tokens here body.ends (by rw [token]; nofun)
  exact ⟨hp, hq, m, instr, covers.1, Nat.lt_of_le_of_ne covers.2 ne, fetched, token⟩

/-- **A call leads where fewer procedures can be called**: the procedure itself cannot. -/
theorem depth_lt_of_call (proper : b.Proper) (acyclic : b.program.Acyclic) {q : Procedure}
    (hq : q ∈ b.program.procedures) (fetched : b.program.instructions[m]? = some instr)
    (token : instr.token = .name q.name) : b.program.depth q.start < b.program.depth m := by
  classical
  have calls (p : Procedure) (hp : p ∈ b.program.procedures) (covers : p.Covers m) :
      b.program.Calls p q := calls_of_covers proper hp hq covers fetched token
  have further (r : Procedure) (callable : b.program.Callable q.start r) :
      b.program.Callable m r := by
    intro p hp covers
    exact .trans (.single (calls p hp covers)) (callable q hq (covers_bounds proper hq).1)
  have itself : b.program.Callable m q := fun p hp covers => .single (calls p hp covers)
  have never : ¬b.program.Callable q.start q := fun callable =>
    acyclic q (callable q hq (covers_bounds proper hq).1)
  have smaller : (b.program.procedures.filter fun r => b.program.Callable q.start r) =
      (b.program.procedures.filter fun r => b.program.Callable m r).filter
        fun r => b.program.Callable q.start r := by
    rw [List.filter_filter]
    refine List.filter_congr fun r _ => ?_
    by_cases callable : b.program.Callable q.start r
    · simp [callable, further r callable]
    · simp [callable]
  rw [Program.depth, Program.depth, smaller]
  exact List.length_filter_lt_length_iff_exists.2
    ⟨q, List.mem_filter.2 ⟨hq, by simpa using itself⟩, by simpa using never⟩

/-- Without loops, every target is ahead and no `end` goes back. -/
theorem ahead_of_resolved (loopless : b.program.Loopless) (h : Resolved b.tokens i instr) :
    (∀ n, instr.next = some n → i < n) ∧ ∀ n, instr.role ≠ .close (.loop n) := by
  have ahead {j : Nat} {x y : Token} (part : Part b.tokens i x j y) (n : Nat)
      (target : some (j + 1) = some n) : i < n := by
    have before := part.before
    obtain rfl := Option.some.inj target
    omega
  cases h with
  | plain => exact ⟨nofun, nofun⟩
  | branch body => exact ⟨ahead body, nofun⟩
  | choice body => exact ⟨ahead body, nofun⟩
  | otherwise alternative => exact ⟨ahead alternative, nofun⟩
  | loop header => exact ⟨ahead header, nofun⟩
  | test _ body => exact ⟨ahead body, nofun⟩
  | header body => exact ⟨ahead body, nofun⟩
  | endBranch => exact ⟨nofun, nofun⟩
  | endChoice => exact ⟨nofun, nofun⟩
  | endProcedure => exact ⟨nofun, nofun⟩
  | @endLoop _ _ _ k header _ =>
    have here := header.opens
    rw [← map_token_instructions 0 b, List.getElem?_map, Option.map_eq_some_iff] at here
    obtain ⟨instr, fetched, token⟩ := here
    have member : instr ∈ b.program.instructions := by
      simpa [program] using List.mem_of_getElem? fetched
    exact absurd token (loopless instr member k)

/-- Without loops, a step that neither calls nor goes back goes ahead. -/
theorem ahead_of_step (proper : b.Proper) (served : c.program = b.program)
    (loopless : b.program.Loopless) (step : Step c s instr t)
    (same : t.store.calls = s.store.calls) (stays : instr.token ≠ .word (.leave .exit)) :
    s.ip < t.ip := by
  have fetched := step.fetched
  rw [served] at fetched
  obtain ⟨targets, never⟩ := ahead_of_resolved loopless (resolved_of_getElem? proper fetched)
  obtain ⟨e, store, sends, advanced⟩ := step.sends
  generalize left : store.calls = calls at sends
  cases sends with
  | next =>
    obtain rfl := Except.ok.inj advanced
    exact Nat.lt_succ_self _
  | jump target =>
    obtain rfl := Except.ok.inj advanced
    exact targets _ target
  | again role => exact absurd role (never _)
  | call =>
    simp only [State.advance] at advanced
    split at advanced
    · obtain rfl := Except.ok.inj advanced
      have size := congrArg Stack.size same
      simp [left] at size
    · cases advanced
  | back _ popped =>
    obtain rfl := Except.ok.inj advanced
    have stack := Stack.pop?_eq_some_iff.1 popped
    rw [show store.calls = s.store.calls from same] at left
    rw [← left] at stack
    simp at stack
  | exit token => exact absurd token stays

/-- **Every step takes weight away**, unless it leaves the program. -/
theorem load_lt_of_step (wellFormed : b.WellFormed) (served : c.program = b.program)
    (loopless : b.program.Loopless) (acyclic : b.program.Acyclic) (step : Step c s instr t)
    (stays : instr.token ≠ .word (.leave .exit)) :
    b.program.load t.ip t.store.calls.toList < b.program.load s.ip s.store.calls.toList := by
  have proper := wellFormed.proper
  have fetched := step.fetched
  rw [served] at fetched
  have within := lt_size_of_getElem?_eq_some fetched
  cases goes_of_step wellFormed served step with
  | stays zone _ same =>
    have ahead := ahead_of_step proper served loopless step same stays
    have less := Program.weight_lt_of_ahead zone ahead within
    simp only [Program.load, List.map_cons, List.sum_cons, same]
    omega
  | @calls q member token ip pushed =>
    have alone := (resolved_of_getElem? proper fetched).of_plain (by rw [token]; rfl)
    have zone := sameZone_call proper (fetched.trans (congrArg some (token ▸ alone)))
    have deeper := depth_lt_of_call proper acyclic member fetched token
    have less := Program.weight_call deeper zone within
    simp only [Program.load, List.map_cons, List.sum_cons, pushed, ip, Stack.toList_push]
    omega
  | returns _ popped =>
    have here := Program.weight_pos within
    simp only [Program.load, List.map_cons, List.sum_cons, Stack.pop?_eq_some_iff.1 popped]
    omega
  | exits token => exact absurd token stays

/-- **Every run takes weight away** with each of its instructions, while it is in the program. -/
theorem load_of_path (wellFormed : b.WellFormed) (served : c.program = b.program)
    (loopless : b.program.Loopless) (acyclic : b.program.Acyclic) {is : List Instr}
    (path : Path c s is t) (within : t.ip < b.program.size) :
    is.length + b.program.load t.ip t.store.calls.toList ≤
      b.program.load s.ip s.store.calls.toList := by
  induction path with
  | nil => simp
  | @cons s u t instr is step others ih =>
    have stays : instr.token ≠ .word (.leave .exit) := by
      intro leaves
      cases others with
      | nil =>
        rw [step.of_exit leaves, served] at within
        exact absurd within (Nat.lt_irrefl _)
      | cons next _ => exact (step.stuck_of_exit leaves).no_step next
    have first := load_lt_of_step wellFormed served loopless acyclic step stays
    have rest := ih within
    rw [List.length_cons]
    omega

/-- **Only loops and recursion run for ever.** In a linked program without `while` and `until`, in
which no procedure comes to call itself, no run performs more instructions than the size of the
program and the number of its procedures allow: with that limit or a higher one no run is cut short,
whatever the tools, the output, the limit of the stack and whoever watches. -/
theorem halts_without_loops {ts : List Token} {program : Program}
    (linked : Program.ofTokens ts = .ok program) (loopless : program.Loopless)
    (acyclic : program.Acyclic) (host : Host ω) (limits : Limits) (watch : Watch τ) (world : ω)
    (seen : τ) (enough : program.stepBound ≤ limits.steps) (counter : Nat) :
    (runProgram program host limits watch world seen).error? ≠ some (.tooLong counter) := by
  obtain ⟨b, wellFormed, -, rfl⟩ := ofTokens_ok linked
  intro cut
  let c : Setup ω := { program := b.program, host, limit := limits.stack }
  have ends := run_ends c watch limits.steps { store := { world } } seen
  rw [show (run c watch limits.steps { store := { world } } seen).error? = _ from cut] at ends
  generalize (run c watch limits.steps { store := { world } } seen).state = final at ends
  cases ends with
  | tooLong path full within =>
    have spent := load_of_path wellFormed rfl loopless acyclic path within
    have left : 0 < b.program.weight final.ip := Program.weight_pos within
    have start := b.program.weight_le 0
    simp only [Program.load, List.map_cons, List.sum_cons, Stack.toList_empty, List.map_nil,
      List.sum_nil] at spent
    omega

/-- A procedure that calls another twice and is called twice itself. -/
theorem halts_without_loops_twice :
    let twice (name : String) (rest : Block) : Block :=
      .plain (.name name) (.plain (.name name) rest)
    let b : Block := .procedure ⟨"one", [], [.int]⟩ (.plain (.literal (.int 1)) .nil)
      (.procedure ⟨"two", [], [.int]⟩ (twice "one" (.plain (.word (.arithmetic .add)) .nil))
        (twice "two" .nil))
    Program.ofTokens b.tokens = .ok b.program ∧ b.program.Loopless ∧ b.program.Acyclic ∧
      b.program.stepBound = 1210 ∧
      ∀ limit counter, (runProgram b.program (Script.tools "/").host ⟨limit, 1210⟩ quiet
        { tools := { answers := [] } } ()).error? ≠ some (.tooLong counter) := by
  intro twice b
  have linked : Program.ofTokens b.tokens = .ok b.program := rfl
  have loopless : b.program.Loopless := by
    have opensNone : ∀ instr ∈ b.program.instructions,
        instr.token ≠ Mark.whileTrue.token ∧ instr.token ≠ Mark.untilTrue.token := by
      decide +kernel
    intro instr member k
    cases k with
    | whileTrue => exact (opensNone instr member).1
    | untilTrue => exact (opensNone instr member).2
  have acyclic : b.program.Acyclic := by
    have earlier : ∀ p ∈ b.program.procedures, ∀ q ∈ b.program.procedures, ∀ i < p.stop,
        p.start ≤ i → b.program.instructions[i]?.map Instr.token = some (.name q.name) →
          q.start < p.start := by
      decide +kernel
    apply Program.acyclic_of_rank Procedure.start
    rintro p q ⟨hp, hq, i, instr, after, before, fetched, token⟩
    exact earlier p hp q hq i before after (by rw [fetched, Option.map_some, token])
  have bound : b.program.stepBound = 1210 := by decide +kernel
  refine ⟨linked, loopless, acyclic, bound, fun limit counter => ?_⟩
  exact halts_without_loops linked loopless acyclic (Script.tools "/").host ⟨limit, 1210⟩ quiet
    { tools := { answers := [] } } () (Nat.le_of_eq bound) counter

end Block

end Chore
