import Chore.Proofs.Block.Hoisting

/-!
# Runs of a program with a hoisted declaration

A program does the same wherever its declarations stand. The machine passes the header of a
declaration as often as it comes by; with the declaration at the front it passes it once. So one
machine may rest while the other moves: `Moved` relates the two, and `HoistedSetup.step` says what
one step keeps. `HoistedSetup.path` is the result for any number of steps, and `runs_hoisted` for
whole runs.
-/

set_option autoImplicit false

namespace Chore.Block

open Machine

variable {ω τ τ' : Type} {c c' : Setup ω} {g n : Nat} {sig : Signature} {s s' t : State ω}
  {instr : Instr} {is : List Instr}

/-- The machine is where hoisting takes the other, and so are its pending returns. -/
structure Moved (g n : Nat) (s s' : State ω) : Prop where
  ip : s'.ip = hoisted g n s.ip
  store : s'.store = s.store.rename (hoisted g n)

/-- The two machines differ in their programs, and those in where a declaration stands. -/
structure HoistedSetup (g n : Nat) (sig : Signature) (c c' : Setup ω) : Prop where
  host : c.host = c'.host
  limit : c.limit = c'.limit
  hoists : Hoists g n sig c.program c'.program

namespace HoistedSetup

/-- Nothing goes on behind the end of the declaration: a body that comes there returns. -/
theorem hoisted_next (h : HoistedSetup g n sig c c')
    (fetched : c.program.instructions[s.ip]? = some instr) (other : s.ip ≠ g) {e : Effect}
    {calls : Stack Nat} (sends : Sends c.program instr s.store.calls e calls)
    (goes : e = .next ∨ ∃ m, e = .call m) :
    hoisted g n (s.ip + 1) = hoisted g n s.ip + 1 := by
  refine hoisted_succ other fun last => ?_
  have long := h.hoists.long
  obtain rfl : instr = { token := Mark.close.token, role := .close .procedure } := by
    have close := h.hoists.close
    rw [show g + n - 1 = s.ip by omega] at close
    exact Option.some.inj (fetched.symm.trans close)
  cases sends with
  | next _ stays => exact stays rfl rfl
  | call token _ => cases token
  | _ => rcases goes with goes | ⟨m, goes⟩ <;> cases goes

/-- Going where an effect says. -/
theorem advance (h : HoistedSetup g n sig c c') (moved : Moved g n s s') (store : Store ω)
    {e : Effect}
    (next : e = .next ∨ (∃ m, e = .call m) → hoisted g n (s.ip + 1) = hoisted g n s.ip + 1) :
    match s.advance c store e with
    | .error fault =>
      s'.advance c' (store.rename (hoisted g n)) (e.rename (hoisted g n)) = .error fault
    | .ok t => ∃ t', s'.advance c' (store.rename (hoisted g n)) (e.rename (hoisted g n)) = .ok t' ∧
      Moved g n t t' := by
  cases e with
  | next => exact ⟨_, rfl, by simp only [moved.ip, next (.inl rfl)], rfl⟩
  | jump m => exact ⟨_, rfl, rfl, rfl⟩
  | exit =>
    refine ⟨_, rfl, ?_, rfl⟩
    change c'.program.size = hoisted g n c.program.size
    rw [h.hoists.hoisted_size (Nat.le_refl _), h.hoists.size]
  | call m =>
    simp only [State.advance, Effect.rename]
    have size : (store.rename (hoisted g n)).calls.size = store.calls.size := Stack.size_map _ _
    rw [size, ← h.limit]
    by_cases room : store.calls.size < c.limit
    · rw [if_pos room, if_pos room]
      refine ⟨_, rfl, rfl, ?_⟩
      simp only [Store.rename, Stack.map_push, moved.ip, next (.inr ⟨m, rfl⟩)]
    · rw [if_neg room, if_neg room]

/-- **One instruction** does the same on both machines, wherever it is not the header. -/
theorem follow (h : HoistedSetup g n sig c c') (moved : Moved g n s s')
    (fetched : c.program.instructions[s.ip]? = some instr) (other : s.ip ≠ g) :
    (turn c' s' (instr.rename (hoisted g n))).2 = (turn c s instr).2.rename (hoisted g n) ∧
      match s.follow c instr with
      | .error fault => s'.follow c' (instr.rename (hoisted g n)) = .error fault
      | .ok t => ∃ t', s'.follow c' (instr.rename (hoisted g n)) = .ok t' ∧ Moved g n t t' := by
  have scene : ({ s'.store with } : Scene ω) = Scene.rename (hoisted g n) { s.store with } := by
    rw [moved.store]
    rfl
  have performed := renames_perform h.host h.limit h.hoists.found instr { s.store with }
  rw [← scene] at performed
  constructor
  · simp only [turn, performed]
    rfl
  · rw [follow_eq, follow_eq, performed]
    rcases done : perform c instr { s.store with } with ⟨fault | e, scene⟩
    · rfl
    · refine h.advance moved scene.toStore fun goes => ?_
      exact h.hoisted_next fetched other (sends_perform c instr _ _ _ done) goes

/-- The header of the declaration leads behind it. -/
theorem header (h : HoistedSetup g n sig c c') (fetched : c.program.instructions[s.ip]? = some instr)
    (here : s.ip = g) :
    s.follow c instr = .ok { ip := g + n, counter := s.counter + 1, store := s.store } := by
  have header := h.hoists.header
  rw [← here] at header
  obtain rfl := Option.some.inj (fetched.symm.trans header)
  rw [← here]
  rfl

/-- **A step** is made by both machines, or it passes the header and the other machine rests. -/
theorem step (h : HoistedSetup g n sig c c') (moved : Moved g n s s') (step : Step c s instr t) :
    Moved g n t s' ∨ ∃ instr' t', Step c' s' instr' t' ∧ Moved g n t t' := by
  by_cases here : s.ip = g
  · left
    have followed := step.followed
    rw [h.header step.fetched here] at followed
    obtain rfl := Except.ok.inj followed
    have long := h.hoists.long
    refine ⟨?_, moved.store⟩
    rw [moved.ip, here, hoisted_front (Nat.le_refl g), hoisted_behind (by omega) (Nat.le_refl _)]
  · right
    have followed := (h.follow moved step.fetched here).2
    rw [step.followed] at followed
    obtain ⟨t', followed, moved'⟩ := followed
    refine ⟨_, t', ⟨?_, followed⟩, moved'⟩
    rw [moved.ip]
    exact h.hoists.instr here step.fetched

/-- **Any number of steps.** -/
theorem path (h : HoistedSetup g n sig c c') (moved : Moved g n s s') (path : Path c s is t) :
    ∃ is' t', Path c' s' is' t' ∧ Moved g n t t' := by
  induction path generalizing s' with
  | nil => exact ⟨[], s', .nil s', moved⟩
  | cons step _ ih =>
    obtain moved | ⟨instr', t', step', moved⟩ := h.step moved step
    · exact ih moved
    · obtain ⟨is', u', path', moved⟩ := ih moved
      exact ⟨instr' :: is', u', .cons step' path', moved⟩

/-- The instruction that fails on one machine fails on the other. -/
theorem fails (h : HoistedSetup g n sig c c') (moved : Moved g n s s')
    (fetched : c.program.instructions[s.ip]? = some instr) {fault : Fault}
    (fails : s.follow c instr = .error fault) :
    s.ip ≠ g ∧ c'.program.instructions[s'.ip]? = some (instr.rename (hoisted g n)) ∧
      s'.follow c' (instr.rename (hoisted g n)) = .error fault := by
  have other : s.ip ≠ g := by
    intro here
    rw [h.header fetched here] at fails
    cases fails
  have failed := (h.follow moved fetched other).2
  rw [fails] at failed
  refine ⟨other, ?_, failed⟩
  rw [moved.ip]
  exact h.hoists.instr other fetched

end HoistedSetup

/-- The machine with the declaration at the front first passes it. -/
theorem moved_start (h : HoistedSetup g n sig c c') (world : ω) :
    ∃ instr t', Step c' { store := { world } } instr t' ∧
      Moved g n { store := { world } } t' := by
  refine ⟨_, _, ⟨h.hoists.header', rfl⟩, ?_, rfl⟩
  rw [hoisted_front (Nat.zero_le g)]
  exact (Nat.zero_add n).symm

/-- Two runs end alike: behind the program, or at the same fault of an instruction that went from
one index to the other. -/
inductive SameEnd (g n : Nat) (program : Program) : Option RunError → Option RunError → Prop where
  | finished : SameEnd g n program none none
  | failed {instr : Instr} {i counter counter' : Nat} {fault : Fault} (other : i ≠ g)
      (fetched : program.instructions[i]? = some instr) :
      SameEnd g n program (some (.instructionFailed instr.token i counter fault))
        (some (.instructionFailed instr.token (hoisted g n i) counter' fault))

/-- **Runs are the same** wherever the declaration stands, if they are neither cut short nor
interrupted. -/
theorem runs_hoisted {program program' : Program} (h : Hoists g n sig program program')
    (host : Host ω) {limit steps steps' : Nat} {watch : Watch τ} {watch' : Watch τ'}
    (patient : Patient watch) (patient' : Patient watch') (world : ω) (seen : τ) (seen' : τ')
    (long : ∀ counter, (runProgram program host ⟨limit, steps⟩ watch world seen).error? ≠
      some (.tooLong counter))
    (long' : ∀ counter, (runProgram program' host ⟨limit, steps'⟩ watch' world seen').error? ≠
      some (.tooLong counter)) :
    (runProgram program' host ⟨limit, steps'⟩ watch' world seen').state.store =
        (runProgram program host ⟨limit, steps⟩ watch world seen).state.store.rename
          (hoisted g n) ∧
      SameEnd g n program (runProgram program host ⟨limit, steps⟩ watch world seen).error?
        (runProgram program' host ⟨limit, steps'⟩ watch' world seen').error? := by
  unfold runProgram at long long' ⊢
  generalize hc : ({ program, host, limit } : Setup ω) = c at long ⊢
  generalize hc' : ({ program := program', host, limit } : Setup ω) = c' at long' ⊢
  have setup : HoistedSetup g n sig c c' := by
    subst hc hc'
    exact ⟨rfl, rfl, h⟩
  have ends := run_ends c watch steps { store := { world } } seen
  have ends' := run_ends c' watch' steps' { store := { world } } seen'
  have goes := run_not_interrupted patient c steps { store := { world } } seen
  have goes' := run_not_interrupted patient' c' steps' { store := { world } } seen'
  obtain ⟨is, t, path, stuck⟩ := ends.stuck long goes
  obtain ⟨instr₀, s', first, moved⟩ := moved_start setup world
  obtain ⟨is', t', path', moved⟩ := setup.path moved path
  have path' := Path.cons first path'
  rcases ends.at_stuck path stuck long goes with
    ⟨behind, finished, last⟩ | ⟨instr, fault, fetched, fails, failed, last⟩
  · have behind' : c'.program.size ≤ t'.ip := by
      rw [moved.ip, setup.hoists.hoisted_size behind, setup.hoists.size]
      exact behind
    rcases ends'.at_stuck path' (stuck_of_size_le behind') long' goes' with
      ⟨-, finished', last'⟩ | ⟨instr', _, fetched', -⟩
    · rw [finished, finished', last, last']
      exact ⟨moved.store, .finished⟩
    · exact absurd (lt_size_of_getElem?_eq_some fetched') (Nat.not_lt.2 behind')
  · obtain ⟨other, fetched', fails'⟩ := setup.fails moved fetched fails
    rcases ends'.at_stuck path' (stuck_of_follow fetched' fails') long' goes' with
      ⟨behind', -⟩ | ⟨instr', fault', again, fails'', failed', last'⟩
    · exact absurd (lt_size_of_getElem?_eq_some fetched') (Nat.not_lt.2 behind')
    · obtain rfl := Option.some.inj (fetched'.symm.trans again)
      obtain rfl := Except.error.inj (fails'.symm.trans fails'')
      rw [failed, failed', last, last', moved.ip]
      refine ⟨(setup.follow moved fetched other).1, ?_⟩
      subst hc
      exact .failed other fetched

end Chore.Block
