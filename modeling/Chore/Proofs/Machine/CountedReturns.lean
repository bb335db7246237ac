import Chore.Proofs.Machine.Yields

/-!
# Counted returns

`dret` drops as many values as the integer on top says, and returns; `iret` keeps some values and
drops those below them, with a count for either on top. Both take their values one by one and so may
fail half-way: on a negative count, or for want of values. What they do is told by how the stack is
made up (`dropRet_goesBack`, `keepRet_goesBack`).
-/

set_option autoImplicit false

namespace Chore.Machine

variable {ω : Type} {c : Setup ω}

/-- The machine is at a word that leaves a procedure, with a stack within its limit and a call to
go back from. -/
structure AtReturn (c : Setup ω) (l : Leave) (stack : List Value) (back : Nat) (calls : List Nat)
    (s : State ω) (instr : Instr) : Prop where
  token : instr.token = .word (.leave l)
  stack : s.store.stack.toList = stack
  fits : s.store.stack.size ≤ c.limit
  calls : s.store.calls.toList = back :: calls

/-- A word goes back behind the latest call, and leaves some of the values on a stack. -/
def GoesBack (c : Setup ω) (l : Leave) (stack left : List Value) : Prop :=
  ∀ s instr back calls, AtReturn c l stack back calls s instr →
    s.follow c instr = .ok
      { ip := back
        counter := s.counter + 1
        store := { s.store with stack := .ofList left, calls := .ofList calls } }

/-- A word fails on a stack. -/
def Faults (c : Setup ω) (l : Leave) (stack : List Value) (fault : Fault) : Prop :=
  ∀ (s : State ω) (instr : Instr), instr.token = .word (.leave l) → s.store.stack.toList = stack →
    s.follow c instr = .error fault

theorem performs_leave {l : Leave} {instr : Instr} (token : instr.token = .word (.leave l)) :
    perform c instr = leave c l := by
  rw [perform_eq, token]
  rfl

theorem goesBack_of_yields {l : Leave} {stack left : List Value}
    (h : ∀ (st : Store ω) (back : Nat) (calls : List Nat), st.stack.toList = stack →
      st.stack.size ≤ c.limit → st.calls.toList = back :: calls →
      Yields (leave c l) st (.ok (.jump back))
        { st with stack := .ofList left, calls := .ofList calls }) : GoesBack c l stack left := by
  intro s instr back calls here
  have leaves := h s.store back calls here.stack here.fits here.calls
  rw [← performs_leave here.token] at leaves
  exact follow_of_yields leaves

theorem faults_of_yields {l : Leave} {stack : List Value} {fault : Fault}
    (h : ∀ st : Store ω, st.stack.toList = stack →
      ∃ st', Yields (leave c l) st (.error fault) st') : Faults c l stack fault := by
  intro s instr token same
  obtain ⟨st', fails⟩ := h s.store same
  rw [← performs_leave token] at fails
  exact follow_of_yields fails

/-- A count that is the length of a list is not negative. -/
theorem toNat_of_count {n : Int64} {vs : List Value} (count : n.toInt = vs.length) :
    0 ≤ n.toInt ∧ n.toInt.toNat = vs.length := by
  omega

/-- `dret` drops the values it counts. -/
theorem dropRet_goesBack {d : Int64} {ds : List Value} (count : d.toInt = ds.length)
    (rest : List Value) : GoesBack c .dropRet (.int d :: (ds ++ rest)) rest := by
  obtain ⟨positive, length⟩ := toNat_of_count count
  apply goesBack_of_yields
  intro st back calls stack fits pending
  apply yields_bind (yields_popCount stack positive)
  rw [length]
  exact yields_bind (yields_popMany rfl) (yields_ret pending)

/-- `iret` keeps the values its second count counts, and drops those below them that its first count
counts. -/
theorem keepRet_goesBack {d r : Int64} {ds ks : List Value} (count : d.toInt = ds.length)
    (count' : r.toInt = ks.length) (rest : List Value) :
    GoesBack c .keepRet (.int d :: .int r :: (ks ++ (ds ++ rest))) (ks ++ rest) := by
  obtain ⟨positive, length⟩ := toNat_of_count count
  obtain ⟨positive', length'⟩ := toNat_of_count count'
  apply goesBack_of_yields
  intro st back calls stack fits pending
  rw [st.stack.size_eq, stack] at fits
  simp only [List.length_cons, List.length_append] at fits
  apply yields_bind (yields_popCount stack positive)
  apply yields_bind (yields_popCount rfl positive')
  rw [length, length']
  apply yields_bind (yields_popMany rfl)
  apply yields_bind (yields_popMany rfl)
  have room : rest.length + ks.reverse.length ≤ c.limit := by
    rw [List.length_reverse]
    omega
  have pushed := yields_pushAll st room
  rw [List.reverse_reverse] at pushed
  exact yields_bind pushed (yields_ret pending)

/-- `dret` fails where fewer values are left than it counts. -/
theorem dropRet_faults {d : Int64} {rest : List Value} (few : rest.length < d.toInt) :
    Faults c .dropRet (.int d :: rest) .popFailed := by
  apply faults_of_yields
  intro st stack
  have positive : 0 ≤ d.toInt := by omega
  have short : rest.length < d.toInt.toNat := by omega
  obtain ⟨st', fails⟩ := yields_popMany_short st short
  exact ⟨st', yields_bind (yields_popCount stack positive) (yields_bind_error _ fails)⟩

/-- `iret` fails where fewer values are left than its two counts count. -/
theorem keepRet_faults {d r : Int64} {rest : List Value} (positive : 0 ≤ d.toInt)
    (positive' : 0 ≤ r.toInt) (few : rest.length < d.toInt + r.toInt) :
    Faults c .keepRet (.int d :: .int r :: rest) .popFailed := by
  apply faults_of_yields
  intro st stack
  by_cases short : rest.length < r.toInt.toNat
  · obtain ⟨st', fails⟩ := yields_popMany_short st short
    refine ⟨st', yields_bind (yields_popCount stack positive) ?_⟩
    exact yields_bind (yields_popCount rfl positive') (yields_bind_error _ fails)
  · -- what is kept is there, but not all that is dropped
    obtain ⟨ks, others, rfl, kept⟩ : ∃ ks others, rest = ks ++ others ∧ r.toInt = ks.length :=
      ⟨rest.take r.toInt.toNat, rest.drop r.toInt.toNat, (List.take_append_drop _ _).symm,
        by rw [List.length_take]; omega⟩
    rw [List.length_append] at few
    have fewer : others.length < d.toInt.toNat := by omega
    obtain ⟨st', fails⟩ := yields_popMany_short st fewer
    refine ⟨st', yields_bind (yields_popCount stack positive) ?_⟩
    apply yields_bind (yields_popCount rfl positive')
    rw [(toNat_of_count kept).2]
    exact yields_bind (yields_popMany rfl) (yields_bind_error _ fails)

/-- Both fail on a negative count. -/
theorem faults_negative {l : Leave} (counted : l = .dropRet ∨ l = .keepRet) {n : Int64}
    (negative : n.toInt < 0) (rest : List Value) :
    Faults c l (.int n :: rest) (.negativeCount n) := by
  apply faults_of_yields
  intro st stack
  refine ⟨{ st with stack := .ofList rest }, ?_⟩
  rcases counted with rfl | rfl <;>
    exact yields_bind_error _ (yields_popCount_negative stack negative)

/-- The exact effect of the counted returns, on stacks with the top first. -/
structure CountsExactly (c : Setup ω) : Prop where
  drops : ∀ (d : Int64) (ds zs : List Value), d.toInt = ds.length →
    GoesBack c .dropRet (.int d :: (ds ++ zs)) zs
  keeps : ∀ (d r : Int64) (ks ds zs : List Value), d.toInt = ds.length → r.toInt = ks.length →
    GoesBack c .keepRet (.int d :: .int r :: (ks ++ (ds ++ zs))) (ks ++ zs)
  tooFew : ∀ (d : Int64) (rest : List Value), rest.length < d.toInt →
    Faults c .dropRet (.int d :: rest) .popFailed
  tooFew' : ∀ (d r : Int64) (rest : List Value), 0 ≤ d.toInt → 0 ≤ r.toInt →
    rest.length < d.toInt + r.toInt → Faults c .keepRet (.int d :: .int r :: rest) .popFailed
  negative : ∀ (n : Int64) (rest : List Value), n.toInt < 0 →
    Faults c .dropRet (.int n :: rest) (.negativeCount n) ∧
    Faults c .keepRet (.int n :: rest) (.negativeCount n)

theorem countsExactly (c : Setup ω) : CountsExactly c where
  drops _ _ zs count := dropRet_goesBack count zs
  keeps _ _ _ _ zs count count' := keepRet_goesBack count count' zs
  tooFew _ _ few := dropRet_faults few
  tooFew' _ _ _ positive positive' few := keepRet_faults positive positive' few
  negative _ rest below :=
    ⟨faults_negative (.inl rfl) below rest, faults_negative (.inr rfl) below rest⟩

end Chore.Machine
