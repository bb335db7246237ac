import Chore.Proofs.Machine.Path

/-!
# Instructions by the store they leave

`Yields` says of a part of an instruction what it comes to from a store on, and which store it leaves,
whatever is recorded on the way. There is a rule for each part, and `yields_bind` puts them together
along a `do` block. From what an instruction yields follows where it leads (`follow_of_yields`). The
words that only work on values are then functions of their operands (`Computes`).
-/

set_option autoImplicit false

namespace Chore.Machine

section Actions

variable {ω α β : Type} {st st' st'' : Store ω} {rest : List Value} {op : Word}

/-- From a store on, an action comes to a result and leaves another store, whatever is recorded. -/
def Yields (m : Action ω α) (st : Store ω) (r : Except Fault α) (st' : Store ω) : Prop :=
  ∀ events, ∃ events', m { st with events } = (r, { st' with events := events' })

theorem yields_pure (a : α) (st : Store ω) : Yields (pure a : Action ω α) st (.ok a) st :=
  fun events => ⟨events, rfl⟩

theorem yields_bind {m : Action ω α} {g : α → Action ω β} {a : α} {r : Except Fault β}
    (first : Yields m st (.ok a) st') (second : Yields (g a) st' r st'') :
    Yields (m >>= g) st r st'' := by
  intro events
  obtain ⟨events', did⟩ := first events
  obtain ⟨events'', ends⟩ := second events'
  exact ⟨events'', (Attempt.bind_apply_ok did g).trans ends⟩

theorem yields_bind_error {m : Action ω α} {fault : Fault} (g : α → Action ω β)
    (first : Yields m st (.error fault) st') : Yields (m >>= g) st (.error fault) st' := by
  intro events
  obtain ⟨events', fails⟩ := first events
  exact ⟨events', Attempt.bind_apply_error fails g⟩

theorem yields_fail (fault : Fault) (st : Store ω) :
    Yields (.fail fault : Action ω α) st (.error fault) st :=
  fun events => ⟨events, rfl⟩

theorem yields_ofExcept (r : Except Fault α) (st : Store ω) :
    Yields (.ofExcept r : Action ω α) st r st :=
  fun events => ⟨events, rfl⟩

/-! ## Taking values -/

theorem yields_pop {v : Value} (h : st.stack.toList = v :: rest) :
    Yields pop st (.ok v) { st with stack := .ofList rest } := by
  intro events
  have top : st.stack.pop? = some (v, .ofList rest) := Stack.pop?_eq_some_iff.2 h
  exact ⟨.popped v :: events, by simp [pop, top]⟩

theorem yields_pop_empty (h : st.stack.toList = []) :
    Yields (pop : Action ω Value) st (.error .popFailed) st := by
  intro events
  have empty : st.stack.pop? = none := Stack.pop?_eq_none_iff.2 h
  exact ⟨events, by simp [pop, empty]⟩

theorem yields_popPath {dir : String} (h : st.stack.toList = .path dir :: rest) :
    Yields (popPath op) st (.ok dir) { st with stack := .ofList rest } :=
  yields_bind (yields_pop h) fun events => ⟨events, rfl⟩

theorem yields_popText {text : String} (h : st.stack.toList = .text text :: rest) :
    Yields (popText op) st (.ok text) { st with stack := .ofList rest } :=
  yields_bind (yields_pop h) fun events => ⟨events, rfl⟩

theorem yields_popInt {i : Int64} (h : st.stack.toList = .int i :: rest) :
    Yields (popInt op) st (.ok i) { st with stack := .ofList rest } :=
  yields_bind (yields_pop h) fun events => ⟨events, rfl⟩

theorem yields_popCount {n : Int64} (h : st.stack.toList = .int n :: rest) (count : 0 ≤ n.toInt) :
    Yields (popCount op) st (.ok n.toInt.toNat) { st with stack := .ofList rest } := by
  refine yields_bind (yields_popInt h) ?_
  rw [if_pos count]
  exact yields_pure _ _

theorem yields_popCount_negative {n : Int64} (h : st.stack.toList = .int n :: rest)
    (negative : n.toInt < 0) :
    Yields (popCount op) st (.error (.negativeCount n)) { st with stack := .ofList rest } := by
  refine yields_bind (yields_popInt h) ?_
  rw [if_neg (Int.not_le.2 negative)]
  exact yields_fail _ _

theorem yields_popMany {vs : List Value} (h : st.stack.toList = vs ++ rest) :
    Yields (popMany vs.length) st (.ok vs) { st with stack := .ofList rest } := by
  induction vs generalizing st with
  | nil =>
    have same : st.stack = .ofList rest := Stack.ext h
    rw [← same]
    exact yields_pure [] st
  | cons v vs ih => exact yields_bind (yields_pop h) (yields_bind (ih rfl) (yields_pure _ _))

/-- More values than there are cannot be taken. -/
theorem yields_popMany_short (st : Store ω) {n : Nat} (short : rest.length < n) :
    ∃ st', Yields (popMany n) { st with stack := .ofList rest } (.error .popFailed) st' := by
  induction n generalizing rest with
  | zero => exact absurd short (Nat.not_lt_zero _)
  | succ n ih =>
    cases rest with
    | nil => exact ⟨_, yields_bind_error _ (yields_pop_empty rfl)⟩
    | cons v rest =>
      obtain ⟨st', fails⟩ := ih (Nat.lt_of_succ_lt_succ short)
      exact ⟨st', yields_bind (yields_pop rfl) (yields_bind_error _ fails)⟩

/-! ## Putting values -/

theorem yields_push {c : Setup ω} (room : rest.length < c.limit) (v : Value) :
    Yields (push c v) { st with stack := .ofList rest } (.ok ())
      { st with stack := .ofList (v :: rest) } := by
  intro events
  have grown : (Stack.ofList rest).push v = .ofList (v :: rest) := Stack.ext rfl
  have fits : (Stack.ofList rest).size < c.limit := room
  exact ⟨.pushed v :: events, by simp [push, fits, grown]⟩

theorem yields_pushAll (st : Store ω) {c : Setup ω} {vs : List Value}
    (room : rest.length + vs.length ≤ c.limit) :
    Yields (pushAll c vs) { st with stack := .ofList rest } (.ok ())
      { st with stack := .ofList (vs.reverse ++ rest) } := by
  induction vs generalizing rest with
  | nil => exact yields_pure () _
  | cons v vs ih =>
    rw [List.length_cons] at room
    refine yields_bind (yields_push (by omega) v) ?_
    rw [List.reverse_cons, List.append_assoc]
    exact ih (by rw [List.length_cons]; omega)

/-! ## Asking and returning -/

theorem yields_succeeded (w : Tool) (reply : Except ToolError α) (st : Store ω) :
    Yields (succeeded w reply) st (.ok reply.toOption) st := by
  intro events
  cases reply with
  | ok a => exact ⟨events, rfl⟩
  | error e => exact ⟨_, rfl⟩

theorem yields_ask (c : Setup ω) (r : Request) (st : Store ω) :
    Yields (ask c r) st (.ok (c.host.reply r st.world).1)
      { st with world := (c.host.reply r st.world).2 } :=
  fun _ => ⟨_, rfl⟩

theorem yields_ret {back : Nat} {calls : List Nat} (h : st.calls.toList = back :: calls) :
    Yields ret st (.ok (.jump back)) { st with calls := .ofList calls } := by
  intro events
  have top : st.calls.pop? = some (back, .ofList calls) := Stack.pop?_eq_some_iff.2 h
  exact ⟨events, by simp [ret, top]⟩

end Actions

/-! ## Where an instruction leads -/

section Instructions

variable {ω : Type} {c : Setup ω} {s : State ω} {instr : Instr} {st' : Store ω}

/-- **Where an instruction leads** is told by what it yields. -/
theorem follow_of_yields {r : Except Fault Effect} (h : Yields (perform c instr) s.store r st') :
    s.follow c instr = r.bind (s.advance c st') := by
  obtain ⟨events, performs⟩ := h []
  simp only [State.follow, turn, performs]
  cases r <;> rfl

theorem yields_andNext {m : Action ω Unit} {st : Store ω} {r : Except Fault Unit}
    (h : Yields m st r st') : Yields (andNext m) st (r.map fun _ => .next) st' := by
  cases r with
  | ok _ => exact yields_bind h (yields_pure _ st')
  | error fault => exact yields_bind_error _ h

/-- An instruction that does something and goes on with the next one, unless it fails. -/
theorem follow_of_yields_next {m : Action ω Unit} {r : Except Fault Unit}
    (performs : perform c instr = andNext m) (h : Yields m s.store r st') :
    s.follow c instr = r.map fun _ =>
      { ip := s.ip + 1, counter := s.counter + 1, store := st' } := by
  have performed := yields_andNext h
  rw [← performs] at performed
  rw [follow_of_yields performed]
  cases r <;> rfl

end Instructions

/-! ## Words that work on values -/

section Words

variable {ω : Type} {c : Setup ω} {w : Word}

/-- A word is a function of its operands, top first: wherever it is performed, on a stack within its
limit, it puts a value in their place and changes nothing else, or it fails. -/
def Computes (c : Setup ω) (w : Word) (operands : List Value) (r : Except Fault Value) : Prop :=
  ∀ (s : State ω) (instr : Instr) (rest : List Value), instr.token = .word w →
    s.store.stack.toList = operands ++ rest → s.store.stack.size ≤ c.limit →
      s.follow c instr = r.map fun v =>
        { ip := s.ip + 1
          counter := s.counter + 1
          store := { s.store with stack := .ofList (v :: rest) } }

/-- Giving the result of an operator on values that were taken. -/
theorem yields_result (st : Store ω) {rest : List Value} (room : rest.length < c.limit)
    (r : Except Fault Value) :
    ∃ st', Yields (.ofExcept r >>= fun v => push c v) { st with stack := .ofList rest }
        (r.map fun _ => ()) st' ∧
      ∀ v, r = .ok v → st' = { st with stack := .ofList (v :: rest) } := by
  cases r with
  | ok v =>
    refine ⟨_, yields_bind (yields_ofExcept _ _) (yields_push room v), ?_⟩
    rintro _ ⟨⟩
    rfl
  | error fault => exact ⟨_, yields_bind_error _ (yields_ofExcept _ _), nofun⟩

/-- A word that takes its operands and gives the result of an operator on them. -/
theorem computes_of_yields {operands : List Value} {r : Except Fault Value} {m : Action ω Unit}
    (taking : operands ≠ []) (performs : ∀ instr, instr.token = .word w → perform c instr = andNext m)
    (takes : ∀ (st st' : Store ω) (rest : List Value) (r' : Except Fault Unit),
      st.stack.toList = operands ++ rest →
      Yields (.ofExcept r >>= fun v => push c v) { st with stack := .ofList rest } r' st' →
        Yields m st r' st') :
    Computes c w operands r := by
  intro s instr rest token stack fits
  have size := s.store.stack.size_eq
  have taken := List.length_pos_iff.2 taking
  rw [stack, List.length_append] at size
  have room : rest.length < c.limit := by omega
  obtain ⟨st', gives, result⟩ := yields_result s.store room r
  rw [follow_of_yields_next (performs instr token) (takes _ _ _ _ stack gives)]
  cases r with
  | ok v =>
    rw [result v rfl]
    rfl
  | error fault => rfl

/-- A word on two operands computes its operator. -/
theorem computes_binary {f : Value → Value → Except Fault Value} (b t : Value)
    (performs : ∀ instr, instr.token = .word w → perform c instr = andNext (binary c f)) :
    Computes c w [t, b] (f b t) := by
  refine computes_of_yields (List.cons_ne_nil _ _) performs fun st st' rest r' stack given => ?_
  exact yields_bind (yields_pop stack) (yields_bind (yields_pop rfl) given)

/-- A word on one integer computes its operator. -/
theorem computes_popInt {f : Int64 → Except Fault Value} (n : Int64)
    (performs : ∀ instr, instr.token = .word w →
      perform c instr = andNext do push c (← .ofExcept (f (← popInt w)))) :
    Computes c w [.int n] (f n) := by
  refine computes_of_yields (List.cons_ne_nil _ _) performs fun st st' rest r' stack given => ?_
  exact yields_bind (yields_popInt stack) given

end Words

end Chore.Machine
