import Chore.Proofs.Block.Interpreter
import Chore.Proofs.Machine.Path

/-!
# Instructions of a block

What each instruction of a block does when the machine performs it, said of the block's data.
`At` is a state of the machine seen from outside: an index, data and pending returns. `Meets` says
which state fits the outcome of a block, and `Leads` that the machine gets to one; there is a
lemma `leads_…` for each kind of instruction.
-/

set_option autoImplicit false

namespace Chore.Block

open Machine

variable {ω α : Type} {c : Setup ω} {e : Scope ω} {s t : State ω} {d : Data ω} {k : Stack Nat}

/-- The machine is at an index, with some data and some pending returns. -/
structure At (i : Nat) (k : Stack Nat) (d : Data ω) (s : State ω) : Prop where
  ip : s.ip = i
  store : s.store = d.store k

/-- The instruction at the machine's index fails. -/
structure FailsAt (c : Setup ω) (i : Nat) (token : Token) (fault : Fault) (d : Data ω)
    (s : State ω) : Prop where
  ip : s.ip = i
  fails : ∃ instr, c.program.instructions[s.ip]? = some instr ∧ instr.token = token ∧
    s.follow c instr = .error fault ∧ (turn c s instr).2.data = d

/-- The state of the machine fits the outcome of a block that ends at an index. -/
def Meets (c : Setup ω) (k : Stack Nat) (after : Nat) : Outcome ω → State ω → Prop
  | .done d, s => At after k d s
  | .returned d, s => ∃ i calls, k.pop? = some (i, calls) ∧ At i calls d s
  | .exited d, s => s.ip = c.program.size ∧ s.store.data = d
  | .failed i token fault d, s => FailsAt c i token fault d s

/-- The machine gets to a state that fits an outcome. -/
def Leads (c : Setup ω) (s : State ω) (k : Stack Nat) (after : Nat) (o : Outcome ω) : Prop :=
  ∃ instrs t, Path c s instrs t ∧ Meets c k after o t

theorem Leads.here {after : Nat} {o : Outcome ω} (h : Meets c k after o s) :
    Leads c s k after o :=
  ⟨[], s, .nil s, h⟩

theorem Leads.step {after : Nat} {o : Outcome ω} {instr : Instr} (h : Step c s instr t)
    (g : Leads c t k after o) : Leads c s k after o := by
  obtain ⟨instrs, u, path, meets⟩ := g
  exact ⟨instr :: instrs, u, .cons h path, meets⟩

/-- Running one block behind another. -/
theorem Leads.andThen {mid after : Nat} {x : Option (Outcome ω)}
    {next : Data ω → Option (Outcome ω)} {o : Outcome ω}
    (first : ∀ o, x = some o → Leads c s k mid o)
    (second : ∀ d t, At mid k d t → next d = some o → Leads c t k after o)
    (h : andThen x next = some o) : Leads c s k after o := by
  rcases x with _ | d | d | d | ⟨i, token, fault, d⟩
  · cases h
  · obtain ⟨instrs, t, path, meets⟩ := first _ rfl
    obtain ⟨others, u, path', meets'⟩ := second d t meets h
    exact ⟨instrs ++ others, u, path.append path', meets'⟩
  all_goals
    obtain rfl := Option.some.inj h
    exact first _ rfl

/-! ## Single instructions -/

theorem follow_eq (c : Setup ω) (s : State ω) (instr : Instr) :
    s.follow c instr =
      match (perform c instr { s.store with }).1 with
      | .error fault => .error fault
      | .ok effect => s.advance c (perform c instr { s.store with }).2.toStore effect := rfl

/-- A part of an instruction on the machine's store is that part on its data. -/
theorem does_of_mirrors {m m' : Action ω α} (h : Mirrors m m') (d : Data ω) (k : Stack Nat) :
    ∃ scene, m { d.store k with } = ((d.does m').1, scene) ∧
      scene.toStore = (d.does m').2.store k :=
  ⟨_, h { d.store .empty with } k, rfl⟩

/-- An instruction that comes to an effect. -/
theorem follow_ok {instr : Instr} (effect : Effect) (scene : Scene ω)
    (h : perform c instr { s.store with } = (.ok effect, scene)) :
    s.follow c instr = s.advance c scene.toStore effect := by
  rw [follow_eq, h]

/-- An instruction that comes to a fault. -/
theorem failsAt_of_perform {instr : Instr} {fault : Fault} {i : Nat} (scene : Scene ω)
    (ip : s.ip = i) (fetched : c.program.instructions[i]? = some instr)
    (h : perform c instr { s.store with } = (.error fault, scene)) (data : scene.toStore.data = d) :
    FailsAt c i instr.token fault d s := by
  refine ⟨ip, instr, ip ▸ fetched, rfl, ?_, ?_⟩
  · rw [follow_eq, h]
  · rw [← data]
    simp only [turn, h]

/-- A jump without a condition. -/
theorem step_jump {i n : Nat} {instr : Instr} (here : At i k d s)
    (fetched : c.program.instructions[i]? = some instr)
    (h : perform c instr { d.store k with } = (.ok (.jump n), { d.store k with })) :
    ∃ t, Step c s instr t ∧ At n k d t := by
  rw [← here.store] at h
  exact ⟨_, ⟨here.ip ▸ fetched, follow_ok _ _ h⟩, rfl, here.store⟩

/-- An instruction that does nothing. -/
theorem step_next {i : Nat} {instr : Instr} (here : At i k d s)
    (fetched : c.program.instructions[i]? = some instr)
    (h : perform c instr { d.store k with } = (.ok .next, { d.store k with })) :
    ∃ t, Step c s instr t ∧ At (i + 1) k d t := by
  rw [← here.store] at h
  exact ⟨_, ⟨here.ip ▸ fetched, follow_ok _ _ h⟩, congrArg (· + 1) here.ip, here.store⟩

/-- An instruction that takes a condition: what it does, and which outcome goes on. -/
def Tests (c : Setup ω) (instr : Instr) (m : Mark) (wanted : Bool) : Prop :=
  instr.token = m.token ∧
    perform c instr = (do goOnIf ((← popCondition (.mark m)) == wanted) instr : Action ω Effect)

theorem tests_branch (c : Setup ω) (b : BranchKind) (next : Option Nat) :
    Tests c { token := b.mark.token, next } b.mark b.enters := by
  refine ⟨rfl, ?_⟩
  cases b
  · refine congrArg (popCondition (.mark .onTrue) >>= ·) (funext ?_)
    intro b
    cases b <;> rfl
  · refine congrArg (popCondition (.mark .onFalse) >>= ·) (funext ?_)
    intro b
    cases b <;> rfl

theorem tests_loop (c : Setup ω) (l : LoopKind) (header : Nat) (next : Option Nat) :
    Tests c { token := Mark.test.token, next, role := .test l header } .test l.goesOn :=
  ⟨rfl, rfl⟩

/-- A condition is taken, and its outcome says where the machine goes on. -/
theorem step_tests {i n : Nat} {instr : Instr} {m : Mark} {wanted : Bool} (here : At i k d s)
    (fetched : c.program.instructions[i]? = some instr) (tests : Tests c instr m wanted)
    (target : instr.next = some n) :
    match d.does (popCondition (.mark m)) with
    | (.ok b, d) => ∃ t, Step c s instr t ∧ At (if b = wanted then i + 1 else n) k d t
    | (.error fault, d) => FailsAt c i m.token fault d s := by
  obtain ⟨token, performs⟩ := tests
  obtain ⟨scene, popped, store⟩ := does_of_mirrors (mirrors_popCondition (.mark m)) d k
  rcases hd : d.does (popCondition (.mark m)) with ⟨fault | b, after⟩ <;> rw [hd] at popped store
  · rw [← token]
    refine failsAt_of_perform scene here.ip fetched ?_ (by rw [store]; rfl)
    rw [here.store, performs, Attempt.bind_apply, popped]
  · by_cases hb : b = wanted
    · refine ⟨_, ⟨here.ip ▸ fetched, follow_ok .next scene ?_⟩, ?_, store⟩
      · rw [here.store, performs, Attempt.bind_apply, popped, hb]
        simp [goOnIf]
      · rw [if_pos hb]
        exact congrArg (· + 1) here.ip
    · refine ⟨_, ⟨here.ip ▸ fetched, follow_ok (.jump n) scene ?_⟩, ?_, store⟩
      · rw [here.store, performs, Attempt.bind_apply, popped]
        simp only [beq_eq_false_iff_ne.2 hb, goOnIf]
        simp [Attempt.bind_apply, Machine.target, target]
      · rw [if_neg hb]

/-- The machine is set up for what blocks are run in. -/
structure Serves (c : Setup ω) (e : Scope ω) : Prop where
  host : c.host = e.host
  limit : c.limit = e.limit
  unknown : ∀ name, e.find? name = none → c.program.procedure? name = none
  known : ∀ name d, e.find? name = some d →
    c.program.procedure? name = some d.procedure ∧ d.Stands c.program

/-- A token that only works on values. -/
theorem leads_work (serves : Serves c e) {i : Nat} {token : Token} (data : token.isData = true)
    (here : At i k d s) (fetched : c.program.instructions[i]? = some { token }) :
    Leads c s k (i + 1) (e.work i token d) := by
  have mirrors : Mirrors (perform c { token }) (perform e.setup { token }) :=
    perform_mirrors serves.host serves.limit data
  obtain ⟨scene, performed, store⟩ := does_of_mirrors mirrors d k
  unfold Scope.work
  rcases hd : d.does (perform e.setup { token }) with ⟨fault | effect, after⟩ <;>
    rw [hd] at performed store <;> rw [← here.store] at performed
  · exact .here (failsAt_of_perform scene here.ip fetched performed (by rw [store]; rfl))
  · obtain rfl := effect_of_isData data performed
    exact .step ⟨here.ip ▸ fetched, follow_ok _ _ performed⟩
      (.here ⟨congrArg (· + 1) here.ip, store⟩)

/-- A word that leaves a procedure takes what it needs from the stack and then goes. -/
theorem leave_eq (c : Setup ω) (l : Leave) :
    Machine.leave c l = (unwind c l >>= fun _ => if l = .exit then pure .exit else ret) := by
  cases l with
  | ret => rfl
  | exit => rfl
  | dropRet => simp only [Machine.leave, unwind, Attempt.bind_assoc]; rfl
  | keepRet => simp only [Machine.leave, unwind, Attempt.bind_assoc]; rfl

theorem mirrors_unwind {c c' : Setup ω} (limit : c.limit = c'.limit) (l : Leave) :
    Mirrors (unwind c l) (unwind c' l) := by
  cases l with
  | ret => exact mirrors_pure ()
  | exit => exact mirrors_pure ()
  | dropRet =>
    exact mirrors_bind (mirrors_popCount _) fun n => mirrors_bind (mirrors_popMany n) fun _ =>
      mirrors_pure ()
  | keepRet =>
    exact mirrors_bind (mirrors_popCount _) fun drop =>
      mirrors_bind (mirrors_popCount _) fun keep =>
      mirrors_bind (mirrors_popMany keep) fun _ => mirrors_bind (mirrors_popMany drop) fun _ =>
        mirrors_pushAll limit _

theorem pop?_eq_none_of_size {k : Stack Nat} (h : k.size = 0) : k.pop? = none :=
  Stack.pop?_eq_none_iff.2 (List.length_eq_zero_iff.1 (k.size_eq ▸ h))

theorem exists_pop?_of_size {k : Stack Nat} (h : k.size ≠ 0) :
    ∃ i calls, k.pop? = some (i, calls) := by
  cases hp : k.pop? with
  | some p => exact ⟨p.1, p.2, rfl⟩
  | none => exact absurd (by rw [k.size_eq, Stack.pop?_eq_none_iff.1 hp]; rfl) h

/-- A word that leaves a procedure, or the program. -/
theorem leads_leave (serves : Serves c e) {i : Nat} {l : Leave} (here : At i k d s) (after : Nat)
    (fetched : c.program.instructions[i]? = some { token := .word (.leave l) }) :
    Leads c s k after (e.leave k.size i l d) := by
  have mirrors : Mirrors (unwind c l) (unwind e.setup l) := mirrors_unwind serves.limit l
  obtain ⟨scene, unwound, store⟩ := does_of_mirrors mirrors d k
  have performs : perform c { token := .word (.leave l) } { s.store with } =
      (unwind c l >>= fun _ => if l = .exit then pure .exit else ret) { d.store k with } := by
    rw [here.store, ← leave_eq]
    rfl
  rw [Attempt.bind_apply, unwound] at performs
  unfold Scope.leave
  rcases hd : d.does (unwind e.setup l) with ⟨fault | _, after⟩ <;> rw [hd] at performs store
  · exact .here (failsAt_of_perform scene here.ip fetched performs (by rw [store]; rfl))
  · by_cases exits : l = .exit
    · simp only [exits, if_true] at performs ⊢
      exact .step ⟨here.ip ▸ exits ▸ fetched, follow_ok _ _ performs⟩
        (.here ⟨rfl, by rw [store]; rfl⟩)
    · simp only [exits, if_false] at performs ⊢
      have calls : scene.calls = k := congrArg Store.calls store
      by_cases top : k.size = 0
      · rw [if_pos top]
        rw [ret, calls, pop?_eq_none_of_size top] at performs
        exact .here (failsAt_of_perform scene here.ip fetched performs (by rw [store]; rfl))
      · rw [if_neg top]
        obtain ⟨n, rest, popped⟩ := exists_pop?_of_size top
        rw [ret, calls, popped] at performs
        refine .step ⟨here.ip ▸ fetched, follow_ok _ _ performs⟩ (.here ⟨n, rest, popped, rfl, ?_⟩)
        exact congrArg (fun store : Store ω => { store with calls := rest }) store

/-- A call saves where to go on. -/
theorem step_call (serves : Serves c e) {i : Nat} {name : String} {p : Declaration}
    (found : e.find? name = some p) (room : k.size < e.limit) (here : At i k d s)
    (fetched : c.program.instructions[i]? = some { token := .name name }) :
    ∃ t, Step c s { token := .name name } t ∧ At p.start (k.push (i + 1)) d t := by
  have performs : perform c { token := .name name } { s.store with } =
      (.ok (.call p.start), { s.store with }) := by
    simp only [perform_eq, (serves.known name p found).1]
    rfl
  have full : s.store.calls.size < c.limit := by
    rw [here.store, serves.limit]
    exact room
  refine ⟨{ ip := p.start, counter := s.counter + 1,
            store := { s.store with calls := s.store.calls.push (s.ip + 1) } },
    ⟨here.ip ▸ fetched, ?_⟩, rfl, ?_⟩
  · rw [follow_ok _ _ performs]
    simp only [State.advance, full, if_true]
  · rw [here.store, here.ip]
    rfl

/-- A call that has no room, or nothing to call. -/
theorem failsAt_call (serves : Serves c e) {i : Nat} {name : String} (here : At i k d s)
    (fetched : c.program.instructions[i]? = some { token := .name name }) :
    (e.find? name = none → FailsAt c i (.name name) (.unknownOperator name) d s) ∧
      (∀ p, e.find? name = some p → ¬k.size < e.limit →
        FailsAt c i (.name name) .pushFailed d s) := by
  constructor
  · intro unknown
    refine failsAt_of_perform { s.store with } here.ip fetched ?_ (by rw [here.store]; rfl)
    simp only [perform_eq, serves.unknown name unknown]
    rfl
  · intro p found room
    have performs : perform c { token := .name name } { s.store with } =
        (.ok (.call p.start), { s.store with }) := by
      simp only [perform_eq, (serves.known name p found).1]
      rfl
    have full : ¬s.store.calls.size < c.limit := by
      rw [here.store, serves.limit]
      exact room
    refine ⟨here.ip, _, here.ip ▸ fetched, rfl, ?_, ?_⟩
    · rw [follow_ok _ _ performs]
      simp only [State.advance, full, if_false]
    · change (perform c { token := .name name } { s.store with }).2.toStore.data = d
      rw [performs, here.store]
      rfl

/-- A call: the body is run on top of the return address, and left behind it. -/
theorem leads_call (serves : Serves c e) {i : Nat} {name : String} {p : Declaration}
    (found : e.find? name = some p) (room : k.size < e.limit) (here : At i k d s)
    (fetched : c.program.instructions[i]? = some { token := .name name }) {o : Outcome ω}
    (body : ∀ t, At p.start (k.push (i + 1)) d t →
      Leads c t (k.push (i + 1)) (p.start + p.body.size) o) :
    Leads c s k (i + 1) o.ofBody := by
  obtain ⟨entry, call, inside⟩ := step_call serves found room here fetched
  obtain ⟨instrs, t, path, meets⟩ := body entry inside
  rcases o with d | d | d | ⟨j, token, fault, d⟩
  · -- the body ran to its end: the `end` behind it goes back
    have performs : perform c { token := Mark.close.token, role := .close .procedure }
        { t.store with } = (.ok (.jump (i + 1)), { d.store k with }) := by
      rw [meets.store]
      simp only [perform_eq, Mark.token, word_eq, mark, ret, Data.store, Stack.pop?_push]
    have back : Step c t { token := Mark.close.token, role := .close .procedure } _ :=
      ⟨meets.ip ▸ (serves.known name p found).2.close, follow_ok _ _ performs⟩
    exact ⟨_, _, .cons call (path.append (.one back)), rfl, rfl⟩
  · obtain ⟨n, calls, popped, meets⟩ := meets
    rw [Stack.pop?_push] at popped
    cases popped
    exact ⟨_, t, .cons call path, meets⟩
  · exact ⟨_, t, .cons call path, meets⟩
  · exact ⟨_, t, .cons call path, meets⟩

/-! ## Whole blocks -/

theorem isData_of_isPlain {token : Token} (plain : token.isPlain = true)
    (call : ∀ name, token ≠ .name name) (leaves : ∀ l, token ≠ .word (.leave l)) :
    token.isData = true := by
  cases token with
  | literal v => rfl
  | header sig => cases plain
  | name s => exact absurd rfl (call s)
  | word w =>
    cases w with
    | mark m => cases plain
    | leave l => exact absurd rfl (leaves l)
    | _ => rfl

/-- A condition, and then whatever it leads to. -/
theorem leads_condition {i n after : Nat} {instr : Instr} {m : Mark} {wanted : Bool}
    (here : At i k d s) (fetched : c.program.instructions[i]? = some instr)
    (tests : Tests c instr m wanted) (target : instr.next = some n)
    {next : Bool → Data ω → Option (Outcome ω)} {o : Outcome ω}
    (go : ∀ b d t, At (if b = wanted then i + 1 else n) k d t → next b d = some o →
      Leads c t k after o)
    (h : condition i m d next = some o) : Leads c s k after o := by
  have stepped := step_tests here fetched tests target
  unfold condition at h
  rcases hd : d.does (popCondition (.mark m)) with ⟨fault | b, after⟩ <;>
    simp only [hd] at stepped h
  · obtain rfl := Option.some.inj h
    exact .here stepped
  · obtain ⟨t, step, there⟩ := stepped
    exact .step step (go b after t there h)

end Chore.Block
