import Chore.Proofs.Machine.Parts

/-!
# Instructions under a limit

What a limit on the size of the stack does to an instruction, and which faults it can come to.
Every instruction first takes what it works on and asks what it has to ask, and puts its results on
the stack last. So under all limits that the stack fits before it, it comes to one and the same
result if the stack also fits behind it, and to a full stack if not, with nothing else changed:
`Truncates`, which holds of every instruction (`truncates_perform`). Parts that leave the stack no
larger than they find it do not meet the limit at all: `Quiet`. Both say of a set of faults that
the result is none or one of them.
-/

set_option autoImplicit false

namespace Chore

namespace Machine

variable {ω α β : Type}

/-- The same setup with another limit. -/
def Setup.withLimit (c : Setup ω) (limit : Nat) : Setup ω :=
  { c with limit }

/-- A scene has no more values and no more pending returns than one before it. -/
structure Shrinks (s t : Scene ω) : Prop where
  stack : t.stack.size ≤ s.stack.size
  calls : t.calls.size ≤ s.calls.size

theorem Shrinks.refl (s : Scene ω) : Shrinks s s :=
  ⟨Nat.le_refl _, Nat.le_refl _⟩

theorem Shrinks.trans {s t u : Scene ω} (h : Shrinks s t) (g : Shrinks t u) : Shrinks s u :=
  ⟨Nat.le_trans g.stack h.stack, Nat.le_trans g.calls h.calls⟩

/-- Parts of an instruction that do not meet the limit: under all limits that the stack fits they
come to one result, in a scene that is no larger, and to no other fault than some. -/
def Quiet (E : Fault → Prop) (m : Nat → Action ω α) : Prop :=
  ∀ s : Scene ω, ∃ r : Except Fault α × Scene ω,
    (∀ fault, r.1 = .error fault → E fault) ∧ Shrinks s r.2 ∧
      ∀ limit, s.stack.size ≤ limit → m limit s = r

/-- A result under a limit, if `r` is the one without: the same if its stack fits, and else a full
stack and the rest of the scene as in `r`. -/
structure Cut (limit : Nat) (r r' : Except Fault α × Scene ω) : Prop where
  fits : r.2.stack.size ≤ limit → r' = r
  full : limit < r.2.stack.size → r'.1 = .error .pushFailed ∧ r'.2.calls = r.2.calls ∧
    r'.2.memory = r.2.memory ∧ r'.2.world = r.2.world

/-- Parts of an instruction that a limit cuts short: under each limit that the stack fits they come
to one result or are cut. A result that is a fault is one of some, and the scene is no larger
then. -/
def Truncates (E : Fault → Prop) (m : Nat → Action ω α) : Prop :=
  ∀ s : Scene ω, ∃ r : Except Fault α × Scene ω,
    (∀ fault, r.1 = .error fault → E fault ∧ Shrinks s r.2) ∧
      r.2.calls.size ≤ s.calls.size ∧ ∀ limit, s.stack.size ≤ limit → Cut limit r (m limit s)

/-! ## Quiet parts -/

section Rules

variable {E : Fault → Prop}

theorem quiet_bind {m : Nat → Action ω α} {f : Nat → α → Action ω β} (h : Quiet E m)
    (g : ∀ a, Quiet E fun n => f n a) : Quiet E fun n => m n >>= f n := by
  intro s
  obtain ⟨⟨first, t⟩, fault, shrinks, same⟩ := h s
  cases first with
  | error e =>
    refine ⟨(.error e, t), ?_, shrinks, fun limit room => ?_⟩
    · rintro fault' ⟨⟩
      exact fault e rfl
    · exact Attempt.bind_apply_error (same limit room) _
  | ok a =>
    obtain ⟨r, fault', shrinks', same'⟩ := g a t
    refine ⟨r, fault', shrinks.trans shrinks', fun limit room => ?_⟩
    change (m limit >>= f limit) s = r
    rw [Attempt.bind_apply_ok (same limit room)]
    exact same' limit (Nat.le_trans shrinks.stack room)

/-- A part that the limit has no part in. -/
theorem quiet_of_shrinks {m : Action ω α} (shrinks : ∀ s, Shrinks s (m s).2)
    (fault : ∀ s e, (m s).1 = .error e → E e) : Quiet E fun _ => m :=
  fun s => ⟨m s, fault s, shrinks s, fun _ _ => rfl⟩

theorem quiet_pure (a : α) : Quiet E fun _ => (pure a : Action ω α) :=
  quiet_of_shrinks Shrinks.refl nofun

theorem quiet_ofExcept {r : Except Fault α} (h : ∀ fault, r = .error fault → E fault) :
    Quiet E fun _ => (.ofExcept r : Action ω α) :=
  quiet_of_shrinks Shrinks.refl fun _ => h

theorem quiet_fail {fault : Fault} (h : E fault) : Quiet E fun _ => (.fail fault : Action ω α) :=
  quiet_ofExcept fun _ same => Except.error.inj same ▸ h

theorem quiet_get : Quiet E fun _ => (.get : Action ω (Scene ω)) :=
  quiet_of_shrinks Shrinks.refl nofun

theorem quiet_note (n : Note) : Quiet E fun _ => (note n : Action ω Unit) :=
  quiet_of_shrinks (fun _ => ⟨Nat.le_refl _, Nat.le_refl _⟩) nofun

theorem quiet_succeeded (w : Tool) (reply : Except ToolError α) :
    Quiet E fun _ => (succeeded w reply : Action ω (Option α)) := by
  cases reply with
  | ok a => exact quiet_pure _
  | error e => exact quiet_bind (quiet_note _) fun _ => quiet_pure _

theorem quiet_ask (c : Setup ω) (r : Request) : Quiet E fun n => ask (c.withLimit n) r :=
  @quiet_of_shrinks ω _ E (ask c r) (fun _ => ⟨Nat.le_refl _, Nat.le_refl _⟩) nofun

theorem size_pop? {γ : Type} {s t : Stack γ} {a : γ} (h : s.pop? = some (a, t)) :
    s.size = t.size + 1 := by
  rw [s.size_eq, t.size_eq, Stack.pop?_eq_some_iff.1 h, List.length_cons]

theorem quiet_ret (back : E .emptyCallStack) : Quiet E fun _ => (ret : Action ω Effect) := by
  intro s
  cases popped : s.calls.pop? with
  | none =>
    refine ⟨(.error .emptyCallStack, s), ?_, .refl s, fun _ _ => by simp only [ret, popped]⟩
    rintro fault ⟨⟩
    exact back
  | some p =>
    have size := size_pop? popped
    refine ⟨(.ok (.jump p.1), { s with calls := p.2 }), nofun, ⟨Nat.le_refl _, ?_⟩,
      fun _ _ => by simp only [ret, popped]⟩
    simp only
    omega

section Usual

variable (usual : ∀ fault : Fault, fault.isUsual = true → E fault)

include usual

theorem quiet_pop : Quiet E fun _ => (pop : Action ω Value) := by
  intro s
  cases popped : s.stack.pop? with
  | none =>
    refine ⟨(.error .popFailed, s), ?_, .refl s, fun _ _ => by simp only [pop, popped]⟩
    rintro fault ⟨⟩
    exact usual _ rfl
  | some p =>
    have size := size_pop? popped
    refine ⟨(.ok p.1, { s with stack := p.2, events := .popped p.1 :: s.events }), nofun,
      ⟨?_, Nat.le_refl _⟩, fun _ _ => by simp only [pop, popped]⟩
    simp only
    omega

theorem quiet_peek (depth : Nat) : Quiet E fun _ => (peek depth : Action ω Value) := by
  intro s
  cases seen : s.stack.peek? depth with
  | none =>
    refine ⟨(.error .popFailed, s), ?_, .refl s, fun _ _ => by simp only [peek, seen]⟩
    rintro fault ⟨⟩
    exact usual _ rfl
  | some v => exact ⟨(.ok v, s), nofun, .refl s, fun _ _ => by simp only [peek, seen]⟩

theorem quiet_popMany (n : Nat) : Quiet E fun _ => (popMany n : Action ω (List Value)) := by
  induction n with
  | zero => exact quiet_pure []
  | succ n ih => exact quiet_bind (quiet_pop usual) fun v => quiet_bind ih fun vs => quiet_pure _

theorem quiet_popInt (op : Word) : Quiet E fun _ => (popInt op : Action ω Int64) := by
  refine quiet_bind (quiet_pop usual) fun v => ?_
  cases v with
  | int n => exact quiet_pure n
  | _ => exact quiet_fail (usual _ rfl)

theorem quiet_popText (op : Word) : Quiet E fun _ => (popText op : Action ω String) := by
  refine quiet_bind (quiet_pop usual) fun v => ?_
  cases v with
  | text s => exact quiet_pure s
  | _ => exact quiet_fail (usual _ rfl)

theorem quiet_popPath (op : Word) : Quiet E fun _ => (popPath op : Action ω String) := by
  refine quiet_bind (quiet_pop usual) fun v => ?_
  cases v with
  | path p => exact quiet_pure p
  | _ => exact quiet_fail (usual _ rfl)

theorem quiet_popLocation (op : Word) : Quiet E fun _ => (popLocation op : Action ω String) := by
  refine quiet_bind (quiet_pop usual) fun v => ?_
  cases v with
  | int n => exact quiet_fail (usual _ rfl)
  | _ => exact quiet_pure _

theorem quiet_popCondition (op : Word) :
    Quiet E fun _ => (popCondition op : Action ω Bool) := by
  refine quiet_bind (quiet_pop usual) fun v => ?_
  cases v.truthy with
  | none => exact quiet_fail (usual _ rfl)
  | some b => exact quiet_pure b

theorem quiet_popCount (op : Word) : Quiet E fun _ => (popCount op : Action ω Nat) := by
  refine quiet_bind (quiet_popInt usual op) fun n => ?_
  by_cases h : 0 ≤ n.toInt
  · simp only [if_pos h]
    exact quiet_pure _
  · simp only [if_neg h]
    exact quiet_fail (usual _ rfl)

theorem quiet_print (c : Setup ω) : Quiet E fun n => print (c.withLimit n) := by
  refine quiet_bind (quiet_pop usual) fun v s => ?_
  rcases written : c.host.write (v.display ++ "\n") s.world with ⟨reason | _, world⟩
  · refine ⟨(.error (.output reason), { s with world }), ?_, ⟨Nat.le_refl _, Nat.le_refl _⟩,
      fun _ _ => by simp only [Setup.withLimit, written]⟩
    rintro fault ⟨⟩
    exact usual _ rfl
  · exact ⟨(.ok (), { s with world }), nofun, ⟨Nat.le_refl _, Nat.le_refl _⟩,
      fun _ _ => by simp only [Setup.withLimit, written]⟩

theorem quiet_target (instr : Instr) : Quiet E fun _ => (target instr : Action ω Nat) := by
  unfold target
  cases instr.next with
  | none => exact quiet_fail (usual _ rfl)
  | some n => exact quiet_pure n

theorem quiet_goOnIf (b : Bool) (instr : Instr) :
    Quiet E fun _ => (goOnIf b instr : Action ω Effect) := by
  cases b with
  | true => exact quiet_pure _
  | false => exact quiet_bind (quiet_target usual instr) fun n => quiet_pure _

theorem quiet_mark (instr : Instr) (m : Mark)
    (back : m = .close → instr.role = .close .procedure → E .emptyCallStack) :
    Quiet E fun _ => (mark instr m : Action ω Effect) := by
  cases m with
  | onTrue => exact quiet_bind (quiet_popCondition usual _) fun b => quiet_goOnIf usual b instr
  | onFalse => exact quiet_bind (quiet_popCondition usual _) fun b => quiet_goOnIf usual (!b) instr
  | whileTrue => exact quiet_pure _
  | untilTrue => exact quiet_pure _
  | test =>
    obtain ⟨token, next, role⟩ := instr
    cases role with
    | test kind header =>
      exact quiet_bind (quiet_popCondition usual _) fun b => quiet_goOnIf usual _ _
    | _ => exact quiet_fail (usual _ rfl)
  | otherwise => exact quiet_bind (quiet_target usual instr) fun n => quiet_pure _
  | close =>
    obtain ⟨token, next, role⟩ := instr
    cases role with
    | close what =>
      cases what with
      | branch => exact quiet_pure _
      | loop header => exact quiet_pure _
      | procedure => exact quiet_ret (back rfl rfl)
    | _ => exact quiet_fail (usual _ rfl)

end Usual

end Rules

/-! ## Pushing -/

/-- A scene with more values on the stack, the last of them on top. -/
def Scene.put (s : Scene ω) : List Value → Scene ω
  | [] => s
  | v :: vs => put { s with stack := s.stack.push v, events := .pushed v :: s.events } vs

theorem Scene.size_put (s : Scene ω) (vs : List Value) :
    (s.put vs).stack.size = s.stack.size + vs.length := by
  induction vs generalizing s with
  | nil => rfl
  | cons v vs ih =>
    rw [put, ih, Stack.size_push, List.length_cons]
    omega

theorem Scene.put_rest (s : Scene ω) (vs : List Value) :
    (s.put vs).calls = s.calls ∧ (s.put vs).memory = s.memory ∧ (s.put vs).world = s.world := by
  induction vs generalizing s with
  | nil => exact ⟨rfl, rfl, rfl⟩
  | cons v vs ih => exact ih _

/-- Values that the stack has room for. -/
theorem pushAll_of_room {c : Setup ω} {s : Scene ω} {vs : List Value}
    (room : s.stack.size + vs.length ≤ c.limit) : pushAll c vs s = (.ok (), s.put vs) := by
  induction vs generalizing s with
  | nil => rfl
  | cons v vs ih =>
    rw [List.length_cons] at room
    have pushed : push c v s =
        (.ok (), { s with stack := s.stack.push v, events := .pushed v :: s.events }) := by
      rw [push, if_pos (by omega)]
    rw [pushAll, Attempt.bind_apply_ok pushed, ih (by simp only [Stack.size_push]; omega)]
    rfl

/-- Values that the stack has no room for, however many of them it takes. -/
theorem pushAll_of_full {c : Setup ω} {s : Scene ω} {vs : List Value}
    (room : s.stack.size ≤ c.limit) (full : c.limit < s.stack.size + vs.length) :
    (pushAll c vs s).1 = .error .pushFailed ∧ (pushAll c vs s).2.calls = s.calls ∧
      (pushAll c vs s).2.memory = s.memory ∧ (pushAll c vs s).2.world = s.world := by
  induction vs generalizing s with
  | nil =>
    simp only [List.length_nil] at full
    omega
  | cons v vs ih =>
    rw [List.length_cons] at full
    by_cases more : s.stack.size < c.limit
    · have pushed : push c v s =
          (.ok (), { s with stack := s.stack.push v, events := .pushed v :: s.events }) := by
        rw [push, if_pos more]
      rw [pushAll, Attempt.bind_apply_ok pushed]
      exact ih (by simp only [Stack.size_push]; omega) (by simp only [Stack.size_push]; omega)
    · have refused : push c v s = (.error .pushFailed, s) := by
        rw [push, if_neg more]
      rw [pushAll, Attempt.bind_apply_error refused]
      exact ⟨rfl, rfl, rfl, rfl⟩

/-- The values taken are those the stack lacks. -/
theorem size_popMany {n : Nat} {s t : Scene ω} {vs : List Value}
    (h : popMany n s = (.ok vs, t)) : t.stack.size + vs.length = s.stack.size := by
  induction n generalizing s vs with
  | zero =>
    obtain ⟨taken, rfl⟩ := Prod.mk.inj h
    obtain rfl := Except.ok.inj taken
    rfl
  | succ n ih =>
    rw [popMany, Attempt.bind_apply] at h
    cases popped : s.stack.pop? with
    | none =>
      simp only [pop, popped] at h
      cases h
    | some p =>
      obtain ⟨v, stack⟩ := p
      simp only [pop, popped, Attempt.bind_apply] at h
      rcases rest : popMany n { s with stack, events := .popped v :: s.events } with ⟨_ | ws, u⟩
      · rw [rest] at h
        cases h
      · rw [rest] at h
        obtain ⟨taken, rfl⟩ := Prod.mk.inj h
        obtain rfl := Except.ok.inj taken
        have count := ih rest
        have size := size_pop? popped
        simp only [List.length_cons] at count ⊢
        omega

/-! ## Parts that a limit cuts short -/

section Cuts

variable {E : Fault → Prop}

theorem Quiet.truncates {m : Nat → Action ω α} (h : Quiet E m) : Truncates E m := by
  intro s
  obtain ⟨r, fault, shrinks, same⟩ := h s
  have size := shrinks.stack
  refine ⟨r, fun e failed => ⟨fault e failed, shrinks⟩, shrinks.calls, fun limit room => ?_⟩
  exact ⟨fun _ => same limit room, fun full => by omega⟩

theorem truncates_bind {m : Nat → Action ω α} {f : Nat → α → Action ω β} (h : Quiet E m)
    (g : ∀ a, Truncates E fun n => f n a) : Truncates E fun n => m n >>= f n := by
  intro s
  obtain ⟨⟨first, t⟩, fault, shrinks, same⟩ := h s
  have size := shrinks.stack
  simp only at size
  cases first with
  | error e =>
    refine ⟨(.error e, t), ?_, shrinks.calls, fun limit room => ⟨fun _ => ?_, fun full => ?_⟩⟩
    · rintro fault' ⟨⟩
      exact ⟨fault e rfl, shrinks⟩
    · exact Attempt.bind_apply_error (same limit room) _
    · simp only at full
      omega
  | ok a =>
    obtain ⟨r, fault', calls, cut⟩ := g a t
    refine ⟨r, fun e failed => ?_, Nat.le_trans calls shrinks.calls, fun limit room => ?_⟩
    · obtain ⟨usual, shrinks'⟩ := fault' e failed
      exact ⟨usual, shrinks.trans shrinks'⟩
    · change Cut limit r ((m limit >>= f limit) s)
      rw [Attempt.bind_apply_ok (same limit room)]
      exact cut limit (by omega)

theorem truncates_pushAll (c : Setup ω) (vs : List Value) :
    Truncates E fun n => pushAll (c.withLimit n) vs := by
  intro s
  obtain ⟨calls, memory, world⟩ := s.put_rest vs
  refine ⟨(.ok (), s.put vs), nofun, calls ▸ Nat.le_refl _,
    fun limit room => ⟨fun fits => ?_, ?_⟩⟩
  · exact pushAll_of_room (by rwa [s.size_put] at fits)
  · intro full
    rw [calls, memory, world]
    exact pushAll_of_full room (by rwa [s.size_put] at full)

theorem push_eq_pushAll (c : Setup ω) (v : Value) : push c v = pushAll c [v] := by
  funext s
  rw [pushAll, Attempt.bind_apply]
  rcases push c v s with ⟨_ | _, t⟩ <;> rfl

theorem truncates_push (c : Setup ω) (v : Value) :
    Truncates E fun n => push (c.withLimit n) v := by
  simp only [push_eq_pushAll]
  exact truncates_pushAll c [v]

/-- What follows the last push leaves the scene alone. -/
theorem Truncates.andNext {m : Nat → Action ω Unit} (h : Truncates E m) :
    Truncates E fun n => andNext (m n) := by
  intro s
  obtain ⟨⟨first, t⟩, fault, calls, cut⟩ := h s
  have full {limit : Nat} (cut : Cut limit (first, t) (m limit s)) (large : limit < t.stack.size) :
      (Machine.andNext (m limit) s).1 = .error .pushFailed ∧
        (Machine.andNext (m limit) s).2.calls = t.calls ∧
        (Machine.andNext (m limit) s).2.memory = t.memory ∧
        (Machine.andNext (m limit) s).2.world = t.world := by
    obtain ⟨fault, rest⟩ := cut.full large
    have failed : m limit s = (.error .pushFailed, (m limit s).2) := Prod.ext fault rfl
    rw [Machine.andNext, Attempt.bind_apply_error failed]
    exact ⟨rfl, rest⟩
  cases first with
  | error e =>
    refine ⟨(.error e, t), ?_, calls, fun limit room => ⟨fun fits => ?_, full (cut limit room)⟩⟩
    · rintro fault' ⟨⟩
      exact fault e rfl
    · exact Attempt.bind_apply_error ((cut limit room).fits fits) _
  | ok u =>
    refine ⟨(.ok .next, t), nofun, calls,
      fun limit room => ⟨fun fits => ?_, full (cut limit room)⟩⟩
    exact Attempt.bind_apply_ok ((cut limit room).fits fits) _

/-- A request, a note if it failed, and values for how it went. -/
theorem truncates_ask_then (c : Setup ω) (w : Tool) (r : Request)
    (reply : r.Reply → Except ToolError α)
    {results : Nat → Option α → Action ω Unit} (h : ∀ o, Truncates E fun n => results n o) :
    Truncates E fun n =>
      ask (c.withLimit n) r >>= fun x => succeeded w (reply x) >>= results n :=
  truncates_bind (quiet_ask c r) fun _ => truncates_bind (quiet_succeeded w _) h

end Cuts

section Words

/-! ## Words -/

variable (c : Setup ω) {E : Fault → Prop} (usual : ∀ fault : Fault, fault.isUsual = true → E fault)

include usual

theorem truncates_binary {f : Value → Value → Except Fault Value}
    (faults : ∀ b t fault, f b t = .error fault → fault.isUsual = true) :
    Truncates E fun n => binary (c.withLimit n) f :=
  truncates_bind (quiet_pop usual) fun _ => truncates_bind (quiet_pop usual) fun _ =>
    truncates_bind (quiet_ofExcept fun e h => usual e (faults _ _ e h)) fun v => truncates_push c v

theorem truncates_convert (w : Conversion) : Truncates E fun n => convert (c.withLimit n) w := by
  cases w with
  | toText => exact truncates_bind (quiet_pop usual) fun v => truncates_push c _
  | toPath => exact truncates_bind (quiet_popText usual _) fun s => truncates_push c _
  | absolute =>
    exact truncates_bind (quiet_popLocation usual _) fun p => truncates_bind quiet_get fun s =>
      truncates_push c (.path (Path.absolute (c.host.here? s.world) p))
  | relative =>
    exact truncates_bind (quiet_popLocation usual _) fun p => truncates_bind quiet_get fun s =>
      truncates_push c (.path (Path.relative (c.host.here? s.world) p))
  | concat =>
    refine truncates_bind (quiet_popText usual _) fun suffix =>
      truncates_bind (quiet_pop usual) fun v => ?_
    cases v with
    | int n =>
      refine Quiet.truncates ?_
      exact quiet_fail (usual _ rfl)
    | _ => exact truncates_push c _

theorem truncates_access (w : Access) : Truncates E fun n => access (c.withLimit n) w := by
  refine truncates_bind (quiet_popText usual _) fun name => ?_
  cases w with
  | store =>
    refine truncates_bind (quiet_pop usual) fun v => Quiet.truncates ?_
    exact quiet_of_shrinks (fun _ => ⟨Nat.le_refl _, Nat.le_refl _⟩) nofun
  | load =>
    refine truncates_bind quiet_get fun s => ?_
    cases s.memory.load name with
    | none =>
      refine Quiet.truncates ?_
      exact quiet_fail (usual _ rfl)
    | some v => exact truncates_push c v

theorem truncates_shuffle (w : Shuffle) : Truncates E fun n => shuffle (c.withLimit n) w := by
  cases w with
  | dup => exact truncates_bind (quiet_peek usual 0) fun v => truncates_push c v
  | drop => exact (quiet_bind (quiet_pop usual) fun _ => quiet_pure ()).truncates
  | swap =>
    exact truncates_bind (quiet_pop usual) fun a => truncates_bind (quiet_pop usual) fun b =>
      truncates_pushAll c _
  | «over» => exact truncates_bind (quiet_peek usual 1) fun v => truncates_push c v
  | dup2 =>
    exact truncates_bind (quiet_peek usual 1) fun a => truncates_bind (quiet_peek usual 0) fun b =>
      truncates_pushAll c _
  | swap2 =>
    exact truncates_bind (quiet_pop usual) fun w => truncates_bind (quiet_pop usual) fun x =>
      truncates_bind (quiet_pop usual) fun y => truncates_bind (quiet_pop usual) fun z =>
      truncates_pushAll c _

theorem truncates_tool (w : Tool) : Truncates E fun n => tool (c.withLimit n) w := by
  cases w with
  | download =>
    exact truncates_bind (quiet_popPath usual _) fun dest =>
      truncates_bind (quiet_popText usual _) fun url =>
      truncates_ask_then c .download (.download url dest) id fun o => truncates_push c _
  | readFile =>
    refine truncates_bind (quiet_popPath usual _) fun path =>
      truncates_ask_then c .readFile (.readText path) id fun o => ?_
    cases o <;> exact truncates_pushAll c _
  | move =>
    exact truncates_bind (quiet_popPath usual _) fun dst =>
      truncates_bind (quiet_popPath usual _) fun src =>
      truncates_ask_then c .move (.move src dst) id fun o => truncates_push c _
  | copy =>
    refine truncates_bind (quiet_popPath usual _) fun dst =>
      truncates_bind (quiet_popPath usual _) fun src =>
      truncates_ask_then c .copy (.copy src dst) id fun o => ?_
    rcases o with _ | _ | _ <;> exact truncates_pushAll c _
  | exist =>
    exact truncates_bind (quiet_popPath usual _) fun path =>
      truncates_bind (quiet_ask c (.pathExists path)) fun _ => truncates_push c _
  | touch =>
    exact truncates_bind (quiet_popPath usual _) fun path =>
      truncates_ask_then c .touch (.touch path) id fun o => truncates_push c _
  | mkdir =>
    exact truncates_bind (quiet_popPath usual _) fun path =>
      truncates_ask_then c .mkdir (.makeDir path) id fun o => truncates_push c _
  | remove =>
    exact truncates_bind (quiet_popPath usual _) fun path =>
      truncates_ask_then c .remove (.remove path) id fun o => truncates_push c _
  | unzip =>
    refine truncates_bind (quiet_popPath usual _) fun dest =>
      truncates_bind (quiet_popPath usual _) fun archive =>
      truncates_ask_then c .unzip (.unzip archive dest) id fun o => ?_
    cases o <;> exact truncates_pushAll c _
  | countFiles =>
    exact truncates_bind (quiet_popPath usual _) fun dir =>
      truncates_ask_then c .countFiles (.listFiles dir) id fun o => truncates_push c _
  | countDirs =>
    exact truncates_bind (quiet_popPath usual _) fun dir =>
      truncates_ask_then c .countDirs (.listDirs dir) id fun o => truncates_push c _
  | fileAt =>
    exact truncates_bind (quiet_popPath usual _) fun dir =>
      truncates_bind (quiet_popInt usual _) fun index =>
      truncates_ask_then c .fileAt (.listFiles dir)
        (fun names => Except.bind names fun names => entryAt names index dir) fun o =>
          truncates_push c _
  | dirAt =>
    refine truncates_bind (quiet_popPath usual _) fun dir =>
      truncates_bind (quiet_popInt usual _) fun index =>
      truncates_bind (quiet_ask c (.listDirs dir)) fun names => ?_
    cases Except.bind names fun names => entryAt names index dir with
    | ok name => exact truncates_push c _
    | error e =>
      refine Quiet.truncates ?_
      exact quiet_fail (usual _ rfl)

/-- `iret` puts back no more than it took. -/
theorem quiet_putBack (keep drop : Nat) : Quiet E fun n =>
    popMany keep >>= fun kept => popMany drop >>= fun _ =>
      pushAll (c.withLimit n) kept.reverse := by
  intro s
  obtain ⟨⟨first, t⟩, fault, shrinks, same⟩ := quiet_popMany usual keep s
  have taken : popMany keep s = (first, t) := same _ (Nat.le_refl _)
  cases first with
  | error e =>
    refine ⟨(.error e, t), ?_, shrinks, fun _ _ => Attempt.bind_apply_error taken _⟩
    rintro fault' ⟨⟩
    exact fault e rfl
  | ok kept =>
    have count := size_popMany taken
    obtain ⟨⟨second, u⟩, fault', shrinks', same'⟩ := quiet_popMany usual drop t
    have dropped : popMany drop t = (second, u) := same' _ (Nat.le_refl _)
    have size := shrinks'.stack
    simp only at size
    cases second with
    | error e =>
      refine ⟨(.error e, u), ?_, shrinks.trans shrinks', fun limit room => ?_⟩
      · rintro fault'' ⟨⟩
        exact fault' e rfl
      · exact (Attempt.bind_apply_ok taken _).trans (Attempt.bind_apply_error dropped _)
    | ok vs =>
      refine ⟨(.ok (), u.put kept.reverse), nofun, ⟨?_, ?_⟩, fun limit room => ?_⟩
      · rw [u.size_put, List.length_reverse]
        omega
      · rw [(u.put_rest _).1]
        exact (shrinks.trans shrinks').calls
      · refine (Attempt.bind_apply_ok taken _).trans ((Attempt.bind_apply_ok dropped _).trans ?_)
        refine pushAll_of_room ?_
        rw [List.length_reverse]
        change u.stack.size + kept.length ≤ limit
        omega

theorem quiet_leave (l : Leave) (back : l ≠ .exit → E .emptyCallStack) :
    Quiet E fun n => leave (c.withLimit n) l := by
  cases l with
  | ret => exact quiet_ret (back nofun)
  | dropRet =>
    exact quiet_bind (quiet_popCount usual _) fun n => quiet_bind (quiet_popMany usual n) fun _ =>
      quiet_ret (back nofun)
  | keepRet =>
    refine quiet_bind (quiet_popCount usual _) fun drop =>
      quiet_bind (quiet_popCount usual _) fun keep => ?_
    have puts := quiet_bind (quiet_putBack c usual keep drop) fun _ =>
      @quiet_ret ω E (back nofun)
    simpa only [Attempt.bind_assoc] using puts
  | exit => exact quiet_pure _

theorem truncates_word (instr : Instr) (w : Word)
    (leaves : ∀ l, w = .leave l → l ≠ .exit → E .emptyCallStack)
    (ends : w = .mark .close → instr.role = .close .procedure → E .emptyCallStack) :
    Truncates E fun n => word (c.withLimit n) instr w := by
  cases w with
  | print => exact (quiet_print usual c).truncates.andNext
  | convert w => exact (truncates_convert c usual w).andNext
  | access w => exact (truncates_access c usual w).andNext
  | arithmetic w => exact (truncates_binary c usual fun _ _ _ => w.apply_isUsual).andNext
  | count w =>
    refine Truncates.andNext (truncates_bind (quiet_popInt usual _) fun n => ?_)
    exact truncates_bind (quiet_ofExcept fun e h => usual e (w.apply_isUsual h)) fun v =>
      truncates_push c v
  | shuffle w => exact (truncates_shuffle c usual w).andNext
  | mark m =>
    exact (quiet_mark usual instr m fun close => ends (congrArg Word.mark close)).truncates
  | leave l => exact (quiet_leave c usual l (leaves l rfl)).truncates
  | compare w => exact (truncates_binary c usual fun _ _ _ => w.apply_isUsual).andNext
  | bitwise w => exact (truncates_binary c usual fun _ _ _ => w.apply_isUsual).andNext
  | complement =>
    exact (truncates_bind (quiet_popInt usual _) fun n => truncates_push c _).andNext
  | logic w => exact (truncates_binary c usual fun _ _ _ => w.apply_isUsual).andNext
  | negate =>
    exact (truncates_bind (quiet_popCondition usual _) fun b => truncates_push c _).andNext
  | tool w => exact (truncates_tool c usual w).andNext

end Words

/-- An instruction that goes back behind a call. -/
inductive Returns : Instr → Prop where
  | leave {l : Leave} {next : Option Nat} {role : Role} (other : l ≠ .exit) :
      Returns { token := .word (.leave l), next, role }
  | close {next : Option Nat} :
      Returns { token := Mark.close.token, next, role := .close .procedure }

/-- **A limit cuts short**: every instruction comes to the same under all limits that the stack
fits before and behind it, and under the others to a full stack. Only instructions that go back
can find no call to go back behind. -/
theorem truncates_perform (c : Setup ω) {E : Fault → Prop} {instr : Instr}
    (usual : ∀ fault : Fault, fault.isUsual = true → E fault)
    (back : Returns instr → E .emptyCallStack) :
    Truncates E fun n => perform (c.withLimit n) instr := by
  obtain ⟨token, next, role⟩ := instr
  cases token with
  | literal v => exact (truncates_push c v).andNext
  | word w =>
    refine truncates_word c usual _ w ?_ ?_
    · rintro l rfl other
      exact back (.leave other)
    · rintro rfl ends
      obtain rfl : role = .close .procedure := ends
      exact back .close
  | header sig => exact (quiet_bind (quiet_target usual _) fun n => quiet_pure _).truncates
  | name s =>
    refine Quiet.truncates ?_
    simp only [perform_eq, Setup.withLimit]
    cases c.program.procedure? s with
    | none => exact quiet_fail (usual _ rfl)
    | some p => exact quiet_pure _

end Machine

end Chore
