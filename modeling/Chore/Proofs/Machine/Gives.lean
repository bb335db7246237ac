import Chore.Machine.Perform

/-!
# What a part of an instruction gives

`Gives E k xs m post` is a triple for the parts of an instruction: on a stack `xs`, with pending
returns `k` and integers in all variables, `m` either gives a result and leaves a stack as `post`
says, the returns and the integers as they were, or fails with a fault of `E`. There is a rule for
each part; `gives_bind` puts them together along a `do` block.
-/

set_option autoImplicit false

namespace Chore

/-- All variables hold integers. -/
def Memory.Ints (m : Memory) : Prop :=
  ∀ name v, m.load name = some v → v.kind = .int

theorem Memory.Ints.store {m : Memory} (h : m.Ints) (name : String) {v : Value}
    (hv : v.kind = .int) :
    (m.store name v).Ints := by
  intro other u loaded
  rw [Memory.load_store] at loaded
  split at loaded
  · exact Option.some.inj loaded ▸ hv
  · exact h other u loaded

theorem Memory.ints_empty : Memory.Ints {} := by
  intro name v loaded
  simp [Memory.load] at loaded

namespace Machine

variable {ω α β : Type}

/-- A scene with a known stack and known pending returns, and integers in all variables. -/
structure Scene.Has (s : Scene ω) (xs : List Value) (k : Stack Nat) : Prop where
  stack : s.stack.toList = xs
  calls : s.calls = k
  ints : s.memory.Ints

/-- What a part of an instruction does on a stack: it gives a result and a stack, or fails with a
fault of `E`. -/
def Gives (E : Fault → Prop) (k : Stack Nat) (xs : List Value) (m : Action ω α)
    (post : α → List Value → Prop) : Prop :=
  ∀ s : Scene ω, s.Has xs k →
    match m s with
    | (.ok a, t) => ∃ ys, t.Has ys k ∧ post a ys
    | (.error fault, _) => E fault

section Rules

variable {E : Fault → Prop} {k : Stack Nat} {xs : List Value}

theorem gives_pure {a : α} {post : α → List Value → Prop} (h : post a xs) :
    Gives E k xs (pure a : Action ω α) post :=
  fun _ has => ⟨xs, has, h⟩

theorem gives_bind {m : Action ω α} {f : α → Action ω β} {mid : α → List Value → Prop}
    {post : β → List Value → Prop} (h : Gives E k xs m mid)
    (g : ∀ a ys, mid a ys → Gives E k ys (f a) post) : Gives E k xs (m >>= f) post := by
  intro s has
  have first := h s has
  rw [Attempt.bind_apply]
  rcases hm : m s with ⟨fault | a, t⟩ <;> rw [hm] at first
  · exact first
  · obtain ⟨ys, has, between⟩ := first
    exact g a ys between t has

theorem Gives.mono {m : Action ω α} {post post' : α → List Value → Prop} (h : Gives E k xs m post)
    (weaker : ∀ a ys, post a ys → post' a ys) : Gives E k xs m post' := by
  intro s has
  have given := h s has
  rcases hm : m s with ⟨fault | a, t⟩ <;> rw [hm] at given
  · exact given
  · obtain ⟨ys, has, before⟩ := given
    exact ⟨ys, has, weaker a ys before⟩

/-- A part whose result and stack are known. -/
theorem gives_then {m : Action ω α} {f : α → Action ω β} {a : α} {ys : List Value}
    {post : β → List Value → Prop} (h : Gives E k xs m fun b zs => b = a ∧ zs = ys)
    (g : Gives E k ys (f a) post) : Gives E k xs (m >>= f) post :=
  gives_bind h fun _ _ same => by
    obtain ⟨rfl, rfl⟩ := same
    exact g

theorem gives_fail {fault : Fault} {post : α → List Value → Prop} (h : E fault) :
    Gives E k xs (.fail fault : Action ω α) post :=
  fun _ _ => h

theorem gives_ofExcept {r : Except Fault α} {post : α → List Value → Prop}
    (value : ∀ a, r = .ok a → post a xs) (fault : ∀ e, r = .error e → E e) :
    Gives E k xs (.ofExcept r : Action ω α) post := by
  cases r with
  | ok a => exact gives_pure (value a rfl)
  | error e => exact gives_fail (fault e rfl)

theorem gives_get {f : Scene ω → Action ω β} {post : β → List Value → Prop}
    (g : ∀ s : Scene ω, s.memory.Ints → Gives E k xs (f s) post) :
    Gives E k xs (.get >>= f) post :=
  fun s has => g s has.ints s has

theorem gives_pop {v : Value} :
    Gives E k (v :: xs) (pop : Action ω Value) fun b ys => b = v ∧ ys = xs := by
  intro s has
  obtain ⟨stack, popped⟩ : ∃ stack, s.stack.pop? = some (v, stack) ∧ stack.toList = xs :=
    ⟨.ofList xs, Stack.pop?_eq_some_iff.2 has.stack, rfl⟩
  rw [pop, popped.1]
  exact ⟨xs, ⟨popped.2, has.calls, has.ints⟩, rfl, rfl⟩

theorem gives_popMany {vs : List Value} :
    Gives E k (vs ++ xs) (popMany vs.length : Action ω (List Value)) fun b ys =>
      b = vs ∧ ys = xs := by
  induction vs with
  | nil => exact gives_pure ⟨rfl, rfl⟩
  | cons v vs ih => exact gives_then gives_pop (gives_then ih (gives_pure ⟨rfl, rfl⟩))

theorem gives_push (c : Setup ω) (full : E .pushFailed) {v : Value} :
    Gives E k xs (push c v) fun _ ys => ys = v :: xs := by
  intro s has
  unfold push
  by_cases room : s.stack.size < c.limit
  · rw [if_pos room]
    exact ⟨v :: xs, ⟨congrArg (v :: ·) has.stack, has.calls, has.ints⟩, rfl⟩
  · rw [if_neg room]
    exact full

theorem gives_pushAll (c : Setup ω) (full : E .pushFailed) {vs : List Value} :
    Gives E k xs (pushAll c vs) fun _ ys => ys = vs.reverse ++ xs := by
  induction vs generalizing xs with
  | nil => exact gives_pure rfl
  | cons v vs ih =>
    refine gives_bind (gives_push c full) ?_
    intro _ ys same
    obtain rfl := same
    rw [List.reverse_cons, List.append_assoc]
    exact ih

theorem gives_peek {depth : Nat} {v : Value} (h : xs[depth]? = some v) :
    Gives E k xs (peek depth : Action ω Value) fun b ys => b = v ∧ ys = xs := by
  intro s has
  rw [peek, Stack.peek?, has.stack, h]
  exact ⟨xs, has, rfl, rfl⟩

theorem gives_popInt (op : Word) {n : Int64} :
    Gives E k (.int n :: xs) (popInt op : Action ω Int64) fun b ys => b = n ∧ ys = xs :=
  gives_then gives_pop (gives_pure ⟨rfl, rfl⟩)

theorem gives_popText (op : Word) {t : String} :
    Gives E k (.text t :: xs) (popText op : Action ω String) fun b ys => b = t ∧ ys = xs :=
  gives_then gives_pop (gives_pure ⟨rfl, rfl⟩)

theorem gives_popPath (op : Word) {p : String} :
    Gives E k (.path p :: xs) (popPath op : Action ω String) fun b ys => b = p ∧ ys = xs :=
  gives_then gives_pop (gives_pure ⟨rfl, rfl⟩)

/-- A location is a text or a path. -/
theorem gives_popLocation (op : Word) {v : Value} (h : v.kind ≠ .int) :
    Gives E k (v :: xs) (popLocation op : Action ω String) fun _ ys => ys = xs := by
  refine gives_then gives_pop ?_
  cases v with
  | int n => exact absurd rfl h
  | text t => exact gives_pure rfl
  | path p => exact gives_pure rfl

/-- Anything but a path is a condition. -/
theorem gives_popCondition (op : Word) {v : Value} (h : v.kind ≠ .path) :
    Gives E k (v :: xs) (popCondition op : Action ω Bool) fun _ ys => ys = xs := by
  refine gives_then gives_pop ?_
  cases v with
  | int n => exact gives_pure rfl
  | text t => exact gives_pure rfl
  | path p => exact absurd rfl h

theorem gives_popCount (op : Word) {n : Int64} (h : 0 ≤ n.toInt) :
    Gives E k (.int n :: xs) (popCount op : Action ω Nat)
      fun b ys => b = n.toInt.toNat ∧ ys = xs := by
  refine gives_then (gives_popInt op) ?_
  rw [if_pos h]
  exact gives_pure ⟨rfl, rfl⟩

theorem gives_ask (c : Setup ω) (r : Request) :
    Gives E k xs (ask c r) fun _ ys => ys = xs :=
  fun _ has => ⟨xs, ⟨has.stack, has.calls, has.ints⟩, rfl⟩

theorem gives_succeeded (w : Tool) (reply : Except ToolError α) :
    Gives E k xs (succeeded w reply : Action ω (Option α)) fun _ ys => ys = xs := by
  cases reply with
  | ok a => exact gives_pure rfl
  | error e => exact fun _ has => ⟨xs, ⟨has.stack, has.calls, has.ints⟩, rfl⟩

end Rules

end Machine

end Chore
