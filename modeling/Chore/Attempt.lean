/-!
# Attempts

An attempt works on a state and may fail. When it fails, the state it had reached is kept: what
was popped, written or created before the failure stays so. Attempts are composed with `do`.
-/

set_option autoImplicit false

namespace Chore

/-- A step that fails with an error and otherwise goes on succeeds with both. -/
theorem bind_ok {ε α β : Type} {x : Except ε α} {f : α → Except ε β} {b : β}
    (h : x >>= f = .ok b) : ∃ a, x = .ok a ∧ f a = .ok b := by
  cases x with
  | error e => cases h
  | ok a => exact ⟨a, rfl, h⟩

theorem of_mapError_ok {ε δ α : Type} {f : ε → δ} {x : Except ε α} {a : α}
    (h : x.mapError f = .ok a) : x = .ok a := by
  cases x with
  | error e => cases h
  | ok a => exact congrArg Except.ok (Except.ok.inj h)

theorem ok_of_toOption {ε α : Type} {x : Except ε α} {a : α} (h : x.toOption = some a) :
    x = .ok a := by
  cases x with
  | error e => cases h
  | ok b => exact congrArg Except.ok (Option.some.inj h)

/-- What a computation fails with, if it does. -/
def failure? {ε α : Type} : Except ε α → Option ε
  | .ok _ => none
  | .error e => some e

theorem error_of_failure? {ε α : Type} {x : Except ε α} {e : ε} (h : failure? x = some e) :
    x = .error e := by
  cases x with
  | error d => exact congrArg Except.error (Option.some.inj h)
  | ok a => cases h

/-- A computation on a state `σ` that gives an `α` or fails with an `ε`; either way there is a
state afterwards. -/
def Attempt (σ ε α : Type) : Type :=
  σ → Except ε α × σ

namespace Attempt

variable {σ ε α β : Type}

/-- Gives a value and leaves the state alone. -/
protected def pure (a : α) : Attempt σ ε α :=
  fun s => (.ok a, s)

/-- Goes on with a second attempt if the first succeeds. -/
protected def bind (m : Attempt σ ε α) (f : α → Attempt σ ε β) : Attempt σ ε β :=
  fun s =>
    match m s with
    | (.ok a, t) => f a t
    | (.error e, t) => (.error e, t)

instance : Monad (Attempt σ ε) where
  pure := Attempt.pure
  bind := Attempt.bind

/-- Fails and leaves the state alone. -/
def fail (e : ε) : Attempt σ ε α :=
  fun s => (.error e, s)

/-- The state. -/
def get : Attempt σ ε σ :=
  fun s => (.ok s, s)

/-- Changes the state. -/
def modify (f : σ → σ) : Attempt σ ε Unit :=
  fun s => (.ok (), f s)

/-- An outcome that is already known. -/
def ofExcept (r : Except ε α) : Attempt σ ε α :=
  fun s => (r, s)

/-- Turns a failure into a value; the state stays as the failed attempt left it. -/
def outcome {δ : Type} (m : Attempt σ ε α) : Attempt σ δ (Except ε α) :=
  fun s => (.ok (m s).1, (m s).2)

/-- Puts a failure into other terms. -/
def mapError {δ : Type} (f : ε → δ) (m : Attempt σ ε α) : Attempt σ δ α :=
  fun s => ((m s).1.mapError f, (m s).2)

/-- Does something for every element of a list, in order, until it fails. -/
def forEach : List α → (α → Attempt σ ε Unit) → Attempt σ ε Unit
  | [], _ => pure ()
  | a :: rest, f => do
    f a
    forEach rest f

@[simp] theorem pure_apply (a : α) (s : σ) : (pure a : Attempt σ ε α) s = (.ok a, s) := rfl

theorem bind_apply (m : Attempt σ ε α) (f : α → Attempt σ ε β) (s : σ) :
    (m >>= f) s = match m s with
      | (.ok a, t) => f a t
      | (.error e, t) => (.error e, t) := rfl

theorem bind_apply_ok {m : Attempt σ ε α} {s t : σ} {a : α} (h : m s = (.ok a, t))
    (f : α → Attempt σ ε β) : (m >>= f) s = f a t := by
  rw [bind_apply, h]

theorem bind_apply_error {m : Attempt σ ε α} {s t : σ} {e : ε} (h : m s = (.error e, t))
    (f : α → Attempt σ ε β) : (m >>= f) s = (.error e, t) := by
  rw [bind_apply, h]

/-- An attempt that succeeds in two steps succeeds in each. -/
theorem of_bind_ok {m : Attempt σ ε α} {f : α → Attempt σ ε β} {s u : σ} {b : β}
    (h : (m >>= f) s = (.ok b, u)) : ∃ a t, m s = (.ok a, t) ∧ f a t = (.ok b, u) := by
  rw [bind_apply] at h
  rcases ran : m s with ⟨_ | a, t⟩ <;> rw [ran] at h
  · cases h
  · exact ⟨a, t, rfl, h⟩

theorem bind_assoc {γ : Type} (m : Attempt σ ε α) (f : α → Attempt σ ε β)
    (g : β → Attempt σ ε γ) : m >>= f >>= g = m >>= fun a => f a >>= g := by
  funext s
  simp only [bind_apply]
  rcases m s with ⟨_ | a, t⟩ <;> rfl

@[simp] theorem fail_apply (e : ε) (s : σ) : (fail e : Attempt σ ε α) s = (.error e, s) := rfl

@[simp] theorem get_apply (s : σ) : (get : Attempt σ ε σ) s = (.ok s, s) := rfl

@[simp] theorem modify_apply (f : σ → σ) (s : σ) :
    (modify f : Attempt σ ε Unit) s = (.ok (), f s) := rfl

@[simp] theorem ofExcept_apply (r : Except ε α) (s : σ) :
    (ofExcept r : Attempt σ ε α) s = (r, s) := rfl

@[simp] theorem outcome_apply {δ : Type} (m : Attempt σ ε α) (s : σ) :
    (m.outcome : Attempt σ δ (Except ε α)) s = (.ok (m s).1, (m s).2) := rfl

@[simp] theorem mapError_apply {δ : Type} (f : ε → δ) (m : Attempt σ ε α) (s : σ) :
    (m.mapError f) s = ((m s).1.mapError f, (m s).2) := rfl

/-- What every element keeps is kept by doing something for all of them. -/
theorem forEach_keeps {kept : σ → Prop} {l : List α} {g : α → Attempt σ ε Unit} {s : σ}
    (step : ∀ a ∈ l, ∀ s, kept s → kept (g a s).2) (start : kept s) : kept (forEach l g s).2 := by
  induction l generalizing s with
  | nil => exact start
  | cons a l ih =>
    have ⟨first, others⟩ := List.forall_mem_cons.1 step
    have next := first s start
    rw [forEach, bind_apply]
    rcases ran : g a s with ⟨_ | _, t⟩ <;> rw [ran] at next
    · exact next
    · exact ih others next

theorem forEach_congr {l : List α} {g g' : α → Attempt σ ε Unit} (same : ∀ a ∈ l, g a = g' a) :
    forEach l g = forEach l g' := by
  induction l with
  | nil => rfl
  | cons a l ih =>
    have ⟨first, others⟩ := List.forall_mem_cons.1 same
    rw [forEach, forEach, first, ih others]

end Attempt

end Chore
