import Chore.Machine.Perform
import Chore.Typing.Effect

/-!
# Taking operands

Which faults are about operands (`Fault.isMisfit`), and what the kinds on the stack have to do with
them. `Conforms xs m after` says of a part of an instruction, on a stack `xs`, that it fails for
want of a fitting operand exactly if there is no shape `after`, and that a stack it leaves has that
shape. There is a rule for each way to take an operand (`Takes`), for the parts that leave the stack
alone (`Keeps`), for looking and for pushing. A full stack is another matter: all operands are taken
before anything is pushed.
-/

set_option autoImplicit false

namespace Chore

/-- The fault is about an operand: there was none, or it was of the wrong kind. -/
def Fault.isMisfit : Fault → Bool
  | popFailed | wrongKind _ _ => true
  | _ => false

namespace Value

/-- The number, if the value is an integer. -/
def int? : Value → Option Int64
  | int n => some n
  | _ => none

/-- The text, if the value is one. -/
def text? : Value → Option String
  | text s => some s
  | _ => none

/-- The path, if the value is one. -/
def path? : Value → Option String
  | path p => some p
  | _ => none

/-- What a text or a path names. -/
def location? : Value → Option String
  | text s => some s
  | path p => some p
  | int _ => none

end Value

namespace Machine

variable {ω α β : Type}

/-- On a stack, a part of an instruction fails for want of a fitting operand exactly if there is no
shape `after`, and a stack that it leaves has that shape. -/
def Conforms (xs : List Value) (m : Action ω α) (after : Option Shape) : Prop :=
  ∀ s : Scene ω, s.stack.toList = xs →
    match m s with
    | (.ok _, t) => after = some (t.stack.toList.map Value.kind)
    | (.error fault, _) => fault.isMisfit = true ↔ after = none

/-- A part fails for want of a fitting operand. -/
def Misfits (m : Action ω α) (s : Scene ω) : Prop :=
  ∃ fault t, m s = (.error fault, t) ∧ fault.isMisfit = true

/-- A part that takes the top value and reads it: it fails if there is no value, or none that can
be read. -/
structure Takes (p : Action ω α) (read : Value → Option α) : Prop where
  short {s : Scene ω} : s.stack.toList = [] → Misfits p s
  wrong {s : Scene ω} {v : Value} {xs : List Value} : s.stack.toList = v :: xs → read v = none →
    Misfits p s
  right {s : Scene ω} {v : Value} {xs : List Value} {a : α} : s.stack.toList = v :: xs →
    read v = some a → ∃ t, p s = (.ok a, t) ∧ t.stack.toList = xs

/-- A part that succeeds and leaves the stack alone. -/
def Keeps (m : Action ω α) : Prop :=
  ∀ s : Scene ω, ∃ a t, m s = (.ok a, t) ∧ t.stack.toList = s.stack.toList

/-! ## Taking operands -/

theorem takes_pop : Takes (pop : Action ω Value) some where
  short {s} empty := by
    refine ⟨.popFailed, s, ?_, rfl⟩
    rw [pop, Stack.pop?_eq_none_iff.2 empty]
  wrong _ unread := by cases unread
  right {s v xs a} onStack read := by
    obtain rfl := Option.some.inj read
    have popped : s.stack.pop? = some (v, .ofList xs) := Stack.pop?_eq_some_iff.2 onStack
    refine ⟨{ s with stack := .ofList xs, events := .popped v :: s.events }, ?_, rfl⟩
    rw [pop, popped]

/-- Taking a value and then reading it. -/
theorem takes_reading {op : Word} {f : Value → Action ω α} {read : Value → Option α}
    (reads : ∀ v, f v = match read v with
      | some a => pure a
      | none => .fail (.wrongKind op [v.kind])) :
    Takes (pop >>= f) read where
  short empty := by
    obtain ⟨fault, t, failed, misfit⟩ := takes_pop.short empty
    exact ⟨fault, t, Attempt.bind_apply_error failed f, misfit⟩
  wrong {s v xs} onStack unread := by
    obtain ⟨t, taken, -⟩ := takes_pop.right onStack rfl
    refine ⟨.wrongKind op [v.kind], t, ?_, rfl⟩
    rw [Attempt.bind_apply_ok taken, reads, unread]
    rfl
  right {s v xs a} onStack read := by
    obtain ⟨t, taken, below⟩ := takes_pop.right onStack rfl
    refine ⟨t, ?_, below⟩
    rw [Attempt.bind_apply_ok taken, reads, read]
    rfl

theorem takes_popInt (op : Word) : Takes (popInt op : Action ω Int64) Value.int? :=
  takes_reading fun v => by cases v <;> rfl

theorem takes_popText (op : Word) : Takes (popText op : Action ω String) Value.text? :=
  takes_reading fun v => by cases v <;> rfl

theorem takes_popPath (op : Word) : Takes (popPath op : Action ω String) Value.path? :=
  takes_reading fun v => by cases v <;> rfl

theorem takes_popLocation (op : Word) :
    Takes (popLocation op : Action ω String) Value.location? :=
  takes_reading fun v => by cases v <;> rfl

theorem takes_popCondition (op : Word) : Takes (popCondition op : Action ω Bool) Value.truthy :=
  takes_reading fun v => by cases v.truthy <;> rfl

/-! ## Parts that leave the stack alone -/

theorem keeps_get : Keeps (.get : Action ω (Scene ω)) :=
  fun s => ⟨s, s, rfl, rfl⟩

theorem keeps_ask (c : Setup ω) (r : Request) : Keeps (ask c r) :=
  fun _ => ⟨_, _, rfl, rfl⟩

theorem keeps_succeeded (w : Tool) (reply : Except ToolError α) :
    Keeps (succeeded w reply : Action ω (Option α)) := by
  intro s
  cases reply with
  | ok a => exact ⟨some a, s, rfl, rfl⟩
  | error e => exact ⟨none, _, rfl, rfl⟩

/-! ## Conforming parts -/

section Rules

variable {xs : List Value} {after : Option Shape}

theorem conforms_pure {a : α} (h : after = some (xs.map Value.kind)) :
    Conforms xs (pure a : Action ω α) after := by
  rintro s rfl
  exact h

theorem conforms_misfit {fault : Fault} (misfit : fault.isMisfit = true) :
    Conforms xs (.fail fault : Action ω α) none :=
  fun _ _ => iff_of_true misfit rfl

theorem conforms_fail {fault : Fault} {shape : Shape} (other : fault.isMisfit = false) :
    Conforms xs (.fail fault : Action ω α) (some shape) :=
  fun _ _ => iff_of_false (by simp [other]) nofun

theorem conforms_keep {m : Action ω α} {f : α → Action ω β} (keeps : Keeps m)
    (rest : ∀ a, Conforms xs (f a) after) : Conforms xs (m >>= f) after := by
  intro s onStack
  obtain ⟨a, t, done, same⟩ := keeps s
  rw [Attempt.bind_apply_ok done]
  exact rest a t (same.trans onStack)

theorem conforms_ofExcept {r : Except Fault α} {f : α → Action ω β}
    (value : ∀ a, r = .ok a → Conforms xs (f a) after)
    (fault : ∀ e, r = .error e → (e.isMisfit = true ↔ after = none)) :
    Conforms xs (.ofExcept r >>= f) after := by
  cases r with
  | ok a => exact value a rfl
  | error e => exact fun _ _ => fault e rfl

theorem conforms_push (c : Setup ω) {v : Value} (h : after = some (v.kind :: xs.map Value.kind)) :
    Conforms xs (push c v) after := by
  rintro s rfl
  unfold push
  by_cases room : s.stack.size < c.limit
  · rw [if_pos room]
    exact h
  · rw [if_neg room]
    exact iff_of_false nofun (by simp [h])

theorem conforms_pushAll (c : Setup ω) {vs : List Value}
    (h : after = some ((vs.reverse ++ xs).map Value.kind)) : Conforms xs (pushAll c vs) after := by
  induction vs generalizing xs with
  | nil => exact conforms_pure h
  | cons v vs ih =>
    intro s onStack
    simp only [pushAll, push, Attempt.bind_apply]
    by_cases room : s.stack.size < c.limit
    · rw [if_pos room]
      have pushed : after = some ((vs.reverse ++ v :: xs).map Value.kind) := by
        rw [h, List.reverse_cons, List.append_assoc, List.singleton_append]
      exact ih pushed _ (congrArg (v :: ·) onStack)
    · rw [if_neg room]
      exact iff_of_false nofun (by simp [h])

/-- Looking at a value that is there. -/
theorem conforms_peek {depth : Nat} {v : Value} {f : Value → Action ω β}
    (there : xs[depth]? = some v) (rest : Conforms xs (f v) after) :
    Conforms xs (peek depth >>= f) after := by
  intro s onStack
  have seen : peek depth s = (.ok v, s) := by rw [peek, Stack.peek?, onStack, there]
  rw [Attempt.bind_apply_ok seen]
  exact rest s onStack

theorem conforms_of_misfits {m : Action ω α}
    (misfits : ∀ s : Scene ω, s.stack.toList = xs → Misfits m s) : Conforms xs m none := by
  intro s onStack
  obtain ⟨fault, t, failed, misfit⟩ := misfits s onStack
  rw [failed]
  exact iff_of_true misfit rfl

theorem Misfits.bind {m : Action ω α} {f : α → Action ω β} {s : Scene ω} (h : Misfits m s) :
    Misfits (m >>= f) s := by
  obtain ⟨fault, t, failed, misfit⟩ := h
  exact ⟨fault, t, Attempt.bind_apply_error failed f, misfit⟩

theorem conforms_peek_short {depth : Nat} {f : Value → Action ω β} (short : xs[depth]? = none) :
    Conforms xs (peek depth >>= f) none := by
  refine conforms_of_misfits fun s onStack => Misfits.bind ⟨.popFailed, s, ?_, rfl⟩
  rw [peek, Stack.peek?, onStack, short]

section Operand

variable {p : Action ω α} {read : Value → Option α} (takes : Takes p read) {f : α → Action ω β}

include takes

theorem conforms_short : Conforms [] (p >>= f) none :=
  conforms_of_misfits fun _ empty => (takes.short empty).bind

theorem conforms_wrong {v : Value} (unread : read v = none) :
    Conforms (v :: xs) (p >>= f) none :=
  conforms_of_misfits fun _ onStack => (takes.wrong onStack unread).bind

theorem conforms_take {v : Value} {a : α} (reads : read v = some a)
    (rest : Conforms xs (f a) after) : Conforms (v :: xs) (p >>= f) after := by
  intro s onStack
  obtain ⟨t, done, below⟩ := takes.right onStack reads
  rw [Attempt.bind_apply_ok done]
  exact rest t below

end Operand

end Rules

end Machine

end Chore
