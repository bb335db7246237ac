import Chore.Machine.Perform

/-!
# What instructions are made of

Every instruction but the one that prints is put together from a few parts: a value is taken, put
back or looked at, a note is made, the outside world is asked, a variable is set, a call is gone
back behind. `Composed` is the closure of these parts under sequencing, and `composed_perform` says
that an instruction is in it. What holds of the parts and goes through `do` blocks holds of all
instructions, by one induction. So no instruction is handed to a family of words that does not know
it (`perform_reachable`).
-/

set_option autoImplicit false

namespace Chore

/-- Whether a fault has to do with values only: neither a stack that is full nor a return from no
call nor a word of another family. -/
def Fault.isUsual : Fault → Bool
  | pushFailed => false
  | emptyCallStack => false
  | unreachable => false
  | _ => true

/-! ## Operators -/

theorem fitted_isUsual {n : Int} {fault : Fault} (h : fitted n = .error fault) :
    fault.isUsual = true := by
  unfold fitted at h
  split at h
  · cases h
  · cases h
    rfl

theorem Arithmetic.onInts_isUsual {w : Arithmetic} {b t : Int} {fault : Fault}
    (h : w.onInts b t = .error fault) : fault.isUsual = true := by
  cases w with
  | modulo =>
    simp only [onInts] at h
    split at h
    · exact fitted_isUsual h
    · cases quotient : fitted (b.tdiv t) with
      | error e =>
        rw [quotient] at h
        exact fitted_isUsual (quotient.trans h)
      | ok v =>
        rw [quotient] at h
        exact fitted_isUsual (n := b.tmod t) h
  | divide =>
    simp only [onInts] at h
    split at h <;> exact fitted_isUsual h
  | _ => exact fitted_isUsual h

theorem Arithmetic.apply_isUsual {w : Arithmetic} {b t : Value} {fault : Fault}
    (h : w.apply b t = .error fault) : fault.isUsual = true := by
  unfold apply at h
  split at h
  · cases h
  · cases h
  · exact onInts_isUsual h
  · cases h
    rfl

theorem Counting.apply_isUsual {w : Counting} {n : Int64} {fault : Fault}
    (h : w.apply n = .error fault) : fault.isUsual = true := by
  cases w <;> exact fitted_isUsual h

theorem Bitwise.apply_isUsual {w : Bitwise} {b t : Value} {fault : Fault}
    (h : w.apply b t = .error fault) : fault.isUsual = true := by
  unfold apply at h
  split at h <;> cases h
  rfl

theorem Logic.apply_isUsual {w : Logic} {b t : Value} {fault : Fault}
    (h : w.apply b t = .error fault) : fault.isUsual = true := by
  unfold apply at h
  split at h <;> cases h
  rfl

theorem Comparison.apply_isUsual {w : Comparison} {b t : Value} {fault : Fault}
    (h : w.apply b t = .error fault) : fault.isUsual = true := by
  unfold apply at h
  split at h
  · cases h
  · cases h
  · split at h <;> cases h
    rfl

theorem Fault.ne_unreachable {fault : Fault} (h : fault.isUsual = true) : fault ≠ .unreachable := by
  rintro rfl
  cases h

/-- What two attempts in a row leave is related to what they find, if it is so for each. -/
theorem Attempt.bind_relates {σ ε α β : Type} {r : σ → σ → Prop} {m : Attempt σ ε α}
    {f : α → Attempt σ ε β} (trans : ∀ {s t u}, r s t → r t u → r s u) (h : ∀ s, r s (m s).2)
    (g : ∀ a s, r s (f a s).2) (s : σ) : r s ((m >>= f) s).2 := by
  have first := h s
  rw [Attempt.bind_apply]
  rcases performed : m s with ⟨_ | a, t⟩
  · rwa [performed] at first
  · rw [performed] at first
    exact trans first (g a t)

/-- Two attempts in a row fail only as one of them does. -/
theorem Attempt.bind_ne_error {σ ε α β : Type} {m : Attempt σ ε α} {f : α → Attempt σ ε β} {e : ε}
    (first : ∀ s, (m s).1 ≠ .error e) (second : ∀ a s, (f a s).1 ≠ .error e) (s : σ) :
    ((m >>= f) s).1 ≠ .error e := by
  have others := first s
  rw [Attempt.bind_apply]
  rcases performed : m s with ⟨e' | a, t⟩
  · rw [performed] at others
    exact fun same => others (congrArg Except.error (Except.error.inj same))
  · exact second a t

namespace Machine

variable {ω : Type}

/-- Actions that are put together from the parts of instructions. -/
inductive Composed (c : Setup ω) : {α : Type} → Action ω α → Prop where
  | pure {α : Type} (a : α) : Composed c (pure a : Action ω α)
  | fail {α : Type} (fault : Fault) (known : fault ≠ .unreachable := by rintro ⟨⟩) :
      Composed c (.fail fault : Action ω α)
  | bind {α β : Type} {m : Action ω α} {f : α → Action ω β} (first : Composed c m)
      (second : ∀ a, Composed c (f a)) : Composed c (m >>= f)
  | get : Composed c (.get : Action ω (Scene ω))
  | pop : Composed c pop
  | push (v : Value) : Composed c (push c v)
  | peek (depth : Nat) : Composed c (peek depth)
  | note (n : Note) : Composed c (note n)
  | ask (r : Request) : Composed c (ask c r)
  | store (name : String) (v : Value) :
      Composed c (.modify fun s => { s with memory := s.memory.store name v } : Action ω Unit)
  | ret : Composed c ret

namespace Composed

variable {α : Type} {c : Setup ω}

theorem ofExcept {r : Except Fault α} (usual : ∀ fault, r = .error fault → fault.isUsual = true) :
    Composed c (.ofExcept r : Action ω α) := by
  cases r with
  | ok a => exact .pure a
  | error fault => exact .fail fault (Fault.ne_unreachable (usual fault rfl))

theorem pushAll (vs : List Value) : Composed c (pushAll c vs) := by
  induction vs with
  | nil => exact .pure ()
  | cons v vs ih => exact .bind (.push v) fun _ => ih

theorem popMany (n : Nat) : Composed c (popMany n) := by
  induction n with
  | zero => exact .pure []
  | succ n ih => exact .bind .pop fun v => .bind ih fun vs => .pure (v :: vs)

/-- A value is taken and only some are accepted. -/
theorem popThen {f : Value → Action ω α} (h : ∀ v, Composed c (f v)) :
    Composed c (Machine.pop >>= f) :=
  .bind .pop h

theorem popInt (op : Word) : Composed c (popInt op) := by
  apply popThen
  intro v
  cases v with
  | int n => exact .pure n
  | _ => exact .fail _

theorem popText (op : Word) : Composed c (popText op) := by
  apply popThen
  intro v
  cases v with
  | text s => exact .pure s
  | _ => exact .fail _

theorem popPath (op : Word) : Composed c (popPath op) := by
  apply popThen
  intro v
  cases v with
  | path p => exact .pure p
  | _ => exact .fail _

theorem popLocation (op : Word) : Composed c (popLocation op) := by
  apply popThen
  intro v
  cases v with
  | int n => exact .fail _
  | text s => exact .pure s
  | path p => exact .pure p

theorem popCondition (op : Word) : Composed c (popCondition op) := by
  apply popThen
  intro v
  cases v.truthy with
  | none => exact .fail _
  | some b => exact .pure b

theorem popCount (op : Word) : Composed c (popCount op) := by
  apply Composed.bind (popInt op)
  intro n
  split
  · exact .pure _
  · exact .fail _

theorem binary {f : Value → Value → Except Fault Value}
    (usual : ∀ b t fault, f b t = .error fault → fault.isUsual = true) : Composed c (binary c f) :=
  popThen fun top => popThen fun beneath => .bind (.ofExcept (usual beneath top)) .push

theorem succeeded (w : Tool) (reply : Except ToolError α) : Composed c (succeeded w reply) := by
  cases reply with
  | ok a => exact .pure (some a)
  | error e => exact .bind (.note _) fun _ => .pure none

theorem convert (w : Conversion) : Composed c (convert c w) := by
  cases w with
  | toText => exact popThen fun v => .push _
  | toPath => exact .bind (popText _) fun s => .push _
  | absolute => exact .bind (popLocation _) fun path => .bind .get fun s => .push _
  | relative => exact .bind (popLocation _) fun path => .bind .get fun s => .push _
  | concat =>
    apply Composed.bind (popText _)
    intro suffix
    apply popThen
    intro v
    cases v with
    | int n => exact .fail _
    | text s => exact .push _
    | path p => exact .push _

theorem access (w : Access) : Composed c (access c w) := by
  apply Composed.bind (popText _)
  intro name
  cases w with
  | store => exact popThen fun v => .store name v
  | load =>
    apply Composed.bind .get
    intro s
    cases s.memory.load name with
    | none => exact .fail _
    | some v => exact .push v

theorem shuffle (w : Shuffle) : Composed c (shuffle c w) := by
  cases w with
  | dup => exact .bind (.peek 0) .push
  | drop => exact popThen fun _ => .pure ()
  | swap => exact popThen fun a => popThen fun b => .pushAll [a, b]
  | «over» => exact .bind (.peek 1) .push
  | dup2 => exact .bind (.peek 1) fun a => .bind (.peek 0) fun b => .pushAll [a, b]
  | swap2 =>
    exact popThen fun w => popThen fun x => popThen fun y => popThen fun z =>
      .pushAll [x, w, z, y]

/-- A request, a note if it failed, and what follows from how it went. -/
theorem askThen {β : Type} (w : Tool) (r : Request) (reply : r.Reply → Except ToolError α)
    {f : Option α → Action ω β} (h : ∀ o, Composed c (f o)) :
    Composed c (Machine.ask c r >>= fun x => Machine.succeeded w (reply x) >>= f) :=
  .bind (.ask r) fun x => .bind (succeeded w (reply x)) h

theorem tool (w : Tool) : Composed c (tool c w) := by
  cases w with
  | download =>
    exact .bind (popPath _) fun dest => .bind (popText _) fun url =>
      askThen .download (.download url dest) id fun o => .push _
  | readFile =>
    refine .bind (popPath _) fun path => askThen .readFile (.readText path) id fun o => ?_
    cases o with
    | none => exact .pushAll _
    | some text => exact .pushAll _
  | move =>
    exact .bind (popPath _) fun dst => .bind (popPath _) fun src =>
      askThen .move (.move src dst) id fun o => .push _
  | copy =>
    refine .bind (popPath _) fun dst => .bind (popPath _) fun src =>
      askThen .copy (.copy src dst) id fun o => ?_
    rcases o with _ | _ | _
    all_goals exact .pushAll _
  | exist => exact .bind (popPath _) fun path => .bind (.ask (.pathExists path)) fun found => .push _
  | touch =>
    exact .bind (popPath _) fun path => askThen .touch (.touch path) id fun o => .push _
  | mkdir =>
    exact .bind (popPath _) fun path => askThen .mkdir (.makeDir path) id fun o => .push _
  | remove =>
    exact .bind (popPath _) fun path => askThen .remove (.remove path) id fun o => .push _
  | unzip =>
    refine .bind (popPath _) fun dest => .bind (popPath _) fun archive =>
      askThen .unzip (.unzip archive dest) id fun o => ?_
    cases o with
    | none => exact .pushAll _
    | some counts => exact .pushAll _
  | countFiles =>
    exact .bind (popPath _) fun dir => askThen .countFiles (.listFiles dir) id fun o => .push _
  | countDirs =>
    exact .bind (popPath _) fun dir => askThen .countDirs (.listDirs dir) id fun o => .push _
  | fileAt =>
    exact .bind (popPath _) fun dir => .bind (popInt _) fun index =>
      askThen .fileAt (.listFiles dir)
        (fun names => Except.bind names fun names => entryAt names index dir) fun o => .push _
  | dirAt =>
    refine .bind (popPath _) fun dir => .bind (popInt _) fun index =>
      .bind (.ask (.listDirs dir)) fun names => ?_
    cases Except.bind names fun names => entryAt names index dir with
    | ok name => exact .push _
    | error e => exact .fail _

theorem target (instr : Instr) : Composed c (target instr) := by
  unfold Machine.target
  cases instr.next with
  | none => exact .fail _
  | some n => exact .pure n

/-- A jump to the target of the instruction. -/
theorem jump (instr : Instr) :
    Composed c (do return Effect.jump (← Machine.target instr) : Action ω Effect) :=
  .bind (target instr) fun n => .pure (Effect.jump n)

theorem goOnIf (b : Bool) (instr : Instr) : Composed c (goOnIf b instr) := by
  cases b with
  | true => exact .pure Effect.next
  | false => exact jump instr

theorem mark (instr : Instr) (m : Mark) : Composed c (mark instr m) := by
  cases m with
  | onTrue => exact .bind (popCondition _) fun b => goOnIf b instr
  | onFalse => exact .bind (popCondition _) fun b => goOnIf (!b) instr
  | whileTrue => exact .pure Effect.next
  | untilTrue => exact .pure Effect.next
  | test =>
    unfold Machine.mark
    cases instr.role with
    | test kind header => exact .bind (popCondition _) fun b => goOnIf _ instr
    | plain => exact .fail _
    | close what => exact .fail _
  | otherwise => exact jump instr
  | close =>
    unfold Machine.mark
    cases instr.role with
    | plain => exact .fail _
    | test kind header => exact .fail _
    | close what =>
      cases what with
      | branch => exact .pure Effect.next
      | loop header => exact .pure (Effect.jump header)
      | procedure => exact .ret

theorem leave (l : Leave) : Composed c (leave c l) := by
  cases l with
  | ret => exact .ret
  | dropRet => exact .bind (popCount _) fun drop => .bind (popMany drop) fun _ => .ret
  | keepRet =>
    exact .bind (popCount _) fun drop => .bind (popCount _) fun keep =>
      .bind (popMany keep) fun kept => .bind (popMany drop) fun _ =>
        .bind (pushAll kept.reverse) fun _ => .ret
  | exit => exact .pure Effect.exit

theorem andNext {m : Action ω Unit} (h : Composed c m) : Composed c (andNext m) :=
  .bind h fun _ => .pure Effect.next

theorem word (instr : Instr) {w : Word} (other : w ≠ .print) : Composed c (word c instr w) := by
  cases w with
  | print => exact absurd rfl other
  | convert w => exact (convert w).andNext
  | access w => exact (access w).andNext
  | arithmetic w => exact (binary fun _ _ _ => Arithmetic.apply_isUsual).andNext
  | count w =>
    exact (bind (popInt _) fun n => bind (.ofExcept fun _ => Counting.apply_isUsual) .push).andNext
  | shuffle w => exact (shuffle w).andNext
  | mark m => exact mark instr m
  | leave l => exact leave l
  | compare w => exact (binary fun _ _ _ => Comparison.apply_isUsual).andNext
  | bitwise w => exact (binary fun _ _ _ => Bitwise.apply_isUsual).andNext
  | complement => exact (bind (popInt _) fun n => .push _).andNext
  | logic w => exact (binary fun _ _ _ => Logic.apply_isUsual).andNext
  | negate => exact (bind (popCondition _) fun b => .push _).andNext
  | tool w => exact (tool w).andNext

end Composed

/-- **Every instruction that does not print** is put together from the parts. -/
theorem composed_perform (c : Setup ω) (instr : Instr) (other : instr.token ≠ .word .print) :
    Composed c (perform c instr) := by
  obtain ⟨token, next, role⟩ := instr
  cases token with
  | literal v => exact (Composed.push v).andNext
  | word w => exact Composed.word _ (fun print => other (congrArg Token.word print))
  | header sig => exact Composed.jump _
  | name name =>
    rw [perform_eq]
    simp only
    cases c.program.procedure? name with
    | none => exact .fail _
    | some p => exact .pure _

/-- What is put together from the parts of instructions never fails as unreachable. -/
theorem Composed.reachable {α : Type} {c : Setup ω} {m : Action ω α} (h : Composed c m)
    (s : Scene ω) : (m s).1 ≠ .error .unreachable := by
  induction h generalizing s with
  | pure a => rintro ⟨⟩
  | fail fault known => exact fun same => known (Except.error.inj same)
  | bind _ _ first second => exact Attempt.bind_ne_error first second s
  | get => rintro ⟨⟩
  | pop =>
    unfold Machine.pop
    cases s.stack.pop? with
    | none => rintro ⟨⟩
    | some popped => rintro ⟨⟩
  | push v =>
    unfold Machine.push
    split <;> rintro ⟨⟩
  | peek depth =>
    unfold Machine.peek
    cases s.stack.peek? depth with
    | none => rintro ⟨⟩
    | some v => rintro ⟨⟩
  | note n => rintro ⟨⟩
  | ask r => rintro ⟨⟩
  | store name v => rintro ⟨⟩
  | ret =>
    unfold Machine.ret
    cases s.calls.pop? with
    | none => rintro ⟨⟩
    | some popped => rintro ⟨⟩

theorem print_reachable (c : Setup ω) (s : Scene ω) : (print c s).1 ≠ .error .unreachable := by
  refine Attempt.bind_ne_error (Composed.reachable (c := c) .pop) (fun v s => ?_) s
  rcases c.host.write (v.display ++ "\n") s.world with ⟨_ | _, world⟩ <;>
    simp only <;> rintro ⟨⟩

/-- **No instruction is unreachable**: every word is handed to a family that knows it, and a literal
is pushed before its token is looked at. -/
theorem perform_reachable (c : Setup ω) (instr : Instr) (s : Scene ω) :
    (perform c instr s).1 ≠ .error .unreachable := by
  by_cases prints : instr.token = .word .print
  · rw [perform_eq, prints]
    exact Attempt.bind_ne_error (print_reachable c) (fun _ _ => by rintro ⟨⟩) s
  · exact (composed_perform c instr prints).reachable s

end Machine

end Chore
