import Chore.Proofs.Machine.Gives
import Chore.Proofs.Machine.Locality
import Chore.Typing.Effect

/-!
# Typed words

A word that is accepted for the kinds on top of the stack finds its operands and leaves values of
the kinds its stack effect says; the values below stay. It can fail, but only as `Token.MayFail`
says: for want of room, at arithmetic that overflows, at a variable that is not set, at a listing
without the entry asked for, and at the output.
-/

set_option autoImplicit false

namespace Chore

/-- The faults a token can come to in a program that was checked. -/
def Token.MayFail : Token → Fault → Prop
  | _, .pushFailed => True
  | .word (.arithmetic _), .integerOverflow => True
  | .word (.count _), .integerOverflow => True
  | .word (.access .load), .unknownVariable _ => True
  | .word (.tool .dirAt), .toolFailed _ => True
  | .word .print, .output _ => True
  | _, _ => False

theorem Token.mayFail_push (t : Token) : t.MayFail .pushFailed := by
  cases t with
  | word w => cases w <;> trivial
  | _ => trivial

/-! ## Operators -/

theorem fitted_kind {n : Int} {v : Value} (h : fitted n = .ok v) : v.kind = .int := by
  unfold fitted at h
  split at h
  · rw [← Except.ok.inj h]
    rfl
  · cases h

theorem fitted_fault {n : Int} {e : Fault} (h : fitted n = .error e) : e = .integerOverflow := by
  unfold fitted at h
  split at h
  · cases h
  · exact (Except.error.inj h).symm

/-- An integer, or an overflow. -/
def IntOrOverflow (r : Except Fault Value) : Prop :=
  (∀ v, r = .ok v → v.kind = .int) ∧ ∀ e, r = .error e → e = .integerOverflow

theorem intOrOverflow_fitted (n : Int) : IntOrOverflow (fitted n) :=
  ⟨fun _ => fitted_kind, fun _ => fitted_fault⟩

/-- Arithmetic on integers gives an integer or overflows. -/
theorem Arithmetic.intOrOverflow (w : Arithmetic) (b t : Int) : IntOrOverflow (w.onInts b t) := by
  cases w with
  | add => exact intOrOverflow_fitted _
  | subtract => exact intOrOverflow_fitted _
  | multiply => exact intOrOverflow_fitted _
  | divide =>
    by_cases zero : t = 0
    · simp only [onInts, zero, if_true]
      exact intOrOverflow_fitted _
    · simp only [onInts, zero, if_false]
      exact intOrOverflow_fitted _
  | modulo =>
    by_cases zero : t = 0
    · simp only [onInts, zero, if_true]
      exact intOrOverflow_fitted _
    · simp only [onInts, zero, if_false]
      cases quotient : fitted (b.tdiv t) with
      | error e => exact ⟨nofun, fun e' h => Except.error.inj h ▸ fitted_fault quotient⟩
      | ok v => exact intOrOverflow_fitted _

theorem Counting.intOrOverflow (w : Counting) (n : Int64) : IntOrOverflow (w.apply n) := by
  cases w <;> exact intOrOverflow_fitted _

/-- The result of an accepted arithmetic word has the kind its effect says. -/
theorem Arithmetic.apply_typed {w : Arithmetic} {t b : Value} {kinds : List Kind}
    (h : (Word.arithmetic w).results? [t.kind, b.kind] = some kinds) :
    (∀ v, w.apply b t = .ok v → [v.kind] = kinds) ∧
      ∀ e, w.apply b t = .error e → e = .integerOverflow := by
  cases b with
  | int b =>
    cases t with
    | int t =>
      have same : w.apply (.int b) (.int t) = w.onInts b.toInt t.toInt := by cases w <;> rfl
      have kinds_eq : kinds = [.int] := by cases w <;> exact (Option.some.inj h).symm
      rw [same, kinds_eq]
      obtain ⟨value, fault⟩ := w.intOrOverflow b.toInt t.toInt
      exact ⟨fun v hv => by rw [value v hv], fault⟩
    | text t => cases w <;> cases h
    | path t => cases w <;> cases h
  | text b =>
    cases w with
    | add =>
      cases t with
      | path t => cases h
      | _ =>
        obtain rfl := Option.some.inj h
        exact ⟨fun v hv => by rw [← Except.ok.inj hv]; rfl, nofun⟩
    | _ => cases t <;> cases h
  | path b => cases w <;> cases t <;> cases h

/-- Accepted comparing words succeed, with an integer. -/
theorem Comparison.apply_typed {w : Comparison} {t b : Value} {kinds : List Kind}
    (h : (Word.compare w).results? [t.kind, b.kind] = some kinds) :
    ∃ v, w.apply b t = .ok v ∧ [v.kind] = kinds := by
  have order : ∃ o, b.order? t = some o := by
    cases t <;> cases b <;> first | exact ⟨_, rfl⟩ | cases h
  have kinds_eq : kinds = [.int] := by
    cases t <;> cases b <;> first | exact (Option.some.inj h).symm | cases h
  obtain ⟨o, ho⟩ := order
  subst kinds_eq
  cases w with
  | equal => exact ⟨_, rfl, rfl⟩
  | notEqual => exact ⟨_, rfl, rfl⟩
  | _ =>
    simp only [apply, ho]
    exact ⟨_, rfl, rfl⟩

/-- Accepted bitwise words succeed, with an integer. -/
theorem Bitwise.apply_typed {w : Bitwise} {t b : Value} {kinds : List Kind}
    (h : (Word.bitwise w).results? [t.kind, b.kind] = some kinds) :
    ∃ v, w.apply b t = .ok v ∧ [v.kind] = kinds := by
  cases t <;> cases b <;> first | exact ⟨_, rfl, Option.some.inj h⟩ | cases h

/-- Accepted logical words succeed, with an integer. -/
theorem Logic.apply_typed {w : Logic} {t b : Value} {kinds : List Kind}
    (h : (Word.logic w).results? [t.kind, b.kind] = some kinds) :
    ∃ v, w.apply b t = .ok v ∧ [v.kind] = kinds := by
  cases t <;> cases b <;> first | exact ⟨_, rfl, Option.some.inj h⟩ | cases h

namespace Machine

variable {ω : Type} {k : Stack Nat} {rest : List Value} {kinds : List Kind}

/-- Values of some kinds lie on top of the others. -/
def Leaves (kinds : List Kind) (rest ys : List Value) : Prop :=
  ∃ vs, ys = vs ++ rest ∧ vs.map Value.kind = kinds

section Rules

variable {E : Fault → Prop} (full : E .pushFailed)

include full in
theorem leaves_push (c : Setup ω) {v : Value} (h : [v.kind] = kinds) :
    Gives E k rest (push c v) fun _ ys => Leaves kinds rest ys :=
  (gives_push c full).mono fun _ _ same => ⟨[v], same, h⟩

include full in
theorem leaves_pushAll (c : Setup ω) {vs : List Value} (h : vs.reverse.map Value.kind = kinds) :
    Gives E k rest (pushAll c vs) fun _ ys => Leaves kinds rest ys :=
  (gives_pushAll c full).mono fun _ _ same => ⟨vs.reverse, same, h⟩

include full in
/-- An operator on the two values on top. -/
theorem leaves_binary (c : Setup ω) {f : Value → Value → Except Fault Value} {t b : Value}
    (value : ∀ v, f b t = .ok v → [v.kind] = kinds) (fault : ∀ e, f b t = .error e → E e) :
    Gives E k (t :: b :: rest) (binary c f) fun _ ys => Leaves kinds rest ys := by
  have result : Gives E k rest (.ofExcept (f b t) : Action ω Value)
      fun v ys => f b t = .ok v ∧ ys = rest :=
    gives_ofExcept (fun v hv => ⟨hv, rfl⟩) fault
  refine gives_then gives_pop (gives_then gives_pop (gives_bind result ?_))
  intro v ys given
  obtain ⟨hv, rfl⟩ := given
  exact leaves_push full c (value v hv)

include full in
/-- An operator that succeeds on the two values on top. -/
theorem leaves_operator (c : Setup ω) {f : Value → Value → Except Fault Value} {t b : Value}
    (h : ∃ v, f b t = .ok v ∧ [v.kind] = kinds) :
    Gives E k (t :: b :: rest) (binary c f) fun _ ys => Leaves kinds rest ys := by
  obtain ⟨v, applied, typed⟩ := h
  refine leaves_binary full c (fun u hu => ?_) fun e he => ?_
  · obtain rfl := Except.ok.inj (applied.symm.trans hu)
    exact typed
  · cases applied.symm.trans he

/-- A request, a note if it failed, and values for how it went. -/
theorem leaves_ask {α : Type} (c : Setup ω) (w : Tool) (r : Request)
    (reply : r.Reply → Except ToolError α) {results : Option α → Action ω Unit}
    (values : ∀ o, Gives E k rest (results o) fun _ ys => Leaves kinds rest ys) :
    Gives E k rest (ask c r >>= fun x => succeeded w (reply x) >>= results)
      fun _ ys => Leaves kinds rest ys := by
  refine gives_bind (gives_ask c r) ?_
  intro x ys same
  obtain rfl := same
  refine gives_bind (gives_succeeded w _) ?_
  intro o ys same
  obtain rfl := same
  exact values o

end Rules

/-! ## Words -/

theorem gives_print (c : Setup ω) {v : Value} :
    Gives (Token.word .print).MayFail k (v :: rest) (print c) fun _ ys => Leaves [] rest ys := by
  refine gives_then gives_pop fun s has => ?_
  rcases c.host.write (v.display ++ "\n") s.world with ⟨reason | u, world⟩
  · trivial
  · exact ⟨rest, ⟨has.stack, has.calls, has.ints⟩, [], rfl, rfl⟩

theorem exists_one {args : List Value} (h : args.length = 1) : ∃ v, args = [v] :=
  List.length_eq_one_iff.1 h

theorem exists_two {args : List Value} (h : args.length = 2) : ∃ v u, args = [v, u] := by
  obtain _ | ⟨v, _ | ⟨u, _ | ⟨_, _⟩⟩⟩ := args <;> simp at h
  exact ⟨v, u, rfl⟩

theorem gives_convert (c : Setup ω) {w : Conversion} {args : List Value}
    (count : args.length = (Word.convert w).arity)
    (h : (Word.convert w).results? (args.map Value.kind) = some kinds) :
    Gives (Token.word (.convert w)).MayFail k (args ++ rest) (convert c w)
      fun _ ys => Leaves kinds rest ys := by
  have full := (Token.word (.convert w)).mayFail_push
  cases w with
  | toText =>
    obtain ⟨v, rfl⟩ := exists_one count
    exact gives_then gives_pop (leaves_push full c (Option.some.inj h))
  | toPath =>
    obtain ⟨v, rfl⟩ := exists_one count
    cases v with
    | text t => exact gives_then (gives_popText _) (leaves_push full c (Option.some.inj h))
    | _ => cases h
  | absolute | relative =>
    obtain ⟨v, rfl⟩ := exists_one count
    have location : v.kind ≠ .int ∧ [Kind.path] = kinds := by
      cases v with
      | int n => cases h
      | text t => exact ⟨nofun, Option.some.inj h⟩
      | path p => exact ⟨nofun, Option.some.inj h⟩
    refine gives_bind (gives_popLocation _ location.1) ?_
    intro path ys same
    obtain rfl := same
    exact gives_get fun s _ => leaves_push full c location.2
  | concat =>
    obtain ⟨v, u, rfl⟩ := exists_two count
    cases v with
    | text suffix =>
      refine gives_then (gives_popText _) (gives_then gives_pop ?_)
      cases u with
      | int n => cases h
      | text t => exact leaves_push full c (Option.some.inj h)
      | path p => exact leaves_push full c (Option.some.inj h)
    | _ => cases u <;> cases h

theorem gives_access (c : Setup ω) {w : Access} {args : List Value}
    (count : args.length = (Word.access w).arity)
    (h : (Word.access w).results? (args.map Value.kind) = some kinds) :
    Gives (Token.word (.access w)).MayFail k (args ++ rest) (access c w)
      fun _ ys => Leaves kinds rest ys := by
  have full := (Token.word (.access w)).mayFail_push
  cases w with
  | store =>
    obtain ⟨v, u, rfl⟩ := exists_two count
    cases v with
    | text name =>
      cases u with
      | int n =>
        obtain rfl := Option.some.inj h
        refine gives_then (gives_popText _) (gives_then gives_pop ?_)
        intro s has
        exact ⟨rest, ⟨has.stack, has.calls, has.ints.store name rfl⟩, [], rfl, rfl⟩
      | _ => cases h
    | _ => cases u <;> cases h
  | load =>
    obtain ⟨v, rfl⟩ := exists_one count
    cases v with
    | text name =>
      refine gives_then (gives_popText _) (gives_get ?_)
      intro s ints
      cases loaded : s.memory.load name with
      | none => exact gives_fail trivial
      | some v =>
        refine leaves_push full c ?_
        rw [ints name v loaded]
        exact Option.some.inj h
    | _ => cases h

theorem gives_shuffle (c : Setup ω) {w : Shuffle} {args : List Value}
    (count : args.length = (Word.shuffle w).arity)
    (h : (Word.shuffle w).results? (args.map Value.kind) = some kinds) :
    Gives (Token.word (.shuffle w)).MayFail k (args ++ rest) (shuffle c w)
      fun _ ys => Leaves kinds rest ys := by
  have full := (Token.word (.shuffle w)).mayFail_push
  cases w with
  | dup =>
    obtain ⟨a, rfl⟩ := exists_one count
    obtain rfl := Option.some.inj h
    refine gives_then (gives_peek rfl) ?_
    exact (gives_push c full).mono fun _ _ same => ⟨[a, a], same, rfl⟩
  | drop =>
    obtain ⟨a, rfl⟩ := exists_one count
    obtain rfl := Option.some.inj h
    exact gives_then gives_pop (gives_pure ⟨[], rfl, rfl⟩)
  | swap =>
    obtain ⟨a, b, rfl⟩ := exists_two count
    exact gives_then gives_pop (gives_then gives_pop (leaves_pushAll full c (Option.some.inj h)))
  | «over» =>
    obtain ⟨a, b, rfl⟩ := exists_two count
    obtain rfl := Option.some.inj h
    refine gives_then (gives_peek rfl) ?_
    exact (gives_push c full).mono fun _ _ same => ⟨[b, a, b], same, rfl⟩
  | dup2 =>
    obtain ⟨a, b, rfl⟩ := exists_two count
    obtain rfl := Option.some.inj h
    refine gives_then (gives_peek rfl) (gives_then (gives_peek rfl) ?_)
    exact (gives_pushAll c full).mono fun _ _ same => ⟨[a, b, a, b], same, rfl⟩
  | swap2 =>
    obtain _ | ⟨d, _ | ⟨e, _ | ⟨b, _ | ⟨a, _ | ⟨_, _⟩⟩⟩⟩⟩ := args <;> simp [Word.arity] at count
    exact gives_then gives_pop (gives_then gives_pop (gives_then gives_pop (gives_then gives_pop
      (leaves_pushAll full c (Option.some.inj h)))))

/-- A tool word that takes one path. -/
theorem gives_path {w : Tool} {v : Value} {m : String → Action ω Unit}
    (h : w.results? [v.kind] = some kinds)
    (asks : ∀ path, w.results? [.path] = some kinds →
      Gives (Token.word (.tool w)).MayFail k rest (m path) fun _ ys => Leaves kinds rest ys) :
    Gives (Token.word (.tool w)).MayFail k (v :: rest) (popPath (.tool w) >>= m)
      fun _ ys => Leaves kinds rest ys := by
  cases v with
  | path p => exact gives_then (gives_popPath _) (asks p h)
  | int n => cases w <;> cases h
  | text t => cases w <;> cases h

/-- A tool word that takes two paths. -/
theorem gives_paths {w : Tool} (two : w = .move ∨ w = .copy ∨ w = .unzip)
    {v u : Value} {m : String → String → Action ω Unit}
    (h : w.results? [v.kind, u.kind] = some kinds)
    (asks : ∀ dst src, w.results? [.path, .path] = some kinds →
      Gives (Token.word (.tool w)).MayFail k rest (m dst src) fun _ ys => Leaves kinds rest ys) :
    Gives (Token.word (.tool w)).MayFail k (v :: u :: rest)
      (popPath (.tool w) >>= fun dst => popPath (.tool w) >>= fun src => m dst src)
      fun _ ys => Leaves kinds rest ys := by
  obtain ⟨⟨p, rfl⟩, ⟨q, rfl⟩⟩ : (∃ p, v = .path p) ∧ ∃ q, u = .path q := by
    rcases two with rfl | rfl | rfl <;> cases v <;> cases u <;>
      first | exact ⟨⟨_, rfl⟩, _, rfl⟩ | cases h
  exact gives_then (gives_popPath _) (gives_then (gives_popPath _) (asks p q h))

/-- A tool word that takes an index and a path. -/
theorem gives_entry {w : Tool} (entry : w = .fileAt ∨ w = .dirAt)
    {v u : Value} {m : String → Int64 → Action ω Unit}
    (h : w.results? [v.kind, u.kind] = some kinds)
    (asks : ∀ dir index, w.results? [.path, .int] = some kinds →
      Gives (Token.word (.tool w)).MayFail k rest (m dir index) fun _ ys => Leaves kinds rest ys) :
    Gives (Token.word (.tool w)).MayFail k (v :: u :: rest)
      (popPath (.tool w) >>= fun dir => popInt (.tool w) >>= fun index => m dir index)
      fun _ ys => Leaves kinds rest ys := by
  obtain ⟨⟨p, rfl⟩, ⟨n, rfl⟩⟩ : (∃ p, v = .path p) ∧ ∃ n, u = .int n := by
    rcases entry with rfl | rfl <;> cases v <;> cases u <;>
      first | exact ⟨⟨_, rfl⟩, _, rfl⟩ | cases h
  exact gives_then (gives_popPath _) (gives_then (gives_popInt _) (asks p n h))

theorem gives_tool (c : Setup ω) {w : Tool} {args : List Value} (count : args.length = w.arity)
    (h : w.results? (args.map Value.kind) = some kinds) :
    Gives (Token.word (.tool w)).MayFail k (args ++ rest) (tool c w)
      fun _ ys => Leaves kinds rest ys := by
  have full := (Token.word (.tool w)).mayFail_push
  cases w with
  | download =>
    obtain ⟨v, u, rfl⟩ := exists_two count
    cases v with
    | path dest =>
      cases u with
      | text url =>
        refine gives_then (gives_popPath _) (gives_then (gives_popText _) ?_)
        exact leaves_ask c .download (.download url dest) id fun o =>
          leaves_push full c (Option.some.inj h)
      | _ => cases h
    | _ => cases u <;> cases h
  | readFile =>
    obtain ⟨v, rfl⟩ := exists_one count
    refine gives_path h fun path h => leaves_ask c .readFile (.readText path) id ?_
    intro o
    cases o <;> exact leaves_pushAll full c (Option.some.inj h)
  | move =>
    obtain ⟨v, u, rfl⟩ := exists_two count
    exact gives_paths (.inl rfl) h fun dst src h =>
      leaves_ask c .move (.move src dst) id fun o => leaves_push full c (Option.some.inj h)
  | copy =>
    obtain ⟨v, u, rfl⟩ := exists_two count
    refine gives_paths (.inr (.inl rfl)) h fun dst src h =>
      leaves_ask c .copy (.copy src dst) id ?_
    intro o
    rcases o with _ | _ | _ <;> exact leaves_pushAll full c (Option.some.inj h)
  | exist =>
    obtain ⟨v, rfl⟩ := exists_one count
    refine gives_path h fun path h => gives_bind (gives_ask c (.pathExists path)) ?_
    intro _ ys same
    obtain rfl := same
    exact leaves_push full c (Option.some.inj h)
  | touch =>
    obtain ⟨v, rfl⟩ := exists_one count
    exact gives_path h fun path h =>
      leaves_ask c .touch (.touch path) id fun o => leaves_push full c (Option.some.inj h)
  | mkdir =>
    obtain ⟨v, rfl⟩ := exists_one count
    exact gives_path h fun path h =>
      leaves_ask c .mkdir (.makeDir path) id fun o => leaves_push full c (Option.some.inj h)
  | remove =>
    obtain ⟨v, rfl⟩ := exists_one count
    exact gives_path h fun path h =>
      leaves_ask c .remove (.remove path) id fun o => leaves_push full c (Option.some.inj h)
  | unzip =>
    obtain ⟨v, u, rfl⟩ := exists_two count
    refine gives_paths (.inr (.inr rfl)) h fun dest archive h =>
      leaves_ask c .unzip (.unzip archive dest) id ?_
    intro o
    cases o <;> exact leaves_pushAll full c (Option.some.inj h)
  | countFiles =>
    obtain ⟨v, rfl⟩ := exists_one count
    exact gives_path h fun dir h =>
      leaves_ask c .countFiles (.listFiles dir) id fun o => leaves_push full c (Option.some.inj h)
  | countDirs =>
    obtain ⟨v, rfl⟩ := exists_one count
    exact gives_path h fun dir h =>
      leaves_ask c .countDirs (.listDirs dir) id fun o => leaves_push full c (Option.some.inj h)
  | fileAt =>
    obtain ⟨v, u, rfl⟩ := exists_two count
    exact gives_entry (.inl rfl) h fun dir index h =>
      leaves_ask c .fileAt (.listFiles dir)
        (fun names => Except.bind names fun names => entryAt names index dir)
        fun o => leaves_push full c (Option.some.inj h)
  | dirAt =>
    obtain ⟨v, u, rfl⟩ := exists_two count
    refine gives_entry (.inr rfl) h fun dir index h =>
      gives_bind (gives_ask c (.listDirs dir)) ?_
    intro names ys same
    obtain rfl := same
    cases Except.bind names fun names => entryAt names index dir with
    | ok name => exact leaves_push full c (Option.some.inj h)
    | error e => exact gives_fail trivial

/-- **A data word that is accepted** leaves the kinds its effect says and goes on. -/
theorem gives_word (c : Setup ω) {op : Word} (data : (Token.word op).isData = true)
    {args : List Value} (count : args.length = op.arity)
    (h : op.results? (args.map Value.kind) = some kinds) :
    Gives (Token.word op).MayFail k (args ++ rest) (perform c { token := .word op })
      fun effect ys => effect = .next ∧ Leaves kinds rest ys := by
  have full := (Token.word op).mayFail_push
  have next {m : Action ω Unit} {xs : List Value}
      (given : Gives (Token.word op).MayFail k xs m fun _ ys => Leaves kinds rest ys) :
      Gives (Token.word op).MayFail k xs (andNext m)
        fun effect ys => effect = .next ∧ Leaves kinds rest ys :=
    gives_bind given fun _ _ leaves => gives_pure ⟨rfl, leaves⟩
  cases op with
  | print =>
    obtain ⟨v, rfl⟩ := exists_one count
    obtain rfl := Option.some.inj h
    exact next (gives_print c)
  | convert w => exact next (gives_convert c count h)
  | access w => exact next (gives_access c count h)
  | arithmetic w =>
    obtain ⟨t, b, rfl⟩ := exists_two count
    obtain ⟨value, fault⟩ := Arithmetic.apply_typed h
    exact next (leaves_binary full c value fun e he => fault e he ▸ trivial)
  | count w =>
    obtain ⟨v, rfl⟩ := exists_one count
    cases v with
    | int n =>
      obtain rfl := Option.some.inj h
      obtain ⟨value, fault⟩ := w.intOrOverflow n
      have result : Gives (Token.word (.count w)).MayFail k rest
          (.ofExcept (w.apply n) : Action ω Value) fun v ys => v.kind = .int ∧ ys = rest :=
        gives_ofExcept (fun v hv => ⟨value v hv, rfl⟩) fun e he => fault e he ▸ trivial
      refine next (gives_then (gives_popInt _) (gives_bind result ?_))
      intro v ys given
      obtain ⟨kind, rfl⟩ := given
      exact leaves_push full c (by rw [kind])
    | _ => cases h
  | shuffle w => exact next (gives_shuffle c count h)
  | mark m => cases data
  | leave l => cases data
  | compare w =>
    obtain ⟨t, b, rfl⟩ := exists_two count
    exact next (leaves_operator full c (Comparison.apply_typed h))
  | bitwise w =>
    obtain ⟨t, b, rfl⟩ := exists_two count
    exact next (leaves_operator full c (Bitwise.apply_typed h))
  | complement =>
    obtain ⟨v, rfl⟩ := exists_one count
    cases v with
    | int n => exact next (gives_then (gives_popInt _) (leaves_push full c (Option.some.inj h)))
    | _ => cases h
  | logic w =>
    obtain ⟨t, b, rfl⟩ := exists_two count
    exact next (leaves_operator full c (Logic.apply_typed h))
  | negate =>
    obtain ⟨v, rfl⟩ := exists_one count
    have condition : v.kind ≠ .path ∧ [Kind.int] = kinds := by
      cases v with
      | path p => cases h
      | int n => exact ⟨nofun, Option.some.inj h⟩
      | text t => exact ⟨nofun, Option.some.inj h⟩
    refine next (gives_bind (gives_popCondition _ condition.1) ?_)
    intro b ys same
    obtain rfl := same
    exact leaves_push full c condition.2
  | tool w => exact next (gives_tool c count h)

end Machine

end Chore
