import Chore.Machine.Trace
import Chore.Machine.World
import Chore.Proofs.Machine.Parts
import Chore.Proofs.Machine.Path

/-!
# What the accounts of a run tell

The accounts of a run are enough to tell what it did. `replay?` takes the pushes and pops of a row
of events to a stack, and gives up where a value is taken that is not on top. Every part of an
instruction writes down what it does to the stack (`Composed.recounts`), so the events of an
instruction replay to the stack behind it, also when it fails (`turn_replay`). `Recorded` is a run
with its accounts: `run_recorded` ties it to the machine, and what a whole run tells follows by
induction on it.

Printing is the one part that reaches the output. When the output takes everything, a run prints
what its accounts say (`Entry.printed`).
-/

set_option autoImplicit false

namespace Chore

/-- What an event does to the values of a stack, top first. -/
def Event.replay? : Event → List Value → Option (List Value)
  | .pushed v, values => some (v :: values)
  | .popped v, top :: values => if v = top then some values else none
  | .popped _, [] => none
  | .noted _, values => some values

/-- What an instruction printed, by its account: the value it took, on a line of its own. -/
def Entry.printed (e : Entry) : String :=
  match e.token, e.outcome, e.events with
  | .word .print, .ok _, [.popped v] => v.display ++ "\n"
  | _, _, _ => ""

/-- An account tells that the program goes on with the next one. -/
def Entry.LeadsTo (e next : Entry) : Prop :=
  match e.outcome with
  | .ok .next => next.ip = e.ip + 1
  | .ok (.jump n) => next.ip = n
  | .ok (.call n) => next.ip = n
  | .ok .exit => False
  | .error _ => False

namespace Machine

variable {ω σ : Type}

/-- What a row of events does to the values of a stack. -/
def replay? : List Event → List Value → Option (List Value)
  | [], values => some values
  | e :: events, values => (e.replay? values).bind (replay? events)

/-- The events of a row of accounts, in order. -/
def eventsOf (entries : List Entry) : List Event :=
  entries.flatMap Entry.events

theorem replay?_append (before behind : List Event) (values : List Value) :
    replay? (before ++ behind) values = (replay? before values).bind (replay? behind) := by
  induction before generalizing values with
  | nil => rfl
  | cons e before ih =>
    rw [List.cons_append, replay?, replay?, Option.bind_assoc]
    congr 1
    funext values
    exact ih values

theorem replay?_noted (notes : List Note) (values : List Value) :
    replay? (notes.map .noted) values = some values := by
  induction notes with
  | nil => rfl
  | cons n notes ih => exact ih

theorem eventsOf_cons (e : Entry) (entries : List Entry) :
    eventsOf (e :: entries) = e.events ++ eventsOf entries :=
  List.flatMap_cons

/-! ## Instructions -/

/-- The events between two scenes of an instruction replay from the stack of the one to that of
the other. -/
def Scene.Recounts (s t : Scene ω) : Prop :=
  ∃ events, t.events = events.reverse ++ s.events ∧
    replay? events s.stack.toList = some t.stack.toList

theorem Scene.Recounts.silent {s t : Scene ω} (events : t.events = s.events)
    (stack : t.stack = s.stack) : s.Recounts t := by
  refine ⟨[], events, ?_⟩
  rw [stack, replay?]

theorem Scene.Recounts.trans {s t u : Scene ω} (h : s.Recounts t) (g : t.Recounts u) :
    s.Recounts u := by
  obtain ⟨first, same, replays⟩ := h
  obtain ⟨second, same', replays'⟩ := g
  refine ⟨first ++ second, ?_, ?_⟩
  · rw [same', same, List.reverse_append, List.append_assoc]
  · rw [replay?_append, replays]
    exact replays'

/-- Whatever an action does to the stack is among its events. -/
def Recounting {α : Type} (m : Action ω α) : Prop :=
  ∀ s : Scene ω, s.Recounts (m s).2

theorem Recounting.bind {α β : Type} {m : Action ω α} {f : α → Action ω β} (h : Recounting m)
    (g : ∀ a, Recounting (f a)) : Recounting (m >>= f) :=
  Attempt.bind_relates .trans h g

theorem recounting_pop : Recounting (pop : Action ω Value) := by
  intro s
  unfold pop
  cases popped : s.stack.pop? with
  | none => exact .silent rfl rfl
  | some result =>
    obtain ⟨v, below⟩ := result
    refine ⟨[.popped v], rfl, ?_⟩
    rw [Stack.pop?_eq_some_iff.1 popped]
    simp [replay?, Event.replay?]

theorem recounting_push (c : Setup ω) (v : Value) : Recounting (push c v) := by
  intro s
  unfold push
  split
  · exact ⟨[.pushed v], rfl, rfl⟩
  · exact .silent rfl rfl

theorem recounting_peek (depth : Nat) : Recounting (peek depth : Action ω Value) := by
  intro s
  unfold peek
  cases s.stack.peek? depth with
  | none => exact .silent rfl rfl
  | some v => exact .silent rfl rfl

theorem recounting_note (n : Note) : Recounting (note n : Action ω Unit) := by
  intro s
  exact ⟨[.noted n], rfl, rfl⟩

theorem recounting_ask (c : Setup ω) (r : Request) : Recounting (ask c r) := by
  intro s
  refine ⟨(c.host.notes r s.world).map .noted, ?_, replay?_noted _ _⟩
  simp only [ask, List.map_reverse]

theorem recounting_ret : Recounting (ret : Action ω Effect) := by
  intro s
  unfold ret
  cases s.calls.pop? with
  | none => exact .silent rfl rfl
  | some result => exact .silent rfl rfl

/-- Only the answer of the output and the world come after a printed value is taken. -/
theorem recounting_print (c : Setup ω) : Recounting (print c) := by
  apply recounting_pop.bind
  intro v s
  rcases written : c.host.write (v.display ++ "\n") s.world with ⟨_ | _, world⟩
  all_goals
    simp only [written]
    exact .silent rfl rfl

theorem Composed.recounts {α : Type} {c : Setup ω} {m : Action ω α} (h : Composed c m) :
    Recounting m := by
  induction h with
  | pure a => exact fun _ => .silent rfl rfl
  | fail => exact fun _ => .silent rfl rfl
  | bind _ _ first second => exact first.bind second
  | get => exact fun _ => .silent rfl rfl
  | pop => exact recounting_pop
  | push v => exact recounting_push c v
  | peek depth => exact recounting_peek depth
  | note n => exact recounting_note n
  | ask r => exact recounting_ask c r
  | store name v => exact fun _ => .silent rfl rfl
  | ret => exact recounting_ret

theorem recounting_perform (c : Setup ω) (instr : Instr) : Recounting (perform c instr) := by
  by_cases prints : instr.token = .word .print
  · obtain ⟨token, next, role⟩ := instr
    obtain rfl : token = .word .print := prints
    exact (recounting_print c).bind fun _ _ => .silent rfl rfl
  · exact (composed_perform c instr prints).recounts

/-- **The events of an instruction**, also of one that fails, replay to the stack behind it. -/
theorem turn_replay (c : Setup ω) (s : State ω) (instr : Instr) :
    replay? (turn c s instr).1.events s.store.stack.toList =
      some (turn c s instr).2.stack.toList := by
  obtain ⟨events, same, replays⟩ := recounting_perform c instr { s.store with }
  have account : (turn c s instr).1.events = events := by
    simp only [turn, same, List.append_nil, List.reverse_reverse]
  rw [account]
  exact replays

/-! ## Runs with their accounts -/

theorem advance_keeps {c : Setup ω} {s t : State ω} {store : Store ω} {e : Effect}
    (h : s.advance c store e = .ok t) :
    t.counter = s.counter + 1 ∧ t.store.stack = store.stack ∧ t.store.world = store.world := by
  cases e with
  | next => cases h; exact ⟨rfl, rfl, rfl⟩
  | jump n => cases h; exact ⟨rfl, rfl, rfl⟩
  | exit => cases h; exact ⟨rfl, rfl, rfl⟩
  | call n =>
    simp only [State.advance] at h
    split at h
    · cases h; exact ⟨rfl, rfl, rfl⟩
    · cases h

/-- A step succeeds with an effect and goes where it says. -/
theorem Step.effect {c : Setup ω} {s t : State ω} {instr : Instr} (h : Step c s instr t) :
    ∃ e, (turn c s instr).1.outcome = .ok e ∧ s.advance c (turn c s instr).2 e = .ok t := by
  have followed := h.followed
  unfold State.follow at followed
  cases outcome : (turn c s instr).1.outcome with
  | error fault => rw [outcome] at followed; cases followed
  | ok e => rw [outcome] at followed; exact ⟨e, rfl, followed⟩

theorem Step.keeps {c : Setup ω} {s t : State ω} {instr : Instr} (h : Step c s instr t) :
    t.counter = s.counter + 1 ∧ t.store.stack = (turn c s instr).2.stack ∧
      t.store.world = (turn c s instr).2.world := by
  obtain ⟨e, -, advanced⟩ := h.effect
  exact advance_keeps advanced

/-- A run with the account of every instruction, from a state to its end. -/
inductive Recorded (c : Setup ω) : State ω → List Entry → Option RunError → State ω → Prop where
  | finished {s : State ω} (behind : c.program.size ≤ s.ip) : Recorded c s [] none s
  | tooLong {s : State ω} (within : s.ip < c.program.size) :
      Recorded c s [] (some (.tooLong s.counter)) s
  | failed {s : State ω} {instr : Instr} {fault : Fault}
      (fetched : c.program.instructions[s.ip]? = some instr)
      (fails : s.follow c instr = .error fault) :
      Recorded c s [(turn c s instr).1]
        (some (.instructionFailed instr.token s.ip s.counter fault))
        { s with store := (turn c s instr).2 }
  | step {s t u : State ω} {instr : Instr} {entries : List Entry} {error? : Option RunError}
      (first : Step c s instr t) (rest : Recorded c t entries error? u) :
      Recorded c s ((turn c s instr).1 :: entries) error? u

/-- **The accounts kept of a run** are those of its instructions, latest first. -/
theorem run_recorded (c : Setup ω) (n : Nat) (s : State ω) (seen : List Entry) :
    ∃ entries, (run c (record none) n s seen).seen = entries.reverse ++ seen ∧
      Recorded c s entries (run c (record none) n s seen).error?
        (run c (record none) n s seen).state := by
  induction n generalizing s seen with
  | zero =>
    rw [run]
    split
    · exact ⟨[], rfl, .tooLong ‹_›⟩
    · exact ⟨[], rfl, .finished (Nat.le_of_not_lt ‹_›)⟩
  | succ n ih =>
    cases fetched : c.program.instructions[s.ip]? with
    | none =>
      rw [run, fetched]
      exact ⟨[], rfl, .finished (size_le_of_getElem?_eq_none fetched)⟩
    | some instr =>
      rw [run_succ (record none) n seen fetched]
      simp only [record]
      cases followed : s.follow c instr with
      | error fault => exact ⟨[(turn c s instr).1], rfl, .failed fetched followed⟩
      | ok t =>
        obtain ⟨entries, same, recorded⟩ := ih t ((turn c s instr).1 :: seen)
        refine ⟨(turn c s instr).1 :: entries, ?_, .step ⟨fetched, followed⟩ recorded⟩
        simp only [same, List.reverse_cons, List.append_assoc, List.cons_append, List.nil_append]

namespace Recorded

variable {c : Setup ω} {s t : State ω} {entries : List Entry} {error? : Option RunError}

/-- The events of all accounts replay to the stack at the end. -/
theorem replay (h : Recorded c s entries error? t) :
    replay? (eventsOf entries) s.store.stack.toList = some t.store.stack.toList := by
  induction h with
  | finished => rfl
  | tooLong => rfl
  | failed fetched fails =>
    rw [eventsOf_cons, replay?_append, turn_replay]
    rfl
  | step first rest ih =>
    rw [eventsOf_cons, replay?_append, turn_replay]
    rw [first.keeps.2.1] at ih
    exact ih

/-- Each account is that of the instruction at a state of the run, and those before it replay to
the stack of that state. -/
theorem entry_at (h : Recorded c s entries error? t) {k : Nat} {e : Entry}
    (at_k : entries[k]? = some e) :
    ∃ is u instr, Path c s is u ∧ is.length = k ∧ c.program.instructions[u.ip]? = some instr ∧
      e = (turn c u instr).1 ∧
      replay? (eventsOf (entries.take k)) s.store.stack.toList = some u.store.stack.toList := by
  induction h generalizing k with
  | finished => cases at_k
  | tooLong => cases at_k
  | failed fetched fails =>
    cases k with
    | zero => exact ⟨[], _, _, .nil _, rfl, fetched, (Option.some.inj at_k).symm, rfl⟩
    | succ k => cases at_k
  | step first rest ih =>
    cases k with
    | zero => exact ⟨[], _, _, .nil _, rfl, first.fetched, (Option.some.inj at_k).symm, rfl⟩
    | succ k =>
      obtain ⟨is, u, instr, path, long, fetched, account, replays⟩ := ih at_k
      refine ⟨_ :: is, u, instr, .cons first path, congrArg (· + 1) long, fetched, account, ?_⟩
      rw [List.take_succ_cons, eventsOf_cons, replay?_append, turn_replay]
      rw [first.keeps.2.1] at replays
      exact replays

/-- A run without error counts its accounts, and all of them tell a success. -/
theorem counts (h : Recorded c s entries error? t) (fine : error? = none) :
    t.counter = s.counter + entries.countP (·.outcome.isOk) := by
  induction h with
  | finished => rfl
  | tooLong => cases fine
  | failed => cases fine
  | @step s t u instr entries _ first rest ih =>
    obtain ⟨e, outcome, -⟩ := first.effect
    have succeeds : (turn c s instr).1.outcome.isOk := by rw [outcome]; rfl
    rw [ih fine, first.keeps.1, List.countP_cons, if_pos succeeds]
    omega

/-- The first account is about the instruction the run starts at. -/
theorem first_ip (h : Recorded c s entries error? t) {e : Entry} (first : entries[0]? = some e) :
    e.ip = s.ip := by
  cases h with
  | finished => cases first
  | tooLong => cases first
  | failed => cases first; rfl
  | step => cases first; rfl

theorem leadsTo_of_step {instr : Instr} {next : Entry} {u : State ω} (first : Step c s instr t)
    (rest : Recorded c t entries error? u) (second : entries[0]? = some next) :
    Entry.LeadsTo (turn c s instr).1 next := by
  have goes := rest.first_ip second
  obtain ⟨e, succeeds, advanced⟩ := first.effect
  unfold Entry.LeadsTo
  rw [succeeds]
  cases e with
  | next => cases advanced; exact goes
  | jump n => cases advanced; exact goes
  | exit =>
    -- the program has been left, so there is no further account
    cases advanced
    cases rest with
    | finished => cases second
    | tooLong => cases second
    | failed fetched => exact absurd (lt_size_of_getElem?_eq_some fetched) (Nat.lt_irrefl _)
    | step first => exact absurd (lt_size_of_getElem?_eq_some first.fetched) (Nat.lt_irrefl _)
  | call n =>
    simp only [State.advance] at advanced
    split at advanced
    · cases advanced; exact goes
    · cases advanced

/-- Accounts that follow each other agree with the effect of the first. -/
theorem leadsTo (h : Recorded c s entries error? t) {k : Nat} {e next : Entry}
    (at_k : entries[k]? = some e) (behind : entries[k + 1]? = some next) : e.LeadsTo next := by
  induction h generalizing k with
  | finished => cases at_k
  | tooLong => cases at_k
  | failed => cases behind
  | step first rest ih =>
    cases k with
    | zero =>
      obtain rfl := Option.some.inj at_k
      exact leadsTo_of_step first rest behind
    | succ k => exact ih at_k behind

end Recorded

/-! ## Printed output -/

/-- An action leaves the output alone. -/
def Silent {α : Type} (m : Action (World σ) α) : Prop :=
  ∀ s : Scene (World σ), (m s).2.world.output = s.world.output

theorem Silent.bind {α β : Type} {m : Action (World σ) α} {f : α → Action (World σ) β}
    (h : Silent m) (g : ∀ a, Silent (f a)) : Silent (m >>= f) :=
  Attempt.bind_relates (r := fun s t : Scene (World σ) => t.world.output = s.world.output)
    (fun first second => second.trans first) h g

/-- Tools have no part in the output. -/
theorem Composed.silent {α : Type} {program : Program} {tools : Tools σ} {limit : Nat}
    {m : Action (World σ) α} (h : Composed ⟨program, tools.host, limit⟩ m) : Silent m := by
  induction h with
  | pure a => exact fun _ => rfl
  | fail => exact fun _ => rfl
  | bind _ _ first second => exact first.bind second
  | get => exact fun _ => rfl
  | pop =>
    intro s
    unfold Machine.pop
    cases s.stack.pop? with
    | none => rfl
    | some result => rfl
  | push v =>
    intro s
    unfold Machine.push
    split <;> rfl
  | peek depth =>
    intro s
    unfold Machine.peek
    cases s.stack.peek? depth with
    | none => rfl
    | some v => rfl
  | note n => exact fun _ => rfl
  | ask r => exact fun _ => rfl
  | store name v => exact fun _ => rfl
  | ret =>
    intro s
    unfold Machine.ret
    cases s.calls.pop? with
    | none => rfl
    | some result => rfl

theorem print_empty (c : Setup ω) {s : Scene ω} (popped : s.stack.pop? = none) :
    print c s = (.error .popFailed, s) := by
  have fails : pop s = (.error .popFailed, s) := by simp only [pop, popped]
  exact Attempt.bind_apply_error fails _

theorem print_popped {c : Setup ω} {s : Scene ω} {v : Value} {below : Stack Value} {world : ω}
    (popped : s.stack.pop? = some (v, below))
    (written : c.host.write (v.display ++ "\n") s.world = (.ok (), world)) :
    print c s =
      (.ok (), { s with stack := below, world, events := .popped v :: s.events }) := by
  have taken : pop s = (.ok v, { s with stack := below, events := .popped v :: s.events }) := by
    simp only [pop, popped]
  refine (Attempt.bind_apply_ok taken _).trans ?_
  simp only [written]

/-- What is written to an output that takes everything. -/
theorem write_open (tools : Tools σ) (text : String) {w : World σ} (room : w.output.room? = none) :
    tools.host.write text w =
      (.ok (), { w with output := { w.output with bytes := w.output.bytes ++ text.toUTF8 } }) := by
  simp only [Tools.host, Output.write, room]

theorem turn_of_print {c : Setup ω} {s : State ω} {instr : Instr} {outcome : Except Fault Unit}
    {scene : Scene ω} (prints : instr.token = .word .print)
    (result : print c { s.store with } = (outcome, scene)) :
    turn c s instr =
      (⟨s.ip, instr.token, scene.events.reverse, outcome.map fun _ => .next⟩, scene.toStore) := by
  have performs : perform c instr { s.store with } = (outcome.map fun _ => .next, scene) := by
    rw [perform_eq, prints]
    cases outcome with
    | ok _ => exact Attempt.bind_apply_ok result _
    | error fault => exact Attempt.bind_apply_error result _
  simp only [turn, performs]

/-- What is printed goes to the output, and nothing else does. -/
structure Prints (before : Output) (entry : Entry) (after : Output) : Prop where
  room : after.room? = none
  bytes : after.bytes = before.bytes ++ entry.printed.toUTF8
  printed : entry.token = .word .print → entry.outcome.isOk → ∃ v, entry.events = [.popped v]

theorem Prints.nothing {o : Output} {entry : Entry} (room : o.room? = none)
    (other : entry.token = .word .print → entry.outcome.isOk = false) : Prints o entry o := by
  refine ⟨room, ?_, fun prints succeeds => ?_⟩
  · have blank : entry.printed = "" := by
      unfold Entry.printed
      split
      · rename_i prints outcome events
        have fails := other prints
        rw [outcome] at fails
        cases fails
      · rfl
    rw [blank]
    exact (ByteArray.append_empty).symm
  · rw [other prints] at succeeds
    cases succeeds

/-- **An instruction and the output**: what is there afterwards is what was there before and what
the account says was printed. -/
theorem turn_prints (program : Program) (tools : Tools σ) (limit : Nat) {s : State (World σ)}
    (instr : Instr) (room : s.store.world.output.room? = none) :
    Prints s.store.world.output (turn ⟨program, tools.host, limit⟩ s instr).1
      (turn ⟨program, tools.host, limit⟩ s instr).2.world.output := by
  by_cases prints : instr.token = .word .print
  · cases popped : s.store.stack.pop? with
    | none =>
      rw [turn_of_print prints (print_empty _ popped)]
      exact .nothing room fun _ => rfl
    | some result =>
      obtain ⟨v, below⟩ := result
      rw [turn_of_print prints (print_popped popped (write_open tools _ room))]
      refine ⟨room, ?_, fun _ _ => ⟨v, rfl⟩⟩
      simp [Entry.printed, prints, Except.map]
  · have same := (composed_perform ⟨program, tools.host, limit⟩ instr prints).silent { s.store with }
    have output : (turn ⟨program, tools.host, limit⟩ s instr).2.world.output =
        s.store.world.output := same
    rw [output]
    exact .nothing room fun print => absurd print prints

/-- What a whole run printed. -/
theorem Recorded.output {program : Program} {tools : Tools σ} {limit : Nat}
    {s t : State (World σ)} {entries : List Entry} {error? : Option RunError}
    (h : Recorded ⟨program, tools.host, limit⟩ s entries error? t)
    (room : s.store.world.output.room? = none) :
    t.store.world.output.bytes =
        s.store.world.output.bytes ++ (String.join (entries.map Entry.printed)).toUTF8 ∧
      ∀ e ∈ entries, e.token = .word .print → e.outcome.isOk → ∃ v, e.events = [.popped v] := by
  induction h with
  | finished => exact ⟨(ByteArray.append_empty).symm, List.forall_mem_nil _⟩
  | tooLong => exact ⟨(ByteArray.append_empty).symm, List.forall_mem_nil _⟩
  | @failed s instr =>
    have prints := turn_prints program tools limit instr room
    refine ⟨?_, ?_⟩
    · rw [prints.bytes, List.map_singleton, String.join_cons, String.join_nil, String.append_empty]
    · simpa using prints.printed
  | @step s t u instr entries error? first rest ih =>
    have prints := turn_prints program tools limit instr room
    rw [first.keeps.2.2] at ih
    obtain ⟨bytes, printed⟩ := ih prints.room
    refine ⟨?_, List.forall_mem_cons.2 ⟨prints.printed, printed⟩⟩
    calc u.store.world.output.bytes
      _ = s.store.world.output.bytes ++
            (turn ⟨program, tools.host, limit⟩ s instr).1.printed.toUTF8 ++
            (String.join (entries.map Entry.printed)).toUTF8 := by rw [bytes, prints.bytes]
      _ = s.store.world.output.bytes ++ ((turn ⟨program, tools.host, limit⟩ s instr).1.printed ++
            String.join (entries.map Entry.printed)).toUTF8 := by
          rw [ByteArray.append_assoc]
          exact congrArg (_ ++ ·) (String.toByteArray_append).symm
      _ = s.store.world.output.bytes ++ (String.join (((turn ⟨program, tools.host, limit⟩ s
            instr).1 :: entries).map Entry.printed)).toUTF8 := by
          rw [List.map_cons, String.join_cons]

/-- **The trace of a run tells what it did**, when the output takes everything. Account `k` is that
of the instruction behind the first `k`. The events up to it replay, from an empty stack, to the
stack before that instruction, and with its own to the stack behind it, also if it fails. The
accounts of success are as many as the run counts, each account agrees with the effect of the one
before, and the output is what the accounts say was printed. -/
theorem trace_tells_run (program : Program) (tools : Tools σ) (limits : Limits) (state : σ) :
    let c : Setup (World σ) := ⟨program, tools.host, limits.stack⟩
    let start : State (World σ) := { store := { world := { tools := state } } }
    let ending := runProgram program tools.host limits (record none) { tools := state } []
    let log := ending.seen.reverse
    (∀ k entry, log[k]? = some entry → ∃ is s instr,
      Path c start is s ∧ is.length = k ∧ program.instructions[s.ip]? = some instr ∧
        entry = (turn c s instr).1 ∧
        replay? (eventsOf (log.take k)) [] = some s.store.stack.toList ∧
        replay? (eventsOf (log.take (k + 1))) [] = some (turn c s instr).2.stack.toList) ∧
    replay? (eventsOf log) [] = some ending.state.store.stack.toList ∧
    (ending.error? = none → log.countP (·.outcome.isOk) = ending.state.counter) ∧
    (∀ entry, log[0]? = some entry → entry.ip = 0) ∧
    (∀ k entry next, log[k]? = some entry → log[k + 1]? = some next → entry.LeadsTo next) ∧
    ending.state.store.world.output.bytes = (String.join (log.map Entry.printed)).toUTF8 ∧
    ∀ entry ∈ log, entry.token = .word .print → entry.outcome.isOk →
      ∃ v, entry.events = [.popped v] := by
  intro c start ending log
  obtain ⟨entries, seen, recorded⟩ := run_recorded c limits.steps start []
  have same : log = entries := by
    have kept : ending.seen = entries.reverse ++ [] := seen
    simp only [log, kept, List.append_nil, List.reverse_reverse]
  have told : Recorded c start log ending.error? ending.state := same ▸ recorded
  obtain ⟨bytes, printed⟩ := told.output rfl
  refine ⟨fun k entry at_k => ?_, told.replay, fun fine => ?_, fun entry => told.first_ip,
    fun k entry next => told.leadsTo, ?_, printed⟩
  · obtain ⟨is, s, instr, path, long, fetched, rfl, before⟩ := told.entry_at at_k
    refine ⟨is, s, instr, path, long, fetched, rfl, before, ?_⟩
    have behind : eventsOf (log.take (k + 1)) =
        eventsOf (log.take k) ++ (turn c s instr).1.events := by
      simp only [eventsOf, List.take_add_one, at_k, Option.toList_some, List.flatMap_append,
        List.flatMap_singleton]
    have empty : start.store.stack.toList = [] := rfl
    rw [behind, replay?_append, ← empty, before]
    exact turn_replay c s instr
  · have counted := told.counts fine
    have zero : start.counter = 0 := rfl
    omega
  · rw [bytes]
    exact ByteArray.empty_append

end Machine

end Chore
