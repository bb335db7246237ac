import Chore.Machine.Run

/-!
# Watching a run

Ready-made watchers: one that looks at nothing, one that keeps every account, up to a number at
which it interrupts, and one that writes the journal of a run. Journal notes of an instruction are
its own notes in order, with pushes, pops and its outcome between them if every step is asked for,
and then its jump if jumps are asked for. `runNoting` is a run with its whole journal.
-/

set_option autoImplicit false

namespace Chore.Machine

variable {τ : Type}

/-- Looks at nothing. -/
def quiet : Watch Unit := fun _ _ => ((), none)

/-- Keeps every account, latest first, and interrupts once there are enough. -/
def record (enough? : Option Nat) : Watch (List Entry) := fun entries entry =>
  (entry :: entries,
    match enough? with
    | some n => if n ≤ entries.length + 1 then some s!"limit {Text.showNat n}" else none
    | none => none)

/-- What is noted of one event; values that move only if every step is asked for. -/
def Event.notes (steps : Bool) : Event → List Note
  | .pushed v => if steps then [.trace "push" [("value", v.display)]] else []
  | .popped v => if steps then [.trace "pop" [("value", v.display)]] else []
  | .noted n => [n]

/-- An effect in the journal. -/
def Effect.display : Effect → String
  | .next => "None"
  | .jump n => s!"Jump({Text.showNat n})"
  | .call n => s!"Call({Text.showNat n})"
  | .exit => "Exit"

/-- What is noted of one instruction before it is followed. -/
def Entry.notes (steps : Bool) (e : Entry) : List Note :=
  e.events.flatMap (Event.notes steps) ++
    if steps then
      let place := [("ip", Text.showNat e.ip), ("token", e.token.display)]
      match e.outcome with
      | .ok effect => [.trace "step" (place ++ [("effect", Effect.display effect)])]
      | .error fault => [.trace "step failed" (place ++ [("error", fault.message)])]
    else []

/-- What is noted when an instruction jumps. -/
def Entry.jumpNotes (e : Entry) : List Note :=
  match e.outcome with
  | .ok (.jump n) => [.debug "jump" [("from", Text.showNat e.ip), ("to", Text.showNat n)]]
  | _ => []

/-- Writes the journal, latest note first, while another watcher watches too. A jump is noted when
it is followed, so not at an interruption. -/
def journal (steps jumps : Bool) (watch : Watch τ) : Watch (τ × List Note) :=
  fun (seen, notes) e =>
    let notes := (Entry.notes steps e).reverse ++ notes
    match watch seen e with
    | (seen, some reason) => ((seen, notes), some reason)
    | (seen, none) => ((seen, if jumps then (Entry.jumpNotes e).reverse ++ notes else notes), none)

/-- The note at the start of a run. -/
def startNote (program : Program) : Note :=
  .debug "run" [("instructions", Text.showNat program.size),
    ("procedures", Text.showNat program.procedures.length)]

/-- The note at the end of a run without error. -/
def finishNote {ω : Type} (s : State ω) : Note :=
  .debug "finished" [("instructions_run", Text.showNat s.counter),
    ("stack", Text.showNat s.store.stack.size)]

/-- Runs a program and keeps the journal: a note at the start, notes made while the machine is
prepared, those of the instructions, and a note at the end unless the run ends in an error. -/
def runNoting {ω : Type} (program : Program) (host : Host ω) (limits : Limits) (watch : Watch τ)
    (steps jumps : Bool) (preparing : List Note) (world : ω) (seen : τ) :
    Ending ω τ × List Note :=
  let ending := runProgram program host limits (journal steps jumps watch) world (seen, [])
  let finish := if ending.error?.isNone then [finishNote ending.state] else []
  (⟨ending.error?, ending.state, ending.seen.1⟩,
    startNote program :: preparing ++ ending.seen.2.reverse ++ finish)

end Chore.Machine
