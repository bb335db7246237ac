import Chore.CommandLine.Options
import Chore.CommandLine.Report
import Chore.Host
import Chore.Load
import Chore.Machine.Trace
import Chore.Settings

/-!
# The command

`execute` is the whole command on a file tree: it reads the program file, loads it, and runs it
with the limits of the environment unless the arguments give others. The exit code is 0 for
success, 1 for a program that cannot be read, loaded or run to its end, and 2 for arguments that
do not make a command. What a program printed and did to files before it failed stays.
-/

set_option autoImplicit false

namespace Chore.CommandLine

open File (Files)

/-- Notes that are shown: warnings, and all of them if every step is asked for. -/
def shown (o : Options) (notes : List Note) : List Message :=
  (notes.filter fun n => o.has .verbose || n.level = .warn).map .note

/-- The report of a failure, behind other messages. -/
def failed (output : String) (messages : List Message) (f : Failure) : Report :=
  { code := 1, output, messages := messages ++ [.text f.text] }

/-- The line on a program that was only checked. -/
def checkedLine (file : String) (p : Program) : String :=
  s!"{file}: ok ({Text.showNat p.size} instructions, " ++
    s!"{Text.showNat p.procedures.length} procedures)"

/-- The lines on a run that came to its end. -/
def statsLines {ω : Type} (s : Machine.State ω) : List String :=
  [s!"Instructions executed: {Text.showNat s.counter}",
    s!"Values left on the stack: {Text.showNat s.store.stack.size}"]

/-- Runs a loaded program, behind the messages so far. -/
def runLoaded (network : Network) (env : String → Option String) (o : Options)
    (messages : List Message) (p : Program) (f : Files) : Report × Files :=
  let (settings, warnings) := Settings.ofEnvironment env
  let limits : Machine.Limits :=
    { stack := o.amountOr .stack settings.limits.stack
      steps := o.amountOr .steps settings.limits.steps }
  let verbose := o.has .verbose
  let (ending, notes) :=
    Machine.runNoting p (Files.tools network).host limits Machine.quiet verbose
      (verbose && settings.shouldLog 2) [] { tools := f } ()
  let world := ending.state.store.world
  let messages := messages ++ shown o (warnings ++ notes)
  match ending.error? with
  | some e => (failed world.output.text messages { message := e.message }, world.tools)
  | none =>
    let stats := if o.has .stats then (statsLines ending.state).map Message.text else []
    ({ code := 0, output := world.output.text, messages := messages ++ stats }, world.tools)

/-- Does what the options ask for. -/
def executeOptions (network : Network) (env : String → Option String) (o : Options) (f : Files) :
    Report × Files :=
  match f.textAt o.file with
  | .error e => (failed "" [] { message := s!"Cannot read {o.file}", causes := [e.message] }, f)
  | .ok source =>
    let (outcome, notes) := loadNoting source []
    let messages := shown o notes.reverse
    match outcome with
    | .error e =>
      let causes := [e.message, e.cause]
      (failed "" messages { message := s!"Cannot load {o.file}", causes }, f)
    | .ok p =>
      if o.has .check then
        ({ code := 0, messages := messages ++ [.text (checkedLine o.file p)] }, f)
      else runLoaded network env o messages p f

/-- The command: its report, and the files afterwards. -/
def execute (network : Network) (env : String → Option String) (args : List String) (f : Files) :
    Report × Files :=
  match Options.ofArguments args with
  | .error .help => ({ code := 0, output := usage ++ "\n" }, f)
  | .error e => ({ code := 2, messages := [.text e.message] }, f)
  | .ok o => executeOptions network env o f

end Chore.CommandLine
