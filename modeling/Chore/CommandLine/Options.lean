import Chore.Text.Decimal

/-!
# Options of the command line

The arguments of the command: one program file, switches, and numbers that override the limits of
a run. An option has a long name behind two dashes and a letter behind one. Letters may stand
together, and a number may stand in the same argument as its option, behind an equals sign or,
after a letter, directly. Behind a lone pair of dashes everything is a file.

Arguments are read from the left, and the first one that does not fit ends the reading. Nothing
may be given twice.
-/

set_option autoImplicit false

namespace Chore.CommandLine

/-- What is turned on by naming it. -/
inductive Switch where
  | check
  | stats
  | verbose
  deriving DecidableEq

/-- What is set to a number. -/
inductive Amount where
  | stack
  | steps
  deriving DecidableEq

/-- Anything that can be named in an argument. -/
inductive Named where
  | switch (s : Switch)
  | amount (a : Amount)
  | help
  deriving DecidableEq

/-- The long name of a switch. -/
def Switch.name : Switch → String
  | check => "--check"
  | stats => "--stats"
  | verbose => "--verbose"

/-- The long name of a number. -/
def Amount.name : Amount → String
  | stack => "--max-stack-size"
  | steps => "--op-limit"

namespace Named

/-- What a letter stands for. -/
def ofLetter? : Char → Option Named
  | 'm' => some (.amount .stack)
  | 'l' => some (.amount .steps)
  | 'c' => some (.switch .check)
  | 's' => some (.switch .stats)
  | 'v' => some (.switch .verbose)
  | 'h' => some .help
  | _ => none

/-- What a long name stands for. -/
def ofName? (name : String) : Option Named :=
  if name = "--help" then some .help
  else
    ([.switch .check, .switch .stats, .switch .verbose, .amount .stack, .amount .steps] :
        List Named).find? fun
      | .switch s => s.name = name
      | .amount a => a.name = name
      | .help => false

end Named

/-- Why arguments do not make a command. Asking for help ends the reading in the same way. -/
inductive UsageError where
  | help
  | unknown (arg : String)
  | repeated (name : String)
  | noValue (name : String)
  | unwantedValue (name : String)
  | notNumber (name value : String) (e : Text.NumberError)
  | noFile
  | emptyFile
  | secondFile (file : String)
  deriving DecidableEq

/-- How the command is used. -/
def usage : String :=
  "Usage: chore [OPTIONS] <FILE>\n\n" ++
    "Options:\n" ++
    "  -m, --max-stack-size <N>  Maximum stack size\n" ++
    "  -l, --op-limit <N>        Maximum number of executed instructions\n" ++
    "  -c, --check               Only load and type check the program\n" ++
    "  -s, --stats               Print statistics after the run\n" ++
    "  -v, --verbose             Log every instruction and stack change\n" ++
    "  -h, --help                Print this help"

/-- The wording of a usage error. -/
def UsageError.message : UsageError → String
  | help => usage
  | unknown arg => s!"error: unknown option {arg}"
  | repeated name => s!"error: {name} is given more than once"
  | noValue name => s!"error: {name} needs a value"
  | unwantedValue name => s!"error: {name} takes no value"
  | notNumber name value e => s!"error: {value} is no value for {name}: {e.message}"
  | noFile => "error: no file is given"
  | emptyFile => "error: the name of the file is empty"
  | secondFile file => s!"error: one file is enough, so not {file}"

/-- What arguments have said so far. -/
structure Draft where
  file? : Option String := none
  switches : List Switch := []
  amounts : List (Amount × Nat) := []

namespace Draft

/-- Turns a switch on. -/
def turnOn (d : Draft) (s : Switch) : Except UsageError Draft :=
  if s ∈ d.switches then .error (.repeated s.name)
  else .ok { d with switches := s :: d.switches }

/-- Sets a number. -/
def fill (d : Draft) (a : Amount) (value : String) : Except UsageError Draft :=
  if (d.amounts.lookup a).isSome then .error (.repeated a.name)
  else
    match Text.readUnsigned (UInt64.size - 1) value.toList with
    | .ok n => .ok { d with amounts := (a, n) :: d.amounts }
    | .error e => .error (.notNumber a.name value e)

/-- Takes a file. -/
def addFile (d : Draft) (file : String) : Except UsageError Draft :=
  match d.file? with
  | some _ => .error (.secondFile file)
  | none => if file = "" then .error .emptyFile else .ok { d with file? := some file }

/-- Reads an argument that starts with a long name; a number without a value is left open. -/
def readLong (d : Draft) (arg : String) : Except UsageError (Draft × Option Amount) := do
  let name := String.ofList (arg.toList.takeWhile (· ≠ '='))
  match Named.ofName? name, arg.toList.dropWhile (· ≠ '=') with
  | none, _ => .error (.unknown arg)
  | some .help, [] => .error .help
  | some (.switch s), [] => return (← d.turnOn s, none)
  | some (.amount a), [] => return (d, some a)
  | some (.amount a), _ :: value => return (← d.fill a (String.ofList value), none)
  | some _, _ :: _ => .error (.unwantedValue name)

/-- Reads letters; a number at the end, without a value, is left open. -/
def readLetters (d : Draft) : List Char → Except UsageError (Draft × Option Amount)
  | [] => .ok (d, none)
  | c :: cs =>
    match Named.ofLetter? c with
    | none => .error (.unknown (String.ofList ['-', c]))
    | some .help => .error .help
    | some (.switch s) => do readLetters (← d.turnOn s) cs
    | some (.amount a) =>
      match cs with
      | [] => .ok (d, some a)
      | '=' :: value => do return (← d.fill a (String.ofList value), none)
      | value => do return (← d.fill a (String.ofList value), none)

/-- Reads an argument. -/
def readArgument (d : Draft) (arg : String) : Except UsageError (Draft × Option Amount) :=
  match arg.toList with
  | '-' :: '-' :: _ => d.readLong arg
  | '-' :: c :: cs => d.readLetters (c :: cs)
  | _ => do return (← d.addFile arg, none)

/-- Reads arguments, the first of which may be the value of a number left open. -/
def readArguments : Draft → Option Amount → List String → Except UsageError Draft
  | d, none, [] => .ok d
  | _, some a, [] => .error (.noValue a.name)
  | d, some a, value :: args => do readArguments (← d.fill a value) none args
  | d, none, arg :: args =>
    if arg = "--" then args.foldlM addFile d
    else do
      let (d, open?) ← d.readArgument arg
      readArguments d open? args

end Draft

/-- What the command is asked to do. -/
structure Options where
  file : String
  switches : List Switch
  amounts : List (Amount × Nat)

namespace Options

/-- Reads the arguments of the command. -/
def ofArguments (args : List String) : Except UsageError Options := do
  let d ← Draft.readArguments {} none args
  match d.file? with
  | some file => return { file, switches := d.switches, amounts := d.amounts }
  | none => .error .noFile

/-- Whether a switch is on. -/
def has (o : Options) (s : Switch) : Bool :=
  s ∈ o.switches

/-- The number given, or else the default. -/
def amountOr (o : Options) (a : Amount) (default : Nat) : Nat :=
  (o.amounts.lookup a).getD default

end Options

end Chore.CommandLine
