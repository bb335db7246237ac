import Chore.Journal
import Chore.Text.Decimal

/-!
# Reports of the command

What the command gives back: an exit code, its output, and messages for the error stream. A
failure is shown with the chain of its causes, each indented; they are numbered if there are
several. Notes of the journal are shown in colour, so that they can be told from messages.
-/

set_option autoImplicit false

namespace Chore.CommandLine

/-- A failure and what it comes from, the nearest cause first. -/
structure Failure where
  message : String
  causes : List String := []

/-- A text whose lines start with a margin, the first one with a margin of its own. -/
def withMargin (first margin text : String) : String :=
  first ++ ("\n" ++ margin).intercalate (text.splitOn "\n")

/-- The number of a cause, set to the right of five columns. -/
def causeNumber (n : Nat) : String :=
  let digits := Text.showNat n
  "".pushn ' ' (5 - digits.length) ++ digits ++ ": "

/-- A failure as text. -/
def Failure.text (f : Failure) : String :=
  s!"Error: {f.message}" ++
    match f.causes with
    | [] => ""
    | [cause] => "\n\nCaused by:\n" ++ withMargin "    " "    " cause
    | causes => "\n\nCaused by:\n" ++ "\n".intercalate
        (causes.mapIdx fun n cause => withMargin (causeNumber n) "       " cause)

/-- One message for the error stream. -/
inductive Message where
  | text (s : String)
  | note (n : Note)

/-- Text between a terminal's code for a style and the code that ends it. -/
def styled (code text : String) : String :=
  s!"\x1b[{code}m{text}\x1b[0m"

/-- The colour of a level. -/
def levelColour : Level → String
  | .trace => "35"
  | .debug => "34"
  | .warn => "33"

/-- A note in colour. -/
def colouredNote (n : Note) : String :=
  " ".intercalate (styled (levelColour n.level) n.level.name :: n.message ::
    n.fields.map fun f => styled "3" f.1 ++ styled "2" "=" ++ f.2)

/-- A message as it is printed, without the end of its last line. -/
def Message.display : Message → String
  | text s => s
  | note n => colouredNote n

/-- What the command gives back. -/
structure Report where
  code : Nat
  output : String := ""
  messages : List Message := []

/-- What is printed on the error stream. -/
def Report.errors (r : Report) : String :=
  String.join (r.messages.map fun m => m.display ++ "\n")

end Chore.CommandLine
