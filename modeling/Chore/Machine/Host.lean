import Chore.Journal
import Chore.Value

/-!
# The outside world

A running program reaches outside through requests: file, archive and download operations, each
with its own type of reply. A `Host` answers them on a world `ω` of its own, takes the printed
output, and knows the current directory if there is one. A failed request is a reply like any
other; what it means is up to the machine.
-/

set_option autoImplicit false

namespace Chore

/-- Why a request failed. -/
inductive ToolError where
  | io (reason : String)
  | http (reason : String)
  | archive (reason : String)
  | noEntry (index : Int64) (dir : String) (count : Nat)
  deriving DecidableEq

/-- The wording of a failed request. -/
def ToolError.message : ToolError → String
  | io reason => s!"I/O error: {reason}"
  | http reason => s!"Download failed: {reason}"
  | archive reason => s!"Archive error: {reason}"
  | noEntry index dir count =>
    s!"No entry {Text.showInt index} in `{dir}` ({Text.showNat count} entries)"

/-- How a copy that did not fail ended. -/
inductive CopyOutcome where
  | copied
  | destinationExists
  deriving DecidableEq

/-- What a program may ask of the outside world. -/
inductive Request where
  | download (url dest : String)
  | readText (path : String)
  | move (src dst : String)
  | copy (src dst : String)
  | pathExists (path : String)
  | touch (path : String)
  | makeDir (path : String)
  | remove (path : String)
  | unzip (archive dest : String)
  | listFiles (dir : String)
  | listDirs (dir : String)
  deriving DecidableEq

/-- The type of the reply to a request. Extracting an archive answers how many directories and
files it wrote. -/
def Request.Reply : Request → Type
  | download _ _ | move _ _ | touch _ | makeDir _ | remove _ => Except ToolError Unit
  | readText _ => Except ToolError String
  | copy _ _ => Except ToolError CopyOutcome
  | pathExists _ => Bool
  | unzip _ _ => Except ToolError (Int64 × Int64)
  | listFiles _ | listDirs _ => Except ToolError (List String)

/-- Whoever answers requests, on a world `ω`: the replies, what is noted on the way to a reply, the
current directory, and the output, which may refuse a text with a reason. -/
structure Host (ω : Type) where
  reply : (r : Request) → ω → r.Reply × ω
  notes : Request → ω → List Note
  here? : ω → Option ByteArray
  write : String → ω → Except String Unit × ω

end Chore
