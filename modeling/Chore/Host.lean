import Chore.Archive.Extract
import Chore.Machine.World

/-!
# Tools on files

The tools of the machine on a file tree and a network. A download is written to its destination
only once the server has answered, and a transfer that breaks off leaves no file unless that cannot
be removed. Which answers of a server are failures is up to the network.
-/

set_option autoImplicit false

namespace Chore

open File (Files FileError Place)

/-- A server's answer: its status, and its body as it comes in, piece after piece, until it ends or
something breaks the transfer off. -/
structure Response where
  status : Nat
  pieces : List ByteArray
  brokenOff? : Option String := none

/-- The body, as far as it came in. -/
def Response.body (r : Response) : ByteArray :=
  r.pieces.foldl (· ++ ·) .empty

/-- A network as its client library shows it: what is at an address, or why nothing came; and why an
answer with a status is a failure, if it is one. -/
structure Network where
  fetch : String → Except String Response
  refusal? : (url : String) → (status : Nat) → Option String

/-- The usual rule: the statuses from 400 on are failures. -/
def Network.usualRefusal? (url : String) (status : Nat) : Option String :=
  if 400 ≤ status then some s!"{url}: status code {Text.showNat status}" else none

/-- Why a download failed, and why what it had saved could not be removed, if it could not. -/
structure DownloadError where
  reason : ToolError
  remains? : Option FileError := none

/-- Writes a body behind a file as it comes in. -/
def transfer (r : Response) (p : Place) : Attempt Files ToolError Unit := do
  (Attempt.forEach r.pieces (File.append p)).mapError fun e => .io e.message
  match r.brokenOff? with
  | none => return
  | some reason => .fail (.io reason)

/-- Saves a body in a file. If the transfer breaks off the file is removed; it failed all the same,
whether or not that could be done. -/
def saveBody (r : Response) (dest : String) : Attempt Files DownloadError Unit := do
  let p ← (File.create dest).mapError fun e => { reason := .io e.message }
  match ← (transfer r p).outcome with
  | .ok () => return
  | .error reason =>
    match ← (File.unlink dest).outcome with
    | .ok () => .fail { reason }
    | .error e => .fail { reason, remains? := some e }

/-- Downloads to a path. -/
def download (network : Network) (url dest : String) : Attempt Files DownloadError Unit := do
  match network.fetch url with
  | .error reason => .fail { reason := .http reason }
  | .ok response =>
    match network.refusal? url response.status with
    | some reason => .fail { reason := .http reason }
    | none => saveBody response dest

namespace Files

/-- A file operation as the answer to a request. -/
def answer {α : Type} (m : File.FileAction α) (f : Files) : Except ToolError α × Files :=
  (m.mapError fun e => ToolError.io e.message) f

/-- Answers a request on a file tree and a network. -/
def reply (network : Network) : (r : Request) → Files → r.Reply × Files
  | .download url dest, f => (download network url dest).mapError (·.reason) f
  | .readText path, f => answer (File.look fun f => f.textAt path) f
  | .move src dst, f => answer (File.move src dst) f
  | .copy src dst, f => answer (do
      return if ← File.copy src dst then CopyOutcome.copied else .destinationExists) f
  | .pathExists path, f => (f.pathExists path, f)
  | .touch path, f => answer (File.touch path) f
  | .makeDir path, f => answer (File.makeDirAll path) f
  | .remove path, f => answer (File.remove path) f
  | .unzip archive dest, f =>
    let (outcome, f) := Archive.unzip archive dest f
    (outcome.map fun n => (Int64.ofNat n.1, Int64.ofNat n.2), f)
  | .listFiles dir, f => answer (File.look fun f => f.namesAt false dir) f
  | .listDirs dir, f => answer (File.look fun f => f.namesAt true dir) f

/-- Downloads and extractions are noted before they start, and a part of a download that could not be
removed as well. -/
def requestNotes (network : Network) : Request → Files → List Note
  | .download url dest, f =>
    .debug "download" [("url", url), ("dest", dest)] ::
      match (download network url dest f).1 with
      | .error { remains? := some e, .. } =>
        [.debug "cannot remove partial download" [("dest", dest), ("cleanup", e.message)]]
      | _ => []
  | .unzip archive dest, _ => [.debug "unzip" [("archive", archive), ("dest", dest)]]
  | _, _ => []

/-- The path of the current directory, while it is there. -/
def here? (f : Files) : Option ByteArray :=
  if f.stands then some (Path.ofParts true f.here).toUTF8 else none

/-- Tools on a file tree and a network. -/
def tools (network : Network) : Tools Files where
  reply := reply network
  notes := requestNotes network
  here? := here?

end Files

end Chore
