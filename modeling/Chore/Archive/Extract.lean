import Chore.Archive.Directory
import Chore.File.Files
import Chore.Machine.Host

/-!
# Extracting archives

Writes the members of an archive below a directory. A member whose name would lead out of the
directory is skipped: one that starts at the root, holds a NUL, or goes up more often than down at
any point. The first member that cannot be opened, created or read ends the extraction, and what
was written until then stays.

The directory of the archive is read at the start. A member is read when its turn comes, from the
archive as it is then: an extraction may write over its own archive.
-/

set_option autoImplicit false

namespace Chore.Archive

open File (Files Place)

/-- A member of an archive, as its reader gives it: its name, whether it is a directory, and what it
takes from the bytes of the archive, first when it is opened and then when its data is read. -/
structure Member where
  name : String
  isDir : Bool
  opened : ByteArray → Except ArchiveError (ByteArray → Data)

/-- How deep below its start a path ends, if it never goes above it. -/
def depth? : Nat → List String → Option Nat
  | n, [] => some n
  | n, segment :: segments =>
    if Path.isIdle segment then depth? n segments
    else if segment = ".." then
      match n with
      | 0 => none
      | n + 1 => depth? n segments
    else depth? (n + 1) segments

/-- Whether a name stays below the directory it is extracted to. -/
def isEnclosed (name : String) : Bool :=
  !name.toList.contains '\x00' && !Path.isAbsolute name && (depth? 0 (Path.segments name)).isSome

/-- What extraction works on: the files, and the numbers of directories and files written. -/
structure Extraction where
  files : Files
  dirs : Nat := 0
  written : Nat := 0

/-- A file operation as part of an extraction. -/
def onFiles {α : Type} (m : File.FileAction α) : Attempt Extraction ToolError α := fun e =>
  let (outcome, files) := m e.files
  (outcome.mapError fun err => .io err.message, { e with files })

/-- Extracts a member as a directory. -/
def extractDir (target : String) : Attempt Extraction ToolError Unit := do
  onFiles (File.makeDirAll target)
  .modify fun e => { e with dirs := e.dirs + 1 }

/-- Writes the data of a member as a file. The data is read once the file is there. -/
def writeData (archive : Place) (target : String) (data : ByteArray → Data) :
    Attempt Extraction ToolError Unit := do
  let p ← onFiles (File.create target)
  let data := data ((← .get).files.contents archive)
  onFiles (File.append p data.bytes)
  match data.fault? with
  | some fault => .fail (.io fault)
  | none => .modify fun e => { e with written := e.written + 1 }

/-- Extracts a member as a file; its directory is made if it is missing. -/
def extractFile (archive : Place) (target : String) (data : ByteArray → Data) :
    Attempt Extraction ToolError Unit := do
  match Path.parent? target with
  | some parent => onFiles (File.makeDirAll parent)
  | none => pure ()
  writeData archive target data

/-- Extracts a member of the archive at a place below a directory. -/
def extractMember (archive : Place) (dest : String) (m : Member) :
    Attempt Extraction ToolError Unit := do
  match m.opened ((← .get).files.contents archive) with
  | .error e => .fail (.archive e.message)
  | .ok data =>
    if !isEnclosed m.name then return
    let target := Path.join dest m.name
    if m.isDir then extractDir target else extractFile archive target data

/-- Extracts members of the archive at a place below a directory, in order. -/
def extractAll (archive : Place) (dest : String) (members : List Member) :
    Attempt Extraction ToolError Unit :=
  .forEach members (extractMember archive dest)

/-- Whether a name is that of a directory: it ends in a slash or a backslash. -/
def isDirectoryName (name : String) : Bool :=
  match name.toList.getLast? with
  | some c => c = '/' || c = '\x5c'
  | none => false

/-- A header as a member. Its name tells whether it is a directory. -/
def Header.member (h : Header) : Member where
  name := h.name
  isDir := isDirectoryName h.name
  opened bytes := (dataStart bytes h).map (dataFrom h)

/-- The members of an archive. -/
def members (bytes : ByteArray) : Except ArchiveError (List Member) := do
  return (← directory bytes).map Header.member

/-- Why an archive cannot be read. A directory can be opened, but it has no bytes. -/
def openError : File.FileError → ToolError
  | .isDirectory => .archive File.FileError.isDirectory.message
  | e => .io e.message

/-- Extracts the archive at a path, whose members are read by a reader: how many directories and
files were written. -/
def unzipWith (read : ByteArray → Except ArchiveError (List Member)) (archive dest : String) :
    Attempt Files ToolError (Nat × Nat) := fun f =>
  match f.fileAt archive with
  | .error e => (.error (openError e), f)
  | .ok p =>
    match read (f.contents p) with
    | .error e => (.error (.archive e.message), f)
    | .ok members =>
      let (outcome, e) := extractAll p dest members { files := f }
      (outcome.map fun _ => (e.dirs, e.written), e.files)

/-- Extracts the archive at a path. -/
def unzip (archive dest : String) : Attempt Files ToolError (Nat × Nat) :=
  unzipWith members archive dest

end Chore.Archive
