/-!
# The layout of an archive

Where the directory of a ZIP archive is. The end record is looked for from the end of the file
backwards, so that a comment may follow it. In front of the end record of a large archive stands a
locator, which says where a second, wider end record is meant to be. Data in front of the archive
shifts all positions: by how much is seen from where the end records are found.
-/

set_option autoImplicit false

namespace Chore.Archive

/-- Why an archive could not be read. -/
inductive ArchiveError where
  | invalid (what : String)
  | unsupported (what : String)
  | truncated
  deriving DecidableEq

/-- The wording of an archive error. -/
def ArchiveError.message : ArchiveError → String
  | invalid what => s!"invalid Zip archive: {what}"
  | unsupported what => s!"unsupported Zip archive: {what}"
  | truncated => "failed to fill whole buffer"

/-- The error of an archive in several parts. -/
def severalDisks : ArchiveError :=
  .unsupported "Support for multi-disk files is not implemented"

/-- The error of a directory that cannot be where it is said to be. -/
def misplacedDirectory : ArchiveError :=
  .invalid "Invalid central directory size or offset"

/-- A number of so many bytes at a position, lowest byte first. -/
def number (bytes : ByteArray) (position : Nat) : Nat → Except ArchiveError Nat
  | 0 => .ok 0
  | n + 1 =>
    match bytes[position]? with
    | none => .error .truncated
    | some b => do return b.toNat + 256 * (← number bytes (position + 1) n)

/-- So many bytes from a position on. -/
def slice (bytes : ByteArray) (position length : Nat) : Except ArchiveError ByteArray :=
  if position + length ≤ bytes.size then .ok (bytes.extract position (position + length))
  else .error .truncated

/-- Whether a signature stands at a position. -/
def signed (bytes : ByteArray) (signature position : Nat) : Bool :=
  match number bytes position 4 with
  | .ok n => n = signature
  | .error _ => false

/-- The end record: where it is, and what it says. -/
structure EndRecord where
  position : Nat
  disk : Nat
  directoryDisk : Nat
  count : Nat
  totalCount : Nat
  directorySize : Nat
  directoryPosition : Nat
  commentLength : Nat

/-- Whether some number is all ones, as it is if it did not fit. -/
def EndRecord.overflowed (e : EndRecord) : Bool :=
  e.disk = 0xffff || e.directoryDisk = 0xffff || e.count = 0xffff || e.totalCount = 0xffff
    || e.directorySize = 0xffffffff || e.directoryPosition = 0xffffffff

/-- The last position of the end record, among so many of them. -/
def findEnd (bytes : ByteArray) : Nat → Nat → Option Nat
  | 0, _ => none
  | n + 1, position =>
    if signed bytes 0x06054b50 position then some position
    else if position = 0 then none
    else findEnd bytes n (position - 1)

/-- Reads the end record. A comment of at most 65535 bytes may follow it. -/
def endRecord (bytes : ByteArray) : Except ArchiveError EndRecord := do
  if bytes.size < 22 then .error (.invalid "Invalid zip header")
  else
    match findEnd bytes 65536 (bytes.size - 22) with
    | none => .error (.invalid "Could not find central directory end")
    | some position =>
      let e : EndRecord := {
        position
        disk := ← number bytes (position + 4) 2
        directoryDisk := ← number bytes (position + 6) 2
        count := ← number bytes (position + 8) 2
        totalCount := ← number bytes (position + 10) 2
        directorySize := ← number bytes (position + 12) 4
        directoryPosition := ← number bytes (position + 16) 4
        commentLength := ← number bytes (position + 20) 2 }
      let _ ← slice bytes (position + 22) e.commentLength
      if !e.overflowed && e.disk ≠ e.directoryDisk then .error severalDisks else return e

/-- Where the directory starts, how many entries it has, and how far positions are shifted. -/
structure Layout where
  start : Nat
  count : Nat
  shift : Nat

/-- The layout that the end record tells. -/
def EndRecord.layout (e : EndRecord) : Except ArchiveError Layout :=
  if e.directorySize + e.directoryPosition ≤ e.position then
    .ok {
      start := e.position - e.directorySize
      count := e.count
      shift := e.position - e.directorySize - e.directoryPosition }
  else .error misplacedDirectory

/-- The position of the locator of a large archive, if there is one. -/
def locator? (bytes : ByteArray) (e : EndRecord) : Option Nat :=
  let distance := 42 + e.commentLength
  if distance ≤ bytes.size ∧ signed bytes 0x07064b50 (bytes.size - distance) then
    some (bytes.size - distance)
  else none

/-- The first position of the wide end record, among so many of them. -/
def findWideEnd (bytes : ByteArray) : Nat → Nat → Option Nat
  | 0, _ => none
  | n + 1, position =>
    if signed bytes 0x06064b50 position then some position
    else findWideEnd bytes n (position + 1)

/-- The layout that the wide end record tells. -/
def wideLayout (bytes : ByteArray) (e : EndRecord) (locator : Nat) :
    Except ArchiveError Layout := do
  let disk ← number bytes (locator + 4) 4
  let nominal ← number bytes (locator + 8) 8
  if !e.overflowed && e.disk ≠ disk then .error severalDisks
  else if e.position < 60 then
    .error (.invalid "File cannot contain ZIP64 central directory end")
  else
    match findWideEnd bytes (e.position - 59 - nominal) nominal with
    | none => .error (.invalid "Could not find ZIP64 central directory end")
    | some position =>
      let disk ← number bytes (position + 16) 4
      let directoryDisk ← number bytes (position + 20) 4
      let count ← number bytes (position + 32) 8
      let directoryPosition ← number bytes (position + 48) 8
      let shift := position - nominal
      if disk ≠ directoryDisk then .error severalDisks
      else if UInt64.size ≤ directoryPosition + shift then .error misplacedDirectory
      else if 0x8000000000000000 ≤ directoryPosition + shift then
        .error (.invalid "Could not seek to start of central directory")
      else return { start := directoryPosition + shift, count, shift }

/-- The layout of an archive. -/
def layout (bytes : ByteArray) : Except ArchiveError Layout := do
  let e ← endRecord bytes
  match locator? bytes e with
  | none => e.layout
  | some locator => wideLayout bytes e locator

end Chore.Archive
