import Chore.Archive.Checksum
import Chore.Archive.Inflate
import Chore.Archive.Layout
import Chore.Text.Cp437
import Chore.Text.Utf8

/-!
# Archive members

The directory of a ZIP archive lists its members in order. Numbers that do not fit in their place
stand in an extra field behind the member's name. Members are stored or deflated, and each has a
checksum, which is compared once its data is read.
-/

set_option autoImplicit false

namespace Chore.Archive

/-- How large a member is, unpacked and packed, and where it is. -/
structure Extent where
  size : Nat
  packedSize : Nat
  position : Nat
  deriving DecidableEq

/-- What the directory says about a member. -/
structure Header where
  name : String
  encrypted : Bool
  method : Nat
  checksum : Nat
  extent : Extent
  deriving DecidableEq

/-- The wide form of a number that is all ones, and the position behind it; any other number
stays. -/
def widened (extra : ByteArray) (value position : Nat) : Option (Nat × Nat) :=
  if value = 0xffffffff then
    match number extra position 8 with
    | .ok n => some (n, position + 8)
    | .error _ => none
  else some (value, position)

/-- Takes wide numbers from an extra field, and gives the position behind them unless the field
ends too early. -/
def Extent.widen (e : Extent) (extra : ByteArray) (position : Nat) : Extent × Option Nat :=
  match widened extra e.size position with
  | none => (e, none)
  | some (size, position) =>
    let e := { e with size }
    match widened extra e.packedSize position with
    | none => (e, none)
    | some (packedSize, position) =>
      let e := { e with packedSize }
      match widened extra e.position position with
      | none => (e, none)
      | some (start, position) => ({ e with position := start }, some position)

/-- Goes through extra fields from a position on. Each takes at least four bytes, so their size
bounds their number, which is the first argument. -/
def Extent.readExtra (extra : ByteArray) : Nat → Nat → Extent → Extent
  | 0, _, e => e
  | n + 1, position, e =>
    match number extra position 2, number extra (position + 2) 2 with
    | .ok kind, .ok length =>
      let next := position + 4 + length
      if kind = 1 then
        match e.widen extra (position + 4) with
        | (e, some behind) => readExtra extra n (max behind next) e
        | (e, none) => e
      else readExtra extra n next e
    | _, _ => e

/-- Reads the directory entry at a position: its header, and where the next one starts. -/
def header (bytes : ByteArray) (shift position : Nat) : Except ArchiveError (Header × Nat) := do
  if (← number bytes position 4) ≠ 0x02014b50 then
    .error (.invalid "Invalid Central Directory header")
  else
    let flags ← number bytes (position + 8) 2
    let method ← number bytes (position + 10) 2
    let checksum ← number bytes (position + 16) 4
    let packedSize ← number bytes (position + 20) 4
    let size ← number bytes (position + 24) 4
    let nameLength ← number bytes (position + 28) 2
    let extraLength ← number bytes (position + 30) 2
    let commentLength ← number bytes (position + 32) 2
    let start ← number bytes (position + 42) 4
    let name ← slice bytes (position + 46) nameLength
    let extra ← slice bytes (position + 46 + nameLength) extraLength
    let _ ← slice bytes (position + 46 + nameLength + extraLength) commentLength
    let extent := Extent.readExtra extra (extraLength + 1) 0 { size, packedSize, position := start }
    return (
      { name := if flags.testBit 11 then Text.decodeBytes name else Text.decodeCp437 name
        encrypted := flags.testBit 0
        method, checksum
        extent := { extent with position := extent.position + shift } },
      position + 46 + nameLength + extraLength + commentLength)

/-- Reads so many directory entries from a position on. -/
def headers (bytes : ByteArray) (shift : Nat) : Nat → Nat → Except ArchiveError (List Header)
  | 0, _ => .ok []
  | n + 1, position => do
    let (h, next) ← header bytes shift position
    return h :: (← headers bytes shift n next)

/-- Reads the directory of an archive. -/
def directory (bytes : ByteArray) : Except ArchiveError (List Header) := do
  let l ← layout bytes
  headers bytes l.shift l.count l.start

/-- The data of a member, as far as it can be read, and what is wrong with it if anything is. -/
structure Data where
  bytes : ByteArray
  fault? : Option String := none

/-- Compares data with its checksum. -/
def verified (checksum : Nat) (bytes : ByteArray) : Data :=
  if (Archive.checksum bytes).toNat = checksum then { bytes }
  else { bytes, fault? := some "Invalid checksum" }

/-- Inflated data is handed on in pieces of this many bytes; a piece that cannot be completed
because the data is corrupt is lost. -/
def pieceSize : Nat := 32768

/-- Undoes the compression of a member. -/
def unpack (deflated : Bool) (checksum : Nat) (packed : ByteArray) : Data :=
  if deflated then
    match Inflate.inflate packed with
    | (.error .corrupt, bytes) =>
      { bytes := bytes.extract 0 (bytes.size / pieceSize * pieceSize)
        fault? := some "corrupt deflate stream" }
    | (_, bytes) => verified checksum bytes
  else verified checksum packed

/-- Where the data of a member starts. Its own header only says that; the data may be cut short by
the end of the file. -/
def dataStart (bytes : ByteArray) (h : Header) : Except ArchiveError Nat := do
  if h.encrypted then .error (.unsupported "Password required to decrypt file")
  else
    let position := h.extent.position
    if (← number bytes position 4) ≠ 0x04034b50 then
      .error (.invalid "Invalid local file header")
    let nameLength ← number bytes (position + 26) 2
    let extraLength ← number bytes (position + 28) 2
    if h.method = 0 ∨ h.method = 8 then return position + 30 + nameLength + extraLength
    else .error (.unsupported "Compression method not supported")

/-- Reads the data of a member from where it starts. -/
def dataFrom (h : Header) (start : Nat) (bytes : ByteArray) : Data :=
  unpack (h.method = 8) h.checksum (bytes.extract start (start + h.extent.packedSize))

end Chore.Archive
