/-!
# Checksums

The 32-bit cyclic redundancy check of archive members: polynomial `0xedb88320` in reflected form,
all ones at the start, and the remainder inverted at the end.
-/

set_option autoImplicit false

namespace Chore.Archive

/-- One bit of the division. -/
def crcShift (c : UInt32) : UInt32 :=
  if c &&& 1 = 1 then (c >>> 1) ^^^ 0xedb88320 else c >>> 1

/-- One byte of the division. -/
def crcByte (c : UInt32) (b : UInt8) : UInt32 :=
  crcShift (crcShift (crcShift (crcShift (crcShift (crcShift (crcShift (crcShift
    (c ^^^ b.toUInt32))))))))

/-- The checksum of a byte sequence. -/
def checksum (bytes : ByteArray) : UInt32 :=
  bytes.foldl crcByte 0xffffffff ^^^ 0xffffffff

end Chore.Archive
