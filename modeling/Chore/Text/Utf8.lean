/-!
# Texts and bytes

A text has its bytes in UTF-8 (`bytes`). `decodeBytes` reads a byte sequence as UTF-8 and never
fails: a maximal run of bytes that starts a character without finishing it, and each byte that can
start none, is read as the replacement character U+FFFD.
-/

set_option autoImplicit false

namespace Chore.Text

/-- The bytes of a text. -/
def bytes (s : String) : List UInt8 :=
  s.toUTF8.data.toList

/-- The replacement character. -/
def replacement : Char := Char.ofNat 0xfffd

/-- A character in the middle of its bytes: how many are still missing, the bounds of the next
one, and the bits read so far. -/
structure Partial where
  missing : Nat
  low : Nat := 0x80
  high : Nat := 0xbf
  bits : Nat

/-- What a byte means where a character may start: a whole character or the start of a longer
one. -/
def lead (b : UInt8) : Char ⊕ Partial :=
  let n := b.toNat
  if n < 0x80 then .inl (Char.ofNat n)
  else if 0xc2 ≤ n ∧ n ≤ 0xdf then .inr { missing := 1, bits := n - 0xc0 }
  else if n = 0xe0 then .inr { missing := 2, low := 0xa0, bits := 0 }
  else if n = 0xed then .inr { missing := 2, high := 0x9f, bits := 0xd }
  else if 0xe1 ≤ n ∧ n ≤ 0xef then .inr { missing := 2, bits := n - 0xe0 }
  else if n = 0xf0 then .inr { missing := 3, low := 0x90, bits := 0 }
  else if n = 0xf4 then .inr { missing := 3, high := 0x8f, bits := 4 }
  else if 0xf1 ≤ n ∧ n ≤ 0xf3 then .inr { missing := 3, bits := n - 0xf0 }
  else .inl replacement

/-- Reads the bytes after a possibly unfinished character. -/
def decodeAfter : Option Partial → List UInt8 → List Char
  | none, [] => []
  | some _, [] => [replacement]
  | none, b :: bs =>
    match lead b with
    | .inl c => c :: decodeAfter none bs
    | .inr p => decodeAfter (some p) bs
  | some p, b :: bs =>
    if p.low ≤ b.toNat ∧ b.toNat ≤ p.high then
      let bits := p.bits * 64 + (b.toNat - 0x80)
      if p.missing ≤ 1 then Char.ofNat bits :: decodeAfter none bs
      else decodeAfter (some { missing := p.missing - 1, bits }) bs
    else
      match lead b with
      | .inl c => replacement :: c :: decodeAfter none bs
      | .inr q => replacement :: decodeAfter (some q) bs

/-- A byte sequence as text, whatever it holds. -/
def decodeBytes (bytes : ByteArray) : String :=
  match String.fromUTF8? bytes with
  | some s => s
  | none => String.ofList (decodeAfter none bytes.data.toList)

end Chore.Text
