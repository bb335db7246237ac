/-!
# Decimal numbers

Reading and writing numbers in decimal. A reader goes through the digits from the left and stops
at the first place that is no digit or takes the number past its limit, so which of two faults is
reported depends on which comes first. `readInt` reads a signed 64-bit number, `readUnsigned` an
unsigned number up to a limit; a sign is read only in front of at least one digit.
-/

set_option autoImplicit false

namespace Chore.Text

/-- Why a text is not a number of the wanted range. -/
inductive NumberError where
  | empty
  | invalidDigit
  | tooLarge
  deriving DecidableEq

/-- The wording of a number error. -/
def NumberError.message : NumberError → String
  | .empty => "cannot parse integer from empty string"
  | .invalidDigit => "invalid digit found in string"
  | .tooLarge => "number too large to fit in target type"

/-- Reads digits after a number already read, which must stay at or below the limit. -/
def readDigits (limit : Nat) : Nat → List Char → Except NumberError Nat
  | n, [] => .ok n
  | n, c :: cs =>
    if c.isDigit then
      if 10 * n + (c.toNat - 0x30) ≤ limit then
        readDigits limit (10 * n + (c.toNat - 0x30)) cs
      else .error .tooLarge
    else .error .invalidDigit

/-- Reads an unsigned number up to a limit; a plus sign may stand in front. -/
def readUnsigned (limit : Nat) : List Char → Except NumberError Nat
  | [] => .error .empty
  | [c] => readDigits limit 0 [c]
  | c :: cs => readDigits limit 0 (if c = '+' then cs else c :: cs)

/-- Reads a signed 64-bit number; either sign may stand in front. -/
def readInt (cs : List Char) : Option Int64 :=
  match cs with
  | '-' :: d :: ds => match readDigits 0x8000000000000000 0 (d :: ds) with
    | .ok n => some (Int64.ofInt (-n))
    | .error _ => none
  | _ => match readUnsigned 0x7fffffffffffffff cs with
    | .ok n => some (Int64.ofNat n)
    | .error _ => none

/-- The decimal digit of a number below ten. -/
def decimalDigit (n : Nat) : Char :=
  Char.ofNat (0x30 + n)

/-- A number in decimal, without leading zeros. -/
def decimal (n : Nat) : List Char :=
  if n < 10 then [decimalDigit n] else decimal (n / 10) ++ [decimalDigit (n % 10)]
termination_by n

/-- An integer in decimal, with a minus sign in front of a negative one. -/
def decimalInt (n : Int) : List Char :=
  if n < 0 then '-' :: decimal n.natAbs else decimal n.natAbs

/-- A natural number as text. -/
def showNat (n : Nat) : String :=
  String.ofList (decimal n)

/-- A signed 64-bit number as text. -/
def showInt (n : Int64) : String :=
  String.ofList (decimalInt n.toInt)

end Chore.Text
