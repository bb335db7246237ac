import Chore.Machine.Fault

/-!
# Operators on values

The arithmetic, bitwise, logical and comparing words as functions on values, the one beneath
first. Integers are signed and 64 bits wide: a result that does not fit is a fault, never a
wrapped number. Division goes toward zero, and a zero divisor gives zero.
-/

set_option autoImplicit false

namespace Chore

/-- The integer value of a number that fits in 64 bits. -/
def fitted (n : Int) : Except Fault Value :=
  if Int64.minValue.toInt ≤ n ∧ n ≤ Int64.maxValue.toInt then .ok (.int (Int64.ofInt n)) else .error .integerOverflow

namespace Arithmetic

/-- The arithmetic words on integers. A remainder overflows where the quotient does. -/
def onInts (w : Arithmetic) (b t : Int) : Except Fault Value :=
  match w with
  | add => fitted (b + t)
  | subtract => fitted (b - t)
  | multiply => fitted (b * t)
  | divide => if t = 0 then fitted 0 else fitted (b.tdiv t)
  | modulo =>
    if t = 0 then fitted 0
    else do
      let _ ← fitted (b.tdiv t)
      fitted (b.tmod t)

/-- The arithmetic words. Adding to a text puts the other operand in front of it. -/
def apply (w : Arithmetic) (b t : Value) : Except Fault Value :=
  match w, b, t with
  | add, .text b, .text t => .ok (.text (t ++ b))
  | add, .text b, .int t => .ok (.text (Text.showInt t ++ b))
  | w, .int b, .int t => w.onInts b.toInt t.toInt
  | w, b, t => .error (.wrongKind (.arithmetic w) [b.kind, t.kind])

end Arithmetic

/-- Counting one up or down. -/
def Counting.apply (w : Counting) (n : Int64) : Except Fault Value :=
  match w with
  | increment => fitted (n.toInt + 1)
  | decrement => fitted (n.toInt - 1)

/-- The bitwise words on integers. -/
def Bitwise.onInts (w : Bitwise) (b t : Int64) : Int64 :=
  match w with
  | and => b &&& t
  | or => b ||| t
  | xor => b ^^^ t

/-- The bitwise words. -/
def Bitwise.apply (w : Bitwise) (b t : Value) : Except Fault Value :=
  match b, t with
  | .int b, .int t => .ok (.int (w.onInts b t))
  | b, t => .error (.wrongKind (.bitwise w) [b.kind, t.kind])

/-- The logical words on truth values. -/
def Logic.onBools (w : Logic) (b t : Bool) : Bool :=
  match w with
  | and => b && t
  | or => b || t

/-- The logical words. Both operands are looked at. -/
def Logic.apply (w : Logic) (b t : Value) : Except Fault Value :=
  match b.truthy, t.truthy with
  | some x, some y => .ok (.ofBool (w.onBools x y))
  | _, _ => .error (.wrongKind (.logic w) [b.kind, t.kind])

/-- The order of two integers or two texts. -/
def Value.order? : Value → Value → Option Ordering
  | int b, int t => some (compare b.toInt t.toInt)
  | text b, text t => some (compare b t)
  | _, _ => none

/-- Which orderings a comparing word accepts. -/
def Comparison.accepts : Comparison → Ordering → Bool
  | equal, o => o.isEq
  | notEqual, o => !o.isEq
  | less, o => o.isLT
  | greater, o => o.isGT
  | lessEqual, o => o.isLE
  | greaterEqual, o => o.isGE

/-- The comparing words. Any two values can be tested for equality; only two integers or two texts
have an order. -/
def Comparison.apply (w : Comparison) (b t : Value) : Except Fault Value :=
  match w with
  | equal => .ok (.ofBool (b = t))
  | notEqual => .ok (.ofBool (b ≠ t))
  | w =>
    match b.order? t with
    | some o => .ok (.ofBool (w.accepts o))
    | none => .error (.wrongKind (.compare w) [b.kind, t.kind])

end Chore
