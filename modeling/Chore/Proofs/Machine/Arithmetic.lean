import Mathlib.Algebra.Group.Int.Defs
import Chore.Proofs.Machine.Yields

/-!
# Exact arithmetic

The words on integers are exact or fail. A word whose result is a sum, a difference or a product
gives that number where it is an integer of 64 bits, and overflows where it is not (`Exact`). A
quotient always fits, except that of the least integer by minus one (`isInt64_tdiv_iff`), and the
remainder has the sign of the operand beneath. The bitwise words work on the bits of two's
complement, and how the bits of a number weigh relates them to sums (`land_lor_xor`).
-/

set_option autoImplicit false

namespace Chore.Machine

variable {ω : Type}

/-! ## Numbers that fit -/

/-- A number is an integer of 64 bits. -/
def IsInt64 (x : Int) : Prop :=
  -2 ^ 63 ≤ x ∧ x < 2 ^ 63

theorem isInt64_toInt (n : Int64) : IsInt64 n.toInt :=
  ⟨n.le_toInt, n.toInt_lt⟩

theorem fitted_ok {x : Int} (fits : IsInt64 x) :
    ∃ n : Int64, n.toInt = x ∧ fitted x = .ok (.int n) := by
  refine ⟨.ofInt x, Int64.toInt_ofInt_of_le fits.1 fits.2, if_pos ⟨fits.1, ?_⟩⟩
  exact Int.le_of_lt_add_one fits.2

theorem fitted_error {x : Int} (large : ¬IsInt64 x) : fitted x = .error .integerOverflow :=
  if_neg fun within => large ⟨within.1, Int.lt_add_one_of_le within.2⟩

/-- A word gives a number exactly, or overflows if the number does not fit. -/
structure Exact (c : Setup ω) (w : Word) (operands : List Value) (x : Int) : Prop where
  gives : IsInt64 x → ∃ n : Int64, n.toInt = x ∧ Computes c w operands (.ok (.int n))
  overflows : ¬IsInt64 x → Computes c w operands (.error .integerOverflow)

theorem Exact.of_fitted {c : Setup ω} {w : Word} {operands : List Value} {x : Int}
    (computes : Computes c w operands (fitted x)) : Exact c w operands x where
  gives fits := by
    obtain ⟨n, value, fitted⟩ := fitted_ok fits
    exact ⟨n, value, fitted ▸ computes⟩
  overflows large := fitted_error large ▸ computes

/-! ## Division -/

/-- The quotient of two integers fits, unless the least one is divided by minus one. -/
theorem isInt64_tdiv_iff {b t : Int} (fits : IsInt64 b) (nonzero : t ≠ 0) :
    IsInt64 (b.tdiv t) ↔ ¬(b = -2 ^ 63 ∧ t = -1) := by
  constructor
  · rintro ⟨-, high⟩ ⟨rfl, rfl⟩
    exact absurd high (by decide)
  · intro proper
    obtain ⟨low, high⟩ := fits
    have size : (b.tdiv t).natAbs = b.natAbs / t.natAbs := Int.natAbs_tdiv b t
    by_cases unit : t.natAbs = 1
    · obtain rfl | rfl : t = 1 ∨ t = -1 := by omega
      · rw [Int.tdiv_one]
        exact ⟨low, high⟩
      · rw [Int.tdiv_neg, Int.tdiv_one]
        constructor <;> omega
    · have half : b.natAbs / t.natAbs ≤ b.natAbs / 2 := Nat.div_le_div_left (by omega) (by decide)
      constructor <;> omega

theorem natAbs_tmod_lt (b : Int) {t : Int} (nonzero : t ≠ 0) : (b.tmod t).natAbs < t.natAbs := by
  rw [Int.natAbs_tmod]
  exact Nat.mod_lt _ (by omega)

theorem isInt64_tmod {b t : Int} (fits : IsInt64 t) (nonzero : t ≠ 0) : IsInt64 (b.tmod t) := by
  have small := natAbs_tmod_lt b nonzero
  obtain ⟨low, high⟩ := fits
  constructor <;> omega

theorem sign_tmod (b t : Int) : b.tmod t = 0 ∨ (b.tmod t).sign = b.sign := by
  have sign := Int.sign_tmod b t
  split at sign
  · exact .inl (Int.sign_eq_zero_iff_zero.1 sign)
  · exact .inr sign

/-! ## Bits -/

/-- The bits that two numbers share, and those that one of them has alone. -/
theorem land_lor_xor (m n : Nat) :
    m ||| n = (m ^^^ n) + (m &&& n) ∧ m + n = (m ^^^ n) + 2 * (m &&& n) := by
  induction m using Nat.div2Induction generalizing n with
  | ind m ih =>
    rcases Nat.eq_zero_or_pos m with rfl | pos
    · simp
    · have half := ih pos (n / 2)
      rw [← Nat.and_div_two, ← Nat.or_div_two, ← Nat.xor_div_two] at half
      have low : (m ||| n) % 2 = (m ^^^ n) % 2 + (m &&& n) % 2 ∧
          m % 2 + n % 2 = (m ^^^ n) % 2 + 2 * ((m &&& n) % 2) := by
        rcases Nat.mod_two_eq_zero_or_one m with bit | bit <;>
        rcases Nat.mod_two_eq_zero_or_one n with bit' | bit' <;>
        simp [Nat.and_mod_two_pow (n := 1), Nat.or_mod_two_pow (n := 1),
          Nat.xor_mod_two_pow (n := 1), bit, bit']
      omega

/-- The highest bit weighs negatively. -/
theorem toInt_eq_msb (n : Int64) :
    n.toInt = n.toBitVec.toNat - 2 ^ 64 * (n.toBitVec.msb.toNat : Int) := by
  rw [← Int64.toInt_toBitVec, BitVec.toInt_eq_msb_cond]
  cases n.toBitVec.msb <;> simp

theorem toInt_land_lor_xor (x y : Int64) :
    (x ||| y).toInt = (x ^^^ y).toInt + (x &&& y).toInt ∧
      x.toInt + y.toInt = (x ^^^ y).toInt + 2 * (x &&& y).toInt := by
  have low := land_lor_xor x.toBitVec.toNat y.toBitVec.toNat
  simp only [toInt_eq_msb, Int64.toBitVec_and, Int64.toBitVec_or, Int64.toBitVec_xor,
    BitVec.toNat_and, BitVec.toNat_or, BitVec.toNat_xor, BitVec.msb_and, BitVec.msb_or,
    BitVec.msb_xor]
  cases x.toBitVec.msb <;> cases y.toBitVec.msb <;> simp <;> omega

theorem toInt_complement (n : Int64) : (~~~n).toInt = -n.toInt - 1 := by
  obtain ⟨low, high⟩ := isInt64_toInt n
  rw [Int64.toInt_not]
  exact Int.bmod_eq_of_le (by omega) (by omega)

/-! ## The words -/

section Words

variable (c : Setup ω) (b t : Int64)

theorem computes_arithmetic (w : Arithmetic) :
    Computes c (.arithmetic w) [.int t, .int b] (w.apply (.int b) (.int t)) :=
  computes_binary _ _ fun instr token => by rw [perform_eq, token]; rfl

theorem computes_count (w : Counting) : Computes c (.count w) [.int t] (w.apply t) :=
  computes_popInt t fun instr token => by rw [perform_eq, token]; rfl

theorem computes_bitwise (w : Bitwise) :
    Computes c (.bitwise w) [.int t, .int b] (.ok (.int (w.onInts b t))) :=
  computes_binary (f := w.apply) _ _ fun instr token => by rw [perform_eq, token]; rfl

theorem computes_complement : Computes c .complement [.int t] (.ok (.int (~~~t))) :=
  computes_popInt (f := fun n => .ok (.int (~~~n))) t fun instr token => by rw [perform_eq, token]; rfl

/-- The dividing words give zero for a zero divisor, fail for the one quotient that does not fit, and
otherwise give the quotient toward zero and the remainder. -/
structure Divides : Prop where
  zero : t = 0 → Computes c (.arithmetic .divide) [.int t, .int b] (.ok (.int 0)) ∧
    Computes c (.arithmetic .modulo) [.int t, .int b] (.ok (.int 0))
  overflows : b.toInt = -2 ^ 63 ∧ t = -1 →
    Computes c (.arithmetic .divide) [.int t, .int b] (.error .integerOverflow) ∧
    Computes c (.arithmetic .modulo) [.int t, .int b] (.error .integerOverflow)
  gives : t ≠ 0 → ¬(b.toInt = -2 ^ 63 ∧ t = -1) → ∃ q r : Int64,
    Computes c (.arithmetic .divide) [.int t, .int b] (.ok (.int q)) ∧
    Computes c (.arithmetic .modulo) [.int t, .int b] (.ok (.int r)) ∧
    b.toInt = q.toInt * t.toInt + r.toInt ∧ r.toInt.natAbs < t.toInt.natAbs ∧
    (r.toInt = 0 ∨ r.toInt.sign = b.toInt.sign)

theorem divides : Divides c b t := by
  have quotient := computes_arithmetic c b t .divide
  have remainder := computes_arithmetic c b t .modulo
  simp only [Arithmetic.apply, Arithmetic.onInts] at quotient remainder
  have unit : t = -1 ↔ t.toInt = -1 := Int64.toInt_inj.symm
  have nothing : t = 0 ↔ t.toInt = 0 := Int64.toInt_inj.symm
  refine ⟨?_, ?_, ?_⟩
  · intro zero
    rw [if_pos (nothing.1 zero)] at quotient remainder
    exact ⟨quotient, remainder⟩
  · rw [unit]
    intro worst
    have nonzero : t.toInt ≠ 0 := by omega
    have large : ¬IsInt64 (b.toInt.tdiv t.toInt) :=
      fun fits => (isInt64_tdiv_iff (isInt64_toInt b) nonzero).1 fits worst
    rw [if_neg nonzero, fitted_error large] at quotient remainder
    exact ⟨quotient, remainder⟩
  · rw [unit, Ne, nothing]
    intro nonzero proper
    obtain ⟨q, gives, given⟩ := fitted_ok ((isInt64_tdiv_iff (isInt64_toInt b) nonzero).2 proper)
    obtain ⟨r, leaves, left⟩ := fitted_ok (isInt64_tmod (b := b.toInt) (isInt64_toInt t) nonzero)
    rw [if_neg nonzero, given] at quotient remainder
    change Computes _ _ _ (fitted (b.toInt.tmod t.toInt)) at remainder
    rw [left] at remainder
    refine ⟨q, r, quotient, remainder, ?_⟩
    rw [gives, leaves]
    exact ⟨(Int.tdiv_mul_add_tmod _ _).symm, natAbs_tmod_lt _ nonzero, sign_tmod _ _⟩

/-- The bitwise words work on the bits of two's complement, and relate to sums as these do. -/
def WorksOnBits : Prop :=
  ∃ both either one flipped : Int64,
    Computes c (.bitwise .and) [.int t, .int b] (.ok (.int both)) ∧
    Computes c (.bitwise .or) [.int t, .int b] (.ok (.int either)) ∧
    Computes c (.bitwise .xor) [.int t, .int b] (.ok (.int one)) ∧
    Computes c .complement [.int t] (.ok (.int flipped)) ∧
    (∀ i < 64, both.toBitVec.getLsbD i = (b.toBitVec.getLsbD i && t.toBitVec.getLsbD i) ∧
      either.toBitVec.getLsbD i = (b.toBitVec.getLsbD i || t.toBitVec.getLsbD i) ∧
      one.toBitVec.getLsbD i = (b.toBitVec.getLsbD i ^^ t.toBitVec.getLsbD i) ∧
      flipped.toBitVec.getLsbD i = !t.toBitVec.getLsbD i) ∧
    flipped.toInt = -t.toInt - 1 ∧
    both.toInt + either.toInt = b.toInt + t.toInt ∧
    one.toInt = either.toInt - both.toInt

theorem worksOnBits : WorksOnBits c b t := by
  obtain ⟨either, whole⟩ := toInt_land_lor_xor b t
  refine ⟨b &&& t, b ||| t, b ^^^ t, ~~~t, computes_bitwise c b t .and, computes_bitwise c b t .or,
    computes_bitwise c b t .xor, computes_complement c t, fun i within => ?_, toInt_complement t,
    by omega, by omega⟩
  simp [within]

/-- **Integer arithmetic is exact or fails**, for every operand beneath and every one on top. Sums,
differences, products and counting give the number if it fits and overflow if it does not; division
and the bitwise words give what they should. -/
theorem integer_words_exact :
    (Exact c (.arithmetic .add) [.int t, .int b] (b.toInt + t.toInt) ∧
      Exact c (.arithmetic .subtract) [.int t, .int b] (b.toInt - t.toInt) ∧
      Exact c (.arithmetic .multiply) [.int t, .int b] (b.toInt * t.toInt) ∧
      Exact c (.count .increment) [.int t] (t.toInt + 1) ∧
      Exact c (.count .decrement) [.int t] (t.toInt - 1)) ∧
    Divides c b t ∧ WorksOnBits c b t := by
  have sums (w : Arithmetic) (x : Int) (same : w.apply (.int b) (.int t) = fitted x) :
      Exact c (.arithmetic w) [.int t, .int b] x :=
    .of_fitted (same ▸ computes_arithmetic c b t w)
  exact ⟨⟨sums .add _ rfl, sums .subtract _ rfl, sums .multiply _ rfl,
    .of_fitted (computes_count c t .increment), .of_fitted (computes_count c t .decrement)⟩,
    divides c b t, worksOnBits c b t⟩

end Words

end Chore.Machine
