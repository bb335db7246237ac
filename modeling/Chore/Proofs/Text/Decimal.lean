import Chore.Proofs.Text.Numeral

/-!
# Decimal numbers are read back

A number written in decimal is read as that number (`readInt_decimalInt`), the smallest and the
largest included: what is written is a numeral of it (`numeral_decimalInt`).
-/

set_option autoImplicit false

namespace Chore.Text

theorem digit_decimalDigit {n : Nat} (h : n < 10) :
    (decimalDigit n).isDigit = true ∧ (decimalDigit n).toNat - 0x30 = n := by
  have digits : ∀ n < 10, (decimalDigit n).isDigit = true ∧ (decimalDigit n).toNat - 0x30 = n := by
    decide
  exact digits n h

theorem toNat_of_isDigit {c : Char} (h : c.isDigit = true) : 0x30 ≤ c.toNat ∧ c.toNat ≤ 0x39 := by
  simp only [Char.isDigit, Bool.and_eq_true, decide_eq_true_eq, ge_iff_le,
    UInt32.le_iff_toNat_le] at h
  exact h

theorem decimal_ne_nil (n : Nat) : decimal n ≠ [] := by
  unfold decimal
  split
  · exact List.cons_ne_nil _ _
  · exact List.append_ne_nil_of_right_ne_nil _ (List.cons_ne_nil _ _)

theorem isDigit_of_mem_decimal {n : Nat} {c : Char} (h : c ∈ decimal n) : c.isDigit = true := by
  fun_induction decimal n with
  | case1 n small =>
    obtain rfl := List.mem_singleton.1 h
    exact (digit_decimalDigit small).1
  | case2 n large ih =>
    rcases List.mem_append.1 h with h | h
    · exact ih h
    · obtain rfl := List.mem_singleton.1 h
      exact (digit_decimalDigit (Nat.mod_lt n (by omega))).1

theorem isDigits_decimal (n : Nat) : IsDigits (decimal n) :=
  ⟨decimal_ne_nil n, fun _ => isDigit_of_mem_decimal⟩

/-- The value of the digits, from the left, is the number they were taken from, from the right. -/
theorem ofDigitChars_decimal (n : Nat) : Nat.ofDigitChars 10 (decimal n) 0 = n := by
  have last {d : Nat} (small : d < 10) (m : Nat) :
      Nat.ofDigitChars 10 [decimalDigit d] m = 10 * m + d := by
    have value : (decimalDigit d).toNat - '0'.toNat = d := (digit_decimalDigit small).2
    rw [Nat.ofDigitChars_cons, Nat.ofDigitChars_nil, value]
  fun_induction decimal n with
  | case1 n small =>
    rw [last small]
    omega
  | case2 n large ih =>
    rw [Nat.ofDigitChars_append, ih, last (Nat.mod_lt n (by omega))]
    exact Nat.div_add_mod n 10

theorem numeral_decimalInt (x : Int) : Numeral (decimalInt x) x := by
  unfold decimalInt
  split
  next negative =>
    have same : -(x.natAbs : Int) = x := by omega
    have numeral := Numeral.minus (isDigits_decimal x.natAbs)
    rwa [ofDigitChars_decimal, same] at numeral
  next =>
    have same : (x.natAbs : Int) = x := by omega
    have numeral := Numeral.unsigned (isDigits_decimal x.natAbs)
    rwa [ofDigitChars_decimal, same] at numeral

/-- **Numbers are read back.** -/
theorem readInt_decimalInt (n : Int64) : readInt (decimalInt n.toInt) = some n :=
  readInt_eq_some_iff.2 (numeral_decimalInt n.toInt)

end Chore.Text
