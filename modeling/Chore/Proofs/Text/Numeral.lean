import Chore.Text.Decimal

/-!
# What is read as a number

A numeral is a run of decimal digits with an optional sign in front, and stands for an integer
(`Numeral`). The reader reads exactly the numerals of 64-bit integers, each as its integer
(`readInt_eq_some_iff`). It gives up at the first digit that takes the number past the limit, and
nothing is lost by that: with more digits behind it, a number only grows (`le_ofDigitChars`).
-/

set_option autoImplicit false

namespace Chore.Text

/-- A run of decimal digits. -/
def IsDigits (ds : List Char) : Prop :=
  ds ≠ [] ∧ ∀ d ∈ ds, d.isDigit = true

/-- Digits with an optional sign in front, and the integer they stand for. -/
inductive Numeral : List Char → Int → Prop where
  | unsigned {ds : List Char} (digits : IsDigits ds) : Numeral ds (Nat.ofDigitChars 10 ds 0)
  | plus {ds : List Char} (digits : IsDigits ds) : Numeral ('+' :: ds) (Nat.ofDigitChars 10 ds 0)
  | minus {ds : List Char} (digits : IsDigits ds) : Numeral ('-' :: ds) (-(Nat.ofDigitChars 10 ds 0))

theorem IsDigits.head {c : Char} {ds : List Char} (digits : IsDigits (c :: ds)) :
    c.isDigit = true :=
  digits.2 c List.mem_cons_self

theorem le_ofDigitChars (ds : List Char) (m : Nat) : m ≤ Nat.ofDigitChars 10 ds m := by
  induction ds generalizing m with
  | nil => exact Nat.le_refl m
  | cons d ds ih =>
    rw [Nat.ofDigitChars_cons]
    exact Nat.le_trans (by omega) (ih _)

/-- Digits are read if the number stays within the limit at the last of them. -/
theorem readDigits_eq_ok_iff {limit m n : Nat} {ds : List Char} (within : m ≤ limit) :
    readDigits limit m ds = .ok n ↔
      (∀ d ∈ ds, d.isDigit = true) ∧ Nat.ofDigitChars 10 ds m = n ∧ n ≤ limit := by
  induction ds generalizing m with
  | nil =>
    rw [readDigits, Nat.ofDigitChars_nil, Except.ok.injEq]
    constructor
    · rintro rfl
      exact ⟨fun d hd => absurd hd List.not_mem_nil, rfl, within⟩
    · exact fun h => h.2.1
  | cons d ds ih =>
    rw [List.forall_mem_cons, Nat.ofDigitChars_cons, readDigits]
    split
    next digit =>
      split
      next fits =>
        rw [ih fits]
        exact ⟨fun h => ⟨⟨digit, h.1⟩, h.2⟩, fun h => ⟨h.1.2, h.2⟩⟩
      next large =>
        constructor
        · intro read
          cases read
        · rintro ⟨-, rfl, most⟩
          exact absurd (Nat.le_trans (le_ofDigitChars ds _) most) large
    next other =>
      constructor
      · intro read
        cases read
      · exact fun h => absurd h.1.1 other

/-- A plus sign in front makes no difference. -/
theorem readUnsigned_eq_ok_iff {limit n : Nat} {cs : List Char} :
    readUnsigned limit cs = .ok n ↔
      ∃ ds, (cs = ds ∨ cs = '+' :: ds) ∧ IsDigits ds ∧ Nat.ofDigitChars 10 ds 0 = n ∧ n ≤ limit := by
  constructor
  · intro read
    have taken {ds : List Char} (sign : cs = ds ∨ cs = '+' :: ds) (nonempty : ds ≠ [])
        (read : readDigits limit 0 ds = .ok n) : ∃ ds, (cs = ds ∨ cs = '+' :: ds) ∧ IsDigits ds ∧
          Nat.ofDigitChars 10 ds 0 = n ∧ n ≤ limit := by
      obtain ⟨digits, value⟩ := (readDigits_eq_ok_iff (Nat.zero_le limit)).1 read
      exact ⟨ds, sign, ⟨nonempty, digits⟩, value⟩
    cases cs with
    | nil => cases read
    | cons c cs =>
      cases cs with
      | nil => exact taken (.inl rfl) (List.cons_ne_nil c []) read
      | cons d ds =>
        simp only [readUnsigned] at read
        split at read
        next plus => exact taken (.inr (plus ▸ rfl)) (List.cons_ne_nil d ds) read
        next => exact taken (.inl rfl) (List.cons_ne_nil c (d :: ds)) read
  · rintro ⟨ds, sign, digits, value⟩
    have read : readDigits limit 0 ds = .ok n :=
      (readDigits_eq_ok_iff (Nat.zero_le limit)).2 ⟨digits.2, value⟩
    obtain ⟨d, ds, rfl⟩ := List.exists_cons_of_ne_nil digits.1
    rcases sign with rfl | rfl
    · have plus : d ≠ '+' := by
        rintro rfl
        cases digits.head
      cases ds with
      | nil => exact read
      | cons e es =>
        simp only [readUnsigned, if_neg plus]
        exact read
    · exact read

theorem numeral_of_readInt {cs : List Char} {n : Int64} (read : readInt cs = some n) :
    Numeral cs n.toInt := by
  unfold readInt at read
  split at read
  next d ds =>
    split at read
    next k magnitude =>
      obtain ⟨digits, rfl, most⟩ := (readDigits_eq_ok_iff (Nat.zero_le _)).1 magnitude
      obtain rfl := Option.some.inj read
      rw [Int64.toInt_ofInt_of_le (by omega) (by omega)]
      exact .minus ⟨List.cons_ne_nil d ds, digits⟩
    next => cases read
  next =>
    split at read
    next k magnitude =>
      obtain ⟨ds, sign, digits, rfl, most⟩ := readUnsigned_eq_ok_iff.1 magnitude
      obtain rfl := Option.some.inj read
      rw [Int64.toInt_ofNat_of_lt (by omega)]
      rcases sign with rfl | rfl
      · exact .unsigned digits
      · exact .plus digits
    next => cases read

theorem readInt_of_plus {cs ds : List Char} {n : Int64} (sign : cs = ds ∨ cs = '+' :: ds)
    (digits : IsDigits ds) (value : n.toInt = Nat.ofDigitChars 10 ds 0) : readInt cs = some n := by
  have most := n.toInt_lt
  have read : readUnsigned 0x7fffffffffffffff cs = .ok (Nat.ofDigitChars 10 ds 0) :=
    readUnsigned_eq_ok_iff.2 ⟨ds, sign, digits, rfl, by omega⟩
  have back : Int64.ofNat (Nat.ofDigitChars 10 ds 0) = n := by
    rw [← Int64.toInt_inj, Int64.toInt_ofNat_of_lt (by omega), value]
  unfold readInt
  split
  next =>
    rcases sign with rfl | sign
    · cases digits.head
    · cases sign
  next =>
    rw [read]
    exact congrArg some back

theorem readInt_of_minus {ds : List Char} {n : Int64} (digits : IsDigits ds)
    (value : n.toInt = -(Nat.ofDigitChars 10 ds 0)) : readInt ('-' :: ds) = some n := by
  have least := n.le_toInt
  have read : readDigits 0x8000000000000000 0 ds = .ok (Nat.ofDigitChars 10 ds 0) :=
    (readDigits_eq_ok_iff (Nat.zero_le _)).2 ⟨digits.2, rfl, by omega⟩
  obtain ⟨d, ds, rfl⟩ := List.exists_cons_of_ne_nil digits.1
  simp only [readInt, read, ← value, Int64.ofInt_toInt]

/-- **The reader reads the numerals of 64-bit integers**, and nothing else. -/
theorem readInt_eq_some_iff {cs : List Char} {n : Int64} :
    readInt cs = some n ↔ Numeral cs n.toInt := by
  constructor
  · exact numeral_of_readInt
  · intro numeral
    generalize value : n.toInt = x at numeral
    cases numeral with
    | unsigned digits => exact readInt_of_plus (.inl rfl) digits value
    | plus digits => exact readInt_of_plus (.inr rfl) digits value
    | minus digits => exact readInt_of_minus digits value

end Chore.Text
