import Chore.Text.Utf8

/-!
# The order of texts is the order of their bytes

Texts are compared character by character, and so are their encodings byte by byte. The two orders
are the same: where two encodings part, the one of the smaller character has the smaller byte, and
neither ends there (`encode_lt`).
-/

set_option autoImplicit false

namespace Chore.Text

theorem bytes_eq (s : String) : bytes s = s.toList.flatMap String.utf8EncodeChar := by
  have encoded : s.toList.utf8Encode = s.toByteArray := String.utf8Encode_toList
  rw [bytes, String.toUTF8_eq_toByteArray, ← encoded, List.utf8Encode, List.data_toByteArray]

/-- The encodings of two characters part at a byte, whatever is behind them, and the smaller
character has the smaller byte there. -/
theorem encode_lt {c d : Char} (h : c < d) (x y : List UInt8) :
    String.utf8EncodeChar c ++ x < String.utf8EncodeChar d ++ y := by
  have less : c.val.toNat < d.val.toNat := h
  have top : d.val.toNat < 1114112 := by
    have valid := d.valid
    simp only [UInt32.isValidChar, Nat.isValidChar] at valid
    omega
  -- the digits to base 64, each taken from the one before
  have digits (n : Nat) : n / 4096 = n / 64 / 64 ∧ n / 262144 = n / 64 / 64 / 64 := by omega
  unfold String.utf8EncodeChar
  generalize c.val.toNat = m at *
  generalize d.val.toNat = n at *
  simp only [digits]
  -- one case for each pair of lengths
  repeat' split
  all_goals
    simp only [List.cons_append, List.nil_append, List.cons_lt_cons_iff, UInt8.lt_iff_toNat_lt,
      ← UInt8.toNat_inj, UInt8.toNat_ofNat']
    omega

theorem encode_ne_nil (c : Char) : String.utf8EncodeChar c ≠ [] := by
  unfold String.utf8EncodeChar
  dsimp only
  repeat' split
  all_goals exact List.cons_ne_nil _ _

theorem flatMap_encode_lt {l m : List Char} (h : l < m) :
    l.flatMap String.utf8EncodeChar < m.flatMap String.utf8EncodeChar := by
  induction l generalizing m with
  | nil =>
    cases m with
    | nil => exact absurd h (List.lt_irrefl [])
    | cons d m =>
      obtain ⟨b, bs, encoded⟩ := List.exists_cons_of_ne_nil (encode_ne_nil d)
      rw [List.flatMap_nil, List.flatMap_cons, encoded]
      exact List.nil_lt_cons b _
  | cons c l ih =>
    cases m with
    | nil => exact absurd h (List.not_lt_nil _)
    | cons d m =>
      rw [List.flatMap_cons, List.flatMap_cons]
      rcases List.cons_lt_cons_iff.1 h with smaller | ⟨rfl, rest⟩
      · exact encode_lt smaller _ _
      · exact List.append_left_lt (ih rest)

theorem text_lt_of_le {s t : String} (h : s ≤ t) (differ : s ≠ t) : s < t := by
  apply Decidable.byContradiction
  intro not
  exact differ (String.le_antisymm h (String.not_lt.1 not))

/-- **Texts are in the order of their bytes.** -/
theorem bytes_lt_iff {s t : String} : bytes s < bytes t ↔ s < t := by
  have forward {s t : String} (h : s < t) : bytes s < bytes t := by
    rw [bytes_eq, bytes_eq]
    exact flatMap_encode_lt h
  constructor
  · intro less
    apply Decidable.byContradiction
    intro not
    by_cases same : t = s
    · exact List.lt_irrefl _ (same ▸ less)
    · exact List.lt_irrefl _ (List.lt_trans less (forward (text_lt_of_le (String.not_lt.1 not) same)))
  · exact forward

/-- **The order of the bytes is the order of the code points.** -/
theorem bytes_lt_iff_codePoints {s t : String} :
    bytes s < bytes t ↔ s.toList.map Char.toNat < t.toList.map Char.toNat := by
  rw [bytes_lt_iff, String.lt_iff]
  generalize s.toList = l
  generalize t.toList = m
  induction l generalizing m with
  | nil => cases m <;> simp
  | cons c l ih =>
    cases m with
    | nil => simp
    | cons d m =>
      rw [List.map_cons, List.map_cons, List.cons_lt_cons_iff, List.cons_lt_cons_iff, ih,
        Char.toNat_inj]
      exact Iff.rfl

end Chore.Text
