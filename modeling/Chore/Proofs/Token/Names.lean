import Mathlib.Algebra.Group.Int.Defs
import Mathlib.Computability.RegularExpressions
import Chore.Proofs.Text.ByteOrder
import Chore.Proofs.Token.Words

/-!
# The language of names

Names are the texts of a regular expression, `[a-z](_?[a-z0-9]+)*` (`namePattern`). The expression is
ambiguous, as a run of letters can be cut into groups in many ways, and the check of a name cuts
nothing: it goes through the characters once and keeps one bit, whether an underscore came just
before. The two meet in an equation of Kleene algebra (`kstar_groups`): of a sequence of groups one
only has to know its first character, and what is behind it is a sequence of groups again. The
characters of names have one byte each, so that going through the bytes of a text comes to the same
(`isByteName_bytes`).
-/

set_option autoImplicit false

namespace Chore.Token

open Computability

/-! ## The expression -/

/-- One character of a list. -/
def oneOf (cs : List Char) : RegularExpression Char :=
  (cs.map .char).sum

def optional (p : RegularExpression Char) : RegularExpression Char :=
  1 + p

def oneOrMore (p : RegularExpression Char) : RegularExpression Char :=
  p * p.star

def lowercase : List Char :=
  ('a' ...= 'z').toList

def lowercaseOrDigit : List Char :=
  lowercase ++ ('0' ...= '9').toList

/-- Letters and digits, maybe with an underscore in front: `_?[a-z0-9]+`. -/
def nameGroup : RegularExpression Char :=
  optional (oneOf ['_']) * oneOrMore (oneOf lowercaseOrDigit)

/-- The expression of names, `[a-z](_?[a-z0-9]+)*`. -/
def namePattern : RegularExpression Char :=
  oneOf lowercase * nameGroup.star

theorem mem_oneOf {cs w : List Char} : w ∈ (oneOf cs).matches' ↔ ∃ c ∈ cs, w = [c] := by
  induction cs with
  | nil => exact ⟨nofun, nofun⟩
  | cons c cs ih =>
    have whole : w ∈ (oneOf (c :: cs)).matches' ↔ w = [c] ∨ w ∈ (oneOf cs).matches' := Iff.rfl
    rw [whole, ih]
    simp only [List.mem_cons, exists_eq_or_imp]

theorem nil_not_mem_oneOf_mul (cs : List Char) (l : Language Char) :
    [] ∉ (oneOf cs).matches' * l := by
  rintro ⟨v, hv, w, -, empty⟩
  obtain ⟨c, -, rfl⟩ := mem_oneOf.1 hv
  cases empty

theorem cons_mem_oneOf_mul {cs w : List Char} {c : Char} {l : Language Char} :
    c :: w ∈ (oneOf cs).matches' * l ↔ c ∈ cs ∧ w ∈ l := by
  rw [Language.mem_mul]
  constructor
  · rintro ⟨v, hv, w', hw, whole⟩
    obtain ⟨d, hd, rfl⟩ := mem_oneOf.1 hv
    obtain ⟨rfl, rfl⟩ := List.cons.inj whole
    exact ⟨hd, hw⟩
  · rintro ⟨hc, hw⟩
    exact ⟨[c], mem_oneOf.2 ⟨c, hc, rfl⟩, w, hw, rfl⟩

theorem mem_between {low high c : Char} :
    c ∈ (low...=high).toList ↔ (decide (low.val ≤ c.val) && decide (c.val ≤ high.val)) = true := by
  rw [Std.Rcc.mem_toList_iff_mem, Bool.and_eq_true, decide_eq_true_eq, decide_eq_true_eq]
  exact Iff.rfl

theorem mem_lowercase {c : Char} : c ∈ lowercase ↔ c.isLower = true :=
  mem_between

theorem mem_lowercaseOrDigit {c : Char} :
    c ∈ lowercaseOrDigit ↔ (c.isLower || c.isDigit) = true := by
  have digit : c ∈ ('0' ...= '9').toList ↔ c.isDigit = true := mem_between
  rw [lowercaseOrDigit, List.mem_append, mem_lowercase, digit, Bool.or_eq_true]

/-! ## The check -/

/-- A sequence of groups is empty, or starts with an `a`, with or without a `u` in front, and has a
sequence of groups behind it: more of the same group is such a sequence too. -/
theorem kstar_groups {K : Type} [KleeneAlgebra K] (u a : K) :
    ((1 + u) * (a * a∗))∗ = 1 + (1 + u) * (a * ((1 + u) * (a * a∗))∗) := by
  have single : a ≤ (1 + u) * (a * a∗) := calc
    a = 1 * (a * 1) := by rw [mul_one, one_mul]
    _ ≤ (1 + u) * (a * a∗) := by
      gcongr
      · exact le_self_add
      · exact one_le_kstar
  generalize group : (1 + u) * (a * a∗) = g at single ⊢
  have absorbed : a∗ * g∗ = g∗ := by
    apply le_antisymm
    · calc
        a∗ * g∗ ≤ g∗ * g∗ := by gcongr
        _ = g∗ := kstar_mul_kstar g
    · calc
        g∗ = 1 * g∗ := (one_mul _).symm
        _ ≤ a∗ * g∗ := by gcongr; exact one_le_kstar
  calc
    g∗ = 1 + g * g∗ := one_add_mul_kstar.symm
    _ = 1 + (1 + u) * (a * (a∗ * g∗)) := by rw [← group]; simp only [mul_assoc]
    _ = 1 + (1 + u) * (a * g∗) := by rw [absorbed]

/-- What can stand behind the first letter of a name. -/
def tails : Language Char :=
  nameGroup.star.matches'

/-- A letter or a digit in front of such a tail. -/
def filledTails : Language Char :=
  (oneOf lowercaseOrDigit).matches' * tails

theorem cons_mem_filledTails {c : Char} {cs : List Char} :
    c :: cs ∈ filledTails ↔ (c.isLower || c.isDigit) = true ∧ cs ∈ tails := by
  rw [filledTails, cons_mem_oneOf_mul, mem_lowercaseOrDigit]

theorem cons_mem_tails {c : Char} {cs : List Char} :
    c :: cs ∈ tails ↔ c :: cs ∈ filledTails ∨ c = '_' ∧ cs ∈ filledTails := by
  have first : tails = 1 + (1 + (oneOf ['_']).matches') * filledTails := kstar_groups _ _
  rw [first, add_mul, one_mul, Language.mem_add, Language.mem_add, Language.mem_one,
    cons_mem_oneOf_mul, List.mem_singleton]
  exact or_iff_right (List.cons_ne_nil c cs)

/-- The bit says whether an underscore waits for a letter or a digit. -/
theorem isNameTail_iff (cs : List Char) :
    (isNameTail false cs = true ↔ cs ∈ tails) ∧ (isNameTail true cs = true ↔ cs ∈ filledTails) := by
  induction cs with
  | nil =>
    exact ⟨iff_of_true rfl (Language.nil_mem_kstar _),
      iff_of_false nofun (nil_not_mem_oneOf_mul _ _)⟩
  | cons c cs ih =>
    rw [cons_mem_tails, cons_mem_filledTails, isNameTail, isNameTail]
    by_cases underscore : c = '_'
    · subst underscore
      simp [ih.2]
    · simp [underscore, ih.1]

theorem isName_iff_mem (s : String) : isName s = true ↔ s.toList ∈ namePattern.matches' := by
  have whole : namePattern.matches' = (oneOf lowercase).matches' * tails := rfl
  rw [whole, isName]
  cases s.toList with
  | nil => exact iff_of_false nofun (nil_not_mem_oneOf_mul _ _)
  | cons c cs =>
    rw [cons_mem_oneOf_mul, mem_lowercase, Bool.and_eq_true, (isNameTail_iff cs).1]

/-! ## Bytes -/

def isLowerByte (b : UInt8) : Bool :=
  0x61 ≤ b && b ≤ 0x7a

def isDigitByte (b : UInt8) : Bool :=
  0x30 ≤ b && b ≤ 0x39

/-- The bytes behind the first letter of a name. -/
def isByteTail : Bool → List UInt8 → Bool
  | underscore, [] => !underscore
  | underscore, b :: bs =>
    if b = 0x5f then !underscore && isByteTail true bs
    else (isLowerByte b || isDigitByte b) && isByteTail false bs

/-- The check of a name on the bytes of a text. -/
def isByteName : List UInt8 → Bool
  | [] => false
  | b :: bs => isLowerByte b && isByteTail false bs

/-- The first byte of a character that is not of ASCII is not of ASCII. -/
theorem encode_wide {c : Char} (wide : 0x7f < c.toNat) :
    ∃ b bs, String.utf8EncodeChar c = b :: bs ∧ 0x7f < b.toNat := by
  change 0x7f < c.val.toNat at wide
  unfold String.utf8EncodeChar
  generalize c.val.toNat = n at *
  dsimp only
  rw [if_neg (by omega)]
  -- one case for each number of bytes
  repeat' split
  all_goals
    refine ⟨_, _, rfl, ?_⟩
    rw [UInt8.toNat_ofNat']
    omega

/-- The classes of characters in names, and those of bytes. -/
structure SameClass (c : Char) (b : UInt8) : Prop where
  lower : isLowerByte b = c.isLower
  digit : isDigitByte b = c.isDigit
  underscore : b = 0x5f ↔ c = '_'

theorem sameClass_ascii {c : Char} (ascii : c.toNat ≤ 0x7f) : SameClass c (.ofNat c.toNat) := by
  have all : ∀ n < 0x80, isLowerByte (.ofNat n) = (Char.ofNat n).isLower ∧
      isDigitByte (.ofNat n) = (Char.ofNat n).isDigit ∧
      (UInt8.ofNat n = 0x5f ↔ Char.ofNat n = '_') := by decide +kernel
  obtain ⟨lower, digit, underscore⟩ := all c.toNat (by omega)
  rw [Char.ofNat_toNat] at lower digit underscore
  exact ⟨lower, digit, underscore⟩

/-- Behind ASCII there is nothing that a name may hold, among the characters and among the bytes. -/
theorem not_inName_of_wide {c : Char} (wide : 0x7f < c.toNat) :
    c.isLower = false ∧ c.isDigit = false ∧ c ≠ '_' := by
  refine ⟨?_, ?_, ?_⟩
  · rw [Bool.eq_false_iff]
    intro lower
    have range := toNat_of_isLower lower
    omega
  · rw [Bool.eq_false_iff]
    intro digit
    have range := Text.toNat_of_isDigit digit
    omega
  · rintro rfl
    exact absurd wide (by decide)

theorem sameClass_wide {c : Char} {b : UInt8} (wide : 0x7f < c.toNat) (high : 0x7f < b.toNat) :
    SameClass c b := by
  obtain ⟨lower, digit, underscore⟩ := not_inName_of_wide wide
  have above {top : UInt8} (h : top.toNat ≤ 0x7f) : decide (b ≤ top) = false := by
    rw [decide_eq_false_iff_not, UInt8.le_iff_toNat_le]
    omega
  refine ⟨?_, ?_, ?_⟩
  · rw [lower, isLowerByte, above (by decide), Bool.and_false]
  · rw [digit, isDigitByte, above (by decide), Bool.and_false]
  · refine iff_of_false ?_ underscore
    rintro rfl
    exact absurd high (by decide)

/-- The first byte of a character has its class, and is the only one of a character of ASCII. -/
theorem exists_encode (c : Char) :
    ∃ b bs, String.utf8EncodeChar c = b :: bs ∧ SameClass c b ∧ (bs = [] ∨ 0x7f < c.toNat) := by
  by_cases ascii : c.toNat ≤ 0x7f
  · exact ⟨_, _, if_pos ascii, sameClass_ascii ascii, .inl rfl⟩
  · have wide : 0x7f < c.toNat := by omega
    obtain ⟨b, bs, encoded, high⟩ := encode_wide wide
    exact ⟨b, bs, encoded, sameClass_wide wide high, .inr wide⟩

theorem isByteTail_bytes (underscore : Bool) (cs : List Char) :
    isByteTail underscore (cs.flatMap String.utf8EncodeChar) = isNameTail underscore cs := by
  induction cs generalizing underscore with
  | nil => rfl
  | cons c cs ih =>
    obtain ⟨b, bs, encoded, same, rfl | wide⟩ := exists_encode c
    · rw [List.flatMap_cons, encoded, List.singleton_append, isByteTail, isNameTail, ih, ih,
        same.lower, same.digit]
      simp only [same.underscore]
    · obtain ⟨lower, digit, other⟩ := not_inName_of_wide wide
      rw [List.flatMap_cons, encoded, List.cons_append, isByteTail, isNameTail, same.lower,
        same.digit, lower, digit, if_neg other, if_neg (mt same.underscore.1 other)]
      rfl

/-- **A name can be checked on its bytes.** -/
theorem isByteName_bytes (s : String) : isByteName (Text.bytes s) = isName s := by
  rw [Text.bytes_eq, isName]
  cases s.toList with
  | nil => rfl
  | cons c cs =>
    obtain ⟨b, bs, encoded, same, rfl | wide⟩ := exists_encode c
    all_goals change _ = (c.isLower && isNameTail false cs)
    · rw [List.flatMap_cons, encoded, List.singleton_append, isByteName, same.lower,
        isByteTail_bytes]
    · rw [List.flatMap_cons, encoded, List.cons_append, isByteName, same.lower,
        (not_inName_of_wide wide).1]
      rfl

/-! ## Words -/

/-- A decimal number with an optional sign, within 64 bits. -/
def IsNumber (s : String) : Prop :=
  ∃ x : Int, Text.Numeral s.toList x ∧ -2 ^ 63 ≤ x ∧ x < 2 ^ 63

theorem isNumber_iff {s : String} : IsNumber s ↔ ∃ n, Text.readInt s.toList = some n := by
  constructor
  · rintro ⟨x, numeral, least, most⟩
    refine ⟨.ofInt x, Text.readInt_eq_some_iff.2 ?_⟩
    rwa [Int64.toInt_ofInt_of_le least most]
  · rintro ⟨n, read⟩
    exact ⟨n.toInt, Text.readInt_eq_some_iff.1 read, n.le_toInt, n.toInt_lt⟩

theorem ofWord_eq_name_iff {s : String} {line : Nat} :
    ofWord s line = .ok (.name s) ↔ isName s = true ∧ ∀ w : Word, w.spelling ≠ s := by
  constructor
  · intro read
    rcases ofWord_cases s line with ⟨w, -, is⟩ | ⟨other, ⟨n, -, is⟩ | ⟨-, ⟨named, -⟩ | ⟨-, is⟩⟩⟩
    · cases is.symm.trans read
    · cases is.symm.trans read
    · exact ⟨named, other⟩
    · cases is.symm.trans read
  · exact fun ⟨named, other⟩ => ofWord_name named other line

theorem ofWord_eq_unknown_iff {s : String} {line : Nat} :
    ofWord s line = .error (.unknownWord s line) ↔
      (∀ w : Word, w.spelling ≠ s) ∧ ¬IsNumber s ∧ isName s = false := by
  rw [isNumber_iff]
  rcases ofWord_cases s line with
    ⟨w, spelled, is⟩ | ⟨other, ⟨n, number, is⟩ | ⟨unread, ⟨named, is⟩ | ⟨unnamed, is⟩⟩⟩
  · exact iff_of_false (is ▸ nofun) fun h => h.1 w spelled
  · exact iff_of_false (is ▸ nofun) fun h => h.2.1 ⟨n, number⟩
  · exact iff_of_false (is ▸ nofun) fun h => Bool.false_ne_true (h.2.2.symm.trans named)
  · have number : ¬∃ n, Text.readInt s.toList = some n := by
      rintro ⟨n, read⟩
      cases unread.symm.trans read
    exact iff_of_true is ⟨other, number, unnamed⟩

/-- **Names are the texts of their expression**, whether the check goes through characters or bytes. A
word is read as a name if it is one and is not spelled like a built-in word, and is unknown if it is
neither a built-in word, nor a number of 64 bits, nor a name. -/
theorem names_match_pattern (s : String) (line : Nat) :
    (isName s = true ↔ s.toList ∈ namePattern.matches') ∧
    isByteName (Text.bytes s) = isName s ∧
    (ofWord s line = .ok (.name s) ↔
      s.toList ∈ namePattern.matches' ∧ ∀ w : Word, w.spelling ≠ s) ∧
    (ofWord s line = .error (.unknownWord s line) ↔
      (∀ w : Word, w.spelling ≠ s) ∧ ¬IsNumber s ∧ s.toList ∉ namePattern.matches') := by
  refine ⟨isName_iff_mem s, isByteName_bytes s, ?_, ?_⟩
  · rw [ofWord_eq_name_iff, isName_iff_mem]
  · rw [ofWord_eq_unknown_iff, ← isName_iff_mem, Bool.not_eq_true]

/-- The expression is matched by its derivatives. -/
example : namePattern.rmatch "ab_2".toList = true ∧ namePattern.rmatch "a__b".toList = false := by
  cbv

end Chore.Token
