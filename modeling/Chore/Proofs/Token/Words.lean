import Chore.Proofs.Text.Decimal
import Chore.Proofs.Token.Scanning
import Chore.Token.Reader

/-!
# Words in a source text

What the reader makes of a single word. Numbers in decimal, the spellings of built-in words and
valid names are each left in one piece by the cut (`isUnbroken`), and no word is of two of these
sorts: a built-in word is tried first, then a number, then a name, and each is read as what it is.
`ofWord_cases` says what can come of a word.
-/

set_option autoImplicit false

namespace Chore

open Text Lexemes

/-! ## Words in one piece -/

/-- The characters of numbers and names. -/
def isPlainChar (c : Char) : Bool :=
  c.isLower || c.isDigit || c = '_' || c = '-'

theorem toNat_of_isLower {c : Char} (h : c.isLower = true) : 0x61 ≤ c.toNat ∧ c.toNat ≤ 0x7a := by
  obtain ⟨low, high⟩ := Bool.and_eq_true_iff.1 h
  exact ⟨of_decide_eq_true low, of_decide_eq_true high⟩

theorem not_isBlank_of_range {c : Char} (low : 0x21 ≤ c.toNat) (high : c.toNat ≤ 0x7e) :
    isBlank c = false := by
  rw [Bool.eq_false_iff]
  intro blank
  obtain ⟨r, hr, inside⟩ := inRanges_iff.1 blank
  simp only [blankRanges, List.mem_cons, List.not_mem_nil, or_false] at hr
  rcases hr with rfl | rfl | rfl | rfl | rfl | rfl | rfl | rfl | rfl | rfl <;> omega

theorem not_isBlank_of_isPlainChar {c : Char} (h : isPlainChar c = true) : isBlank c = false := by
  simp only [isPlainChar, Bool.or_eq_true, decide_eq_true_eq] at h
  rcases h with ((lower | digit) | rfl) | rfl
  · have range := toNat_of_isLower lower
    apply not_isBlank_of_range <;> omega
  · have range := toNat_of_isDigit digit
    apply not_isBlank_of_range <;> omega
  · decide
  · decide

theorem isUnbroken_of_isPlainChar {w : List Char} (nonempty : w ≠ [])
    (plain : ∀ c ∈ w, isPlainChar c = true) : isUnbroken w = true := by
  cases w with
  | nil => exact absurd rfl nonempty
  | cons c cs =>
    have first : isPlainChar c = true := plain c List.mem_cons_self
    rw [isUnbroken_cons]
    refine ⟨fun d hd => not_isBlank_of_isPlainChar (plain d hd), ?_, ?_, ?_⟩ <;>
      · rintro rfl
        cases first

/-- Numbers in decimal: digits and a sign, and at least one digit. -/
theorem chars_decimalInt (n : Int) :
    (∀ c ∈ decimalInt n, c.isDigit = true ∨ c = '-') ∧ ∃ c ∈ decimalInt n, c.isDigit = true := by
  obtain ⟨c, cs, whole⟩ := List.exists_cons_of_ne_nil (decimal_ne_nil n.natAbs)
  have first : c ∈ decimal n.natAbs := whole ▸ List.mem_cons_self
  have digits (c : Char) (hc : c ∈ decimal n.natAbs) : c.isDigit = true ∨ c = '-' :=
    .inl (isDigit_of_mem_decimal hc)
  unfold decimalInt
  split
  · refine ⟨fun c hc => ?_, c, List.mem_cons_of_mem _ first, isDigit_of_mem_decimal first⟩
    rcases List.mem_cons.1 hc with rfl | hc
    · exact .inr rfl
    · exact digits c hc
  · exact ⟨digits, c, first, isDigit_of_mem_decimal first⟩

theorem isUnbroken_showInt (n : Int64) : isUnbroken (showInt n).toList = true := by
  obtain ⟨chars, c, hc, -⟩ := chars_decimalInt n.toInt
  rw [showInt, String.toList_ofList]
  refine isUnbroken_of_isPlainChar (List.ne_nil_of_mem hc) fun c hc => ?_
  rcases chars c hc with digit | rfl
  · simp [isPlainChar, digit]
  · decide

theorem isUnbroken_spelling (w : Word) : isUnbroken w.spelling.toList = true := by
  have all : ∀ w ∈ Word.all, isUnbroken w.spelling.toList = true := by decide +kernel
  exact all w w.mem_all

namespace Token

theorem isPlainChar_of_isNameTail {underscore : Bool} {cs : List Char}
    (h : isNameTail underscore cs = true) : ∀ c ∈ cs, isPlainChar c = true := by
  induction cs generalizing underscore with
  | nil => nofun
  | cons c cs ih =>
    unfold isNameTail at h
    split at h
    next here =>
      subst here
      rw [Bool.and_eq_true] at h
      exact List.forall_mem_cons.2 ⟨by decide, ih h.2⟩
    next =>
      rw [Bool.and_eq_true, Bool.or_eq_true] at h
      refine List.forall_mem_cons.2 ⟨?_, ih h.2⟩
      rcases h.1 with lower | digit
      · simp [isPlainChar, lower]
      · simp [isPlainChar, digit]

/-- A name starts with a letter, and goes on with letters, digits and underscores. -/
theorem exists_of_isName {s : String} (h : isName s = true) :
    ∃ c cs, s.toList = c :: cs ∧ c.isLower = true ∧ ∀ c ∈ s.toList, isPlainChar c = true := by
  unfold isName at h
  cases chars : s.toList with
  | nil => rw [chars] at h; cases h
  | cons c cs =>
    rw [chars, Bool.and_eq_true] at h
    refine ⟨c, cs, rfl, h.1, List.forall_mem_cons.2 ⟨?_, isPlainChar_of_isNameTail h.2⟩⟩
    simp [isPlainChar, h.1]

theorem isUnbroken_of_isName {s : String} (h : isName s = true) : isUnbroken s.toList = true := by
  obtain ⟨c, cs, chars, -, plain⟩ := exists_of_isName h
  exact isUnbroken_of_isPlainChar (by rw [chars]; exact List.cons_ne_nil c cs) plain

/-! ## Single words -/

theorem ofSpelling?_eq_none {s : String} (h : ∀ w : Word, w.spelling ≠ s) :
    Word.ofSpelling? s = none := by
  rw [Word.ofSpelling?, List.find?_eq_none]
  intro w _
  simpa using h w

theorem spelling_ne_of_ofSpelling? {s : String} (h : Word.ofSpelling? s = none) (w : Word) :
    w.spelling ≠ s := by
  rintro rfl
  rw [Word.ofSpelling?_spelling] at h
  cases h

/-- No number is spelled like a word, and none like `proc`. -/
theorem ne_showInt {s : String}
    (h : (s.toList.all fun c => c.isDigit || c = '-') = false ∨ s.toList.any Char.isDigit = false)
    (n : Int64) : s ≠ showInt n := by
  rintro rfl
  obtain ⟨chars, c, hc, digit⟩ := chars_decimalInt n.toInt
  rw [showInt, String.toList_ofList] at h
  rcases h with h | h
  · refine absurd (List.all_eq_true.2 fun c hc => ?_) (Bool.eq_false_iff.1 h)
    simpa using chars c hc
  · exact absurd (List.any_eq_true.2 ⟨c, hc, digit⟩) (Bool.eq_false_iff.1 h)

theorem spelling_ne_showInt (w : Word) (n : Int64) : w.spelling ≠ showInt n := by
  have all : ∀ w ∈ Word.all, (w.spelling.toList.all fun c => c.isDigit || c = '-') = false ∨
      w.spelling.toList.any Char.isDigit = false := by decide +kernel
  exact ne_showInt (all w w.mem_all) n

theorem spelling_ne_proc (w : Word) : w.spelling ≠ "proc" := by
  have all : ∀ w ∈ Word.all, w.spelling ≠ "proc" := by decide +kernel
  exact all w w.mem_all

/-- No name is a number: it starts with a letter. -/
theorem readInt_of_isName {s : String} (h : isName s = true) : readInt s.toList = none := by
  obtain ⟨c, cs, chars, lower, -⟩ := exists_of_isName h
  have range := toNat_of_isLower lower
  have digit : c.isDigit = false := by
    rw [Bool.eq_false_iff]
    intro digit
    have := toNat_of_isDigit digit
    omega
  have minus : c ≠ '-' := by rintro rfl; cases lower
  have plus : c ≠ '+' := by rintro rfl; cases lower
  have fails (limit : Nat) : readUnsigned limit (c :: cs) = .error .invalidDigit := by
    cases cs with
    | nil => simp [readUnsigned, readDigits, digit]
    | cons d ds => simp [readUnsigned, readDigits, digit, plus]
  rw [chars]
  unfold readInt
  split
  next eq => exact absurd (List.cons.inj eq).1 minus
  next => rw [fails]

theorem ofWord_showInt (n : Int64) (line : Nat) :
    ofWord (showInt n) line = .ok (.literal (.int n)) := by
  unfold ofWord
  rw [ofSpelling?_eq_none fun w => spelling_ne_showInt w n, showInt, String.toList_ofList,
    readInt_decimalInt]

theorem ofWord_spelling (w : Word) (line : Nat) : ofWord w.spelling line = .ok (.word w) := by
  unfold ofWord
  rw [Word.ofSpelling?_spelling]

theorem ofWord_name {s : String} (named : isName s = true) (other : ∀ w : Word, w.spelling ≠ s)
    (line : Nat) : ofWord s line = .ok (.name s) := by
  unfold ofWord
  rw [ofSpelling?_eq_none other, readInt_of_isName named]
  simp only [named, if_true]

/-- **How a word is read.** It is a built-in word, or else a number, or else a name, or no token. -/
theorem ofWord_cases (s : String) (line : Nat) :
    (∃ w : Word, w.spelling = s ∧ ofWord s line = .ok (.word w)) ∨
    (∀ w : Word, w.spelling ≠ s) ∧
      ((∃ n, readInt s.toList = some n ∧ ofWord s line = .ok (.literal (.int n))) ∨
      readInt s.toList = none ∧
        (isName s = true ∧ ofWord s line = .ok (.name s) ∨
        isName s = false ∧ ofWord s line = .error (.unknownWord s line))) := by
  rw [ofWord]
  cases spelling : Word.ofSpelling? s with
  | some w => exact .inl ⟨w, Word.spelling_of_ofSpelling? spelling, rfl⟩
  | none =>
    refine .inr ⟨spelling_ne_of_ofSpelling? spelling, ?_⟩
    cases readInt s.toList with
    | some n => exact .inl ⟨n, rfl, rfl⟩
    | none =>
      refine .inr ⟨rfl, ?_⟩
      cases isName s with
      | true => exact .inl ⟨rfl, rfl⟩
      | false => exact .inr ⟨rfl, rfl⟩

end Token

end Chore
