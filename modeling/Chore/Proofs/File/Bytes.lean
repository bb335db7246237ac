import Chore.Proofs.File.Segments
import Chore.Proofs.Text.ByteOrder

/-!
# Paths in bytes

The bytes of a text are cut at slashes as the text is (`cutAt_bytes`), because no other character has
the byte of a slash in its encoding. So where the path of a directory is a text, what is joined to it
and what is taken from it can be told from the texts (`decodeBytes_joinBytes`, `names_toUTF8`). Where
all names on the way to a directory are texts, so is its whole path (`exists_text`).
-/

set_option autoImplicit false

namespace Chore

namespace Text

/-- What is text is read as it is. -/
theorem decodeBytes_toUTF8 (s : String) : decodeBytes s.toUTF8 = s := by
  have valid : String.fromUTF8? s.toUTF8 = some s := dif_pos s.isValidUTF8
  rw [decodeBytes, valid]

theorem bytes_inj {s t : String} : bytes s = bytes t ↔ s = t := by
  refine ⟨fun same => ?_, congrArg bytes⟩
  have data : s.toByteArray.data = t.toByteArray.data := Array.toList_inj.1 same
  exact String.toByteArray_inj.1 (ByteArray.ext data)

theorem map_bytes_inj {ss ts : List String} : ss.map bytes = ts.map bytes ↔ ss = ts :=
  List.map_inj_right fun _ _ => bytes_inj.1

/-- Only a slash has the byte of a slash. -/
theorem slash_not_mem_encode {c : Char} (h : c ≠ '/') : Path.slash ∉ String.utf8EncodeChar c := by
  have differ : c.val.toNat ≠ 47 := fun same => h (Char.ext (UInt32.toNat_inj.1 same))
  have top : c.val.toNat < 1114112 := by
    have valid := c.valid
    simp only [UInt32.isValidChar, Nat.isValidChar] at valid
    omega
  unfold String.utf8EncodeChar Path.slash
  generalize c.val.toNat = n at *
  dsimp only
  repeat' split
  all_goals
    simp only [List.mem_cons, List.not_mem_nil, ← UInt8.toNat_inj, UInt8.toNat_ofNat', or_false,
      UInt8.reduceToNat]
    omega

end Text

namespace Path

/-- What holds no separator is put in front of the first cut. -/
theorem cutAt_append {α : Type} [DecidableEq α] {sep : α} {s cs t : List α} {ts : List (List α)}
    (whole : sep ∉ s) (first : cutAt sep cs = t :: ts) : cutAt sep (s ++ cs) = (s ++ t) :: ts := by
  induction s with
  | nil => exact first
  | cons c s ih =>
    rw [List.mem_cons, not_or] at whole
    rw [List.cons_append, cutAt, if_neg (Ne.symm whole.1), ih whole.2]
    rfl

theorem cutAt_encode (cs : List Char) :
    cutAt slash (cs.flatMap String.utf8EncodeChar) =
      (cutAt '/' cs).map (List.flatMap String.utf8EncodeChar) := by
  induction cs with
  | nil => rfl
  | cons c cs ih =>
    obtain ⟨t, ts, first⟩ := List.exists_cons_of_ne_nil (@cutAt_ne_nil _ _ '/' cs)
    rw [List.flatMap_cons, cutAt]
    split
    next isSlash =>
      subst isSlash
      change cutAt slash (slash :: cs.flatMap String.utf8EncodeChar) = _
      rw [cutAt, if_pos rfl, ih]
      rfl
    next other =>
      rw [first] at ih ⊢
      exact cutAt_append (Text.slash_not_mem_encode other) ih

/-- **The bytes of a path are cut as the path is.** -/
theorem cutAt_bytes (path : String) :
    cutAt slash (Text.bytes path) = (segments path).map Text.bytes := by
  rw [Text.bytes_eq, cutAt_encode, segments, List.map_map]
  refine List.map_congr_left fun cs _ => ?_
  rw [Function.comp_apply, Text.bytes_eq, String.toList_ofList]

theorem idle_bytes (s : String) :
    (!(Text.bytes s = [] || Text.bytes s = [dot])) = !isIdle s := by
  have empty : Text.bytes s = [] ↔ s = "" := Text.bytes_inj (t := "")
  have single : Text.bytes s = [dot] ↔ s = "." := Text.bytes_inj (t := ".")
  simp only [isIdle, empty, single]

/-- The names on the way to a directory whose path is a text. -/
theorem names_toUTF8 (here : String) : names here.toUTF8 = (steps here).map Text.bytes := by
  have cuts : cutAt slash here.toUTF8.data.toList = (segments here).map Text.bytes :=
    cutAt_bytes here
  rw [names, cuts, List.filter_map, steps]
  exact congrArg _ (List.filter_congr fun s _ => idle_bytes s)

theorem head?_bytes (s : String) : (Text.bytes s).head? = some slash ↔ isAbsolute s = true := by
  rw [Text.bytes_eq, isAbsolute, decide_eq_true_eq]
  cases chars : s.toList with
  | nil => simp
  | cons c cs =>
    rw [List.flatMap_cons, List.head?_cons, Option.some_inj]
    constructor
    · intro first
      apply Decidable.byContradiction
      intro other
      obtain ⟨b, bs, encoded⟩ := List.exists_cons_of_ne_nil (Text.encode_ne_nil c)
      have absent := Text.slash_not_mem_encode other
      rw [encoded, List.cons_append, List.head?_cons, Option.some_inj] at first
      simp [encoded, first] at absent
    · rintro rfl
      rfl

theorem getLast?_bytes (s : String) :
    (Text.bytes s).getLast? = some slash ↔ endsInSlash s = true := by
  rw [Text.bytes_eq, endsInSlash, decide_eq_true_eq]
  rcases List.eq_nil_or_concat s.toList with chars | ⟨cs, c, chars⟩
  · simp [chars]
  · have ends := List.getLast?_eq_some_getLast (Text.encode_ne_nil c)
    rw [chars, List.concat_eq_append, List.flatMap_append, List.flatMap_singleton,
      List.getLast?_append, ends, Option.some_or, List.getLast?_concat, Option.some_inj,
      Option.some_inj]
    constructor
    · intro last
      apply Decidable.byContradiction
      intro other
      exact Text.slash_not_mem_encode other (last ▸ List.getLast_mem _)
    · rintro rfl
      rfl

theorem isRooted_toUTF8 (here : String) : isRooted here.toUTF8 = isAbsolute here := by
  rw [Bool.eq_iff_iff, ← head?_bytes, isRooted, decide_eq_true_eq]
  rfl

/-- **What is joined to a directory whose path is a text.** -/
theorem decodeBytes_joinBytes (here : String) {path : String} (h : isAbsolute path = false) :
    Text.decodeBytes (joinBytes here.toUTF8 path.toUTF8) = join here path := by
  have bytes : joinBytes here.toUTF8 path.toUTF8 = (join here path).toUTF8 := by
    rw [joinBytes, join, if_neg (Bool.eq_false_iff.1 h)]
    split
    next ends =>
      obtain rfl : here = "" := Text.bytes_inj.1 (List.getLast?_eq_none_iff.1 ends)
      simp
    next b ends =>
      have full : here ≠ "" := by
        rintro rfl
        cases ends
      have last : b = slash ↔ endsInSlash here = true := by
        rw [← getLast?_bytes, ← Option.some_inj, ← ends]
        rfl
      simp only [full, decide_false, Bool.false_or, ← last]
      split <;> simp
  rw [bytes, Text.decodeBytes_toUTF8]

/-- What starts at the root in bytes does so as text, whatever follows. -/
theorem isAbsolute_decodeBytes {dir : ByteArray} (rooted : isRooted dir = true) :
    isAbsolute (Text.decodeBytes dir) = true := by
  have first : dir.data.toList.head? = some slash := of_decide_eq_true rooted
  rw [Text.decodeBytes]
  split
  next s valid =>
    obtain ⟨whole, text⟩ := Option.dite_none_right_eq_some.1 valid
    obtain rfl := Option.some.inj text
    exact (head?_bytes _).1 first
  next =>
    obtain ⟨rest, bytes⟩ := List.head?_eq_some_iff.1 first
    rw [bytes, isAbsolute, String.toList_ofList]
    rfl

theorem isRooted_joinBytes {dir : ByteArray} (rooted : isRooted dir = true) (path : ByteArray) :
    isRooted (joinBytes dir path) = true := by
  have first : dir.data.toList.head? = some slash := of_decide_eq_true rooted
  obtain ⟨rest, bytes⟩ := List.head?_eq_some_iff.1 first
  rw [joinBytes]
  split
  next none => simp [bytes] at none
  next => split <;> simp [isRooted, bytes]

theorem bytes_ofSegments (ss : List String) :
    Text.bytes (ofSegments ss) = [slash].intercalate (ss.map Text.bytes) := by
  rw [Text.bytes_eq, ofSegments, String.toList_ofList]
  induction ss with
  | nil => rfl
  | cons s ss ih =>
    cases ss with
    | nil => simp [List.intercalate_singleton, Text.bytes_eq]
    | cons t ss =>
      simp only [List.map_cons, List.intercalate_cons_cons, List.flatMap_append] at ih ⊢
      rw [ih, ← Text.bytes_eq]
      rfl

theorem exists_map_bytes {names : List (List UInt8)}
    (texts : ∀ name ∈ names, ∃ s, Text.bytes s = name) :
    ∃ ss : List String, ss.map Text.bytes = names := by
  induction names with
  | nil => exact ⟨[], rfl⟩
  | cons name names ih =>
    have ⟨⟨s, first⟩, others⟩ := List.forall_mem_cons.1 texts
    obtain ⟨ss, rest⟩ := ih others
    exact ⟨s :: ss, by rw [List.map_cons, first, rest]⟩

/-- Where all names on the way to a directory are texts, so is its path. -/
theorem exists_text {dir : ByteArray} (texts : ∀ name ∈ names dir, ∃ s, Text.bytes s = name) :
    ∃ here : String, dir = here.toUTF8 := by
  have segment : ∀ name ∈ cutAt slash dir.data.toList, ∃ s, Text.bytes s = name := by
    intro name found
    by_cases idle : name = [] ∨ name = [dot]
    · rcases idle with rfl | rfl
      · exact ⟨"", rfl⟩
      · exact ⟨".", rfl⟩
    · exact texts name (List.mem_filter.2 ⟨found, by simpa using idle⟩)
  obtain ⟨ss, cuts⟩ := exists_map_bytes segment
  refine ⟨ofSegments ss, ByteArray.ext (Array.toList_inj.1 ?_)⟩
  change _ = Text.bytes (ofSegments ss)
  rw [bytes_ofSegments, cuts, intercalate_cutAt]

end Path

end Chore
