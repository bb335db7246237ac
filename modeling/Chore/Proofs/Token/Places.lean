import Chore.Proofs.Token.Steps

/-!
# Where lexemes stand

The characters of a source text, cut from the left. `Holds line front rest ms` says that the
characters `front` hold the lexemes `ms`, each with the line it starts on, and leave off between
lexemes, with `rest` behind them; the cut then finds these lexemes and goes on with `rest`
(`scan_holds`). What can come next is one of five things (`Comes`): layout up to the end of the
text, a lexeme, or one of the three faults of a literal.
-/

set_option autoImplicit false

namespace Chore

/-- The characters of a lexeme, in front of others. -/
inductive Lexeme.Stands : Lexeme → List Char → List Char → Prop where
  | word {w : String} {rest : List Char} (unbroken : isUnbroken w.toList = true)
      (apart : IsApart rest) : Stands (.word w) w.toList rest
  | text {s : String} {quoted rest : List Char} (inside : Quoted s.toList quoted) :
      Stands (.text s) ('\x22' :: (quoted ++ ['\x22'])) rest
  | path {p : String} {rest : List Char} (inside : '\x27' ∉ p.toList) :
      Stands (.path p) ('\x27' :: (p.toList ++ ['\x27'])) rest

theorem Lexeme.Stands.ne_nil {l : Lexeme} {shown rest : List Char}
    (here : l.Stands shown rest) : shown ≠ [] := by
  cases here with
  | word unbroken =>
    intro none
    rw [none] at unbroken
    cases unbroken
  | text | path => exact List.cons_ne_nil _ _

theorem Lexeme.Stands.alone {l : Lexeme} {shown front rest : List Char}
    (here : l.Stands shown (front ++ rest)) : l.Stands shown (front ++ []) := by
  cases here with
  | word unbroken apart =>
    refine .word unbroken ?_
    cases front with
    | nil => exact isApart_nil
    | cons c front => exact apart
  | text inside => exact .text inside
  | path inside => exact .path inside

/-- Characters behind an opening quote that do not close the text. -/
def Unclosed (cs : List Char) : Prop :=
  ∃ s, Quoted s cs ∨ ∃ quoted, cs = quoted ++ ['\x5c'] ∧ Quoted s quoted

namespace Lexemes

/-- Characters that start on a line and hold some lexemes, with layout in front of them and behind
them, in front of other characters. -/
inductive Holds : Nat → List Char → List Char → List (Lexeme × Nat) → Prop where
  | nil {line : Nat} {rest : List Char} : Holds line [] rest []
  | blank {line : Nat} {c : Char} {front rest : List Char} {ms : List (Lexeme × Nat)}
      (blank : Text.isBlank c = true) (behind : Holds (lineAfter line c) front rest ms) :
      Holds line (c :: front) rest ms
  | comment {line : Nat} {note front rest : List Char} {ms : List (Lexeme × Nat)}
      (inside : '\n' ∉ note) (behind : Holds (line + 1) front rest ms) :
      Holds line ('/' :: '/' :: (note ++ '\n' :: front)) rest ms
  | lexeme {line : Nat} {l : Lexeme} {shown front rest : List Char} {ms : List (Lexeme × Nat)}
      (here : l.Stands shown (front ++ rest)) (behind : Holds (lineBehind line shown) front rest ms) :
      Holds line (shown ++ front) rest ((l, line) :: ms)

/-- Lexemes in front of others. -/
def consAll (ms : List (Lexeme × Nat)) (rest : Lexemes) : Lexemes :=
  ms.foldr (fun m found => cons m.1 m.2 found) rest

theorem consAll_append (ms ns : List (Lexeme × Nat)) (rest : Lexemes) :
    consAll (ms ++ ns) rest = consAll ms (consAll ns rest) :=
  List.foldr_append

/-! ## What is held is found -/

theorem lineBehind_append (line : Nat) (cs ds : List Char) :
    lineBehind line (cs ++ ds) = lineBehind (lineBehind line cs) ds := by
  unfold lineBehind
  rw [List.count_append, Nat.add_assoc]

theorem lineBehind_of_not_mem {cs : List Char} (h : '\n' ∉ cs) (line : Nat) :
    lineBehind line cs = line := by
  rw [lineBehind, List.count_eq_zero_of_not_mem h, Nat.add_zero]

theorem lineBehind_comment {note : List Char} (inside : '\n' ∉ note) (line : Nat)
    (cs : List Char) :
    lineBehind line ('/' :: '/' :: (note ++ '\n' :: cs)) = lineBehind (line + 1) cs := by
  rw [lineBehind_cons_of_ne (by decide), lineBehind_cons_of_ne (by decide), lineBehind_append,
    lineBehind_of_not_mem inside, lineBehind_cons, lineAfter_newline]

theorem lineBehind_quotes {quote : Char} (h : quote ≠ '\n') (line : Nat) (cs : List Char) :
    lineBehind line (quote :: (cs ++ [quote])) = lineBehind line cs := by
  rw [lineBehind_cons_of_ne h, lineBehind_append, lineBehind_cons_of_ne h, lineBehind_nil]

theorem newline_not_mem_of_isUnbroken {w : List Char} (unbroken : isUnbroken w = true) :
    '\n' ∉ w := by
  intro inside
  cases w with
  | nil => cases inside
  | cons c w =>
    have solid := (isUnbroken_cons.1 unbroken).1 _ inside
    rw [Text.isBlank_newline] at solid
    cases solid

theorem scan_stands {l : Lexeme} {shown rest : List Char} (here : l.Stands shown rest)
    (line : Nat) :
    scan .gap line (shown ++ rest) = cons l line (scan .gap (lineBehind line shown) rest) := by
  cases here with
  | word unbroken apart =>
    rw [scan_gap_word unbroken apart, String.ofList_toList,
      lineBehind_of_not_mem (newline_not_mem_of_isUnbroken unbroken)]
  | text inside =>
    rw [lineBehind_quotes (by decide), ← scan_gap_text inside]
    simp
  | path inside =>
    rw [lineBehind_quotes (by decide), ← scan_gap_path inside]
    simp

/-- **What is held is found**, and the cut goes on behind it. -/
theorem scan_holds {line : Nat} {front rest : List Char} {ms : List (Lexeme × Nat)}
    (h : Holds line front rest ms) :
    scan .gap line (front ++ rest) = consAll ms (scan .gap (lineBehind line front) rest) := by
  induction h with
  | nil => rfl
  | blank blank _ ih =>
    rw [List.cons_append, scan_blank blank, ih, lineBehind_cons]
  | @comment _ note front rest _ inside _ ih =>
    have chars : '/' :: '/' :: (note ++ '\n' :: front) ++ rest =
        '/' :: '/' :: (note ++ '\n' :: (front ++ rest)) := by simp
    rw [chars, scan_gap_comment, (scan_comment inside _ _).1, ih, lineBehind_comment inside]
  | lexeme here _ ih =>
    rw [List.append_assoc, scan_stands here, ih, lineBehind_append]
    rfl

theorem Holds.alone {line : Nat} {front rest : List Char} {ms : List (Lexeme × Nat)}
    (h : Holds line front rest ms) : Holds line front [] ms := by
  induction h with
  | nil => exact .nil
  | blank blank _ ih => exact .blank blank ih
  | comment inside _ ih => exact .comment inside ih
  | lexeme here _ ih => exact .lexeme here.alone ih

theorem Holds.append {line : Nat} {front next rest : List Char} {ms ns : List (Lexeme × Nat)}
    (h : Holds line front (next ++ rest) ms) (behind : Holds (lineBehind line front) next rest ns) :
    Holds line (front ++ next) rest (ms ++ ns) := by
  generalize whole : next ++ rest = all at h
  induction h with
  | nil => exact behind
  | blank blank _ ih =>
    rw [lineBehind_cons] at behind
    exact .blank blank (ih behind whole)
  | @comment _ note _ _ _ inside _ ih =>
    rw [lineBehind_comment inside] at behind
    simpa using Holds.comment inside (ih behind whole)
  | lexeme here _ ih =>
    subst whole
    rw [lineBehind_append] at behind
    rw [List.append_assoc]
    refine .lexeme ?_ (ih behind rfl)
    rwa [List.append_assoc]

theorem Holds.single {line : Nat} {gap shown rest : List Char} {l : Lexeme}
    (layout : Holds line gap (shown ++ rest) []) (here : l.Stands shown rest) :
    Holds line (gap ++ shown) rest [(l, lineBehind line gap)] := by
  have one : Holds (lineBehind line gap) (shown ++ []) rest [(l, lineBehind line gap)] :=
    .lexeme here .nil
  rw [List.append_nil] at one
  exact layout.append one

/-! ## Faults -/

theorem scan_unclosed {inside : List Char} (opened : Unclosed inside) (line : Nat) :
    scan .gap line ('\x22' :: inside) = .fault (.unterminatedText line) := by
  change scan (.text line []) line inside = _
  obtain ⟨s, quoted | ⟨front, rfl, quoted⟩⟩ := opened
  · rw [← List.append_nil inside, scan_quoted quoted]
    rfl
  · rw [scan_quoted quoted]
    rfl

theorem scan_openPath {inside : List Char} (opened : '\x27' ∉ inside) (line : Nat) :
    scan .gap line ('\x27' :: inside) = .fault (.unterminatedPath line) := by
  change scan (.path line []) line inside = _
  rw [← List.append_nil inside, scan_inside_path opened]
  rfl

theorem scan_badEscape {s quoted : List Char} (inside : Quoted s quoted) {c : Char}
    (unknown : escaped? c = none) (rest : List Char) (line : Nat) :
    scan .gap line ('\x22' :: (quoted ++ '\x5c' :: c :: rest)) =
      .fault (.unknownEscape c (lineAfter (lineBehind line quoted) c)) := by
  rw [scan_opensText, scan_quoted inside, scan_opensEscape, scan_notEscaped unknown]

/-! ## What comes next -/

theorem quoted_escaped {c d : Char} (known : escaped? c = some d) {s quoted : List Char}
    (inside : Quoted s quoted) : Quoted (d :: s) ('\x5c' :: c :: quoted) := by
  unfold escaped? at known
  split at known
  next here =>
    cases here
    cases known
    exact .newline inside
  next =>
  split at known
  next here =>
    cases here
    cases known
    exact .tab inside
  next =>
  split at known
  next here =>
    cases here
    cases known
    exact .backslash inside
  next =>
  split at known
  next here =>
    cases here
    cases known
    exact .quote inside
  next => cases known

/-- What is behind an opening quote: a text and its closing quote, or one of its faults. -/
inductive TextAhead : List Char → Prop where
  | closed {s quoted rest : List Char} (inside : Quoted s quoted) :
      TextAhead (quoted ++ '\x22' :: rest)
  | opened {cs : List Char} (opened : Unclosed cs) : TextAhead cs
  | badEscape {s quoted rest : List Char} {c : Char} (inside : Quoted s quoted)
      (unknown : escaped? c = none) : TextAhead (quoted ++ '\x5c' :: c :: rest)

theorem TextAhead.behind (front : List Char) {cs : List Char} (h : TextAhead cs)
    (more : ∀ s quoted, Quoted s quoted → ∃ t, Quoted t (front ++ quoted)) :
    TextAhead (front ++ cs) := by
  cases h with
  | closed inside =>
    obtain ⟨t, inside⟩ := more _ _ inside
    rw [← List.append_assoc]
    exact .closed inside
  | opened opened =>
    obtain ⟨s, quoted | ⟨quoted, rfl, inside⟩⟩ := opened
    · obtain ⟨t, quoted⟩ := more _ _ quoted
      exact .opened ⟨t, .inl quoted⟩
    · obtain ⟨t, inside⟩ := more _ _ inside
      exact .opened ⟨t, .inr ⟨_, (List.append_assoc ..).symm, inside⟩⟩
  | badEscape inside unknown =>
    obtain ⟨t, inside⟩ := more _ _ inside
    rw [← List.append_assoc]
    exact .badEscape inside unknown

theorem textAhead : (cs : List Char) → TextAhead cs
  | [] => .opened ⟨[], .inl .nil⟩
  | c :: cs => by
    by_cases quote : c = '\x22'
    · subst quote
      exact @TextAhead.closed [] [] cs .nil
    by_cases backslash : c = '\x5c'
    · subst backslash
      match cs with
      | [] => exact .opened ⟨[], .inr ⟨[], rfl, .nil⟩⟩
      | d :: cs =>
        cases known : escaped? d with
        | none => exact @TextAhead.badEscape [] [] cs d .nil known
        | some e =>
          exact (textAhead cs).behind ['\x5c', d] fun s quoted inside =>
            ⟨e :: s, quoted_escaped known inside⟩
    · exact (textAhead cs).behind [c] fun s quoted inside =>
        ⟨c :: s, .plain quote backslash inside⟩

/-- What can stand behind layout. -/
inductive Comes : List Char → Prop where
  | nothing {rest : List Char} (layout : Shows [] rest) : Comes rest
  | lexeme {l : Lexeme} {shown rest : List Char} (here : l.Stands shown rest) :
      Comes (shown ++ rest)
  | openText {inside : List Char} (opened : Unclosed inside) : Comes ('\x22' :: inside)
  | openPath {inside : List Char} (opened : '\x27' ∉ inside) : Comes ('\x27' :: inside)
  | badEscape {s quoted rest : List Char} {c : Char} (inside : Quoted s quoted)
      (unknown : escaped? c = none) : Comes ('\x22' :: (quoted ++ '\x5c' :: c :: rest))

theorem comes_text (cs : List Char) : Comes ('\x22' :: cs) := by
  cases textAhead cs with
  | @closed s quoted rest inside =>
    have here : Lexeme.Stands (.text (String.ofList s)) ('\x22' :: (quoted ++ ['\x22'])) rest :=
      .text (by rwa [String.toList_ofList])
    simpa using Comes.lexeme here
  | opened opened => exact .openText opened
  | badEscape inside unknown => exact .badEscape inside unknown

theorem comes_path (cs : List Char) : Comes ('\x27' :: cs) := by
  by_cases closed : '\x27' ∈ cs
  · obtain ⟨p, rest, rfl, inside⟩ := List.eq_append_cons_of_mem closed
    have here : Lexeme.Stands (.path (String.ofList p))
        ('\x27' :: ((String.ofList p).toList ++ ['\x27'])) rest :=
      .path (by rwa [String.toList_ofList])
    simpa using Comes.lexeme here
  · exact .openPath closed

/-- A word that is no comment, up to the next blank. -/
theorem comes_word {c : Char} {cs : List Char} (solid : Text.isBlank c = false)
    (text : c ≠ '\x22') (path : c ≠ '\x27') (noComment : c = '/' → cs.take 1 ≠ ['/']) :
    Comes (c :: cs) := by
  let w := cs.takeWhile fun d => !Text.isBlank d
  let rest := cs.dropWhile fun d => !Text.isBlank d
  have whole : w ++ rest = cs := List.takeWhile_append_dropWhile
  have unbroken : isUnbroken (c :: w) = true := by
    refine isUnbroken_cons.2 ⟨List.forall_mem_cons.2 ⟨solid, fun d inside => ?_⟩, text, path, ?_⟩
    · simpa using List.all_eq_true.1 List.all_takeWhile d inside
    · intro slash twice
      refine noComment slash ?_
      rw [← whole]
      revert twice
      cases w with
      | nil => nofun
      | cons d w => exact id
  have apart : IsApart rest := by
    intro d first
    have stops := List.head?_dropWhile_not (fun d => !Text.isBlank d) cs
    rw [first] at stops
    simpa using stops
  have here : Lexeme.Stands (.word (String.ofList (c :: w))) (String.ofList (c :: w)).toList rest :=
    .word (by rwa [String.toList_ofList]) apart
  have comes := Comes.lexeme here
  rwa [String.toList_ofList, List.cons_append, whole] at comes

/-- **Layout, and what stands behind it.** -/
theorem exists_layout (line : Nat) : (cs : List Char) →
    ∃ gap rest, cs = gap ++ rest ∧ Holds line gap rest [] ∧ Comes rest
  | [] => ⟨[], [], rfl, .nil, .nothing .done⟩
  | c :: cs => by
    by_cases blank : Text.isBlank c = true
    · obtain ⟨gap, rest, rfl, layout, comes⟩ := exists_layout (lineAfter line c) cs
      exact ⟨c :: gap, rest, rfl, .blank blank layout, comes⟩
    by_cases text : c = '\x22'
    · exact ⟨[], _, rfl, .nil, text ▸ comes_text cs⟩
    by_cases path : c = '\x27'
    · exact ⟨[], _, rfl, .nil, path ▸ comes_path cs⟩
    by_cases comment : c = '/' ∧ cs.take 1 = ['/']
    · obtain ⟨rfl, second⟩ := comment
      match cs with
      | d :: cs =>
        obtain rfl : d = '/' := (List.cons.inj second).1
        by_cases closed : '\n' ∈ cs
        · obtain ⟨note, behind, rfl, inside⟩ := List.eq_append_cons_of_mem closed
          obtain ⟨gap, rest, rfl, layout, comes⟩ := exists_layout (line + 1) behind
          exact ⟨_, rest, by simp, .comment inside layout, comes⟩
        · exact ⟨[], _, rfl, .nil, .nothing (.openComment closed)⟩
    · have solid : Text.isBlank c = false := Bool.eq_false_iff.2 blank
      exact ⟨[], _, rfl, .nil, comes_word solid text path fun slash second =>
        comment ⟨slash, second⟩⟩
termination_by cs => cs.length

end Lexemes

end Chore
