import Chore.Token.Lexeme

/-!
# Layout

How lexemes may be written down. `Shows ls cs` says that the characters `cs` show the lexemes `ls`
with any layout around them: blanks and comments may stand anywhere but inside a lexeme, and a word
ends at a blank or at the end of the text. A literal ends at its closing quote, so what comes next
may follow at once. `lists_scan` is the result: the cut finds the lexemes again, whatever the layout
is. It also never takes a quote into a path (`clean_scan`).
-/

set_option autoImplicit false

namespace Chore

/-- Whether the cut leaves a word in one piece: it has no blank, and starts neither with a quote nor
with a comment. -/
def isUnbroken : List Char → Bool
  | [] => false
  | c :: cs =>
    (c :: cs).all (fun d => !Text.isBlank d) && c ≠ '\x22' && c ≠ '\x27' &&
      (c ≠ '/' || cs.take 1 ≠ ['/'])

theorem isUnbroken_cons {c : Char} {cs : List Char} :
    isUnbroken (c :: cs) = true ↔ (∀ d ∈ c :: cs, Text.isBlank d = false) ∧ c ≠ '\x22' ∧
      c ≠ '\x27' ∧ (c = '/' → cs.take 1 ≠ ['/']) := by
  simp only [isUnbroken, Bool.and_eq_true, Bool.or_eq_true, List.all_eq_true, Bool.not_eq_true',
    decide_eq_true_eq, and_assoc, Decidable.imp_iff_not_or]

/-- A lexeme that can be written down. -/
def Lexeme.Writable : Lexeme → Prop
  | word w => isUnbroken w.toList = true
  | text _ => True
  | path p => '\x27' ∉ p.toList

/-- How the characters of a text may be written between its quotes: a quote and a backslash behind a
backslash, a newline and a tab as they are or as an escape, and anything else as it is. -/
inductive Quoted : List Char → List Char → Prop where
  | nil : Quoted [] []
  | plain {c : Char} {s cs : List Char} (quote : c ≠ '\x22') (backslash : c ≠ '\x5c')
      (behind : Quoted s cs) : Quoted (c :: s) (c :: cs)
  | quote {s cs : List Char} (behind : Quoted s cs) :
      Quoted ('\x22' :: s) ('\x5c' :: '\x22' :: cs)
  | backslash {s cs : List Char} (behind : Quoted s cs) :
      Quoted ('\x5c' :: s) ('\x5c' :: '\x5c' :: cs)
  | newline {s cs : List Char} (behind : Quoted s cs) : Quoted ('\n' :: s) ('\x5c' :: 'n' :: cs)
  | tab {s cs : List Char} (behind : Quoted s cs) : Quoted ('\t' :: s) ('\x5c' :: 't' :: cs)

/-- What may follow a word: a blank, or the end of the text. -/
def IsApart (cs : List Char) : Prop :=
  ∀ c, cs.head? = some c → Text.isBlank c = true

theorem isApart_nil : IsApart [] :=
  nofun

theorem isApart_blank (cs : List Char) : IsApart (' ' :: cs) := by
  rintro _ ⟨⟩
  decide

/-- Characters that show some lexemes with layout in front of them, between them and behind them. A
comment runs to the end of its line; the last one may run to the end of the text. -/
inductive Shows : List Lexeme → List Char → Prop where
  | done : Shows [] []
  | openComment {note : List Char} (line : '\n' ∉ note) : Shows [] ('/' :: '/' :: note)
  | blank {ls : List Lexeme} {c : Char} {cs : List Char} (blank : Text.isBlank c = true)
      (behind : Shows ls cs) : Shows ls (c :: cs)
  | comment {ls : List Lexeme} {note cs : List Char} (line : '\n' ∉ note) (behind : Shows ls cs) :
      Shows ls ('/' :: '/' :: (note ++ '\n' :: cs))
  | word {ls : List Lexeme} {w : String} {cs : List Char}
      (apart : ∀ c, cs.head? = some c → Text.isBlank c = true) (behind : Shows ls cs) :
      Shows (.word w :: ls) (w.toList ++ cs)
  | text {ls : List Lexeme} {s : String} {quoted cs : List Char} (inside : Quoted s.toList quoted)
      (behind : Shows ls cs) : Shows (.text s :: ls) ('\x22' :: (quoted ++ '\x22' :: cs))
  | path {ls : List Lexeme} {p : String} {cs : List Char} (behind : Shows ls cs) :
      Shows (.path p :: ls) ('\x27' :: (p.toList ++ '\x27' :: cs))

theorem exists_quoted (s : List Char) : ∃ cs, Quoted s cs := by
  induction s with
  | nil => exact ⟨[], .nil⟩
  | cons c s ih =>
    obtain ⟨cs, behind⟩ := ih
    by_cases quote : c = '\x22'
    · subst quote
      exact ⟨_, .quote behind⟩
    · by_cases backslash : c = '\x5c'
      · subst backslash
        exact ⟨_, .backslash behind⟩
      · exact ⟨_, .plain quote backslash behind⟩

/-- Lexemes can be shown, with a blank behind each word. -/
theorem exists_shows (ls : List Lexeme) : ∃ cs, Shows ls cs := by
  induction ls with
  | nil => exact ⟨[], .done⟩
  | cons l ls ih =>
    obtain ⟨cs, behind⟩ := ih
    cases l with
    | word w =>
      have blank : Text.isBlank ' ' = true := by decide
      refine ⟨w.toList ++ ' ' :: cs, .word ?_ (.blank blank behind)⟩
      rintro _ ⟨⟩
      exact blank
    | text s =>
      obtain ⟨quoted, inside⟩ := exists_quoted s.toList
      exact ⟨_, .text inside behind⟩
    | path p => exact ⟨_, .path behind⟩

namespace Lexemes

/-- The lexemes were all read, and the text ended behind them. -/
inductive Lists : Lexemes → List Lexeme → Prop where
  | done : Lists .done []
  | cons {l : Lexeme} {line : Nat} {rest : Lexemes} {ls : List Lexeme} (behind : Lists rest ls) :
      Lists (.cons l line rest) (l :: ls)

theorem Lists.uncons {found : Lexemes} {l : Lexeme} {ls : List Lexeme}
    (h : Lists found (l :: ls)) : ∃ line rest, found = .cons l line rest ∧ Lists rest ls := by
  cases h with
  | cons behind => exact ⟨_, _, rfl, behind⟩

/-! ## Lines -/

theorem lineAfter_newline (line : Nat) : lineAfter line '\n' = line + 1 :=
  if_pos rfl

theorem lineAfter_of_ne {c : Char} (h : c ≠ '\n') (line : Nat) : lineAfter line c = line :=
  if_neg h

/-- The line behind some characters. -/
def lineBehind (line : Nat) (cs : List Char) : Nat :=
  line + cs.count '\n'

@[simp] theorem lineBehind_nil (line : Nat) : lineBehind line [] = line :=
  rfl

theorem lineBehind_cons (line : Nat) (c : Char) (cs : List Char) :
    lineBehind line (c :: cs) = lineBehind (lineAfter line c) cs := by
  unfold lineBehind
  by_cases h : c = '\n'
  · subst h
    rw [lineAfter_newline, List.count_cons_self]
    omega
  · rw [lineAfter_of_ne h, List.count_cons_of_ne h]

theorem lineBehind_cons_of_ne {c : Char} (h : c ≠ '\n') (line : Nat) (cs : List Char) :
    lineBehind line (c :: cs) = lineBehind line cs := by
  rw [lineBehind_cons, lineAfter_of_ne h]

theorem ne_newline_of_not_blank {c : Char} (h : ¬Text.isBlank c = true) : c ≠ '\n' := by
  rintro rfl
  exact h Text.isBlank_newline

theorem ne_newline_of_escaped? {c d : Char} (h : escaped? c = some d) : c ≠ '\n' := by
  rintro rfl
  cases h

/-! ## Steps of the cut -/

section Steps

variable {start line : Nat} {c : Char} {cs read : List Char}

theorem scan_blank (blank : Text.isBlank c = true) :
    scan .gap line (c :: cs) = scan .gap (lineAfter line c) cs :=
  if_pos blank

theorem scan_opensText : scan .gap line ('\x22' :: cs) = scan (.text line []) line cs :=
  rfl

theorem scan_opensPath : scan .gap line ('\x27' :: cs) = scan (.path line []) line cs :=
  rfl

theorem scan_opensWord (solid : ¬Text.isBlank c = true) (text : c ≠ '\x22') (path : c ≠ '\x27') :
    scan .gap line (c :: cs) = scan (.word line [c]) line cs :=
  (if_neg solid).trans ((if_neg text).trans (if_neg path))

theorem scan_inComment (other : c ≠ '\n') :
    scan .comment line (c :: cs) = scan .comment line cs :=
  if_neg other

theorem scan_endsComment : scan .comment line ('\n' :: cs) = scan .gap (line + 1) cs :=
  rfl

theorem scan_endsWord (blank : Text.isBlank c = true) :
    scan (.word start read) line (c :: cs) =
      .cons (.word (String.ofList read.reverse)) start (scan .gap (lineAfter line c) cs) :=
  if_pos blank

theorem scan_opensComment : scan (.word start ['/']) line ('/' :: cs) = scan .comment line cs :=
  rfl

theorem scan_inWord (solid : ¬Text.isBlank c = true) (goesOn : ¬(c = '/' ∧ read = ['/'])) :
    scan (.word start read) line (c :: cs) = scan (.word start (c :: read)) line cs :=
  (if_neg solid).trans (if_neg goesOn)

theorem scan_endsText :
    scan (.text start read) line ('\x22' :: cs) =
      .cons (.text (String.ofList read.reverse)) start (scan .gap line cs) :=
  rfl

theorem scan_opensEscape :
    scan (.text start read) line ('\x5c' :: cs) = scan (.escape start read) line cs :=
  rfl

theorem scan_inText (quote : c ≠ '\x22') (backslash : c ≠ '\x5c') :
    scan (.text start read) line (c :: cs) =
      scan (.text start (c :: read)) (lineAfter line c) cs :=
  (if_neg quote).trans (if_neg backslash)

theorem scan_escaped {d : Char} (known : escaped? c = some d) :
    scan (.escape start read) line (c :: cs) = scan (.text start (d :: read)) line cs := by
  rw [scan, known]

theorem scan_notEscaped (unknown : escaped? c = none) :
    scan (.escape start read) line (c :: cs) = .fault (.unknownEscape c (lineAfter line c)) := by
  rw [scan, unknown]

theorem scan_endsPath :
    scan (.path start read) line ('\x27' :: cs) =
      .cons (.path (String.ofList read.reverse)) start (scan .gap line cs) :=
  rfl

theorem scan_inPath (other : c ≠ '\x27') :
    scan (.path start read) line (c :: cs) =
      scan (.path start (c :: read)) (lineAfter line c) cs :=
  if_neg other

end Steps

/-! ## Words -/

/-- The rest of a word, up to a blank or the end of the text. -/
theorem scan_word {w cs : List Char} (solid : ∀ c ∈ w, Text.isBlank c = false)
    (apart : IsApart cs) (start line : Nat) {read : List Char}
    (noComment : read = ['/'] → w.head? ≠ some '/') (begun : read ≠ []) :
    scan (.word start read) line (w ++ cs) =
      .cons (.word (String.ofList (read.reverse ++ w))) start (scan .gap line cs) := by
  induction w generalizing read with
  | nil =>
    rw [List.append_nil, List.nil_append]
    cases cs with
    | nil => rfl
    | cons c cs =>
      have blank : Text.isBlank c = true := apart c rfl
      rw [scan_endsWord blank, scan_blank blank]
  | cons c w ih =>
    have unbroken : ¬Text.isBlank c = true := Bool.eq_false_iff.1 (solid c List.mem_cons_self)
    have goesOn : ¬(c = '/' ∧ read = ['/']) := by
      rintro ⟨rfl, alone⟩
      exact noComment alone rfl
    rw [List.cons_append, scan_inWord unbroken goesOn,
      ih (fun d hd => solid d (List.mem_cons_of_mem c hd)) ?_ (List.cons_ne_nil c read)]
    · rw [List.reverse_cons, List.append_assoc]
      rfl
    · -- two characters are read by now
      intro alone
      exact absurd (List.cons.inj alone).2 begun

theorem scan_gap_word {w cs : List Char} (unbroken : isUnbroken w = true)
    (apart : IsApart cs) (line : Nat) :
    scan .gap line (w ++ cs) = .cons (.word (String.ofList w)) line (scan .gap line cs) := by
  cases w with
  | nil => cases unbroken
  | cons c w =>
    obtain ⟨solid, text, path, noComment⟩ := isUnbroken_cons.1 unbroken
    have here : ¬Text.isBlank c = true := Bool.eq_false_iff.1 (solid c List.mem_cons_self)
    rw [List.cons_append, scan_opensWord here text path]
    refine scan_word (fun d hd => solid d (List.mem_cons_of_mem c hd)) apart line line ?_
      (List.cons_ne_nil c [])
    intro alone second
    refine noComment (List.cons.inj alone).1 ?_
    cases w with
    | nil => cases second
    | cons d w =>
      obtain rfl := Option.some.inj second
      rfl

/-! ## Literals -/

theorem scan_quoted {s quoted : List Char} (inside : Quoted s quoted) (cs : List Char)
    (start line : Nat) (read : List Char) :
    scan (.text start read) line (quoted ++ cs) =
      scan (.text start (s.reverse ++ read)) (lineBehind line quoted) cs := by
  -- the characters read so far are kept last first
  have push (c : Char) (s read : List Char) : s.reverse ++ c :: read = (c :: s).reverse ++ read := by
    simp
  induction inside generalizing line read with
  | nil => rfl
  | plain quote backslash _ ih =>
    rw [List.cons_append, scan_inText quote backslash, ih, push, lineBehind_cons]
  | quote _ ih | backslash _ ih | newline _ ih | tab _ ih =>
    rw [lineBehind_cons_of_ne (by decide), lineBehind_cons_of_ne (by decide), ← push]
    exact ih line (_ :: read)

theorem scan_gap_text {s : String} {quoted : List Char} (inside : Quoted s.toList quoted)
    (cs : List Char) (line : Nat) :
    scan .gap line ('\x22' :: (quoted ++ '\x22' :: cs)) =
      .cons (.text s) line (scan .gap (lineBehind line quoted) cs) := by
  rw [scan_opensText, scan_quoted inside, scan_endsText, List.append_nil, List.reverse_reverse,
    String.ofList_toList]

theorem scan_inside_path {p : List Char} (inside : '\x27' ∉ p) (cs : List Char) (start line : Nat)
    (read : List Char) :
    scan (.path start read) line (p ++ cs) =
      scan (.path start (p.reverse ++ read)) (lineBehind line p) cs := by
  induction p generalizing line read with
  | nil => rfl
  | cons c p ih =>
    obtain ⟨other, behind⟩ := not_or.1 (mt List.mem_cons.2 inside)
    rw [List.cons_append, scan_inPath (Ne.symm other), ih behind, lineBehind_cons,
      List.reverse_cons, List.append_assoc]
    rfl

theorem scan_gap_path {p : String} (inside : '\x27' ∉ p.toList) (cs : List Char) (line : Nat) :
    scan .gap line ('\x27' :: (p.toList ++ '\x27' :: cs)) =
      .cons (.path p) line (scan .gap (lineBehind line p.toList) cs) := by
  rw [scan_opensPath, scan_inside_path inside, scan_endsPath, List.append_nil,
    List.reverse_reverse, String.ofList_toList]

/-! ## Comments -/

theorem scan_comment {note : List Char} (inside : '\n' ∉ note) (cs : List Char) (line : Nat) :
    scan .comment line (note ++ '\n' :: cs) = scan .gap (line + 1) cs ∧
      scan .comment line note = .done := by
  induction note with
  | nil => exact ⟨rfl, rfl⟩
  | cons c note ih =>
    obtain ⟨other, behind⟩ := not_or.1 (mt List.mem_cons.2 inside)
    rw [List.cons_append, scan_inComment (Ne.symm other), scan_inComment (Ne.symm other)]
    exact ih behind

theorem scan_gap_comment (line : Nat) (cs : List Char) :
    scan .gap line ('/' :: '/' :: cs) = scan .comment line cs := by
  rw [scan_opensWord (by decide) (by decide) (by decide), scan_opensComment]

/-- **The cut finds the lexemes**, whatever the layout is. -/
theorem lists_scan {ls : List Lexeme} {cs : List Char} (shows : Shows ls cs)
    (writable : ∀ l ∈ ls, l.Writable) (line : Nat) : Lists (scan .gap line cs) ls := by
  induction shows generalizing line with
  | done => exact .done
  | openComment inside =>
    rw [scan_gap_comment, (scan_comment inside [] line).2]
    exact .done
  | blank blank _ ih =>
    rw [scan_blank blank]
    exact ih writable _
  | comment inside _ ih =>
    rw [scan_gap_comment, (scan_comment inside _ line).1]
    exact ih writable _
  | word apart _ ih =>
    rw [scan_gap_word (writable _ List.mem_cons_self) apart, String.ofList_toList]
    exact .cons (ih (fun l hl => writable l (List.mem_cons_of_mem _ hl)) line)
  | text inside _ ih =>
    rw [scan_gap_text inside]
    exact .cons (ih (fun l hl => writable l (List.mem_cons_of_mem _ hl)) _)
  | path _ ih =>
    rw [scan_gap_path (writable _ List.mem_cons_self)]
    exact .cons (ih (fun l hl => writable l (List.mem_cons_of_mem _ hl)) _)

/-! ## What is found -/

/-- No path has a quote in it. -/
def Clean : Lexemes → Prop
  | done => True
  | fault _ => True
  | cons l _ rest => (∀ p, l = .path p → '\x27' ∉ p.toList) ∧ Clean rest

/-- What was read of a path so far has no quote in it. -/
def Mode.Clean : Mode → Prop
  | .path _ read => '\x27' ∉ read
  | _ => True

/-- **The cut ends a path at its quote.** -/
theorem clean_scan {mode : Mode} (clean : Mode.Clean mode) (line : Nat) (cs : List Char) :
    Clean (scan mode line cs) := by
  fun_induction scan mode line cs with
  | case1 | case2 | case4 | case5 | case6 | case20 => trivial
  | case3 => exact ⟨nofun, trivial⟩
  | case9 _ _ _ _ ih => exact ih List.not_mem_nil
  | case13 _ _ _ _ _ _ ih => exact ⟨nofun, ih trivial⟩
  | case16 _ _ _ _ ih => exact ⟨nofun, ih trivial⟩
  | case21 start read _ _ ih =>
    refine ⟨?_, ih trivial⟩
    rintro p ⟨⟩
    rw [String.toList_ofList, List.mem_reverse]
    exact clean
  | case22 start read line c cs other ih =>
    refine ih fun inside => ?_
    rcases List.mem_cons.1 inside with rfl | inside
    · exact other rfl
    · exact clean inside
  | _ =>
    rename_i ih
    exact ih trivial

end Lexemes

end Chore
