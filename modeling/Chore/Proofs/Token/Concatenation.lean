import Chore.Attempt
import Chore.Proofs.Token.Steps

/-!
# Texts behind each other

What the reader makes of two texts with a newline between them. The cut carries nothing over the
newline but the number of the line: a word or a comment ends there, and literals are closed before
(`scan_append`). So the lexemes of the second text stand behind those of the first, so many lines
further down (`Lexemes.later`), and the tokens or the complaint follow.
-/

set_option autoImplicit false

namespace Chore

/-- The same complaint, so many lines further down. -/
def ParseError.later (n : Nat) : ParseError → ParseError
  | unknownWord word line => unknownWord word (line + n)
  | unterminatedText line => unterminatedText (line + n)
  | unterminatedPath line => unterminatedPath (line + n)
  | unknownEscape c line => unknownEscape c (line + n)
  | invalidName name line => invalidName name (line + n)
  | unknownKind name procedure => unknownKind name procedure
  | unterminatedHeader line => unterminatedHeader (line + n)
  | missingIn procedure line => missingIn procedure (line + n)

/-- The same mode, in a text that starts so many lines further down. -/
def Mode.later (n : Nat) : Mode → Mode
  | gap => gap
  | comment => comment
  | word line read => word (line + n) read
  | text line read => text (line + n) read
  | escape line read => escape (line + n) read
  | path line read => path (line + n) read

namespace Lexemes

/-- The same lexemes, so many lines further down. -/
def later (n : Nat) : Lexemes → Lexemes
  | done => done
  | fault e => fault (e.later n)
  | cons l line rest => cons l (line + n) (rest.later n)

/-- Lexemes behind those of a text that was cut without a fault. -/
def append : Lexemes → Lexemes → Lexemes
  | done, behind => behind
  | fault e, _ => fault e
  | cons l line rest, behind => cons l line (rest.append behind)

theorem lineAfter_add (line n : Nat) (c : Char) :
    lineAfter (line + n) c = lineAfter line c + n := by
  unfold lineAfter
  split <;> omega

/-- **The cut does the same on every line.** -/
theorem scan_later (n : Nat) (mode : Mode) (line : Nat) (cs : List Char) :
    scan (mode.later n) (line + n) cs = (scan mode line cs).later n := by
  fun_induction scan mode line cs with
  | case11 line cs ih =>
    rw [Nat.add_right_comm] at ih
    exact ih
  | _ => simp_all [scan, later, Mode.later, lineAfter_add, ParseError.later]

/-- **A newline ends what is being read.** -/
theorem scan_append {mode : Mode} {line : Nat} {cs : List Char} {ls : List Lexeme}
    (whole : Lists (scan mode line cs) ls) (ds : List Char) :
    scan mode line (cs ++ '\n' :: ds) =
      (scan mode line cs).append (scan .gap (lineBehind line cs + 1) ds) := by
  fun_induction scan mode line cs generalizing ls with
  | case1 line => exact scan_blank Text.isBlank_newline
  | case2 line => rfl
  | case3 start read line => exact scan_endsWord Text.isBlank_newline
  | case4 | case5 | case6 | case20 => cases whole
  | case7 line c cs blank ih => rw [List.cons_append, scan_blank blank, ih whole, lineBehind_cons]
  | case8 line cs solid ih =>
    rw [List.cons_append, scan_opensText, ih whole,
      lineBehind_cons_of_ne (ne_newline_of_not_blank solid)]
  | case9 line cs solid text ih =>
    rw [List.cons_append, scan_opensPath, ih whole,
      lineBehind_cons_of_ne (ne_newline_of_not_blank solid)]
  | case10 line c cs solid text path ih =>
    rw [List.cons_append, scan_opensWord solid text path, ih whole,
      lineBehind_cons_of_ne (ne_newline_of_not_blank solid)]
  | case11 line cs ih =>
    rw [List.cons_append, scan_endsComment, ih whole, lineBehind_cons, lineAfter_newline]
  | case12 line c cs other ih =>
    rw [List.cons_append, scan_inComment other, ih whole, lineBehind_cons_of_ne other]
  | case13 start read line c cs blank ih =>
    cases whole with
    | cons behind =>
      rw [List.cons_append, scan_endsWord blank, ih behind, lineBehind_cons]
      rfl
  | case14 start read line c cs solid slashes ih =>
    obtain ⟨rfl, rfl⟩ := slashes
    rw [List.cons_append, scan_opensComment, ih whole, lineBehind_cons_of_ne (by decide)]
  | case15 start read line c cs solid goesOn ih =>
    rw [List.cons_append, scan_inWord solid goesOn, ih whole,
      lineBehind_cons_of_ne (ne_newline_of_not_blank solid)]
  | case16 start read line cs ih =>
    cases whole with
    | cons behind =>
      rw [List.cons_append, scan_endsText, ih behind, lineBehind_cons_of_ne (by decide)]
      rfl
  | case17 start read line cs quote ih =>
    rw [List.cons_append, scan_opensEscape, ih whole, lineBehind_cons_of_ne (by decide)]
  | case18 start read line c cs quote backslash ih =>
    rw [List.cons_append, scan_inText quote backslash, ih whole, lineBehind_cons]
  | case19 start read line c cs d known ih =>
    rw [List.cons_append, scan_escaped known, ih whole,
      lineBehind_cons_of_ne (ne_newline_of_escaped? known)]
  | case21 start read line cs ih =>
    cases whole with
    | cons behind =>
      rw [List.cons_append, scan_endsPath, ih behind, lineBehind_cons_of_ne (by decide)]
      rfl
  | case22 start read line c cs other ih =>
    rw [List.cons_append, scan_inPath other, ih whole, lineBehind_cons]

end Lexemes

namespace Token

open Lexemes

/-- A header that starts so many lines further down. -/
def Reading.later (n : Nat) : Reading → Reading
  | body => body
  | headerName line => headerName (line + n)
  | headerKinds line procedure inputs outputs => headerKinds (line + n) procedure inputs outputs

theorem ofWord_later (n : Nat) (w : String) (line : Nat) :
    ofWord w (line + n) = (ofWord w line).mapError (·.later n) := by
  unfold ofWord
  split
  · rfl
  · split
    · rfl
    · split <;> rfl

theorem stop_later (n : Nat) (reading : Reading) :
    (reading.later n).stop = reading.stop.mapError (·.later n) := by
  cases reading <;> rfl

theorem step_later (n : Nat) (reading : Reading) (l : Lexeme) (line : Nat) :
    (reading.later n).step l (line + n) =
      match reading.step l line with
      | .ok (next, ts) => .ok (next.later n, ts)
      | .error e => .error (e.later n) := by
  cases reading with
  | body =>
    cases l with
    | text s | path p => rfl
    | word w =>
      simp only [Reading.later, Reading.step, ofWord_later]
      split
      · rfl
      · cases ofWord w line <;> rfl
  | headerName start =>
    cases l with
    | text s | path p => rfl
    | word w =>
      simp only [Reading.later, Reading.step]
      split <;> rfl
  | headerKinds start procedure inputs outputs =>
    cases l with
    | text s | path p => rfl
    | word w =>
      simp only [Reading.later, Reading.step, Reading.kindStep]
      cases outputs with
      | none =>
        by_cases last : w = "do"
        · simp only [if_pos last, ParseError.later]
        by_cases between : w = "in"
        · simp only [if_neg last, if_pos between]
        cases Kind.ofName? w <;> simp only [if_neg last, if_neg between, ParseError.later]
      | some outs =>
        by_cases last : w = "do"
        · simp only [if_pos last]
        cases Kind.ofName? w <;> simp only [if_neg last, ParseError.later]

theorem inFront_mapError (f : ParseError → ParseError) (ts : List Token)
    (read : Except ParseError (List Token)) :
    (inFront ts read).mapError f = inFront ts (read.mapError f) := by
  cases read <;> rfl

/-- **The reader does the same on every line.** -/
theorem ofLexemes_later (n : Nat) (reading : Reading) (found : Lexemes) :
    ofLexemes (reading.later n) (found.later n) =
      (ofLexemes reading found).mapError (·.later n) := by
  induction found generalizing reading with
  | done => rw [later, ofLexemes_done, ofLexemes_done, stop_later]
  | fault e =>
    rw [later, ofLexemes_fault, ofLexemes_fault]
    rfl
  | cons l line rest ih =>
    rw [later, ofLexemes_cons, ofLexemes_cons, step_later]
    cases reading.step l line with
    | error e => rfl
    | ok out => simp only [ih, inFront_mapError]

/-- What is read without complaint was cut without a fault. -/
theorem lists_of_ofLexemes {reading : Reading} {found : Lexemes} {ts : List Token}
    (read : ofLexemes reading found = .ok ts) : ∃ ls, Lists found ls := by
  induction found generalizing reading ts with
  | done => exact ⟨[], .done⟩
  | fault e =>
    rw [ofLexemes_fault] at read
    cases read
  | cons l line rest ih =>
    rw [ofLexemes_cons] at read
    cases step : reading.step l line with
    | error e => rw [step] at read; cases read
    | ok out =>
      rw [step] at read
      obtain ⟨_, others, -⟩ := inFront_ok read
      obtain ⟨ls, lists⟩ := ih others
      exact ⟨l :: ls, .cons lists⟩

/-- **What stands behind is read behind.** -/
theorem ofLexemes_append {reading : Reading} {found : Lexemes} {ts : List Token}
    (read : ofLexemes reading found = .ok ts) (behind : Lexemes) :
    ofLexemes reading (found.append behind) = inFront ts (ofLexemes .body behind) := by
  induction found generalizing reading ts with
  | done =>
    rw [ofLexemes_done] at read
    cases reading with
    | body =>
      cases read
      rw [inFront_nil]
      rfl
    | headerName line | headerKinds line _ _ _ => cases read
  | fault e =>
    rw [ofLexemes_fault] at read
    cases read
  | cons l line rest ih =>
    rw [ofLexemes_cons] at read
    rw [Lexemes.append, ofLexemes_cons]
    cases step : reading.step l line with
    | error e => rw [step] at read; cases read
    | ok out =>
      rw [step] at read
      obtain ⟨us, others, rfl⟩ := inFront_ok read
      simp only [ih others, inFront_append]

/-- A text behind another one and a newline: the tokens of the first come first, and what is wrong
with the second is wrong so many lines further down. -/
theorem ofSource_append {front behind : String} {ts : List Token}
    (read : Token.ofSource front = .ok ts) :
    Token.ofSource (front ++ "\n" ++ behind) =
      inFront ts ((Token.ofSource behind).mapError (·.later (1 + front.toList.count '\n'))) := by
  obtain ⟨ls, whole⟩ := lists_of_ofLexemes read
  have chars : (front ++ "\n" ++ behind).toList = front.toList ++ '\n' :: behind.toList := by
    simp
  have line : lineBehind 1 front.toList + 1 = 1 + (1 + front.toList.count '\n') := by
    unfold lineBehind
    omega
  calc Token.ofSource (front ++ "\n" ++ behind)
    _ = ofLexemes .body ((Lexemes.ofSource front).append
          (scan .gap (1 + (1 + front.toList.count '\n')) behind.toList)) := by
        rw [Token.ofSource, Lexemes.ofSource, chars, scan_append whole, line]
        rfl
    _ = inFront ts (ofLexemes .body
          (scan .gap (1 + (1 + front.toList.count '\n')) behind.toList)) :=
        ofLexemes_append read _
    _ = inFront ts (ofLexemes .body
          ((Lexemes.ofSource behind).later (1 + front.toList.count '\n'))) := by
        rw [Lexemes.ofSource, ← scan_later]
        rfl
    _ = _ := congrArg (inFront ts) (ofLexemes_later _ .body _)

/-- **Reading goes on behind a newline.** If a text can be read, what stands behind it and a newline
is read as if it stood alone: its tokens come behind those of the first text, or its complaint is
the answer, with a line that is larger by the number of lines in front. -/
theorem reading_goes_on (front behind : String) (ts : List Token)
    (read : Token.ofSource front = .ok ts) :
    (∀ us, Token.ofSource behind = .ok us →
      Token.ofSource (front ++ "\n" ++ behind) = .ok (ts ++ us)) ∧
    ∀ e, Token.ofSource behind = .error e →
      Token.ofSource (front ++ "\n" ++ behind) =
        .error (e.later (1 + front.toList.count '\n')) := by
  rw [ofSource_append read]
  constructor
  · intro us others
    rw [others]
    rfl
  · intro e complains
    rw [complains]
    rfl

/-- Two lines, the second with an open comment: a word behind them is read, and a text that is not
closed on the second line behind them is reported on the fourth. -/
theorem reading_goes_on_comment :
    let front := "1 // a\n2 // b"
    let ts : List Token := [.literal (.int 1), .literal (.int 2)]
    Token.ofSource front = .ok ts ∧
      (Token.ofSource "f" = .ok [.name "f"] ∧
        Token.ofSource (front ++ "\n" ++ "f") = .ok (ts ++ [.name "f"])) ∧
      Token.ofSource "\n\"x" = .error (.unterminatedText 2) ∧
        Token.ofSource (front ++ "\n" ++ "\n\"x") = .error (.unterminatedText 4) := by
  intro front ts
  have read : Token.ofSource front = .ok ts := ok_of_toOption (by decide +kernel)
  have word : Token.ofSource "f" = .ok [.name "f"] := ok_of_toOption (by decide +kernel)
  have complains : Token.ofSource "\n\"x" = .error (.unterminatedText 2) :=
    error_of_failure? (by decide +kernel)
  have more := (reading_goes_on front "f" ts read).1 _ word
  have fails := (reading_goes_on front "\n\"x" ts read).2 _ complains
  have lines : 2 + (1 + front.toList.count '\n') = 4 := by decide
  rw [ParseError.later, lines] at fails
  exact ⟨read, ⟨word, more⟩, complains, fails⟩

end Token

end Chore
