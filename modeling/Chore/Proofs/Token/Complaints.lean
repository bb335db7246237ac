import Chore.Attempt
import Chore.Proofs.Token.Places
import Chore.Proofs.Token.Words

/-!
# The lines of complaints

Which line a complaint about a source text names. `Blames e front rest` says of the text
`front ++ rest` that what the complaint is about starts where `rest` does: a word that is no token, a
literal that is not closed, the backslash of an unknown escape, the word `proc` of a faulty header.
The line named is the line of that place, with one exception: the line of an unknown escape is taken
behind its second character, so an escaped newline counts as well. The text is read from the left, and
`Reached` and `Situated` say where the reader is; `Stage.step` says what a lexeme does in a header.
-/

set_option autoImplicit false

namespace Chore

/-- The line a complaint names, if it names one. -/
def ParseError.line? : ParseError → Option Nat
  | unknownWord _ line => some line
  | unterminatedText line => some line
  | unterminatedPath line => some line
  | unknownEscape _ line => some line
  | invalidName _ line => some line
  | unknownKind _ _ => none
  | unterminatedHeader line => some line
  | missingIn _ line => some line

/-- How many lines behind its place a complaint is reported. -/
def ParseError.lag : ParseError → Nat
  | unknownEscape c _ => if c = '\n' then 1 else 0
  | _ => 0

namespace Token

open Lexemes

/-! ## Faulty headers -/

/-- Words for kinds. -/
def AreKinds (ls : List Lexeme) : Prop :=
  ∀ l ∈ ls, ∃ w k, l = .word w ∧ Kind.ofName? w = some k

/-- What may stand behind `proc` in a header that goes on. -/
inductive Begun : List Lexeme → Prop where
  | nothing : Begun []
  | inputs {procedure : String} {ins : List Lexeme} (named : isProcedureName procedure = true)
      (kinds : AreKinds ins) : Begun (.word procedure :: ins)
  | outputs {procedure : String} {ins outs : List Lexeme} (named : isProcedureName procedure = true)
      (kinds : AreKinds ins) (kinds' : AreKinds outs) :
      Begun (.word procedure :: (ins ++ .word "in" :: outs))

/-- Lexemes behind `proc` that are no part of a header, in front of the rest of the text, and the
complaint about them. -/
inductive FaultyHeader (rest : List Char) : ParseError → List Lexeme → Prop where
  | name {l : Lexeme} {line : Nat} (unfit : ∀ w, l = .word w → isProcedureName w = false) :
      FaultyHeader rest (.invalidName l.content line) [l]
  | missingIn {procedure : String} {ins : List Lexeme} {line : Nat}
      (named : isProcedureName procedure = true) (kinds : AreKinds ins) :
      FaultyHeader rest (.missingIn procedure line) (.word procedure :: (ins ++ [.word "do"]))
  | literal {hs : List Lexeme} {l : Lexeme} {line : Nat} (begun : Begun hs) (named : hs ≠ [])
      (literal : ∀ w, l ≠ .word w) : FaultyHeader rest (.unterminatedHeader line) (hs ++ [l])
  | ended {hs : List Lexeme} {line : Nat} (begun : Begun hs) (layout : Shows [] rest) :
      FaultyHeader rest (.unterminatedHeader line) hs

/-! ## Places of complaints -/

/-- The text is read as tokens up to here, and no lexeme reaches over this place. -/
def ReadTo (front rest : List Char) : Prop :=
  (∃ ms, Holds 1 front rest ms) ∧ ∃ ts, Token.ofSource (String.ofList front) = .ok ts

/-- In the text `front ++ rest`, what the complaint is about starts where `rest` does. -/
inductive Blames : ParseError → List Char → List Char → Prop where
  | word {front rest : List Char} {w : String} {line : Nat}
      (read : ReadTo front (w.toList ++ rest)) (stands : (Lexeme.word w).Stands w.toList rest)
      (unknown : ofWord w line = .error (.unknownWord w line)) :
      Blames (.unknownWord w line) front (w.toList ++ rest)
  | text {front inside : List Char} {ms : List (Lexeme × Nat)} {line : Nat}
      (cut : Holds 1 front ('\x22' :: inside) ms) (opened : Unclosed inside) :
      Blames (.unterminatedText line) front ('\x22' :: inside)
  | path {front inside : List Char} {ms : List (Lexeme × Nat)} {line : Nat}
      (cut : Holds 1 front ('\x27' :: inside) ms) (opened : '\x27' ∉ inside) :
      Blames (.unterminatedPath line) front ('\x27' :: inside)
  | escape {front s quoted rest : List Char} {ms : List (Lexeme × Nat)} {c : Char} {line : Nat}
      (cut : Holds 1 front ('\x22' :: (quoted ++ '\x5c' :: c :: rest)) ms)
      (inside : Quoted s quoted) (unknown : escaped? c = none) :
      Blames (.unknownEscape c line) (front ++ '\x22' :: quoted) ('\x5c' :: c :: rest)
  | header {front header rest : List Char} {ms : List (Lexeme × Nat)} {e : ParseError} {line : Nat}
      (read : ReadTo front ("proc".toList ++ (header ++ rest)))
      (stands : (Lexeme.word "proc").Stands "proc".toList (header ++ rest))
      (cut : Holds line header rest ms) (faulty : FaultyHeader rest e (ms.map (·.1))) :
      Blames e front ("proc".toList ++ (header ++ rest))

/-- A complaint names the line of its place, up to its lag. -/
def Points (e : ParseError) (cs : List Char) : Prop :=
  ∀ line, e.line? = some line →
    ∃ front rest, cs = front ++ rest ∧ Blames e front rest ∧ line = lineBehind 1 front + e.lag

/-! ## How far the reader has come -/

/-- Behind some characters the reader is in a reading, whatever comes next. -/
def Reached (reading : Reading) (front rest : List Char) : Prop :=
  ∃ ms ts, Holds 1 front rest ms ∧
    ∀ found, ofLexemes .body (consAll ms found) = inFront ts (ofLexemes reading found)

theorem reached_start (cs : List Char) : Reached .body [] cs :=
  ⟨[], [], .nil, fun _ => (inFront_nil _).symm⟩

theorem Reached.layout {reading : Reading} {front gap rest : List Char}
    (h : Reached reading front (gap ++ rest)) (layout : Holds (lineBehind 1 front) gap rest []) :
    Reached reading (front ++ gap) rest := by
  obtain ⟨ms, ts, holds, reads⟩ := h
  have whole := holds.append layout
  rw [List.append_nil] at whole
  exact ⟨ms, ts, whole, reads⟩

theorem Reached.lexeme {reading next : Reading} {front shown rest : List Char} {l : Lexeme}
    {us : List Token} (h : Reached reading front (shown ++ rest)) (here : l.Stands shown rest)
    (step : reading.step l (lineBehind 1 front) = .ok (next, us)) :
    Reached next (front ++ shown) rest := by
  obtain ⟨ms, ts, holds, reads⟩ := h
  refine ⟨ms ++ [(l, lineBehind 1 front)], ts ++ us, holds.append (.single .nil here), ?_⟩
  intro found
  have reads_l : ofLexemes reading (.cons l (lineBehind 1 front) found) =
      inFront us (ofLexemes next found) := by
    rw [ofLexemes_cons, step]
  rw [consAll_append, reads, ← inFront_append]
  exact congrArg (inFront ts) reads_l

theorem Reached.readTo {front rest : List Char} (h : Reached .body front rest) :
    ReadTo front rest := by
  obtain ⟨ms, ts, holds, reads⟩ := h
  refine ⟨⟨ms, holds⟩, ts, ?_⟩
  have cut := scan_holds holds.alone
  rw [List.append_nil] at cut
  rw [Token.ofSource, Lexemes.ofSource, String.toList_ofList, cut]
  refine (reads .done).trans ?_
  exact congrArg Except.ok (List.append_nil ts)

/-- The reader is in a header that starts on a line, behind some lexemes of it. -/
def InHeader (start : Nat) (hs : List Lexeme) (front rest : List Char) : Prop :=
  ∃ before header ms, front = before ++ ("proc".toList ++ header) ∧ start = lineBehind 1 before ∧
    ReadTo before ("proc".toList ++ (header ++ rest)) ∧
    (Lexeme.word "proc").Stands "proc".toList (header ++ rest) ∧
    Holds start header rest ms ∧ ms.map (·.1) = hs

theorem lineBehind_proc (line : Nat) (cs : List Char) :
    lineBehind line ("proc".toList ++ cs) = lineBehind line cs := by
  have none : '\n' ∉ "proc".toList := by decide
  rw [lineBehind_append, lineBehind_of_not_mem none]

theorem InHeader.behind {start : Nat} {hs : List Lexeme} {front next rest : List Char}
    {ns : List (Lexeme × Nat)} (h : InHeader start hs front (next ++ rest))
    (more : Holds (lineBehind 1 front) next rest ns) :
    InHeader start (hs ++ ns.map (·.1)) (front ++ next) rest := by
  obtain ⟨before, header, ms, rfl, rfl, read, stands, holds, rfl⟩ := h
  rw [lineBehind_append, lineBehind_proc] at more
  refine ⟨before, header ++ next, ms ++ ns, by simp, rfl, ?_, ?_, holds.append more, by simp⟩
  · rwa [List.append_assoc]
  · rwa [List.append_assoc]

theorem InHeader.points {start : Nat} {hs : List Lexeme} {front rest : List Char} {e : ParseError}
    (h : InHeader start hs front rest) (faulty : FaultyHeader rest e hs)
    (named : e.line? = some start) (noLag : e.lag = 0) : Points e (front ++ rest) := by
  obtain ⟨before, header, ms, rfl, rfl, read, stands, holds, rfl⟩ := h
  intro line names
  obtain rfl := Option.some.inj (named.symm.trans names)
  refine ⟨before, _, by simp, .header read stands holds faulty, ?_⟩
  rw [noLag, Nat.add_zero]

/-! ## Inside a header -/

/-- The reading behind some lexemes of a header that starts on a line. -/
inductive Stage (start : Nat) : Reading → List Lexeme → Prop where
  | name : Stage start (.headerName start) []
  | inputs {procedure : String} {ks : List Kind} {ins : List Lexeme}
      (named : isProcedureName procedure = true) (kinds : AreKinds ins) :
      Stage start (.headerKinds start procedure ks none) (.word procedure :: ins)
  | outputs {procedure : String} {ks os : List Kind} {ins outs : List Lexeme}
      (named : isProcedureName procedure = true) (kinds : AreKinds ins) (kinds' : AreKinds outs) :
      Stage start (.headerKinds start procedure ks (some os))
        (.word procedure :: (ins ++ .word "in" :: outs))

theorem Stage.begun {start : Nat} {reading : Reading} {hs : List Lexeme}
    (h : Stage start reading hs) : Begun hs := by
  cases h with
  | name => exact .nothing
  | inputs named kinds => exact .inputs named kinds
  | outputs named kinds kinds' => exact .outputs named kinds kinds'

theorem Stage.stop {start : Nat} {reading : Reading} {hs : List Lexeme}
    (h : Stage start reading hs) : reading.stop = .error (.unterminatedHeader start) := by
  cases h <;> rfl

theorem AreKinds.snoc {ls : List Lexeme} {w : String} {k : Kind} (kinds : AreKinds ls)
    (named : Kind.ofName? w = some k) : AreKinds (ls ++ [.word w]) :=
  List.forall_mem_append.2 ⟨kinds, List.forall_mem_singleton.2 ⟨w, k, rfl, named⟩⟩

/-- What a lexeme can do behind those of a header. -/
inductive StageStep (start : Nat) (hs : List Lexeme) (l : Lexeme) :
    Except ParseError (Reading × List Token) → Prop where
  | goesOn {next : Reading} (stage : Stage start next (hs ++ [l])) :
      StageStep start hs l (.ok (next, []))
  | ends {ts : List Token} : StageStep start hs l (.ok (.body, ts))
  | faulty {e : ParseError} (faulty : ∀ rest, FaultyHeader rest e (hs ++ [l]))
      (named : e.line? = some start) (noLag : e.lag = 0) : StageStep start hs l (.error e)
  | unnamed {e : ParseError} (unnamed : e.line? = none) : StageStep start hs l (.error e)

theorem stageStep_literal {start line : Nat} {reading : Reading} {hs : List Lexeme} {l : Lexeme}
    (h : Stage start reading hs) (literal : ∀ w, l ≠ .word w) :
    StageStep start hs l (reading.step l line) := by
  have begun := h.begun
  cases l with
  | word w => exact absurd rfl (literal w)
  | text s | path p =>
    cases h with
    | name => exact .faulty (fun _ => .name fun w eq => absurd eq (literal w)) rfl rfl
    | inputs | outputs =>
      exact .faulty (fun _ => .literal begun (List.cons_ne_nil _ _) literal) rfl rfl

theorem stageStep_name {start line : Nat} (w : String) :
    StageStep start [] (.word w) (Reading.step (.headerName start) (.word w) line) := by
  rw [Reading.step]
  split
  next named => exact .goesOn (.inputs named (List.forall_mem_nil _))
  next unfit =>
    refine .faulty (fun _ => .name (l := .word w) ?_) rfl rfl
    rintro _ ⟨⟩
    exact Bool.eq_false_iff.2 unfit

theorem stageStep_inputs {start line : Nat} {procedure : String} {ks : List Kind}
    {ins : List Lexeme} (named : isProcedureName procedure = true) (kinds : AreKinds ins)
    (w : String) :
    StageStep start (.word procedure :: ins) (.word w)
      (Reading.step (.headerKinds start procedure ks none) (.word w) line) := by
  rw [Reading.step, Reading.kindStep]
  by_cases last : w = "do"
  · subst last
    exact .faulty (fun _ => .missingIn named kinds) rfl rfl
  by_cases between : w = "in"
  · subst between
    simp only [if_neg last, if_true]
    exact .goesOn (.outputs named kinds (List.forall_mem_nil _))
  simp only [if_neg last, if_neg between]
  cases known : Kind.ofName? w with
  | none => exact .unnamed rfl
  | some k => exact .goesOn (.inputs named (kinds.snoc known))

theorem stageStep_outputs {start line : Nat} {procedure : String} {ks os : List Kind}
    {ins outs : List Lexeme} (named : isProcedureName procedure = true) (kinds : AreKinds ins)
    (kinds' : AreKinds outs) (w : String) :
    StageStep start (.word procedure :: (ins ++ .word "in" :: outs)) (.word w)
      (Reading.step (.headerKinds start procedure ks (some os)) (.word w) line) := by
  rw [Reading.step, Reading.kindStep]
  by_cases last : w = "do"
  · simp only [if_pos last]
    exact .ends
  simp only [if_neg last]
  cases known : Kind.ofName? w with
  | none => exact .unnamed rfl
  | some k =>
    have stage : Stage start (.headerKinds start procedure ks (some (k :: os)))
        (.word procedure :: (ins ++ .word "in" :: (outs ++ [.word w]))) :=
      .outputs named kinds (kinds'.snoc known)
    exact .goesOn (by simpa using stage)

/-- **What one lexeme does inside a header.** -/
theorem Stage.step {start : Nat} {reading : Reading} {hs : List Lexeme}
    (h : Stage start reading hs) (l : Lexeme) (line : Nat) :
    StageStep start hs l (reading.step l line) := by
  cases l with
  | text s | path p => exact stageStep_literal h nofun
  | word w =>
    cases h with
    | name => exact stageStep_name w
    | inputs named kinds => exact stageStep_inputs named kinds w
    | outputs named kinds kinds' => exact stageStep_outputs named kinds kinds' w

/-- Where the reader is behind some characters: between tokens, or in a header that stands there. -/
def Situated (reading : Reading) (front rest : List Char) : Prop :=
  reading = .body ∨ ∃ start hs, Stage start reading hs ∧ InHeader start hs front rest

theorem Situated.layout {reading : Reading} {front gap rest : List Char}
    (h : Situated reading front (gap ++ rest)) (layout : Holds (lineBehind 1 front) gap rest []) :
    Situated reading (front ++ gap) rest := by
  rcases h with rfl | ⟨start, hs, stage, inside⟩
  · exact .inl rfl
  · have inside := inside.behind layout
    rw [List.map_nil, List.append_nil] at inside
    exact .inr ⟨start, hs, stage, inside⟩

/-! ## Complaints point at their places -/

theorem ofWord_error {w : String} {line : Nat} {e : ParseError} (h : ofWord w line = .error e) :
    e = .unknownWord w line := by
  rcases ofWord_cases w line with
    ⟨word, -, is⟩ | ⟨-, ⟨n, -, is⟩ | ⟨-, ⟨-, is⟩ | ⟨-, is⟩⟩⟩ <;> rw [is] at h <;> cases h
  rfl

theorem points_body {front rest shown : List Char} {l : Lexeme} {e : ParseError}
    (reached : Reached .body front (shown ++ rest)) (here : l.Stands shown rest)
    (step : Reading.step .body l (lineBehind 1 front) = .error e) :
    Points e (front ++ (shown ++ rest)) := by
  cases l with
  | text s | path p => cases step
  | word w =>
    rw [Reading.step] at step
    split at step
    next => cases step
    next =>
      cases read : ofWord w (lineBehind 1 front) with
      | ok t => rw [read] at step; cases step
      | error e' =>
        rw [read] at step
        cases step
        obtain rfl := ofWord_error read
        cases here with
        | word unbroken apart =>
          intro line names
          cases names
          exact ⟨front, _, rfl, .word reached.readTo (.word unbroken apart) read, rfl⟩

/-- Between tokens a lexeme is a token, or it opens a header. -/
theorem step_body {l : Lexeme} {line : Nat} {next : Reading} {us : List Token}
    (step : Reading.step .body l line = .ok (next, us)) :
    next = .body ∨ l = .word "proc" ∧ next = .headerName line := by
  cases l with
  | text s | path p =>
    cases step
    exact .inl rfl
  | word w =>
    rw [Reading.step] at step
    split at step
    next opens =>
      cases step
      exact .inr ⟨congrArg Lexeme.word opens, rfl⟩
    next =>
      cases read : ofWord w line with
      | error e => rw [read] at step; cases step
      | ok t =>
        rw [read] at step
        cases step
        exact .inl rfl

theorem Situated.lexeme {reading next : Reading} {front shown rest : List Char} {l : Lexeme}
    {us : List Token} (situated : Situated reading front (shown ++ rest))
    (reached : Reached reading front (shown ++ rest)) (here : l.Stands shown rest)
    (step : reading.step l (lineBehind 1 front) = .ok (next, us)) :
    Situated next (front ++ shown) rest := by
  rcases situated with rfl | ⟨start, hs, stage, inside⟩
  · rcases step_body step with rfl | ⟨rfl, rfl⟩
    · exact .inl rfl
    · refine .inr ⟨_, [], .name, ?_⟩
      cases here with
      | word unbroken apart =>
        exact ⟨front, [], [], rfl, rfl, reached.readTo, .word unbroken apart, .nil, rfl⟩
  · have did := stage.step l (lineBehind 1 front)
    rw [step] at did
    cases did with
    | goesOn stage => exact .inr ⟨start, _, stage, inside.behind (.single .nil here)⟩
    | ends => exact .inl rfl

theorem points_step {reading : Reading} {front shown rest : List Char} {l : Lexeme}
    {e : ParseError} (situated : Situated reading front (shown ++ rest))
    (reached : Reached reading front (shown ++ rest)) (here : l.Stands shown rest)
    (step : reading.step l (lineBehind 1 front) = .error e) :
    Points e (front ++ (shown ++ rest)) := by
  rcases situated with rfl | ⟨start, hs, stage, inside⟩
  · exact points_body reached here step
  · have did := stage.step l (lineBehind 1 front)
    rw [step] at did
    cases did with
    | faulty faulty named noLag =>
      have inside := inside.behind (.single .nil here)
      rw [← List.append_assoc]
      exact inside.points (faulty rest) named noLag
    | unnamed unnamed =>
      intro line names
      rw [unnamed] at names
      cases names

theorem points_stop {reading : Reading} {front rest : List Char} {e : ParseError}
    (situated : Situated reading front rest) (layout : Shows [] rest)
    (stop : reading.stop = .error e) : Points e (front ++ rest) := by
  rcases situated with rfl | ⟨start, hs, stage, inside⟩
  · cases stop
  · rw [stage.stop] at stop
    cases stop
    exact inside.points (.ended stage.begun layout) rfl rfl

theorem Reached.holds {reading : Reading} {front rest : List Char}
    (h : Reached reading front rest) : ∃ ms, Holds 1 front rest ms := by
  obtain ⟨ms, -, holds, -⟩ := h
  exact ⟨ms, holds⟩

theorem lineAfter_eq_add (line : Nat) (c : Char) :
    lineAfter line c = line + if c = '\n' then 1 else 0 := by
  unfold lineAfter
  split <;> rfl

theorem points_badEscape {reading : Reading} {front s quoted rest : List Char} {c : Char}
    (reached : Reached reading front ('\x22' :: (quoted ++ '\x5c' :: c :: rest)))
    (inside : Quoted s quoted) (unknown : escaped? c = none) :
    Points (.unknownEscape c (lineAfter (lineBehind (lineBehind 1 front) quoted) c))
      (front ++ '\x22' :: (quoted ++ '\x5c' :: c :: rest)) := by
  obtain ⟨ms, cut⟩ := reached.holds
  intro line names
  cases names
  refine ⟨_, _, by simp, .escape cut inside unknown, ?_⟩
  rw [lineBehind_append, lineBehind_cons_of_ne (by decide)]
  exact lineAfter_eq_add _ c

/-- **Every complaint points at its place**, wherever the reader is. The induction is on the
characters that are left; layout goes to the characters that are read. -/
theorem points_of_fails {reading : Reading} {e : ParseError} (front cs : List Char)
    (reached : Reached reading front cs) (situated : Situated reading front cs)
    (fails : ofLexemes reading (scan .gap (lineBehind 1 front) cs) = .error e) :
    Points e (front ++ cs) := by
  obtain ⟨gap, rest, rfl, layout, comes⟩ := exists_layout (lineBehind 1 front) cs
  rw [scan_holds layout, ← lineBehind_append, consAll] at fails
  have reached := reached.layout layout
  have situated := situated.layout layout
  rw [← List.append_assoc]
  cases comes with
  | nothing ends =>
    have found : Lists (scan .gap (lineBehind 1 (front ++ gap)) rest) [] :=
      lists_scan ends (List.forall_mem_nil _) _
    generalize scan .gap (lineBehind 1 (front ++ gap)) rest = scanned at found fails
    cases found
    rw [List.foldr_nil, ofLexemes_done] at fails
    exact points_stop situated ends fails
  | openText opened =>
    obtain ⟨ms, cut⟩ := reached.holds
    rw [List.foldr_nil, scan_unclosed opened, ofLexemes_fault] at fails
    cases fails
    intro line names
    cases names
    exact ⟨_, _, rfl, .text cut opened, rfl⟩
  | openPath opened =>
    obtain ⟨ms, cut⟩ := reached.holds
    rw [List.foldr_nil, scan_openPath opened, ofLexemes_fault] at fails
    cases fails
    intro line names
    cases names
    exact ⟨_, _, rfl, .path cut opened, rfl⟩
  | badEscape inside unknown =>
    rw [List.foldr_nil, scan_badEscape inside unknown, ofLexemes_fault] at fails
    cases fails
    exact points_badEscape reached inside unknown
  | @lexeme l shown behind here =>
    rw [List.foldr_nil, scan_stands here, ofLexemes_cons] at fails
    cases did : reading.step l (lineBehind 1 (front ++ gap)) with
    | error e' =>
      rw [did] at fails
      cases fails
      exact points_step situated reached here did
    | ok went =>
      obtain ⟨next, us⟩ := went
      rw [did, ← lineBehind_append] at fails
      have shorter : behind.length < (gap ++ (shown ++ behind)).length := by
        have := List.length_pos_iff.2 here.ne_nil
        simp only [List.length_append]
        omega
      have points := points_of_fails (front ++ gap ++ shown) behind (reached.lexeme here did)
        (situated.lexeme reached here did) (inFront_error fails)
      rwa [List.append_assoc] at points
termination_by cs.length

/-- **The line of a complaint.** A complaint names the line of the place it is about, counted from
one, but for the escaped newline that is no escape: there it names the line behind. -/
theorem complaint_names_line (source : String) (e : ParseError) (line : Nat)
    (fails : Token.ofSource source = .error e) (names : e.line? = some line) :
    ∃ front rest, source.toList = front ++ rest ∧ Blames e front rest ∧
      line = 1 + front.count '\n' + e.lag :=
  points_of_fails [] source.toList (reached_start _) (.inl rfl) fails line names

/-- A header behind a comment, a path and a text that run over three lines, with a comment of its
own. -/
theorem complaint_names_line_header :
    ∃ front rest,
      "// a\n'b\nc' \"\n\" proc // do\nf int do".toList = front ++ rest ∧
      Blames (.missingIn "f" 4) front rest ∧ 4 = 1 + front.count '\n' + 0 :=
  complaint_names_line "// a\n'b\nc' \"\n\" proc // do\nf int do" (.missingIn "f" 4) 4
    (error_of_failure? (by decide +kernel)) rfl

/-- An escaped newline is counted, though it is behind the backslash. -/
theorem escaped_newline_is_counted :
    ¬∀ (source : String) (e : ParseError) (line : Nat), Token.ofSource source = .error e →
      e.line? = some line → ∃ front rest, source.toList = front ++ rest ∧ Blames e front rest ∧
        line = 1 + front.count '\n' := by
  intro always
  obtain ⟨front, rest, whole, blames, named⟩ :=
    always "\"\x5c\n\"" (.unknownEscape '\n' 2) 2 (error_of_failure? (by decide +kernel)) rfl
  cases blames with
  | escape =>
    have counts := congrArg (List.count '\n') whole
    have one : "\"\x5c\n\"".toList.count '\n' = 1 := by decide
    rw [one, List.count_append, List.count_cons_of_ne (by decide), List.count_cons_self] at counts
    omega
  | header _ _ _ faulty => cases faulty

end Token

end Chore
