import Chore.Proofs.Token.Words

/-!
# Reading undoes writing

How tokens are written down. `Written t ls` says that the lexemes `ls` are those of the token `t`:
a number in decimal, a built-in word by its spelling, a header with its kinds around `in`. Together
with `Shows` this makes up the format of source texts, and `reading_undoes_writing` says that the
reader inverts it: tokens that are written down, in any layout, are read back; and the tokens that
are read from any text are such that they could have been written down (`IsReadable`).
-/

set_option autoImplicit false

namespace Chore

open Lexemes

/-- The words for a kind in a header. -/
def Kind.words : Kind → List String
  | int => ["int"]
  | text => ["str", "string"]
  | path => ["path"]

namespace Token

/-- The tokens a source text can hold: a path has no quote in it, a name is valid and neither a
built-in word nor `proc`, and the name of a procedure is valid and no built-in word. -/
def IsReadable : Token → Prop
  | literal (.path p) => '\x27' ∉ p.toList
  | literal _ => True
  | word _ => True
  | name s => isName s = true ∧ (∀ w : Word, w.spelling ≠ s) ∧ s ≠ "proc"
  | header sig => isName sig.name = true ∧ ∀ w : Word, w.spelling ≠ sig.name

/-- The words for some kinds. -/
inductive WrittenKinds : List Kind → List Lexeme → Prop where
  | nil : WrittenKinds [] []
  | cons {k : Kind} {w : String} {ks : List Kind} {ls : List Lexeme} (named : w ∈ k.words)
      (behind : WrittenKinds ks ls) : WrittenKinds (k :: ks) (.word w :: ls)

/-- The lexemes of a token. -/
inductive Written : Token → List Lexeme → Prop where
  | int (n : Int64) : Written (.literal (.int n)) [.word (Text.showInt n)]
  | text (s : String) : Written (.literal (.text s)) [.text s]
  | path (p : String) : Written (.literal (.path p)) [.path p]
  | word (w : Word) : Written (.word w) [.word w.spelling]
  | name (s : String) : Written (.name s) [.word s]
  | header {sig : Signature} {ins outs : List Lexeme} (inputs : WrittenKinds sig.inputs ins)
      (outputs : WrittenKinds sig.outputs outs) :
      Written (.header sig)
        (.word "proc" :: .word sig.name :: (ins ++ .word "in" :: (outs ++ [.word "do"])))

/-- The lexemes of some tokens. -/
inductive WrittenAll : List Token → List Lexeme → Prop where
  | nil : WrittenAll [] []
  | cons {t : Token} {ts : List Token} {ls rest : List Lexeme} (first : Written t ls)
      (behind : WrittenAll ts rest) : WrittenAll (t :: ts) (ls ++ rest)

/-! ## Everything can be written -/

theorem exists_writtenKinds (ks : List Kind) : ∃ ls, WrittenKinds ks ls := by
  induction ks with
  | nil => exact ⟨[], .nil⟩
  | cons k ks ih =>
    obtain ⟨ls, written⟩ := ih
    have named : k.name ∈ k.words := by cases k <;> decide
    exact ⟨_, .cons named written⟩

theorem exists_written (t : Token) : ∃ ls, Written t ls := by
  rcases t with (n | s | p) | w | sig | s
  · exact ⟨_, .int n⟩
  · exact ⟨_, .text s⟩
  · exact ⟨_, .path p⟩
  · exact ⟨_, .word w⟩
  · obtain ⟨ins, inputs⟩ := exists_writtenKinds sig.inputs
    obtain ⟨outs, outputs⟩ := exists_writtenKinds sig.outputs
    exact ⟨_, .header inputs outputs⟩
  · exact ⟨_, .name s⟩

theorem exists_writtenAll (ts : List Token) : ∃ ls, WrittenAll ts ls := by
  induction ts with
  | nil => exact ⟨[], .nil⟩
  | cons t ts ih =>
    obtain ⟨ls, first⟩ := exists_written t
    obtain ⟨rest, behind⟩ := ih
    exact ⟨ls ++ rest, .cons first behind⟩

/-! ## What is written can be cut -/

theorem of_mem_words {k : Kind} {w : String} (h : w ∈ k.words) :
    Kind.ofName? w = some k ∧ w ≠ "in" ∧ w ≠ "do" ∧ isUnbroken w.toList = true := by
  have all : ∀ k ∈ [Kind.int, .text, .path], ∀ w ∈ k.words,
      Kind.ofName? w = some k ∧ w ≠ "in" ∧ w ≠ "do" ∧ isUnbroken w.toList = true := by decide
  exact all k (by cases k <;> decide) w h

theorem WrittenKinds.writable {ks : List Kind} {ls : List Lexeme} (h : WrittenKinds ks ls) :
    ∀ l ∈ ls, l.Writable := by
  induction h with
  | nil => nofun
  | cons named _ ih =>
    refine List.forall_mem_cons.2 ⟨?_, ih⟩
    exact (of_mem_words named).2.2.2

theorem Written.writable {t : Token} {ls : List Lexeme} (h : Written t ls) (readable : t.IsReadable) :
    ∀ l ∈ ls, l.Writable := by
  cases h with
  | int n => exact List.forall_mem_singleton.2 (isUnbroken_showInt n)
  | text s => exact List.forall_mem_singleton.2 trivial
  | path p => exact List.forall_mem_singleton.2 readable
  | word w => exact List.forall_mem_singleton.2 (isUnbroken_spelling w)
  | name s => exact List.forall_mem_singleton.2 (isUnbroken_of_isName readable.1)
  | header inputs outputs =>
    have fixed : ∀ w ∈ ["proc", "in", "do"], isUnbroken w.toList = true := by decide
    refine List.forall_mem_cons.2 ⟨fixed _ (by simp), List.forall_mem_cons.2 ⟨?_, ?_⟩⟩
    · exact isUnbroken_of_isName readable.1
    · refine List.forall_mem_append.2 ⟨inputs.writable, List.forall_mem_cons.2 ⟨?_, ?_⟩⟩
      · exact fixed _ (by simp)
      · refine List.forall_mem_append.2 ⟨outputs.writable, List.forall_mem_singleton.2 ?_⟩
        exact fixed _ (by simp)

theorem WrittenAll.writable {ts : List Token} {ls : List Lexeme} (h : WrittenAll ts ls)
    (readable : ∀ t ∈ ts, t.IsReadable) : ∀ l ∈ ls, l.Writable := by
  induction h with
  | nil => nofun
  | cons first _ ih =>
    obtain ⟨here, behind⟩ := List.forall_mem_cons.1 readable
    exact List.forall_mem_append.2 ⟨first.writable here, ih behind⟩

/-! ## What is written is read back -/

/-- The inputs of a header. -/
theorem ofLexemes_inputs {ks : List Kind} {ls rest : List Lexeme} (h : WrittenKinds ks ls)
    {found : Lexemes} (lists : Lists found (ls ++ rest)) (line : Nat) (procedure : String)
    (inputs : List Kind) :
    ∃ behind, Lists behind rest ∧ ofLexemes (.headerKinds line procedure inputs none) found =
      ofLexemes (.headerKinds line procedure (ks.reverse ++ inputs) none) behind := by
  induction h generalizing found inputs with
  | nil => exact ⟨found, lists, rfl⟩
  | @cons k w ks ls named _ ih =>
    obtain ⟨kind, notIn, notDo, -⟩ := of_mem_words named
    obtain ⟨_, _, rfl, others⟩ := lists.uncons
    obtain ⟨behind, last, same⟩ := ih others (k :: inputs)
    refine ⟨behind, last, ?_⟩
    rw [ofLexemes]
    simp only [if_neg notDo, if_neg notIn, kind]
    rw [same, List.reverse_cons, List.append_assoc]
    rfl

/-- The outputs of a header. -/
theorem ofLexemes_outputs {ks : List Kind} {ls rest : List Lexeme} (h : WrittenKinds ks ls)
    {found : Lexemes} (lists : Lists found (ls ++ rest)) (line : Nat) (procedure : String)
    (inputs outputs : List Kind) :
    ∃ behind, Lists behind rest ∧
      ofLexemes (.headerKinds line procedure inputs (some outputs)) found =
        ofLexemes (.headerKinds line procedure inputs (some (ks.reverse ++ outputs))) behind := by
  induction h generalizing found outputs with
  | nil => exact ⟨found, lists, rfl⟩
  | @cons k w ks ls named _ ih =>
    obtain ⟨kind, -, notDo, -⟩ := of_mem_words named
    obtain ⟨_, _, rfl, others⟩ := lists.uncons
    obtain ⟨behind, last, same⟩ := ih others (k :: outputs)
    refine ⟨behind, last, ?_⟩
    rw [ofLexemes]
    simp only [if_neg notDo, kind]
    rw [same, List.reverse_cons, List.append_assoc]
    rfl

/-- A word that is read as a token. -/
theorem ofLexemes_word {w : String} {t : Token} {rest : List Lexeme} {found : Lexemes}
    (other : w ≠ "proc") (read : ∀ line, ofWord w line = .ok t)
    (lists : Lists found (.word w :: rest)) :
    ∃ behind, Lists behind rest ∧
      ofLexemes .body found = (do return t :: (← ofLexemes .body behind)) := by
  obtain ⟨_, behind, rfl, others⟩ := lists.uncons
  refine ⟨behind, others, ?_⟩
  rw [ofLexemes, if_neg other, read]
  rfl

/-- A header, from `proc` to its `do`. -/
theorem ofLexemes_header {sig : Signature} {ins outs rest : List Lexeme} {found : Lexemes}
    (inputs : WrittenKinds sig.inputs ins) (outputs : WrittenKinds sig.outputs outs)
    (named : isProcedureName sig.name = true)
    (lists : Lists found (.word "proc" :: .word sig.name ::
      (ins ++ .word "in" :: (outs ++ .word "do" :: rest)))) :
    ∃ behind, Lists behind rest ∧
      ofLexemes .body found = (do return .header sig :: (← ofLexemes .body behind)) := by
  obtain ⟨line, _, rfl, called⟩ := lists.uncons
  obtain ⟨_, _, rfl, kinds⟩ := called.uncons
  obtain ⟨_, between, ins⟩ := ofLexemes_inputs inputs kinds line sig.name []
  obtain ⟨_, _, rfl, kinds'⟩ := between.uncons
  obtain ⟨_, last, outs⟩ :=
    ofLexemes_outputs outputs kinds' line sig.name (sig.inputs.reverse ++ []) []
  obtain ⟨_, behind, rfl, others⟩ := last.uncons
  refine ⟨behind, others, ?_⟩
  have notDo : "in" ≠ "do" := by decide
  rw [ofLexemes, if_pos rfl, ofLexemes, if_pos named, ins, ofLexemes]
  simp only [if_neg notDo, if_true]
  rw [outs, ofLexemes]
  simp only [if_true, List.append_nil, List.reverse_reverse]

/-- **A token that is written is read back**, and then what is written behind it is read. -/
theorem Written.ofLexemes {t : Token} {ls rest : List Lexeme} {found : Lexemes} (h : Written t ls)
    (readable : t.IsReadable) (lists : Lists found (ls ++ rest)) :
    ∃ behind, Lists behind rest ∧
      ofLexemes .body found = (do return t :: (← ofLexemes .body behind)) := by
  cases h with
  | int n =>
    refine ofLexemes_word ?_ (ofWord_showInt n) lists
    exact (ne_showInt (.inl (by decide)) n).symm
  | text s | path p =>
    obtain ⟨_, behind, rfl, others⟩ := lists.uncons
    exact ⟨behind, others, rfl⟩
  | word w => exact ofLexemes_word (spelling_ne_proc w) (ofWord_spelling w) lists
  | name s => exact ofLexemes_word readable.2.2 (ofWord_name readable.1 readable.2.1) lists
  | header inputs outputs =>
    refine ofLexemes_header inputs outputs ?_ (by simpa using lists)
    rw [isProcedureName, readable.1, ofSpelling?_eq_none readable.2]
    rfl

theorem ofLexemes_written {ts : List Token} {ls : List Lexeme} {found : Lexemes}
    (h : WrittenAll ts ls) (readable : ∀ t ∈ ts, t.IsReadable) (lists : Lists found ls) :
    ofLexemes .body found = .ok ts := by
  induction h generalizing found with
  | nil =>
    cases lists
    rfl
  | cons first _ ih =>
    obtain ⟨here, others⟩ := List.forall_mem_cons.1 readable
    obtain ⟨behind, lists, same⟩ := first.ofLexemes here lists
    rw [same, ih others lists]
    rfl

/-! ## What is read can be written -/

/-- A token in front of those that are read. -/
theorem push_ok {t : Token} {read : Except ParseError (List Token)} {ts : List Token}
    (h : (do return t :: (← read)) = Except.ok ts) : ∃ rest, read = .ok rest ∧ ts = t :: rest := by
  cases read with
  | error e => cases h
  | ok rest => exact ⟨rest, rfl, (Except.ok.inj h).symm⟩

theorem isReadable_of_ofWord {w : String} {line : Nat} {t : Token} (other : w ≠ "proc")
    (h : ofWord w line = .ok t) : t.IsReadable := by
  rcases ofWord_cases w line with
    ⟨word, -, is⟩ | ⟨spelled, ⟨n, -, is⟩ | ⟨-, ⟨named, is⟩ | ⟨-, is⟩⟩⟩ <;> rw [is] at h <;> cases h
  · trivial
  · trivial
  · exact ⟨named, spelled, other⟩

theorem of_isProcedureName {s : String} (h : isProcedureName s = true) :
    isName s = true ∧ ∀ w : Word, w.spelling ≠ s := by
  rw [isProcedureName, Bool.and_eq_true, Option.isNone_iff_eq_none] at h
  exact ⟨h.1, spelling_ne_of_ofSpelling? h.2⟩

/-- A header that is being read has a name that procedures may have. -/
def Reading.Named : Reading → Prop
  | .headerKinds _ procedure _ _ => isProcedureName procedure = true
  | _ => True

/-- **What is read can be written.** -/
theorem isReadable_of_ofLexemes {reading : Reading} {found : Lexemes} {ts : List Token}
    (clean : Clean found) (named : reading.Named) (h : ofLexemes reading found = .ok ts) :
    ∀ t ∈ ts, t.IsReadable := by
  fun_induction ofLexemes reading found generalizing ts with
  | case1 =>
    cases h
    nofun
  | case5 s line rest ih =>
    obtain ⟨others, read, rfl⟩ := push_ok h
    exact List.forall_mem_cons.2 ⟨trivial, ih clean.2 trivial read⟩
  | case6 p line rest ih =>
    obtain ⟨others, read, rfl⟩ := push_ok h
    exact List.forall_mem_cons.2 ⟨clean.1 p rfl, ih clean.2 trivial read⟩
  | case8 w line rest other ih =>
    cases first : ofWord w line with
    | error e => rw [first] at h; cases h
    | ok t =>
      rw [first] at h
      obtain ⟨others, read, rfl⟩ := push_ok h
      exact List.forall_mem_cons.2 ⟨isReadable_of_ofWord other first, ih clean.2 trivial read⟩
  | case7 line rest ih => exact ih clean.2 trivial h
  | case9 line w _ rest valid ih => exact ih clean.2 valid h
  | case13 line procedure inputs _ rest _ ih => exact ih clean.2 named h
  | case14 line procedure inputs w _ rest _ _ k _ ih => exact ih clean.2 named h
  | case17 line procedure inputs w _ rest outs _ k _ ih => exact ih clean.2 named h
  | case16 line procedure inputs _ rest outs ih =>
    obtain ⟨others, read, rfl⟩ := push_ok h
    exact List.forall_mem_cons.2 ⟨of_isProcedureName named, ih clean.2 trivial read⟩
  | _ => cases h

theorem isReadable_of_ofSource {source : String} {tokens : List Token}
    (read : Token.ofSource source = .ok tokens) : ∀ t ∈ tokens, t.IsReadable := by
  have clean : Mode.Clean .gap := trivial
  have outside : Reading.Named .body := trivial
  exact isReadable_of_ofLexemes (clean_scan clean 1 source.toList) outside read

/-! ## The theorem -/

/-- **Reading undoes writing.** Readable tokens can be written down, each with its lexemes and with
any layout between them, and every text in which they are is read back as exactly these tokens.
And whatever text is read, its tokens are readable. -/
theorem reading_undoes_writing :
    (∀ tokens : List Token, (∀ t ∈ tokens, t.IsReadable) →
      (∃ (lexemes : List Lexeme) (source : String),
        WrittenAll tokens lexemes ∧ Shows lexemes source.toList) ∧
      ∀ (lexemes : List Lexeme) (source : String), WrittenAll tokens lexemes →
        Shows lexemes source.toList → Token.ofSource source = .ok tokens) ∧
    ∀ (source : String) (tokens : List Token), Token.ofSource source = .ok tokens →
      ∀ t ∈ tokens, t.IsReadable := by
  constructor
  · intro tokens readable
    constructor
    · obtain ⟨lexemes, written⟩ := exists_writtenAll tokens
      obtain ⟨cs, shows⟩ := exists_shows lexemes
      exact ⟨lexemes, String.ofList cs, written, by rwa [String.toList_ofList]⟩
    · intro lexemes source written shows
      exact ofLexemes_written written readable (lists_scan shows (written.writable readable) 1)
  · intro source tokens read
    exact isReadable_of_ofSource read

/-- Literals with no layout behind them, a comment in a gap, and a header: the text is read back. -/
theorem reading_undoes_writing_glued :
    let tokens : List Token := [.literal (.text "\""), .literal (.path "p"), .literal (.int (-1)),
      .header ⟨"f", [.text], []⟩]
    Token.ofSource "\"\\\"\"'p'-1 //x\nproc f str in do" = .ok tokens := by
  intro tokens
  have readable : ∀ t ∈ tokens, t.IsReadable := by
    have path : '\x27' ∉ "p".toList := by decide
    have spelled : Word.ofSpelling? "f" = none := by decide +kernel
    have named : isName "f" = true := by decide
    simpa [tokens, IsReadable, path, named] using spelling_ne_of_ofSpelling? spelled
  have kinds : WrittenKinds [.text] [.word "str"] := .cons (by decide) .nil
  refine (reading_undoes_writing.1 tokens readable).2 _ _
    (.cons (.text _) (.cons (.path _) (.cons (.int _) (.cons (.header kinds .nil) .nil)))) ?_
  have number : Text.showInt (-1) = "-1" := by
    have digits : Text.decimal 1 = ['1'] := by rw [Text.decimal, if_pos (by decide)]; rfl
    exact congrArg String.ofList (congrArg ('-' :: ·) digits)
  have blank : Text.isBlank ' ' = true := by decide
  have apart {cs : List Char} (c : Char) (h : (' ' :: cs).head? = some c) :
      Text.isBlank c = true := by
    obtain rfl := Option.some.inj h
    exact blank
  have last : Shows [.word "do"] ("do".toList ++ []) := .word nofun .done
  have header : Shows [.word "proc", .word "f", .word "str", .word "in", .word "do"]
      "proc f str in do".toList :=
    .word apart (.blank blank (.word apart (.blank blank (.word apart (.blank blank
      (.word apart (.blank blank last)))))))
  have behind := @Shows.word _ "-1" _ apart
    (.blank blank (@Shows.comment _ ['x'] _ (by decide) header))
  rw [number]
  exact @Shows.text _ "\"" ['\x5c', '\x22'] _ (.quote .nil) (@Shows.path _ "p" _ behind)

end Token

end Chore
