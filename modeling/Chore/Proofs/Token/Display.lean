import Chore.Attempt
import Chore.Proofs.Token.Rendering

/-!
# Displayed tokens are read back

How messages show a token is also a way to write it in a source text, as long as its texts hold
nothing that is escaped by code point: a quoted text then has only those escapes that the cut knows
(`quoted_escape`). Tokens displayed one behind the other with single blanks are thus a source text
for them, which is what `display_reads_back` says of all tokens that were read from a source.
-/

set_option autoImplicit false

namespace Chore

open Lexemes

namespace Text

/-- A character that a quoted text shows as itself, or by an escape that source texts have too. -/
def IsQuotable (c : Char) : Prop :=
  escape c = [c] ∨ c = '\x22' ∨ c = '\x5c' ∨ c = '\n' ∨ c = '\t'

theorem quoted_escape {s : List Char} (quotable : ∀ c ∈ s, IsQuotable c) :
    Quoted s (s.flatMap escape) := by
  induction s with
  | nil => exact .nil
  | cons c s ih =>
    obtain ⟨here, others⟩ := List.forall_mem_cons.1 quotable
    rw [List.flatMap_cons]
    by_cases quote : c = '\x22'
    · subst quote
      exact .quote (ih others)
    by_cases backslash : c = '\x5c'
    · subst backslash
      exact .backslash (ih others)
    rcases here with itself | rfl | rfl | rfl | rfl
    · rw [itself]
      exact .plain quote backslash (ih others)
    · exact absurd rfl quote
    · exact absurd rfl backslash
    · exact .newline (ih others)
    · exact .tab (ih others)

end Text

/-- Things that show their lexemes do so in a row, too, with single blanks between them. -/
theorem shows_joined {α : Type} {lexemes : α → List Lexeme} {shown : α → List Char} {l : List α}
    (each : ∀ a ∈ l, ∀ ls cs, IsApart cs → Shows ls cs → Shows (lexemes a ++ ls) (shown a ++ cs))
    {ls : List Lexeme} {cs : List Char} (apart : IsApart cs) (behind : Shows ls cs) :
    Shows (l.flatMap lexemes ++ ls) ([' '].intercalate (l.map shown) ++ cs) := by
  induction l with
  | nil => exact behind
  | cons a l ih =>
    obtain ⟨here, others⟩ := List.forall_mem_cons.1 each
    cases l with
    | nil =>
      rw [List.map_singleton, List.intercalate_singleton, List.flatMap_singleton]
      exact here ls cs apart behind
    | cons b l =>
      have blank : Text.isBlank ' ' = true := by decide
      have rest := here _ _ (isApart_blank _) (.blank blank (ih others))
      rw [List.map_cons, List.map_cons, List.intercalate_cons_cons, List.flatMap_cons]
      simpa using rest

namespace Token

/-- The words of a displayed header. -/
def headerWords (sig : Signature) : List String :=
  ["proc", sig.name] ++ sig.inputs.map Kind.name ++ ["in"] ++ sig.outputs.map Kind.name ++ ["do"]

/-- The lexemes of a displayed token. -/
def lexemes : Token → List Lexeme
  | literal (.int n) => [.word (Text.showInt n)]
  | literal (.text s) => [.text s]
  | literal (.path p) => [.path p]
  | word w => [.word w.spelling]
  | header sig => (headerWords sig).map .word
  | name s => [.word s]

theorem writtenKinds_names (ks : List Kind) : WrittenKinds ks ((ks.map Kind.name).map .word) := by
  induction ks with
  | nil => exact .nil
  | cons k ks ih =>
    have named : k.name ∈ k.words := by cases k <;> decide
    exact .cons named ih

theorem written_lexemes (t : Token) : Written t t.lexemes := by
  rcases t with (n | s | p) | w | sig | s
  · exact .int n
  · exact .text s
  · exact .path p
  · exact .word w
  · have written := Written.header (writtenKinds_names sig.inputs) (writtenKinds_names sig.outputs)
    simpa [lexemes, headerWords] using written
  · exact .name s

theorem writtenAll_lexemes (ts : List Token) : WrittenAll ts (ts.flatMap lexemes) := by
  induction ts with
  | nil => exact .nil
  | cons t ts ih => exact .cons (written_lexemes t) ih

/-- The texts in a token hold nothing that is escaped by code point. -/
def IsQuotable : Token → Prop
  | literal (.text s) => ∀ c ∈ s.toList, Text.IsQuotable c
  | _ => True

theorem shows_word (w : String) (ls : List Lexeme) (cs : List Char) (apart : IsApart cs)
    (behind : Shows ls cs) : Shows ([.word w] ++ ls) (w.toList ++ cs) :=
  .word apart behind

/-- **A displayed token shows its lexemes.** -/
theorem shows_display {t : Token} (quotable : t.IsQuotable) (ls : List Lexeme) (cs : List Char)
    (apart : IsApart cs) (behind : Shows ls cs) :
    Shows (t.lexemes ++ ls) (t.display.toList ++ cs) := by
  rcases t with (n | s | p) | w | sig | s
  · exact shows_word _ ls cs apart behind
  · have shown := Shows.text (Text.quoted_escape quotable) behind
    simpa [lexemes, display, Text.quote] using shown
  · have shown := Shows.path (p := p) behind
    simpa [lexemes, display] using shown
  · exact shows_word _ ls cs apart behind
  · have shown := shows_joined (l := headerWords sig) (fun w _ => shows_word w) apart behind
    rw [← List.map_eq_flatMap] at shown
    rwa [display, Signature.display, String.toList_intercalate]
  · exact shows_word _ ls cs apart behind

/-- **Displayed tokens are read back.** What was read from a source, displayed token by token with
single blanks between them, is a source of the same tokens, if no text in it holds a character that
is displayed by its code point. -/
theorem display_reads_back (source : String) (tokens : List Token)
    (read : Token.ofSource source = .ok tokens) (quotable : ∀ t ∈ tokens, t.IsQuotable) :
    Token.ofSource (" ".intercalate (tokens.map display)) = .ok tokens := by
  have readable := isReadable_of_ofSource read
  have written := writtenAll_lexemes tokens
  have shown := shows_joined (fun t ht => shows_display (quotable t ht)) isApart_nil .done
  rw [List.append_nil, List.append_nil] at shown
  have lists := lists_scan shown (written.writable readable) 1
  rw [Token.ofSource, Lexemes.ofSource, String.toList_intercalate, List.map_map]
  exact ofLexemes_written written readable lists

/-- A header over two lines, a number with a plus sign, literals with no blank between them, and a
comment: what is displayed reads the same. -/
theorem display_reads_back_header :
    let tokens : List Token := [.header ⟨"f", [.text], []⟩, .literal (.int 7),
      .literal (.path "p"), .literal (.text "\"\t"), .word (.mark .close)]
    Token.ofSource "proc f str\nin do +7 'p'\"\\\"\\t\" // x\nend" = .ok tokens ∧
      (∀ t ∈ tokens, t.IsQuotable) ∧
      Token.ofSource (" ".intercalate (tokens.map display)) = .ok tokens := by
  intro tokens
  have read : Token.ofSource "proc f str\nin do +7 'p'\"\\\"\\t\" // x\nend" = .ok tokens :=
    ok_of_toOption (by decide +kernel)
  have quotable : ∀ t ∈ tokens, t.IsQuotable := by
    simp [tokens, IsQuotable, Text.IsQuotable]
  exact ⟨read, quotable, display_reads_back _ tokens read quotable⟩

end Token

end Chore
