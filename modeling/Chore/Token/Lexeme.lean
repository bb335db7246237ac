import Chore.Text.Blank

/-!
# Lexemes

A source text is cut into words, text literals and path literals, each with the line it starts
on. Words end at a blank; a word that starts with two slashes opens a comment, which runs to the
end of its line. The cut goes through the characters once, from the left, in one of a few modes
(`Mode`), and its result (`Lexemes`) is a list that ends either with the end of the text or with
the fault that stopped it: lexemes in front of a fault are still read.
-/

set_option autoImplicit false

namespace Chore

/-- Why a source text is no program. Lines are counted from one. -/
inductive ParseError where
  | unknownWord (word : String) (line : Nat)
  | unterminatedText (line : Nat)
  | unterminatedPath (line : Nat)
  | unknownEscape (c : Char) (line : Nat)
  | invalidName (name : String) (line : Nat)
  | unknownKind (name : String) (procedure : String)
  | unterminatedHeader (line : Nat)
  | missingIn (procedure : String) (line : Nat)
  deriving DecidableEq

/-- A word or a literal, before it is classified. -/
inductive Lexeme where
  | word (w : String)
  | text (s : String)
  | path (p : String)
  deriving DecidableEq

/-- The characters of a lexeme, without quotes. -/
def Lexeme.content : Lexeme → String
  | word w => w
  | text s => s
  | path p => p

/-- The lexemes of a source text, each with its line, and how they end. -/
inductive Lexemes where
  | done
  | fault (e : ParseError)
  | cons (lexeme : Lexeme) (line : Nat) (rest : Lexemes)
  deriving DecidableEq

/-- What is being read. Literals and words carry the line they started on and their characters so
far, last first. -/
inductive Mode where
  | gap
  | comment
  | word (line : Nat) (read : List Char)
  | text (line : Nat) (read : List Char)
  | escape (line : Nat) (read : List Char)
  | path (line : Nat) (read : List Char)

namespace Lexemes

/-- The line after a character. -/
def lineAfter (line : Nat) (c : Char) : Nat :=
  if c = '\n' then line + 1 else line

/-- The character an escape stands for. -/
def escaped? (c : Char) : Option Char :=
  if c = 'n' then some '\n'
  else if c = 't' then some '\t'
  else if c = '\x5c' then some '\x5c'
  else if c = '\x22' then some '\x22'
  else none

/-- Cuts a text into lexemes, from a mode and a line on. -/
def scan : Mode → Nat → List Char → Lexemes
  | .gap, _, [] => done
  | .comment, _, [] => done
  | .word start read, _, [] => cons (.word (String.ofList read.reverse)) start done
  | .text start _, _, [] => fault (.unterminatedText start)
  | .escape start _, _, [] => fault (.unterminatedText start)
  | .path start _, _, [] => fault (.unterminatedPath start)
  | .gap, line, c :: cs =>
    if Text.isBlank c then scan .gap (lineAfter line c) cs
    else if c = '\x22' then scan (.text line []) line cs
    else if c = '\x27' then scan (.path line []) line cs
    else scan (.word line [c]) line cs
  | .comment, line, c :: cs =>
    if c = '\n' then scan .gap (line + 1) cs else scan .comment line cs
  | .word start read, line, c :: cs =>
    if Text.isBlank c then
      cons (.word (String.ofList read.reverse)) start (scan .gap (lineAfter line c) cs)
    else if c = '/' ∧ read = ['/'] then scan .comment line cs
    else scan (.word start (c :: read)) line cs
  | .text start read, line, c :: cs =>
    if c = '\x22' then cons (.text (String.ofList read.reverse)) start (scan .gap line cs)
    else if c = '\x5c' then scan (.escape start read) line cs
    else scan (.text start (c :: read)) (lineAfter line c) cs
  | .escape start read, line, c :: cs =>
    match escaped? c with
    | some d => scan (.text start (d :: read)) line cs
    | none => fault (.unknownEscape c (lineAfter line c))
  | .path start read, line, c :: cs =>
    if c = '\x27' then cons (.path (String.ofList read.reverse)) start (scan .gap line cs)
    else scan (.path start (c :: read)) (lineAfter line c) cs

/-- The lexemes of a source text. -/
def ofSource (source : String) : Lexemes :=
  scan .gap 1 source.toList

end Lexemes

end Chore
