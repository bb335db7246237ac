import Chore.Token
import Chore.Token.Lexeme

/-!
# Reading tokens

`Token.ofSource` reads a source text as tokens. A word is a built-in word, else a number, else a
name; the word `proc` starts a procedure header, which runs to its `do`. Lexemes are taken from
the left and the first fault is the answer, whether it lies in a lexeme or in how lexemes follow
each other.
-/

set_option autoImplicit false

namespace Chore

/-- The wording of a parse error. -/
def ParseError.message : ParseError → String
  | unknownWord word line => s!"Unknown word `{word}` at line {Text.showNat line}."
  | unterminatedText line =>
    s!"Unterminated string literal starting at line {Text.showNat line}."
  | unterminatedPath line =>
    s!"Unterminated path literal starting at line {Text.showNat line}."
  | unknownEscape c line =>
    "Unknown escape sequence `\x5c" ++ c.toString ++ s!"` at line {Text.showNat line}."
  | invalidName name line => s!"Invalid procedure name `{name}` at line {Text.showNat line}."
  | unknownKind name procedure =>
    s!"Unknown type `{name}` in the header of procedure `{procedure}`."
  | unterminatedHeader line =>
    s!"Procedure header starting at line {Text.showNat line} is not terminated by `do`."
  | missingIn procedure line =>
    s!"Procedure header of `{procedure}` at line {Text.showNat line} has no `in` between inputs " ++
      s!"and outputs."

namespace Token

/-- The part of a name behind its first letter; the flag says that an underscore came just
before. -/
def isNameTail : Bool → List Char → Bool
  | underscore, [] => !underscore
  | underscore, c :: cs =>
    if c = '_' then !underscore && isNameTail true cs
    else (c.isLower || c.isDigit) && isNameTail false cs

/-- Names are lowercase ASCII letters and digits with single underscores between them, and start
with a letter. -/
def isName (s : String) : Bool :=
  match s.toList with
  | [] => false
  | c :: cs => c.isLower && isNameTail false cs

/-- Reads one word that stands outside of headers. -/
def ofWord (word : String) (line : Nat) : Except ParseError Token :=
  match Word.ofSpelling? word with
  | some w => .ok (.word w)
  | none =>
    match Text.readInt word.toList with
    | some n => .ok (.literal (.int n))
    | none => if isName word then .ok (.name word) else .error (.unknownWord word line)

/-- Whether a procedure may have this name. -/
def isProcedureName (s : String) : Bool :=
  isName s && (Word.ofSpelling? s).isNone

/-- Where the reader is: between tokens, or inside a header that started on a line. Kinds are kept
last first; the outputs are absent until `in` is read. -/
inductive Reading where
  | body
  | headerName (line : Nat)
  | headerKinds (line : Nat) (procedure : String) (inputs : List Kind) (outputs : Option (List Kind))

/-- Reads tokens from lexemes. -/
def ofLexemes : Reading → Lexemes → Except ParseError (List Token)
  | .body, .done => .ok []
  | .headerName line, .done => .error (.unterminatedHeader line)
  | .headerKinds line _ _ _, .done => .error (.unterminatedHeader line)
  | _, .fault e => .error e
  | .body, .cons (.text s) _ rest => do
    return .literal (.text s) :: (← ofLexemes .body rest)
  | .body, .cons (.path p) _ rest => do
    return .literal (.path p) :: (← ofLexemes .body rest)
  | .body, .cons (.word w) line rest =>
    if w = "proc" then ofLexemes (.headerName line) rest
    else do
      let token ← ofWord w line
      return token :: (← ofLexemes .body rest)
  | .headerName line, .cons (.word w) _ rest =>
    if isProcedureName w then ofLexemes (.headerKinds line w [] none) rest
    else .error (.invalidName w line)
  | .headerName line, .cons lexeme _ _ => .error (.invalidName lexeme.content line)
  | .headerKinds line procedure inputs outputs, .cons (.word w) _ rest =>
    match outputs with
    | none =>
      if w = "do" then .error (.missingIn procedure line)
      else if w = "in" then ofLexemes (.headerKinds line procedure inputs (some [])) rest
      else match Kind.ofName? w with
        | some k => ofLexemes (.headerKinds line procedure (k :: inputs) none) rest
        | none => .error (.unknownKind w procedure)
    | some outs =>
      if w = "do" then do
        return .header ⟨procedure, inputs.reverse, outs.reverse⟩ :: (← ofLexemes .body rest)
      else match Kind.ofName? w with
        | some k => ofLexemes (.headerKinds line procedure inputs (some (k :: outs))) rest
        | none => .error (.unknownKind w procedure)
  | .headerKinds line _ _ _, .cons _ _ _ => .error (.unterminatedHeader line)

/-- The tokens of a source text. -/
def ofSource (source : String) : Except ParseError (List Token) :=
  ofLexemes .body (Lexemes.ofSource source)

end Token

end Chore
