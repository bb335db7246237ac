import Chore.Text.Quoted
import Chore.Value
import Chore.Word

/-!
# Tokens

A program text is a sequence of tokens: literals, built-in words, names of procedures, and
procedure headers. A header is a single token and carries the procedure's signature.
-/

set_option autoImplicit false

namespace Chore

/-- Name and stack signature of a procedure. Inputs and outputs are listed in the order they are
pushed, so the last is on top. -/
structure Signature where
  name : String
  inputs : List Kind
  outputs : List Kind
  deriving DecidableEq

/-- A procedure header as written in a program, with single blanks. -/
def Signature.display (sig : Signature) : String :=
  " ".intercalate
    (["proc", sig.name] ++ sig.inputs.map Kind.name ++ ["in"] ++ sig.outputs.map Kind.name
      ++ ["do"])

/-- One token of a program. -/
inductive Token where
  | literal (v : Value)
  | word (w : Word)
  | header (sig : Signature)
  | name (s : String)
  deriving DecidableEq

/-- The token of a word of a block's frame. -/
def Mark.token (m : Mark) : Token :=
  .word (.mark m)

/-- The lexical classes of tokens. -/
inductive TokenClass where
  | number
  | keyword
  | symbol
  | path
  | text
  | identifier
  deriving DecidableEq

/-- The lexical class of a built-in word. -/
def Word.lexicalClass (w : Word) : TokenClass :=
  if w.isLettered then .keyword else .symbol

namespace Token

/-- The lexical class of a token. -/
def lexicalClass : Token → TokenClass
  | literal (.int _) => .number
  | literal (.text _) => .text
  | literal (.path _) => .path
  | word w => w.lexicalClass
  | header _ => .keyword
  | name _ => .identifier

/-- The value a literal pushes. -/
def literal? : Token → Option Value
  | literal v => some v
  | _ => none

/-- Whether the token opens or divides a block, so that it needs a jump target. -/
def isOpener : Token → Bool
  | word w => w.isOpener
  | header _ => true
  | _ => false

/-- Whether the token is one step on its own: no part of a block's frame. -/
def isPlain : Token → Bool
  | word (.mark _) => false
  | header _ => false
  | _ => true

/-- A token in messages: texts quoted and escaped, paths between single quotes. -/
def display : Token → String
  | literal (.int n) => Text.showInt n
  | literal (.text s) => Text.quote s
  | literal (.path p) => "'" ++ p ++ "'"
  | word w => w.spelling
  | header sig => sig.display
  | name s => s

end Token

end Chore
