import Chore.Program

/-!
# Stack effects

What each built-in word does to the kinds on the stack: how many it takes (`Word.arity`), which it
accepts, and which it leaves (`Word.results?`). A `Shape` is the list of kinds on the stack, top
first. Words of a block's frame and words that leave a procedure take only their condition here;
the rest of their effect is a matter of control flow.
-/

set_option autoImplicit false

namespace Chore

/-- The kinds of the values on the stack, top first. -/
abbrev Shape : Type :=
  List Kind

/-- Why a program is ill-typed. Kinds are listed bottom first, as messages show them. -/
inductive TypeError where
  | underflow (op : String) (index required available : Nat)
  | mismatch (op : Word) (index : Nat) (expected : String) (found : List Kind)
  | callMismatch (name : String) (index : Nat) (expected found : List Kind)
  | shapeMismatch (op : Word) (index : Nat) (cause : Token) (causeIndex : Nat)
      (expected found : List Kind)
  | unexpectedCause (op : Word) (index : Nat) (cause : Token) (causeIndex : Nat)
  | unsupportedJoin (cause : Token) (causeIndex : Nat)
  | noOpenBlock (op : Word) (index : Nat)
  | unclosedBlock (cause : Token) (causeIndex : Nat)
  | unresolvedJump (op : String) (index : Nat)
  | unknownWord (name : String) (index : Nat)
  | nestedProcedure (name : String) (index : Nat)
  | returnOutside (op : Word) (index : Nat)
  | countNotLiteral (op : Word) (index : Nat)
  | signatureMismatch (name : String) (index : Nat) (expected found : List Kind)
  | endless (index : Nat)
  deriving DecidableEq

/-- The wording of a type error. -/
def TypeError.message : TypeError → String
  | underflow op index required available =>
    s!"`{op}` at index {Text.showNat index} needs {Text.showNat required} values, the stack has " ++
      s!"{Text.showNat available}"
  | mismatch op index expected found =>
    s!"`{op.spelling}` at index {Text.showNat index} expects {expected}, found " ++
      s!"{Kind.showList found}"
  | callMismatch name index expected found =>
    s!"Call of `{name}` at index {Text.showNat index} expects {Kind.showList expected}, found " ++
      s!"{Kind.showList found}"
  | shapeMismatch op index cause causeIndex expected found =>
    s!"`{op.spelling}` at index {Text.showNat index} leaves the stack as {Kind.showList found}, " ++
      s!"but `{cause.display}` at index {Text.showNat causeIndex} left it as {Kind.showList expected}"
  | unexpectedCause op index cause causeIndex =>
    s!"`{op.spelling}` at index {Text.showNat index} cannot follow `{cause.display}` at index " ++
      s!"{Text.showNat causeIndex}"
  | unsupportedJoin cause causeIndex =>
    s!"Joining the block opened by `{cause.display}` at index {Text.showNat causeIndex} is not " ++
      s!"supported"
  | noOpenBlock op index =>
    s!"`{op.spelling}` at index {Text.showNat index} does not close any block"
  | unclosedBlock cause causeIndex =>
    s!"`{cause.display}` at index {Text.showNat causeIndex} is never closed"
  | unresolvedJump op index =>
    s!"`{op}` at index {Text.showNat index} has no resolved jump target"
  | unknownWord name index => s!"Unknown word `{name}` at index {Text.showNat index}"
  | nestedProcedure name index =>
    s!"Procedure `{name}` at index {Text.showNat index} is declared inside another procedure"
  | returnOutside op index =>
    s!"`{op.spelling}` at index {Text.showNat index} is outside of any procedure"
  | countNotLiteral op index =>
    s!"`{op.spelling}` at index {Text.showNat index} needs its counts as non-negative integer " ++
      s!"literals right before it"
  | signatureMismatch name index expected found =>
    s!"Procedure `{name}` returns {Kind.showList found} at index {Text.showNat index}, but is " ++
      s!"declared to return {Kind.showList expected}"
  | endless index => s!"Headers jump back without end at index {Text.showNat index}"

namespace Tool

/-- How many values a tool word takes. -/
def arity : Tool → Nat
  | download | move | copy | unzip | fileAt | dirAt => 2
  | readFile | exist | touch | mkdir | remove | countFiles | countDirs => 1

/-- The kinds a tool word leaves for the kinds it takes, both top first. -/
def results? : Tool → List Kind → Option (List Kind)
  | download, [.path, .text] => some [.int]
  | readFile, [.path] => some [.int, .text]
  | move, [.path, .path] => some [.int]
  | copy, [.path, .path] => some [.int, .int]
  | unzip, [.path, .path] => some [.int, .int]
  | exist, [.path] => some [.int]
  | touch, [.path] => some [.int]
  | mkdir, [.path] => some [.int]
  | remove, [.path] => some [.int]
  | countFiles, [.path] => some [.int]
  | countDirs, [.path] => some [.int]
  | fileAt, [.path, .int] => some [.text]
  | dirAt, [.path, .int] => some [.text]
  | _, _ => none

/-- What a tool word asks for, in messages. -/
def expected : Tool → String
  | download => "string path"
  | move | copy | unzip => "path path"
  | readFile | exist | touch | mkdir | remove | countFiles | countDirs => "path"
  | fileAt | dirAt => "int path"

end Tool

namespace Word

/-- How many values a word takes from the stack. -/
def arity : Word → Nat
  | print => 1
  | convert .concat => 2
  | convert _ => 1
  | access .store => 2
  | access .load => 1
  | arithmetic _ => 2
  | count _ => 1
  | shuffle .dup | shuffle .drop => 1
  | shuffle .swap | shuffle .over | shuffle .dup2 => 2
  | shuffle .swap2 => 4
  | mark .onTrue | mark .onFalse | mark .test => 1
  | mark _ => 0
  | leave _ => 0
  | compare _ => 2
  | bitwise _ => 2
  | complement => 1
  | logic _ => 2
  | negate => 1
  | tool t => t.arity

/-- The kinds a word leaves for the kinds it takes, both top first; absent if it does not accept
them. -/
def results? : Word → List Kind → Option (List Kind)
  | print, [_] => some []
  | convert .toText, [_] => some [.text]
  | convert .toPath, [.text] => some [.path]
  | convert .absolute, [.text] | convert .absolute, [.path] => some [.path]
  | convert .relative, [.text] | convert .relative, [.path] => some [.path]
  | convert .concat, [.text, .text] => some [.text]
  | convert .concat, [.text, .path] => some [.path]
  | access .store, [.text, .int] => some []
  | access .load, [.text] => some [.int]
  | arithmetic .add, [.text, .text] | arithmetic .add, [.int, .text] => some [.text]
  | arithmetic _, [.int, .int] => some [.int]
  | count _, [.int] => some [.int]
  | shuffle .dup, [a] => some [a, a]
  | shuffle .drop, [_] => some []
  | shuffle .swap, [b, a] => some [a, b]
  | shuffle .over, [b, a] => some [a, b, a]
  | shuffle .dup2, [b, a] => some [b, a, b, a]
  | shuffle .swap2, [d, c, b, a] => some [b, a, d, c]
  | mark .onTrue, [k] | mark .onFalse, [k] | mark .test, [k] => if k = .path then none else some []
  | mark .otherwise, [] | mark .whileTrue, [] | mark .untilTrue, [] | mark .close, [] => some []
  | leave _, [] => some []
  | compare _, [.int, .int] | compare _, [.text, .text] => some [.int]
  | bitwise _, [.int, .int] => some [.int]
  | complement, [.int] => some [.int]
  | logic _, [b, a] => if a = .path ∨ b = .path then none else some [.int]
  | negate, [k] => if k = .path then none else some [.int]
  | tool t, kinds => t.results? kinds
  | _, _ => none

/-- What a word asks for, in messages. -/
def expected : Word → String
  | convert .toPath => "string"
  | convert .absolute | convert .relative => "string or path"
  | convert .concat => "string string or path string"
  | access .store => "int string"
  | access .load => "string"
  | arithmetic .add => "string string, string int or int int"
  | count _ | complement => "int"
  | arithmetic _ | bitwise _ => "int int"
  | mark _ | negate => "int or string"
  | logic _ => "two ints or strings"
  | compare _ => "int int or string string"
  | tool t => t.expected
  | print | convert .toText | shuffle _ | leave _ => ""

/-- The effect of a word at an index on a shape: too few values are an error before wrong ones
are. -/
def retype (w : Word) (index : Nat) (shape : Shape) : Except TypeError Shape :=
  if shape.length < w.arity then
    .error (.underflow w.spelling index w.arity shape.length)
  else
    match w.results? (shape.take w.arity) with
    | some kinds => .ok (kinds ++ shape.drop w.arity)
    | none => .error (.mismatch w index w.expected (shape.take w.arity).reverse)

end Word

end Chore
