/-!
# The built-in words

`Word` is the sum of small groups of words that behave alike. `Word.all` lists the words,
`Word.spelling` gives each its source text, and `Word.ofSpelling?` reads it back.
-/

set_option autoImplicit false

namespace Chore

/-- Words that turn a value into one of another kind. -/
inductive Conversion where
  | toText
  | toPath
  | absolute
  | relative
  | concat
  deriving DecidableEq

/-- Words for named variables. -/
inductive Access where
  | store
  | load
  deriving DecidableEq

/-- Arithmetic words with two operands. -/
inductive Arithmetic where
  | add
  | subtract
  | multiply
  | divide
  | modulo
  deriving DecidableEq

/-- Words that count one up or down. -/
inductive Counting where
  | increment
  | decrement
  deriving DecidableEq

/-- Words that rearrange the top of the stack. -/
inductive Shuffle where
  | dup
  | drop
  | swap
  | over
  | dup2
  | swap2
  deriving DecidableEq

/-- Words that open, divide or close a block. -/
inductive Mark where
  | onTrue
  | onFalse
  | otherwise
  | whileTrue
  | untilTrue
  | test
  | close
  deriving DecidableEq

/-- Words that leave a procedure, or the program. -/
inductive Leave where
  | ret
  | dropRet
  | keepRet
  | exit
  deriving DecidableEq

/-- Words that compare two values. -/
inductive Comparison where
  | equal
  | notEqual
  | less
  | greater
  | lessEqual
  | greaterEqual
  deriving DecidableEq

/-- Words on the bits of two integers. -/
inductive Bitwise where
  | and
  | or
  | xor
  deriving DecidableEq

/-- Words on two conditions. -/
inductive Logic where
  | and
  | or
  deriving DecidableEq

/-- Words that reach outside the program: files, archives, downloads. -/
inductive Tool where
  | download
  | readFile
  | move
  | copy
  | exist
  | touch
  | mkdir
  | remove
  | unzip
  | countFiles
  | countDirs
  | fileAt
  | dirAt
  deriving DecidableEq

/-- A built-in word. -/
inductive Word where
  | print
  | convert (w : Conversion)
  | access (w : Access)
  | arithmetic (w : Arithmetic)
  | count (w : Counting)
  | shuffle (w : Shuffle)
  | mark (w : Mark)
  | leave (w : Leave)
  | compare (w : Comparison)
  | bitwise (w : Bitwise)
  | complement
  | logic (w : Logic)
  | negate
  | tool (w : Tool)
  deriving DecidableEq

/-- The families of words, by what they work on. -/
inductive Family where
  | print
  | conversion
  | memory
  | arithmetic
  | stack
  | branch
  | comparison
  | bitwise
  | logic
  | tool
  deriving DecidableEq

namespace Word

/-- The word as written in a program. -/
def spelling : Word → String
  | print => "."
  | convert .toText => "tostring"
  | convert .toPath => "token"
  | convert .absolute => "absolute"
  | convert .relative => "relative"
  | convert .concat => "concat"
  | access .store => "store"
  | access .load => "load"
  | arithmetic .add => "+"
  | arithmetic .subtract => "-"
  | arithmetic .multiply => "*"
  | arithmetic .divide => "/"
  | arithmetic .modulo => "%"
  | count .increment => "++"
  | count .decrement => "--"
  | shuffle .dup => "dup"
  | shuffle .drop => "drop"
  | shuffle .swap => "swap"
  | shuffle .over => "over"
  | shuffle .dup2 => "2dup"
  | shuffle .swap2 => "2swap"
  | mark .onTrue => "if"
  | mark .onFalse => "unless"
  | mark .otherwise => "else"
  | mark .whileTrue => "while"
  | mark .untilTrue => "until"
  | mark .test => "do"
  | mark .close => "end"
  | leave .ret => "ret"
  | leave .dropRet => "dret"
  | leave .keepRet => "iret"
  | leave .exit => "exit"
  | compare .equal => "="
  | compare .notEqual => "!="
  | compare .less => "<"
  | compare .greater => ">"
  | compare .lessEqual => "<="
  | compare .greaterEqual => ">="
  | complement => "~"
  | bitwise .and => "&"
  | bitwise .or => "|"
  | bitwise .xor => "^"
  | logic .and => "&&"
  | logic .or => "||"
  | negate => "!"
  | tool .download => "download"
  | tool .readFile => "readfile"
  | tool .move => "move"
  | tool .copy => "copy"
  | tool .exist => "exist"
  | tool .touch => "touch"
  | tool .mkdir => "mkdir"
  | tool .remove => "rm"
  | tool .unzip => "unzip"
  | tool .countFiles => "lsf"
  | tool .countDirs => "lsd"
  | tool .fileAt => "getf"
  | tool .dirAt => "getd"

/-- All built-in words. -/
def all : List Word :=
  [print,
   convert .toText, convert .toPath, convert .absolute, convert .relative, convert .concat,
   access .store, access .load,
   arithmetic .add, arithmetic .subtract, arithmetic .multiply, arithmetic .divide,
   arithmetic .modulo, count .increment, count .decrement,
   shuffle .dup, shuffle .drop, shuffle .swap, shuffle .over, shuffle .dup2, shuffle .swap2,
   mark .onTrue, mark .onFalse, mark .otherwise, mark .whileTrue, mark .untilTrue, mark .test,
   mark .close,
   leave .ret, leave .dropRet, leave .keepRet, leave .exit,
   compare .equal, compare .notEqual, compare .less, compare .greater, compare .lessEqual,
   compare .greaterEqual,
   complement, bitwise .and, bitwise .or, bitwise .xor,
   logic .and, logic .or, negate,
   tool .download, tool .readFile, tool .move, tool .copy, tool .exist, tool .touch, tool .mkdir,
   tool .remove, tool .unzip, tool .countFiles, tool .countDirs, tool .fileAt, tool .dirAt]

/-- The word with a given spelling. -/
def ofSpelling? (s : String) : Option Word :=
  all.find? fun w => w.spelling == s

/-- The family of a word. -/
def family : Word → Family
  | print => .print
  | convert _ => .conversion
  | access _ => .memory
  | arithmetic _ | count _ => .arithmetic
  | shuffle _ => .stack
  | mark _ | leave _ => .branch
  | compare _ => .comparison
  | bitwise _ | complement => .bitwise
  | logic _ | negate => .logic
  | tool _ => .tool

/-- Whether a word is spelled with letters rather than with punctuation only. -/
def isLettered (w : Word) : Bool :=
  w.spelling.toList.any Char.isAlpha

/-- Whether a word opens or divides a block, so that it needs a jump target. -/
def isOpener : Word → Bool
  | mark .close => false
  | mark _ => true
  | _ => false

theorem mem_all (w : Word) : w ∈ all := by
  cases w with
  | print => decide
  | convert w => cases w <;> decide
  | access w => cases w <;> decide
  | arithmetic w => cases w <;> decide
  | count w => cases w <;> decide
  | shuffle w => cases w <;> decide
  | mark w => cases w <;> decide
  | leave w => cases w <;> decide
  | compare w => cases w <;> decide
  | bitwise w => cases w <;> decide
  | complement => decide
  | logic w => cases w <;> decide
  | negate => decide
  | tool w => cases w <;> decide

/-- Each word is read back from its spelling, so no two words are spelled alike. -/
theorem ofSpelling?_spelling (w : Word) : ofSpelling? w.spelling = some w := by
  have h : ∀ w ∈ all, ofSpelling? w.spelling = some w := by decide +kernel
  exact h w (mem_all w)

theorem spelling_of_ofSpelling? {s : String} {w : Word} (h : ofSpelling? s = some w) :
    w.spelling = s := by
  simpa using List.find?_some h

end Word

end Chore
