import Chore.Block.Builder

/-!
# Linking in one pass

`Program.link` goes over the instructions once, from left to right, and never looks at the block
structure: it keeps a stack of the openers that are not closed yet, and fills in the target of an
opener when it comes to the word behind its part. What it answers is what `Program.ofTokens`
answers.

Indices are bounded by the number of instructions, so whatever is on the stack is there.
-/

set_option autoImplicit false

namespace Chore

/-- The instruction of a token, not linked yet. -/
def Instr.ofToken (t : Token) : Instr where
  token := t

/-- The linker: the instructions, linked as far as they were read; the openers that are not closed
yet, innermost first; the header of the procedure being read; and the procedures that are
complete. -/
structure Linker (n : Nat) where
  code : Vector Instr n
  opened : List (Fin n) := []
  header? : Option (Fin n) := none
  procedures : List Procedure := []

namespace Linker

variable {n : Nat}

/-- The linker in front of some tokens. -/
def start (tokens : List Token) : Linker tokens.length where
  code := ⟨(tokens.map Instr.ofToken).toArray, by simp⟩

/-- Changes one instruction. -/
def patch (l : Linker n) (i : Fin n) (change : Instr → Instr) : Linker n :=
  { l with code := l.code.set i (change l.code[i]) }

/-- Gives an opener its target: the instruction behind an index. -/
def resolve (l : Linker n) (opener index : Fin n) : Linker n :=
  l.patch opener fun instr => { instr with next := some (index + 1) }

/-- A word that does not fit the innermost opener. -/
def mismatch (l : Linker n) (closer : Mark) (index opener : Fin n) : LinkError :=
  .mismatchedOpener closer index l.code[opener].token opener

/-- Reads a word that opens a part. -/
def enter (l : Linker n) (index : Fin n) : Linker n :=
  { l with opened := index :: l.opened }

/-- Reads a procedure header. -/
def declare (l : Linker n) (sig : Signature) (index : Fin n) : Except LinkError (Linker n) :=
  if l.header?.isSome then .error (.nestedProcedure sig.name index)
  else if l.procedures.any fun p => p.name == sig.name then
    .error (.duplicateProcedure sig.name index)
  else .ok { l.enter index with header? := some index }

/-- Reads the word between the two parts of a branch. -/
def otherwise (l : Linker n) (index : Fin n) : Except LinkError (Linker n) :=
  match l.opened with
  | [] => .error (.unmatchedCloser .otherwise index)
  | opener :: opened =>
    match l.code[opener].token with
    | .word (.mark .onTrue) | .word (.mark .onFalse) =>
      .ok { l.resolve opener index with opened := index :: opened }
    | _ => .error (l.mismatch .otherwise index opener)

/-- The loop a token opens. -/
def loopKind? : Token → Option LoopKind
  | .word (.mark .whileTrue) => some .whileTrue
  | .word (.mark .untilTrue) => some .untilTrue
  | _ => none

/-- Reads the word between the header and the body of a loop. -/
def test (l : Linker n) (index : Fin n) : Except LinkError (Linker n) :=
  match l.opened with
  | [] => .error (.unmatchedCloser .test index)
  | opener :: opened =>
    match loopKind? l.code[opener].token with
    | some kind =>
      let l := (l.resolve opener index).patch index fun instr =>
        { instr with role := .test kind opener }
      .ok { l with opened := index :: opened }
    | none => .error (l.mismatch .test index opener)

/-- Closes the innermost opener. -/
def leave (l : Linker n) (opener : Fin n) (opened : List (Fin n)) (index : Fin n) (what : Closing)
    (next : Option Nat) : Linker n :=
  let l := (l.resolve opener index).patch index fun instr =>
    { instr with role := .close what, next }
  { l with opened }

/-- Completes a procedure. A procedure of the same name is replaced. -/
def complete (l : Linker n) (p : Procedure) : Linker n :=
  { l with
    header? := none
    procedures := l.procedures.filter (fun q => q.name != p.name) ++ [p] }

/-- Reads a closing word. -/
def close (l : Linker n) (index : Fin n) : Except LinkError (Linker n) :=
  match l.opened with
  | [] => .error (.unmatchedCloser .close index)
  | opener :: opened =>
    match l.code[opener].token, l.code[opener].role with
    | .word (.mark .onTrue), _ | .word (.mark .onFalse), _ | .word (.mark .otherwise), _ =>
      .ok (l.leave opener opened index .branch none)
    | .word (.mark .test), .test _ header =>
      .ok (l.leave opener opened index (.loop header) (some header))
    | .header sig, _ =>
      .ok ((l.leave opener opened index .procedure none).complete
        { start := opener + 1, stop := index, signature := sig })
    | _, _ => .error (l.mismatch .close index opener)

/-- Reads the instruction at an index. -/
def read (l : Linker n) (index : Fin n) : Except LinkError (Linker n) :=
  match l.code[index].token with
  | .header sig => l.declare sig index
  | .word (.mark .onTrue) | .word (.mark .onFalse) | .word (.mark .whileTrue)
  | .word (.mark .untilTrue) => .ok (l.enter index)
  | .word (.mark .otherwise) => l.otherwise index
  | .word (.mark .test) => l.test index
  | .word (.mark .close) => l.close index
  | _ => .ok l

/-- The linked program, once every opener is closed. -/
def finish (l : Linker n) : Except LinkError Program :=
  match l.opened with
  | [] => .ok { instructions := l.code.toArray, procedures := l.procedures }
  | opener :: _ => .error (.unclosed l.code[opener].token opener)

end Linker

/-- Links a token list in one pass over its instructions. -/
def Program.link (tokens : List Token) : Except LinkError Program := do
  let l ← (List.finRange tokens.length).foldlM Linker.read (Linker.start tokens)
  l.finish

end Chore
