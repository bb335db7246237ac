import Chore.Block

/-!
# Building blocks from tokens

`Block.ofTokens` reads the block structure off a token list, from left to right. The builder keeps
the blocks that are open, innermost first, each with the steps read before it; a closing word must
fit the innermost of them. `Program.ofTokens` lays the result out.

Procedures may stand inside branches and loops but not inside procedures, and no two may have the
same name.
-/

set_option autoImplicit false

namespace Chore

/-- Why a token list has no block structure. Indices count tokens from zero. -/
inductive LinkError where
  | unmatchedCloser (closer : Mark) (index : Nat)
  | mismatchedOpener (closer : Mark) (index : Nat) (opener : Token) (openerIndex : Nat)
  | unclosed (opener : Token) (index : Nat)
  | nestedProcedure (name : String) (index : Nat)
  | duplicateProcedure (name : String) (index : Nat)
  deriving DecidableEq

/-- The wording of a link error. -/
def LinkError.message : LinkError → String
  | unmatchedCloser closer index =>
    s!"`{closer.token.display}` at index {Text.showNat index} does not close any block"
  | mismatchedOpener closer index opener openerIndex =>
    s!"`{closer.token.display}` at index {Text.showNat index} cannot close `{opener.display}` at " ++
      s!"index {Text.showNat openerIndex}"
  | unclosed opener index =>
    s!"`{opener.display}` at index {Text.showNat index} is never closed"
  | nestedProcedure name index =>
    s!"Procedure `{name}` at index {Text.showNat index} is declared inside another procedure"
  | duplicateProcedure name index =>
    s!"Procedure `{name}` at index {Text.showNat index} is already declared"

namespace Block

/-- One step of a block, on its own. -/
inductive Item where
  | plain (token : Token)
  | branch (kind : BranchKind) (body : Block)
  | choice (kind : BranchKind) (body alternative : Block)
  | loop (kind : LoopKind) (header body : Block)
  | procedure (sig : Signature) (body : Block)
  deriving DecidableEq

/-- A block that starts with a step. -/
def Item.before : Item → Block → Block
  | plain t, rest => Block.plain t rest
  | branch k body, rest => Block.branch k body rest
  | choice k body alternative, rest => Block.choice k body alternative rest
  | loop k header body, rest => Block.loop k header body rest
  | procedure sig body, rest => Block.procedure sig body rest

/-- The block of some steps, given last step first. -/
def ofReversed (items : List Item) : Block :=
  items.foldl (fun rest item => item.before rest) nil

/-- What is open: which part of which construct is being read, with the parts before it. -/
inductive Opener where
  | branch (kind : BranchKind)
  | alternative (kind : BranchKind) (body : Block)
  | header (kind : LoopKind)
  | body (kind : LoopKind) (header : Block)
  | procedure (sig : Signature)
  deriving DecidableEq

/-- The token that opened the part being read. -/
def Opener.token : Opener → Token
  | branch k => k.mark.token
  | alternative _ _ => Mark.otherwise.token
  | header k => k.mark.token
  | body _ _ => Mark.test.token
  | procedure sig => .header sig

/-- Whether a procedure body is being read. -/
def Opener.isProcedure : Opener → Bool
  | procedure _ => true
  | _ => false

/-- An open construct: the index of the token that opened the part being read, and the steps read
in front of the construct, last first. -/
structure Frame where
  opener : Opener
  index : Nat
  before : List Item
  deriving DecidableEq

/-- The builder: the steps of the innermost open block, last first, the open constructs, innermost
first, and the names of the procedures that are complete. -/
structure Builder where
  items : List Item := []
  frames : List Frame := []
  declared : List String := []
  deriving DecidableEq

namespace Builder

/-- Adds a step to the innermost open block. -/
def add (b : Builder) (item : Item) : Builder :=
  { b with items := item :: b.items }

/-- Opens a construct. -/
def enter (b : Builder) (opener : Opener) (index : Nat) : Builder :=
  { b with items := [], frames := ⟨opener, index, b.items⟩ :: b.frames }

/-- Goes on to the next part of the innermost construct. -/
def proceed (b : Builder) (opener : Opener) (index : Nat) (before : List Item)
    (frames : List Frame) : Builder :=
  { b with items := [], frames := ⟨opener, index, before⟩ :: frames }

/-- Leaves the innermost construct, which becomes a step of the block around it. -/
def leave (b : Builder) (item : Item) (before : List Item) (frames : List Frame) : Builder :=
  { b with items := item :: before, frames }

/-- Reads a closing word. -/
def close (b : Builder) (index : Nat) : Except LinkError Builder :=
  match b.frames with
  | [] => .error (.unmatchedCloser .close index)
  | ⟨.branch k, _, before⟩ :: frames => .ok (b.leave (.branch k (ofReversed b.items)) before frames)
  | ⟨.alternative k body, _, before⟩ :: frames =>
    .ok (b.leave (.choice k body (ofReversed b.items)) before frames)
  | ⟨.body k header, _, before⟩ :: frames =>
    .ok (b.leave (.loop k header (ofReversed b.items)) before frames)
  | ⟨.procedure sig, _, before⟩ :: frames =>
    .ok { b.leave (.procedure sig (ofReversed b.items)) before frames with
      declared := sig.name :: b.declared }
  | frame :: _ => .error (.mismatchedOpener .close index frame.opener.token frame.index)

/-- Reads the word between the two parts of a branch. -/
def otherwise (b : Builder) (index : Nat) : Except LinkError Builder :=
  match b.frames with
  | [] => .error (.unmatchedCloser .otherwise index)
  | ⟨.branch k, _, before⟩ :: frames =>
    .ok (b.proceed (.alternative k (ofReversed b.items)) index before frames)
  | frame :: _ => .error (.mismatchedOpener .otherwise index frame.opener.token frame.index)

/-- Reads the word between the header and the body of a loop. -/
def test (b : Builder) (index : Nat) : Except LinkError Builder :=
  match b.frames with
  | [] => .error (.unmatchedCloser .test index)
  | ⟨.header k, _, before⟩ :: frames =>
    .ok (b.proceed (.body k (ofReversed b.items)) index before frames)
  | frame :: _ => .error (.mismatchedOpener .test index frame.opener.token frame.index)

/-- Reads a procedure header. -/
def declare (b : Builder) (sig : Signature) (index : Nat) : Except LinkError Builder :=
  if b.frames.any fun frame => frame.opener.isProcedure then
    .error (.nestedProcedure sig.name index)
  else if b.declared.contains sig.name then .error (.duplicateProcedure sig.name index)
  else .ok (b.enter (.procedure sig) index)

/-- Reads one token, which stands at an index. -/
def read (b : Builder) (index : Nat) : Token → Except LinkError Builder
  | .word (.mark .onTrue) => .ok (b.enter (.branch .onTrue) index)
  | .word (.mark .onFalse) => .ok (b.enter (.branch .onFalse) index)
  | .word (.mark .whileTrue) => .ok (b.enter (.header .whileTrue) index)
  | .word (.mark .untilTrue) => .ok (b.enter (.header .untilTrue) index)
  | .word (.mark .otherwise) => b.otherwise index
  | .word (.mark .test) => b.test index
  | .word (.mark .close) => b.close index
  | .header sig => b.declare sig index
  | t => .ok (b.add (.plain t))

/-- Reads tokens, the first of which stands at an index. -/
def readAll (b : Builder) (index : Nat) : List Token → Except LinkError Builder
  | [] => .ok b
  | t :: ts => do
    let b ← b.read index t
    readAll b (index + 1) ts

/-- The block read, once every construct is closed. -/
def finish (b : Builder) : Except LinkError Block :=
  match b.frames with
  | [] => .ok (ofReversed b.items)
  | frame :: _ => .error (.unclosed frame.opener.token frame.index)

end Builder

/-- The block structure of a token list. -/
def ofTokens (tokens : List Token) : Except LinkError Block := do
  let b ← Builder.readAll {} 0 tokens
  b.finish

end Block

/-- Links a token list: reads its block structure and lays it out. -/
def Program.ofTokens (tokens : List Token) : Except LinkError Program := do
  let block ← Block.ofTokens tokens
  return block.program

end Chore
