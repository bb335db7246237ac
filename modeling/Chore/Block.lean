import Chore.Program

/-!
# Blocks

The structure of a program: a sequence of plain tokens, branches, loops and procedure
declarations, each with the sequences it encloses. `Block.tokens` spells a block out,
`Block.instructions` lays it out from a position on with every jump target in place, and
`Block.procedures` is the table of the procedures it declares. Targets are sums of sizes: no
instruction is changed after it is written.
-/

set_option autoImplicit false

namespace Chore

/-- The two words that open a branch. -/
inductive BranchKind where
  | onTrue
  | onFalse
  deriving DecidableEq

/-- The word that opens a branch. -/
def BranchKind.mark : BranchKind → Mark
  | onTrue => .onTrue
  | onFalse => .onFalse

/-- The outcome of the condition that enters the branch. -/
def BranchKind.enters : BranchKind → Bool
  | onTrue => true
  | onFalse => false

/-- A sequence of steps. Every constructor but the first is one step and the steps behind it. -/
inductive Block where
  | nil
  | plain (token : Token) (rest : Block)
  | branch (kind : BranchKind) (body rest : Block)
  | choice (kind : BranchKind) (body alternative rest : Block)
  | loop (kind : LoopKind) (header body rest : Block)
  | procedure (sig : Signature) (body rest : Block)
  deriving DecidableEq

namespace Block

/-- The number of tokens of a block. -/
def size : Block → Nat
  | nil => 0
  | plain _ rest => rest.size + 1
  | branch _ body rest => body.size + rest.size + 2
  | choice _ body alternative rest => body.size + alternative.size + rest.size + 3
  | loop _ header body rest => header.size + body.size + rest.size + 3
  | procedure _ body rest => body.size + rest.size + 2

/-- The tokens of a block, in order. -/
def tokens : Block → List Token
  | nil => []
  | plain t rest => t :: rest.tokens
  | branch k body rest => k.mark.token :: (body.tokens ++ Mark.close.token :: rest.tokens)
  | choice k body alternative rest =>
    k.mark.token :: (body.tokens ++ Mark.otherwise.token ::
      (alternative.tokens ++ Mark.close.token :: rest.tokens))
  | loop k header body rest =>
    k.mark.token :: (header.tokens ++ Mark.test.token ::
      (body.tokens ++ Mark.close.token :: rest.tokens))
  | procedure sig body rest =>
    .header sig :: (body.tokens ++ Mark.close.token :: rest.tokens)

/-- The instructions of a block laid out from the index `base` on. -/
def instructions (base : Nat) : Block → List Instr
  | nil => []
  | plain t rest => { token := t } :: rest.instructions (base + 1)
  | branch k body rest =>
    let after := base + body.size + 2
    { token := k.mark.token, next := some after } ::
      (body.instructions (base + 1) ++
        { token := Mark.close.token, role := .close .branch } :: rest.instructions after)
  | choice k body alternative rest =>
    let middle := base + body.size + 1
    let after := middle + alternative.size + 2
    { token := k.mark.token, next := some (middle + 1) } ::
      (body.instructions (base + 1) ++
        { token := Mark.otherwise.token, next := some after } ::
          (alternative.instructions (middle + 1) ++
            { token := Mark.close.token, role := .close .branch } :: rest.instructions after))
  | loop k header body rest =>
    let middle := base + header.size + 1
    let after := middle + body.size + 2
    { token := k.mark.token, next := some (middle + 1) } ::
      (header.instructions (base + 1) ++
        { token := Mark.test.token, next := some after, role := .test k base } ::
          (body.instructions (middle + 1) ++
            { token := Mark.close.token, next := some base, role := .close (.loop base) } ::
              rest.instructions after))
  | procedure sig body rest =>
    let after := base + body.size + 2
    { token := .header sig, next := some after } ::
      (body.instructions (base + 1) ++
        { token := Mark.close.token, role := .close .procedure } :: rest.instructions after)

/-- The procedures declared in a block laid out from the index `base` on, in the order their
headers stand. -/
def procedures (base : Nat) : Block → List Procedure
  | nil => []
  | plain _ rest => rest.procedures (base + 1)
  | branch _ body rest =>
    body.procedures (base + 1) ++ rest.procedures (base + body.size + 2)
  | choice _ body alternative rest =>
    body.procedures (base + 1) ++ (alternative.procedures (base + body.size + 2) ++
      rest.procedures (base + body.size + alternative.size + 3))
  | loop _ header body rest =>
    header.procedures (base + 1) ++ (body.procedures (base + header.size + 2) ++
      rest.procedures (base + header.size + body.size + 3))
  | procedure sig body rest =>
    { start := base + 1, stop := base + body.size + 1, signature := sig } ::
      (body.procedures (base + 1) ++ rest.procedures (base + body.size + 2))

/-- The linked program of a block. -/
def program (b : Block) : Program where
  instructions := (b.instructions 0).toArray
  procedures := b.procedures 0

@[simp] theorem length_tokens (b : Block) : b.tokens.length = b.size := by
  induction b with
  | nil => rfl
  | plain t rest ih => simp [tokens, size, ih]
  | branch k body rest ihb ihr => simp [tokens, size, ihb, ihr]; omega
  | choice k body alternative rest ihb iha ihr => simp [tokens, size, ihb, iha, ihr]; omega
  | loop k header body rest ihh ihb ihr => simp [tokens, size, ihh, ihb, ihr]; omega
  | procedure sig body rest ihb ihr => simp [tokens, size, ihb, ihr]; omega

@[simp] theorem length_instructions (base : Nat) (b : Block) :
    (b.instructions base).length = b.size := by
  induction b generalizing base with
  | nil => rfl
  | plain t rest ih => simp [instructions, size, ih]
  | branch k body rest ihb ihr => simp [instructions, size, ihb, ihr]; omega
  | choice k body alternative rest ihb iha ihr => simp [instructions, size, ihb, iha, ihr]; omega
  | loop k header body rest ihh ihb ihr => simp [instructions, size, ihh, ihb, ihr]; omega
  | procedure sig body rest ihb ihr => simp [instructions, size, ihb, ihr]; omega

/-- Laying a block out keeps its tokens. -/
theorem map_token_instructions (base : Nat) (b : Block) :
    (b.instructions base).map Instr.token = b.tokens := by
  induction b generalizing base with
  | nil => rfl
  | plain t rest ih => simp [instructions, tokens, ih]
  | branch k body rest ihb ihr => simp [instructions, tokens, ihb, ihr]
  | choice k body alternative rest ihb iha ihr => simp [instructions, tokens, ihb, iha, ihr]
  | loop k header body rest ihh ihb ihr => simp [instructions, tokens, ihh, ihb, ihr]
  | procedure sig body rest ihb ihr => simp [instructions, tokens, ihb, ihr]

end Block

end Chore
