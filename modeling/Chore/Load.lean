import Chore.Block.Builder
import Chore.Journal
import Chore.Token.Reader
import Chore.Typing.Check

/-!
# Loading a program

`load` takes a source text to a linked program: its tokens are read, linked and type checked, and
the first stage that fails gives the error. `loadNoting` also keeps the journal of the work.
-/

set_option autoImplicit false

namespace Chore

/-- Why a source text could not be loaded. -/
inductive LoadError where
  | parse (e : ParseError)
  | link (e : LinkError)
  | typing (e : TypeError)
  deriving DecidableEq

/-- The wording of a load error. -/
def LoadError.message : LoadError → String
  | parse e => s!"Parse error: {e.message}"
  | link e => s!"Link error: {e.message}"
  | typing e => s!"Type error: {e.message}"

/-- The wording of the error of the stage that failed. -/
def LoadError.cause : LoadError → String
  | parse e => e.message
  | link e => e.message
  | typing e => e.message

/-- Type checks a program and notes the procedures looked at, latest note first. -/
def checkNoting (program : Program) : Attempt (List Note) TypeError Unit := fun notes =>
  let (outcome, seen) := Typing.checkSeeing program []
  let note (p : Procedure) : Note :=
    .debug "checking procedure" [("name", p.name), ("start", Text.showNat p.start),
      ("end", Text.showNat p.stop)]
  let first : Note :=
    .debug "type checking" [("instructions", Text.showNat program.size),
      ("procedures", Text.showNat program.procedures.length)]
  (outcome, seen.map note ++ first :: notes)

/-- Adds a note to a journal, latest first. -/
def addNote {ε : Type} (n : Note) : Attempt (List Note) ε Unit :=
  .modify (n :: ·)

/-- Loads a program and keeps the journal, latest note first. -/
def loadNoting (source : String) : Attempt (List Note) LoadError Program := do
  let tokens ← .ofExcept ((Token.ofSource source).mapError .parse)
  addNote (.debug "parsed" [("tokens", Text.showNat tokens.length)])
  let program ← .ofExcept ((Program.ofTokens tokens).mapError .link)
  addNote (.debug "linked" [("procedures", Text.showNat program.procedures.length)])
  (checkNoting program).mapError .typing
  addNote (.debug "checked" [])
  return program

/-- Loads a program. -/
def load (source : String) : Except LoadError Program := do
  let tokens ← (Token.ofSource source).mapError .parse
  let program ← (Program.ofTokens tokens).mapError .link
  (Typing.check program).mapError .typing
  return program

@[simp] theorem checkNoting_fst (program : Program) (notes : List Note) :
    (checkNoting program notes).1 = Typing.check program := rfl

theorem mapError_ok {ε δ α : Type} (f : ε → δ) (a : α) :
    (Except.ok a : Except ε α).mapError f = .ok a := rfl

/-- The journal is kept beside the work and does not change it. -/
theorem loadNoting_fst (source : String) (notes : List Note) :
    (loadNoting source notes).1 = load source := by
  unfold loadNoting load
  simp only [Attempt.bind_apply, Attempt.ofExcept_apply, addNote, Attempt.modify_apply]
  cases Token.ofSource source with
  | error e => rfl
  | ok tokens =>
    simp only [mapError_ok, bind, Except.bind]
    cases Program.ofTokens tokens with
    | error e => rfl
    | ok program =>
      simp only [Attempt.mapError_apply, checkNoting_fst, mapError_ok]
      cases Typing.check program with
      | error e => rfl
      | ok u => rfl

end Chore
