import Chore.Proofs.Block.Layout
import Chore.Proofs.Machine.Locality

/-!
# Running blocks directly

`Block.exec` runs a block by recursion on its structure, without instructions, jump targets or
return addresses: a branch runs one arm, a loop runs its header and then its body again and again,
a declaration is skipped, and a name runs the body declared under it. How a block ends is an
`Outcome`: at its end, by a return, which leaves the innermost body, by `exit`, which leaves
everything, or at a fault.

The fuel bounds the recursion, and a run that needs more has no outcome. Positions are carried along
only to say where a fault happened, the depth only because pending calls count against the limit on
stacks.
-/

set_option autoImplicit false

namespace Chore

open Machine

variable {ω α : Type}

/-- What a program works on: the stack, the variables and the outside world. -/
structure Data (ω : Type) where
  stack : Stack Value := .empty
  memory : Memory := {}
  world : ω

namespace Data

/-- The machine's store for some data, with some pending returns. -/
def store (d : Data ω) (calls : Stack Nat) : Store ω :=
  { stack := d.stack, calls, memory := d.memory, world := d.world }

/-- Does a part of an instruction on data. -/
def does (d : Data ω) (m : Action ω α) : Except Fault α × Data ω :=
  let (outcome, scene) := m { d.store .empty with }
  (outcome, ⟨scene.stack, scene.memory, scene.world⟩)

end Data

/-- The data of a store. -/
def Machine.Store.data (s : Store ω) : Data ω :=
  ⟨s.stack, s.memory, s.world⟩

/-- What a word that leaves a procedure does to the stack. -/
def Machine.unwind (c : Setup ω) : Leave → Action ω Unit
  | .ret => pure ()
  | .dropRet => do
    let drop ← popCount (.leave .dropRet)
    let _ ← popMany drop
  | .keepRet => do
    let drop ← popCount (.leave .keepRet)
    let keep ← popCount (.leave .keepRet)
    let kept ← popMany keep
    let _ ← popMany drop
    pushAll c kept.reverse
  | .exit => pure ()

namespace Block

/-- How a block ended. -/
inductive Outcome (ω : Type) where
  | done (d : Data ω)
  | returned (d : Data ω)
  | exited (d : Data ω)
  | failed (index : Nat) (token : Token) (fault : Fault) (d : Data ω)

/-- A body that returned is left like one that ran to its end. -/
def Outcome.ofBody : Outcome ω → Outcome ω
  | returned d => done d
  | o => o

/-- Goes on behind a block that ran to its end. -/
def andThen (first : Option (Outcome ω)) (next : Data ω → Option (Outcome ω)) :
    Option (Outcome ω) :=
  match first with
  | some (.done d) => next d
  | o => o

/-- What blocks are run in: the outside world's answers, the limit on stacks, and the declared
procedures. -/
structure Scope (ω : Type) where
  host : Host ω
  limit : Nat
  find? : String → Option Declaration

namespace Scope

/-- The setup of words that only work on values. There is no program around them. -/
def setup (e : Scope ω) : Setup ω :=
  { program := nil.program, host := e.host, limit := e.limit }

/-- A token that only works on values. -/
def work (e : Scope ω) (index : Nat) (t : Token) (d : Data ω) : Outcome ω :=
  match d.does (perform e.setup { token := t }) with
  | (.ok _, d) => .done d
  | (.error fault, d) => .failed index t fault d

/-- A word that leaves a procedure, or the program, below so many pending calls. -/
def leave (e : Scope ω) (depth index : Nat) (l : Leave) (d : Data ω) : Outcome ω :=
  match d.does (unwind e.setup l) with
  | (.error fault, d) => .failed index (.word (.leave l)) fault d
  | (.ok (), d) =>
    if l = .exit then .exited d
    else if depth = 0 then .failed index (.word (.leave l)) .emptyCallStack d
    else .returned d

end Scope

/-- Takes the condition of a branch or a loop, and goes on with it. -/
def condition (index : Nat) (m : Mark) (d : Data ω) (next : Bool → Data ω → Option (Outcome ω)) :
    Option (Outcome ω) :=
  match d.does (popCondition (.mark m)) with
  | (.ok b, d) => next b d
  | (.error fault, d) => some (.failed index m.token fault d)

/-- Runs a block that stands at a position, below so many pending calls. The first number is the
fuel. -/
def exec (e : Scope ω) : Nat → Nat → Block → Nat → Data ω → Option (Outcome ω)
  | 0, _, _, _, _ => none
  | fuel + 1, depth, b, base, d =>
    match b with
    | nil => some (.done d)
    | plain t rest =>
      match t with
      | .name name =>
        match e.find? name with
        | none => some (.failed base (.name name) (.unknownOperator name) d)
        | some p =>
          if depth < e.limit then
            andThen ((exec e fuel (depth + 1) p.body p.start d).map .ofBody)
              (exec e fuel depth rest (base + 1))
          else some (.failed base (.name name) .pushFailed d)
      | .word (.leave l) => some (e.leave depth base l d)
      | t => andThen (some (e.work base t d)) (exec e fuel depth rest (base + 1))
    | branch k body rest =>
      condition base k.mark d fun b d =>
        andThen (if b = k.enters then exec e fuel depth body (base + 1) d else some (.done d))
          (exec e fuel depth rest (base + body.size + 2))
    | choice k body alternative rest =>
      condition base k.mark d fun b d =>
        andThen (if b = k.enters then exec e fuel depth body (base + 1) d
            else exec e fuel depth alternative (base + body.size + 2) d)
          (exec e fuel depth rest (base + body.size + alternative.size + 3))
    | loop k header body rest =>
      andThen (exec e fuel depth header (base + 1) d) fun d =>
        condition (base + header.size + 1) .test d fun b d =>
          if b = k.goesOn then
            andThen (exec e fuel depth body (base + header.size + 2) d)
              (exec e fuel depth (loop k header body rest) base)
          else exec e fuel depth rest (base + header.size + body.size + 3) d
    | procedure _ body rest => exec e fuel depth rest (base + body.size + 2) d

/-- The procedure a block declares under a name. -/
def declaration? (b : Block) (name : String) : Option Declaration :=
  (b.declarations 0).find? fun d => d.signature.name == name

/-- Runs a program given as a block, from its start in a world. -/
def interpret (b : Block) (host : Host ω) (limit fuel : Nat) (world : ω) : Option (Outcome ω) :=
  b.exec { host, limit, find? := b.declaration? } fuel 0 0 { world }

theorem exec_name (e : Scope ω) (fuel depth : Nat) (name : String) (rest : Block) (base : Nat)
    (d : Data ω) :
    exec e (fuel + 1) depth (plain (.name name) rest) base d =
      match e.find? name with
      | none => some (.failed base (.name name) (.unknownOperator name) d)
      | some p =>
        if depth < e.limit then
          andThen ((exec e fuel (depth + 1) p.body p.start d).map .ofBody)
            (exec e fuel depth rest (base + 1))
        else some (.failed base (.name name) .pushFailed d) := rfl

theorem exec_other (e : Scope ω) (fuel depth : Nat) {t : Token} (call : ∀ name, t ≠ .name name)
    (leaves : ∀ l, t ≠ .word (.leave l)) (rest : Block) (base : Nat) (d : Data ω) :
    exec e (fuel + 1) depth (plain t rest) base d =
      andThen (some (e.work base t d)) (exec e fuel depth rest (base + 1)) := by
  rw [exec]
  · exact call
  · exact leaves

end Block

end Chore
