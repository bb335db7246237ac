import Chore.Host
import Chore.Proofs.Machine.Yields

/-!
# Tool words on files

What a tool word does where its operands are on top of the stack and files are the outside world: it
pushes a value (`Pushes`), changes the files as well (`Does`), or stops the program (`Stops`). Each is
told from what the word yields.
-/

set_option autoImplicit false

namespace Chore.Machine

open File (Files)

/-- The machine is at a tool word, with its operands on top of a stack with room for a result, and
files in the outside world. -/
structure AtTool (c : Setup (World Files)) (w : Tool) (operands rest : List Value) (f : Files)
    (s : State (World Files)) (instr : Instr) : Prop where
  token : instr.token = .word (.tool w)
  stack : s.store.stack.toList = operands ++ rest
  room : rest.length < c.limit
  files : s.store.world.tools = f

/-- A tool word replaces its operands by a value and changes nothing else. -/
def Pushes (c : Setup (World Files)) (w : Tool) (operands : List Value) (f : Files) (v : Value) :
    Prop :=
  ∀ s instr rest, AtTool c w operands rest f s instr →
    s.follow c instr = .ok
      { ip := s.ip + 1
        counter := s.counter + 1
        store := { s.store with stack := .ofList (v :: rest) } }

/-- A tool word replaces its operands by a value and the files by others, and changes nothing
else. -/
def Does (c : Setup (World Files)) (w : Tool) (operands : List Value) (f : Files) (v : Value)
    (f' : Files) : Prop :=
  ∀ s instr rest, AtTool c w operands rest f s instr →
    s.follow c instr = .ok
      { ip := s.ip + 1
        counter := s.counter + 1
        store := { s.store with
          stack := .ofList (v :: rest)
          world := { s.store.world with tools := f' } } }

/-- A tool word stops the program. -/
def Stops (c : Setup (World Files)) (w : Tool) (operands : List Value) (f : Files) (fault : Fault) :
    Prop :=
  ∀ s instr rest, AtTool c w operands rest f s instr → s.follow c instr = .error fault

section

variable {c : Setup (World Files)} {w : Tool} {operands rest : List Value} {f : Files}
  {s : State (World Files)} {instr : Instr} {v : Value}

theorem AtTool.performs (here : AtTool c w operands rest f s instr) :
    perform c instr = andNext (tool c w) := by
  simp only [perform_eq, here.token, word_eq]

/-- A tool word that pushes a value, told from its action. -/
theorem pushes_of_yields
    (h : ∀ (st : Store (World Files)) (rest : List Value), st.stack.toList = operands ++ rest →
      rest.length < c.limit → st.world.tools = f →
      Yields (tool c w) st (.ok ()) { st with stack := .ofList (v :: rest) }) :
    Pushes c w operands f v := fun s _ rest here =>
  follow_of_yields_next here.performs (h s.store rest here.stack here.room here.files)

/-- A tool word that changes the files, told from its action. -/
theorem does_of_yields {f' : Files}
    (h : ∀ (st : Store (World Files)) (rest : List Value), st.stack.toList = operands ++ rest →
      rest.length < c.limit → st.world.tools = f →
      Yields (tool c w) st (.ok ())
        { st with stack := .ofList (v :: rest), world := { st.world with tools := f' } }) :
    Does c w operands f v f' := fun s _ rest here =>
  follow_of_yields_next here.performs (h s.store rest here.stack here.room here.files)

/-- A tool word that stops the program, told from its action. -/
theorem stops_of_yields {fault : Fault}
    (h : ∀ (st : Store (World Files)) (rest : List Value), st.stack.toList = operands ++ rest →
      st.world.tools = f → ∃ st', Yields (tool c w) st (.error fault) st') :
    Stops c w operands f fault := by
  intro s instr rest here
  obtain ⟨st', fails⟩ := h s.store rest here.stack here.files
  exact follow_of_yields_next here.performs fails

end

end Chore.Machine
