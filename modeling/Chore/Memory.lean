import Std.Data.TreeMap
import Chore.Value

/-!
# Named variables

The global variables of a running program: a finite map from names to values. Storing under a
name replaces what was there.
-/

set_option autoImplicit false

namespace Chore

/-- The variables of a running program. -/
structure Memory where
  cells : Std.TreeMap String Value := {}

namespace Memory

/-- Sets a variable, whatever it held. -/
def store (m : Memory) (name : String) (v : Value) : Memory :=
  ⟨m.cells.insert name v⟩

/-- The value of a variable. -/
def load (m : Memory) (name : String) : Option Value :=
  m.cells[name]?

/-- The number of variables. -/
def size (m : Memory) : Nat :=
  m.cells.size

/-- Whether no variable is set. -/
def isEmpty (m : Memory) : Bool :=
  m.cells.isEmpty

theorem load_store (m : Memory) (name other : String) (v : Value) :
    (m.store name v).load other = if name = other then some v else m.load other := by
  simp only [load, store, Std.TreeMap.getElem?_insert, Std.compare_eq_iff_eq]

end Memory

end Chore
