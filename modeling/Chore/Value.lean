import Chore.Text.Decimal

/-!
# Values and their kinds

A value on the stack is a signed 64-bit integer, a text, or a path: a text that names a file or a
directory. A `Kind` is what the type check knows of a value. Only integers and texts can be used
as a condition.
-/

set_option autoImplicit false

namespace Chore

/-- What a value is, as the type check sees it. -/
inductive Kind where
  | int
  | text
  | path
  deriving DecidableEq

namespace Kind

/-- The name of a kind in messages. -/
def name : Kind → String
  | int => "int"
  | text => "string"
  | path => "path"

/-- Reads a kind as written in a procedure header; texts have two names there. -/
def ofName? (s : String) : Option Kind :=
  if s = "int" then some int
  else if s = "str" ∨ s = "string" then some text
  else if s = "path" then some path
  else none

/-- A list of kinds in messages, bottom of the stack first. -/
def showList (kinds : List Kind) : String :=
  "[" ++ " ".intercalate (kinds.map name) ++ "]"

theorem ofName?_name (k : Kind) : ofName? k.name = some k := by
  cases k <;> decide

end Kind

/-- A value on the stack. -/
inductive Value where
  | int (n : Int64)
  | text (s : String)
  | path (p : String)
  deriving DecidableEq

namespace Value

/-- The kind of a value. -/
def kind : Value → Kind
  | int _ => .int
  | text _ => .text
  | path _ => .path

/-- How a value counts as a condition: an integer unless zero, a text unless empty. A path is no
condition. -/
def truthy : Value → Option Bool
  | int n => some (n ≠ 0)
  | text s => some (s ≠ "")
  | path _ => none

/-- The integer for a truth value. -/
def ofBool (b : Bool) : Value :=
  int (if b then 1 else 0)

/-- A value as it is printed. -/
def display : Value → String
  | int n => Text.showInt n
  | text s => s
  | path p => p

@[simp] theorem kind_ofBool (b : Bool) : (ofBool b).kind = .int := rfl

/-- A value can be a condition exactly when it is no path. -/
theorem truthy_isSome (v : Value) : v.truthy.isSome = decide (v.kind ≠ .path) := by
  cases v <;> rfl

end Value

end Chore
