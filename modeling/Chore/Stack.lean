/-!
# Stacks of known size

A list with its length beside it, so that a size limit is checked without counting. `toList` is
the view: two stacks with the same list are equal (`Stack.ext`), and every operation is stated
through it.
-/

set_option autoImplicit false

namespace Chore

/-- A stack: its elements, top first, and how many they are. -/
structure Stack (α : Type) where
  toList : List α
  size : Nat
  size_eq : size = toList.length

namespace Stack

variable {α : Type}

/-- The stack without elements. -/
def empty : Stack α :=
  ⟨[], 0, rfl⟩

/-- Puts an element on top. -/
def push (s : Stack α) (a : α) : Stack α :=
  ⟨a :: s.toList, s.size + 1, by simp [s.size_eq]⟩

/-- The top element and the stack below it. -/
def pop? (s : Stack α) : Option (α × Stack α) :=
  match h : s.toList with
  | [] => none
  | a :: rest => some (a, ⟨rest, s.size - 1, by simp [s.size_eq, h]⟩)

/-- The element at a depth; the top is at depth zero. -/
def peek? (s : Stack α) (depth : Nat) : Option α :=
  s.toList[depth]?

/-- The stack of a list, top first. -/
def ofList (xs : List α) : Stack α :=
  ⟨xs, xs.length, rfl⟩

@[ext] theorem ext {s t : Stack α} (h : s.toList = t.toList) : s = t := by
  cases s with
  | mk xs n hn =>
    cases t with
    | mk ys m hm =>
      obtain rfl : xs = ys := h
      obtain rfl : n = m := hn.trans hm.symm
      rfl

@[simp] theorem toList_empty : (empty : Stack α).toList = [] := rfl

@[simp] theorem size_empty : (empty : Stack α).size = 0 := rfl

@[simp] theorem toList_push (s : Stack α) (a : α) : (s.push a).toList = a :: s.toList := rfl

@[simp] theorem size_push (s : Stack α) (a : α) : (s.push a).size = s.size + 1 := rfl

@[simp] theorem toList_ofList (xs : List α) : (ofList xs).toList = xs := rfl

@[simp] theorem ofList_toList (s : Stack α) : ofList s.toList = s := ext rfl

@[simp] theorem pop?_empty : (empty : Stack α).pop? = none := rfl

@[simp] theorem pop?_push (s : Stack α) (a : α) : (s.push a).pop? = some (a, s) := by
  simp only [pop?, toList_push]
  exact congrArg (fun t => some (a, t)) (ext rfl)

theorem pop?_eq_none_iff {s : Stack α} : s.pop? = none ↔ s.toList = [] := by
  obtain ⟨xs, n, hn⟩ := s
  cases xs <;> simp [pop?]

theorem pop?_eq_some_iff {s t : Stack α} {a : α} :
    s.pop? = some (a, t) ↔ s.toList = a :: t.toList := by
  obtain ⟨xs, n, hn⟩ := s
  cases xs with
  | nil => simp [pop?]
  | cons b rest =>
    simp only [pop?, Option.some.injEq, Prod.mk.injEq, List.cons.injEq]
    constructor
    · rintro ⟨rfl, rfl⟩
      exact ⟨rfl, rfl⟩
    · rintro ⟨rfl, h⟩
      exact ⟨rfl, ext h⟩

end Stack

end Chore
