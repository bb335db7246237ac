import Chore.File.Tree

/-!
# Changes of a file tree

The single steps that lead from one tree to another. What is gone is removed first, from the
inside out; then directories are made and files written, from the outside in. What is the same in
both trees is left alone.
-/

set_option autoImplicit false

namespace Chore.File

/-- One step on a file tree. -/
inductive Change where
  | removeFile (p : Place)
  | removeDir (p : Place)
  | makeDir (p : Place)
  | writeFile (p : Place) (bytes : ByteArray)

namespace Tree

/-- The step that takes a node away, if another tree has nothing of its kind there. -/
def removal? (new : Tree) (e : Place × Node) : Option Change :=
  match e.2, new.node? e.1 with
  | .dir, some .dir => none
  | .dir, _ => some (.removeDir e.1)
  | .file _, some (.file _) => none
  | .file _, _ => some (.removeFile e.1)

/-- The step that brings a node, if another tree does not have it there. -/
def creation? (old : Tree) (e : Place × Node) : Option Change :=
  if old.node? e.1 = some e.2 then none
  else
    match e.2 with
    | .dir => some (.makeDir e.1)
    | .file bytes => some (.writeFile e.1 bytes)

/-- The steps from one tree to another. -/
def changes (old new : Tree) : List Change :=
  let inward := old.entries.mergeSort fun a b => a.1.length ≥ b.1.length
  let outward := new.entries.mergeSort fun a b => a.1.length ≤ b.1.length
  inward.filterMap new.removal? ++ outward.filterMap old.creation?

end Tree

end Chore.File
