import Chore.CommandLine
import Chore.File.Change

/-!
# The command on a disk

The command works on a picture of the disk: everything below the current directory, and the
program file. The picture is taken before the command starts, and what the command changed in it
is done on the disk afterwards. Links and special files are not in the picture. There is no
network, so every download fails.
-/

set_option autoImplicit false

namespace Chore.Disk

open File

/-- The path of a place. -/
def pathOf (p : Place) : String :=
  Path.ofParts true p

/-- Everything below a directory, each directory in front of what it holds. -/
partial def entriesBelow (dir : Place) : IO (List (Place × Node)) := do
  let mut entries := []
  for entry in ← (← IO.FS.realPath (pathOf dir)).readDir do
    let p := dir ++ [entry.fileName]
    match (← entry.path.symlinkMetadata).type with
    | .dir => entries := (p, .dir) :: (← entriesBelow p) ++ entries
    | .file => entries := (p, .file (← IO.FS.readBinFile entry.path)) :: entries
    | _ => pure ()
  return entries

/-- Adds the program file that the arguments name, if it is there. -/
def addProgram (args : List String) (t : Tree) : IO Tree := do
  match CommandLine.Options.ofArguments args with
  | .error _ => return t
  | .ok options =>
    try
      let p := Path.parts (← IO.FS.realPath options.file).toString
      let bytes ← IO.FS.readBinFile options.file
      return (t.putWay p.dropLast).put p (.file bytes)
    catch _ => return t

/-- The picture of the disk. -/
def picture (args : List String) : IO Files := do
  let here := Path.parts (← IO.currentDir).toString
  let tree := (Tree.empty.putWay here).putAll (← entriesBelow here)
  return { tree := ← addProgram args tree, here }

/-- Does one step on the disk. -/
def apply : Change → IO Unit
  | .removeFile p => IO.FS.removeFile (pathOf p)
  | .removeDir p => IO.FS.removeDir (pathOf p)
  | .makeDir p => IO.FS.createDir (pathOf p)
  | .writeFile p bytes => IO.FS.writeBinFile (pathOf p) bytes

/-- The environment, as far as settings need it. -/
def environment : IO (String → Option String) := do
  let found ← Settings.keys.mapM fun key => return (key, ← IO.getEnv key)
  return fun key => (found.lookup key).join

/-- The command on the disk: prints its output and messages, and gives its exit code. -/
def command (args : List String) : IO UInt32 := do
  let before ← picture args
  let network : Network := {
    fetch := fun url => .error s!"{url}: no network"
    refusal? := Network.usualRefusal? }
  let (report, after) := CommandLine.execute network (← environment) args before
  (before.tree.changes after.tree).forM apply
  IO.print report.output
  IO.eprint report.errors
  return report.code.toUInt32

end Chore.Disk

/-- The program. -/
def main (args : List String) : IO UInt32 :=
  Chore.Disk.command args
