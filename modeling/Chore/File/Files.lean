import Chore.Attempt
import Chore.File.Path
import Chore.File.Tree

/-!
# File operations

A file tree with a current directory, and the operations on it by path. A path is followed segment
by segment: every segment but the last must lead to a directory, a trailing slash asks for one, two
dots go up, and names have at most 255 bytes. There are no symbolic links, so a place has one parent;
but a file may be at several places.

Operations are attempts: one that fails half-way leaves what it did so far. What the system lets
happen is up to its rules: it may refuse to make, to write and to remove what is at a place, and a
write may be cut short. Following paths and reading are never refused.

The current directory follows its directory when that is moved; once the directory is removed, paths
that start there lead nowhere. The entries of a directory are read in an order of their own, which
comes with the files.
-/

set_option autoImplicit false

namespace Chore.File

/-- Why a file operation failed. -/
inductive FileError where
  | notFound
  | alreadyExists
  | notDirectory
  | isDirectory
  | notEmpty
  | invalidArgument
  | busy
  | nameTooLong
  | nulInPath
  | notText
  | notRegular
  | noRoot
  | refused (reason : String)
  deriving DecidableEq

/-- The wording of a file error. -/
def FileError.message : FileError → String
  | notFound => "No such file or directory (os error 2)"
  | alreadyExists => "File exists (os error 17)"
  | notDirectory => "Not a directory (os error 20)"
  | isDirectory => "Is a directory (os error 21)"
  | notEmpty => "Directory not empty (os error 39)"
  | invalidArgument => "Invalid argument (os error 22)"
  | busy => "Device or resource busy (os error 16)"
  | nameTooLong => "File name too long (os error 36)"
  | nulInPath => "file name contained an unexpected NUL byte"
  | notText => "stream did not contain valid UTF-8"
  | notRegular => "the source path is neither a regular file nor a symlink to a regular file"
  | noRoot => "failed to create whole tree"
  | refused reason => reason

/-- The order in which the entries of a directory are read: by the directory and what is in it. -/
structure ReadingOrder where
  arrange : Place → List (String × Node) → List (String × Node)
  perm : ∀ p entries, (arrange p entries).Perm entries

/-- Entries are read by name. -/
def ReadingOrder.byName : ReadingOrder where
  arrange _ entries := entries
  perm _ entries := .refl entries

/-- What may be refused at a place: to make a file or a directory where nothing is, to open a file
for writing, and to take away what is there. -/
inductive Access where
  | make
  | write
  | remove
  deriving DecidableEq

/-- The rules of a file system: what it refuses, and for what reason; and which writes behind a file it
cuts short, after how many bytes and for what reason. -/
structure Rules where
  refuses : Tree → Access → Place → Option String
  cuts : Tree → Place → ByteArray → Option (Nat × String)

/-- Nothing is refused. -/
def Rules.free : Rules where
  refuses _ _ _ := none
  cuts _ _ _ := none

/-- Files, where the current directory is, or was before it was removed, the order in which
directories are read, and the rules of the system. -/
structure Files where
  tree : Tree := .empty
  here : Place := []
  attached : Bool := true
  order : ReadingOrder := .byName
  rules : Rules := .free

/-- An operation on files. -/
abbrev FileAction (α : Type) : Type :=
  Attempt Files FileError α

/-- Where a path leads: a place, or a directory that was at a place before it was removed. -/
inductive Spot where
  | inside (p : Place)
  | adrift (p : Place)
  deriving DecidableEq

/-- The longest path that is followed, in bytes. -/
def maxPath : Nat := 4095

namespace Files

/-- Whether there is a directory at a place. -/
def hasDir (f : Files) (p : Place) : Bool :=
  f.tree.node? p = some .dir

/-- Goes from a spot along one segment. -/
def enter (f : Files) (spot : Spot) (segment : String) : Except FileError Spot :=
  match spot with
  | .adrift p =>
    if Path.isIdle segment then .ok (.adrift p)
    else if segment = ".." then
      .ok (if f.hasDir p.dropLast then .inside p.dropLast else .adrift p.dropLast)
    else .error .notFound
  | .inside p =>
    if !f.hasDir p then .error .notDirectory
    else if Path.isIdle segment then .ok (.inside p)
    else if segment = ".." then .ok (.inside p.dropLast)
    else if maxName < segment.utf8ByteSize then .error .nameTooLong
    else if (f.tree.node? (p ++ [segment])).isSome then .ok (.inside (p ++ [segment]))
    else .error .notFound

/-- Goes from a spot along segments. -/
def follow (f : Files) : Spot → List String → Except FileError Spot
  | spot, [] => .ok spot
  | spot, segment :: segments => do
    let next ← f.enter spot segment
    follow f next segments

/-- A path holds no NUL. -/
def withoutNul (path : String) : Except FileError Unit :=
  if path.toList.contains '\x00' then .error .nulInPath else .ok ()

/-- Whether a text can be a path at all. -/
def usable (path : String) : Except FileError Unit := do
  withoutNul path
  if path = "" then .error .notFound
  else if maxPath < path.utf8ByteSize then .error .nameTooLong

/-- Whether the current directory is there. -/
def stands (f : Files) : Bool :=
  f.attached && f.hasDir f.here

/-- Where a path starts, and its segments from there. -/
def start (f : Files) (path : String) : Spot × List String :=
  if Path.isAbsolute path then (.inside [], (Path.segments path).tail)
  else (if f.stands then .inside f.here else .adrift f.here, Path.segments path)

/-- Where a path leads. -/
def resolve (f : Files) (path : String) : Except FileError Spot := do
  usable path
  let (spot, segments) := f.start path
  f.follow spot segments

/-- The last step of a path: to a name, written with a slash behind it or not; or to no name, as
with dots and the root. -/
inductive LastStep where
  | name (name : String) (slash : Bool)
  | dot
  | dots
  | root
  deriving DecidableEq

/-- The directory a path leads to before its last step, and that step. -/
def resolveParent (f : Files) (path : String) : Except FileError (Spot × LastStep) := do
  usable path
  let (spot, segments) := f.start path
  match segments.reverse.dropWhile (· = "") with
  | [] => return (spot, .root)
  | last :: front =>
    let parent ← f.follow spot front.reverse
    let parent ← f.enter parent "."
    if last = "." then return (parent, .dot)
    else if last = ".." then return (parent, .dots)
    else return (parent, .name last (segments.getLast? = some ""))

/-- The place of a name in a directory that is there. -/
def placeOf (parent : Spot) (name : String) : Except FileError Place :=
  match parent with
  | .adrift _ => .error .notFound
  | .inside p => if maxName < name.utf8ByteSize then .error .nameTooLong else .ok (p ++ [name])

/-- Whether a path leads anywhere. -/
def pathExists (f : Files) (path : String) : Bool :=
  (f.resolve path).isOk

/-- Whether a path leads to a directory. -/
def isDir (f : Files) (path : String) : Bool :=
  match f.resolve path with
  | .ok (.inside p) => f.hasDir p
  | .ok (.adrift _) => true
  | .error _ => false

/-- The place of the file a path leads to. -/
def fileAt (f : Files) (path : String) : Except FileError Place := do
  match ← f.resolve path with
  | .adrift _ => .error .isDirectory
  | .inside p =>
    match f.tree.node? p with
    | some (.file _) => .ok p
    | some .dir => .error .isDirectory
    | none => .error .notFound

/-- The bytes of the file at a place. -/
def contents (f : Files) (p : Place) : ByteArray :=
  match f.tree.node? p with
  | some (.file bytes) => bytes
  | _ => .empty

/-- The bytes of the file a path leads to. -/
def bytesAt (f : Files) (path : String) : Except FileError ByteArray := do
  return f.contents (← f.fileAt path)

/-- The text of the file a path leads to. -/
def textAt (f : Files) (path : String) : Except FileError String := do
  match String.fromUTF8? (← f.bytesAt path) with
  | some text => .ok text
  | none => .error .notText

/-- The names and nodes in the directory a path leads to, in the order they are read. -/
def childrenAt (f : Files) (path : String) : Except FileError (List (String × Node)) := do
  match ← f.resolve path with
  | .adrift _ => .ok []
  | .inside p =>
    if f.hasDir p then .ok (f.order.arrange p (f.tree.children p)) else .error .notDirectory

/-- Names of the directories, or of everything else, in the directory a path leads to, in
increasing order. -/
def namesAt (f : Files) (dirs : Bool) (path : String) : Except FileError (List String) := do
  let children ← f.childrenAt path
  let names := (children.filter fun e => decide (e.2 = .dir) == dirs).map (·.1)
  return names.mergeSort

/-- Whether the rules allow something at a place. -/
def allowed (f : Files) (access : Access) (p : Place) : Except FileError Unit :=
  match f.rules.refuses f.tree access p with
  | none => .ok ()
  | some reason => .error (.refused reason)

/-- Whether a file can be opened for writing at a place, or made if there is none. -/
def openable (f : Files) (p : Place) : Except FileError Unit :=
  f.allowed (if (f.tree.node? p).isSome then .write else .make) p

/-- Changes the tree; a current directory that is gone stays gone. -/
def setTree (f : Files) (tree : Tree) : Files :=
  { f with tree, attached := f.attached && tree.node? f.here = some .dir }

end Files

/-- An outcome that depends on the files and does not change them. -/
def look {α : Type} (g : Files → Except FileError α) : FileAction α :=
  fun f => (g f, f)

/-- Puts a node at a place. -/
def put (p : Place) (n : Node) : FileAction Unit :=
  .modify fun f => f.setTree (f.tree.put p n)

/-- Makes a directory in one that is there. -/
def makeDir (path : String) : FileAction Unit := do
  match ← look fun f => f.resolveParent path with
  | (parent, .name name _) =>
    let p ← .ofExcept (Files.placeOf parent name)
    if ((← .get).tree.node? p).isSome then .fail .alreadyExists
    else
      look fun f => f.allowed .make p
      put p .dir
  | _ => .fail .alreadyExists

/-- Makes a directory whose ancestors are given, innermost first, and those ancestors that are
missing. -/
def makeDirs : List String → FileAction Unit
  | [] => .fail .noRoot
  | path :: ancestors => do
    if path = "" then return
    match ← (makeDir path).outcome with
    | .ok () => return
    | .error .notFound =>
      makeDirs ancestors
      match ← (makeDir path).outcome with
      | .ok () => return
      | .error e => if (← .get).isDir path then return else .fail e
    | .error e => if (← .get).isDir path then return else .fail e

/-- Makes a directory and whatever is missing of the path to it. -/
def makeDirAll (path : String) : FileAction Unit :=
  makeDirs (Path.ancestors path)

/-- The place a file to be written has: there must be no directory. -/
def placeForFile (path : String) : FileAction Place := do
  match ← look fun f => f.resolveParent path with
  | (parent, .name name false) =>
    let p ← .ofExcept (Files.placeOf parent name)
    if (← .get).hasDir p then .fail .isDirectory else return p
  | _ => .fail .isDirectory

/-- Makes an empty file, or empties the one that is there, and gives its place. -/
def create (path : String) : FileAction Place := do
  let p ← placeForFile path
  look fun f => f.openable p
  put p (.file .empty)
  return p

/-- Writes behind what the file at a place holds, as far as that goes. -/
def append (p : Place) (bytes : ByteArray) : FileAction Unit := do
  let f ← .get
  match f.rules.cuts f.tree p bytes with
  | none => put p (.file (f.contents p ++ bytes))
  | some (n, reason) =>
    put p (.file (f.contents p ++ bytes.extract 0 n))
    .fail (.refused reason)

/-- Writes a file, whatever it held. -/
def writeBytes (path : String) (bytes : ByteArray) : FileAction Unit := do
  append (← create path) bytes

/-- Makes an empty file unless there is one. -/
def touch (path : String) : FileAction Unit := do
  let p ← placeForFile path
  look fun f => f.openable p
  if ((← .get).tree.node? p).isSome then return else put p (.file .empty)

/-- Removes a file. -/
def unlink (path : String) : FileAction Unit := do
  match ← look fun f => f.resolveParent path with
  | (parent, .name name slash) =>
    let p ← .ofExcept (Files.placeOf parent name)
    match (← .get).tree.node? p with
    | none => .fail .notFound
    | some .dir => .fail .isDirectory
    | some (.file _) =>
      if slash then .fail .notDirectory
      else
        look fun f => f.allowed .remove p
        .modify fun f => f.setTree (f.tree.remove p)
  | _ => .fail .isDirectory

/-- Removes a directory and everything in it. Its contents go first, so they are gone even if the
path names a directory that cannot be removed by it. -/
def removeDirAll (path : String) : FileAction Unit := do
  let spot ← look fun f => f.resolve path
  match spot with
  | .inside p => .modify fun f => f.setTree (f.tree.clear p)
  | .adrift _ => pure ()
  match spot, (← look fun f => f.resolveParent path).2 with
  | .inside p, .name _ _ =>
    look fun f => f.allowed .remove p
    .modify fun f => f.setTree (f.tree.remove p)
  | _, .dots => .fail .notEmpty
  | _, .root => .fail .busy
  | _, _ => .fail .invalidArgument

/-- Removes a file, or a directory and everything in it. -/
def remove (path : String) : FileAction Unit := do
  if (← .get).isDir path then removeDirAll path else unlink path

/-- What may not be moved where: something onto a thing of another kind, a directory into itself
or onto one that holds anything. -/
def movable (f : Files) (p q : Place) (old : Node) : Except FileError Unit :=
  if p = q then .ok ()
  else if p.isPrefixOf q then .error .invalidArgument
  else if q.isPrefixOf p then .error .notEmpty
  else
    match old, f.tree.node? q with
    | _, none => .ok ()
    | .dir, some .dir => if (f.tree.children q).isEmpty then .ok () else .error .notEmpty
    | .dir, some (.file _) => .error .notDirectory
    | .file _, some .dir => .error .isDirectory
    | .file _, some (.file _) => .ok ()

/-- The places a move goes from and to. Only a directory may have a slash behind its name, and
both paths are followed before either name is looked up. -/
def movePlaces (f : Files) (src dst : String) : Except FileError (Place × Place) := do
  Files.withoutNul src
  Files.withoutNul dst
  match ← f.resolveParent src, ← f.resolveParent dst with
  | (a, .name x slash), (b, .name y dstSlash) =>
    let p ← Files.placeOf a x
    match f.tree.node? p with
    | none => .error .notFound
    | some old =>
      let q ← Files.placeOf b y
      if old ≠ .dir ∧ (slash ∨ dstSlash) then .error .notDirectory
      movable f p q old
      return (p, q)
  | _, _ => .error .busy

/-- Moves a file or a directory; a file or an empty directory at the new path is replaced. Nothing is
done if both paths lead to one file. -/
def move (src dst : String) : FileAction Unit := do
  let (p, q) ← look fun f => movePlaces f src dst
  if p = q ∨ (← .get).tree.Shares p q then return
  look fun f => f.allowed .remove p
  look fun f => f.allowed .make q
  .modify fun f =>
    { f with
      tree := f.tree.move p q
      here := Tree.placeAfterMove p q f.here
      attached := f.attached && !q.isPrefixOf f.here }

/-- Copies one file. The copy is emptied before the file is read, so a file that is copied onto itself
is empty afterwards. -/
def copyFile (src dst : String) : FileAction Unit := do
  match (← .get).fileAt src with
  | .ok p =>
    let q ← create dst
    append q ((← .get).contents p)
  | .error .isDirectory => .fail .notRegular
  | .error e => .fail e

/-- Copies a file, or makes a directory and has everything copied that is then in the source. -/
def copyWith (copyEntry : String → String → FileAction Unit) (src dst : String) :
    FileAction Unit := do
  if (← .get).isDir src then
    makeDirAll dst
    let children ← look fun f => f.childrenAt src
    .forEach children fun e => copyEntry (Path.join src e.1) (Path.join dst e.1)
  else copyFile src dst

/-- Copies a file or a directory with everything in it. Paths grow on the way down, so the longest
path bounds the depth, which is the first argument. -/
def copyTree : Nat → String → String → FileAction Unit
  | 0, _, _ => .fail .nameTooLong
  | depth + 1, src, dst => copyWith (copyTree depth) src dst

/-- Copies a file or a directory unless the destination is there; answers whether it copied. -/
def copy (src dst : String) : FileAction Bool := do
  if (← .get).pathExists dst then return false
  copyTree (maxPath + 1) src dst
  return true

end Chore.File
