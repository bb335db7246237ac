import Chore.Text.Utf8

/-!
# Paths

A path is a text; its segments are what lies between its slashes, empty ones included, so that
`ofSegments` undoes `segments`. A segment that is empty or a single dot stays where it is
(`isIdle`). `absolute` takes a path from the current directory to the root, `relative` goes the
other way; both leave a path alone when the current directory is unknown.

The current directory comes from the system, as bytes that need not be text. What is made of it is
read as text in the end, with replacement characters where it is none.
-/

set_option autoImplicit false

namespace Chore.Path

/-- Cuts a list at every separator. -/
def cutAt {α : Type} [DecidableEq α] (sep : α) : List α → List (List α)
  | [] => [[]]
  | c :: cs =>
    if c = sep then [] :: cutAt sep cs
    else
      match cutAt sep cs with
      | [] => [[c]]
      | s :: ss => (c :: s) :: ss

/-- The segments of a path. -/
def segments (path : String) : List String :=
  (cutAt '/' path.toList).map String.ofList

/-- The path with given segments. -/
def ofSegments (segments : List String) : String :=
  String.ofList (['/'].intercalate (segments.map String.toList))

/-- Whether a path starts at the root. -/
def isAbsolute (path : String) : Bool :=
  path.toList.head? = some '/'

/-- Whether a path ends in a slash. -/
def endsInSlash (path : String) : Bool :=
  path.toList.getLast? = some '/'

/-- A segment that stays where it is. -/
def isIdle (segment : String) : Bool :=
  segment = "" || segment = "."

/-- The segments without the idle ones at the two ends. -/
def trimIdle (segments : List String) : List String :=
  ((segments.dropWhile isIdle).reverse.dropWhile isIdle).reverse

/-- A path seen from a directory: an absolute one as it is, any other behind the directory and a
slash. -/
def join (dir path : String) : String :=
  if isAbsolute path then path
  else if dir = "" || endsInSlash dir then dir ++ path
  else dir ++ "/" ++ path

/-- The parts of a path that matter for where it leads: all segments but the idle ones. A single
dot in front of a path that does not start at the root is kept. -/
def parts (path : String) : List String :=
  match segments path with
  | "." :: rest => "." :: rest.filter fun s => !isIdle s
  | all => all.filter fun s => !isIdle s

/-- The path with given parts, from the root or not. -/
def ofParts (fromRoot : Bool) (parts : List String) : String :=
  (if fromRoot then "/" else "") ++ ofSegments parts

/-- The initial parts of a list that are shorter than it, longest first. -/
def shortened {α : Type} : List α → List (List α)
  | [] => []
  | a :: rest => (shortened rest).map (a :: ·) ++ [[]]

/-- A path and the paths of the directories it is written below, from the innermost on. -/
def ancestors (path : String) : List String :=
  path :: (shortened (parts path)).map (ofParts (isAbsolute path))

/-- The path of the directory a path is written below. The root and the empty path have none. -/
def parent? (path : String) : Option String :=
  (ancestors path)[1]?

/-! ## The current directory -/

/-- The byte of a slash. -/
def slash : UInt8 := 0x2f

/-- The byte of a dot. -/
def dot : UInt8 := 0x2e

/-- Whether a directory given in bytes is given from the root. -/
def isRooted (dir : ByteArray) : Bool :=
  dir.data.toList.head? = some slash

/-- The names on the way to a directory given in bytes: all its segments but the idle ones. -/
def names (dir : ByteArray) : List (List UInt8) :=
  (cutAt slash dir.data.toList).filter fun s => !(s = [] || s = [dot])

/-- A path behind a directory and a slash, in bytes. -/
def joinBytes (dir path : ByteArray) : ByteArray :=
  match dir.data.toList.getLast? with
  | none => path
  | some last => if last = slash then dir ++ path else dir ++ "/".toUTF8 ++ path

/-- A path from the root, taken from the current directory unless it starts there already. -/
def absolute (here? : Option ByteArray) (path : String) : String :=
  if isAbsolute path then path
  else
    match here? with
    | none => path
    | some here => Text.decodeBytes (joinBytes here path.toUTF8)

/-- What is left of a path's segments behind the names on the way to a directory; idle segments do
not count. -/
def behind? : List (List UInt8) → List String → Option (List String)
  | [], segments => some segments
  | _ :: _, [] => none
  | name :: names, segment :: segments =>
    if isIdle segment then behind? (name :: names) segments
    else if Text.bytes segment = name then behind? names segments
    else none

/-- A path from the current directory if it lies below it, and otherwise the path itself. -/
def relative (here? : Option ByteArray) (path : String) : String :=
  match here? with
  | none => path
  | some here =>
    if isAbsolute path then
      match behind? (names here) (segments path) with
      | none => path
      | some rest =>
        match trimIdle rest with
        | [] => "."
        | rest => Text.decodeBytes (ofSegments rest).toUTF8
    else path

section Cuts

variable {α : Type} [DecidableEq α] {sep : α}

theorem cutAt_ne_nil (cs : List α) : cutAt sep cs ≠ [] := by
  cases cs with
  | nil => simp [cutAt]
  | cons c cs =>
    unfold cutAt
    split
    · simp
    · split <;> simp

theorem intercalate_cutAt (cs : List α) : [sep].intercalate (cutAt sep cs) = cs := by
  induction cs with
  | nil => rfl
  | cons c cs ih =>
    unfold cutAt
    split
    · rename_i h
      subst h
      cases hs : cutAt c cs with
      | nil => exact absurd hs (cutAt_ne_nil cs)
      | cons s ss =>
        rw [hs] at ih
        simp [List.intercalate, List.intersperse, ← ih]
    · split
      · rename_i h
        exact absurd h (cutAt_ne_nil cs)
      · rename_i s ss h
        rw [h] at ih
        cases ss with
        | nil => simpa [List.intercalate, List.intersperse] using ih
        | cons t ts => simpa [List.intercalate, List.intersperse] using ih

end Cuts

@[simp] theorem ofSegments_segments (path : String) : ofSegments (segments path) = path := by
  simp [ofSegments, segments, List.map_map, Function.comp_def, intercalate_cutAt]

end Chore.Path
