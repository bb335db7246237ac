import Chore.Archive.Extract
import Chore.Proofs.File.Frame

/-!
# Extraction stays below its directory

What is written when an archive is extracted, whatever its members are and however it ends. A name
that never goes up more often than down leads to a place below where it starts, and so does every
initial part of it (`stepAlong_of_depth?`). So a member is written below the directory it is
extracted to, and the directories made on the way are below it as well, or stand above it. A file that
is there may be listed elsewhere, too: its bytes are written there as well, but nothing else changes.
-/

set_option autoImplicit false

namespace Chore.Archive

open File

/-! ## Names that stay below -/

/-- A step stays, goes up, or goes to a name. -/
theorem step_cases (s : String) :
    Path.isIdle s = true ∨ s = ".." ∨ Path.isIdle s = false ∧ s ≠ ".." := by
  cases idle : Path.isIdle s with
  | true => exact .inl rfl
  | false => exact .inr ((Decidable.em (s = "..")).imp_right fun down => ⟨rfl, down⟩)

section Depth

variable {s : String} {n : Nat} {segments : List String}

theorem depth?_idle (h : Path.isIdle s = true) : depth? n (s :: segments) = depth? n segments := by
  rw [depth?.eq_def]
  exact if_pos h

theorem depth?_up : depth? (n + 1) (".." :: segments) = depth? n segments :=
  rfl

theorem depth?_name (solid : Path.isIdle s = false) (down : s ≠ "..") :
    depth? n (s :: segments) = depth? (n + 1) segments := by
  rw [depth?.eq_def]
  exact (if_neg (Bool.eq_false_iff.1 solid)).trans (if_neg down)

end Depth

theorem depth?_append (n : Nat) (front behind : List String) :
    depth? n (front ++ behind) = (depth? n front).bind fun m => depth? m behind := by
  induction front generalizing n with
  | nil => rfl
  | cons s front ih =>
    rw [List.cons_append]
    rcases step_cases s with idle | rfl | ⟨solid, down⟩
    · rw [depth?_idle idle, depth?_idle idle, ih]
    · cases n with
      | zero => rfl
      | succ n => exact ih n
    · rw [depth?_name solid down, depth?_name solid down, ih]

/-- **A path with a depth stays below its start.** -/
theorem stepAlong_of_depth? (start : Place) {below : Place} {segments : List String} {n : Nat}
    (h : depth? below.length segments = some n) :
    ∃ below', stepAlong (start ++ below) segments = start ++ below' := by
  induction segments generalizing below with
  | nil => exact ⟨below, rfl⟩
  | cons s segments ih =>
    change ∃ below', stepAlong (stepTo (start ++ below) s) segments = start ++ below'
    rcases step_cases s with idle | rfl | ⟨solid, down⟩
    · rw [stepTo_idle idle]
      exact ih (depth?_idle idle ▸ h)
    · rcases List.eq_nil_or_concat below with rfl | ⟨below, t, rfl⟩
      · cases h
      · rw [List.concat_eq_append, List.length_append, List.length_singleton, depth?_up] at h
        rw [stepTo_up, List.concat_eq_append, ← List.append_assoc, List.dropLast_concat]
        exact ih h
    · rw [depth?_name solid down] at h
      rw [stepTo_name solid down, List.append_assoc]
      refine ih ?_
      rwa [List.length_append, List.length_singleton]

theorem depth?_steps (path : String) : depth? 0 (Path.steps path) = depth? 0 (Path.segments path) := by
  rw [Path.steps]
  generalize Path.segments path = segments
  generalize 0 = n
  induction segments generalizing n with
  | nil => rfl
  | cons s segments ih =>
    rcases step_cases s with idle | rfl | ⟨solid, down⟩
    · rw [List.filter_cons_of_neg (by simp [idle]), depth?_idle idle, ih]
    · cases n with
      | zero => rfl
      | succ n => exact ih n
    · rw [List.filter_cons_of_pos (by simp [solid]), depth?_name solid down, depth?_name solid down, ih]

/-- An enclosed name does not start at the root, and its first steps stay below their start. -/
theorem isEnclosed_spec {name : String} (h : isEnclosed name = true) :
    Path.isAbsolute name = false ∧ ∀ (start : Place) (front : List String),
      front <+: Path.steps name → ∃ below, stepAlong start front = start ++ below := by
  simp only [isEnclosed, Bool.and_eq_true, Bool.not_eq_true', Option.isSome_iff_exists,
    ← depth?_steps] at h
  obtain ⟨⟨-, relative⟩, n, deep⟩ := h
  refine ⟨relative, fun start front initial => ?_⟩
  obtain ⟨behind, whole⟩ := initial
  rw [← whole, depth?_append] at deep
  obtain ⟨m, first, -⟩ := Option.bind_eq_some_iff.1 deep
  have below : depth? ([] : Place).length front = some m := first
  simpa using stepAlong_of_depth? start below

section Members

variable {here : Place} {dest name : String}

/-- The places below a directory. -/
def Below (here : Place) (dest : String) (q : Place) : Prop :=
  Tree.isBelow (landing here dest) q = true

/-- The places of a directory and of the directories it is written below. -/
def Above (here : Place) (dest : String) (q : Place) : Prop :=
  ∃ a ∈ Path.ancestors dest, landing here a = q

theorem below_append {rest : Place} (h : rest ≠ []) : Below here dest (landing here dest ++ rest) := by
  simp [Below, Tree.isBelow, h]

/-- The first steps to a member lead below the directory, or above it. -/
theorem landing_initial (enclosed : isEnclosed name = true) {a : String}
    (initial : Path.Initial a (Path.join dest name)) :
    Below here dest (landing here a) ∨ Above here dest (landing here a) := by
  have ⟨relative, stays⟩ := isEnclosed_spec enclosed
  obtain ⟨absolute, through⟩ := initial
  rw [Path.isAbsolute_join dest relative] at absolute
  rw [Path.steps_join dest relative] at through
  rcases List.prefix_or_prefix_of_prefix through (List.prefix_append _ _) with above | ⟨front, whole⟩
  · obtain ⟨b, isAncestor, initial, same⟩ := Path.exists_ancestor above
    refine .inr ⟨b, isAncestor, ?_⟩
    rw [landing_of_initial initial, same, landing, origin, origin, absolute]
  · rw [← whole] at through
    have first := (List.prefix_append_right_inj _).1 through
    obtain ⟨below, first⟩ := stays (landing here dest) front first
    have lands : landing here a = landing here dest ++ below := by
      rw [landing, origin, absolute, ← whole, stepAlong_append, ← first]
      rfl
    rw [lands]
    by_cases proper : below = []
    · subst proper
      rw [List.append_nil]
      exact .inr ⟨dest, List.mem_cons_self, rfl⟩
    · exact .inl (below_append proper)

/-- A member whose name ends in a name is below the directory. -/
theorem below_target (enclosed : isEnclosed name = true) {last : String}
    (ends : (Path.segments (Path.join dest name)).getLast? = some last)
    (solid : Path.isIdle last = false) (down : last ≠ "..") :
    Below here dest (landing here (Path.join dest name)) := by
  have ⟨relative, stays⟩ := isEnclosed_spec enclosed
  obtain ⟨before, through⟩ : ∃ before, Path.steps name = before ++ [last] := by
    obtain ⟨front, whole, -⟩ := Path.segments_join dest relative
    obtain ⟨before, s, split⟩ :=
      (List.eq_nil_or_concat (Path.segments name)).resolve_left (Path.segments_ne_nil name)
    obtain rfl : s = last := by simpa [whole, split] using ends
    rw [Path.steps, split, List.concat_eq_append, List.filter_append,
      List.filter_cons_of_pos (by simp [solid])]
    exact ⟨_, rfl⟩
  obtain ⟨below, first⟩ := stays (landing here dest) before (through ▸ List.prefix_append _ _)
  have lands : landing here (Path.join dest name) = landing here dest ++ (below ++ [last]) := by
    rw [landing_join here dest relative, through, stepAlong_append, first, ← List.append_assoc]
    exact stepTo_name solid down _
  rw [lands]
  exact below_append (List.append_ne_nil_of_right_ne_nil _ (List.cons_ne_nil _ _))

end Members

/-! ## Extraction -/

section Extraction

variable {here : Place} {own made : Place → Prop} {α : Type}

theorem confines_onFiles {m : FileAction α} {post : α → Prop}
    (h : Confines id here own made m post) :
    Confines Extraction.files here own made (onFiles m) post := by
  intro e stands
  have ⟨confined, gives⟩ := h e.files stands
  exact ⟨confined, fun a ran => gives a (of_mapError_ok ran)⟩

theorem confines_extractDir {dest name : String} (enclosed : isEnclosed name = true) :
    Confines Extraction.files here (Below here dest) (Above here dest)
      (extractDir (Path.join dest name)) fun _ => True := by
  have makes : Confines id here (Below here dest) (Above here dest)
      (makeDirAll (Path.join dest name)) fun _ => True :=
    confines_makeDirAll fun a isAncestor =>
      landing_initial enclosed (Path.initial_of_mem_ancestors isAncestor)
  exact confines_bind (confines_onFiles makes) fun _ _ => confines_modify fun _ => rfl

theorem confines_writeData {dest name : String} (enclosed : isEnclosed name = true)
    (archive : Place) (data : ByteArray → Data) :
    Confines Extraction.files here (Below here dest) (Above here dest)
      (writeData archive (Path.join dest name) data) fun _ => True := by
  have creates : Confines id here (Below here dest) (Above here dest)
      (create (Path.join dest name)) (Below here dest) :=
    confines_create fun last ends solid down => below_target enclosed ends solid down
  refine confines_bind (confines_onFiles creates) fun p below =>
    confines_bind confines_get fun e _ =>
      confines_bind (confines_onFiles (confines_append below _)) fun _ _ => ?_
  split
  · exact confines_fail
  · exact confines_modify fun _ => rfl

theorem confines_extractFile {dest name : String} (enclosed : isEnclosed name = true)
    (archive : Place) (data : ByteArray → Data) :
    Confines Extraction.files here (Below here dest) (Above here dest)
      (extractFile archive (Path.join dest name) data) fun _ => True := by
  rw [extractFile]
  split
  next parent above =>
    have makes : Confines id here (Below here dest) (Above here dest) (makeDirAll parent)
        fun _ => True :=
      confines_makeDirAll fun a isAncestor =>
        landing_initial enclosed ((Path.initial_of_mem_ancestors isAncestor).trans
          (Path.initial_of_mem_ancestors (List.mem_of_getElem? above)))
    exact confines_bind (confines_onFiles makes) fun _ _ => confines_writeData enclosed archive data
  next => exact confines_writeData enclosed archive data

theorem confines_extractMember (archive : Place) (dest : String) (m : Member) :
    Confines Extraction.files here (Below here dest) (Above here dest)
      (extractMember archive dest m) fun _ => True := by
  refine confines_bind confines_get fun e _ => ?_
  split
  · exact confines_fail
  next data _ =>
  split
  · exact confines_pure trivial
  next enclosed =>
  have enclosed : isEnclosed m.name = true := by simpa using enclosed
  split
  · exact confines_extractDir enclosed
  · exact confines_extractFile enclosed archive data

/-- **Members are written below their directory.** -/
theorem confines_extractAll (archive : Place) (dest : String) (members : List Member) :
    Confines Extraction.files here (Below here dest) (Above here dest)
      (extractAll archive dest members) fun _ => True :=
  confines_forEach fun m _ => confines_extractMember archive dest m

end Extraction

/-! ## What is counted -/

/-- A member that is extracted as a directory. -/
def Member.makesDir (m : Member) : Bool :=
  isEnclosed m.name && m.isDir

/-- A member that is extracted as a file. -/
def Member.makesFile (m : Member) : Bool :=
  isEnclosed m.name && !m.isDir

/-- An attempt that succeeds has written so many directories and files. -/
def Adds {α : Type} (dirs written : Nat) (m : Attempt Extraction ToolError α) : Prop :=
  ∀ e a, (m e).1 = .ok a → (m e).2.dirs = e.dirs + dirs ∧ (m e).2.written = e.written + written

section Counting

variable {α β : Type} {d w d' w' : Nat}

theorem adds_pure (a : α) : Adds 0 0 (pure a : Attempt Extraction ToolError α) :=
  fun _ _ _ => ⟨rfl, rfl⟩

theorem adds_bind {m : Attempt Extraction ToolError α} {g : α → Attempt Extraction ToolError β}
    (first : Adds d w m) (second : ∀ a, Adds d' w' (g a)) : Adds (d + d') (w + w') (m >>= g) := by
  intro e b ran
  have before := first e
  rw [Attempt.bind_apply] at ran ⊢
  rcases did : m e with ⟨_ | a, e'⟩ <;> rw [did] at ran before
  · cases ran
  · obtain ⟨dirs, written⟩ := before a rfl
    have ⟨dirs', written'⟩ := second a e' b ran
    exact ⟨by rw [dirs', dirs, Nat.add_assoc], by rw [written', written, Nat.add_assoc]⟩

theorem Adds.then {m : Attempt Extraction ToolError α} {g : α → Attempt Extraction ToolError β}
    (first : Adds 0 0 m) (second : ∀ a, Adds d w (g a)) : Adds d w (m >>= g) := by
  have both := adds_bind first second
  rwa [Nat.zero_add, Nat.zero_add] at both

theorem adds_fail (err : ToolError) : Adds d w (.fail err : Attempt Extraction ToolError α) :=
  nofun

theorem adds_get : Adds 0 0 (.get : Attempt Extraction ToolError Extraction) :=
  fun _ _ _ => ⟨rfl, rfl⟩

theorem adds_onFiles (m : FileAction α) : Adds 0 0 (onFiles m) :=
  fun _ _ _ => ⟨rfl, rfl⟩

theorem adds_extractDir (target : String) : Adds 1 0 (extractDir target) :=
  (adds_onFiles _).then fun _ _ _ _ => ⟨rfl, rfl⟩

theorem adds_writeData (archive : Place) (target : String) (data : ByteArray → Data) :
    Adds 0 1 (writeData archive target data) := by
  refine (adds_onFiles _).then fun p => adds_get.then fun e => (adds_onFiles _).then fun _ => ?_
  split
  · exact adds_fail _
  · exact fun _ _ _ => ⟨rfl, rfl⟩

theorem adds_extractFile (archive : Place) (target : String) (data : ByteArray → Data) :
    Adds 0 1 (extractFile archive target data) := by
  rw [extractFile]
  split
  · exact (adds_onFiles _).then fun _ => adds_writeData archive target data
  · exact adds_writeData archive target data

/-- A member is counted unless it is skipped. -/
theorem adds_extractMember (archive : Place) (dest : String) (m : Member) :
    Adds (if m.makesDir then 1 else 0) (if m.makesFile then 1 else 0)
      (extractMember archive dest m) := by
  refine adds_get.then fun e => ?_
  rw [Member.makesDir, Member.makesFile]
  cases m.opened (e.files.contents archive) with
  | error err => exact adds_fail _
  | ok data =>
    cases isEnclosed m.name with
    | false =>
      simp only [Bool.false_and, Bool.false_eq_true, Bool.not_false, if_false, if_true]
      exact adds_pure ()
    | true =>
      simp only [Bool.true_and, Bool.not_true, Bool.false_eq_true, if_false]
      cases m.isDir with
      | true =>
        simp only [Bool.not_true, Bool.false_eq_true, if_false, if_true]
        exact adds_extractDir (Path.join dest m.name)
      | false =>
        simp only [Bool.not_false, Bool.false_eq_true, if_false, if_true]
        exact adds_extractFile archive (Path.join dest m.name) data

theorem adds_extractAll (archive : Place) (dest : String) (members : List Member) :
    Adds (members.countP Member.makesDir) (members.countP Member.makesFile)
      (extractAll archive dest members) := by
  induction members with
  | nil => exact adds_pure ()
  | cons m members ih =>
    rw [List.countP_cons, List.countP_cons, Nat.add_comm _ (if m.makesDir then 1 else 0),
      Nat.add_comm _ (if m.makesFile then 1 else 0)]
    exact adds_bind (adds_extractMember archive dest m) fun _ => ih

end Counting

section Unzip

variable {read : ByteArray → Except ArchiveError (List Member)} {archive dest : String} {f : Files}

/-- What is extracted from an archive that is there and can be read. -/
theorem unzipWith_listed {p : Place} {members : List Member} {outcome : Except ToolError Unit}
    {e : Extraction} (found : f.fileAt archive = .ok p) (listed : read (f.contents p) = .ok members)
    (did : extractAll p dest members { files := f } = (outcome, e)) :
    unzipWith read archive dest f = (outcome.map fun _ => (e.dirs, e.written), e.files) := by
  rw [unzipWith, found]
  simp only [listed, did]

/-- Unless the archive is there and can be read, nothing changes and it fails. -/
theorem unzipWith_cases (read : ByteArray → Except ArchiveError (List Member))
    (archive dest : String) (f : Files) :
    (∃ err, unzipWith read archive dest f = (.error err, f)) ∨
      ∃ p members, f.fileAt archive = .ok p ∧ read (f.contents p) = .ok members := by
  rw [unzipWith]
  cases found : f.fileAt archive with
  | error err => exact .inl ⟨openError err, rfl⟩
  | ok p =>
    cases listed : read (f.contents p) with
    | error err => exact .inl ⟨.archive err.message, by simp only [listed]⟩
    | ok members => exact .inr ⟨p, members, rfl, listed⟩

theorem confined_unzipWith :
    Confined (Below f.here dest) (Above f.here dest) f (unzipWith read archive dest f).2 := by
  rcases unzipWith_cases read archive dest f with ⟨err, fails⟩ | ⟨p, members, found, listed⟩
  · rw [fails]
    exact .refl f
  · have ⟨confined, _⟩ := confines_extractAll p dest members { files := f } rfl
    rwa [unzipWith_listed found listed rfl]

theorem counted_unzipWith {dirs written : Nat}
    (ran : (unzipWith read archive dest f).1 = .ok (dirs, written)) :
    ∃ p members, f.fileAt archive = .ok p ∧ read (f.contents p) = .ok members ∧
      dirs = members.countP Member.makesDir ∧ written = members.countP Member.makesFile := by
  rcases unzipWith_cases read archive dest f with ⟨err, fails⟩ | ⟨p, members, found, listed⟩
  · rw [fails] at ran
    cases ran
  · refine ⟨p, members, found, listed, ?_⟩
    have counted := adds_extractAll p dest members { files := f }
    rcases did : extractAll p dest members { files := f } with ⟨err | u, e⟩ <;>
      rw [unzipWith_listed found listed did] at ran <;> rw [did] at counted
    · cases ran
    · cases ran
      have ⟨dirs, written⟩ := counted u rfl
      exact ⟨dirs.trans (Nat.zero_add _), written.trans (Nat.zero_add _)⟩

/-- A reader that tells directories by their names. -/
def TellsByName (read : ByteArray → Except ArchiveError (List Member)) : Prop :=
  ∀ bytes members, read bytes = .ok members → ∀ m ∈ members, m.isDir = isDirectoryName m.name

theorem tellsByName_members : TellsByName members := by
  intro bytes listed read m member
  obtain ⟨headers, -, made⟩ := bind_ok read
  cases made
  obtain ⟨h, -, rfl⟩ := List.mem_map.1 member
  rfl

/-- With such a reader the names tell what is counted. -/
theorem counted_by_name (tells : TellsByName read) {dirs written : Nat}
    (ran : (unzipWith read archive dest f).1 = .ok (dirs, written)) :
    ∃ p members, f.fileAt archive = .ok p ∧ read (f.contents p) = .ok members ∧
      dirs = members.countP (fun m => isEnclosed m.name && isDirectoryName m.name) ∧
      written = members.countP (fun m => isEnclosed m.name && !isDirectoryName m.name) := by
  obtain ⟨p, members, found, listed, rfl, rfl⟩ := counted_unzipWith ran
  have kinds := tells _ members listed
  refine ⟨p, members, found, listed, List.countP_congr fun m member => ?_,
    List.countP_congr fun m member => ?_⟩
  · rw [Member.makesDir, kinds m member]
  · rw [Member.makesFile, kinds m member]

end Unzip

/-- **Extraction stays below its directory**, whatever the reader takes for the members, whatever is
refused and however it ends. Every place that is not below the directory keeps what is listed for it,
but for missing directories that are made at the directory and those it is written below; and it keeps
what is there, but for the bytes of a file that is below the directory as well. If the extraction
succeeds, it has counted the directories and the files that were not skipped. -/
theorem unzip_stays_below (read : ByteArray → Except ArchiveError (List Member))
    (archive dest : String) (f : Files) :
    Confined (Below f.here dest) (Above f.here dest) f (unzipWith read archive dest f).2 ∧
      ∀ dirs written, (unzipWith read archive dest f).1 = .ok (dirs, written) →
        ∃ p members, f.fileAt archive = .ok p ∧ read (f.contents p) = .ok members ∧
          dirs = members.countP Member.makesDir ∧ written = members.countP Member.makesFile :=
  ⟨confined_unzipWith, fun _ _ ran => counted_unzipWith ran⟩

/-- A name that leads out is skipped. The other two are extracted, one of them on a way down and up
again, and the file next to the directory is as it was. The file `w` is `o/y` as well, so it stays the
same file, with the bytes that are written there. -/
theorem unzip_stays_below_skips :
    let member (name : String) (isDir : Bool) : Member :=
      ⟨name, isDir, fun _ => .ok fun _ => { bytes := ⟨#[1, 2]⟩ }⟩
    let read (_ : ByteArray) : Except ArchiveError (List Member) :=
      .ok [member "../z" false, member "d" true, member "d/../y" false]
    let before := ((Tree.empty.put ["z"] (.file ⟨#[7]⟩)).put ["w"] (.file ⟨#[8]⟩)).put ["o"] .dir
    let f : Files := { tree := before.link ["w"] ["o", "y"] }
    let after := (unzipWith read "z" "o" f).2
    (unzipWith read "z" "o" f).1 = .ok (1, 1) ∧ after.tree.node? ["z"] = some (.file ⟨#[7]⟩) ∧
      after.tree.listed? ["w"] = f.tree.listed? ["w"] ∧
      after.tree.node? ["w"] = some (.file ⟨#[1, 2]⟩) := by
  intro member read before f after
  have succeeds : (unzipWith read "z" "o" f).1 = .ok (1, 1) := ok_of_toOption (by decide +kernel)
  obtain ⟨confined, -⟩ := unzip_stays_below read "z" "o" f
  have there : f.tree.node? ["z"] = some (.file ⟨#[7]⟩) := by decide +kernel
  have there' : f.tree.node? ["w"] ≠ none := by decide +kernel
  have outside (q : Place) (h : Tree.isBelow (landing f.here "o") q = false) :
      ¬Below f.here "o" q := Bool.eq_false_iff.1 h
  have alone : ∀ e ∈ f.tree.listing,
      Tree.isBelow (landing f.here "o") e.1 = true → f.tree.listed? ["z"] ≠ some e.2 := by
    decide +kernel
  have apart : ∀ p, Below f.here "o" p → ¬f.tree.Shares p ["z"] := by
    rintro p below ⟨number, here, there⟩
    have proper : p ≠ [] := by
      rintro rfl
      cases here
    exact alone _ ((Tree.listed?_eq_some_iff proper).1 here) below there
  refine ⟨succeeds, ?_, ?_, by decide +kernel⟩
  · rcases confined.outside ["z"] (outside _ (by decide +kernel)) apart with same | ⟨-, missing, -⟩
    · rwa [there] at same
    · rw [there] at missing
      cases missing
  · rcases confined.listed ["w"] (outside _ (by decide +kernel)) with same | ⟨-, missing, -⟩
    · exact same
    · exact absurd missing there'

/-- A file below the directory may be elsewhere as well, and what it holds changes there, too. -/
theorem unzip_writes_shared_file :
    ¬∀ (read : ByteArray → Except ArchiveError (List Member)) (archive dest : String) (f : Files)
      (q : Place), ¬Below f.here dest q →
        (unzipWith read archive dest f).2.tree.node? q = f.tree.node? q ∨
          Above f.here dest q ∧ f.tree.node? q = none ∧
            (unzipWith read archive dest f).2.tree.node? q = some .dir := by
  intro claim
  let read (_ : ByteArray) : Except ArchiveError (List Member) :=
    .ok [⟨"y", false, fun _ => .ok fun _ => { bytes := ⟨#[1, 2]⟩ }⟩]
  let before := ((Tree.empty.put ["z"] (.file .empty)).put ["w"] (.file ⟨#[8]⟩)).put ["o"] .dir
  let f : Files := { tree := before.link ["w"] ["o", "y"] }
  have outside : ¬Below f.here "o" ["w"] :=
    Bool.eq_false_iff.1 (by decide +kernel : Tree.isBelow (landing f.here "o") ["w"] = false)
  rcases claim read "z" "o" f ["w"] outside with same | ⟨-, missing, -⟩
  · have written : (unzipWith read "z" "o" f).2.tree.node? ["w"] ≠ f.tree.node? ["w"] := by
      decide +kernel
    exact written same
  · have there : f.tree.node? ["w"] ≠ none := by decide +kernel
    exact there missing

end Chore.Archive
