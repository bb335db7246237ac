import Chore.Proofs.File.Making

/-!
# What copying creates

Copying a directory makes the new one first and reads the old one then, so what is read may hold
parts of the copy. Still the copying ends: its paths grow on the way down, so no bound on the depth
shows, and there is one way to copy an entry by copying what is in it (`eq_copyTree`).

What is created stands below the destination, where it is an image (`Copyable`): of something that
was in the source, of a directory that was missing on the way to the destination, or of an image that
the source has got from the copying itself (`confined_copyTree`). Where source and destination are
apart the last two do not arise (`Apart.view`).
-/

set_option autoImplicit false

namespace Chore.File

/-! ## Paths into a directory -/

namespace IsName

variable {name : String}

theorem segments (h : IsName name) : Path.segments name = [name] := by
  rw [Path.segments, Path.cutAt_of_not_mem h.whole]
  simp

theorem isAbsolute (h : IsName name) : Path.isAbsolute name = false := by
  rw [Bool.eq_false_iff]
  intro absolute
  apply h.whole
  apply List.mem_of_mem_head?
  simpa [Path.isAbsolute] using absolute

theorem steps (h : IsName name) : Path.steps name = [name] := by
  simp [Path.steps, h.segments, h.solid]

theorem landing_join (h : IsName name) (here : Place) (dir : String) :
    landing here (Path.join dir name) = landing here dir ++ [name] := by
  rw [File.landing_join here dir h.isAbsolute, h.steps]
  exact stepTo_name h.solid h.down _

theorem steps_join (h : IsName name) (dir : String) :
    Path.steps (Path.join dir name) = Path.steps dir ++ [name] := by
  rw [Path.steps_join dir h.isAbsolute, h.steps]

/-- Paths grow on the way down. -/
theorem size_join (h : IsName name) (dir : String) :
    dir.utf8ByteSize < (Path.join dir name).utf8ByteSize := by
  have full : name.utf8ByteSize ≠ 0 := by
    intro empty
    rw [String.utf8ByteSize_eq_zero_iff] at empty
    have solid := h.solid
    rw [empty] at solid
    exact absurd solid (by decide)
  rw [Path.join, if_neg (by simp [h.isAbsolute])]
  split <;> simp only [String.utf8ByteSize_append] <;> omega

end IsName

/-- The places of a path and of the paths it is written below. -/
def OnWay (here : Place) (path : String) (q : Place) : Prop :=
  ∃ a ∈ Path.ancestors path, landing here a = q

/-- On the way to a name in a directory are its place and those on the way to the directory. -/
theorem onWay_join {here q : Place} {dir name : String} (isName : IsName name)
    (h : OnWay here (Path.join dir name) q) : q = landing here dir ++ [name] ∨ OnWay here dir q := by
  obtain ⟨a, isAncestor, rfl⟩ := h
  have initial := Path.initial_of_mem_ancestors isAncestor
  have through := initial.through
  rw [isName.steps_join, List.prefix_concat_iff] at through
  rcases through with whole | front
  · left
    rw [landing_of_initial initial, whole, ← isName.steps_join, ← isName.landing_join]
    rfl
  · right
    obtain ⟨b, isAncestor', initial', same⟩ := Path.exists_ancestor front
    refine ⟨b, isAncestor', ?_⟩
    rw [landing_of_initial initial', landing_of_initial initial, same, origin, origin,
      Path.isAbsolute_join dir isName.isAbsolute]

/-! ## The end of copying -/

theorem Files.size_of_usable {path : String} (h : Files.usable path = .ok ()) :
    path ≠ "" ∧ path.utf8ByteSize ≤ maxPath := by
  obtain ⟨_, -, fits⟩ := bind_ok h
  split at fits
  next => cases fits
  next some =>
  split at fits
  next => cases fits
  next short => exact ⟨some, Nat.not_lt.1 short⟩

/-- What copying an entry does depends on how the names in a directory are copied. -/
theorem copyWith_congr {m m' : String → String → FileAction Unit} {src dst : String}
    (same : ∀ f : Files, f.isDir src = true → ∀ name, IsName name →
      m (Path.join src name) (Path.join dst name) = m' (Path.join src name) (Path.join dst name)) :
    copyWith m src dst = copyWith m' src dst := by
  funext f
  rw [copyWith, copyWith, Attempt.bind_apply, Attempt.bind_apply, Attempt.get_apply]
  cases isDir : f.isDir src with
  | false => simp only [isDir, Bool.false_eq_true, if_false]
  | true =>
    simp only [isDir, if_true]
    rw [Attempt.bind_apply, Attempt.bind_apply]
    rcases makeDirAll dst f with ⟨_ | _, g⟩
    · rfl
    simp only [Attempt.bind_apply, look]
    cases read : g.childrenAt src with
    | error e => rfl
    | ok children =>
      refine congrFun (Attempt.forEach_congr fun e inside => ?_) g
      have held := ((Files.of_childrenAt read).2 e.1 e.2).1 inside
      exact same f isDir e.1 held.isName

/-- Two ways to copy in rounds agree on a source once the rounds suffice for the longest path. -/
theorem rounds_agree (m m' : Nat → String → String → FileAction Unit)
    (rounds : ∀ n src dst, m (n + 1) src dst = copyWith (m n) src dst)
    (rounds' : ∀ n src dst, m' (n + 1) src dst = copyWith (m' n) src dst) :
    ∀ n src dst, maxPath < n + src.utf8ByteSize ∨ src = "" →
      m (n + 1) src dst = m' (n + 1) src dst := by
  intro n
  induction n with
  | zero =>
    intro src dst deep
    rw [rounds, rounds']
    apply copyWith_congr
    intro f isDir
    obtain ⟨full, short⟩ := Files.size_of_usable (Files.usable_of_isDir isDir)
    rcases deep with deep | none
    · omega
    · exact absurd none full
  | succ n ih =>
    intro src dst deep
    rw [rounds, rounds']
    apply copyWith_congr
    intro f isDir name isName
    obtain ⟨full, -⟩ := Files.size_of_usable (Files.usable_of_isDir isDir)
    have longer := isName.size_join src
    have deep := deep.resolve_right full
    exact ih _ _ (.inl (by omega))

/-- **Copying ends**: there is one way to copy an entry by copying what is in it, and it needs no
more rounds than the longest path has bytes. -/
theorem eq_copyTree (m : String → String → FileAction Unit) :
    (∀ src dst, m src dst = copyWith m src dst) ↔ m = copyTree (maxPath + 1) := by
  have deep (src : String) : maxPath < maxPath + src.utf8ByteSize ∨ src = "" := by
    by_cases none : src = ""
    · exact .inr none
    · have : src.utf8ByteSize ≠ 0 := mt String.utf8ByteSize_eq_zero_iff.1 none
      exact .inl (by omega)
  constructor
  · intro solves
    funext src dst
    exact rounds_agree (fun _ => m) copyTree (fun _ => solves) (fun _ _ _ => rfl) maxPath src dst
      (deep src)
  · rintro rfl src dst
    exact rounds_agree copyTree (fun n => copyTree (n + 1)) (fun _ _ _ => rfl) (fun _ _ _ => rfl)
      maxPath src dst (deep src)

/-! ## Images -/

/-- What is at a path and below it. -/
def Files.view (f : Files) (path : String) (r : Place) : Option Node :=
  match f.resolve path with
  | .ok (.inside p) => f.tree.node? (p ++ r)
  | .ok (.adrift _) => if r = [] then some .dir else none
  | .error _ => none

theorem Files.view_inside {f : Files} {path : String} {p : Place}
    (leads : f.resolve path = .ok (.inside p)) (r : Place) :
    f.view path r = f.tree.node? (p ++ r) := by
  rw [view, leads]

/-- What a copy may have an image of, by its path from the source: what was there; what was missing
on the way to the destination; and, as the source is read while it is copied, what the copying itself
has put there. -/
inductive Copyable (f : Files) (src dst : String) : Place → Prop
  | there {r : Place} : f.view src r ≠ none → Copyable f src dst r
  | above {r : Place} : OnWay f.here dst (landing f.here src ++ r) →
      f.tree.node? (landing f.here src ++ r) = none → Copyable f src dst r
  | copied {r image : Place} : Copyable f src dst image →
      landing f.here dst ++ image = landing f.here src ++ r → Copyable f src dst r

/-- The places of images. -/
def Images (f : Files) (src dst : String) (p : Place) : Prop :=
  ∃ r, p = landing f.here dst ++ r ∧ Copyable f src dst r

theorem Confined.mono {own made own' made' : Place → Prop} {f f' : Files}
    (h : Confined own made f f') (owned : ∀ q, own q → own' q)
    (isMade : ∀ q, made q → own' q ∨ made' q) : Confined own' made' f f' := by
  have out {q : Place} (h : ¬own' q) : ¬own q := fun inside => h (owned q inside)
  refine ⟨h.here, fun q outside => ?_, h.shared, fun q outside apart => ?_⟩
  · refine (h.listed q (out outside)).imp_right fun ⟨made, missing, dir⟩ => ?_
    exact ⟨(isMade q made).resolve_left outside, missing, dir⟩
  · have apart' : ∀ p, own p → ¬f.tree.Shares p q := fun p inside => apart p (owned p inside)
    refine (h.outside q (out outside) apart').imp_right fun ⟨made, missing, dir⟩ => ?_
    exact ⟨(isMade q made).resolve_left outside, missing, dir⟩

/-- The source leads into the tree, or it is a directory that was gone. -/
def Readable (f : Files) (src : String) : Prop :=
  f.resolve src = .ok (.inside (landing f.here src)) ∨ f.hasDir (landing f.here src) = false

section Images

variable {f g : Files} {src dst name : String} {r : Place}

/-- What is below the source while it is copied may be copied. -/
theorem Confined.copyable (h : Confined (Images f src dst) (OnWay f.here dst) f g)
    (readable : Readable f src) (proper : r ≠ [])
    (there : g.tree.node? (landing f.here src ++ r) ≠ none) : Copyable f src dst r := by
  by_cases image : Images f src dst (landing f.here src ++ r)
  · obtain ⟨image, same, copyable⟩ := image
    exact .copied copyable same.symm
  rcases h.there image with same | ⟨onWay, missing, -⟩
  · rw [ne_eq, same] at there
    rcases readable with leads | gone
    · apply Copyable.there
      rwa [Files.view_inside leads]
    · obtain ⟨n, there⟩ := Option.ne_none_iff_exists'.1 there
      simp [Files.hasDir, Tree.dir_of_below there proper] at gone
  · exact .above onWay missing

/-- What is missing while the source is copied was missing before, unless it may be copied. -/
theorem Confined.missing_or_copyable (h : Confined (Images f src dst) (OnWay f.here dst) f g)
    (missing : g.tree.node? (landing f.here src ++ r) = none) :
    f.tree.node? (landing f.here src ++ r) = none ∨ Copyable f src dst r := by
  by_cases image : Images f src dst (landing f.here src ++ r)
  · obtain ⟨image, same, copyable⟩ := image
    exact .inr (.copied copyable same.symm)
  rcases h.there image with same | ⟨-, missing, -⟩
  · exact .inl (same.1 missing)
  · exact .inl missing

/-- What may be copied from below the source may be copied. -/
theorem Copyable.of_child (h : Confined (Images f src dst) (OnWay f.here dst) f g)
    (readable : Readable f src) (isName : IsName name) (first : Copyable f src dst [name])
    (child : Copyable g (Path.join src name) (Path.join dst name) r) :
    Copyable f src dst (name :: r) := by
  have source := isName.landing_join f.here src
  have target := isName.landing_join f.here dst
  induction child with
  | @there r seen =>
    rw [Files.view] at seen
    split at seen
    next p leads =>
      obtain rfl : p = landing g.here (Path.join src name) := Files.resolve_landing leads
      rw [h.here, source, List.append_assoc] at seen
      exact h.copyable readable (List.cons_ne_nil _ _) seen
    next =>
      obtain rfl : r = [] := by
        by_contra proper
        simp [proper] at seen
      exact first
    next => exact absurd rfl seen
  | @above r onWay missing =>
    rw [h.here, source] at onWay missing
    rw [List.append_assoc] at missing
    rcases onWay_join isName onWay with same | onWay
    · apply Copyable.copied first
      rw [← same, List.append_assoc]
      rfl
    · rw [List.append_assoc] at onWay
      rcases h.missing_or_copyable missing with missing | copyable
      · exact .above onWay missing
      · exact copyable
  | @copied r image _ same ih =>
    rw [h.here, source, target] at same
    apply Copyable.copied ih
    simpa using same

/-- Copying a name in the source directory stays among the images. -/
theorem Confined.child {g' : Files} (h : Confined (Images f src dst) (OnWay f.here dst) f g)
    (readable : Readable f src) (isName : IsName name) (first : Copyable f src dst [name])
    (child : Confined (Images g (Path.join src name) (Path.join dst name))
      (OnWay g.here (Path.join dst name)) g g') :
    Confined (Images f src dst) (OnWay f.here dst) f g' := by
  refine h.trans (child.mono ?_ ?_)
  · rintro q ⟨r, rfl, copyable⟩
    refine ⟨name :: r, ?_, Copyable.of_child h readable isName first copyable⟩
    rw [h.here, isName.landing_join, List.append_assoc]
    rfl
  · intro q onWay
    rw [h.here] at onWay
    rcases onWay_join isName onWay with rfl | onWay
    · exact .inl ⟨[name], rfl, first⟩
    · exact .inr onWay

/-- A source that is a directory is readable by the time it is read. -/
theorem readable_of_grows {spot : Spot} {p : Place} (grown : Grows f g)
    (leads : f.resolve src = .ok spot) (leads' : g.resolve src = .ok (.inside p)) :
    Readable f src ∧ p = landing f.here src := by
  have lands : p = landing f.here src := grown.here ▸ Files.resolve_landing leads'
  refine ⟨?_, lands⟩
  obtain ⟨spot', again, becomes⟩ := grown.resolve leads
  cases leads'.symm.trans again
  rcases becomes with rfl | ⟨q, rfl, same, gone, -⟩
  · exact .inl (lands ▸ leads)
  · cases same
    exact .inr (lands ▸ gone)

/-- Directories are made on the way. -/
theorem confined_makeDirAll (own : Place → Prop) (f : Files) (dst : String) :
    Confined own (OnWay f.here dst) f (makeDirAll dst f).2 := by
  have makes : Confines id f.here own (OnWay f.here dst) (makeDirAll dst) fun _ => True :=
    confines_makeDirAll fun a isAncestor => .inr ⟨a, isAncestor, rfl⟩
  exact (makes f rfl).1

theorem confined_copyFile :
    Confined (Images f src dst) (OnWay f.here dst) f (copyFile src dst f).2 := by
  rw [copyFile, Attempt.bind_apply, Attempt.get_apply]
  cases file : f.fileAt src with
  | error e =>
    simp only [file]
    cases e <;> exact .refl f
  | ok p =>
    have whole : Images f src dst (landing f.here dst) := by
      obtain ⟨leads, bytes, there⟩ := Files.fileAt_ok file
      refine ⟨[], (List.append_nil _).symm, .there ?_⟩
      simp [Files.view_inside leads, there]
    have creates : Confines id f.here (Images f src dst) (OnWay f.here dst) (create dst)
        (Images f src dst) := confines_create fun _ _ _ _ => whole
    have copies : Confines id f.here (Images f src dst) (OnWay f.here dst)
        (do
          let q ← create dst
          append q ((← .get).contents p) : FileAction Unit) fun _ => True :=
      confines_bind creates fun q image =>
        confines_bind confines_get fun _ _ => confines_append image _
    simp only [file]
    exact (copies f rfl).1

/-- One round of copying stays among the images if the copying of what is in a directory does. -/
theorem confined_copyWith {m : String → String → FileAction Unit}
    (entries : ∀ (g : Files) (src dst : String),
      Confined (Images g src dst) (OnWay g.here dst) g (m src dst g).2) :
    Confined (Images f src dst) (OnWay f.here dst) f (copyWith m src dst f).2 := by
  rw [copyWith, Attempt.bind_apply, Attempt.get_apply]
  cases isDir : f.isDir src with
  | false =>
    simp only [isDir, Bool.false_eq_true, if_false]
    exact confined_copyFile
  | true =>
    simp only [isDir, if_true]
    have made := confined_makeDirAll (Images f src dst) f dst
    have grown := growing_makeDirAll dst f
    rw [Attempt.bind_apply]
    rcases ran : makeDirAll dst f with ⟨_ | _, g⟩ <;> rw [ran] at made grown
    · exact made
    simp only [Attempt.bind_apply, look]
    cases read : g.childrenAt src with
    | error e => exact made
    | ok children =>
      obtain ⟨spot, leads⟩ := Files.resolve_of_isDir isDir
      apply Attempt.forEach_keeps _ made
      intro e inside k confined
      have held := ((Files.of_childrenAt read).2 e.1 e.2).1 inside
      have isName := held.isName
      obtain ⟨p, leads', there⟩ := held
      obtain ⟨readable, rfl⟩ := readable_of_grows grown leads leads'
      have first : Copyable f src dst [e.1] :=
        made.copyable readable (List.cons_ne_nil _ _) (by simp [there])
      exact confined.child readable isName first (entries k _ _)

/-- **Copying creates images only**, and the directories on the way to the destination. -/
theorem confined_copyTree (n : Nat) (src dst : String) (f : Files) :
    Confined (Images f src dst) (OnWay f.here dst) f (copyTree n src dst f).2 := by
  induction n generalizing f src dst with
  | zero => exact .refl f
  | succ n ih => exact confined_copyWith fun g src dst => ih src dst g

end Images

/-- Neither of source and destination is the other or below it, and no directory that is missing on
the way to the destination is in the source. -/
structure Apart (f : Files) (src dst : String) : Prop where
  source : ¬landing f.here src <+: landing f.here dst
  target : ¬landing f.here dst <+: landing f.here src
  way : ∀ q, OnWay f.here dst q → f.tree.node? q = none → ¬landing f.here src <+: q

/-- From a source apart, what may be copied is what was there. -/
theorem Apart.view {f : Files} {src dst : String} (apart : Apart f src dst) {r : Place}
    (h : Copyable f src dst r) : f.view src r ≠ none := by
  cases h with
  | there seen => exact seen
  | above onWay missing => exact absurd (List.prefix_append _ r) (apart.way _ onWay missing)
  | @copied _ image _ same =>
    have below : landing f.here dst <+: landing f.here src ++ r := same ▸ List.prefix_append _ image
    rcases List.prefix_or_prefix_of_prefix (List.prefix_append _ r) below with inside | inside
    · exact absurd inside apart.source
    · exact absurd inside apart.target

theorem copy_eq (src dst : String) (f : Files) :
    copy src dst f = if f.pathExists dst then (.ok false, f) else
      ((copyTree (maxPath + 1) src dst f).1.map fun _ => true,
        (copyTree (maxPath + 1) src dst f).2) := by
  rw [copy, Attempt.bind_apply, Attempt.get_apply]
  cases there : f.pathExists dst with
  | true => simp [there]
  | false =>
    simp only [there, Bool.false_eq_true, if_false]
    rw [Attempt.bind_apply]
    rcases copyTree (maxPath + 1) src dst f with ⟨_ | _, g⟩ <;> rfl

/-- **Copying ends and creates images only**, whatever it comes to. To copy an entry by copying what
is in it is possible in one way, without a bound on the depth. A place where nothing was is an image,
or on the way to the destination; and where source and destination are apart, it is the image of
something that was in the source. -/
theorem copy_creates_images (f : Files) (src dst : String) :
    (∀ m : String → String → FileAction Unit,
      (∀ src dst, m src dst = copyWith m src dst) ↔ m = copyTree (maxPath + 1)) ∧
    ∀ p, f.tree.node? p = none → (copy src dst f).2.tree.node? p ≠ none →
      (∃ r, p = landing f.here dst ++ r ∧ Copyable f src dst r ∧
        (Apart f src dst → f.view src r ≠ none)) ∨ OnWay f.here dst p := by
  refine ⟨eq_copyTree, fun p missing created => ?_⟩
  rw [copy_eq] at created
  split at created
  next => exact absurd missing created
  next =>
    by_cases image : Images f src dst p
    · obtain ⟨r, rfl, copyable⟩ := image
      exact .inl ⟨r, rfl, copyable, fun apart => apart.view copyable⟩
    · rcases (confined_copyTree _ src dst f).there image with same | ⟨onWay, -, -⟩
      · exact absurd (same.2 missing) created
      · exact .inr onWay

/-- A file in a directory is copied next to it: its image is that of something in the source. -/
theorem copy_creates_images_apart :
    let f : Files := { tree := (Tree.empty.put ["a"] .dir).put ["a", "x"] (.file .empty) }
    f.tree.node? ["b", "x"] = none ∧ (copy "a" "b" f).2.tree.node? ["b", "x"] ≠ none ∧
      Apart f "a" "b" ∧ ∃ r, ["b", "x"] = landing f.here "b" ++ r ∧ f.view "a" r ≠ none := by
  intro f
  have missing : f.tree.node? ["b", "x"] = none := by decide +kernel
  have created : (copy "a" "b" f).2.tree.node? ["b", "x"] ≠ none := by decide +kernel
  have way : ∀ a ∈ Path.ancestors "b",
      ¬landing f.here "a" <+: landing f.here a ∧ landing f.here a ≠ ["b", "x"] := by
    decide +kernel
  have apart : Apart f "a" "b" := by
    refine ⟨by decide +kernel, by decide +kernel, ?_⟩
    rintro q ⟨a, isAncestor, rfl⟩ -
    exact (way a isAncestor).1
  refine ⟨missing, created, apart, ?_⟩
  rcases (copy_creates_images f "a" "b").2 ["b", "x"] missing created with
    ⟨r, same, -, seen⟩ | ⟨a, isAncestor, same⟩
  · exact ⟨r, same, seen apart⟩
  · exact absurd same (way a isAncestor).2

/-! ## A destination below its source -/

section Growth

variable {m : String → String → FileAction Unit} {f g : Files} {src dst : String}

theorem growing_copyFile (src dst : String) : Growing (copyFile src dst) := by
  refine growing_bind growing_get fun f => ?_
  split
  · exact growing_bind (growing_create dst) fun q =>
      growing_bind growing_get fun _ => growing_append q _
  · exact growing_fail _
  · exact growing_fail _

/-- Once the destination was made, what is in the source is copied, and nothing is lost by that. -/
theorem growing_copyEntries (entries : ∀ src dst, Growing (m src dst)) (src dst : String) :
    Growing (do
      let children ← look fun f => f.childrenAt src
      .forEach children fun e => m (Path.join src e.1) (Path.join dst e.1)) :=
  growing_bind (growing_look _) fun _ => growing_forEach fun _ => entries _ _

theorem growing_copyTree (n : Nat) (src dst : String) : Growing (copyTree n src dst) := by
  induction n generalizing src dst with
  | zero => exact growing_fail _
  | succ n ih =>
    refine growing_bind growing_get fun f => ?_
    split
    · exact growing_bind (growing_makeDirAll dst) fun _ => growing_copyEntries ih src dst
    · exact growing_copyFile src dst

/-- A round on a directory makes the destination. -/
theorem grows_makeDirAll (entries : ∀ src dst, Growing (m src dst)) (isDir : f.isDir src = true)
    (made : makeDirAll dst f = (.ok (), g)) : Grows g (copyWith m src dst f).2 := by
  rw [copyWith, Attempt.bind_apply, Attempt.get_apply]
  simp only [isDir, if_true]
  rw [Attempt.bind_apply, made]
  exact growing_copyEntries entries src dst g

/-- A round on a directory copies what is read first from it then. -/
theorem grows_first {e : String × Node} {others : List (String × Node)}
    (entries : ∀ src dst, Growing (m src dst)) (isDir : f.isDir src = true)
    (made : makeDirAll dst f = (.ok (), g)) (read : g.childrenAt src = .ok (e :: others)) :
    Grows (m (Path.join src e.1) (Path.join dst e.1) g).2 (copyWith m src dst f).2 := by
  rw [copyWith, Attempt.bind_apply, Attempt.get_apply]
  simp only [isDir, if_true]
  rw [Attempt.bind_apply, made]
  simp only [Attempt.bind_apply, look, read, Attempt.forEach]
  rcases m (Path.join src e.1) (Path.join dst e.1) g with ⟨_ | _, k⟩
  · exact .refl k
  · exact growing_forEach (fun _ => entries _ _) k

/-- Two rounds make the destination and, as the first directory that is read, another one in it. -/
theorem grows_twice {k : Files} {e : String × Node} {others : List (String × Node)}
    (isDir : f.isDir src = true) (made : makeDirAll dst f = (.ok (), g))
    (read : g.childrenAt src = .ok (e :: others)) (isDir' : g.isDir (Path.join src e.1) = true)
    (made' : makeDirAll (Path.join dst e.1) g = (.ok (), k)) (n : Nat) :
    Grows k (copyTree (n + 2) src dst f).2 := by
  have inner := grows_makeDirAll (growing_copyTree n) isDir' made'
  exact inner.trans (grows_first (growing_copyTree (n + 1)) isDir made read)

end Growth

/-- An empty directory that is copied into itself is not empty when it is read: the copy has an image
of itself, which was not in the source. -/
theorem copy_repeats_below_source :
    ¬∀ (f : Files) (src dst : String) (p : Place), f.tree.node? p = none →
      (copy src dst f).2.tree.node? p ≠ none →
      (∃ r, p = landing f.here dst ++ r ∧ f.view src r ≠ none) ∨ OnWay f.here dst p := by
  intro claim
  let f : Files := { tree := Tree.empty.put ["a"] .dir }
  let g := (makeDirAll "a/b" f).2
  let k := (makeDirAll (Path.join "a/b" "b") g).2
  have succeeds {m : FileAction Unit} {f : Files} (ok : (m f).1.toOption = some ()) :
      m f = (.ok (), (m f).2) :=
    Prod.ext (ok_of_toOption ok) rfl
  have made : makeDirAll "a/b" f = (.ok (), g) := succeeds (by decide +kernel)
  have read : g.childrenAt "a" = .ok [("b", .dir)] := ok_of_toOption (by decide +kernel)
  have made' : makeDirAll (Path.join "a/b" "b") g = (.ok (), k) := succeeds (by decide +kernel)
  have there : k.tree.node? ["a", "b", "b"] ≠ none := by decide +kernel
  have created : (copy "a" "a/b" f).2.tree.node? ["a", "b", "b"] ≠ none := by
    have absent : ¬f.pathExists "a/b" = true := by decide +kernel
    obtain ⟨n, rounds⟩ : ∃ n, maxPath + 1 = n + 2 := ⟨4094, rfl⟩
    have grown := grows_twice (by decide +kernel) made read (by decide +kernel) made' n
    rw [copy_eq, if_neg absent, rounds]
    exact grown.stays _ there
  have way : ∀ a ∈ Path.ancestors "a/b", landing f.here a ≠ ["a", "b", "b"] := by decide +kernel
  rcases claim f "a" "a/b" ["a", "b", "b"] (by decide +kernel) created with
    ⟨r, same, seen⟩ | ⟨a, isAncestor, same⟩
  · have lands : landing f.here "a/b" = ["a", "b"] := by decide +kernel
    obtain rfl : r = ["b"] := by simpa [lands] using same.symm
    exact seen (by decide +kernel)
  · exact way a isAncestor same

end Chore.File
