import Chore.Proofs.File.Growth

/-!
# What was made

What a successful operation has left behind, as the paths show it: a path leads to a directory once
directories were made on the whole way to it (`isDir_of_makeDirAll`), and a file that was made is where
its path leads (`create_ok`). Both have put a node under a name in a directory, where it may stand
(`LeadsToName.canPut`).

A path without two dots goes down only. Where it leads to a directory, it is followed through
directories (`resolve_of_hasDir`), and it leads into the tree unless it has no steps at all
(`lands_of_isDir`).
-/

set_option autoImplicit false

namespace Chore.File

namespace Files

variable {f f' : Files} {path name : String} {front blanks segments : List String} {d p : Place}
  {n : Node} {spot : Spot}

/-! ## Following -/

theorem follow_append (f : Files) (spot : Spot) (front behind : List String) :
    f.follow spot (front ++ behind) = f.follow spot front >>= fun s => f.follow s behind := by
  induction front generalizing spot with
  | nil => rfl
  | cons segment front ih =>
    rw [List.cons_append, follow, follow]
    cases f.enter spot segment with
    | error e => rfl
    | ok next => exact ih next

theorem enter_idle (h : f.hasDir p = true) {segment : String} (idle : Path.isIdle segment = true) :
    f.enter (.inside p) segment = .ok (.inside p) := by
  rw [enter, if_neg (by simp [h]), if_pos idle]

theorem follow_idle (h : f.hasDir p = true) (idle : ∀ s ∈ segments, Path.isIdle s = true) :
    f.follow (.inside p) segments = .ok (.inside p) := by
  induction segments with
  | nil => rfl
  | cons segment segments ih =>
    have ⟨first, others⟩ := List.forall_mem_cons.1 idle
    rw [follow, enter_idle h first]
    exact ih others

theorem enter_name (h : f.hasDir p = true) (isName : IsName name)
    (there : f.tree.node? (p ++ [name]) ≠ none) :
    f.enter (.inside p) name = .ok (.inside (p ++ [name])) := by
  have found : (f.tree.node? (p ++ [name])).isSome = true := Option.isSome_iff_ne_none.2 there
  rw [enter, if_neg (by simp [h]), if_neg (by simp [isName.solid]), if_neg isName.down,
    if_neg (Nat.not_lt.2 isName.short), if_pos found]

theorem mem_segments_of_start {s : String} (h : s ∈ (f.start path).2) : s ∈ Path.segments path := by
  obtain ⟨front, whole⟩ := start_segments f path
  rw [whole]
  exact List.mem_append_right _ h

theorem noNul_of_usable (h : usable path = .ok ()) : '\x00' ∉ path.toList := by
  obtain ⟨_, noNul, -⟩ := bind_ok h
  rw [withoutNul] at noNul
  split at noNul
  next => cases noNul
  next absent => simpa using absent

namespace LeadsToName

theorem isName (h : LeadsToName f path front spot name blanks)
    (short : name.utf8ByteSize ≤ maxName) : IsName name := by
  have inside : name ∈ Path.segments path := by
    apply mem_segments_of_start
    rw [h.parts]
    simp
  refine ⟨h.solid, h.down, Path.not_mem_of_mem_segments inside, ?_, short⟩
  exact fun nul => noNul_of_usable h.usable (Path.mem_of_mem_segments inside nul)

theorem canPut (h : LeadsToName f path front (.inside d) name blanks)
    (short : name.utf8ByteSize ≤ maxName) (fits : n = .dir ∨ f.hasDir (d ++ [name]) = false) :
    f.tree.canPut (d ++ [name]) n := by
  have dir : f.tree.node? d = some .dir := of_decide_eq_true (h.dir d rfl)
  have there : f.tree.node? d ≠ none := by simp [dir]
  refine ⟨by simp, by rwa [List.dropLast_concat], ?_, ?_⟩
  · exact fits.imp_right fun noDir => of_decide_eq_false noDir
  · intro other inside
    rcases List.mem_append.1 inside with inside | inside
    · exact Tree.isName_of_there there other inside
    · obtain rfl := List.mem_singleton.1 inside
      exact h.isName short

theorem grow (h : LeadsToName f path front (.inside d) name blanks) (grown : Grows f f') :
    LeadsToName f' path front (.inside d) name blanks := by
  obtain ⟨starts, same⟩ := grown.start path
  obtain ⟨spot, followed, becomes⟩ := grown.follow starts h.followed
  obtain rfl := becomes.of_inside
  refine ⟨h.usable, same.trans h.parts, h.blank, h.solid, h.down, followed, ?_⟩
  rintro _ ⟨⟩
  exact grown.dirs d (h.dir d rfl)

/-- A path leads to its last name if that is there, and is a directory in case a slash follows. -/
theorem resolve (h : LeadsToName f path front (.inside d) name blanks)
    (short : name.utf8ByteSize ≤ maxName) (there : f.tree.node? (d ++ [name]) ≠ none)
    (slash : blanks = [] ∨ f.hasDir (d ++ [name]) = true) :
    f.resolve path = .ok (.inside (d ++ [name])) := by
  have ends : f.follow (.inside (d ++ [name])) blanks = .ok (.inside (d ++ [name])) := by
    rcases slash with rfl | dir
    · rfl
    · apply follow_idle dir
      intro s hs
      rw [h.blank s hs]
      rfl
  apply resolve_eq_ok_iff.2 ⟨h.usable, _⟩
  rw [h.parts, List.append_assoc, follow_append, h.followed]
  change f.follow (.inside d) (name :: blanks) = _
  rw [follow, enter_name (h.dir d rfl) (h.isName short) there]
  exact ends

end LeadsToName

/-- A path to a directory can be followed. -/
theorem resolve_of_isDir (h : f.isDir path = true) : ∃ spot, f.resolve path = .ok spot := by
  rw [isDir] at h
  cases leads : f.resolve path with
  | error e =>
    rw [leads] at h
    cases h
  | ok spot => exact ⟨spot, rfl⟩

theorem usable_of_isDir (h : f.isDir path = true) : usable path = .ok () := by
  obtain ⟨spot, leads⟩ := resolve_of_isDir h
  exact (resolve_eq_ok_iff.1 leads).1

/-- A path to a file leads into the tree. -/
theorem fileAt_ok (h : f.fileAt path = .ok p) :
    f.resolve path = .ok (.inside p) ∧ ∃ bytes, f.tree.node? p = some (.file bytes) := by
  obtain ⟨spot, leads, h⟩ := bind_ok h
  cases spot with
  | adrift q => cases h
  | inside q =>
    cases there : f.tree.node? q with
    | none => simp [there] at h
    | some n =>
      cases n with
      | dir => simp [there] at h
      | file bytes =>
        simp only [there] at h
        cases h
        exact ⟨leads, bytes, there⟩

theorem contents_of_node? {bytes : ByteArray} (h : f.tree.node? p = some (.file bytes)) :
    f.contents p = bytes := by
  rw [contents, h]

/-! ## What was made -/

/-- Where something is made, there is a directory to make it in, and a name that is short enough. -/
theorem inside_of_placeOf (h : placeOf spot name = .ok p) :
    ∃ d, spot = .inside d ∧ p = d ++ [name] ∧ name.utf8ByteSize ≤ maxName := by
  cases spot with
  | adrift q => cases h
  | inside d =>
    rw [placeOf] at h
    split at h
    next => cases h
    next short =>
      cases h
      exact ⟨d, rfl, rfl, Nat.not_lt.1 short⟩

/-- A directory is made under a name where nothing was. -/
theorem makeDir_ok (h : makeDir path f = (.ok (), f')) :
    ∃ front d name blanks, LeadsToName f path front (.inside d) name blanks ∧
      name.utf8ByteSize ≤ maxName ∧ f' = f.setTree (f.tree.put (d ++ [name]) .dir) := by
  obtain ⟨⟨parent, last⟩, _, looked, h⟩ := Attempt.of_bind_ok h
  cases last with
  | name name slash =>
    obtain ⟨reached, rfl⟩ := Prod.mk.inj looked
    obtain ⟨p, _, placed, h⟩ := Attempt.of_bind_ok h
    obtain ⟨place, rfl⟩ := Prod.mk.inj placed
    obtain ⟨d, rfl, rfl, short⟩ := inside_of_placeOf place
    obtain ⟨_, _, ⟨⟩, h⟩ := Attempt.of_bind_ok h
    obtain ⟨front, blanks, leads, -⟩ := leadsToName_of_resolveParent reached
    refine ⟨front, d, name, blanks, leads, short, ?_⟩
    split at h
    · cases h
    · obtain ⟨_, g, allowed, made⟩ := Attempt.of_bind_ok h
      obtain ⟨-, rfl⟩ := Prod.mk.inj allowed
      cases made
      rfl
  | dot | dots | root => cases h

theorem isDir_of_makeDir (h : makeDir path f = (.ok (), f')) : f'.isDir path = true := by
  obtain ⟨front, d, name, blanks, leads, short, rfl⟩ := makeDir_ok h
  have made : (f.setTree (f.tree.put (d ++ [name]) .dir)).tree.node? (d ++ [name]) = some .dir := by
    simp [setTree, Tree.node?_put, leads.canPut short (.inl rfl)]
  have isDir := decide_eq_true made
  have leads := leads.grow (.put f (d ++ [name]) .dir)
  rw [Files.isDir, leads.resolve short (by simp [made]) (.inr isDir)]
  exact isDir

/-- **Once directories were made on the whole way to a path, it leads to one.** -/
theorem isDir_of_makeDirAll (h : makeDirAll path f = (.ok (), f')) (some : path ≠ "") :
    f'.isDir path = true := by
  have unlessDir {e : FileError} {g g' : Files}
      (h : (do if (← .get).isDir path then return else .fail e : FileAction Unit) g = (.ok (), g')) :
      g'.isDir path = true := by
    obtain ⟨_, _, ⟨⟩, h⟩ := Attempt.of_bind_ok h
    split at h
    next isDir =>
      cases h
      exact isDir
    next => cases h
  have tried {g g' : Files} {r : Except FileError Unit}
      (h : ((makeDir path).outcome : FileAction _) g = (.ok r, g')) : makeDir path g = (r, g') := by
    cases h
    rfl
  rw [makeDirAll, Path.ancestors, makeDirs, if_neg some] at h
  obtain ⟨r, g, first, h⟩ := Attempt.of_bind_ok h
  split at h
  next =>
    cases h
    exact isDir_of_makeDir (tried first)
  next =>
    obtain ⟨_, g', -, h⟩ := Attempt.of_bind_ok h
    obtain ⟨r, k, second, h⟩ := Attempt.of_bind_ok h
    split at h
    next =>
      cases h
      exact isDir_of_makeDir (tried second)
    next => exact unlessDir h
  next => exact unlessDir h

/-- Where a file was put, another one may be put in its place. -/
theorem canPut_again {bytes : ByteArray} (fits : ∀ bytes, f.tree.canPut p (.file bytes)) :
    (f.setTree (f.tree.put p (.file .empty))).tree.canPut p (.file bytes) := by
  obtain ⟨proper, dir, -, names⟩ := fits bytes
  have dir' := (Grows.put f p (.file .empty)).dirs _ (decide_eq_true dir)
  refine ⟨proper, of_decide_eq_true dir', .inr ?_, names⟩
  simp [setTree, Tree.node?_put, fits]

/-- The place for a file is a name in a directory, and there is no directory there. -/
theorem placeForFile_ok (h : placeForFile path f = (.ok p, f')) :
    f' = f ∧ ∃ front d name, LeadsToName f path front (.inside d) name [] ∧ p = d ++ [name] ∧
      name.utf8ByteSize ≤ maxName ∧ f.hasDir p = false := by
  obtain ⟨⟨parent, last⟩, _, looked, placed⟩ := Attempt.of_bind_ok h
  cases last with
  | name name slash =>
    cases slash with
    | true => cases placed
    | false =>
      obtain ⟨reached, rfl⟩ := Prod.mk.inj looked
      obtain ⟨q, _, isPlace, placed⟩ := Attempt.of_bind_ok placed
      obtain ⟨place, rfl⟩ := Prod.mk.inj isPlace
      obtain ⟨_, _, ⟨⟩, placed⟩ := Attempt.of_bind_ok placed
      obtain ⟨d, rfl, rfl, short⟩ := inside_of_placeOf place
      obtain ⟨front, blanks, leads, bare⟩ := leadsToName_of_resolveParent reached
      obtain rfl := bare rfl
      split at placed
      next => cases placed
      next noDir =>
      cases placed
      exact ⟨rfl, front, d, name, leads, rfl, short, by simpa using noDir⟩
  | dot | dots | root => cases placed

/-- **A file that is made** is where its path leads, which is where the path led if there was one. -/
theorem create_ok (h : create path f = (.ok p, f')) :
    p = landing f.here path ∧ f' = f.setTree (f.tree.put p (.file .empty)) ∧
      (∀ bytes, f.tree.canPut p (.file bytes)) ∧ f'.resolve path = .ok (.inside p) ∧
      (f.tree.node? p ≠ none → f.resolve path = .ok (.inside p)) := by
  obtain ⟨_, g, placed, h⟩ := Attempt.of_bind_ok h
  obtain ⟨_, _, opened, h⟩ := Attempt.of_bind_ok h
  obtain ⟨-, rfl⟩ := Prod.mk.inj opened
  obtain ⟨_, _, made, ended⟩ := Attempt.of_bind_ok h
  cases ended
  cases made
  obtain ⟨rfl, front, d, name, leads, rfl, short, noDir⟩ := placeForFile_ok placed
  have fits : ∀ bytes, g.tree.canPut (d ++ [name]) (.file bytes) :=
    fun bytes => leads.canPut short (.inr noDir)
  refine ⟨leads.lands, rfl, fits, ?_, fun there => leads.resolve short there (.inl rfl)⟩
  apply (leads.grow (.put g (d ++ [name]) (.file .empty))).resolve short _ (.inl rfl)
  simp [setTree, Tree.node?_put, fits .empty]

/-! ## Paths that go down -/

theorem inside_of_follow (h : f.follow (.inside p) segments = .ok spot) : ∃ q, spot = .inside q := by
  induction segments generalizing p with
  | nil =>
    cases h
    exact ⟨p, rfl⟩
  | cons segment segments ih =>
    obtain ⟨next, entered, followed⟩ := bind_ok h
    rw [enter] at entered
    repeat' split at entered
    all_goals cases entered
    all_goals exact ih followed

theorem follow_adrift (down : ".." ∉ segments) (h : f.follow (.adrift p) segments = .ok spot) :
    spot = .adrift p ∧ ∀ s ∈ segments, Path.isIdle s = true := by
  induction segments with
  | nil =>
    cases h
    simp
  | cons segment segments ih =>
    rw [List.mem_cons, not_or] at down
    obtain ⟨next, entered, followed⟩ := bind_ok h
    rw [enter] at entered
    split at entered
    next idle =>
      cases entered
      obtain ⟨same, others⟩ := ih down.2 followed
      exact ⟨same, List.forall_mem_cons.2 ⟨idle, others⟩⟩
    next =>
      rw [if_neg (Ne.symm down.1)] at entered
      cases entered

theorem follow_adrift_idle (f : Files) (p : Place) (idle : ∀ s ∈ segments, Path.isIdle s = true) :
    f.follow (.adrift p) segments = .ok (.adrift p) := by
  induction segments with
  | nil => rfl
  | cons segment segments ih =>
    have ⟨first, others⟩ := List.forall_mem_cons.1 idle
    rw [follow, enter, if_pos first]
    exact ih others

theorem prefix_stepAlong (down : ".." ∉ segments) (p : Place) : p <+: stepAlong p segments := by
  induction segments generalizing p with
  | nil => exact List.prefix_refl p
  | cons segment segments ih =>
    rw [List.mem_cons, not_or] at down
    refine List.IsPrefix.trans ?_ (ih down.2 (stepTo p segment))
    rw [stepTo, if_neg (Ne.symm down.1)]
    split
    · exact List.prefix_refl p
    · exact List.prefix_append p _

theorem follow_down (down : ".." ∉ segments) (h : f.hasDir (stepAlong p segments) = true) :
    f.follow (.inside p) segments = .ok (.inside (stepAlong p segments)) := by
  induction segments generalizing p with
  | nil => rfl
  | cons segment segments ih =>
    have dir : f.tree.node? (stepAlong p (segment :: segments)) = some .dir := of_decide_eq_true h
    have above : f.hasDir p = true :=
      decide_eq_true (Tree.dir_of_prefix dir (prefix_stepAlong down p))
    rw [List.mem_cons, not_or] at down
    have step : f.enter (.inside p) segment = .ok (.inside (stepTo p segment)) := by
      cases idle : Path.isIdle segment with
      | true => rw [enter_idle above idle, stepTo_idle idle]
      | false =>
        have name := stepTo_name idle (Ne.symm down.1) p
        have there : f.tree.node? (p ++ [segment]) ≠ none := by
          apply Tree.there_of_prefix (Option.ne_none_iff_exists'.2 ⟨_, dir⟩)
          rw [← name]
          exact prefix_stepAlong down.2 _
        rw [enter_name above (Tree.isName_of_there there segment (by simp)) there, name]
    rw [follow, step]
    exact ih down.2 h

/-- From its start, a path leads through its steps. -/
theorem filter_start (f : Files) (path : String) :
    (f.start path).2.filter (fun s => !Path.isIdle s) = Path.steps path := by
  rw [start, Path.steps]
  split
  next absolute =>
    obtain ⟨rest, starts⟩ := Path.segments_of_isAbsolute absolute
    rw [starts, List.filter_cons_of_neg (by decide)]
    rfl
  next => rfl

/-- A path starts in a directory, or where there was one. -/
theorem start_cases (f : Files) (path : String) :
    ((f.start path).1 = .inside (origin f.here path) ∧ f.hasDir (origin f.here path) = true ∧
      (Path.isAbsolute path = true ∨ f.stands = true)) ∨
    ((f.start path).1 = .adrift (origin f.here path) ∧ Path.isAbsolute path = false ∧
      f.stands = false) := by
  rw [start, origin]
  cases absolute : Path.isAbsolute path with
  | true => exact .inl ⟨rfl, rfl, .inl rfl⟩
  | false =>
    cases stood : f.stands with
    | true => exact .inl ⟨rfl, (Bool.and_eq_true_iff.1 stood).2, .inr rfl⟩
    | false => exact .inr ⟨rfl, rfl, rfl⟩

theorem down_of_steps (f : Files) (down : ".." ∉ Path.steps path) : ".." ∉ (f.start path).2 := by
  intro inside
  rw [← filter_start f] at down
  exact down (List.mem_filter.2 ⟨inside, rfl⟩)

/-- A path without steps leads where it starts. -/
theorem exists_of_no_steps (isUsable : usable path = .ok ()) (none : Path.steps path = []) :
    f.pathExists path = true := by
  have idle : ∀ s ∈ (f.start path).2, Path.isIdle s = true := by
    rw [← filter_start f] at none
    intro s hs
    simpa using List.filter_eq_nil_iff.1 none s hs
  have leads : ∃ spot, f.resolve path = .ok spot := by
    rcases start_cases f path with ⟨starts, dir, -⟩ | ⟨starts, -, -⟩
    · refine ⟨.inside (origin f.here path), resolve_eq_ok_iff.2 ⟨isUsable, ?_⟩⟩
      rw [starts]
      exact follow_idle dir idle
    · refine ⟨.adrift (origin f.here path), resolve_eq_ok_iff.2 ⟨isUsable, ?_⟩⟩
      rw [starts]
      exact follow_adrift_idle f _ idle
  obtain ⟨spot, leads⟩ := leads
  rw [pathExists, leads]
  rfl

/-- A path without two dots that leads to a directory leads into the tree if it has any step. -/
theorem lands_of_isDir (down : ".." ∉ Path.steps path) (some : Path.steps path ≠ [])
    (h : f.isDir path = true) :
    f.resolve path = .ok (.inside (landing f.here path)) ∧
      f.hasDir (landing f.here path) = true ∧ (Path.isAbsolute path = true ∨ f.stands = true) := by
  obtain ⟨spot, leads⟩ := resolve_of_isDir h
  rw [isDir, leads] at h
  have lands := resolve_landing leads
  have followed := (resolve_eq_ok_iff.1 leads).2
  rcases start_cases f path with ⟨starts, -, root⟩ | ⟨starts, -, -⟩
  · rw [starts] at followed
    obtain ⟨q, rfl⟩ := inside_of_follow followed
    obtain rfl : q = landing f.here path := lands
    exact ⟨leads, h, root⟩
  · rw [starts] at followed
    have idle := (follow_adrift (down_of_steps f down) followed).2
    refine absurd ?_ some
    rw [← filter_start f, List.filter_eq_nil_iff]
    intro s hs
    simp [idle s hs]

/-- A path without two dots leads to the directory at its landing. -/
theorem resolve_of_hasDir (isUsable : usable path = .ok ()) (down : ".." ∉ Path.steps path)
    (attached : Path.isAbsolute path = true ∨ f.attached = true)
    (dir : f.hasDir (landing f.here path) = true) :
    f.resolve path = .ok (.inside (landing f.here path)) := by
  have there : f.tree.node? (landing f.here path) = some .dir := of_decide_eq_true dir
  have above : f.hasDir (origin f.here path) = true :=
    decide_eq_true (Tree.dir_of_prefix there (prefix_stepAlong down _))
  have starts : (f.start path).1 = .inside (origin f.here path) := by
    rcases start_cases f path with ⟨starts, -, -⟩ | ⟨-, relative, gone⟩
    · exact starts
    · simp only [origin, relative, Bool.false_eq_true, if_false] at above
      simp only [relative, Bool.false_eq_true, false_or] at attached
      simp [stands, attached, above] at gone
  have lands : stepAlong (origin f.here path) (f.start path).2 = landing f.here path := by
    have := start_place f path
    rwa [starts] at this
  apply resolve_eq_ok_iff.2 ⟨isUsable, _⟩
  rw [starts, ← lands]
  apply follow_down (down_of_steps f down)
  rwa [lands]

/-- **Where a path led nowhere and leads to a directory now, there was nothing**, as long as files that
were there are still there. -/
theorem fresh_of_isDir (grown : Grows f f') (down : ".." ∉ Path.steps path)
    (absent : f.pathExists path = false) (h : f'.isDir path = true)
    (keeps : f.tree.node? (landing f.here path) ≠ none →
      f'.tree.node? (landing f.here path) = f.tree.node? (landing f.here path)) :
    Path.steps path ≠ [] ∧ f.tree.node? (landing f.here path) = none := by
  have isUsable := usable_of_isDir h
  have some : Path.steps path ≠ [] := by
    intro none
    rw [exists_of_no_steps isUsable none] at absent
    cases absent
  refine ⟨some, ?_⟩
  by_contra there
  obtain ⟨-, dir, root⟩ := lands_of_isDir down some h
  rw [grown.here, hasDir, keeps there] at dir
  have attached : Path.isAbsolute path = true ∨ f.attached = true :=
    root.imp_right fun stood => grown.attached (Bool.and_eq_true_iff.1 stood).1
  have leads := resolve_of_hasDir isUsable down attached dir
  rw [pathExists, leads] at absent
  cases absent

end Files

end Chore.File
