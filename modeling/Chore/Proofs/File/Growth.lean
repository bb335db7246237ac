import Mathlib.Data.List.Induction
import Chore.Proofs.File.Frame
import Chore.Proofs.File.Listing

/-!
# Files that grow

Making directories and writing files takes nothing away: directories stay, and there is something
wherever there was (`Grows`). Each operation that only adds is put together from such parts
(`Growing`). So a path that could be followed before it can be followed afterwards, and to the same
place (`Grows.resolve`); only a directory that was gone may be there again (`Becomes`).
-/

set_option autoImplicit false

namespace Chore.File

namespace Tree

variable {t : Tree} {p q : Place} {n : Node}

/-- What has something below it is a directory. -/
theorem dir_of_below (h : t.node? (p ++ q) = some n) (proper : q ≠ []) : t.node? p = some .dir := by
  induction q using List.reverseRecOn generalizing n with
  | nil => exact absurd rfl proper
  | append_singleton q name ih =>
    rw [← List.append_assoc] at h
    have dir := (dir_above h).1
    cases q with
    | nil => rwa [List.append_nil] at dir
    | cons first q => exact ih dir (List.cons_ne_nil _ _)

/-- Below a file there is nothing. -/
theorem none_below_file {bytes : ByteArray} (h : t.node? p = some (.file bytes)) (proper : q ≠ []) :
    t.node? (p ++ q) = none := by
  by_contra there
  obtain ⟨n, there⟩ := Option.ne_none_iff_exists'.1 there
  rw [dir_of_below there proper] at h
  cases h

/-- On the way to something there is something. -/
theorem there_of_prefix (h : t.node? q ≠ none) (initial : p <+: q) : t.node? p ≠ none := by
  obtain ⟨rest, rfl⟩ := initial
  obtain ⟨n, there⟩ := Option.ne_none_iff_exists'.1 h
  cases rest with
  | nil => rwa [List.append_nil] at h
  | cons name rest =>
    rw [dir_of_below there (List.cons_ne_nil _ _)]
    exact Option.some_ne_none _

theorem dir_of_prefix (h : t.node? q = some .dir) (initial : p <+: q) : t.node? p = some .dir := by
  obtain ⟨rest, rfl⟩ := initial
  cases rest with
  | nil => rwa [List.append_nil] at h
  | cons name rest => exact dir_of_below h (List.cons_ne_nil _ _)

theorem isName_of_there (h : t.node? p ≠ none) : ∀ name ∈ p, IsName name := by
  obtain ⟨n, there⟩ := Option.ne_none_iff_exists'.1 h
  obtain ⟨l, found, -⟩ := Option.map_eq_some_iff.1 there
  cases p with
  | nil => simp
  | cons name rest => exact t.named _ ((listed?_eq_some_iff (List.cons_ne_nil _ _)).1 found)

end Tree

/-- From one to another, files have lost nothing. -/
structure Grows (f f' : Files) : Prop where
  here : f'.here = f.here
  dirs : ∀ p, f.hasDir p = true → f'.hasDir p = true
  stays : ∀ p, f.tree.node? p ≠ none → f'.tree.node? p ≠ none
  stands : f.stands = true → f'.stands = true
  attached : f'.attached = true → f.attached = true

namespace Grows

variable {f f' f'' : Files}

theorem refl (f : Files) : Grows f f :=
  ⟨rfl, fun _ dir => dir, fun _ there => there, id, id⟩

theorem trans (first : Grows f f') (second : Grows f' f'') : Grows f f'' where
  here := second.here.trans first.here
  dirs p dir := second.dirs p (first.dirs p dir)
  stays p there := second.stays p (first.stays p there)
  stands stood := second.stands (first.stands stood)
  attached is := first.attached (second.attached is)

theorem put (f : Files) (p : Place) (n : Node) : Grows f (f.setTree (f.tree.put p n)) := by
  have dirs : ∀ q, f.hasDir q = true → (f.setTree (f.tree.put p n)).hasDir q = true := by
    intro q dir
    have dir : f.tree.node? q = some .dir := of_decide_eq_true dir
    apply decide_eq_true
    change (f.tree.put p n).node? q = some .dir
    rw [Tree.node?_put]
    split
    next here =>
      obtain ⟨fits, rfl | ⟨-, number, -, there⟩⟩ := here
      · rw [fits.2.2.1.resolve_right fun noDir => noDir dir]
      · rw [Tree.node?_eq_dir_iff, there] at dir
        cases dir
    next => exact dir
  refine ⟨rfl, dirs, ?_, ?_, ?_⟩
  · intro q there
    change (f.tree.put p n).node? q ≠ none
    rw [Tree.node?_put]
    split
    · exact Option.some_ne_none n
    · exact there
  · intro stood
    obtain ⟨attached, dir⟩ := Bool.and_eq_true_iff.1 stood
    have stays := dirs f.here dir
    have again : (f.setTree (f.tree.put p n)).attached = true :=
      Bool.and_eq_true_iff.2 ⟨attached, stays⟩
    exact Bool.and_eq_true_iff.2 ⟨again, stays⟩
  · intro attached
    exact (Bool.and_eq_true_iff.1 attached).1

end Grows

section Rules

variable {α β : Type}

/-- Whatever an attempt comes to, nothing is lost by it. -/
def Growing (m : FileAction α) : Prop :=
  ∀ f, Grows f (m f).2

theorem growing_pure (a : α) : Growing (pure a) :=
  fun f => .refl f

theorem growing_fail (e : FileError) : Growing (.fail e : FileAction α) :=
  fun f => .refl f

theorem growing_get : Growing .get :=
  fun f => .refl f

theorem growing_ofExcept (r : Except FileError α) : Growing (.ofExcept r) :=
  fun f => .refl f

theorem growing_look (g : Files → Except FileError α) : Growing (look g) :=
  fun f => .refl f

theorem growing_bind {m : FileAction α} {g : α → FileAction β} (first : Growing m)
    (second : ∀ a, Growing (g a)) : Growing (m >>= g) := by
  intro f
  have grown := first f
  rw [Attempt.bind_apply]
  rcases ran : m f with ⟨_ | a, t⟩ <;> rw [ran] at grown
  · exact grown
  · exact grown.trans (second a t)

theorem growing_outcome {m : FileAction α} (h : Growing m) :
    Growing (m.outcome : FileAction (Except FileError α)) :=
  fun f => h f

theorem growing_forEach {l : List α} {g : α → FileAction Unit} (h : ∀ a, Growing (g a)) :
    Growing (.forEach l g) := by
  induction l with
  | nil => exact growing_pure ()
  | cons a l ih => exact growing_bind (h a) fun _ => ih

theorem growing_put (p : Place) (n : Node) : Growing (put p n) :=
  fun f => .put f p n

end Rules

/-! ## Operations that only add -/

theorem growing_makeDir (path : String) : Growing (makeDir path) := by
  refine growing_bind (growing_look _) fun r => ?_
  obtain ⟨parent, last⟩ := r
  cases last with
  | name name slash =>
    refine growing_bind (growing_ofExcept _) fun p => growing_bind growing_get fun f => ?_
    split
    · exact growing_fail _
    · exact growing_bind (growing_look _) fun _ => growing_put p .dir
  | dot | dots | root => exact growing_fail _

theorem growing_makeDirs (paths : List String) : Growing (makeDirs paths) := by
  have unlessDir (path : String) (e : FileError) :
      Growing (do if (← .get).isDir path then return else .fail e : FileAction Unit) := by
    refine growing_bind growing_get fun f => ?_
    split
    · exact growing_pure ()
    · exact growing_fail e
  induction paths with
  | nil => exact growing_fail _
  | cons path ancestors ih =>
    have tries := growing_outcome (growing_makeDir path)
    rw [makeDirs]
    split
    · exact growing_pure ()
    refine growing_bind tries fun r => ?_
    split
    · exact growing_pure ()
    · refine growing_bind ih fun _ => growing_bind tries fun r => ?_
      split
      · exact growing_pure ()
      · exact unlessDir path _
    · exact unlessDir path _

theorem growing_makeDirAll (path : String) : Growing (makeDirAll path) :=
  growing_makeDirs _

/-- An attempt that leaves the files alone. -/
def Looks {α : Type} (m : FileAction α) : Prop :=
  ∀ f, (m f).2 = f

theorem looks_bind {α β : Type} {m : FileAction α} {g : α → FileAction β} (first : Looks m)
    (second : ∀ a, Looks (g a)) : Looks (m >>= g) := by
  intro f
  have same := first f
  rw [Attempt.bind_apply]
  rcases ran : m f with ⟨_ | a, g'⟩ <;> rw [ran] at same
  · exact same
  · exact (second a g').trans same

theorem looks_placeForFile (path : String) : Looks (placeForFile path) := by
  refine looks_bind (fun _ => rfl) fun r => ?_
  obtain ⟨parent, last⟩ := r
  cases last with
  | name name slash =>
    cases slash with
    | true => exact fun _ => rfl
    | false =>
      refine looks_bind (fun _ => rfl) fun p => looks_bind (fun _ => rfl) fun g => ?_
      split <;> exact fun _ => rfl
  | dot | dots | root => exact fun _ => rfl

theorem growing_placeForFile (path : String) : Growing (placeForFile path) := by
  intro f
  rw [looks_placeForFile path f]
  exact .refl f

theorem growing_create (path : String) : Growing (create path) :=
  growing_bind (growing_placeForFile path) fun p => growing_bind (growing_look _) fun _ =>
    growing_bind (growing_put p _) fun _ => growing_pure p

theorem growing_append (p : Place) (bytes : ByteArray) : Growing (append p bytes) := by
  refine growing_bind growing_get fun f => ?_
  split
  · exact growing_put p _
  · exact growing_bind (growing_put p _) fun _ => growing_fail _

/-! ## Paths in files that have grown -/

/-- What a spot is in files that have grown: the same, unless a directory that was gone is there
again. -/
def Becomes (f f' : Files) (spot spot' : Spot) : Prop :=
  spot' = spot ∨ ∃ p, spot = .adrift p ∧ spot' = .inside p ∧ f.hasDir p = false ∧ f'.hasDir p = true

namespace Becomes

variable {f f' : Files} {p : Place} {spot' : Spot}

theorem of_inside (h : Becomes f f' (.inside p) spot') : spot' = .inside p := by
  rcases h with same | ⟨_, gone, -⟩
  · exact same
  · cases gone

end Becomes

namespace Grows

variable {f f' : Files} {spot spot' next : Spot} {segment path : String} {segments : List String}

theorem enter_inside {p : Place} (h : Grows f f') (entered : f.enter (.inside p) segment = .ok next) :
    f'.enter (.inside p) segment = .ok next := by
  rw [Files.enter] at entered ⊢
  split at entered
  next => cases entered
  next isDir =>
  have isDir : f'.hasDir p = true := h.dirs p (by simpa using isDir)
  rw [if_neg (by simp [isDir])]
  split at entered
  next idle => rw [if_pos idle, entered]
  next solid =>
  rw [if_neg solid]
  split at entered
  next up => rw [if_pos up, entered]
  next down =>
  rw [if_neg down]
  split at entered
  next => cases entered
  next short =>
  rw [if_neg short]
  split at entered
  next there =>
    have there : (f'.tree.node? (p ++ [segment])).isSome = true :=
      Option.isSome_iff_ne_none.2 (h.stays _ (Option.isSome_iff_ne_none.1 there))
    rw [if_pos there, entered]
  next => cases entered

/-- A directory that is there again can be left for the one above it. -/
theorem hasDir_dropLast {p : Place} (h : f.hasDir p = true) : f.hasDir p.dropLast = true :=
  decide_eq_true (Tree.dir_of_prefix (of_decide_eq_true h) (List.dropLast_prefix p))

theorem enter (h : Grows f f') (becomes : Becomes f f' spot spot')
    (entered : f.enter spot segment = .ok next) :
    ∃ next', f'.enter spot' segment = .ok next' ∧ Becomes f f' next next' := by
  cases spot with
  | inside p =>
    obtain rfl := becomes.of_inside
    exact ⟨next, h.enter_inside entered, .inl rfl⟩
  | adrift p =>
    rw [Files.enter] at entered
    split at entered
    next idle =>
      cases entered
      rcases becomes with rfl | ⟨_, ⟨⟩, rfl, gone, again⟩
      · exact ⟨_, if_pos idle, .inl rfl⟩
      · refine ⟨.inside p, ?_, .inr ⟨p, rfl, rfl, gone, again⟩⟩
        rw [Files.enter, if_neg (by simp [again]), if_pos idle]
    next solid =>
    split at entered
    next up =>
      cases entered
      -- The directory above may be there, or gone, or there again.
      have above : Becomes f f' (if f.hasDir p.dropLast then .inside p.dropLast else .adrift p.dropLast)
          (if f'.hasDir p.dropLast then .inside p.dropLast else .adrift p.dropLast) := by
        cases there : f.hasDir p.dropLast with
        | true =>
          rw [h.dirs _ there]
          exact .inl rfl
        | false =>
          cases again : f'.hasDir p.dropLast with
          | true => exact .inr ⟨_, rfl, rfl, there, again⟩
          | false => exact .inl rfl
      rcases becomes with rfl | ⟨_, ⟨⟩, rfl, gone, again⟩
      · refine ⟨_, ?_, above⟩
        rw [Files.enter, if_neg solid, if_pos up]
      · refine ⟨.inside p.dropLast, ?_, ?_⟩
        · rw [Files.enter, if_neg (by simp [again]), if_neg solid, if_pos up]
        · rwa [hasDir_dropLast again] at above
    next => cases entered

theorem follow (h : Grows f f') (becomes : Becomes f f' spot spot')
    (followed : f.follow spot segments = .ok next) :
    ∃ next', f'.follow spot' segments = .ok next' ∧ Becomes f f' next next' := by
  induction segments generalizing spot spot' with
  | nil =>
    cases followed
    exact ⟨spot', rfl, becomes⟩
  | cons segment segments ih =>
    obtain ⟨middle, entered, followed⟩ := bind_ok followed
    obtain ⟨middle', entered', becomes⟩ := h.enter becomes entered
    obtain ⟨next', followed', becomes⟩ := ih becomes followed
    refine ⟨next', ?_, becomes⟩
    rw [Files.follow, entered']
    exact followed'

theorem start (h : Grows f f') (path : String) :
    Becomes f f' (f.start path).1 (f'.start path).1 ∧ (f'.start path).2 = (f.start path).2 := by
  rw [Files.start, Files.start, h.here]
  split
  next => exact ⟨.inl rfl, rfl⟩
  next =>
    refine ⟨?_, rfl⟩
    cases stood : f.stands with
    | true =>
      rw [h.stands stood]
      exact .inl rfl
    | false =>
      cases again : f'.stands with
      | false => exact .inl rfl
      | true =>
        obtain ⟨attached, dir⟩ := Bool.and_eq_true_iff.1 again
        have gone : f.hasDir f.here = false := by
          simpa [Files.stands, h.attached attached] using stood
        exact .inr ⟨f.here, rfl, rfl, gone, h.here ▸ dir⟩

/-- **A path that could be followed still leads there.** -/
theorem resolve (h : Grows f f') (leads : f.resolve path = .ok spot) :
    ∃ spot', f'.resolve path = .ok spot' ∧ Becomes f f' spot spot' := by
  obtain ⟨usable, followed⟩ := Files.resolve_eq_ok_iff.1 leads
  obtain ⟨starts, same⟩ := h.start path
  obtain ⟨spot', followed', becomes⟩ := h.follow starts followed
  rw [← same] at followed'
  exact ⟨spot', Files.resolve_eq_ok_iff.2 ⟨usable, followed'⟩, becomes⟩

theorem resolve_inside {p : Place} (h : Grows f f') (leads : f.resolve path = .ok (.inside p)) :
    f'.resolve path = .ok (.inside p) := by
  obtain ⟨spot', leads', becomes⟩ := h.resolve leads
  rw [leads', becomes.of_inside]

end Grows

end Chore.File
