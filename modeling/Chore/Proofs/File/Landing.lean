import Chore.File.Files
import Chore.Proofs.File.Segments

/-!
# Where paths lead

The place a path leads to can be told from the path and the current directory: there are no links, so
every step goes to a name, or up (`landing`). What is in the tree only decides whether the path can
be followed. So a path that is followed leads to its landing (`resolve_landing`), and the place where
something is made or written is the landing of its path (`Names.placeOf_landing`).
-/

set_option autoImplicit false

namespace Chore.File

/-- The place one step away. -/
def stepTo (p : Place) (step : String) : Place :=
  if Path.isIdle step then p else if step = ".." then p.dropLast else p ++ [step]

/-- The place some steps away. -/
def stepAlong (p : Place) (steps : List String) : Place :=
  steps.foldl stepTo p

/-- Where a path starts, from a current directory. -/
def origin (here : Place) (path : String) : Place :=
  if Path.isAbsolute path then [] else here

/-- Where a path leads, from a current directory. -/
def landing (here : Place) (path : String) : Place :=
  stepAlong (origin here path) (Path.steps path)

theorem stepTo_idle {step : String} (h : Path.isIdle step = true) (p : Place) : stepTo p step = p :=
  if_pos h

theorem stepTo_up (p : Place) : stepTo p ".." = p.dropLast :=
  rfl

theorem stepTo_name {step : String} (solid : Path.isIdle step = false) (down : step ≠ "..")
    (p : Place) : stepTo p step = p ++ [step] := by
  rw [stepTo, if_neg (Bool.eq_false_iff.1 solid), if_neg down]

theorem stepAlong_append (p : Place) (front behind : List String) :
    stepAlong p (front ++ behind) = stepAlong (stepAlong p front) behind :=
  List.foldl_append

/-- Idle segments lead nowhere. -/
theorem stepAlong_filter (p : Place) (segments : List String) :
    stepAlong p (segments.filter fun s => !Path.isIdle s) = stepAlong p segments := by
  induction segments generalizing p with
  | nil => rfl
  | cons s segments ih =>
    cases idle : Path.isIdle s with
    | true =>
      rw [List.filter_cons_of_neg (by simp [idle]), ih]
      exact congrArg (stepAlong · segments) (stepTo_idle idle p).symm
    | false =>
      rw [List.filter_cons_of_pos (by simp [idle])]
      exact ih _

theorem landing_eq (here : Place) (path : String) :
    landing here path = stepAlong (origin here path) (Path.segments path) :=
  stepAlong_filter _ _

/-- A path that leads through the first steps of another starts where that starts. -/
theorem landing_of_initial {a path : String} (h : Path.Initial a path) (here : Place) :
    landing here a = stepAlong (origin here path) (Path.steps a) := by
  rw [landing, origin, h.absolute]
  rfl

theorem landing_join (here : Place) (dir : String) {path : String}
    (h : Path.isAbsolute path = false) :
    landing here (Path.join dir path) = stepAlong (landing here dir) (Path.steps path) := by
  rw [landing, origin, Path.isAbsolute_join dir h, Path.steps_join dir h, stepAlong_append]
  rfl

/-- The place of a spot. -/
def Spot.place : Spot → Place
  | inside p => p
  | adrift p => p

namespace Files

theorem enter_place {f : Files} {spot next : Spot} {segment : String}
    (h : f.enter spot segment = .ok next) : next.place = stepTo spot.place segment := by
  cases spot with
  | adrift p =>
    rw [enter] at h
    split at h
    next idle =>
      cases h
      exact (stepTo_idle idle p).symm
    split at h
    next up =>
      subst up
      cases h
      split <;> rfl
    next => cases h
  | inside p =>
    rw [enter] at h
    split at h
    next => cases h
    split at h
    next idle =>
      cases h
      exact (stepTo_idle idle p).symm
    next solid =>
    split at h
    next up =>
      subst up
      cases h
      rfl
    next down =>
    split at h
    next => cases h
    split at h
    next =>
      cases h
      exact (stepTo_name (Bool.eq_false_iff.2 solid) down p).symm
    next => cases h

theorem follow_place {f : Files} {spot last : Spot} {segments : List String}
    (h : f.follow spot segments = .ok last) : last.place = stepAlong spot.place segments := by
  induction segments generalizing spot with
  | nil =>
    cases h
    rfl
  | cons segment segments ih =>
    obtain ⟨next, entered, followed⟩ := bind_ok h
    rw [ih followed, enter_place entered]
    rfl

theorem start_place (f : Files) (path : String) :
    stepAlong (f.start path).1.place (f.start path).2 = landing f.here path := by
  rw [landing_eq, start, origin]
  split
  next absolute =>
    obtain ⟨rest, starts⟩ := Path.segments_of_isAbsolute absolute
    rw [starts]
    rfl
  next => split <;> rfl

/-- A path is followed from its start, if it can be one at all. -/
theorem resolve_eq_ok_iff {f : Files} {path : String} {spot : Spot} :
    f.resolve path = .ok spot ↔
      usable path = .ok () ∧ f.follow (f.start path).1 (f.start path).2 = .ok spot := by
  constructor
  · intro h
    obtain ⟨_, isUsable, followed⟩ := bind_ok h
    exact ⟨isUsable, followed⟩
  · rintro ⟨isUsable, followed⟩
    rw [resolve, isUsable]
    exact followed

/-- **A path that is followed leads to its landing.** -/
theorem resolve_landing {f : Files} {path : String} {spot : Spot} (h : f.resolve path = .ok spot) :
    spot.place = landing f.here path := by
  rw [← start_place]
  exact follow_place (resolve_eq_ok_iff.1 h).2

theorem start_segments (f : Files) (path : String) :
    ∃ front, Path.segments path = front ++ (f.start path).2 := by
  rw [start]
  split
  next absolute =>
    obtain ⟨rest, starts⟩ := Path.segments_of_isAbsolute absolute
    rw [starts]
    exact ⟨[""], rfl⟩
  next => exact ⟨[], rfl⟩

/-- Segments end in a last step and blanks, unless all are blank. -/
theorem exists_last {segments before : List String} {last : String}
    (h : segments.reverse.dropWhile (· = "") = last :: before) :
    last ≠ "" ∧ ∃ blanks, segments = before.reverse ++ [last] ++ blanks ∧ ∀ s ∈ blanks, s = "" := by
  have stops := List.head?_dropWhile_not (fun s : String => decide (s = "")) segments.reverse
  rw [h] at stops
  refine ⟨by simpa using stops, (segments.reverse.takeWhile (· = "")).reverse, ?_, ?_⟩
  · have whole : segments.reverse.takeWhile (· = "") ++ last :: before = segments.reverse := by
      rw [← h]
      exact List.takeWhile_append_dropWhile
    have back := congrArg List.reverse whole
    rw [List.reverse_append, List.reverse_cons, List.reverse_reverse] at back
    exact back.symm
  · intro s hs
    simpa using List.all_eq_true.1 List.all_takeWhile s (List.mem_reverse.1 hs)

theorem stepAlong_blanks {blanks : List String} (h : ∀ s ∈ blanks, s = "") (p : Place) :
    stepAlong p blanks = p := by
  have none : blanks.filter (fun s => !Path.isIdle s) = [] :=
    List.filter_eq_nil_iff.2 fun s hs => by
      rw [h s hs]
      decide
  rw [← stepAlong_filter, none]
  rfl

/-- A dot leads from a directory to itself. -/
theorem enter_dot {f : Files} {parent spot : Spot} (h : f.enter parent "." = .ok spot) :
    spot = parent ∧ ∀ d, parent = .inside d → f.hasDir d = true := by
  cases parent with
  | adrift p =>
    cases h
    exact ⟨rfl, nofun⟩
  | inside p =>
    rw [enter] at h
    split at h
    next => cases h
    next isDir =>
      cases h
      refine ⟨rfl, fun d same => ?_⟩
      cases same
      simpa using isDir

/-- A path leads along its front to a directory, and then to a name; blank segments may follow. -/
structure LeadsToName (f : Files) (path : String) (front : List String) (parent : Spot)
    (name : String) (blanks : List String) : Prop where
  usable : usable path = .ok ()
  parts : (f.start path).2 = front ++ [name] ++ blanks
  blank : ∀ s ∈ blanks, s = ""
  solid : Path.isIdle name = false
  down : name ≠ ".."
  followed : f.follow (f.start path).1 front = .ok parent
  dir : ∀ d, parent = .inside d → f.hasDir d = true

/-- The last step is a name only where the path leads to one. -/
theorem leadsToName_of_resolveParent {f : Files} {path name : String} {parent : Spot}
    {slash : Bool} (h : f.resolveParent path = .ok (parent, .name name slash)) :
    ∃ front blanks, LeadsToName f path front parent name blanks ∧ (slash = false → blanks = []) := by
  obtain ⟨_, isUsable, h⟩ := bind_ok h
  cases rest : (f.start path).2.reverse.dropWhile (· = "") with
  | nil =>
    simp only [rest] at h
    cases h
  | cons last before =>
    obtain ⟨proper, blanks, parts, blank⟩ := exists_last rest
    simp only [rest] at h
    obtain ⟨dir, reached, ends⟩ := bind_ok h
    obtain ⟨dir', stood, names⟩ := bind_ok ends
    obtain ⟨rfl, isDir⟩ := enter_dot stood
    split at names
    next => cases names
    next noDot =>
    split at names
    next => cases names
    next down =>
    cases names
    have solid : Path.isIdle name = false := by simp [Path.isIdle, proper, noDot]
    refine ⟨before.reverse, blanks, ⟨isUsable, parts, blank, solid, down, reached, isDir⟩, ?_⟩
    intro bare
    have notBlank : ¬(f.start path).2.getLast? = some "" := by simpa using bare
    cases blanks with
    | nil => rfl
    | cons s blanks =>
      refine absurd ?_ notBlank
      have last := List.getLast?_eq_some_getLast (List.cons_ne_nil s blanks)
      rw [parts, List.getLast?_append, last, blank _ (List.getLast_mem _)]
      rfl

theorem LeadsToName.lands {f : Files} {path name : String} {front blanks : List String}
    {parent : Spot} (h : LeadsToName f path front parent name blanks) :
    parent.place ++ [name] = landing f.here path := by
  rw [← start_place, h.parts, stepAlong_append, stepAlong_append, stepAlong_blanks h.blank,
    follow_place h.followed]
  exact (stepTo_name h.solid h.down _).symm

/-- The last step of a path is a name in a directory. -/
structure Names (here : Place) (path : String) (parent : Spot) (name : String) (slash : Bool) :
    Prop where
  solid : Path.isIdle name = false
  down : name ≠ ".."
  lands : parent.place ++ [name] = landing here path
  bare : slash = false → (Path.segments path).getLast? = some name

theorem names_of_resolveParent {f : Files} {path name : String} {parent : Spot} {slash : Bool}
    (h : f.resolveParent path = .ok (parent, .name name slash)) :
    Names f.here path parent name slash := by
  obtain ⟨front, blanks, leads, bare⟩ := leadsToName_of_resolveParent h
  refine ⟨leads.solid, leads.down, leads.lands, fun noSlash => ?_⟩
  obtain ⟨first, whole⟩ := start_segments f path
  rw [whole, leads.parts, bare noSlash]
  simp

/-- **What is made or written is at the landing of its path.** -/
theorem Names.placeOf_landing {here p : Place} {path name : String} {parent : Spot} {slash : Bool}
    (h : Names here path parent name slash) (place : placeOf parent name = .ok p) :
    p = landing here path := by
  rw [← h.lands]
  cases parent with
  | adrift q => cases place
  | inside q =>
    rw [placeOf] at place
    split at place
    · cases place
    · cases place
      rfl

end Files

end Chore.File
