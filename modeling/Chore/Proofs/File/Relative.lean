import Chore.Proofs.File.Bytes

/-!
# Absolute and relative paths

A path is taken to the root by putting the current directory in front of it, and back by taking away
the components of the current directory. Either way leaves its own results alone, and each undoes the
other up to the spelling of a path: repeated and trailing slashes and single dots (`components`).
What is taken away are whole components, so all that matters is which steps are left (`behind?_spec`,
`relative_below`).

The current directory is given in bytes. Where these are no text, no path lies below it
(`relative_of_not_text`), so nothing is ever taken away.
-/

set_option autoImplicit false

namespace Chore.Path

/-- The components of a path: the root if it starts there, and its parts. -/
def components (path : String) : List String :=
  (if isAbsolute path then ["/"] else []) ++ parts path

theorem components_of_isAbsolute {path : String} (h : isAbsolute path = true) :
    components path = "/" :: steps path := by
  obtain ⟨rest, starts⟩ := segments_of_isAbsolute h
  have same : parts path = steps path := by
    unfold parts steps
    rw [starts]
    split
    next rest' dot => exact absurd (List.cons.inj dot).1 (by decide)
    next => rfl
  rw [components, if_pos h, same]
  rfl

theorem components_of_not_isAbsolute {path : String} (h : isAbsolute path = false) :
    components path = parts path := by
  rw [components, if_neg (by simp [h])]
  rfl

/-- Without single dots the components of a path that does not start at the root are its steps. -/
theorem filter_components {path : String} (h : isAbsolute path = false) :
    (components path).filter (· ≠ ".") = steps path := by
  have dotless : (steps path).filter (· ≠ ".") = steps path := by
    apply List.filter_eq_self.2
    intro s hs
    have solid := not_idle_of_mem_steps hs
    simp only [isIdle, Bool.or_eq_false_iff, decide_eq_false_iff_not] at solid
    simpa using solid.2
  rw [components_of_not_isAbsolute h]
  rcases parts_eq path with same | dot
  · rw [same, dotless]
  · rw [dot, List.filter_cons_of_neg (by simp), dotless]

/-- The components of a directory given in bytes. -/
def directoryComponents (dir : ByteArray) : List (List UInt8) :=
  (if isRooted dir then [[slash]] else []) ++ names dir

/-! ## Taking components away -/

/-- What is left behind a row of names starts with those names. -/
theorem behind?_spec {names : List (List UInt8)} {segments rest : List String}
    (h : behind? names segments = some rest) :
    (segments.filter fun s => !isIdle s).map Text.bytes =
      names ++ (rest.filter fun s => !isIdle s).map Text.bytes := by
  induction segments generalizing names with
  | nil =>
    cases names with
    | nil =>
      obtain rfl := Option.some.inj h
      rfl
    | cons name names => cases h
  | cons s segments ih =>
    cases names with
    | nil =>
      obtain rfl := Option.some.inj h
      rfl
    | cons name names =>
      rw [behind?] at h
      split at h
      next idle => rw [List.filter_cons_of_neg (by simp [idle]), ih h]
      next solid =>
        split at h
        next same =>
          subst same
          rw [List.filter_cons_of_pos (by simp [solid]), List.map_cons, ih h, List.cons_append]
        next => cases h

/-- Names that come first can be taken away. -/
theorem exists_behind {names more : List (List UInt8)} {segments : List String}
    (h : (segments.filter fun s => !isIdle s).map Text.bytes = names ++ more) :
    ∃ rest, behind? names segments = some rest := by
  induction segments generalizing names with
  | nil =>
    obtain ⟨rfl, -⟩ := List.append_eq_nil_iff.1 h.symm
    exact ⟨[], rfl⟩
  | cons s segments ih =>
    cases names with
    | nil => exact ⟨s :: segments, rfl⟩
    | cons name names =>
      rw [behind?]
      split
      next idle =>
        rw [List.filter_cons_of_neg (by simp [idle])] at h
        exact ih h
      next solid =>
        rw [List.filter_cons_of_pos (by simp [solid]), List.map_cons, List.cons_append] at h
        obtain ⟨rfl, others⟩ := List.cons.inj h
        rw [if_pos rfl]
        exact ih others

theorem mem_of_behind? {names : List (List UInt8)} {segments rest : List String}
    (h : behind? names segments = some rest) {s : String} (hs : s ∈ rest) : s ∈ segments := by
  induction segments generalizing names with
  | nil =>
    cases names with
    | nil =>
      obtain rfl := Option.some.inj h
      exact hs
    | cons name names => cases h
  | cons t segments ih =>
    cases names with
    | nil =>
      obtain rfl := Option.some.inj h
      exact hs
    | cons name names =>
      rw [behind?] at h
      split at h
      next => exact List.mem_cons_of_mem _ (ih h)
      next =>
        split at h
        next => exact List.mem_cons_of_mem _ (ih h)
        next => cases h

theorem filter_dropWhile_isIdle (segments : List String) :
    (segments.dropWhile isIdle).filter (fun s => !isIdle s) =
      segments.filter fun s => !isIdle s := by
  induction segments with
  | nil => rfl
  | cons s segments ih =>
    cases idle : isIdle s with
    | true => rw [List.dropWhile_cons_of_pos idle, ih, List.filter_cons_of_neg (by simp [idle])]
    | false => rw [List.dropWhile_cons_of_neg (by simp [idle])]

theorem filter_trimIdle (segments : List String) :
    (trimIdle segments).filter (fun s => !isIdle s) = segments.filter fun s => !isIdle s := by
  rw [trimIdle, List.filter_reverse, filter_dropWhile_isIdle, List.filter_reverse,
    List.reverse_reverse, filter_dropWhile_isIdle]

/-- Trimmed segments start with one that is not idle. -/
theorem trimIdle_head {segments rest : List String} {s : String}
    (h : trimIdle segments = s :: rest) : isIdle s = false := by
  have front : (segments.dropWhile isIdle).head? = some s := by
    obtain ⟨tail, split⟩ : trimIdle segments <+: segments.dropWhile isIdle := by
      rw [trimIdle, ← List.reverse_suffix, List.reverse_reverse]
      exact List.dropWhile_suffix isIdle
    rw [← split, h]
    rfl
  have stops := List.head?_dropWhile_not isIdle segments
  rw [front] at stops
  simpa using stops

theorem trimIdle_eq_nil_iff {segments : List String} :
    trimIdle segments = [] ↔ segments.filter (fun s => !isIdle s) = [] := by
  constructor
  · intro none
    rw [← filter_trimIdle, none]
    rfl
  · intro none
    rw [← filter_trimIdle] at none
    cases trimmed : trimIdle segments with
    | nil => rfl
    | cons s rest =>
      rw [trimmed, List.filter_cons_of_pos (by simp [trimIdle_head trimmed])] at none
      cases none

theorem mem_of_mem_trimIdle {segments : List String} {s : String} (h : s ∈ trimIdle segments) :
    s ∈ segments := by
  rw [trimIdle, List.mem_reverse] at h
  have inner := (List.dropWhile_suffix isIdle).subset h
  exact (List.dropWhile_suffix isIdle).subset (List.mem_reverse.1 inner)

/-- A path of trimmed segments does not start at the root, and leads through them. -/
theorem ofSegments_trimmed {ss : List String} (some : ss ≠ []) (solid : ∀ s ∈ ss, '/' ∉ s.toList)
    (first : ∀ s rest, ss = s :: rest → isIdle s = false) :
    isAbsolute (ofSegments ss) = false ∧
      steps (ofSegments ss) = ss.filter (fun s => !isIdle s) ∧
      components (ofSegments ss) = steps (ofSegments ss) := by
  have segs := segments_ofSegments some solid
  have relative : isAbsolute (ofSegments ss) = false := by
    apply Bool.eq_false_iff.2
    intro absolute
    obtain ⟨rest, starts⟩ := segments_of_isAbsolute absolute
    rw [segs] at starts
    exact absurd (first "" rest starts) (by decide)
  refine ⟨relative, by rw [steps, segs], ?_⟩
  rw [components_of_not_isAbsolute relative, parts, steps, segs]
  split
  next rest => exact absurd (first "." rest rfl) (by decide)
  next => rfl

/-! ## From the root and back -/

section

variable {dir : ByteArray} {here p : String}

theorem absolute_of_isAbsolute (here? : Option ByteArray) (h : isAbsolute p = true) :
    absolute here? p = p :=
  if_pos h

theorem absolute_text (here : String) (h : isAbsolute p = false) :
    absolute (some here.toUTF8) p = join here p := by
  rw [absolute, if_neg (by simp [h])]
  exact decodeBytes_joinBytes here h

theorem relative_of_not_isAbsolute (here? : Option ByteArray) (h : isAbsolute p = false) :
    relative here? p = p := by
  cases here? with
  | none => rfl
  | some dir => exact if_neg (by simp [h])

/-- **A path below the current directory.** What is left does not start at the root, leads through
the remaining steps, and is a single dot if there are none. -/
theorem relative_below (rooted : isAbsolute p = true) {more : List String}
    (below : (steps p).map Text.bytes = names dir ++ more.map Text.bytes) :
    isAbsolute (relative (some dir) p) = false ∧ steps (relative (some dir) p) = more ∧
      if more = [] then relative (some dir) p = "."
      else components (relative (some dir) p) = more := by
  obtain ⟨rest, left⟩ := exists_behind below
  have remains : rest.filter (fun s => !isIdle s) = more := by
    have spec := (behind?_spec left).symm.trans below
    exact Text.map_bytes_inj.1 (List.append_cancel_left spec)
  have step : relative (some dir) p =
      if trimIdle rest = [] then "." else ofSegments (trimIdle rest) := by
    simp only [relative, if_pos rooted, left]
    cases trimIdle rest with
    | nil => rfl
    | cons s ss => exact Text.decodeBytes_toUTF8 _
  cases trimmed : trimIdle rest with
  | nil =>
    have none := trimIdle_eq_nil_iff.1 trimmed
    rw [remains] at none
    rw [step, if_pos trimmed, if_pos none, none]
    exact ⟨by decide, by decide, rfl⟩
  | cons s ss =>
    have whole : ∀ t ∈ s :: ss, '/' ∉ t.toList := by
      intro t ht
      rw [← trimmed] at ht
      exact not_mem_of_mem_segments (mem_of_behind? left (mem_of_mem_trimIdle ht))
    have first : ∀ t us, s :: ss = t :: us → isIdle t = false := by
      intro t us same
      exact trimIdle_head (trimmed.trans same)
    have some : more ≠ [] := by
      rw [← remains, ne_eq, ← trimIdle_eq_nil_iff, trimmed]
      exact List.cons_ne_nil s ss
    have ⟨unrooted, leads, solid⟩ := ofSegments_trimmed (List.cons_ne_nil s ss) whole first
    rw [← trimmed, filter_trimIdle, remains, trimmed] at leads
    rw [step, trimmed, if_neg (List.cons_ne_nil s ss), if_neg some]
    exact ⟨unrooted, leads, solid.trans leads⟩

/-- A path from the root is left alone unless it leads through the steps of the current directory. -/
theorem relative_cases (dir : ByteArray) (p : String) :
    relative (some dir) p = p ∨
      isAbsolute p = true ∧
        ∃ more : List String, (steps p).map Text.bytes = names dir ++ more.map Text.bytes := by
  cases rooted : isAbsolute p with
  | false => exact .inl (relative_of_not_isAbsolute _ rooted)
  | true =>
    cases left : behind? (names dir) (segments p) with
    | none =>
      left
      simp only [relative, if_pos rooted, left]
    | some rest => exact .inr ⟨rfl, _, behind?_spec left⟩

/-- A directory with a path below it has a path that is a text. -/
theorem exists_text_of_below {more : List (List UInt8)}
    (below : (steps p).map Text.bytes = names dir ++ more) : ∃ here : String, dir = here.toUTF8 := by
  apply exists_text
  intro name found
  obtain ⟨s, -, text⟩ := List.mem_map.1 (below ▸ List.mem_append_left more found)
  exact ⟨s, text⟩

/-- From a directory whose path is no text every path is left alone. -/
theorem relative_of_not_text (other : ∀ here : String, dir ≠ here.toUTF8) (p : String) :
    relative (some dir) p = p := by
  rcases relative_cases dir p with same | ⟨-, more, below⟩
  · exact same
  · obtain ⟨here, text⟩ := exists_text_of_below below
    exact absurd text (other here)

/-- Going back twice is going back once. -/
theorem relative_relative (here? : Option ByteArray) (p : String) :
    relative here? (relative here? p) = relative here? p := by
  cases here? with
  | none => rfl
  | some dir =>
    rcases relative_cases dir p with same | ⟨rooted, more, below⟩
    · rw [same, same]
    · exact relative_of_not_isAbsolute _ (relative_below rooted below).1

theorem isAbsolute_absolute (rooted : isRooted dir = true) (p : String) :
    isAbsolute (absolute (some dir) p) = true := by
  rw [absolute]
  split
  next start => exact start
  next => exact isAbsolute_decodeBytes (isRooted_joinBytes rooted p.toUTF8)

/-- Going to the root twice is going there once. -/
theorem absolute_absolute {here? : Option ByteArray}
    (rooted : ∀ dir, here? = some dir → isRooted dir = true) (p : String) :
    absolute here? (absolute here? p) = absolute here? p := by
  cases here? with
  | none =>
    unfold absolute
    split <;> rfl
  | some dir => exact absolute_of_isAbsolute _ (isAbsolute_absolute (rooted dir rfl) p)

/-- To the root and back: the same components without single dots. -/
theorem relative_absolute (rooted : isAbsolute here = true) (start : isAbsolute p = false) :
    if steps p = [] then relative (some here.toUTF8) (absolute (some here.toUTF8) p) = "."
    else components (relative (some here.toUTF8) (absolute (some here.toUTF8) p)) = steps p := by
  rw [absolute_text here start]
  have whole : (steps (join here p)).map Text.bytes =
      names here.toUTF8 ++ (steps p).map Text.bytes := by
    rw [steps_join here start, List.map_append, names_toUTF8]
  exact (relative_below ((isAbsolute_join here start).trans rooted) whole).2.2

/-- Back and to the root: the same components. Below a directory its path is a text. -/
theorem absolute_relative (rooted : isRooted dir = true) (start : isAbsolute p = true)
    (below : directoryComponents dir <+: (components p).map Text.bytes) :
    components (absolute (some dir) (relative (some dir) p)) = components p := by
  rw [directoryComponents, if_pos rooted, components_of_isAbsolute start, List.map_cons,
    List.singleton_append, List.cons_prefix_cons] at below
  obtain ⟨behind, through⟩ := below.2
  obtain ⟨here, rfl⟩ := exists_text_of_below through.symm
  rw [names_toUTF8] at through
  obtain ⟨front, more, split, first, rfl⟩ := List.map_eq_append_iff.1 through.symm
  obtain rfl := Text.map_bytes_inj.1 first
  have below : (steps p).map Text.bytes = names here.toUTF8 ++ more.map Text.bytes := by
    rw [names_toUTF8, ← List.map_append, split]
  have ⟨relative, leads, _⟩ := relative_below start below
  rw [absolute_text here relative, components_of_isAbsolute start,
    components_of_isAbsolute ((isAbsolute_join here relative).trans
      ((isRooted_toUTF8 here).symm.trans rooted)), steps_join here relative, leads, split]

end

/-- **Going to the root and back are consistent**, whatever the current directory is, known or not,
and whatever bytes its path has: each leaves its own results alone, and a path below the current
directory comes back with the same components. Where the current directory is known by a path that is
a text, a path that does not start at the root comes back with the same components without single
dots, or as a single dot if there are no others. No path lies below a directory known by other
bytes, and there every path stays as it is on the way back. -/
theorem absolute_relative_consistent {here? : Option ByteArray}
    (rooted : ∀ dir, here? = some dir → isRooted dir = true) :
    (∀ p, absolute here? (absolute here? p) = absolute here? p) ∧
      (∀ p, relative here? (relative here? p) = relative here? p) ∧
      (∀ here : String, here? = some here.toUTF8 → ∀ p, isAbsolute p = false →
        if (components p).filter (· ≠ ".") = [] then relative here? (absolute here? p) = "."
        else components (relative here? (absolute here? p)) = (components p).filter (· ≠ ".")) ∧
      ∀ dir, here? = some dir →
        (∀ q, isAbsolute q = true → directoryComponents dir <+: (components q).map Text.bytes →
          components (absolute here? (relative here? q)) = components q) ∧
        ((∀ here : String, dir ≠ here.toUTF8) → ∀ q, relative here? q = q) := by
  refine ⟨absolute_absolute rooted, relative_relative here?, ?_, ?_⟩
  · rintro here rfl p start
    rw [filter_components start]
    exact relative_absolute ((isRooted_toUTF8 here).symm.trans (rooted _ rfl)) start
  · rintro dir rfl
    constructor
    · intro q start below
      exact absolute_relative (rooted dir rfl) start below
    · exact relative_of_not_text

/-- From a directory that is written with slashes to spare: a path with idle segments comes back
without them, the directory itself comes back as a dot, and a path below it comes back through it. -/
theorem absolute_relative_consistent_slashes :
    isRooted "/a//b/".toUTF8 = true ∧
      components (relative (some "/a//b/".toUTF8) (absolute (some "/a//b/".toUTF8) "./x/.//../y/")) =
        ["x", "..", "y"] ∧
      relative (some "/a//b/".toUTF8) (absolute (some "/a//b/".toUTF8) "./") = "." ∧
      components (absolute (some "/a//b/".toUTF8) (relative (some "/a//b/".toUTF8) "/a/./b//bc/")) =
        ["/", "a", "b", "bc"] := by
  have start : isRooted "/a//b/".toUTF8 = true := by
    rw [isRooted_toUTF8]
    decide
  have rooted : ∀ dir, some "/a//b/".toUTF8 = some dir → isRooted dir = true := by
    rintro dir ⟨⟩
    exact start
  obtain ⟨-, -, there, known⟩ := absolute_relative_consistent rooted
  refine ⟨start, ?_, ?_, ?_⟩
  · have same := there "/a//b/" rfl "./x/.//../y/" (by decide)
    rw [if_neg (by decide +kernel)] at same
    rw [same]
    decide +kernel
  · have dot := there "/a//b/" rfl "./" (by decide)
    rwa [if_pos (by decide +kernel)] at dot
  · have below : directoryComponents "/a//b/".toUTF8 <+:
        (components "/a/./b//bc/").map Text.bytes := by
      rw [directoryComponents, if_pos start, names_toUTF8]
      decide +kernel
    rw [(known _ rfl).1 "/a/./b//bc/" (by decide) below]
    decide +kernel

/-- A byte that is no text is replaced on the way to the root, and the way back is lost. -/
theorem relative_absolute_not_text :
    ¬∀ (dir : ByteArray) (p : String), isRooted dir = true → isAbsolute p = false →
      if (components p).filter (· ≠ ".") = [] then
        relative (some dir) (absolute (some dir) p) = "."
      else
        components (relative (some dir) (absolute (some dir) p)) =
          (components p).filter (· ≠ ".") := by
  intro claim
  have same := claim ⟨#[slash, 0xff]⟩ "x" (by decide) (by decide)
  rw [if_neg (by decide +kernel)] at same
  have lost : components (relative (some ⟨#[slash, 0xff]⟩) (absolute (some ⟨#[slash, 0xff]⟩) "x")) =
      ["/", "�", "x"] := by
    decide +kernel
  rw [lost] at same
  exact absurd same (by decide)

end Chore.Path
