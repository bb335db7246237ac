import Chore.File.Path

/-!
# The steps of a path

A path leads through its steps, which are its segments without the idle ones. Joining puts the steps
of one path behind those of another (`steps_join`), and the ancestors of a path are the paths of the
initial parts of its steps (`initial_of_mem_ancestors`, `exists_ancestor`).
-/

set_option autoImplicit false

namespace Chore.Path

/-! ## Segments -/

section Cuts

variable {α : Type} [DecidableEq α] {sep : α}

theorem cutAt_append_sep (cs ds : List α) :
    cutAt sep (cs ++ sep :: ds) = cutAt sep cs ++ cutAt sep ds := by
  induction cs with
  | nil => simp [cutAt]
  | cons c cs ih =>
    rw [List.cons_append, cutAt, cutAt, ih]
    split
    · rfl
    · cases first : cutAt sep cs with
      | nil => exact absurd first (cutAt_ne_nil cs)
      | cons s ss => rfl

theorem cutAt_of_not_mem {cs : List α} (h : sep ∉ cs) : cutAt sep cs = [cs] := by
  induction cs with
  | nil => rfl
  | cons c cs ih =>
    rw [List.mem_cons, not_or] at h
    rw [cutAt, if_neg (Ne.symm h.1), ih h.2]

/-- What is in a cut is in the list, and is no separator. -/
theorem of_mem_cutAt {s cs : List α} (h : s ∈ cutAt sep cs) : ∀ c ∈ s, c ∈ cs ∧ c ≠ sep := by
  induction cs generalizing s with
  | nil =>
    obtain rfl := List.mem_singleton.1 h
    simp
  | cons d cs ih =>
    have further {t : List α} (found : t ∈ cutAt sep cs) : ∀ c ∈ t, c ∈ d :: cs ∧ c ≠ sep :=
      fun c inside => (ih found c inside).imp_left (List.mem_cons_of_mem d)
    rw [cutAt] at h
    split at h
    next =>
      rcases List.mem_cons.1 h with rfl | h
      · simp
      · exact further h
    next other =>
      cases first : cutAt sep cs with
      | nil => exact absurd first (cutAt_ne_nil cs)
      | cons t ts =>
        rw [first] at h further
        rcases List.mem_cons.1 h with rfl | h
        · exact List.forall_mem_cons.2 ⟨⟨List.mem_cons_self, other⟩, further List.mem_cons_self⟩
        · exact further (List.mem_cons_of_mem _ h)

theorem cutAt_intercalate {ss : List (List α)} (some : ss ≠ []) (solid : ∀ s ∈ ss, sep ∉ s) :
    cutAt sep ([sep].intercalate ss) = ss := by
  induction ss with
  | nil => exact absurd rfl some
  | cons s ss ih =>
    have ⟨first, others⟩ := List.forall_mem_cons.1 solid
    cases ss with
    | nil => rw [List.intercalate_singleton, cutAt_of_not_mem first]
    | cons t ts =>
      rw [List.intercalate_cons_cons, List.append_assoc, List.singleton_append, cutAt_append_sep,
        cutAt_of_not_mem first, ih (List.cons_ne_nil _ _) others]
      rfl

end Cuts

theorem segments_ne_nil (path : String) : segments path ≠ [] := by
  rw [segments, ne_eq, List.map_eq_nil_iff]
  exact cutAt_ne_nil path.toList

theorem not_mem_of_mem_segments {s path : String} (h : s ∈ segments path) : '/' ∉ s.toList := by
  obtain ⟨cs, found, rfl⟩ := List.mem_map.1 h
  rw [String.toList_ofList]
  exact fun slash => (of_mem_cutAt found _ slash).2 rfl

theorem mem_of_mem_segments {s path : String} (h : s ∈ segments path) {c : Char}
    (inside : c ∈ s.toList) : c ∈ path.toList := by
  obtain ⟨cs, found, rfl⟩ := List.mem_map.1 h
  rw [String.toList_ofList] at inside
  exact (of_mem_cutAt found c inside).1

theorem segments_ofSegments {ss : List String} (some : ss ≠ [])
    (solid : ∀ s ∈ ss, '/' ∉ s.toList) : segments (ofSegments ss) = ss := by
  have solid : ∀ s ∈ ss.map String.toList, '/' ∉ s := List.forall_mem_map.2 solid
  have some : ss.map String.toList ≠ [] := by rwa [ne_eq, List.map_eq_nil_iff]
  rw [segments, ofSegments, String.toList_ofList, cutAt_intercalate some solid, List.map_map]
  simp [Function.comp_def]

theorem segments_slash (front behind : String) :
    segments (front ++ "/" ++ behind) = segments front ++ segments behind := by
  have chars : (front ++ "/" ++ behind).toList = front.toList ++ '/' :: behind.toList := by simp
  rw [segments, chars, cutAt_append_sep, List.map_append]
  rfl

theorem segments_of_isAbsolute {path : String} (h : isAbsolute path = true) :
    ∃ rest, segments path = "" :: rest := by
  have first : path.toList.head? = some '/' := by simpa [isAbsolute] using h
  obtain ⟨cs, chars⟩ := List.head?_eq_some_iff.1 first
  rw [segments, chars, cutAt, if_pos rfl]
  exact ⟨_, rfl⟩

/-! ## Steps -/

/-- The segments of a path that are not idle. -/
def steps (path : String) : List String :=
  (segments path).filter fun s => !isIdle s

theorem parts_eq (path : String) : parts path = steps path ∨ parts path = "." :: steps path := by
  unfold parts steps
  split
  next rest is_dot =>
    rw [is_dot]
    exact .inr rfl
  next => exact .inl rfl

theorem not_idle_of_mem_steps {s path : String} (h : s ∈ steps path) : isIdle s = false := by
  simpa using (List.mem_filter.1 h).2

theorem not_mem_of_mem_parts {s path : String} (h : s ∈ parts path) : '/' ∉ s.toList := by
  have inside : s ∈ steps path ∨ s = "." := by
    rcases parts_eq path with same | dot
    · exact .inl (same ▸ h)
    · rw [dot, List.mem_cons] at h
      exact h.symm
  rcases inside with inside | rfl
  · exact not_mem_of_mem_segments (List.mem_filter.1 inside).1
  · decide

theorem full_of_mem_parts {s path : String} (h : s ∈ parts path) : s ≠ "" := by
  rintro rfl
  have inside : "" ∈ steps path := by
    rcases parts_eq path with same | dot
    · rwa [same] at h
    · rw [dot, List.mem_cons] at h
      exact h.resolve_left (by decide)
  exact absurd (not_idle_of_mem_steps inside) (by decide)

theorem filter_parts (path : String) : (parts path).filter (fun s => !isIdle s) = steps path := by
  have again : (steps path).filter (fun s => !isIdle s) = steps path := by
    rw [steps, List.filter_filter]
    simp
  rcases parts_eq path with same | dot
  · rw [same, again]
  · rw [dot, List.filter_cons_of_neg (by decide), again]

/-- A trailing slash is only an idle segment. -/
theorem segments_join (dir : String) {path : String} (h : isAbsolute path = false) :
    ∃ front, segments (join dir path) = front ++ segments path ∧
      front.filter (fun s => !isIdle s) = steps dir := by
  rw [join, if_neg (Bool.eq_false_iff.1 h)]
  by_cases whole : dir = ""
  · subst whole
    exact ⟨[], by simp, rfl⟩
  by_cases slash : endsInSlash dir = true
  · have ends : dir.toList.getLast? = some '/' := by simpa [endsInSlash] using slash
    obtain ⟨cs, chars⟩ := List.getLast?_eq_some_iff.1 ends
    obtain rfl : dir = String.ofList cs ++ "/" ++ "" := by
      rw [← String.toList_inj]
      simpa using chars
    refine ⟨segments (String.ofList cs), ?_, ?_⟩
    · rw [if_pos (Bool.or_eq_true_iff.2 (.inr slash)), String.append_empty, segments_slash]
    · rw [steps, segments_slash, List.filter_append]
      exact (List.append_nil _).symm
  · rw [if_neg (by simp [whole, slash])]
    exact ⟨segments dir, segments_slash dir path, rfl⟩

theorem steps_join (dir : String) {path : String} (h : isAbsolute path = false) :
    steps (join dir path) = steps dir ++ steps path := by
  obtain ⟨front, whole, first⟩ := segments_join dir h
  rw [steps, whole, List.filter_append, first]
  rfl

theorem isAbsolute_append {dir path : String} (h : dir ≠ "") :
    isAbsolute (dir ++ path) = isAbsolute dir := by
  unfold isAbsolute
  rw [String.toList_append]
  cases chars : dir.toList with
  | nil => exact absurd (String.toList_eq_nil_iff.1 chars) h
  | cons c cs => rfl

theorem isAbsolute_join (dir : String) {path : String} (h : isAbsolute path = false) :
    isAbsolute (join dir path) = isAbsolute dir := by
  rw [join, if_neg (Bool.eq_false_iff.1 h)]
  by_cases whole : dir = ""
  · subst whole
    exact h
  split
  · exact isAbsolute_append whole
  · rw [String.append_assoc]
    exact isAbsolute_append whole

/-! ## Ancestors -/

theorem mem_shortened {α : Type} {l ps : List α} : l ∈ shortened ps ↔ l <+: ps ∧ l ≠ ps := by
  induction ps generalizing l with
  | nil => simp [shortened]
  | cons p ps ih =>
    rw [shortened, List.mem_append, List.mem_map, List.mem_singleton]
    cases l with
    | nil => simp
    | cons q l =>
      constructor
      · rintro (⟨l', shorter, same⟩ | none)
        · cases same
          have ⟨initial, proper⟩ := ih.1 shorter
          exact ⟨List.cons_prefix_cons.2 ⟨rfl, initial⟩, by simpa using proper⟩
        · cases none
      · rintro ⟨initial, proper⟩
        obtain ⟨rfl, shorter⟩ := List.cons_prefix_cons.1 initial
        exact .inl ⟨l, ih.2 ⟨shorter, by simpa using proper⟩, rfl⟩

/-- A path is as absolute as it is said to be, and leads through its parts. -/
theorem ofParts_spec (fromRoot : Bool) {ps : List String} (solid : ∀ s ∈ ps, '/' ∉ s.toList)
    (full : ∀ s ∈ ps, s ≠ "") :
    isAbsolute (ofParts fromRoot ps) = fromRoot ∧
      steps (ofParts fromRoot ps) = ps.filter fun s => !isIdle s := by
  have inner : steps (ofSegments ps) = ps.filter fun s => !isIdle s := by
    cases ps with
    | nil => rfl
    | cons s ps => rw [steps, segments_ofSegments (List.cons_ne_nil _ _) solid]
  cases fromRoot with
  | true =>
    refine ⟨by simp [isAbsolute, ofParts], ?_⟩
    have slash : ofParts true ps = "" ++ "/" ++ ofSegments ps := by simp [ofParts]
    rw [slash, steps, segments_slash, List.filter_append]
    exact inner
  | false =>
    refine ⟨?_, by simpa [ofParts] using inner⟩
    rw [Bool.eq_false_iff]
    intro absolute
    obtain ⟨rest, starts⟩ := segments_of_isAbsolute absolute
    cases ps with
    | nil => exact absurd absolute (by decide)
    | cons s ps =>
      have same : ofParts false (s :: ps) = ofSegments (s :: ps) := by simp [ofParts]
      rw [same, segments_ofSegments (List.cons_ne_nil _ _) solid] at starts
      exact full s List.mem_cons_self (List.cons.inj starts).1

/-- The path of some parts of a path. -/
theorem ofParts_initial {ps : List String} {path : String} (initial : ps <+: parts path) :
    isAbsolute (ofParts (isAbsolute path) ps) = isAbsolute path ∧
      steps (ofParts (isAbsolute path) ps) = ps.filter fun s => !isIdle s :=
  ofParts_spec (isAbsolute path) (fun _ hs => not_mem_of_mem_parts (initial.subset hs))
    fun _ hs => full_of_mem_parts (initial.subset hs)

/-- A path that starts where another starts, and leads through its first steps. -/
structure Initial (a path : String) : Prop where
  absolute : isAbsolute a = isAbsolute path
  through : steps a <+: steps path

theorem Initial.trans {a b path : String} (h : Initial a b) (g : Initial b path) :
    Initial a path :=
  ⟨h.absolute.trans g.absolute, h.through.trans g.through⟩

theorem initial_of_mem_ancestors {a path : String} (h : a ∈ ancestors path) : Initial a path := by
  rcases List.mem_cons.1 h with rfl | h
  · exact ⟨rfl, List.prefix_refl _⟩
  · obtain ⟨ps, shorter, rfl⟩ := List.mem_map.1 h
    have initial := (mem_shortened.1 shorter).1
    have ⟨absolute, through⟩ := ofParts_initial initial
    refine ⟨absolute, ?_⟩
    rw [through, ← filter_parts path]
    exact initial.filter _

/-- Every initial part of the steps is that of an ancestor. -/
theorem exists_ancestor {path : String} {ss : List String} (h : ss <+: steps path) :
    ∃ a ∈ ancestors path, Initial a path ∧ steps a = ss := by
  suffices found : ∃ a ∈ ancestors path, steps a = ss by
    obtain ⟨a, isAncestor, through⟩ := found
    exact ⟨a, isAncestor, initial_of_mem_ancestors isAncestor, through⟩
  by_cases whole : ss = steps path
  · exact ⟨path, List.mem_cons_self, whole.symm⟩
  obtain ⟨dot, idle, split⟩ : ∃ dot : List String, dot.filter (fun s => !isIdle s) = [] ∧
      parts path = dot ++ steps path := by
    rcases parts_eq path with same | dot
    · exact ⟨[], rfl, same⟩
    · exact ⟨["."], rfl, dot⟩
  have initial : dot ++ ss <+: parts path := by
    rw [split]
    exact (List.prefix_append_right_inj dot).2 h
  have proper : dot ++ ss ≠ parts path := by
    rw [split]
    exact fun same => whole (List.append_cancel_left same)
  refine ⟨_, List.mem_cons_of_mem _ (List.mem_map_of_mem (mem_shortened.2 ⟨initial, proper⟩)), ?_⟩
  have kept : ss.filter (fun s => !isIdle s) = ss :=
    List.filter_eq_self.2 fun s hs => by
      rw [not_idle_of_mem_steps (h.subset hs)]
      rfl
  rw [(ofParts_initial initial).2, List.filter_append, idle, kept, List.nil_append]

end Chore.Path
