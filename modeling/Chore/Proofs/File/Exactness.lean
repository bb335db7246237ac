import Chore.Proofs.File.Copying

/-!
# A copy is exact

What a successful copy has put at its destination is what was at the source (`copyTree_exact`), by
induction over the rounds. In one round the names in a directory are copied one after another; each
leaves everything alone but its own image (`entry_frame`), so it finds its source as it was and its
destination free (`entries_exact`).

A directory that is copied below itself never comes to an end but by failing: on the way to the
destination every round finds a directory to copy below itself (`failsBelow`).
-/

set_option autoImplicit false

namespace Chore.File

variable {n : Nat} {f f' g : Files} {src dst name : String} {S D : Place}

/-! ## What a success has done -/

/-- What is written in full is behind what was there. -/
theorem append_ok {p : Place} {bytes : ByteArray} (h : append p bytes f = (.ok (), f')) :
    f' = f.setTree (f.tree.put p (.file (f.contents p ++ bytes))) := by
  obtain ⟨_, _, ⟨⟩, h⟩ := Attempt.of_bind_ok h
  cases cut : f.rules.cuts f.tree p bytes with
  | none =>
    simp only [cut] at h
    cases h
    rfl
  | some cut' =>
    simp only [cut] at h
    obtain ⟨_, _, -, ended⟩ := Attempt.of_bind_ok h
    cases ended

theorem copyFile_ok (h : copyFile src dst f = (.ok (), f')) :
    ∃ p q g, f.fileAt src = .ok p ∧ create dst f = (.ok q, g) ∧
      f' = g.setTree (g.tree.put q (.file (g.contents p))) := by
  obtain ⟨_, _, ⟨⟩, h⟩ := Attempt.of_bind_ok h
  cases file : f.fileAt src with
  | error e =>
    simp only [file] at h
    cases e <;> cases h
  | ok p =>
    simp only [file] at h
    obtain ⟨q, g, made, h⟩ := Attempt.of_bind_ok h
    obtain ⟨_, _, ⟨⟩, h⟩ := Attempt.of_bind_ok h
    have empty : g.contents q = .empty := by
      obtain ⟨-, rfl, fits, -⟩ := Files.create_ok made
      exact Files.contents_of_node? (Tree.node?_put_self (fits .empty))
    have written := append_ok h
    rw [empty, ByteArray.empty_append] at written
    exact ⟨p, q, g, rfl, made, written⟩

/-- A round that succeeds has copied a file, or made a directory and copied what was read then. -/
theorem copyWith_ok {m : String → String → FileAction Unit}
    (h : copyWith m src dst f = (.ok (), f')) :
    (f.isDir src = false ∧ copyFile src dst f = (.ok (), f')) ∨
      (f.isDir src = true ∧ ∃ g children, makeDirAll dst f = (.ok (), g) ∧
        g.childrenAt src = .ok children ∧
        Attempt.forEach children (fun e => m (Path.join src e.1) (Path.join dst e.1)) g =
          (.ok (), f')) := by
  obtain ⟨_, _, ⟨⟩, h⟩ := Attempt.of_bind_ok h
  cases isDir : f.isDir src with
  | false =>
    simp only [isDir, Bool.false_eq_true, if_false] at h
    exact .inl ⟨rfl, h⟩
  | true =>
    simp only [isDir, if_true] at h
    obtain ⟨_, g, made, h⟩ := Attempt.of_bind_ok h
    obtain ⟨children, _, looked, h⟩ := Attempt.of_bind_ok h
    obtain ⟨read, rfl⟩ := Prod.mk.inj looked
    exact .inr ⟨rfl, g, children, made, read, h⟩

/-- What was copied could be found. -/
theorem resolve_of_copyTree (h : copyTree n src dst f = (.ok (), f')) :
    ∃ spot, f.resolve src = .ok spot := by
  cases n with
  | zero => cases h
  | succ n =>
    rcases copyWith_ok h with ⟨-, copied⟩ | ⟨isDir, -⟩
    · obtain ⟨p, q, g, file, -⟩ := copyFile_ok copied
      exact ⟨_, (Files.fileAt_ok file).1⟩
    · exact Files.resolve_of_isDir isDir

/-- If all went well, it went well for each element, in a state that had grown. -/
theorem of_forEach_ok {α : Type} {l : List α} {step : α → FileAction Unit} {a : α}
    (growing : ∀ a, Growing (step a)) (h : Attempt.forEach l step f = (.ok (), f')) (inside : a ∈ l) :
    ∃ k k', Grows f k ∧ step a k = (.ok (), k') := by
  induction l generalizing f with
  | nil => cases inside
  | cons b l ih =>
    obtain ⟨_, g, first, others⟩ := Attempt.of_bind_ok h
    rcases List.mem_cons.1 inside with rfl | inside
    · exact ⟨f, g, .refl f, first⟩
    · obtain ⟨k, k', grown, done⟩ := ih others inside
      have before := growing b f
      rw [first] at before
      exact ⟨k, k', before.trans grown, done⟩

/-! ## Paths -/

namespace Files

/-- Adrift there are no names. -/
theorem no_name_of_adrift {spot : Spot} {segments : List String} {p : Place}
    (h : f.follow spot segments = .ok (.adrift p)) (isName : IsName name) : name ∉ segments := by
  induction segments generalizing spot with
  | nil => simp
  | cons segment segments ih =>
    obtain ⟨next, entered, followed⟩ := bind_ok h
    rw [List.mem_cons, not_or]
    refine ⟨?_, ih followed⟩
    rintro rfl
    cases spot with
    | inside q =>
      obtain ⟨q', same⟩ := inside_of_follow h
      cases same
    | adrift q =>
      rw [enter, if_neg (by simp [isName.solid]), if_neg isName.down] at entered
      cases entered

/-- A path to a name leads into the tree. -/
theorem resolve_join_inside {dir : String} {spot : Spot} (isName : IsName name)
    (leads : f.resolve (Path.join dir name) = .ok spot) :
    spot = .inside (landing f.here dir ++ [name]) := by
  cases spot with
  | inside p =>
    have lands : p = landing f.here (Path.join dir name) := resolve_landing leads
    rw [lands, isName.landing_join]
  | adrift p =>
    have inside : name ∈ (f.start (Path.join dir name)).2 := by
      have last : name ∈ Path.steps (Path.join dir name) := by simp [isName.steps_join]
      rw [← filter_start f] at last
      exact (List.mem_filter.1 last).1
    exact absurd inside (no_name_of_adrift (resolve_eq_ok_iff.1 leads).2 isName)

end Files

theorem down_join (down : ".." ∉ Path.steps dst) (isName : IsName name) :
    ".." ∉ Path.steps (Path.join dst name) := by
  simp [isName.steps_join, down, isName.down.symm]

theorem steps_join_ne (isName : IsName name) : Path.steps (Path.join dst name) ≠ [] := by
  simp [isName.steps_join]

/-- Without two dots, the way to a path leads down to it. -/
theorem prefix_of_onWay {here q : Place} (down : ".." ∉ Path.steps dst) (h : OnWay here dst q) :
    q <+: landing here dst := by
  obtain ⟨a, isAncestor, rfl⟩ := h
  have initial := Path.initial_of_mem_ancestors isAncestor
  obtain ⟨rest, whole⟩ := initial.through
  have below : ".." ∉ rest := fun inside => down (whole ▸ List.mem_append_right _ inside)
  rw [landing_of_initial initial, landing, ← whole, stepAlong_append]
  exact Files.prefix_stepAlong below _

/-! ## Directories that were made -/

theorem grows_of_makeDirAll (made : makeDirAll dst f = (.ok (), g)) : Grows f g := by
  have grown := growing_makeDirAll dst f
  rwa [made] at grown

/-- Making directories makes those on the way that are missing, and no others. -/
theorem node?_of_makeDirAll (made : makeDirAll dst f = (.ok (), g)) (q : Place) :
    g.tree.node? q = f.tree.node? q ∨
      OnWay f.here dst q ∧ f.tree.node? q = none ∧ g.tree.node? q = some .dir := by
  have confined := confined_makeDirAll (fun _ => False) f dst
  rw [made] at confined
  exact confined.outside q id fun _ => False.elim

/-- The path of a directory that was made leads to it. -/
theorem lands_of_makeDirAll (made : makeDirAll dst f = (.ok (), g)) (down : ".." ∉ Path.steps dst)
    (some : Path.steps dst ≠ []) :
    g.resolve dst = .ok (.inside (landing f.here dst)) ∧ g.hasDir (landing f.here dst) = true := by
  have named : dst ≠ "" := by
    rintro rfl
    exact some (by decide)
  obtain ⟨leads, dir, -⟩ := Files.lands_of_isDir down some (Files.isDir_of_makeDirAll made named)
  rw [(grows_of_makeDirAll made).here] at leads dir
  exact ⟨leads, dir⟩

/-- Making directories leaves everything alone that is not on the way. -/
theorem makeDirAll_frame (made : makeDirAll dst f = (.ok (), g)) (down : ".." ∉ Path.steps dst)
    {q : Place} (aside : ¬q <+: landing f.here dst) : g.tree.node? q = f.tree.node? q := by
  rcases node?_of_makeDirAll made q with same | ⟨onWay, -, -⟩
  · exact same
  · exact absurd (prefix_of_onWay down onWay) aside

/-- No place is below itself. -/
theorem not_below_self {r : Place} (proper : r ≠ []) : ¬D ++ r <+: D := by
  intro below
  have := below.length_le
  have := List.length_pos_iff.2 proper
  simp only [List.length_append] at *
  omega

/-- A directory that was made where nothing was is empty. -/
theorem makeDirAll_empty (made : makeDirAll dst f = (.ok (), g)) (down : ".." ∉ Path.steps dst)
    (fresh : f.tree.node? (landing f.here dst) = none) {r : Place} (proper : r ≠ []) :
    g.tree.node? (landing f.here dst ++ r) = none := by
  rw [makeDirAll_frame made down (not_below_self proper)]
  by_contra there
  exact Tree.there_of_prefix there (List.prefix_append _ r) fresh

/-! ## A directory below itself -/

/-- In so many rounds, no directory is copied below itself with success. -/
def FailsBelow (n : Nat) : Prop :=
  ∀ (src dst : String) (f f' : Files) (S : Place) (v : String) (vs : Place),
    copyTree n src dst f = (.ok (), f') → f.resolve src = .ok (.inside S) → f.hasDir S = true →
    ".." ∉ Path.steps dst → Path.steps dst ≠ [] → landing f.here dst ≠ S ++ v :: vs

/-- On the way to a destination below it, a directory holds one that is copied below itself. -/
theorem entries_below_fail {v : String} {vs : Place} {children : List (String × Node)}
    (fails : FailsBelow n) (read : g.childrenAt src = .ok children)
    (ran : Attempt.forEach children (fun e => copyTree n (Path.join src e.1) (Path.join dst e.1)) g =
      (.ok (), f'))
    (leads : g.resolve src = .ok (.inside S)) (down : ".." ∉ Path.steps dst)
    (dir : g.hasDir (landing g.here dst) = true) : landing g.here dst ≠ S ++ v :: vs := by
  intro below
  have way : S ++ [v] <+: landing g.here dst := by
    rw [below]
    exact ⟨vs, by simp⟩
  have there : g.tree.node? (S ++ [v]) = some .dir := Tree.dir_of_prefix (of_decide_eq_true dir) way
  have held : g.Holds src v .dir := ⟨S, leads, there⟩
  have isName := held.isName
  have inside := ((Files.of_childrenAt read).2 v .dir).2 held
  obtain ⟨k, k', grown, copied⟩ := of_forEach_ok (fun e => growing_copyTree n _ _) ran inside
  obtain ⟨spot, leads'⟩ := resolve_of_copyTree copied
  have same := Files.resolve_join_inside isName leads'
  have source : landing k.here src = S := by
    rw [grown.here]
    exact (Files.resolve_landing leads).symm
  rw [same, source] at leads'
  have dir' : k.hasDir (S ++ [v]) = true := grown.dirs _ (decide_eq_true there)
  have target : landing k.here (Path.join dst v) = S ++ [v] ++ (vs ++ [v]) := by
    rw [isName.landing_join, grown.here, below]
    simp
  cases rest : vs ++ [v] with
  | nil => simp at rest
  | cons w ws =>
    rw [rest] at target
    exact fails _ _ _ _ _ _ _ copied leads' dir' (down_join down isName) (steps_join_ne isName) target

/-- **A directory is never copied below itself with success**, in any number of rounds. -/
theorem failsBelow (n : Nat) : FailsBelow n := by
  induction n with
  | zero =>
    intro src dst f f' S v vs ran
    cases ran
  | succ n ih =>
    intro src dst f f' S v vs ran leads dir down some
    rcases copyWith_ok ran with ⟨noDir, -⟩ | ⟨-, g, children, made, read, copied⟩
    · rw [Files.isDir, leads] at noDir
      simp [dir] at noDir
    have grown := grows_of_makeDirAll made
    obtain ⟨-, dir'⟩ := lands_of_makeDirAll made down some
    rw [← grown.here] at dir' ⊢
    exact entries_below_fail ih read copied (grown.resolve_inside leads) down dir'

/-! ## One round -/

/-- A file is copied to where nothing was. -/
theorem copyFile_exact (ran : copyFile src dst f = (.ok (), f'))
    (fresh : f.tree.node? (landing f.here dst) = none) (r : Place) :
    f'.tree.node? (landing f.here dst ++ r) = f.view src r := by
  obtain ⟨p, q, g, file, made, rfl⟩ := copyFile_ok ran
  obtain ⟨leads, bytes, there⟩ := Files.fileAt_ok file
  obtain ⟨lands, created, fits, -⟩ := Files.create_ok made
  rw [← lands] at fresh ⊢
  have apart : p ≠ q := by
    rintro rfl
    rw [there] at fresh
    cases fresh
  have read : g.contents p = bytes := by
    rw [created]
    exact Files.contents_of_node? ((Tree.node?_put_of_fresh fresh apart).trans there)
  have again : g.tree.canPut q (.file bytes) := created ▸ Files.canPut_again fits
  have copied : (g.setTree (g.tree.put q (.file bytes))).tree.node? q = some (.file bytes) :=
    Tree.node?_put_self again
  rw [read, Files.view_inside leads]
  by_cases proper : r = []
  · subst proper
    rw [List.append_nil, List.append_nil, copied, there]
  · rw [Tree.none_below_file copied proper, Tree.none_below_file there proper]

/-- In so many rounds, what is found in the tree is copied exactly, down to where nothing was. -/
def CopiesExactly (n : Nat) : Prop :=
  ∀ (src dst : String) (f f' : Files) (S : Place), copyTree n src dst f = (.ok (), f') →
    f.resolve src = .ok (.inside S) → ".." ∉ Path.steps dst → Path.steps dst ≠ [] →
    f.tree.node? (landing f.here dst) = none →
    ∀ r, f'.tree.node? (landing f.here dst ++ r) = f.tree.node? (S ++ r)

/-- A name that is copied into a directory leaves everything alone but its image. -/
theorem entry_frame (isName : IsName name) (down : ".." ∉ Path.steps dst)
    (dir : g.hasDir (landing g.here dst) = true)
    (free : g.tree.node? (landing g.here dst ++ [name]) = none)
    (ran : copyTree n (Path.join src name) (Path.join dst name) g = (.ok (), f')) {q : Place}
    (aside : ¬landing g.here dst ++ [name] <+: q) : f'.tree.node? q = g.tree.node? q := by
  have target := isName.landing_join g.here dst
  have confined := confined_copyTree n (Path.join src name) (Path.join dst name) g
  rw [ran] at confined
  have image : ¬Images g (Path.join src name) (Path.join dst name) q := by
    rintro ⟨r, rfl, -⟩
    rw [target] at aside
    exact aside (List.prefix_append _ r)
  have apart : ∀ p, Images g (Path.join src name) (Path.join dst name) p → ¬g.tree.Shares p q := by
    rintro _ ⟨r, rfl, -⟩
    apply Tree.not_shares_of_none
    rw [target]
    by_contra there
    exact Tree.there_of_prefix there (List.prefix_append _ r) free
  rcases confined.outside q image apart with same | ⟨onWay, missing, -⟩
  · exact same
  · have way := prefix_of_onWay (down_join down isName) onWay
    rw [target, List.prefix_concat_iff] at way
    rcases way with rfl | way
    · exact absurd (List.prefix_refl _) aside
    · have there := Tree.dir_of_prefix (of_decide_eq_true dir) way
      rw [there] at missing
      cases missing

/-- A name that is free in a directory is copied into it exactly. -/
theorem entry_exact (exactly : CopiesExactly n) (isName : IsName name)
    (down : ".." ∉ Path.steps dst)
    (free : g.tree.node? (landing g.here dst ++ [name]) = none)
    (ran : copyTree n (Path.join src name) (Path.join dst name) g = (.ok (), f')) (r : Place) :
    f'.tree.node? (landing g.here dst ++ name :: r) =
      g.tree.node? (landing g.here src ++ name :: r) := by
  obtain ⟨spot, leads⟩ := resolve_of_copyTree ran
  have same := Files.resolve_join_inside isName leads
  rw [same] at leads
  have target := isName.landing_join g.here dst
  have copied := exactly _ _ _ _ _ ran leads (down_join down isName) (steps_join_ne isName)
    (target ▸ free) r
  rw [target] at copied
  simpa using copied

/-- Places below two that are apart are not below each other. -/
theorem not_prefix_of_apart {r q : Place} (apart : ¬S <+: D) (apart' : ¬D <+: S) :
    ¬D ++ r <+: S ++ q := by
  intro below
  have both := (List.prefix_append D r).trans below
  rcases List.prefix_or_prefix_of_prefix (List.prefix_append S q) both with inside | inside
  · exact apart inside
  · exact apart' inside

/-- Names that differ lead to places that are not below each other. -/
theorem not_prefix_of_ne {q : Place} {a b : String} (differ : a ≠ b) :
    ¬D ++ [a] <+: D ++ b :: q := by
  rw [List.prefix_append_right_inj, List.cons_prefix_cons]
  exact fun both => differ both.1

/-- **The names in a directory are copied exactly**, into a directory where they are free, and
everything but their images is left alone. -/
theorem entries_exact {l : List (String × Node)} (exactly : CopiesExactly n)
    (ran : Attempt.forEach l (fun e => copyTree n (Path.join src e.1) (Path.join dst e.1)) g =
      (.ok (), f'))
    (nodup : (l.map (·.1)).Nodup) (names : ∀ e ∈ l, IsName e.1) (down : ".." ∉ Path.steps dst)
    (source : landing g.here src = S) (target : landing g.here dst = D)
    (dir : g.hasDir D = true) (apart : ¬S <+: D) (apart' : ¬D <+: S)
    (free : ∀ e ∈ l, g.tree.node? (D ++ [e.1]) = none) :
    (∀ e ∈ l, ∀ r, f'.tree.node? (D ++ e.1 :: r) = g.tree.node? (S ++ e.1 :: r)) ∧
      ∀ q, (∀ e ∈ l, ¬D ++ [e.1] <+: q) → f'.tree.node? q = g.tree.node? q := by
  induction l generalizing g with
  | nil =>
    cases ran
    simp
  | cons e l ih =>
    obtain ⟨_, k, first, others⟩ := Attempt.of_bind_ok ran
    have first : copyTree n (Path.join src e.1) (Path.join dst e.1) g = (.ok (), k) := first
    obtain ⟨isName, names⟩ := List.forall_mem_cons.1 names
    obtain ⟨fresh, free⟩ := List.forall_mem_cons.1 free
    rw [List.map_cons, List.nodup_cons] at nodup
    have differ : ∀ e' ∈ l, e.1 ≠ e'.1 := by
      intro e' inside same
      apply nodup.1
      rw [same]
      exact List.mem_map_of_mem inside
    have copied : ∀ r, k.tree.node? (D ++ e.1 :: r) = g.tree.node? (S ++ e.1 :: r) := by
      subst source target
      exact entry_exact exactly isName down fresh first
    have frame : ∀ q, ¬D ++ [e.1] <+: q → k.tree.node? q = g.tree.node? q := by
      subst target
      exact fun q => entry_frame isName down dir fresh first
    have here : k.here = g.here := by
      have grown := growing_copyTree n (Path.join src e.1) (Path.join dst e.1) g
      rw [first] at grown
      exact grown.here
    -- The other names are still as they were, in the source and at the destination.
    have dir' : k.hasDir D = true := by
      rw [Files.hasDir, frame D (not_below_self (List.cons_ne_nil _ _))]
      exact dir
    have free' : ∀ e' ∈ l, k.tree.node? (D ++ [e'.1]) = none := by
      intro e' inside
      rw [frame _ (not_prefix_of_ne (differ e' inside))]
      exact free e' inside
    obtain ⟨rest, aside⟩ := ih others nodup.2 names (here ▸ source) (here ▸ target) dir' free'
    refine ⟨List.forall_mem_cons.2 ⟨fun r => ?_, fun e' inside r => ?_⟩, fun q out => ?_⟩
    · rw [aside _ fun e' inside => not_prefix_of_ne (differ e' inside).symm]
      exact copied r
    · rw [rest e' inside r]
      exact frame _ (not_prefix_of_apart apart apart')
    · obtain ⟨out, outs⟩ := List.forall_mem_cons.1 out
      rw [aside q outs, frame q out]

/-- Copying a directory exactly takes one round more than copying what is in it. -/
theorem round_exact (exactly : CopiesExactly n) {children : List (String × Node)}
    (leads : f.resolve src = .ok (.inside S)) (isDir : f.hasDir S = true)
    (down : ".." ∉ Path.steps dst) (some : Path.steps dst ≠ [])
    (fresh : f.tree.node? (landing f.here dst) = none) (apart : ¬S <+: landing f.here dst)
    (made : makeDirAll dst f = (.ok (), g)) (read : g.childrenAt src = .ok children)
    (ran : Attempt.forEach children (fun e => copyTree n (Path.join src e.1) (Path.join dst e.1)) g =
      (.ok (), f')) (r : Place) :
    f'.tree.node? (landing f.here dst ++ r) = f.tree.node? (S ++ r) := by
  have apart' : ¬landing f.here dst <+: S := by
    intro above
    rw [Tree.dir_of_prefix (of_decide_eq_true isDir) above] at fresh
    cases fresh
  have grown := grows_of_makeDirAll made
  obtain ⟨-, dir⟩ := lands_of_makeDirAll made down some
  have leads' := grown.resolve_inside leads
  have source : landing g.here src = S := (Files.resolve_landing leads').symm
  have unchanged : ∀ q, g.tree.node? (S ++ q) = f.tree.node? (S ++ q) := by
    intro q
    apply makeDirAll_frame made down
    exact fun way => apart ((List.prefix_append S q).trans way)
  have empty : ∀ q, q ≠ [] → g.tree.node? (landing f.here dst ++ q) = none :=
    fun q proper => makeDirAll_empty made down fresh proper
  obtain ⟨nodup, holds⟩ := Files.of_childrenAt read
  obtain ⟨copied, aside⟩ := entries_exact exactly ran nodup
    (fun e inside => ((holds e.1 e.2).1 inside).isName) down source (by rw [grown.here]) dir apart
    apart' fun e _ => empty _ (List.cons_ne_nil _ _)
  cases r with
  | nil =>
    rw [List.append_nil, List.append_nil,
      aside _ fun e _ => not_below_self (List.cons_ne_nil _ _)]
    rw [of_decide_eq_true dir, of_decide_eq_true isDir]
  | cons name r =>
    rw [← unchanged]
    by_cases inside : ∃ e ∈ children, e.1 = name
    · obtain ⟨e, inside, rfl⟩ := inside
      exact copied e inside r
    · have missing : g.tree.node? (S ++ name :: r) = none := by
        by_contra there
        have way : S ++ [name] <+: S ++ name :: r := ⟨r, by simp⟩
        obtain ⟨m, held⟩ := Option.ne_none_iff_exists'.1 (Tree.there_of_prefix there way)
        exact inside ⟨_, (holds name m).2 ⟨S, leads', held⟩, rfl⟩
      rw [missing, aside]
      · exact empty _ (List.cons_ne_nil _ _)
      · intro e isChild below
        exact not_prefix_of_ne (fun same => inside ⟨e, isChild, same⟩) below

/-- **Copying is exact**, in any number of rounds. -/
theorem copiesExactly (n : Nat) : CopiesExactly n := by
  induction n with
  | zero =>
    intro src dst f f' S ran
    cases ran
  | succ n ih =>
    intro src dst f f' S ran leads down some fresh r
    rcases copyWith_ok ran with ⟨-, copied⟩ | ⟨isDir, g, children, made, read, copied⟩
    · rw [copyFile_exact copied fresh, Files.view_inside leads]
    · rw [Files.isDir, leads] at isDir
      refine round_exact ih leads isDir down some fresh ?_ made read copied r
      rintro ⟨rest, below⟩
      cases rest with
      | nil =>
        rw [← below, List.append_nil, of_decide_eq_true isDir] at fresh
        cases fresh
      | cons v vs => exact failsBelow _ _ _ _ _ _ _ _ ran leads isDir down some below.symm

/-! ## A whole copy -/

/-- Of a directory that is gone, nothing is copied but that it is one. -/
theorem gone_exact {children : List (String × Node)} (leads : f.resolve src = .ok (.adrift S))
    (down : ".." ∉ Path.steps dst) (some : Path.steps dst ≠ [])
    (fresh : f.tree.node? (landing f.here dst) = none) (made : makeDirAll dst f = (.ok (), g))
    (read : g.childrenAt src = .ok children)
    (ran : Attempt.forEach children (fun e => copyTree n (Path.join src e.1) (Path.join dst e.1)) g =
      (.ok (), f')) (r : Place) : f'.tree.node? (landing f.here dst ++ r) = f.view src r := by
  have grown := grows_of_makeDirAll made
  obtain ⟨-, dir⟩ := lands_of_makeDirAll made down some
  -- If it is there again, it was made on the way to the destination.
  have nothing : ∀ e, e ∉ children := by
    rintro e inside
    obtain ⟨p, leads', there⟩ := ((Files.of_childrenAt read).2 e.1 e.2).1 inside
    obtain ⟨readable, lands⟩ := readable_of_grows grown leads leads'
    have gone : f.hasDir p = false := by
      rcases readable with other | gone
      · cases other.symm.trans leads
      · exact lands ▸ gone
    have isDir := (Tree.dir_above there).1
    have way : p <+: landing f.here dst := by
      by_contra aside
      rw [makeDirAll_frame made down aside] at isDir
      simp [Files.hasDir, isDir] at gone
    obtain ⟨rest, below⟩ := way
    cases rest with
    | nil =>
      rw [List.append_nil] at below
      rw [below, makeDirAll_empty made down fresh (List.cons_ne_nil _ _)] at there
      cases there
    | cons v vs =>
      rw [← grown.here] at below dir
      exact entries_below_fail (failsBelow n) read ran leads' down dir below.symm
  obtain rfl := List.eq_nil_iff_forall_not_mem.2 nothing
  cases ran
  rw [Files.view, leads]
  by_cases proper : r = []
  · rw [proper, List.append_nil]
    exact of_decide_eq_true dir
  · rw [makeDirAll_empty made down fresh proper]
    exact (if_neg proper).symm

/-- **What was copied to where nothing was is what was at the source.** -/
theorem copyTree_exact (ran : copyTree n src dst f = (.ok (), f')) (down : ".." ∉ Path.steps dst)
    (some : Path.steps dst ≠ []) (fresh : f.tree.node? (landing f.here dst) = none) (r : Place) :
    f'.tree.node? (landing f.here dst ++ r) = f.view src r := by
  obtain ⟨spot, leads⟩ := resolve_of_copyTree ran
  cases spot with
  | inside S =>
    rw [Files.view_inside leads]
    exact copiesExactly n _ _ _ _ _ ran leads down some fresh r
  | adrift S =>
    cases n with
    | zero => cases ran
    | succ n =>
      rcases copyWith_ok ran with ⟨-, copied⟩ | ⟨-, g, children, made, read, copied⟩
      · exact copyFile_exact copied fresh r
      · exact gone_exact leads down some fresh made read copied r

/-- Where a path led nowhere and something was copied, there was nothing. -/
theorem fresh_of_copyTree (ran : copyTree n src dst f = (.ok (), f')) (named : dst ≠ "")
    (down : ".." ∉ Path.steps dst) (absent : f.pathExists dst = false) :
    Path.steps dst ≠ [] ∧ f.tree.node? (landing f.here dst) = none := by
  cases n with
  | zero => cases ran
  | succ n =>
    rcases copyWith_ok ran with ⟨-, copied⟩ | ⟨-, g, children, made, -⟩
    · obtain ⟨p, q, g, -, made, -⟩ := copyFile_ok copied
      obtain ⟨lands, -, -, leads, found⟩ := Files.create_ok made
      constructor
      · intro none
        have leadsThere := Files.exists_of_no_steps (f := f) (Files.resolve_eq_ok_iff.1 leads).1 none
        rw [leadsThere] at absent
        cases absent
      · by_contra there
        rw [← lands] at there
        rw [Files.pathExists, found there] at absent
        cases absent
    · have isDir := Files.isDir_of_makeDirAll made named
      refine Files.fresh_of_isDir (grows_of_makeDirAll made) down absent isDir fun there => ?_
      rcases node?_of_makeDirAll made _ with same | ⟨-, missing, -⟩
      · exact same
      · exact absurd missing there

/-- The destination leads to the copy. -/
theorem resolve_copied (ran : copyTree n src dst f = (.ok (), f')) (down : ".." ∉ Path.steps dst)
    (some : Path.steps dst ≠ []) : f'.resolve dst = .ok (.inside (landing f.here dst)) := by
  cases n with
  | zero => cases ran
  | succ n =>
    rcases copyWith_ok ran with ⟨-, copied⟩ | ⟨-, g, children, made, -, copied⟩
    · obtain ⟨p, q, g, -, made, rfl⟩ := copyFile_ok copied
      obtain ⟨rfl, -, -, leads, -⟩ := Files.create_ok made
      exact (Grows.put g _ _).resolve_inside leads
    · have grown : Growing (.forEach children fun e =>
          copyTree n (Path.join src e.1) (Path.join dst e.1)) :=
        growing_forEach fun e => growing_copyTree n _ _
      have grown := grown g
      rw [copied] at grown
      exact grown.resolve_inside (lands_of_makeDirAll made down some).1

/-- **A successful copy is exact** if the destination is a path without two dots. The destination
led nowhere, and there was nothing; what is there afterwards is what was at the source; everything
that was there is as it was; and all else that is new are directories on the way to the destination.
If the destination is there already, nothing changes. -/
theorem copy_is_exact (named : dst ≠ "") (down : ".." ∉ Path.segments dst) :
    ((copy src dst f).1 = .ok true →
      (f.pathExists dst = false ∧ f.tree.node? (landing f.here dst) = none) ∧
      (∀ r, (copy src dst f).2.view dst r = f.view src r) ∧
      (∀ p, f.tree.node? p ≠ none → (copy src dst f).2.tree.node? p = f.tree.node? p) ∧
      ∀ p, f.tree.node? p = none → (copy src dst f).2.tree.node? p ≠ none →
        landing f.here dst <+: p ∨
          OnWay f.here dst p ∧ (copy src dst f).2.tree.node? p = some .dir) ∧
    ((copy src dst f).1 = .ok false → f.pathExists dst = true ∧ (copy src dst f).2 = f) := by
  have down : ".." ∉ Path.steps dst := fun inside => down (List.mem_filter.1 inside).1
  rw [copy_eq]
  cases absent : f.pathExists dst with
  | true =>
    rw [if_pos rfl]
    exact ⟨nofun, fun _ => ⟨rfl, rfl⟩⟩
  | false =>
    rw [if_neg Bool.false_ne_true]
    rcases ran : copyTree (maxPath + 1) src dst f with ⟨_ | _, f'⟩
    · exact ⟨nofun, nofun⟩
    refine ⟨fun _ => ?_, nofun⟩
    obtain ⟨some, fresh⟩ := fresh_of_copyTree ran named down absent
    have confined := confined_copyTree (maxPath + 1) src dst f
    rw [ran] at confined
    have below : ∀ p, Images f src dst p → landing f.here dst <+: p := by
      rintro _ ⟨r, rfl, -⟩
      exact List.prefix_append _ r
    refine ⟨⟨rfl, fresh⟩, fun r => ?_, fun p there => ?_, fun p missing created => ?_⟩
    · rw [Files.view_inside (resolve_copied ran down some)]
      exact copyTree_exact ran down some fresh r
    · have image : ¬Images f src dst p :=
        fun image => Tree.there_of_prefix there (below p image) fresh
      -- An image is where nothing was, so its file is nowhere else.
      have apart : ∀ q, Images f src dst q → ¬f.tree.Shares q p := by
        intro q image
        apply Tree.not_shares_of_none
        by_contra there
        exact Tree.there_of_prefix there (below q image) fresh
      rcases confined.outside p image apart with same | ⟨-, missing, -⟩
      · exact same
      · exact absurd missing there
    · by_cases image : Images f src dst p
      · exact .inl (below p image)
      · rcases confined.there image with same | ⟨onWay, -, dir⟩
        · exact absurd (same.2 missing) created
        · exact .inr ⟨onWay, dir⟩

/-- A directory with a file is copied to where the way is missing too, and the file is there. -/
theorem copy_is_exact_on_missing_way :
    let f : Files := { tree := (Tree.empty.put ["a"] .dir).put ["a", "x"] (.file ⟨#[7]⟩) }
    (copy "a" "n/c" f).1 = .ok true ∧ f.pathExists "n/c" = false ∧
      (copy "a" "n/c" f).2.view "n/c" ["x"] = some (.file ⟨#[7]⟩) := by
  intro f
  have copied : (copy "a" "n/c" f).1 = .ok true := ok_of_toOption (by decide +kernel)
  have there : f.view "a" ["x"] = some (.file ⟨#[7]⟩) := by decide +kernel
  have down : ".." ∉ Path.segments "n/c" := by decide
  obtain ⟨⟨absent, -⟩, same, -, -⟩ := (copy_is_exact (by decide) down).1 copied
  exact ⟨copied, absent, (same ["x"]).trans there⟩

/-- The empty path leads nowhere, and yet a directory is copied to it: into the current directory,
over a file that is there. -/
theorem copy_to_empty_path_overwrites :
    ¬∀ (f : Files) (src dst : String), ".." ∉ Path.segments dst → (copy src dst f).1 = .ok true →
      ∀ p, f.tree.node? p ≠ none → (copy src dst f).2.tree.node? p = f.tree.node? p := by
  intro claim
  let f : Files := {
    tree := ((Tree.empty.put ["d"] .dir).put ["d", "x"] (.file ⟨#[1]⟩)).put ["x"] (.file ⟨#[2]⟩) }
  have copied : (copy "d" "" f).1 = .ok true := ok_of_toOption (by decide +kernel)
  have kept := claim f "d" "" (by decide) copied ["x"] (by decide +kernel)
  have lost : (copy "d" "" f).2.tree.node? ["x"] ≠ f.tree.node? ["x"] := by decide +kernel
  exact lost kept

end Chore.File
