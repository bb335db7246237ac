import Chore.Proofs.File.Landing

/-!
# What file operations leave alone

`Confined own made` relates the files before an operation to those after it: only the places of `own`
may change, and directories may be there that were missing, at places of `made`. A file that is at a
place of `own` may be at other places as well; there the same file stays, with other bytes. No file
gets to a further place. `Confines` is the triple for attempts, with a rule for each way they are put
together. From it follows where directories are made (`confines_makeDirAll`) and where files are
written (`confines_create`, `confines_append`).
-/

set_option autoImplicit false

namespace Chore.File

namespace Tree

theorem lookup_filter_ne {α : Type} {listing : List (Place × α)} {p q : Place} (h : q ≠ p) :
    (listing.filter fun e => e.1 ≠ p).lookup q = listing.lookup q := by
  induction listing with
  | nil => rfl
  | cons e listing ih =>
    obtain ⟨place, a⟩ := e
    by_cases same : place = p
    · subst same
      have other : (q == place) = false := by simpa using h
      rw [List.filter_cons_of_neg (by simp), List.lookup_cons, other, ih]
    · rw [List.filter_cons_of_pos (by simpa using same), List.lookup_cons, List.lookup_cons, ih]

section Put

variable {t : Tree} {p q : Place} {n : Node}

theorem listing_put (fits : t.canPut p n) :
    (t.put p n).listing = (p, t.listingOf p n) :: t.listing.filter fun e => e.1 ≠ p := by
  rw [put, dif_pos fits]

theorem bytes_put (fits : t.canPut p n) : (t.put p n).bytes = t.bytesWith p n := by
  rw [put, dif_pos fits]

theorem next_put (fits : t.canPut p n) : (t.put p n).next = max t.next (t.numberAt p + 1) := by
  rw [put, dif_pos fits]

/-- What is listed where, once something is put at a place. -/
theorem listed?_put (t : Tree) (p : Place) (n : Node) (q : Place) :
    (t.put p n).listed? q =
      if t.canPut p n ∧ q = p then some (t.listingOf p n) else t.listed? q := by
  unfold put
  split
  next fits =>
    cases q with
    | nil =>
      rw [if_neg fun both => fits.1 both.2.symm]
      rfl
    | cons name rest =>
      change List.lookup (name :: rest) ((p, _) :: _) = _
      by_cases same : name :: rest = p
      · rw [if_pos ⟨fits, same⟩, same, List.lookup_cons, beq_self_eq_true]
      · have other : (name :: rest == p) = false := by simpa using same
        rw [if_neg fun both => same both.2, List.lookup_cons, other]
        exact lookup_filter_ne same
  next unfit => rw [if_neg fun both => unfit both.1]

/-- A place with the number for another one has its file: the next number is not in use. -/
theorem shares_of_numberAt (h : t.listed? q = some (.file (t.numberAt p))) : t.Shares p q := by
  rw [numberAt] at h
  split at h
  next number there => exact ⟨number, there, h⟩
  next =>
    have proper : q ≠ [] := by
      rintro rfl
      cases h
    have below := t.numbered _ ((listed?_eq_some_iff proper).1 h) _ rfl
    exact absurd below (Nat.lt_irrefl _)

theorem Shares.numberAt (h : t.Shares p q) : t.listed? q = some (.file (t.numberAt p)) := by
  obtain ⟨number, there, there'⟩ := h
  simp only [Tree.numberAt, there, there']

theorem Shares.symm (h : t.Shares p q) : t.Shares q p := by
  obtain ⟨number, there, there'⟩ := h
  exact ⟨number, there', there⟩

/-- No file gets to a further place. -/
theorem Shares.of_put {r : Place} (differ : q ≠ r) (h : (t.put p n).Shares q r) : t.Shares q r := by
  have here {q r : Place} (at_p : t.canPut p n ∧ q = p) (other : ¬(t.canPut p n ∧ r = p))
      (h : (t.put p n).Shares q r) : t.Shares q r := by
    obtain ⟨number, there, there'⟩ := h
    rw [listed?_put, if_pos at_p] at there
    rw [listed?_put, if_neg other] at there'
    cases n with
    | dir => cases there
    | file bytes =>
      cases there
      rw [at_p.2]
      exact shares_of_numberAt there'
  by_cases first : t.canPut p n ∧ q = p <;> by_cases second : t.canPut p n ∧ r = p
  · exact absurd (first.2.trans second.2.symm) differ
  · exact here first second h
  · exact (here second first h.symm).symm
  · obtain ⟨number, there, there'⟩ := h
    rw [listed?_put, if_neg first] at there
    rw [listed?_put, if_neg second] at there'
    exact ⟨number, there, there'⟩

/-- What is where, once something is put at a place: it is there, and a file is wherever the file is
that was there. -/
theorem node?_put (t : Tree) (p : Place) (n : Node) (q : Place) :
    (t.put p n).node? q =
      if t.canPut p n ∧ (q = p ∨ n ≠ .dir ∧ t.Shares p q) then some n else t.node? q := by
  rw [node?, listed?_put]
  by_cases fits : t.canPut p n
  · have bytes := bytes_put fits
    by_cases same : q = p
    · rw [if_pos ⟨fits, same⟩, if_pos ⟨fits, .inl same⟩, Option.map_some]
      cases n with
      | dir => rfl
      | file b => simp [listingOf, node, bytes, bytesWith]
    · rw [if_neg fun both => same both.2]
      by_cases shared : n ≠ .dir ∧ t.Shares p q
      · rw [if_pos ⟨fits, .inr shared⟩, shared.2.numberAt, Option.map_some]
        cases n with
        | dir => exact absurd rfl shared.1
        | file b => simp [node, bytes, bytesWith]
      · rw [if_neg fun both => shared (both.2.resolve_left same)]
        apply Option.map_congr
        intro l there
        cases l with
        | dir => rfl
        | file number =>
          cases n with
          | dir => simp [node, bytes, bytesWith]
          | file b =>
            have other : number ≠ t.numberAt p := by
              rintro rfl
              exact shared ⟨by rintro ⟨⟩, shares_of_numberAt there⟩
            simp [node, bytes, bytesWith, other]
  · have same : t.put p n = t := by rw [put, dif_neg fits]
    rw [if_neg fun both => fits both.1, if_neg fun both => fits both.1, same]
    rfl

theorem node?_put_self (fits : t.canPut p n) : (t.put p n).node? p = some n := by
  rw [node?_put, if_pos ⟨fits, .inl rfl⟩]

theorem node?_put_of_apart (other : q ≠ p) (apart : ¬t.Shares p q) :
    (t.put p n).node? q = t.node? q := by
  rw [node?_put, if_neg fun both => both.2.elim other fun shared => apart shared.2]

theorem not_shares_of_none (h : t.node? p = none) : ¬t.Shares p q := by
  rintro ⟨number, there, -⟩
  rw [node?_eq_none_iff.1 h] at there
  cases there

/-- Where nothing was, what is put changes nothing else. -/
theorem node?_put_of_fresh (fresh : t.node? p = none) (other : q ≠ p) :
    (t.put p n).node? q = t.node? q :=
  node?_put_of_apart other (not_shares_of_none fresh)

end Put

end Tree

/-- From one to another, files change only at places of `own`, but for directories that were missing
at places of `made` and for the bytes of files that are at places of `own` as well; no file gets to a
further place, and the current directory is the same. -/
structure Confined (own made : Place → Prop) (f f' : Files) : Prop where
  here : f'.here = f.here
  listed : ∀ q, ¬own q → f'.tree.listed? q = f.tree.listed? q ∨
    made q ∧ f.tree.node? q = none ∧ f'.tree.node? q = some .dir
  shared : ∀ p q, p ≠ q → f'.tree.Shares p q → f.tree.Shares p q
  outside : ∀ q, ¬own q → (∀ p, own p → ¬f.tree.Shares p q) →
    f'.tree.node? q = f.tree.node? q ∨
      made q ∧ f.tree.node? q = none ∧ f'.tree.node? q = some .dir

namespace Confined

variable {own made : Place → Prop}

theorem refl (f : Files) : Confined own made f f :=
  ⟨rfl, fun _ _ => .inl rfl, fun _ _ _ => id, fun _ _ _ => .inl rfl⟩

/-- A directory that was made stays. -/
theorem trans {f g k : Files} (first : Confined own made f g) (second : Confined own made g k) :
    Confined own made f k := by
  refine ⟨second.here.trans first.here, fun q out => ?_,
    fun p q differ shared => first.shared p q differ (second.shared p q differ shared),
    fun q out apart => ?_⟩
  · rcases first.listed q out with same | ⟨isMade, missing, dir⟩ <;>
      rcases second.listed q out with same' | ⟨isMade', missing', dir'⟩
    · exact .inl (same'.trans same)
    · refine .inr ⟨isMade', ?_, dir'⟩
      rwa [Tree.node?_eq_none_iff, ← same, ← Tree.node?_eq_none_iff]
    · refine .inr ⟨isMade, missing, ?_⟩
      rwa [Tree.node?_eq_dir_iff, same', ← Tree.node?_eq_dir_iff]
    · rw [dir] at missing'
      cases missing'
  · have apart' : ∀ p, own p → ¬g.tree.Shares p q := by
      intro p owned shared
      have differ : p ≠ q := by
        rintro rfl
        exact out owned
      exact apart p owned (first.shared p q differ shared)
    rcases first.outside q out apart with same | ⟨isMade, missing, dir⟩ <;>
      rcases second.outside q out apart' with same' | ⟨isMade', missing', dir'⟩
    · exact .inl (same'.trans same)
    · exact .inr ⟨isMade', same ▸ missing', dir'⟩
    · exact .inr ⟨isMade, missing, same'.trans dir⟩
    · rw [dir] at missing'
      cases missing'

/-- Puts what may be put at a place. -/
theorem put {f : Files} {p : Place} {n : Node}
    (h : own p ∨ made p ∧ f.tree.node? p = none ∧ n = .dir) :
    Confined own made f (f.setTree (f.tree.put p n)) := by
  have dir {q : Place} (out : ¬own q) (here : f.tree.canPut p n ∧ q = p) :
      made q ∧ f.tree.node? q = none ∧ (f.tree.put p n).node? q = some .dir := by
    obtain ⟨fits, rfl⟩ := here
    obtain ⟨isMade, missing, rfl⟩ := h.resolve_left out
    exact ⟨isMade, missing, Tree.node?_put_self fits⟩
  refine ⟨rfl, fun q out => ?_, fun q r differ shared => .of_put differ shared,
    fun q out apart => ?_⟩
  · change (f.tree.put p n).listed? q = _ ∨ _
    by_cases here : f.tree.canPut p n ∧ q = p
    · exact .inr (dir out here)
    · exact .inl ((Tree.listed?_put _ _ _ _).trans (if_neg here))
  · change (f.tree.put p n).node? q = _ ∨ _
    rw [Tree.node?_put]
    split
    next here =>
      obtain ⟨fits, rfl | ⟨isFile, shared⟩⟩ := here
      · exact .inr (dir out ⟨fits, rfl⟩)
      · have owned : own p := h.resolve_right fun other => isFile other.2.2
        exact absurd shared (apart p owned)
    next => exact .inl rfl

/-- What is there stays, and nothing gets there, but for directories that are made. -/
theorem there {f f' : Files} (h : Confined own made f f') {q : Place} (out : ¬own q) :
    (f'.tree.node? q = none ↔ f.tree.node? q = none) ∨
      made q ∧ f.tree.node? q = none ∧ f'.tree.node? q = some .dir := by
  refine (h.listed q out).imp_left fun same => ?_
  rw [Tree.node?_eq_none_iff, Tree.node?_eq_none_iff, same]

end Confined

section Rules

variable {σ ε δ α β : Type} {files : σ → Files} {here : Place} {own made : Place → Prop}

/-- An attempt, from a current directory on, leaves alone what is not in `own` or `made`, and what it
gives is as `post` says. -/
def Confines (files : σ → Files) (here : Place) (own made : Place → Prop) (m : Attempt σ ε α)
    (post : α → Prop) : Prop :=
  ∀ s, (files s).here = here →
    Confined own made (files s) (files (m s).2) ∧ ∀ a, (m s).1 = .ok a → post a

theorem confines_pure {a : α} {post : α → Prop} (h : post a) :
    Confines files here own made (pure a : Attempt σ ε α) post := by
  refine fun s _ => ⟨.refl _, ?_⟩
  rintro _ ⟨⟩
  exact h

theorem confines_bind {m : Attempt σ ε α} {g : α → Attempt σ ε β} {mid : α → Prop}
    {post : β → Prop} (first : Confines files here own made m mid)
    (second : ∀ a, mid a → Confines files here own made (g a) post) :
    Confines files here own made (m >>= g) post := by
  intro s stands
  obtain ⟨confined, gives⟩ := first s stands
  rw [Attempt.bind_apply]
  rcases ran : m s with ⟨_ | a, t⟩ <;> rw [ran] at confined gives
  · exact ⟨confined, nofun⟩
  · have ⟨confined', gives'⟩ := second a (gives a rfl) t (confined.here.trans stands)
    exact ⟨confined.trans confined', gives'⟩

theorem confines_fail {e : ε} {post : α → Prop} :
    Confines files here own made (.fail e : Attempt σ ε α) post :=
  fun _ _ => ⟨.refl _, nofun⟩

theorem confines_ofExcept {r : Except ε α} {post : α → Prop} (h : ∀ a, r = .ok a → post a) :
    Confines files here own made (.ofExcept r : Attempt σ ε α) post :=
  fun _ _ => ⟨.refl _, h⟩

theorem confines_get :
    Confines files here own made (.get : Attempt σ ε σ) fun s => (files s).here = here := by
  refine fun s stands => ⟨.refl _, ?_⟩
  rintro _ ⟨⟩
  exact stands

theorem confines_outcome {m : Attempt σ ε α} {post : α → Prop}
    (h : Confines files here own made m post) :
    Confines files here own made (m.outcome : Attempt σ δ (Except ε α)) fun _ => True :=
  fun s stands => ⟨(h s stands).1, fun _ _ => trivial⟩

theorem confines_modify {g : σ → σ} (h : ∀ s, files (g s) = files s) :
    Confines files here own made (.modify g : Attempt σ ε Unit) fun _ => True := by
  refine fun s _ => ⟨?_, fun _ _ => trivial⟩
  rw [Attempt.modify_apply, h]
  exact .refl _

theorem confines_forEach {l : List α} {g : α → Attempt σ ε Unit}
    (h : ∀ a ∈ l, Confines files here own made (g a) fun _ => True) :
    Confines files here own made (.forEach l g) fun _ => True := by
  induction l with
  | nil => exact confines_pure trivial
  | cons a l ih =>
    have ⟨first, others⟩ := List.forall_mem_cons.1 h
    exact confines_bind first fun _ _ => ih others

end Rules

section Operations

variable {here : Place} {own made : Place → Prop}

theorem confines_look {α : Type} {g : Files → Except FileError α} {post : α → Prop}
    (h : ∀ f, f.here = here → ∀ a, g f = .ok a → post a) :
    Confines id here own made (look g) post :=
  fun f stands => ⟨.refl _, h f stands⟩

theorem confines_put {p : Place} {n : Node} (h : own p) :
    Confines id here own made (put p n) fun _ => True :=
  fun _ _ => ⟨.put (.inl h), fun _ _ => trivial⟩

/-- The directory in front of the last step of a path. -/
theorem confines_resolveParent (path : String) :
    Confines id here own made (look fun f => f.resolveParent path) fun r =>
      ∀ parent name slash, r = (parent, .name name slash) →
        Files.Names here path parent name slash := by
  refine confines_look fun f stands r reached parent name slash same => ?_
  subst same
  exact stands ▸ Files.names_of_resolveParent reached

/-! ## Directories -/

/-- Makes a directory where there is nothing. -/
theorem confines_putDir {p : Place} {e : FileError} (h : own p ∨ made p) :
    Confines id here own made
      (do
        if ((← .get).tree.node? p).isSome then .fail e
        else
          look fun f => f.allowed .make p
          put p .dir : FileAction Unit) fun _ => True := by
  refine fun f _ => ⟨?_, fun _ _ => trivial⟩
  rw [Attempt.bind_apply, Attempt.get_apply]
  cases there : f.tree.node? p with
  | some n =>
    simp only [there]
    exact .refl f
  | none =>
    simp only [there]
    change Confined own made f (((look fun f => f.allowed .make p) >>= fun _ => put p .dir) f).2
    rw [Attempt.bind_apply, look]
    cases f.allowed .make p with
    | error e => exact .refl f
    | ok _ => exact .put (h.imp_right fun isMade => ⟨isMade, there, rfl⟩)

theorem confines_makeDir {path : String} (h : own (landing here path) ∨ made (landing here path)) :
    Confines id here own made (makeDir path) fun _ => True := by
  refine confines_bind (confines_resolveParent path) fun r names => ?_
  obtain ⟨parent, last⟩ := r
  cases last with
  | name name slash =>
    have names := names parent name slash rfl
    refine confines_bind (confines_ofExcept fun p place => names.placeOf_landing place) fun p lands => ?_
    subst lands
    exact confines_putDir h
  | dot | dots | root => exact confines_fail

/-- A failure is forgotten if there is a directory. -/
theorem confines_unlessDir (path : String) (e : FileError) :
    Confines id here own made
      (do if (← .get).isDir path then return else .fail e : FileAction Unit) fun _ => True := by
  refine confines_bind confines_get fun f _ => ?_
  split
  · exact confines_pure trivial
  · exact confines_fail

theorem confines_makeDirs {paths : List String}
    (h : ∀ path ∈ paths, own (landing here path) ∨ made (landing here path)) :
    Confines id here own made (makeDirs paths) fun _ => True := by
  induction paths with
  | nil => exact confines_fail
  | cons path ancestors ih =>
    have ⟨first, others⟩ := List.forall_mem_cons.1 h
    have tries : Confines id here own made
        ((makeDir path).outcome : FileAction (Except FileError Unit)) fun _ => True :=
      confines_outcome (confines_makeDir first)
    rw [makeDirs]
    split
    · exact confines_pure trivial
    refine confines_bind tries fun r _ => ?_
    split
    · exact confines_pure trivial
    · refine confines_bind (ih others) fun _ _ => confines_bind tries fun r _ => ?_
      split
      · exact confines_pure trivial
      · exact confines_unlessDir path _
    · exact confines_unlessDir path _

/-- **Directories are made at the ancestors of the path.** -/
theorem confines_makeDirAll {path : String}
    (h : ∀ a ∈ Path.ancestors path, own (landing here a) ∨ made (landing here a)) :
    Confines id here own made (makeDirAll path) fun _ => True :=
  confines_makeDirs h

/-! ## Files -/

/-- The place of a file is the landing of its path, which ends in a name. -/
theorem confines_placeForFile (path : String) :
    Confines id here own made (placeForFile path) fun p =>
      p = landing here path ∧ ∃ name, (Path.segments path).getLast? = some name ∧
        Path.isIdle name = false ∧ name ≠ ".." := by
  refine confines_bind (confines_resolveParent path) fun r names => ?_
  obtain ⟨parent, last⟩ := r
  cases last with
  | name name slash =>
    have names := names parent name slash rfl
    cases slash with
    | true => exact confines_fail
    | false =>
      refine confines_bind (confines_ofExcept fun p place => names.placeOf_landing place)
        fun p lands => confines_bind confines_get fun f _ => ?_
      split
      · exact confines_fail
      · exact confines_pure ⟨lands, name, names.bare rfl, names.solid, names.down⟩
  | dot | dots | root => exact confines_fail

/-- **A file is made at the landing of its path.** -/
theorem confines_create {path : String}
    (h : ∀ name, (Path.segments path).getLast? = some name → Path.isIdle name = false →
      name ≠ ".." → own (landing here path)) :
    Confines id here own made (create path) own := by
  refine confines_bind (confines_placeForFile path) fun p names => ?_
  obtain ⟨rfl, name, last, solid, down⟩ := names
  have owned := h name last solid down
  have opens : Confines id here own made
      (look fun f => f.openable (landing here path)) fun _ => True :=
    confines_look fun _ _ _ _ => trivial
  exact confines_bind opens fun _ _ =>
    confines_bind (confines_put owned) fun _ _ => confines_pure owned

/-- **What is written behind a file**, cut short or not. -/
theorem confines_append {p : Place} (h : own p) (bytes : ByteArray) :
    Confines id here own made (append p bytes) fun _ => True := by
  refine confines_bind confines_get fun f _ => ?_
  split
  · exact confines_put h
  · exact confines_bind (confines_put h) fun _ _ => confines_fail

end Operations

end Chore.File
