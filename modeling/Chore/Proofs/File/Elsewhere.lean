import Chore.Proofs.File.Copying

/-!
# Changing one file

Writing or removing one file changes what is at its place, and where else the file is, and nothing
else (`SameBut`). Paths are followed through directories only, so all that lead to other places lead
there as before (`SameBut.resolve`), and what is seen at them and below them is the same
(`SameBut.view`).

A file that was just made can be written behind (`append_all`), as far as writing goes. It can be
removed unless that is refused, and its path leads nowhere then (`Files.Writable.unlink_written`).
-/

set_option autoImplicit false

namespace Chore.File

namespace Tree

section Remove

variable {t : Tree} {p q : Place}

/-- What is left where something is removed. -/
theorem listed?_remove {l : Listed} (proper : p ≠ []) :
    (t.remove p).listed? q = some l ↔ t.listed? q = some l ∧ ¬p <+: q := by
  cases q with
  | nil =>
    have root : ¬p <+: [] := fun initial => proper (List.prefix_nil.1 initial)
    simp [listed?, root]
  | cons name rest =>
    rw [listed?_eq_some_iff (List.cons_ne_nil _ _), listed?_eq_some_iff (List.cons_ne_nil _ _),
      mem_remove_iff, ← List.isPrefixOf_iff_prefix, Bool.not_eq_true]

theorem listed?_remove_file {bytes : ByteArray} (h : t.node? p = some (.file bytes)) (q : Place) :
    (t.remove p).listed? q = if q = p then none else t.listed? q := by
  have proper : p ≠ [] := by
    rintro rfl
    cases h
  apply Option.ext
  intro l
  rw [listed?_remove proper]
  split
  next same => simp [same]
  next other =>
    refine ⟨And.left, fun there => ⟨there, ?_⟩⟩
    rintro ⟨r, rfl⟩
    have missing := none_below_file h (q := r) (by simpa using other)
    rw [node?_eq_none_iff, there] at missing
    cases missing

theorem node?_remove_file {bytes : ByteArray} (h : t.node? p = some (.file bytes)) (q : Place) :
    (t.remove p).node? q = if q = p then none else t.node? q := by
  rw [node?, listed?_remove_file h]
  split <;> rfl

end Remove

section Rewrite

variable {t : Tree} {p : Place} {b c : ByteArray}

theorem numberAt_put (fits : t.canPut p (.file b)) : (t.put p (.file b)).numberAt p = t.numberAt p := by
  have there : (t.put p (.file b)).listed? p = some (.file (t.numberAt p)) := by
    rw [listed?_put, if_pos ⟨fits, rfl⟩]
    rfl
  rw [numberAt, there]

/-- What is written last stays. -/
theorem put_put (fits : t.canPut p (.file b)) (fits' : t.canPut p (.file c))
    (again : (t.put p (.file b)).canPut p (.file c)) :
    (t.put p (.file b)).put p (.file c) = t.put p (.file c) := by
  have number := numberAt_put fits
  apply Tree.ext
  · rw [listing_put again, listing_put fits, listing_put fits', listingOf, number,
      List.filter_cons_of_neg (by simp), List.filter_filter]
    simp [listingOf]
  · rw [bytes_put again, bytes_put fits', bytesWith, bytesWith, number, bytes_put fits]
    funext k
    by_cases same : k = t.numberAt p <;> simp [bytesWith, same]
  · rw [next_put again, next_put fits, next_put fits', number]
    omega

end Rewrite

end Tree

/-- The places of the file that is, or is to be, at a place. -/
def Files.Across (f : Files) (p q : Place) : Prop :=
  q = p ∨ f.tree.Shares p q

instance (f : Files) (p q : Place) : Decidable (f.Across p q) :=
  inferInstanceAs (Decidable (_ ∨ _))

/-- Files that differ at most in what is at certain places, where there is no directory in either. -/
structure SameBut (own : Place → Prop) (f f' : Files) : Prop where
  here : f'.here = f.here
  stands : f'.stands = f.stands
  noDir : ∀ p, own p → f.hasDir p = false
  noDir' : ∀ p, own p → f'.hasDir p = false
  elsewhere : ∀ q, ¬own q → f'.tree.node? q = f.tree.node? q

namespace SameBut

variable {own : Place → Prop} {p : Place} {f f' f'' : Files} {path : String}

theorem symm (h : SameBut own f f') : SameBut own f' f :=
  ⟨h.here.symm, h.stands.symm, h.noDir', h.noDir, fun q other => (h.elsewhere q other).symm⟩

theorem trans (first : SameBut own f f') (second : SameBut own f' f'') : SameBut own f f'' where
  here := second.here.trans first.here
  stands := second.stands.trans first.stands
  noDir := first.noDir
  noDir' := second.noDir'
  elsewhere q other := (second.elsewhere q other).trans (first.elsewhere q other)

theorem hasDir (h : SameBut own f f') (q : Place) : f'.hasDir q = f.hasDir q := by
  by_cases owned : own q
  · rw [h.noDir q owned, h.noDir' q owned]
  · rw [Files.hasDir, Files.hasDir, h.elsewhere q owned]

/-- Another tree that differs at certain places only. -/
theorem setTree {t : Tree} (noDir : ∀ p, own p → f.hasDir p = false)
    (noDir' : ∀ p, own p → t.node? p ≠ some .dir)
    (elsewhere : ∀ q, ¬own q → t.node? q = f.tree.node? q) : SameBut own f (f.setTree t) := by
  have dirs : ∀ q, (f.setTree t).hasDir q = f.hasDir q := by
    intro q
    by_cases owned : own q
    · rw [noDir q owned]
      exact decide_eq_false (noDir' q owned)
    · rw [Files.hasDir, Files.hasDir]
      exact congrArg (fun n : Option Node => decide (n = some .dir)) (elsewhere q owned)
  refine ⟨rfl, ?_, noDir, fun p owned => (dirs p).trans (noDir p owned), elsewhere⟩
  have attached : (f.setTree t).attached = (f.attached && f.hasDir f.here) := by
    rw [← dirs f.here]
    rfl
  rw [Files.stands, Files.stands, attached]
  change (_ && (f.setTree t).hasDir f.here) = _
  rw [dirs, Bool.and_assoc, Bool.and_self]

/-- Writing a file. -/
theorem put (noDir : f.hasDir p = false) (bytes : ByteArray) :
    SameBut (f.Across p) f (f.setTree (f.tree.put p (.file bytes))) := by
  have across : ∀ q, f.Across p q → f.hasDir q = false := by
    rintro q (rfl | ⟨number, -, there⟩)
    · exact noDir
    · apply decide_eq_false
      rw [Tree.node?_eq_dir_iff, there]
      nofun
  refine setTree across (fun q owned => ?_) fun q other => ?_
  · rw [Tree.node?_put]
    split
    · nofun
    · exact of_decide_eq_false (across q owned)
  · exact Tree.node?_put_of_apart (fun same => other (.inl same)) fun shared => other (.inr shared)

/-- Removing a file from one of its places. -/
theorem remove {bytes : ByteArray} (noDir : ∀ q, own q → f.hasDir q = false)
    (there : f.tree.node? p = some (.file bytes)) (owned : own p) :
    SameBut own f (f.setTree (f.tree.remove p)) := by
  refine setTree noDir (fun q owned => ?_) fun q other => ?_
  · rw [Tree.node?_remove_file there]
    split
    · nofun
    · exact of_decide_eq_false (noDir q owned)
  · rw [Tree.node?_remove_file there, if_neg]
    rintro rfl
    exact other owned

/-! ## Paths to other places -/

theorem enter (h : SameBut own f f') {spot next : Spot} {segment : String}
    (entered : f.enter spot segment = .ok next) (other : ∀ p, own p → next ≠ .inside p) :
    f'.enter spot segment = .ok next := by
  cases spot with
  | adrift q =>
    rw [← entered]
    simp only [Files.enter, h.hasDir]
  | inside q =>
    by_cases owned : own (q ++ [segment])
    · rw [Files.enter] at entered ⊢
      simp only [h.hasDir]
      split at entered
      next => cases entered
      next isDir =>
      split at entered
      next idle => rwa [if_neg isDir, if_pos idle]
      next solid =>
      split at entered
      next up => rwa [if_neg isDir, if_neg solid, if_pos up]
      next down =>
      split at entered
      next => cases entered
      next =>
      split at entered
      next =>
        cases entered
        exact absurd rfl (other _ owned)
      next => cases entered
    · rw [← entered]
      simp only [Files.enter, h.hasDir, h.elsewhere _ owned]

/-- A path is not followed beyond a place where there is no directory. -/
theorem end_of_follow {segments : List String} {last : Spot} (noDir : f.hasDir p = false)
    (followed : f.follow (.inside p) segments = .ok last) : last = .inside p := by
  cases segments with
  | nil =>
    cases followed
    rfl
  | cons segment segments =>
    obtain ⟨next, entered, -⟩ := bind_ok followed
    rw [Files.enter, if_pos (by simp [noDir])] at entered
    cases entered

theorem follow (h : SameBut own f f') {spot last : Spot} {segments : List String}
    (followed : f.follow spot segments = .ok last) (other : ¬own last.place) :
    f'.follow spot segments = .ok last := by
  induction segments generalizing spot with
  | nil =>
    cases followed
    rfl
  | cons segment segments ih =>
    obtain ⟨next, entered, followed⟩ := bind_ok followed
    have apart : ∀ p, own p → next ≠ .inside p := by
      rintro p owned rfl
      rw [end_of_follow (h.noDir p owned) followed] at other
      exact other owned
    rw [Files.follow, h.enter entered apart]
    exact ih followed

theorem start (h : SameBut own f f') (path : String) : f'.start path = f.start path := by
  rw [Files.start, Files.start, h.here, h.stands]

theorem resolve (h : SameBut own f f') {spot : Spot} (leads : f.resolve path = .ok spot)
    (other : ¬own spot.place) : f'.resolve path = .ok spot := by
  obtain ⟨isUsable, followed⟩ := Files.resolve_eq_ok_iff.1 leads
  rw [← h.start] at followed
  exact Files.resolve_eq_ok_iff.2 ⟨isUsable, h.follow followed other⟩

/-- Below a place where there is no directory there is nothing. -/
theorem view_none {r : Place} (noDir : f.hasDir p = false) (lands : landing f.here path = p)
    (proper : r ≠ []) : f.view path r = none := by
  rw [Files.view]
  cases leads : f.resolve path with
  | error e => rfl
  | ok spot =>
    have place := Files.resolve_landing leads
    cases spot with
    | adrift q => exact if_neg proper
    | inside q =>
      obtain rfl : q = p := place.trans lands
      by_contra there
      obtain ⟨n, there⟩ := Option.ne_none_iff_exists'.1 there
      exact of_decide_eq_false noDir (Tree.dir_of_below there proper)

/-- **What is seen of any other place** is the same. -/
theorem view (h : SameBut own f f') {r : Place} (other : ¬own (landing f.here path ++ r)) :
    f'.view path r = f.view path r := by
  by_cases owned : own (landing f.here path)
  · have proper : r ≠ [] := by
      rintro rfl
      exact other (by rwa [List.append_nil])
    rw [view_none (h.noDir _ owned) rfl proper, view_none (h.noDir' _ owned) (by rw [h.here]) proper]
  · have apart {spot : Spot} (leads : f.resolve path = .ok spot) : ¬own spot.place := by
      rwa [Files.resolve_landing leads]
    cases leads : f.resolve path with
    | ok spot =>
      rw [Files.view, Files.view, h.resolve leads (apart leads), leads]
      cases spot with
      | adrift q => rfl
      | inside q =>
        obtain rfl : q = landing f.here path := Files.resolve_landing leads
        exact h.elsewhere _ other
    | error e =>
      cases leads' : f'.resolve path with
      | error e' => rw [Files.view, Files.view, leads, leads']
      | ok spot =>
        have apart' : ¬own spot.place := by
          rwa [Files.resolve_landing leads', h.here]
        rw [h.symm.resolve leads' apart'] at leads
        cases leads

end SameBut

/-! ## One file -/

section OneFile

variable {f f' : Files} {path name : String} {front : List String} {d p : Place} {bytes : ByteArray}

theorem SameBut.leads {own : Place → Prop} (h : SameBut own f f')
    (leads : Files.LeadsToName f path front (.inside d) name []) :
    Files.LeadsToName f' path front (.inside d) name [] := by
  have apart : ¬own d := by
    intro owned
    have dir := leads.dir d rfl
    rw [h.noDir d owned] at dir
    cases dir
  refine ⟨leads.usable, ?_, leads.blank, leads.solid, leads.down, ?_, ?_⟩
  · rw [h.start]
    exact leads.parts
  · rw [h.start]
    exact h.follow leads.followed apart
  · rintro _ ⟨⟩
    rw [h.hasDir]
    exact leads.dir d rfl

namespace Files.LeadsToName

/-- A path to a name ends in that name. -/
theorem resolveParent (leads : LeadsToName f path front (.inside d) name []) :
    f.resolveParent path = .ok (.inside d, .name name false) := by
  have noBlank : name ≠ "" := by
    rintro rfl
    exact absurd leads.solid (by decide)
  have noDot : name ≠ "." := by
    rintro rfl
    exact absurd leads.solid (by decide)
  have last : (f.start path).2.reverse.dropWhile (· = "") = name :: front.reverse := by
    rw [leads.parts, List.append_nil, List.reverse_append]
    exact List.dropWhile_cons_of_neg (by simpa using noBlank)
  have dot : f.enter (.inside d) "." = .ok (.inside d) := enter_idle (leads.dir d rfl) (by decide)
  have bare : (f.start path).2.getLast? ≠ some "" := by
    rw [leads.parts, List.append_nil, List.getLast?_append]
    simpa using noBlank
  have followed := leads.followed
  rcases starts : f.start path with ⟨spot, segments⟩
  rw [starts] at last bare followed
  simp only [Files.resolveParent, leads.usable, starts, last, List.reverse_reverse, followed, bind,
    Except.bind, dot, if_neg noDot, if_neg leads.down, bare, decide_false]
  rfl

/-- A path to a name that is not there leads nowhere. -/
theorem absent (leads : LeadsToName f path front (.inside d) name [])
    (missing : f.tree.node? (d ++ [name]) = none) : f.pathExists path = false := by
  rw [pathExists]
  cases found : f.resolve path with
  | error e => rfl
  | ok spot =>
    obtain ⟨-, followed⟩ := resolve_eq_ok_iff.1 found
    rw [leads.parts, List.append_nil, follow_append, leads.followed] at followed
    change f.follow (.inside d) [name] = _ at followed
    obtain ⟨next, entered, -⟩ := bind_ok followed
    rw [Files.enter, if_neg (by simp [leads.dir d rfl]), if_neg (by simp [leads.solid]),
      if_neg leads.down, missing] at entered
    split at entered <;> cases entered

end Files.LeadsToName

/-- **Removing a file that is there** by a path to its name fails only if it is refused. -/
theorem unlink_eq (leads : Files.LeadsToName f path front (.inside d) name [])
    (short : name.utf8ByteSize ≤ maxName) (there : f.tree.node? (d ++ [name]) = some (.file bytes)) :
    unlink path f =
      match f.allowed .remove (d ++ [name]) with
      | .ok () => (.ok (), f.setTree (f.tree.remove (d ++ [name])))
      | .error e => (.error e, f) := by
  have place : Files.placeOf (.inside d) name = .ok (d ++ [name]) := if_neg (Nat.not_lt.2 short)
  have looked : (look fun f => f.resolveParent path) f = (.ok (.inside d, .name name false), f) := by
    rw [look, leads.resolveParent]
  rw [unlink, Attempt.bind_apply_ok looked]
  simp only [place, Attempt.bind_apply, Attempt.ofExcept_apply, Attempt.get_apply, there,
    Bool.false_eq_true, if_false, look]
  cases f.allowed .remove (d ++ [name]) <;> rfl

/-- The files with a file written at a place. -/
def Files.written (f : Files) (p : Place) (bytes : ByteArray) : Files :=
  f.setTree (f.tree.put p (.file bytes))

/-- A path leads to a name in a directory, and a file can be written there. -/
structure Files.Writable (f : Files) (path : String) (p : Place) : Prop where
  leads : ∃ front d name, p = d ++ [name] ∧ name.utf8ByteSize ≤ maxName ∧
    Files.LeadsToName f path front (.inside d) name []
  noDir : f.hasDir p = false

namespace Files.Writable

theorem lands (h : f.Writable path p) : p = landing f.here path := by
  obtain ⟨front, d, name, rfl, -, leads⟩ := h.leads
  exact leads.lands

theorem sameBut (h : f.Writable path p) (bytes : ByteArray) :
    SameBut (f.Across p) f (f.written p bytes) :=
  .put h.noDir bytes

/-- It stays writable, whatever is written there. -/
theorem again (h : f.Writable path p) (bytes : ByteArray) : (f.written p bytes).Writable path p := by
  have same := h.sameBut bytes
  obtain ⟨front, d, name, rfl, short, leads⟩ := h.leads
  exact ⟨⟨front, d, name, rfl, short, same.leads leads⟩, same.noDir' _ (.inl rfl)⟩

theorem fits (h : f.Writable path p) (bytes : ByteArray) : f.tree.canPut p (.file bytes) := by
  obtain ⟨front, d, name, rfl, short, leads⟩ := h.leads
  exact leads.canPut short (.inr h.noDir)

theorem node?_written (h : f.Writable path p) (bytes : ByteArray) :
    (f.written p bytes).tree.node? p = some (.file bytes) :=
  Tree.node?_put_self (h.fits bytes)

/-- No other place gets another file. -/
theorem listed?_written {q : Place} (other : q ≠ p) (bytes : ByteArray) :
    (f.written p bytes).tree.listed? q = f.tree.listed? q :=
  (Tree.listed?_put _ _ _ _).trans (if_neg fun both => other both.2)

/-- What is written last stays. -/
theorem written_again (h : f.Writable path p) (bytes bytes' : ByteArray) :
    (f.written p bytes).written p bytes' = f.written p bytes' := by
  have tree : (f.tree.put p (.file bytes)).put p (.file bytes') = f.tree.put p (.file bytes') :=
    Tree.put_put (h.fits _) (h.fits _) ((h.again bytes).fits bytes')
  have dir : (f.written p bytes).hasDir f.here = (f.written p bytes').hasDir f.here := by
    rw [(h.sameBut bytes).hasDir, (h.sameBut bytes').hasDir]
  have attached : (f.attached && (f.written p bytes).hasDir f.here &&
      (f.written p bytes').hasDir f.here) = (f.attached && (f.written p bytes').hasDir f.here) := by
    rw [dir, Bool.and_assoc, Bool.and_self]
  change Files.setTree _ ((f.tree.put p (.file bytes)).put p (.file bytes')) = _
  rw [tree]
  exact congrArg (fun is => ({ f with tree := f.tree.put p (.file bytes'), attached := is } : Files))
    attached

/-- What is written there can be read. -/
theorem bytesAt_written (h : f.Writable path p) (bytes : ByteArray) :
    (f.written p bytes).bytesAt path = .ok bytes := by
  have there := h.node?_written bytes
  obtain ⟨front, d, name, rfl, short, leads⟩ := (h.again bytes).leads
  have found := leads.resolve short (by rw [there]; nofun) (.inl rfl)
  rw [Files.bytesAt, Files.fileAt, found]
  simp only [bind, Except.bind, there, Files.contents]
  rfl

/-- What is written there can be removed unless that is refused, and then the path leads nowhere. -/
theorem unlink_written (h : f.Writable path p) (bytes : ByteArray) :
    (∃ e, (f.written p bytes).allowed .remove p = .error e ∧
      unlink path (f.written p bytes) = (.error e, f.written p bytes)) ∨
    ∃ f', unlink path (f.written p bytes) = (.ok (), f') ∧ SameBut (f.Across p) f f' ∧
      (∀ q, q ≠ p → f'.tree.listed? q = f.tree.listed? q) ∧ f'.pathExists path = false := by
  have there := h.node?_written bytes
  have same := h.sameBut bytes
  have removed : SameBut (f.Across p) (f.written p bytes) _ := .remove same.noDir' there (.inl rfl)
  have listed : ∀ q, q ≠ p → ((f.written p bytes).tree.remove p).listed? q = f.tree.listed? q := by
    intro q other
    rw [Tree.listed?_remove_file there, if_neg other, listed?_written other]
  obtain ⟨front, d, name, rfl, short, leads⟩ := (h.again bytes).leads
  have ends := unlink_eq leads short there
  cases allowed : (f.written (d ++ [name]) bytes).allowed .remove (d ++ [name]) with
  | error e =>
    rw [allowed] at ends
    exact .inl ⟨e, rfl, ends⟩
  | ok _ =>
    rw [allowed] at ends
    refine .inr ⟨_, ends, same.trans removed, listed, (removed.leads leads).absent ?_⟩
    exact (Tree.node?_remove_file there _).trans (if_pos rfl)

end Files.Writable

/-- **Making a file** changes nothing, or it leaves an empty file where one can be written. -/
theorem create_cases (path : String) (f : Files) :
    (∃ e, create path f = (.error e, f)) ∨
      ∃ p, f.Writable path p ∧ create path f = (.ok p, f.written p .empty) := by
  have stays := looks_placeForFile path f
  rcases placed : placeForFile path f with ⟨e | p, g⟩ <;> rw [placed] at stays
  · obtain rfl : g = f := stays
    exact .inl ⟨e, Attempt.bind_apply_error placed _⟩
  · obtain ⟨rfl, front, d, name, leads, same, short, noDir⟩ := Files.placeForFile_ok placed
    rw [create, Attempt.bind_apply_ok placed, Attempt.bind_apply, look]
    cases g.openable p with
    | error e => exact .inl ⟨e, rfl⟩
    | ok _ => exact .inr ⟨p, ⟨⟨front, d, name, same, short, leads⟩, noDir⟩, rfl⟩

/-- What is written behind a file that was written, as far as that goes. -/
theorem append_written (h : f.Writable path p) (bytes piece : ByteArray) :
    append p piece (f.written p bytes) = (.ok (), f.written p (bytes ++ piece)) ∨
      ∃ e kept rest, kept ++ rest = piece ∧
        append p piece (f.written p bytes) = (.error e, f.written p (bytes ++ kept)) := by
  have held : (f.written p bytes).contents p = bytes :=
    Files.contents_of_node? (h.node?_written bytes)
  have puts (more : ByteArray) :
      put p (.file (bytes ++ more)) (f.written p bytes) = (.ok (), f.written p (bytes ++ more)) :=
    congrArg (fun g => (Except.ok (), g)) (h.written_again bytes (bytes ++ more))
  rw [append, Attempt.bind_apply, Attempt.get_apply]
  simp only [held]
  cases (f.written p bytes).rules.cuts (f.written p bytes).tree p piece with
  | none => exact .inl (puts piece)
  | some cut =>
    refine .inr ⟨.refused cut.2, piece.extract 0 cut.1, piece.extract cut.1 piece.size, ?_, ?_⟩
    · rw [ByteArray.extract_append_extract]
      simp
    · simp only [Attempt.bind_apply_ok (puts _)]
      rfl

/-- **Pieces that are written one behind the other** are written as a whole, or a first part of
them is. -/
theorem append_all (h : f.Writable path p) (pieces : List ByteArray) (bytes : ByteArray) :
    Attempt.forEach pieces (append p) (f.written p bytes) =
        (.ok (), f.written p (pieces.foldl (· ++ ·) bytes)) ∨
      ∃ e kept rest, kept ++ rest = pieces.foldl (· ++ ·) bytes ∧
        Attempt.forEach pieces (append p) (f.written p bytes) = (.error e, f.written p kept) := by
  induction pieces generalizing bytes with
  | nil => exact .inl rfl
  | cons piece pieces ih =>
    rw [Attempt.forEach]
    rcases append_written h bytes piece with whole | ⟨e, kept, rest, split, cut⟩
    · rw [Attempt.bind_apply_ok whole]
      exact ih (bytes ++ piece)
    · refine .inr ⟨e, bytes ++ kept, pieces.foldl (· ++ ·) rest, ?_,
        Attempt.bind_apply_error cut _⟩
      have assoc : Std.Associative fun a b : ByteArray => a ++ b :=
        ⟨fun _ _ _ => ByteArray.append_assoc⟩
      rw [List.foldl_cons, ← split, ← ByteArray.append_assoc, List.foldl_assoc]

end OneFile

end Chore.File
