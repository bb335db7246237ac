import Chore.File.Path

/-!
# File trees

A tree of directories and files. A place in it is the list of names that lead there from the root,
and the tree is a list of places with what is there; the root itself is always a directory. Files
have numbers, and their bytes are kept by number: places with one number share a file (`Shares`), so
that what is written at one of them is written at all. The view is `node?`, what is at a place.

Four facts hold of every tree and are part of the type: no place is listed twice, what is listed
stands in a directory, every name can be a name, and the numbers in use are below `next`. A change
that would break them leaves the tree as it is.
-/

set_option autoImplicit false

namespace Chore.File

/-- A place: the names from the root. -/
abbrev Place : Type :=
  List String

/-- The longest name, in bytes. -/
def maxName : Nat := 255

/-- What can be a name in a directory: a path of one segment that leads to a name. -/
structure IsName (name : String) : Prop where
  solid : Path.isIdle name = false
  down : name ≠ ".."
  whole : '/' ∉ name.toList
  noNul : '\x00' ∉ name.toList
  short : name.utf8ByteSize ≤ maxName

theorem isName_iff {name : String} :
    IsName name ↔ Path.isIdle name = false ∧ name ≠ ".." ∧ '/' ∉ name.toList ∧
      '\x00' ∉ name.toList ∧ name.utf8ByteSize ≤ maxName :=
  ⟨fun h => ⟨h.solid, h.down, h.whole, h.noNul, h.short⟩, fun ⟨a, b, c, d, e⟩ => ⟨a, b, c, d, e⟩⟩

instance (name : String) : Decidable (IsName name) :=
  decidable_of_iff _ isName_iff.symm

/-- What can be at a place. -/
inductive Node where
  | dir
  | file (bytes : ByteArray)

instance : DecidableEq Node
  | .dir, .dir => isTrue rfl
  | .dir, .file _ => isFalse nofun
  | .file _, .dir => isFalse nofun
  | .file a, .file b =>
    match ByteArray.instDecidableEq a b with
    | isTrue same => isTrue (congrArg Node.file same)
    | isFalse differ => isFalse fun same => differ (Node.file.inj same)

/-- What is listed for a place: a directory, or a file by its number. -/
inductive Listed where
  | dir
  | file (number : Nat)
  deriving DecidableEq

/-- Whether a place is the root or listed as a directory. -/
def IsDirIn (listing : List (Place × Listed)) (p : Place) : Prop :=
  p = [] ∨ (p, Listed.dir) ∈ listing

/-- A file tree. -/
@[ext]
structure Tree where
  listing : List (Place × Listed)
  bytes : Nat → ByteArray
  next : Nat
  distinct : listing.Pairwise fun a b => a.1 ≠ b.1
  parents : ∀ e ∈ listing, e.1 ≠ [] ∧ IsDirIn listing e.1.dropLast
  named : ∀ e ∈ listing, ∀ name ∈ e.1, IsName name
  numbered : ∀ e ∈ listing, ∀ number, e.2 = .file number → number < next

namespace Tree

/-- The tree with nothing in it. -/
def empty : Tree where
  listing := []
  bytes _ := .empty
  next := 0
  distinct := .nil
  parents := by simp
  named := by simp
  numbered := by simp

/-- What is listed for a place. -/
def listed? (t : Tree) : Place → Option Listed
  | [] => some .dir
  | name :: rest => t.listing.lookup (name :: rest)

/-- What is at a place for which something is listed. -/
def node (t : Tree) : Listed → Node
  | .dir => .dir
  | .file number => .file (t.bytes number)

/-- What is at a place. -/
def node? (t : Tree) (p : Place) : Option Node :=
  (t.listed? p).map t.node

/-- All places with what is there. -/
def entries (t : Tree) : List (Place × Node) :=
  t.listing.map fun e => (e.1, t.node e.2)

/-- Whether one file is at two places. -/
def Shares (t : Tree) (p q : Place) : Prop :=
  ∃ number, t.listed? p = some (.file number) ∧ t.listed? q = some (.file number)

instance (t : Tree) (p q : Place) : Decidable (t.Shares p q) :=
  match here : t.listed? p with
  | some (.file number) =>
    decidable_of_iff (t.listed? q = some (.file number)) (by simp [Shares, here])
  | some .dir => isFalse (by simp [Shares, here])
  | none => isFalse (by simp [Shares, here])

/-- In a list without repeated keys, looking up finds exactly the members. -/
theorem lookup_eq_some_iff {α : Type} {listing : List (Place × α)} {p : Place} {a : α}
    (distinct : listing.Pairwise fun a b => a.1 ≠ b.1) :
    listing.lookup p = some a ↔ (p, a) ∈ listing := by
  induction listing with
  | nil => simp
  | cons e rest ih =>
    obtain ⟨q, b⟩ := e
    have ⟨apart, distinct⟩ := List.pairwise_cons.1 distinct
    by_cases h : p = q
    · subst h
      have absent : (p, a) ∉ rest := fun member => apart _ member rfl
      simp [absent, eq_comm]
    · have differ : (p == q) = false := by simpa using h
      simp [List.lookup_cons, differ, ih distinct, h]

theorem listed?_eq_some_iff {t : Tree} {p : Place} {l : Listed} (h : p ≠ []) :
    t.listed? p = some l ↔ (p, l) ∈ t.listing := by
  cases p with
  | nil => exact absurd rfl h
  | cons name rest => exact lookup_eq_some_iff t.distinct

theorem node?_eq_some_iff {t : Tree} {p : Place} {n : Node} (h : p ≠ []) :
    t.node? p = some n ↔ (p, n) ∈ t.entries := by
  rw [node?, Option.map_eq_some_iff, entries, List.mem_map]
  constructor
  · rintro ⟨l, found, rfl⟩
    exact ⟨(p, l), (listed?_eq_some_iff h).1 found, rfl⟩
  · rintro ⟨⟨q, l⟩, member, same⟩
    cases same
    exact ⟨l, (listed?_eq_some_iff h).2 member, rfl⟩

theorem node_eq_dir_iff {t : Tree} {l : Listed} : t.node l = .dir ↔ l = .dir := by
  cases l <;> simp [node]

theorem node?_eq_dir_iff {t : Tree} {p : Place} : t.node? p = some .dir ↔ t.listed? p = some .dir := by
  rw [node?, Option.map_eq_some_iff]
  constructor
  · rintro ⟨l, found, isDir⟩
    rwa [node_eq_dir_iff.1 isDir] at found
  · exact fun found => ⟨_, found, rfl⟩

theorem node?_eq_none_iff {t : Tree} {p : Place} : t.node? p = none ↔ t.listed? p = none :=
  Option.map_eq_none_iff

theorem isDirIn_iff {t : Tree} {p : Place} : IsDirIn t.listing p ↔ t.node? p = some .dir := by
  rw [node?_eq_dir_iff]
  cases p with
  | nil => simp [IsDirIn, listed?]
  | cons name rest => simp [IsDirIn, listed?, lookup_eq_some_iff t.distinct]

theorem dropLast_ne {p : Place} (h : p ≠ []) : p.dropLast ≠ p := by
  intro same
  have := congrArg List.length same
  have := List.length_pos_iff.2 h
  simp only [List.length_dropLast] at *
  omega

/-- Whether a node may be put at a place: under a name, in a directory, and no file where there is a
directory. -/
def canPut (t : Tree) (p : Place) (n : Node) : Prop :=
  p ≠ [] ∧ t.node? p.dropLast = some .dir ∧ (n = .dir ∨ t.node? p ≠ some .dir) ∧
    ∀ name ∈ p, IsName name

instance (t : Tree) (p : Place) (n : Node) : Decidable (t.canPut p n) :=
  inferInstanceAs (Decidable (_ ∧ _))

/-- The number a file has, or is to have, at a place: the one that is listed, or the next one. -/
def numberAt (t : Tree) (p : Place) : Nat :=
  match t.listed? p with
  | some (.file number) => number
  | _ => t.next

/-- What is to be listed for a node at a place. -/
def listingOf (t : Tree) (p : Place) : Node → Listed
  | .dir => .dir
  | .file _ => .file (t.numberAt p)

theorem distinct_put (t : Tree) (p : Place) (l : Listed) :
    ((p, l) :: t.listing.filter fun e => e.1 ≠ p).Pairwise fun a b => a.1 ≠ b.1 := by
  refine List.pairwise_cons.2 ⟨fun e member => ?_, t.distinct.filter _⟩
  have differ : e.1 ≠ p := by simpa using (List.mem_filter.1 member).2
  exact differ.symm

theorem parents_put {t : Tree} {p : Place} {n : Node} {l : Listed} (h : t.canPut p n)
    (kind : n = .dir → l = .dir) :
    ∀ e ∈ (p, l) :: t.listing.filter (fun e => e.1 ≠ p),
      e.1 ≠ [] ∧ IsDirIn ((p, l) :: t.listing.filter fun e => e.1 ≠ p) e.1.dropLast := by
  obtain ⟨proper, inside, fits, -⟩ := h
  intro e member
  rcases List.mem_cons.1 member with rfl | member
  · refine ⟨proper, (isDirIn_iff.2 inside).imp_right fun dir => ?_⟩
    refine List.mem_cons_of_mem _ (List.mem_filter.2 ⟨dir, ?_⟩)
    simpa using dropLast_ne proper
  · have ⟨proper', dir⟩ := t.parents e (List.mem_filter.1 member).1
    refine ⟨proper', ?_⟩
    by_cases same : e.1.dropLast = p
    · have there : t.node? p = some .dir := isDirIn_iff.1 (same ▸ dir)
      have isDir : l = .dir := kind (fits.resolve_right fun no => no there)
      exact .inr (by simp [same, isDir])
    · refine dir.imp_right fun dir => List.mem_cons_of_mem _ (List.mem_filter.2 ⟨dir, ?_⟩)
      simpa using same

theorem named_put {t : Tree} {p : Place} {n : Node} {l : Listed} (h : t.canPut p n) :
    ∀ e ∈ (p, l) :: t.listing.filter (fun e => e.1 ≠ p), ∀ name ∈ e.1, IsName name := by
  refine List.forall_mem_cons.2 ⟨h.2.2.2, fun e member => ?_⟩
  exact t.named e (List.mem_filter.1 member).1

theorem numbered_put {t : Tree} {p : Place} {l : Listed} {bound : Nat} (above : t.next ≤ bound)
    (h : ∀ number, l = .file number → number < bound) :
    ∀ e ∈ (p, l) :: t.listing.filter (fun e => e.1 ≠ p), ∀ number,
      e.2 = .file number → number < bound := by
  refine List.forall_mem_cons.2 ⟨h, fun e member number same => ?_⟩
  exact Nat.lt_of_lt_of_le (t.numbered e (List.mem_filter.1 member).1 number same) above

/-- The bytes of files once a node is put at a place. -/
def bytesWith (t : Tree) (p : Place) : Node → Nat → ByteArray
  | .dir => t.bytes
  | .file bytes => fun number => if number = t.numberAt p then bytes else t.bytes number

/-- Puts a node at a place, whatever was there. A file that was there stays the same file, with
other bytes. -/
def put (t : Tree) (p : Place) (n : Node) : Tree :=
  if h : t.canPut p n then
    { listing := (p, t.listingOf p n) :: t.listing.filter fun e => e.1 ≠ p
      bytes := t.bytesWith p n
      next := max t.next (t.numberAt p + 1)
      distinct := t.distinct_put p _
      parents := parents_put h (by rintro rfl; rfl)
      named := named_put h
      numbered := by
        refine numbered_put (Nat.le_max_left _ _) fun number same => ?_
        cases n with
        | dir => cases same
        | file bytes =>
          cases same
          exact Nat.lt_of_lt_of_le (Nat.lt_succ_self _) (Nat.le_max_right _ _) }
  else t

/-- Lists a file for another place as well, whatever file was there. -/
def link (t : Tree) (p q : Place) : Tree :=
  if h : t.canPut q (.file .empty) ∧ t.Shares p p then
    { t with
      listing := (q, .file (t.numberAt p)) :: t.listing.filter fun e => e.1 ≠ q
      distinct := t.distinct_put q _
      parents := parents_put h.1 (by intro isDir; cases isDir)
      named := named_put h.1
      numbered := by
        refine numbered_put (Nat.le_refl _) ?_
        rintro number ⟨⟩
        obtain ⟨number, there, -⟩ := h.2
        have proper : p ≠ [] := by
          rintro rfl
          cases there
        have same : t.numberAt p = number := by simp [numberAt, there]
        rw [same]
        exact t.numbered _ ((listed?_eq_some_iff proper).1 there) number rfl }
  else t

/-- Puts directories on the whole way to a place. -/
def putWay (t : Tree) (p : Place) : Tree :=
  (List.range p.length).foldl (fun t n => t.put (p.take (n + 1)) .dir) t

/-- Puts nodes at places, in order. -/
def putAll (t : Tree) (entries : List (Place × Node)) : Tree :=
  entries.foldl (fun t e => t.put e.1 e.2) t

/-- Keeps the places of a set that holds, with a place, the directory it stands in. -/
def keep (t : Tree) (kept : Place → Bool) (upward : ∀ p, p ≠ [] → kept p → kept p.dropLast) :
    Tree where
  listing := t.listing.filter fun e => kept e.1
  bytes := t.bytes
  next := t.next
  distinct := t.distinct.filter _
  parents := by
    intro e member
    have ⟨listed, stays⟩ := List.mem_filter.1 member
    have ⟨proper, dir⟩ := t.parents e listed
    refine ⟨proper, dir.imp_right fun dir => List.mem_filter.2 ⟨dir, ?_⟩⟩
    exact upward e.1 proper stays
  named e member := t.named e (List.mem_filter.1 member).1
  numbered e member := t.numbered e (List.mem_filter.1 member).1

/-- Whether a place is below another. -/
def isBelow (p q : Place) : Bool :=
  p.isPrefixOf q && q ≠ p

theorem isPrefixOf_of_dropLast {p q : Place} (h : p.isPrefixOf q.dropLast) : p.isPrefixOf q := by
  rw [List.isPrefixOf_iff_prefix] at *
  exact h.trans (List.dropLast_prefix q)

theorem isBelow_of_dropLast {p q : Place} (proper : q ≠ []) (h : p.isPrefixOf q.dropLast) :
    isBelow p q := by
  simp only [isBelow, isPrefixOf_of_dropLast h, Bool.true_and, decide_eq_true_eq]
  rintro rfl
  have := (List.isPrefixOf_iff_prefix.1 h).length_le
  have := List.length_pos_iff.2 proper
  simp only [List.length_dropLast] at *
  omega

/-- Removes what is below a place. -/
def clear (t : Tree) (p : Place) : Tree :=
  t.keep (fun q => !isBelow p q) fun q proper stays => by
    cases h : isBelow p q.dropLast with
    | false => rfl
    | true =>
      have : isBelow p q := isBelow_of_dropLast proper (Bool.and_eq_true_iff.1 h).1
      simp [this] at stays

/-- Removes a place and what is below it. -/
def remove (t : Tree) (p : Place) : Tree :=
  t.keep (fun q => !p.isPrefixOf q) fun q _ stays => by
    cases h : p.isPrefixOf q.dropLast with
    | false => rfl
    | true => simp [isPrefixOf_of_dropLast h] at stays

/-- Whether a place may be moved to another: under a name, into a directory, and not into itself. -/
def canMove (t : Tree) (p q : Place) : Prop :=
  q ≠ [] ∧ t.node? q.dropLast = some .dir ∧ p.isPrefixOf q = false ∧ ∀ name ∈ q, IsName name

instance (t : Tree) (p q : Place) : Decidable (t.canMove p q) :=
  inferInstanceAs (Decidable (_ ∧ _))

/-- Where a place is after `p` was moved to `q`. -/
def placeAfterMove (p q place : Place) : Place :=
  if p.isPrefixOf place then q ++ place.drop p.length else place

/-- What was at a place or below it, where it is after a move. -/
def moved (t : Tree) (p q : Place) : List (Place × Listed) :=
  (t.listing.filter fun e => p.isPrefixOf e.1).map fun e => (placeAfterMove p q e.1, e.2)

theorem placeAfterMove_append (p q rest : Place) : placeAfterMove p q (p ++ rest) = q ++ rest := by
  have : p.isPrefixOf (p ++ rest) := List.isPrefixOf_iff_prefix.2 (List.prefix_append p rest)
  simp [placeAfterMove, this]

theorem mem_moved_iff {t : Tree} {p q place : Place} {l : Listed} :
    (place, l) ∈ t.moved p q ↔ ∃ rest, place = q ++ rest ∧ (p ++ rest, l) ∈ t.listing := by
  simp only [moved, List.mem_map, List.mem_filter, Prod.mk.injEq]
  constructor
  · rintro ⟨⟨old, k⟩, ⟨listed, below⟩, rfl, rfl⟩
    obtain ⟨rest, rfl⟩ := List.isPrefixOf_iff_prefix.1 below
    exact ⟨rest, placeAfterMove_append p q rest, listed⟩
  · rintro ⟨rest, rfl, listed⟩
    refine ⟨(p ++ rest, l), ⟨listed, ?_⟩, placeAfterMove_append p q rest, rfl⟩
    exact List.isPrefixOf_iff_prefix.2 (List.prefix_append p rest)

theorem mem_remove_iff {t : Tree} {p : Place} {e : Place × Listed} :
    e ∈ (t.remove p).listing ↔ e ∈ t.listing ∧ p.isPrefixOf e.1 = false := by
  simp [remove, keep]

theorem distinct_move (t : Tree) (p q : Place) :
    (t.moved p q ++ ((t.remove p).remove q).listing).Pairwise fun a b => a.1 ≠ b.1 := by
  refine List.pairwise_append.2 ⟨?_, ((t.remove p).remove q).distinct, ?_⟩
  · refine List.pairwise_map.2 ((t.distinct.filter _).imp_of_mem ?_)
    intro a b hasA hasB differ same
    obtain ⟨rest, here⟩ := List.isPrefixOf_iff_prefix.1 (List.mem_filter.1 hasA).2
    obtain ⟨rest', there⟩ := List.isPrefixOf_iff_prefix.1 (List.mem_filter.1 hasB).2
    simp only [← here, ← there, placeAfterMove_append, List.append_cancel_left_eq] at differ same
    exact differ (congrArg _ same)
  · intro a hasA b hasB same
    obtain ⟨rest, here, _⟩ := mem_moved_iff.1 hasA
    have apart := (mem_remove_iff.1 hasB).2
    have : q.isPrefixOf b.1 := List.isPrefixOf_iff_prefix.2 ⟨rest, by rw [← same, here]⟩
    simp [this] at apart

theorem parents_move {t : Tree} {p q : Place} (h : t.canMove p q) :
    ∀ e ∈ t.moved p q ++ ((t.remove p).remove q).listing,
      e.1 ≠ [] ∧ IsDirIn (t.moved p q ++ ((t.remove p).remove q).listing) e.1.dropLast := by
  obtain ⟨proper, inside, apart, -⟩ := h
  intro e member
  rcases List.mem_append.1 member with member | member
  · obtain ⟨rest, here, listed⟩ := mem_moved_iff.1 member
    rw [here]
    refine ⟨by simp [proper], ?_⟩
    cases rest with
    | nil =>
      simp only [List.append_nil]
      refine (isDirIn_iff.2 inside).imp_right fun dir => List.mem_append_right _ ?_
      refine mem_remove_iff.2 ⟨mem_remove_iff.2 ⟨dir, ?_⟩, ?_⟩
      · cases below : p.isPrefixOf q.dropLast with
        | false => rfl
        | true => simp [isPrefixOf_of_dropLast below] at apart
      · cases below : q.isPrefixOf q.dropLast with
        | false => rfl
        | true =>
          have := isBelow_of_dropLast proper below
          simp [isBelow] at this
    | cons name rest =>
      have ⟨_, dir⟩ := t.parents _ listed
      rw [List.dropLast_append_of_ne_nil (by simp)] at dir ⊢
      rcases dir with root | dir
      · obtain ⟨rfl, _⟩ := List.append_eq_nil_iff.1 root
        simp [List.isPrefixOf] at apart
      · exact .inr (List.mem_append_left _ (mem_moved_iff.2 ⟨_, rfl, dir⟩))
  · have kept := ((t.remove p).remove q).parents e member
    exact ⟨kept.1, kept.2.imp_right (List.mem_append_right _)⟩

theorem named_move {t : Tree} {p q : Place} (h : t.canMove p q) :
    ∀ e ∈ t.moved p q ++ ((t.remove p).remove q).listing, ∀ name ∈ e.1, IsName name := by
  intro e member name inside
  rcases List.mem_append.1 member with member | member
  · obtain ⟨rest, here, listed⟩ := mem_moved_iff.1 member
    rw [here] at inside
    rcases List.mem_append.1 inside with inside | inside
    · exact h.2.2.2 name inside
    · exact t.named _ listed name (List.mem_append_right _ inside)
  · exact ((t.remove p).remove q).named e member name inside

theorem numbered_move (t : Tree) (p q : Place) :
    ∀ e ∈ t.moved p q ++ ((t.remove p).remove q).listing, ∀ number,
      e.2 = .file number → number < t.next := by
  intro e member number same
  rcases List.mem_append.1 member with member | member
  · obtain ⟨rest, here, listed⟩ := mem_moved_iff.1 member
    exact t.numbered _ listed number same
  · exact ((t.remove p).remove q).numbered e member number same

/-- Moves a place and what is below it; what was at the new place is gone. -/
def move (t : Tree) (p q : Place) : Tree :=
  if h : t.canMove p q then
    { listing := t.moved p q ++ ((t.remove p).remove q).listing
      bytes := t.bytes
      next := t.next
      distinct := t.distinct_move p q
      parents := parents_move h
      named := named_move h
      numbered := t.numbered_move p q }
  else t

/-- The name of a place right below another. -/
def childName? (p q : Place) : Option String :=
  match q.getLast? with
  | some name => if q.dropLast = p then some name else none
  | none => none

/-- The names and nodes right below a place, by name. -/
def children (t : Tree) (p : Place) : List (String × Node) :=
  let found := t.entries.filterMap fun e => (childName? p e.1).map fun name => (name, e.2)
  found.mergeSort fun a b => a.1 ≤ b.1

/-- Everything below a place, by its path from there. -/
def below (t : Tree) (p : Place) : List (Place × Node) :=
  t.entries.filterMap fun e => if isBelow p e.1 then some (e.1.drop p.length, e.2) else none

end Tree

end Chore.File
