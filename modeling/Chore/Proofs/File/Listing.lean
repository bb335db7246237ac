import Chore.File.Files
import Chore.Proofs.Text.ByteOrder

/-!
# What is in a directory

`Holds` says what a directory has under a name, by the path that leads to the directory. Reading a
directory gives exactly that, each name once (`childrenAt_ok`), in whatever order it is read; the
sorted names of the directories, or of everything else, are in the order of their bytes
(`namesAt_ok`).
-/

set_option autoImplicit false

namespace Chore.File

namespace Tree

theorem childName?_eq_some_iff {p q : Place} {name : String} :
    childName? p q = some name ↔ q = p ++ [name] := by
  rcases List.eq_nil_or_concat q with rfl | ⟨front, last, rfl⟩
  · simp [childName?]
  · rw [List.concat_eq_append]
    constructor
    · intro h
      simp only [childName?, List.getLast?_concat, List.dropLast_concat] at h
      split at h
      next same =>
        cases h
        rw [same]
      next => cases h
    · intro h
      obtain ⟨rfl, same⟩ := List.append_inj' h rfl
      obtain rfl := List.singleton_inj.1 same
      simp [childName?]

theorem mem_children {t : Tree} {p : Place} {name : String} {n : Node} :
    (name, n) ∈ t.children p ↔ t.node? (p ++ [name]) = some n := by
  rw [children, List.mem_mergeSort, List.mem_filterMap, node?_eq_some_iff (by simp)]
  constructor
  · rintro ⟨⟨q, m⟩, listed, found⟩
    obtain ⟨name', child, same⟩ := Option.map_eq_some_iff.1 found
    cases same
    rwa [← childName?_eq_some_iff.1 child]
  · intro listed
    refine ⟨_, listed, ?_⟩
    rw [childName?_eq_some_iff.2 rfl]
    rfl

theorem nodup_children (t : Tree) (p : Place) : ((t.children p).map (·.1)).Nodup := by
  apply (((List.mergeSort_perm _ _).map _).nodup_iff).2
  apply List.pairwise_map.2
  apply List.pairwise_filterMap.2
  have distinct : t.entries.Pairwise fun a b => a.1 ≠ b.1 := List.pairwise_map.2 t.distinct
  refine distinct.imp ?_
  rintro ⟨q, m⟩ ⟨q', m'⟩ differ e found e' found' same
  obtain ⟨name, child, rfl⟩ := Option.map_eq_some_iff.1 found
  obtain ⟨name', child', rfl⟩ := Option.map_eq_some_iff.1 found'
  apply differ
  rw [childName?_eq_some_iff.1 child, childName?_eq_some_iff.1 child']
  exact congrArg (fun name => p ++ [name]) same

/-- What stands somewhere stands in a directory, under a name. -/
theorem dir_above {t : Tree} {p : Place} {name : String} {n : Node}
    (h : t.node? (p ++ [name]) = some n) : t.node? p = some .dir ∧ IsName name := by
  obtain ⟨l, found, -⟩ := Option.map_eq_some_iff.1 h
  have listed := (listed?_eq_some_iff (by simp)).1 found
  have inside := (t.parents _ listed).2
  rw [List.dropLast_concat] at inside
  exact ⟨isDirIn_iff.1 inside, t.named _ listed name (by simp)⟩

end Tree

namespace Files

/-- A path leads to a directory that has something under a name. -/
def Holds (f : Files) (dir name : String) (n : Node) : Prop :=
  ∃ p, f.resolve dir = .ok (.inside p) ∧ f.tree.node? (p ++ [name]) = some n

theorem Holds.unique {f : Files} {dir name : String} {n m : Node} (h : f.Holds dir name n)
    (g : f.Holds dir name m) : n = m := by
  obtain ⟨p, leads, there⟩ := h
  obtain ⟨q, leads', there'⟩ := g
  cases leads.symm.trans leads'
  exact Option.some.inj (there.symm.trans there')

/-- **Reading a directory** gives everything in it once. -/
theorem childrenAt_ok {f : Files} {dir : String} (h : f.isDir dir = true) :
    ∃ children, f.childrenAt dir = .ok children ∧ (children.map (·.1)).Nodup ∧
      ∀ name n, (name, n) ∈ children ↔ f.Holds dir name n := by
  rw [isDir] at h
  rw [childrenAt]
  cases leads : f.resolve dir with
  | error e =>
    rw [leads] at h
    cases h
  | ok spot =>
    rw [leads] at h
    cases spot with
    | adrift p =>
      refine ⟨[], rfl, List.nodup_nil, fun name n => ⟨nofun, ?_⟩⟩
      rintro ⟨q, leads', -⟩
      rw [leads] at leads'
      cases leads'
    | inside p =>
      have isDir : f.hasDir p = true := h
      have order := f.order.perm p (f.tree.children p)
      refine ⟨f.order.arrange p (f.tree.children p), ?_, ?_, fun name n => ?_⟩
      · exact if_pos isDir
      · exact (order.map _).nodup_iff.2 (f.tree.nodup_children p)
      · rw [order.mem_iff, Tree.mem_children]
        constructor
        · intro there
          exact ⟨p, leads, there⟩
        · rintro ⟨q, leads', there⟩
          cases leads.symm.trans leads'
          exact there

theorem childrenAt_error {f : Files} {dir : String} (h : f.isDir dir = false) :
    ∃ e, f.childrenAt dir = .error e := by
  rw [isDir] at h
  rw [childrenAt]
  cases leads : f.resolve dir with
  | error e => exact ⟨e, rfl⟩
  | ok spot =>
    rw [leads] at h
    cases spot with
    | adrift p => cases h
    | inside p => exact ⟨.notDirectory, if_neg (by simp_all)⟩

/-- What was read from a directory is in it, and under names. -/
theorem of_childrenAt {f : Files} {dir : String} {children : List (String × Node)}
    (read : f.childrenAt dir = .ok children) :
    (children.map (·.1)).Nodup ∧ ∀ name n, (name, n) ∈ children ↔ f.Holds dir name n := by
  cases isDir : f.isDir dir with
  | false =>
    obtain ⟨e, fails⟩ := childrenAt_error isDir
    cases fails.symm.trans read
  | true =>
    obtain ⟨others, read', nodup, holds⟩ := childrenAt_ok isDir
    cases read'.symm.trans read
    exact ⟨nodup, holds⟩

theorem Holds.isName {f : Files} {dir name : String} {n : Node} (h : f.Holds dir name n) :
    IsName name := by
  obtain ⟨p, -, there⟩ := h
  exact (Tree.dir_above there).2

/-- The names in a directory, sorted: those of directories, or all others. -/
theorem namesAt_eq (f : Files) (dirs : Bool) (dir : String) :
    f.namesAt dirs dir = (f.childrenAt dir).map fun children =>
      ((children.filter fun e => decide (e.2 = .dir) == dirs).map (·.1)).mergeSort := by
  rw [namesAt]
  cases f.childrenAt dir <;> rfl

/-- Different texts that are sorted are in strictly increasing order of their bytes. -/
theorem increasing_mergeSort {names : List String} (h : names.Nodup) :
    names.mergeSort.Pairwise fun a b => Text.bytes a < Text.bytes b := by
  have sorted : names.mergeSort.Pairwise fun a b => decide (a ≤ b) = true :=
    List.pairwise_mergeSort (fun a b c => by simpa using String.le_trans)
      (fun a b => by simpa using String.le_total a b) names
  have distinct : names.mergeSort.Nodup := (List.mergeSort_perm names _).nodup_iff.2 h
  refine (sorted.and distinct).imp ?_
  rintro a b ⟨before, differ⟩
  exact Text.bytes_lt_iff.2 (Text.text_lt_of_le (by simpa using before) differ)

/-- **The sorted names** of the directories in a directory, or of everything else in it. -/
theorem namesAt_ok {f : Files} {dir : String} (h : f.isDir dir = true) (dirs : Bool) :
    ∃ names, f.namesAt dirs dir = .ok names ∧
      (names.Pairwise fun a b => Text.bytes a < Text.bytes b) ∧
      ∀ name, name ∈ names ↔ ∃ n, f.Holds dir name n ∧ (n = .dir ↔ dirs = true) := by
  obtain ⟨children, read, nodup, holds⟩ := childrenAt_ok h
  refine ⟨_, by rw [namesAt_eq, read]; rfl, increasing_mergeSort ?_, fun name => ?_⟩
  · exact nodup.sublist (List.filter_sublist.map _)
  · rw [List.mem_mergeSort, List.mem_map]
    constructor
    · rintro ⟨⟨name, n⟩, kept, rfl⟩
      obtain ⟨listed, kind⟩ := List.mem_filter.1 kept
      refine ⟨n, (holds name n).1 listed, ?_⟩
      by_cases isDir : n = .dir <;> simpa [isDir] using kind
    · rintro ⟨n, there, kind⟩
      refine ⟨(name, n), List.mem_filter.2 ⟨(holds name n).2 there, ?_⟩, rfl⟩
      by_cases isDir : n = .dir <;> simpa [isDir] using kind

theorem namesAt_error {f : Files} {dir : String} (h : f.isDir dir = false) (dirs : Bool) :
    ∃ e, f.namesAt dirs dir = .error e := by
  obtain ⟨e, fails⟩ := childrenAt_error h
  exact ⟨e, by rw [namesAt_eq, fails]; rfl⟩

end Files

end Chore.File
