import Mathlib.Data.Set.Card
import Chore.Proofs.File.Listing
import Chore.Proofs.Machine.ToolWords

/-!
# The words that list directories

Counting the entries of a directory and asking for one by its index are separate words, and each of
them reads the directory anew. They agree because what is read is sorted: the answer to a listing
depends on the directory only (`answers_listFiles`), each word is a function of that answer
(`pushes_count`, `pushes_fileAt`, `pushes_dirAt`, `stops_dirAt`), and an index is answered exactly
where there is a name (`entryAt_ok`, `entryAt_error`).
-/

set_option autoImplicit false

namespace Chore.Machine

open File (Files)

section Words

variable {c : Setup (World Files)} {w : Tool} {f : Files} {operands : List Value} {dir : String}
  {i : Int64}

/-! ## The words as functions of a listing -/

/-- A question for the names in a directory is answered, and the world stays as it is. -/
def Answers (asks : String → Action (World Files) (Except ToolError (List String))) (f : Files)
    (dir : String) (reply : Except ToolError (List String)) : Prop :=
  ∀ st : Store (World Files), st.world.tools = f → Yields (asks dir) st (.ok reply) st

variable {asks : String → Action (World Files) (Except ToolError (List String))}
  {reply : Except ToolError (List String)}

/-- Counting pushes how many names there are, none if the directory cannot be listed. -/
theorem pushes_count (answers : Answers asks f dir reply)
    (counts : tool c w = do
      let dir ← popPath (.tool w)
      let names ← succeeded w (← asks dir)
      push c (.int (Int64.ofNat (names.getD []).length))) :
    Pushes c w [.path dir] f (.int (Int64.ofNat (reply.toOption.getD []).length)) := by
  apply pushes_of_yields
  intro st rest stack room files
  rw [counts]
  apply yields_bind (yields_popPath stack)
  apply yields_bind (answers { st with stack := .ofList rest } files)
  apply yields_bind (yields_succeeded w reply _)
  exact yields_push room _

/-- A word that asks for a name by its index takes two operands and then reads the directory. -/
theorem yields_asked {α : Type} {st st' : Store (World Files)} {rest : List Value} {op : Word}
    {r : Except Fault α}
    (next : Int64 → String → Except ToolError (List String) → Action (World Files) α)
    (answers : Answers asks f dir reply) (stack : st.stack.toList = .path dir :: .int i :: rest)
    (files : st.world.tools = f)
    (goesOn : Yields (next i dir reply) { st with stack := .ofList rest } r st') :
    Yields
      (do
        let dir ← popPath op
        let index ← popInt op
        let names ← asks dir
        next index dir names) st r st' := by
  apply yields_bind (yields_popPath stack)
  apply yields_bind (yields_popInt rfl)
  exact yields_bind (answers _ files) goesOn

/-- What asking for a file does with the names it gets: pushes one, or the empty text. -/
def giveFile (c : Setup (World Files)) (i : Int64) (dir : String)
    (names : Except ToolError (List String)) : Action (World Files) Unit := do
  let name ← succeeded .fileAt (names.bind fun names => entryAt names i dir)
  push c (.text (name.getD ""))

/-- What asking for a directory does with the names it gets: pushes one, or fails. -/
def giveDir (c : Setup (World Files)) (i : Int64) (dir : String)
    (names : Except ToolError (List String)) : Action (World Files) Unit :=
  match names.bind fun names => entryAt names i dir with
  | .ok name => push c (.text name)
  | .error e => .fail (.toolFailed e.message)

/-- Asking for a file pushes its name, and the empty text if there is none. -/
theorem pushes_fileAt {found : Except ToolError String}
    (answers : Answers (fun dir => ask c (.listFiles dir)) f dir reply)
    (entry : (reply.bind fun names => entryAt names i dir) = found) :
    Pushes c .fileAt [.path dir, .int i] f (.text (found.toOption.getD "")) := by
  apply pushes_of_yields
  intro st rest stack room files
  apply yields_asked (giveFile c) answers stack files
  rw [giveFile, entry]
  exact yields_bind (yields_succeeded _ _ _) (yields_push room _)

/-- Asking for a directory pushes its name. -/
theorem pushes_dirAt {name : String}
    (answers : Answers (fun dir => ask c (.listDirs dir)) f dir reply)
    (found : (reply.bind fun names => entryAt names i dir) = .ok name) :
    Pushes c .dirAt [.path dir, .int i] f (.text name) := by
  apply pushes_of_yields
  intro st rest stack room files
  apply yields_asked (giveDir c) answers stack files
  rw [giveDir, found]
  exact yields_push room _

/-- Asking for a directory that is not there stops the program. -/
theorem stops_dirAt {e : ToolError}
    (answers : Answers (fun dir => ask c (.listDirs dir)) f dir reply)
    (missing : (reply.bind fun names => entryAt names i dir) = .error e) :
    Stops c .dirAt [.path dir, .int i] f (.toolFailed e.message) := by
  apply stops_of_yields
  intro st rest stack files
  refine ⟨{ st with stack := .ofList rest }, ?_⟩
  apply yields_asked (giveDir c) answers stack files
  rw [giveDir, missing]
  exact yields_fail _ _

/-! ## Names by their index -/

theorem entryAt_ok {names : List String} {k : Nat} {name : String} (index : i.toInt = k)
    (there : names[k]? = some name) (dir : String) : entryAt names i dir = .ok name := by
  have nonneg : 0 ≤ i.toInt := by omega
  have same : i.toInt.toNat = k := by omega
  rw [entryAt, if_pos nonneg, same, there]

theorem entryAt_error {names : List String} (outside : ¬(0 ≤ i.toInt ∧ i.toInt < names.length))
    (dir : String) : entryAt names i dir = .error (.noEntry i dir names.length) := by
  rw [entryAt]
  by_cases nonneg : 0 ≤ i.toInt
  · have short : names.length ≤ i.toInt.toNat := by omega
    rw [if_pos nonneg, List.getElem?_eq_none short]
  · rw [if_neg nonneg]

end Words

/-! ## Listing words on files -/

section OnFiles

variable {c : Setup (World Files)} {network : Network} (host : c.host = (Files.tools network).host)
include host

theorem answers_listFiles (f : Files) (dir : String) :
    Answers (fun dir => ask c (.listFiles dir)) f dir
      ((f.namesAt false dir).mapError fun e => .io e.message) := by
  rintro st rfl events
  refine ⟨events, ?_⟩
  unfold ask
  rw [host]
  rfl

theorem answers_listDirs (f : Files) (dir : String) :
    Answers (fun dir => ask c (.listDirs dir)) f dir
      ((f.namesAt true dir).mapError fun e => .io e.message) := by
  rintro st rfl events
  refine ⟨events, ?_⟩
  unfold ask
  rw [host]
  rfl

end OnFiles

/-- Names in the order of their bytes, each once, are those with a property. -/
structure Enumerates (names : List String) (named : String → Prop) : Prop where
  increasing : names.Pairwise fun a b => Text.bytes a < Text.bytes b
  complete : ∀ name, name ∈ names ↔ named name

theorem Enumerates.nodup {names : List String} {named : String → Prop} (h : Enumerates names named) :
    names.Nodup := by
  apply h.increasing.imp
  rintro a b less rfl
  exact List.lt_irrefl _ less

/-- There is one way to enumerate names. -/
theorem Enumerates.unique {names others : List String} {named : String → Prop}
    (h : Enumerates names named) (g : Enumerates others named) : names = others := by
  have perm : names.Perm others :=
    (List.perm_ext_iff_of_nodup h.nodup g.nodup).2 fun name =>
      (h.complete name).trans (g.complete name).symm
  refine perm.eq_of_pairwise ?_ h.increasing g.increasing
  intro a b _ _ less more
  exact absurd less (List.lt_asymm more)

/-- The names of everything in the directory a path leads to. -/
def entries (f : Files) (dir : String) : Set String :=
  { name | ∃ n, f.Holds dir name n }

/-- The files and the directories in a directory are together all its entries. -/
theorem length_add_length {f : Files} {dir : String} {files dirs : List String}
    (isFiles : Enumerates files fun name => ∃ n, f.Holds dir name n ∧ n ≠ .dir)
    (isDirs : Enumerates dirs fun name => f.Holds dir name .dir) :
    files.length + dirs.length = (entries f dir).ncard := by
  have apart : files.Disjoint dirs := by
    intro name isFile isDir
    obtain ⟨n, there, noDir⟩ := (isFiles.complete name).1 isFile
    exact noDir (there.unique ((isDirs.complete name).1 isDir))
  have all : entries f dir = ((files ++ dirs).toFinset : Set String) := by
    ext name
    simp only [entries, Set.mem_ofPred_eq, List.coe_toFinset, List.mem_append, isFiles.complete,
      isDirs.complete]
    constructor
    · rintro ⟨n, there⟩
      by_cases isDir : n = .dir
      · exact .inr (isDir ▸ there)
      · exact .inl ⟨n, there, isDir⟩
    · rintro (⟨n, there, -⟩ | there)
      · exact ⟨n, there⟩
      · exact ⟨.dir, there⟩
  rw [all, Set.ncard_coe_finset,
    List.toFinset_card_of_nodup (isFiles.nodup.append isDirs.nodup apart), List.length_append]

/-- What the names read from a directory enumerate. -/
theorem exists_enumerated {f : Files} {dir : String} (h : f.isDir dir = true) :
    ∃ files dirs, f.namesAt false dir = .ok files ∧ f.namesAt true dir = .ok dirs ∧
      (Enumerates files fun name => ∃ n, f.Holds dir name n ∧ n ≠ .dir) ∧
      Enumerates dirs fun name => f.Holds dir name .dir := by
  obtain ⟨files, readFiles, increasing, complete⟩ := File.Files.namesAt_ok h false
  obtain ⟨dirs, readDirs, increasing', complete'⟩ := File.Files.namesAt_ok h true
  refine ⟨files, dirs, readFiles, readDirs, ⟨increasing, fun name => ?_⟩, increasing', fun name => ?_⟩
  · simp [complete]
  · simp [complete']

/-- **The listing words enumerate a directory**, in whatever order it is read. Of the names of its
files and of its directories, each in the order of their bytes, counting pushes how many there are,
and they are all its entries; asking by an index pushes the name at that index; at every other index,
a file is answered by the empty text, and a directory stops the program. Where there is no directory,
counting pushes zero. -/
theorem listing_words_enumerate {c : Setup (World Files)} {network : Network}
    (host : c.host = (Files.tools network).host) (f : Files) (dir : String) :
    (f.isDir dir = true → ∃ files dirs : List String,
      (Enumerates files fun name => ∃ n, f.Holds dir name n ∧ n ≠ .dir) ∧
      (Enumerates dirs fun name => f.Holds dir name .dir) ∧
      Pushes c .countFiles [.path dir] f (.int (Int64.ofNat files.length)) ∧
      Pushes c .countDirs [.path dir] f (.int (Int64.ofNat dirs.length)) ∧
      files.length + dirs.length = (entries f dir).ncard ∧
      ((entries f dir).ncard < 2 ^ 63 → (Int64.ofNat files.length).toInt = files.length ∧
        (Int64.ofNat dirs.length).toInt = dirs.length) ∧
      ∀ i : Int64,
        (∀ k name, i.toInt = (k : Nat) → files[k]? = some name →
          Pushes c .fileAt [.path dir, .int i] f (.text name)) ∧
        (∀ k name, i.toInt = (k : Nat) → dirs[k]? = some name →
          Pushes c .dirAt [.path dir, .int i] f (.text name)) ∧
        (¬(0 ≤ i.toInt ∧ i.toInt < files.length) →
          Pushes c .fileAt [.path dir, .int i] f (.text "")) ∧
        (¬(0 ≤ i.toInt ∧ i.toInt < dirs.length) →
          Stops c .dirAt [.path dir, .int i] f
            (.toolFailed (ToolError.noEntry i dir dirs.length).message))) ∧
    (f.isDir dir = false →
      Pushes c .countFiles [.path dir] f (.int 0) ∧ Pushes c .countDirs [.path dir] f (.int 0)) := by
  have askFiles := answers_listFiles host f dir
  have askDirs := answers_listDirs host f dir
  constructor
  · intro isDir
    obtain ⟨files, dirs, readFiles, readDirs, isFiles, isDirs⟩ := exists_enumerated isDir
    rw [readFiles] at askFiles
    rw [readDirs] at askDirs
    have whole := length_add_length isFiles isDirs
    refine ⟨files, dirs, isFiles, isDirs, pushes_count askFiles rfl, pushes_count askDirs rfl, whole,
      ?_, fun i => ⟨?_, ?_, ?_, ?_⟩⟩
    · intro few
      exact ⟨Int64.toInt_ofNat_of_lt (by omega), Int64.toInt_ofNat_of_lt (by omega)⟩
    · intro k name index there
      exact pushes_fileAt askFiles (entryAt_ok index there dir)
    · intro k name index there
      exact pushes_dirAt askDirs (entryAt_ok index there dir)
    · intro outside
      exact pushes_fileAt askFiles (entryAt_error outside dir)
    · intro outside
      exact stops_dirAt askDirs (entryAt_error outside dir)
  · intro noDir
    obtain ⟨e, failsFiles⟩ := File.Files.namesAt_error noDir false
    obtain ⟨e', failsDirs⟩ := File.Files.namesAt_error noDir true
    rw [failsFiles] at askFiles
    rw [failsDirs] at askDirs
    exact ⟨pushes_count askFiles rfl, pushes_count askDirs rfl⟩

/-- Two files and a directory that are read backwards: the files are counted, the first by name is
found, and there is no directory at the index minus one. -/
theorem listing_words_enumerate_reversed :
    let tree := ((File.Tree.empty.put ["s"] .dir).put ["b"] (.file .empty)).put ["a"] (.file .empty)
    let f : Files := { tree, order := ⟨fun _ names => names.reverse, fun _ => List.reverse_perm⟩ }
    let c : Setup (World Files) := {
      program := { instructions := #[], procedures := [] }
      host := (Files.tools ⟨fun _ => .error "no network", Network.usualRefusal?⟩).host
      limit := 1 }
    Pushes c .countFiles [.path "."] f (.int 2) ∧
      Pushes c .fileAt [.path ".", .int 0] f (.text "a") ∧
      Stops c .dirAt [.path ".", .int (-1)] f (.toolFailed "No entry -1 in `.` (1 entries)") := by
  intro tree f c
  have listed : tree.entries = [(["a"], .file .empty), (["b"], .file .empty), (["s"], .dir)] := by
    decide +kernel
  have isDir : f.isDir "." = true := by decide +kernel
  have leads : f.resolve "." = .ok (.inside []) := ok_of_toOption (by decide +kernel)
  have holds (name : String) (n : File.Node) :
      f.Holds "." name n ↔ ([name], n) ∈ tree.entries := by
    rw [← File.Tree.node?_eq_some_iff (List.cons_ne_nil _ _)]
    constructor
    · rintro ⟨p, leads', there⟩
      cases leads.symm.trans leads'
      exact there
    · intro there
      exact ⟨[], leads, there⟩
  obtain ⟨files, dirs, isFiles, isDirs, counted, -, -, -, asked⟩ :=
    (listing_words_enumerate (c := c) rfl f ".").1 isDir
  obtain rfl : files = ["a", "b"] := by
    refine isFiles.unique ⟨by decide +kernel, fun name => ?_⟩
    simp only [holds, listed]
    constructor
    · intro isFile
      exact ⟨.file .empty, by simpa [or_assoc] using isFile⟩
    · rintro ⟨n, there, noDir⟩
      simp only [List.mem_cons, Prod.mk.injEq, List.cons.injEq, and_true] at there ⊢
      tauto
  obtain rfl : dirs = ["s"] := by
    refine isDirs.unique ⟨by decide, fun name => ?_⟩
    simp [holds, listed]
  refine ⟨counted, (asked 0).1 0 "a" rfl rfl, ?_⟩
  have message : (ToolError.noEntry (-1) "." 1).message = "No entry -1 in `.` (1 entries)" := by
    decide +kernel
  exact message ▸ (asked (-1)).2.2.2 (by decide)

end Chore.Machine
