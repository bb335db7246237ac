import Chore.Proofs.File.Listing
import Chore.Proofs.Machine.Yields

/-!
# The order of values

Two integers or two texts have an order, and the six comparing words answer by it (`Compares`):
exactly one of less, equal and greater holds, and the other three are their complements. Texts are in
the order of their bytes, which is the order of their code points, and the order in which directories
are listed. Values of different kinds and paths are equal or not, and have no order (`Differs`).
-/

set_option autoImplicit false

namespace Chore

namespace Machine

open File (Files)

/-- Two values have an order: both are integers, or both are texts. -/
def Ordered (b t : Value) : Prop :=
  b.kind = t.kind ∧ b.kind ≠ .path

/-- The order of integers and the order of texts by their bytes. -/
inductive Before : Value → Value → Prop
  | ints {b t : Int64} : b.toInt < t.toInt → Before (.int b) (.int t)
  | texts {b t : String} : Text.bytes b < Text.bytes t → Before (.text b) (.text t)

theorem Before.trans {x y z : Value} (first : Before x y) (second : Before y z) : Before x z := by
  cases first with
  | ints less =>
    cases second with
    | ints more => exact .ints (Int.lt_trans less more)
  | texts less =>
    cases second with
    | texts more => exact .texts (List.lt_trans less more)

theorem before_text {s t : String} : Before (.text s) (.text t) ↔ s < t := by
  rw [← Text.bytes_lt_iff]
  constructor
  · intro before
    cases before with
    | texts less => exact less
  · exact .texts

theorem before_int {b t : Int64} : Before (.int b) (.int t) ↔ b.toInt < t.toInt := by
  constructor
  · intro before
    cases before with
    | ints less => exact less
  · exact .ints

/-- What comparing two values finds. -/
theorem order?_spec {b t : Value} (ordered : Ordered b t) :
    ∃ o, b.order? t = some o ∧
      (o = .lt ↔ Before b t) ∧ (o = .eq ↔ b = t) ∧ (o = .gt ↔ Before t b) := by
  obtain ⟨same, comparable⟩ := ordered
  cases b with
  | path p => exact absurd rfl comparable
  | int b =>
    cases t with
    | text t | path t => cases same
    | int t =>
      refine ⟨_, rfl, ?_, ?_, ?_⟩
      · rw [Std.compare_eq_lt, before_int]
      · rw [Std.compare_eq_iff_eq, Int64.toInt_inj, Value.int.injEq]
      · rw [Std.compare_eq_gt, before_int]
  | text b =>
    cases t with
    | int t | path t => cases same
    | text t =>
      refine ⟨_, rfl, ?_, ?_, ?_⟩
      · rw [before_text]
        exact compareOfLessAndEq_eq_lt
      · rw [Std.compare_eq_iff_eq, Value.text.injEq]
      · rw [before_text]
        exact compareOfLessAndEq_eq_gt String.le_antisymm String.le_total String.not_le b t

section Words

variable {ω : Type} (c : Setup ω) {b t : Value}

/-- A comparing word says whether something holds of its operands. -/
def Tells (w : Comparison) (b t : Value) (holds : Prop) : Prop :=
  (holds → Computes c (.compare w) [t, b] (.ok (.int 1))) ∧
    (¬holds → Computes c (.compare w) [t, b] (.ok (.int 0)))

theorem computes_compare (w : Comparison) (b t : Value) :
    Computes c (.compare w) [t, b] (w.apply b t) :=
  computes_binary b t fun instr token => by rw [perform_eq, token]; rfl

theorem tells_of_apply {w : Comparison} {v : Bool} {holds : Prop}
    (applied : w.apply b t = .ok (.ofBool v)) (same : v = true ↔ holds) : Tells c w b t holds := by
  have computes := computes_compare c w b t
  rw [applied] at computes
  constructor
  · intro yes
    rwa [same.2 yes] at computes
  · intro no
    rwa [Bool.eq_false_iff.2 fun is => no (same.1 is)] at computes

/-- Any two values are equal or not. -/
theorem tells_equality (b t : Value) :
    Tells c .equal b t (b = t) ∧ Tells c .notEqual b t (b ≠ t) :=
  ⟨tells_of_apply c rfl decide_eq_true_iff, tells_of_apply c rfl decide_eq_true_iff⟩

/-- The four words for the order go by what comparing finds. -/
theorem apply_order {w : Comparison} (notEqual : w ≠ .notEqual) (equal : w ≠ .equal) (b t : Value) :
    w.apply b t = match b.order? t with
      | some o => .ok (.ofBool (w.accepts o))
      | none => .error (.wrongKind (.compare w) [b.kind, t.kind]) := by
  cases w with
  | equal => exact absurd rfl equal
  | notEqual => exact absurd rfl notEqual
  | less | greater | lessEqual | greaterEqual => rfl

/-- How two values that have an order compare. -/
structure Compares (b t : Value) : Prop where
  less : Tells c .less b t (Before b t)
  equal : Tells c .equal b t (b = t)
  greater : Tells c .greater b t (Before t b)
  lessEqual : Tells c .lessEqual b t (¬Before t b)
  greaterEqual : Tells c .greaterEqual b t (¬Before b t)
  notEqual : Tells c .notEqual b t (b ≠ t)
  one : (Before b t ∧ b ≠ t ∧ ¬Before t b) ∨ (¬Before b t ∧ b = t ∧ ¬Before t b) ∨
    (¬Before b t ∧ b ≠ t ∧ Before t b)

theorem compares (ordered : Ordered b t) : Compares c b t := by
  obtain ⟨o, found, less, equal, greater⟩ := order?_spec ordered
  have tells {w : Comparison} {holds : Prop} (noTest : w ≠ .notEqual ∧ w ≠ .equal)
      (same : w.accepts o = true ↔ holds) : Tells c w b t holds := by
    refine tells_of_apply c ?_ same
    rw [apply_order noTest.1 noTest.2, found]
  obtain ⟨isEqual, isNot⟩ := tells_equality c b t
  refine ⟨tells (by decide) ?_, isEqual, tells (by decide) ?_, tells (by decide) ?_,
    tells (by decide) ?_, isNot, ?_⟩
  all_goals
    simp only [← less, ← equal, ← greater, Ne]
    cases o <;> decide

/-- How two values that have no order compare: they are equal or not, but the words for the order
fail. -/
structure Differs (b t : Value) : Prop where
  equal : Tells c .equal b t (b = t)
  notEqual : Tells c .notEqual b t (b ≠ t)
  fails : ∀ w, w ≠ .notEqual → w ≠ .equal →
    Computes c (.compare w) [t, b] (.error (.wrongKind (.compare w) [b.kind, t.kind]))

theorem differs (unordered : ¬Ordered b t) : Differs c b t := by
  obtain ⟨isEqual, isNot⟩ := tells_equality c b t
  have unrelated : b.order? t = none := by
    cases b <;> cases t <;> first | rfl | exact absurd ⟨rfl, nofun⟩ unordered
  refine ⟨isEqual, isNot, fun w noTest noTest' => ?_⟩
  have computes := computes_compare c w b t
  rwa [apply_order noTest noTest', unrelated] at computes

/-- Directories are listed in the order of texts. -/
theorem listed_before {f : Files} {dirs : Bool} {dir : String} {names : List String}
    (listed : f.namesAt dirs dir = .ok names) :
    names.Pairwise fun a b => Before (.text a) (.text b) := by
  cases isDir : f.isDir dir with
  | true =>
    obtain ⟨names', listed', increasing, -⟩ := File.Files.namesAt_ok isDir dirs
    cases listed.symm.trans listed'
    exact increasing.imp .texts
  | false =>
    obtain ⟨e, fails⟩ := File.Files.namesAt_error isDir dirs
    cases listed.symm.trans fails

/-- **The comparing words form one strict total order for each kind.** Of two integers, and of two
texts, exactly one of less, equal and greater holds, and each word says whether its relation does.
The order is transitive; on texts it is the order of their bytes, which is the order of their code
points, and the order in which directories are listed. Any other two values are equal or not, and the
words for the order fail. -/
theorem comparing_words_order :
    (∀ b t, Ordered b t → Compares c b t) ∧
    (∀ x y z, Before x y → Before y z → Before x z) ∧
    (∀ s t : String, (Before (.text s) (.text t) ↔ Text.bytes s < Text.bytes t) ∧
      (Text.bytes s < Text.bytes t ↔ s.toList.map Char.toNat < t.toList.map Char.toNat)) ∧
    (∀ (f : Files) (dirs : Bool) (dir : String) (names : List String),
      f.namesAt dirs dir = .ok names → names.Pairwise fun a b => Before (.text a) (.text b)) ∧
    ∀ b t, ¬Ordered b t → Differs c b t := by
  refine ⟨fun b t => compares c, fun x y z => Before.trans, fun s t => ?_,
    fun f dirs dir names => listed_before, fun b t => differs c⟩
  exact ⟨before_text.trans Text.bytes_lt_iff.symm, Text.bytes_lt_iff_codePoints⟩

end Words

end Machine

end Chore
