import Chore.Machine.Script
import Chore.Proofs.Machine.Operands
import Chore.Proofs.Typing.Words
import Chore.Typing.Check

/-!
# The check and the machine agree

The machine takes a word's operands one at a time and complains when one is missing or of the
wrong kind; the check compares a slice of kinds with a table. The two come to the same: on every
stack the machine complains exactly where the table has no entry, and otherwise the values that
lie on the stack afterwards are of the kinds in the table (`word_agrees`).

`Word.reshape?` is the table as a function on shapes. A word that takes one or two operands follows
it if it reads each operand as the table does (`conforms_one`, `conforms_two`); there is a lemma
for each family of words.
-/

set_option autoImplicit false

namespace Chore

/-- The type error is about the operands of a word: there were too few, or some of the wrong
kind. -/
def TypeError.isMisfit : TypeError → Bool
  | underflow .. | mismatch .. => true
  | _ => false

namespace Word

/-- What a word makes of a shape; absent where the operands do not fit. -/
def reshape? (op : Word) (shape : Shape) : Option Shape :=
  if shape.length < op.arity then none
  else (op.results? (shape.take op.arity)).map (· ++ shape.drop op.arity)

theorem reshape?_short {op : Word} {shape : Shape} (h : shape.length < op.arity) :
    op.reshape? shape = none :=
  if_pos h

theorem reshape?_append (op : Word) (kinds : List Kind) (rest : Shape)
    (h : kinds.length = op.arity) :
    op.reshape? (kinds ++ rest) = (op.results? kinds).map (· ++ rest) := by
  have enough : ¬(kinds ++ rest).length < op.arity := by
    rw [List.length_append]
    omega
  rw [reshape?, if_neg enough, List.take_left' h, List.drop_left' h]

/-- The check follows the table: it accepts what has an entry and complains about operands
otherwise. -/
theorem retype_eq_ok_iff {op : Word} {i : Nat} {shape after : Shape} :
    op.retype i shape = .ok after ↔ op.reshape? shape = some after := by
  unfold retype reshape?
  by_cases short : shape.length < op.arity
  · simp [short]
  · rw [if_neg short, if_neg short]
    cases op.results? (shape.take op.arity) <;> simp

theorem misfit_of_retype {op : Word} {i : Nat} {shape : Shape} {e : TypeError}
    (h : op.retype i shape = .error e) : e.isMisfit = true ∧ op.reshape? shape = none := by
  unfold retype at h
  unfold reshape?
  by_cases short : shape.length < op.arity
  · rw [if_pos short] at h
    rw [if_pos short, ← Except.error.inj h]
    exact ⟨rfl, rfl⟩
  · rw [if_neg short] at h
    rw [if_neg short]
    cases results : op.results? (shape.take op.arity) with
    | some kinds => simp [results] at h
    | none =>
      simp only [results] at h
      rw [← Except.error.inj h]
      exact ⟨rfl, rfl⟩

theorem retype_error_iff {op : Word} {i : Nat} {shape : Shape} :
    (∃ e, op.retype i shape = .error e) ↔ op.reshape? shape = none := by
  constructor
  · rintro ⟨e, h⟩
    exact (misfit_of_retype h).2
  · intro absent
    cases h : op.retype i shape with
    | error e => exact ⟨e, rfl⟩
    | ok after => simp [retype_eq_ok_iff.1 h] at absent

end Word

namespace Machine

variable {ω α β : Type}

/-- A word that takes one operand. -/
theorem conforms_one {op : Word} (one : op.arity = 1) (kinds : List Kind) {p : Action ω α}
    {read : Value → Option α} (takes : Takes p read)
    (table : ∀ v, op.results? [v.kind] = (read v).map fun _ => kinds) {f : α → Action ω β}
    (result : ∀ a rest, Conforms rest (f a) (some (kinds ++ rest.map Value.kind)))
    (xs : List Value) : Conforms xs (p >>= f) (op.reshape? (xs.map Value.kind)) := by
  cases xs with
  | nil =>
    rw [Word.reshape?_short (by simp [one])]
    exact conforms_short takes
  | cons v rest =>
    have entry : op.reshape? ((v :: rest).map Value.kind) =
        (op.results? [v.kind]).map (· ++ rest.map Value.kind) :=
      op.reshape?_append [v.kind] _ one.symm
    rw [entry, table]
    cases reads : read v with
    | none => exact conforms_wrong takes reads
    | some a => exact conforms_take takes reads (result a rest)

/-- A word that takes two operands, the second of which is only looked at if the first one fits. -/
theorem conforms_two {op : Word} (two : op.arity = 2) {γ : Type} {p : Action ω α} {q : Action ω γ}
    {read : Value → Option α} {read' : Value → Option γ} (takes : Takes p read)
    (takes' : Takes q read') {f : α → γ → Action ω β}
    (first : ∀ v u : Value, read v = none → op.results? [v.kind, u.kind] = none)
    (second : ∀ v u : Value, read' u = none → op.results? [v.kind, u.kind] = none)
    (result : ∀ v u a b rest, read v = some a → read' u = some b →
      Conforms rest (f a b) ((op.results? [v.kind, u.kind]).map (· ++ rest.map Value.kind)))
    (xs : List Value) :
    Conforms xs (p >>= fun a => q >>= fun b => f a b) (op.reshape? (xs.map Value.kind)) := by
  rcases xs with _ | ⟨v, _ | ⟨u, rest⟩⟩
  · rw [Word.reshape?_short (by simp [two])]
    exact conforms_short takes
  · rw [Word.reshape?_short (by simp [two])]
    cases reads : read v with
    | none => exact conforms_wrong takes reads
    | some a => exact conforms_take takes reads (conforms_short takes')
  · have entry : op.reshape? ((v :: u :: rest).map Value.kind) =
        (op.results? [v.kind, u.kind]).map (· ++ rest.map Value.kind) :=
      op.reshape?_append [v.kind, u.kind] _ two.symm
    rw [entry]
    cases reads : read v with
    | none =>
      rw [first v u reads]
      exact conforms_wrong takes reads
    | some a =>
      refine conforms_take takes reads ?_
      cases reads' : read' u with
      | none =>
        rw [second v u reads']
        exact conforms_wrong takes' reads'
      | some b => exact conforms_take takes' reads' (result v u a b rest reads reads')

/-- A word that takes two operands and leaves the same kinds for all that it accepts. -/
theorem conforms_pair {op : Word} (two : op.arity = 2) (kinds : List Kind) {γ : Type}
    {p : Action ω α} {q : Action ω γ} {read : Value → Option α} {read' : Value → Option γ}
    (takes : Takes p read) (takes' : Takes q read')
    (table : ∀ v u : Value, op.results? [v.kind, u.kind] =
      (read v).bind fun _ => (read' u).map fun _ => kinds)
    {f : α → γ → Action ω β}
    (result : ∀ a b rest, Conforms rest (f a b) (some (kinds ++ rest.map Value.kind)))
    (xs : List Value) :
    Conforms xs (p >>= fun a => q >>= fun b => f a b) (op.reshape? (xs.map Value.kind)) := by
  refine conforms_two two takes takes' ?_ ?_ ?_ xs
  · intro v u unread
    rw [table, unread, Option.bind_none]
  · intro v u unread
    rw [table, unread, Option.map_none, Option.bind_fun_none]
  · intro v u a b rest reads reads'
    rw [table, reads, reads']
    exact result a b rest

/-! ## Operators -/

/-- An operator gives one value of the kind in the table; it complains about its operands exactly
if there is no entry. -/
def Follows (r : Except Fault Value) (entry : Option (List Kind)) : Prop :=
  match r with
  | .ok v => entry = some [v.kind]
  | .error fault => fault.isMisfit = true ↔ entry = none

theorem follows_of_typed {r : Except Fault Value} {entry : Option (List Kind)}
    (accepted : ∀ kinds, entry = some kinds →
      (∀ v, r = .ok v → [v.kind] = kinds) ∧ ∀ e, r = .error e → e.isMisfit = false)
    (rejected : entry = none → ∃ fault, r = .error fault ∧ fault.isMisfit = true) :
    Follows r entry := by
  cases entry with
  | none =>
    obtain ⟨fault, rfl, misfit⟩ := rejected rfl
    exact iff_of_true misfit rfl
  | some kinds =>
    obtain ⟨value, fault⟩ := accepted kinds rfl
    cases r with
    | ok v => exact congrArg some (value v rfl).symm
    | error e => exact iff_of_false (by simp [fault e rfl]) nofun

theorem follows_arithmetic (w : Arithmetic) (t b : Value) :
    Follows (w.apply b t) ((Word.arithmetic w).results? [t.kind, b.kind]) := by
  apply follows_of_typed
  · intro kinds entry
    obtain ⟨value, fault⟩ := Arithmetic.apply_typed entry
    refine ⟨value, fun e failed => ?_⟩
    rw [fault e failed]
    rfl
  · intro entry
    cases w <;> cases t <;> cases b <;> first | exact ⟨_, rfl, rfl⟩ | cases entry

/-- Two values of any kinds can be tested for equality, which the table allows for integers and
texts only; with the other comparing words the two agree. -/
theorem follows_compare {w : Comparison} (ordering : w ≠ .equal ∧ w ≠ .notEqual) (t b : Value) :
    Follows (w.apply b t) ((Word.compare w).results? [t.kind, b.kind]) := by
  apply follows_of_typed
  · intro kinds entry
    obtain ⟨v, applied, kind⟩ := Comparison.apply_typed entry
    rw [applied]
    exact ⟨fun u same => Except.ok.inj same ▸ kind, nofun⟩
  · intro entry
    obtain ⟨notEqual, notUnequal⟩ := ordering
    cases w with
    | equal => exact absurd rfl notEqual
    | notEqual => exact absurd rfl notUnequal
    | _ => cases t <;> cases b <;> first | exact ⟨_, rfl, rfl⟩ | cases entry

theorem follows_bitwise (w : Bitwise) (t b : Value) :
    Follows (w.apply b t) ((Word.bitwise w).results? [t.kind, b.kind]) := by
  cases t <;> cases b <;> first | exact iff_of_true rfl rfl | rfl

theorem follows_logic (w : Logic) (t b : Value) :
    Follows (w.apply b t) ((Word.logic w).results? [t.kind, b.kind]) := by
  cases t <;> cases b <;> first | exact iff_of_true rfl rfl | rfl

/-- A word that applies an operator to two values. -/
theorem conforms_binary {op : Word} (two : op.arity = 2) (c : Setup ω)
    {f : Value → Value → Except Fault Value}
    (follows : ∀ t b : Value, Follows (f b t) (op.results? [t.kind, b.kind])) (xs : List Value) :
    Conforms xs (binary c f) (op.reshape? (xs.map Value.kind)) := by
  refine conforms_two two takes_pop takes_pop nofun nofun ?_ xs
  rintro v u _ _ rest ⟨⟩ ⟨⟩
  have entry := follows v u
  apply conforms_ofExcept
  · intro result applied
    rw [applied] at entry
    refine conforms_push c ?_
    rw [show op.results? [v.kind, u.kind] = some [result.kind] from entry]
    rfl
  · intro e applied
    rw [applied] at entry
    rw [Option.map_eq_none_iff]
    exact entry

/-! ## Words -/

theorem conforms_print (c : Setup ω) (xs : List Value) :
    Conforms xs (print c) (Word.print.reshape? (xs.map Value.kind)) := by
  refine conforms_one rfl [] takes_pop (fun _ => rfl) ?_ xs
  rintro v rest s rfl
  rcases written : c.host.write (v.display ++ "\n") s.world with ⟨reason | u, world⟩
  · simp only [written]
    exact iff_of_false nofun nofun
  · simp only [written]
    rfl

theorem conforms_convert (c : Setup ω) (w : Conversion) (xs : List Value) :
    Conforms xs (convert c w) ((Word.convert w).reshape? (xs.map Value.kind)) := by
  cases w with
  | toText =>
    exact conforms_one rfl [.text] takes_pop (fun _ => rfl) (fun _ _ => conforms_push c rfl) xs
  | toPath =>
    refine conforms_one rfl [.path] (takes_popText _) ?_ (fun _ _ => conforms_push c rfl) xs
    rintro (n | t | p) <;> rfl
  | absolute | relative =>
    refine conforms_one rfl [.path] (takes_popLocation _) ?_ (fun _ _ => ?_) xs
    · rintro (n | t | p) <;> rfl
    · exact conforms_keep keeps_get fun _ => conforms_push c rfl
  | concat =>
    refine conforms_two rfl (takes_popText _) takes_pop ?_ nofun ?_ xs
    · rintro (n | t | p) u unread
      · cases u <;> rfl
      · cases unread
      · cases u <;> rfl
    · rintro (n | t | p) u suffix _ rest read ⟨⟩ <;> cases read
      cases u with
      | int n => exact conforms_misfit rfl
      | text t => exact conforms_push c rfl
      | path p => exact conforms_push c rfl

theorem conforms_shuffle (c : Setup ω) (w : Shuffle) (xs : List Value) :
    Conforms xs (shuffle c w) ((Word.shuffle w).reshape? (xs.map Value.kind)) := by
  cases w with
  | dup =>
    cases xs with
    | nil => exact conforms_peek_short rfl
    | cons a rest => exact conforms_peek rfl (conforms_push c rfl)
  | drop => exact conforms_one rfl [] takes_pop (fun _ => rfl) (fun _ _ => conforms_pure rfl) xs
  | swap =>
    refine conforms_two rfl takes_pop takes_pop nofun nofun ?_ xs
    rintro a b _ _ rest ⟨⟩ ⟨⟩
    exact conforms_pushAll c rfl
  | «over» =>
    rcases xs with _ | ⟨b, _ | ⟨a, rest⟩⟩
    · exact conforms_peek_short rfl
    · exact conforms_peek_short rfl
    · exact conforms_peek rfl (conforms_push c rfl)
  | dup2 =>
    rcases xs with _ | ⟨b, _ | ⟨a, rest⟩⟩
    · exact conforms_peek_short rfl
    · exact conforms_peek_short rfl
    · exact conforms_peek rfl (conforms_peek rfl (conforms_pushAll c rfl))
  | swap2 =>
    rcases xs with _ | ⟨d, _ | ⟨e, _ | ⟨b, _ | ⟨a, rest⟩⟩⟩⟩
    · exact conforms_short takes_pop
    · exact conforms_take takes_pop rfl (conforms_short takes_pop)
    · exact conforms_take takes_pop rfl (conforms_take takes_pop rfl (conforms_short takes_pop))
    · exact conforms_take takes_pop rfl (conforms_take takes_pop rfl (conforms_take takes_pop rfl
        (conforms_short takes_pop)))
    · exact conforms_take takes_pop rfl (conforms_take takes_pop rfl (conforms_take takes_pop rfl
        (conforms_take takes_pop rfl (conforms_pushAll c rfl))))

/-- A request, a note if it failed, and values for how it went. -/
theorem conforms_ask {xs : List Value} {after : Option Shape} (c : Setup ω) (w : Tool) (r : Request)
    (reply : r.Reply → Except ToolError α) {results : Option α → Action ω Unit}
    (values : ∀ o, Conforms xs (results o) after) :
    Conforms xs (ask c r >>= fun x => succeeded w (reply x) >>= results) after :=
  conforms_keep (keeps_ask c r) fun _ => conforms_keep (keeps_succeeded w _) values

/-- A tool word that takes one path. -/
theorem conforms_path {w : Tool} (one : (Word.tool w).arity = 1) (kinds : List Kind)
    (table : ∀ v : Value, w.results? [v.kind] = v.path?.map fun _ => kinds) (xs : List Value)
    {f : String → Action ω Unit}
    (result : ∀ path rest, Conforms rest (f path) (some (kinds ++ rest.map Value.kind))) :
    Conforms xs (popPath (.tool w) >>= f) ((Word.tool w).reshape? (xs.map Value.kind)) :=
  conforms_one one kinds (takes_popPath _) table result xs

/-- A tool word that takes two paths. -/
theorem conforms_paths {w : Tool} (two : (Word.tool w).arity = 2) (kinds : List Kind)
    (table : ∀ v u : Value, w.results? [v.kind, u.kind] =
      v.path?.bind fun _ => u.path?.map fun _ => kinds)
    (xs : List Value) {f : String → String → Action ω Unit}
    (result : ∀ dst src rest, Conforms rest (f dst src) (some (kinds ++ rest.map Value.kind))) :
    Conforms xs (popPath (.tool w) >>= fun dst => popPath (.tool w) >>= fun src => f dst src)
      ((Word.tool w).reshape? (xs.map Value.kind)) :=
  conforms_pair two kinds (takes_popPath _) (takes_popPath _) table result xs

/-- A tool word that takes an index and a path. -/
theorem conforms_entry {w : Tool} (two : (Word.tool w).arity = 2) (kinds : List Kind)
    (table : ∀ v u : Value, w.results? [v.kind, u.kind] =
      v.path?.bind fun _ => u.int?.map fun _ => kinds)
    (xs : List Value) {f : String → Int64 → Action ω Unit}
    (result : ∀ dir index rest, Conforms rest (f dir index) (some (kinds ++ rest.map Value.kind))) :
    Conforms xs (popPath (.tool w) >>= fun dir => popInt (.tool w) >>= fun index => f dir index)
      ((Word.tool w).reshape? (xs.map Value.kind)) :=
  conforms_pair two kinds (takes_popPath _) (takes_popInt _) table result xs

theorem conforms_tool (c : Setup ω) (w : Tool) (xs : List Value) :
    Conforms xs (tool c w) ((Word.tool w).reshape? (xs.map Value.kind)) := by
  cases w with
  | download =>
    refine conforms_pair rfl [.int] (takes_popPath _) (takes_popText _) ?_ (fun dest url _ => ?_) xs
    · rintro (_ | _ | _) (_ | _ | _) <;> rfl
    · exact conforms_ask c .download (.download url dest) id fun _ => conforms_push c rfl
  | readFile =>
    apply conforms_path rfl [.int, .text] (by rintro (_ | _ | _) <;> rfl)
    intro path _
    refine conforms_ask c .readFile (.readText path) id fun o => ?_
    cases o <;> exact conforms_pushAll c rfl
  | move =>
    apply conforms_paths rfl [.int] (by rintro (_ | _ | _) (_ | _ | _) <;> rfl)
    intro dst src _
    exact conforms_ask c .move (.move src dst) id fun _ => conforms_push c rfl
  | copy =>
    apply conforms_paths rfl [.int, .int] (by rintro (_ | _ | _) (_ | _ | _) <;> rfl)
    intro dst src _
    refine conforms_ask c .copy (.copy src dst) id fun o => ?_
    rcases o with _ | _ | _ <;> exact conforms_pushAll c rfl
  | exist =>
    apply conforms_path rfl [.int] (by rintro (_ | _ | _) <;> rfl)
    intro path _
    exact conforms_keep (keeps_ask c (.pathExists path)) fun _ => conforms_push c rfl
  | touch | mkdir | remove | countFiles | countDirs =>
    apply conforms_path rfl [.int] (by rintro (_ | _ | _) <;> rfl)
    intro path _
    refine conforms_keep (keeps_ask c _) fun reply => ?_
    exact conforms_keep (keeps_succeeded _ _) fun _ => conforms_push c rfl
  | unzip =>
    apply conforms_paths rfl [.int, .int] (by rintro (_ | _ | _) (_ | _ | _) <;> rfl)
    intro dest archive _
    refine conforms_ask c .unzip (.unzip archive dest) id fun o => ?_
    cases o <;> exact conforms_pushAll c rfl
  | fileAt =>
    apply conforms_entry rfl [.text] (by rintro (_ | _ | _) (_ | _ | _) <;> rfl)
    intro dir index _
    exact conforms_ask c .fileAt (.listFiles dir)
      (fun names => Except.bind names fun names => entryAt names index dir)
      fun _ => conforms_push c rfl
  | dirAt =>
    apply conforms_entry rfl [.text] (by rintro (_ | _ | _) (_ | _ | _) <;> rfl)
    intro dir index _
    refine conforms_keep (keeps_ask c (.listDirs dir)) fun names => ?_
    cases Except.bind names fun names => entryAt names index dir with
    | ok name => exact conforms_push c rfl
    | error e => exact conforms_fail rfl

theorem conforms_andNext {xs : List Value} {m : Action ω Unit} {after : Option Shape}
    (h : Conforms xs m after) : Conforms xs (andNext m) after := by
  intro s onStack
  have done := h s onStack
  rw [andNext, Attempt.bind_apply]
  rcases came : m s with ⟨fault | u, t⟩ <;> rw [came] at done
  · exact done
  · exact done

/-- **A word outside of control flow, variables and equality** conforms to the table. -/
theorem conforms_word {op : Word} (control : op.family ≠ .branch) (memory : op.family ≠ .memory)
    (ordering : op ≠ .compare .equal ∧ op ≠ .compare .notEqual) (c : Setup ω) (instr : Instr)
    (xs : List Value) : Conforms xs (word c instr op) (op.reshape? (xs.map Value.kind)) := by
  cases op with
  | print => exact conforms_andNext (conforms_print c xs)
  | convert w => exact conforms_andNext (conforms_convert c w xs)
  | access w => exact absurd rfl memory
  | arithmetic w => exact conforms_andNext (conforms_binary rfl c (follows_arithmetic w) xs)
  | count w =>
    apply conforms_andNext
    refine conforms_one rfl [.int] (takes_popInt _) (by rintro (_ | _ | _) <;> rfl) ?_ xs
    intro n rest
    obtain ⟨value, fault⟩ := w.intOrOverflow n
    apply conforms_ofExcept
    · intro v counted
      exact conforms_push c (by rw [value v counted]; rfl)
    · intro e counted
      rw [fault e counted]
      exact iff_of_false nofun nofun
  | shuffle w => exact conforms_andNext (conforms_shuffle c w xs)
  | mark m => exact absurd rfl control
  | leave l => exact absurd rfl control
  | compare w =>
    have comparison : w ≠ .equal ∧ w ≠ .notEqual :=
      ⟨fun h => ordering.1 (h ▸ rfl), fun h => ordering.2 (h ▸ rfl)⟩
    exact conforms_andNext (conforms_binary rfl c (follows_compare comparison) xs)
  | bitwise w => exact conforms_andNext (conforms_binary rfl c (follows_bitwise w) xs)
  | complement =>
    apply conforms_andNext
    refine conforms_one rfl [.int] (takes_popInt _) (by rintro (_ | _ | _) <;> rfl) ?_ xs
    exact fun n rest => conforms_push c rfl
  | logic w => exact conforms_andNext (conforms_binary rfl c (follows_logic w) xs)
  | negate =>
    apply conforms_andNext
    refine conforms_one rfl [.int] (takes_popCondition _) (by rintro (_ | _ | _) <;> rfl) ?_ xs
    exact fun b rest => conforms_push c rfl
  | tool w => exact conforms_andNext (conforms_tool c w xs)

end Machine

namespace Typing

open Machine

variable {ω : Type}

/-- The check retypes a word outside of control flow by the table and keeps everything else. -/
theorem Walk.word_eq_retype {op : Word} (control : op.family ≠ .branch) (program : Program)
    (procedure : Option Procedure) (w : Walk) (i : Nat) :
    w.word program procedure i op = (do return { w with shape := ← op.retype i w.shape }) := by
  cases op with
  | mark m => exact absurd rfl control
  | leave l => exact absurd rfl control
  | _ => rfl

theorem Walk.word_eq_ok_iff {op : Word} (control : op.family ≠ .branch) {program : Program}
    {procedure : Option Procedure} {w : Walk} {i : Nat} {after : Shape} :
    w.word program procedure i op = .ok { w with shape := after } ↔
      op.reshape? w.shape = some after := by
  rw [word_eq_retype control, ← Word.retype_eq_ok_iff]
  cases op.retype i w.shape with
  | error e => simp [bind, Except.bind]
  | ok shape => simp [bind, Except.bind, pure, Except.pure]

theorem Walk.word_eq_error_iff {op : Word} (control : op.family ≠ .branch) {program : Program}
    {procedure : Option Procedure} {w : Walk} {i : Nat} {e : TypeError} :
    w.word program procedure i op = .error e ↔ op.retype i w.shape = .error e := by
  rw [word_eq_retype control]
  cases op.retype i w.shape with
  | error e => simp [bind, Except.bind]
  | ok shape => simp [bind, Except.bind, pure, Except.pure]

/-- **The check and the machine agree on a word** outside of control flow, variables and equality:
on a stack with the kinds of the walk, the machine fails for want of a fitting operand exactly if
the check rejects the word, the check then complains about the operands, and a stack that the word
leaves has the kinds that the check goes on with. -/
theorem word_agrees {op : Word} (control : op.family ≠ .branch) (memory : op.family ≠ .memory)
    (ordering : op ≠ .compare .equal ∧ op ≠ .compare .notEqual) (c : Setup ω) (s : Scene ω)
    {instr : Instr} (here : instr.token = .word op) (program : Program)
    (procedure : Option Procedure) (i : Nat) {w : Walk}
    (kinds : w.shape = s.stack.toList.map Value.kind) :
    ((∃ fault, (perform c instr s).1 = .error fault ∧ fault.isMisfit = true) ↔
        ∃ e, w.word program procedure i op = .error e) ∧
      (∀ e, w.word program procedure i op = .error e → e.isMisfit = true) ∧
      ∀ effect, (perform c instr s).1 = .ok effect →
        w.word program procedure i op =
          .ok { w with shape := (perform c instr s).2.stack.toList.map Value.kind } := by
  have performed : perform c instr s = Machine.word c instr op s := by rw [perform_eq, here]
  have conforms := conforms_word control memory ordering c instr s.stack.toList s rfl
  rw [← performed, ← kinds] at conforms
  refine ⟨?_, ?_, ?_⟩
  · simp only [Walk.word_eq_error_iff control, Word.retype_error_iff]
    rcases came : perform c instr s with ⟨fault | effect, t⟩ <;> rw [came] at conforms
    · simpa using conforms
    · simp only [conforms, reduceCtorEq, false_and, exists_false]
  · intro e rejected
    exact (Word.misfit_of_retype ((Walk.word_eq_error_iff control).1 rejected)).1
  · intro effect succeeded
    rcases came : perform c instr s with ⟨fault | effect, t⟩ <;> rw [came] at conforms succeeded
    · cases succeeded
    · exact (Walk.word_eq_ok_iff control).2 conforms

/-- A lone integer under `concat` is both too little and of the wrong kind: the machine meets the
kind first, the check the length. -/
theorem word_agrees_concat :
    let op := Word.convert .concat
    let c : Setup (World Script) := ⟨⟨#[], []⟩, (Script.tools "/").host, 1⟩
    let world : World Script := { tools := { answers := [] } }
    let s : Scene (World Script) := { stack := .ofList [.int 7], world }
    let w : Walk := { shape := [.int] }
    (perform c { token := .word op } s).1 = .error (.wrongKind op [.int]) ∧
      w.word c.program none 0 op = .error (.underflow "concat" 0 2 1) ∧
      ((∃ fault, (perform c { token := .word op } s).1 = .error fault ∧ fault.isMisfit = true) ↔
        ∃ e, w.word c.program none 0 op = .error e) := by
  intro op c world s w
  exact ⟨rfl, rfl, (word_agrees (by decide) (by decide) (by decide) c s rfl c.program none 0 rfl).1⟩

end Typing

end Chore
