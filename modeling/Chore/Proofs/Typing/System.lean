import Chore.Proofs.Block.Layout
import Chore.Proofs.Typing.Step

/-!
# The type system

The typing rules, stated on blocks and without an order in which to check them. `Word.HasEffect`
is the effect of a word on the top of the stack. `Typed` says from which shape a block leads to
which: a part that may be left out or repeated gives back the shape it found, and the two arms of
a choice lead to one shape. A block is `Derivable` if it is typed from the empty stack and every
body declared in it from its inputs to its outputs. The lemmas at the end tie the rules for single
tokens to the steps of the check.
-/

set_option autoImplicit false

namespace Chore

/-- The kinds of values that can be a condition. -/
def Kind.IsCondition (k : Kind) : Prop :=
  k = .int ∨ k = .text

theorem Kind.isCondition_iff {k : Kind} : k.IsCondition ↔ k ≠ .path := by
  cases k <;> simp [IsCondition]

/-- The effect of a word: the kinds it takes from the top of the stack and those it leaves there,
the topmost last. -/
inductive Word.HasEffect : Word → List Kind → List Kind → Prop where
  | print (a : Kind) : HasEffect .print [a] []
  | toText (a : Kind) : HasEffect (.convert .toText) [a] [.text]
  | toPath : HasEffect (.convert .toPath) [.text] [.path]
  | absolute {a : Kind} (h : a = .text ∨ a = .path) : HasEffect (.convert .absolute) [a] [.path]
  | relative {a : Kind} (h : a = .text ∨ a = .path) : HasEffect (.convert .relative) [a] [.path]
  | concat {a : Kind} (h : a = .text ∨ a = .path) : HasEffect (.convert .concat) [a, .text] [a]
  | store : HasEffect (.access .store) [.int, .text] []
  | load : HasEffect (.access .load) [.text] [.int]
  | addText : HasEffect (.arithmetic .add) [.text, .text] [.text]
  | addInt : HasEffect (.arithmetic .add) [.text, .int] [.text]
  | arithmetic (w : Arithmetic) : HasEffect (.arithmetic w) [.int, .int] [.int]
  | count (w : Counting) : HasEffect (.count w) [.int] [.int]
  | dup (a : Kind) : HasEffect (.shuffle .dup) [a] [a, a]
  | drop (a : Kind) : HasEffect (.shuffle .drop) [a] []
  | swap (a b : Kind) : HasEffect (.shuffle .swap) [a, b] [b, a]
  | over (a b : Kind) : HasEffect (.shuffle .over) [a, b] [a, b, a]
  | dup2 (a b : Kind) : HasEffect (.shuffle .dup2) [a, b] [a, b, a, b]
  | swap2 (a b c d : Kind) : HasEffect (.shuffle .swap2) [a, b, c, d] [c, d, a, b]
  | compareInts (w : Comparison) : HasEffect (.compare w) [.int, .int] [.int]
  | compareTexts (w : Comparison) : HasEffect (.compare w) [.text, .text] [.int]
  | bitwise (w : Bitwise) : HasEffect (.bitwise w) [.int, .int] [.int]
  | complement : HasEffect .complement [.int] [.int]
  | logic {a b : Kind} (w : Logic) (ha : a.IsCondition) (hb : b.IsCondition) :
      HasEffect (.logic w) [a, b] [.int]
  | negate {a : Kind} (h : a.IsCondition) : HasEffect .negate [a] [.int]
  | download : HasEffect (.tool .download) [.text, .path] [.int]
  | readFile : HasEffect (.tool .readFile) [.path] [.text, .int]
  | move : HasEffect (.tool .move) [.path, .path] [.int]
  | copy : HasEffect (.tool .copy) [.path, .path] [.int, .int]
  | unzip : HasEffect (.tool .unzip) [.path, .path] [.int, .int]
  | onPath {t : Tool}
      (h : t ∈ [.exist, .touch, .mkdir, .remove, .countFiles, .countDirs]) :
      HasEffect (.tool t) [.path] [.int]
  | entry {t : Tool} (h : t = .fileAt ∨ t = .dirAt) : HasEffect (.tool t) [.int, .path] [.text]
  | exit : HasEffect (.leave .exit) [] []

namespace Typing

/-- The typing of blocks, given the signatures of the procedures and the kinds that are taken as
the condition in front of two arms: from a shape a block leads to a shape. -/
inductive Typed (signatures : List Signature) (chooses : Kind → Prop) :
    Shape → Block → Shape → Prop where
  | nil (s : Shape) : Typed signatures chooses s .nil s
  | literal {v : Value} {rest : Block} {s t : Shape}
      (behind : Typed signatures chooses (v.kind :: s) rest t) :
      Typed signatures chooses s (.plain (.literal v) rest) t
  | word {op : Word} {before after : List Kind} {rest : Block} {s t : Shape}
      (effect : op.HasEffect before after)
      (behind : Typed signatures chooses (after.reverse ++ s) rest t) :
      Typed signatures chooses (before.reverse ++ s) (.plain (.word op) rest) t
  | call {sig : Signature} {rest : Block} {s t : Shape} (declared : sig ∈ signatures)
      (behind : Typed signatures chooses (sig.outputs.reverse ++ s) rest t) :
      Typed signatures chooses (sig.inputs.reverse ++ s) (.plain (.name sig.name) rest) t
  | branch {k : BranchKind} {c : Kind} {body rest : Block} {s t : Shape}
      (condition : c.IsCondition) (inside : Typed signatures chooses s body s)
      (behind : Typed signatures chooses s rest t) :
      Typed signatures chooses (c :: s) (.branch k body rest) t
  | choice {k : BranchKind} {c : Kind} {body alternative rest : Block} {s t u : Shape}
      (condition : chooses c) (first : Typed signatures chooses s body t)
      (second : Typed signatures chooses s alternative t)
      (behind : Typed signatures chooses t rest u) :
      Typed signatures chooses (c :: s) (.choice k body alternative rest) u
  | loop {k : LoopKind} {c : Kind} {header body rest : Block} {s t : Shape}
      (tests : Typed signatures chooses s header (c :: s)) (condition : c.IsCondition)
      (inside : Typed signatures chooses s body s) (behind : Typed signatures chooses s rest t) :
      Typed signatures chooses s (.loop k header body rest) t
  | procedure {sig : Signature} {body rest : Block} {s t : Shape}
      (behind : Typed signatures chooses s rest t) :
      Typed signatures chooses s (.procedure sig body rest) t

/-- A block is typed from the empty stack, and every body declared in it from its inputs to its
outputs. -/
structure Derivable (chooses : Kind → Prop) (b : Block) : Prop where
  outside : ∃ t, Typed ((b.declarations 0).map (·.signature)) chooses [] b t
  bodies : ∀ d ∈ b.declarations 0, Typed ((b.declarations 0).map (·.signature)) chooses
    d.signature.inputs.reverse d.body d.signature.outputs.reverse

end Typing

/-! ## Effects of words -/

namespace Word

/-- The words that the check retypes in place. -/
def isData (op : Word) : Bool :=
  (Token.word op).isData

theorem HasEffect.results {op : Word} {before after : List Kind} (h : op.HasEffect before after)
    (data : op.isData = true) :
    op.results? before.reverse = some after.reverse ∧ before.length = op.arity := by
  cases h with
  | absolute h => rcases h with rfl | rfl <;> exact ⟨rfl, rfl⟩
  | relative h => rcases h with rfl | rfl <;> exact ⟨rfl, rfl⟩
  | concat h => rcases h with rfl | rfl <;> exact ⟨rfl, rfl⟩
  | arithmetic w => cases w <;> exact ⟨rfl, rfl⟩
  | logic w ha hb => rcases ha with rfl | rfl <;> rcases hb with rfl | rfl <;> exact ⟨rfl, rfl⟩
  | negate h => rcases h with rfl | rfl <;> exact ⟨rfl, rfl⟩
  | @onPath t h => cases t <;> first | exact ⟨rfl, rfl⟩ | simp at h
  | entry h => rcases h with rfl | rfl <;> exact ⟨rfl, rfl⟩
  | exit => cases data
  | _ => exact ⟨rfl, rfl⟩

theorem hasEffect_tool {t : Tool} {kinds results : List Kind}
    (h : t.results? kinds = some results) :
    (Word.tool t).HasEffect kinds.reverse results.reverse := by
  cases t with
  | download =>
    match kinds, h with
    | [.path, .text], h => cases h; exact .download
  | readFile =>
    match kinds, h with
    | [.path], h => cases h; exact .readFile
  | move =>
    match kinds, h with
    | [.path, .path], h => cases h; exact .move
  | copy =>
    match kinds, h with
    | [.path, .path], h => cases h; exact .copy
  | unzip =>
    match kinds, h with
    | [.path, .path], h => cases h; exact .unzip
  | fileAt =>
    match kinds, h with
    | [.path, .int], h => cases h; exact .entry (.inl rfl)
  | dirAt =>
    match kinds, h with
    | [.path, .int], h => cases h; exact .entry (.inr rfl)
  | _ =>
    match kinds, h with
    | [.path], h => cases h; exact .onPath (by decide)

theorem hasEffect_logic {w : Logic} {a b : Kind} {results : List Kind}
    (h : (if a = .path ∨ b = .path then none else some [Kind.int]) = some results) :
    (Word.logic w).HasEffect [a, b] results.reverse := by
  split at h
  · cases h
  · rename_i conditions
    cases h
    exact .logic w (Kind.isCondition_iff.2 fun path => conditions (.inl path))
      (Kind.isCondition_iff.2 fun path => conditions (.inr path))

theorem hasEffect_negate {a : Kind} {results : List Kind}
    (h : (if a = .path then none else some [Kind.int]) = some results) :
    Word.negate.HasEffect [a] results.reverse := by
  split at h
  · cases h
  · rename_i condition
    cases h
    exact .negate (Kind.isCondition_iff.2 condition)

theorem hasEffect_convert {w : Conversion} {kinds results : List Kind}
    (h : (Word.convert w).results? kinds = some results) :
    (Word.convert w).HasEffect kinds.reverse results.reverse := by
  cases w with
  | toText =>
    match kinds, h with
    | [_], h => cases h; exact .toText _
  | toPath =>
    match kinds, h with
    | [.text], h => cases h; exact .toPath
  | absolute =>
    match kinds, h with
    | [.text], h => cases h; exact .absolute (.inl rfl)
    | [.path], h => cases h; exact .absolute (.inr rfl)
  | relative =>
    match kinds, h with
    | [.text], h => cases h; exact .relative (.inl rfl)
    | [.path], h => cases h; exact .relative (.inr rfl)
  | concat =>
    match kinds, h with
    | [.text, .text], h => cases h; exact .concat (.inl rfl)
    | [.text, .path], h => cases h; exact .concat (.inr rfl)

theorem hasEffect_access {w : Access} {kinds results : List Kind}
    (h : (Word.access w).results? kinds = some results) :
    (Word.access w).HasEffect kinds.reverse results.reverse := by
  cases w with
  | store =>
    match kinds, h with
    | [.text, .int], h => cases h; exact .store
  | load =>
    match kinds, h with
    | [.text], h => cases h; exact .load

theorem hasEffect_arithmetic {w : Arithmetic} {kinds results : List Kind}
    (h : (Word.arithmetic w).results? kinds = some results) :
    (Word.arithmetic w).HasEffect kinds.reverse results.reverse := by
  cases w with
  | add =>
    match kinds, h with
    | [.text, .text], h => cases h; exact .addText
    | [.int, .text], h => cases h; exact .addInt
    | [.int, .int], h => cases h; exact .arithmetic _
  | _ =>
    match kinds, h with
    | [.int, .int], h => cases h; exact .arithmetic _

theorem hasEffect_shuffle {w : Shuffle} {kinds results : List Kind}
    (h : (Word.shuffle w).results? kinds = some results) :
    (Word.shuffle w).HasEffect kinds.reverse results.reverse := by
  cases w with
  | dup =>
    match kinds, h with
    | [_], h => cases h; exact .dup _
  | drop =>
    match kinds, h with
    | [_], h => cases h; exact .drop _
  | swap =>
    match kinds, h with
    | [_, _], h => cases h; exact .swap _ _
  | «over» =>
    match kinds, h with
    | [_, _], h => cases h; exact .over _ _
  | dup2 =>
    match kinds, h with
    | [_, _], h => cases h; exact .dup2 _ _
  | swap2 =>
    match kinds, h with
    | [_, _, _, _], h => cases h; exact .swap2 _ _ _ _

/-- Every effect that the check knows is one of the rules. -/
theorem hasEffect_of_results {op : Word} {kinds results : List Kind} (data : op.isData = true)
    (h : op.results? kinds = some results) : op.HasEffect kinds.reverse results.reverse := by
  cases op with
  | print =>
    match kinds, h with
    | [_], h => cases h; exact .print _
  | convert w => exact hasEffect_convert h
  | access w => exact hasEffect_access h
  | arithmetic w => exact hasEffect_arithmetic h
  | count w =>
    match kinds, h with
    | [.int], h => cases h; exact .count w
  | shuffle w => exact hasEffect_shuffle h
  | mark m => cases data
  | leave l => cases data
  | compare w =>
    match kinds, h with
    | [.int, .int], h => cases h; exact .compareInts w
    | [.text, .text], h => cases h; exact .compareTexts w
  | bitwise w =>
    match kinds, h with
    | [.int, .int], h => cases h; exact .bitwise w
  | complement =>
    match kinds, h with
    | [.int], h => cases h; exact .complement
  | logic w =>
    match kinds, h with
    | [_, _], h => exact hasEffect_logic h
  | negate =>
    match kinds, h with
    | [_], h => exact hasEffect_negate h
  | tool t => exact hasEffect_tool h

/-- The words with an effect are those that only work on values, and `exit`. -/
theorem HasEffect.isData {op : Word} {before after : List Kind} (h : op.HasEffect before after) :
    op.isData = true ∨ op = .leave .exit := by
  cases h with
  | exit => exact .inr rfl
  | _ => exact .inl rfl

/-- A word that finds its operands leaves its results in their place. -/
theorem retype_of_hasEffect {op : Word} {before after : List Kind} {i : Nat} {s : Shape}
    (h : op.HasEffect before after) (data : op.isData = true) :
    op.retype i (before.reverse ++ s) = .ok (after.reverse ++ s) := by
  obtain ⟨results, arity⟩ := h.results data
  have length : before.reverse.length = op.arity := by rw [List.length_reverse, arity]
  have enough : ¬(before.reverse ++ s).length < op.arity := by
    rw [List.length_append]
    omega
  rw [retype, if_neg enough, List.take_left' length, List.drop_left' length, results]

end Word

namespace Typing.Walk

variable {program : Program} {o : Option Procedure} {w w' : Walk} {i : Nat}

/-! ## Steps of the check for single tokens -/

theorem step_word {op : Word} (data : op.isData = true) :
    w.step program o i { token := .word op } =
      op.retype i w.shape >>= fun shape => .ok { w with shape } := by
  cases op with
  | mark m => cases data
  | leave l => cases data
  | _ => rfl

/-- A word that finds its operands is accepted. -/
theorem step_of_hasEffect {op : Word} {before after : List Kind} {s : Shape}
    (effect : op.HasEffect before after) (shape : w.shape = before.reverse ++ s) :
    w.step program o i { token := .word op } = .ok { w with shape := after.reverse ++ s } := by
  rcases effect.isData with data | rfl
  · rw [step_word data, shape, Word.retype_of_hasEffect effect data]
    rfl
  · cases effect
    obtain ⟨found, previews, returned⟩ := w
    obtain rfl : found = s := shape
    rfl

/-- A word that the check accepts has an effect, unless it is a return. -/
theorem hasEffect_of_step {op : Word} (plain : (Token.word op).isPlain = true)
    (returns : ∀ l, op = .leave l → l = .exit)
    (h : w.step program o i { token := .word op } = .ok w') :
    ∃ before after s, op.HasEffect before after ∧ w.shape = before.reverse ++ s ∧
      w' = { w with shape := after.reverse ++ s } := by
  by_cases data : op.isData = true
  · rw [step_word data] at h
    obtain ⟨shape, retyped, saved⟩ := bind_ok h
    obtain ⟨kinds, -, results, rfl⟩ := Word.retype_ok retyped
    refine ⟨_, _, w.shape.drop op.arity, Word.hasEffect_of_results data results, ?_, ?_⟩
    · rw [List.reverse_reverse, List.take_append_drop]
    · rw [List.reverse_reverse]
      exact (Except.ok.inj saved).symm
  · cases op with
    | mark m => cases plain
    | leave l =>
      obtain rfl := returns l rfl
      exact ⟨[], [], w.shape, .exit, rfl, (Except.ok.inj h).symm⟩
    | _ => exact absurd rfl data

/-- A call that finds the inputs is accepted. -/
theorem step_of_call {name : String} {p : Procedure} {s : Shape}
    (found : program.procedure? name = some p)
    (shape : w.shape = p.signature.inputs.reverse ++ s) :
    w.step program o i { token := .name name } =
      .ok { w with shape := p.signature.outputs.reverse ++ s } := by
  have length : p.signature.inputs.reverse.length = p.signature.inputs.length :=
    List.length_reverse
  have enough : ¬(p.signature.inputs.reverse ++ s).length < p.signature.inputs.length := by
    rw [List.length_append, length]
    omega
  have taken : take name i p.signature.inputs.length w.shape =
      .ok (p.signature.inputs.reverse, s) := by
    rw [shape, take, if_neg enough, List.take_left' length, List.drop_left' length]
  change w.call program i name = _
  simp only [call, found, taken]
  exact if_pos (List.reverse_reverse _)

theorem retype_of_condition {m : Mark} (hm : m = .onTrue ∨ m = .onFalse ∨ m = .test) {c : Kind}
    {s : Shape} (condition : c.IsCondition) : (Word.mark m).retype i (c :: s) = .ok s := by
  rcases hm with rfl | rfl | rfl <;> rcases condition with rfl | rfl <;> rfl

/-- A branch that finds a condition is accepted. -/
theorem step_of_branch {k : BranchKind} {n : Nat} {c : Kind} {s : Shape} {previews : List Preview}
    (condition : c.IsCondition) :
    (⟨c :: s, previews, false⟩ : Walk).step program o i
        { token := k.mark.token, next := some n } =
      .ok ⟨s, ⟨s, k.mark.token, i, false⟩ :: previews, false⟩ := by
  have retyped : (Word.mark k.mark).retype i (c :: s) = .ok s :=
    retype_of_condition (by cases k <;> simp [BranchKind.mark]) condition
  have branched : (⟨c :: s, previews, false⟩ : Walk).step program o i
      { token := k.mark.token, next := some n } = branch ⟨c :: s, previews, false⟩ k.mark i := by
    cases k <;> rfl
  rw [branched, branch, retyped]
  rfl

theorem compare_of_eq {m : Mark} {p : Preview} (same : w.shape = p.shape) :
    w.compare m i p = .ok () :=
  if_pos same

/-- The test of a loop is accepted if its header gives back the shape it found, with a condition on
top. -/
theorem step_of_test {k : LoopKind} {n header : Nat} {role : Role} {c : Kind} {s : Shape}
    {previews : List Preview} (condition : c.IsCondition) :
    (⟨c :: s, ⟨s, k.mark.token, header, false⟩ :: previews, false⟩ : Walk).step program o i
        { token := Mark.test.token, next := some n, role } =
      .ok ⟨s, ⟨s, Mark.test.token, i, false⟩ :: previews, false⟩ := by
  have retyped : (Word.mark .test).retype i (c :: s) = .ok s :=
    retype_of_condition (by simp) condition
  have cause : k.mark.token = Mark.whileTrue.token ∨ k.mark.token = Mark.untilTrue.token := by
    cases k <;> simp [LoopKind.mark]
  change test _ i = _
  unfold test
  rw [retyped]
  change (if _ then _ else _) = _
  rw [if_pos cause, compare_of_eq rfl]
  rfl

/-- The word between two arms is accepted. -/
theorem step_of_otherwise {k : BranchKind} {n opener : Nat} {s t : Shape}
    {previews : List Preview} :
    (⟨t, ⟨s, k.mark.token, opener, false⟩ :: previews, false⟩ : Walk).step program o i
        { token := Mark.otherwise.token, next := some n } =
      .ok ⟨s, ⟨t, Mark.otherwise.token, i, false⟩ :: previews, false⟩ := by
  have cause : k.mark.token = Mark.onTrue.token ∨ k.mark.token = Mark.onFalse.token := by
    cases k <;> simp [BranchKind.mark]
  exact if_pos cause

/-- An `end` is accepted where two paths of one shape meet. -/
theorem step_of_close {next : Option Nat} {role : Role} {s : Shape} {cause : Token}
    {opener : Nat} {previews : List Preview} (joined : joins cause = true) :
    (⟨s, ⟨s, cause, opener, false⟩ :: previews, false⟩ : Walk).step program o i
        { token := Mark.close.token, next, role } = .ok ⟨s, previews, false⟩ := by
  change close _ i = _
  unfold close
  change (if _ then _ else _) = _
  rw [if_pos joined, compare_of_eq rfl]
  refine congrArg Except.ok ?_
  split <;> rfl

end Typing.Walk

end Chore
