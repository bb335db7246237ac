import Chore.Proofs.Block.HoistedRun
import Chore.Proofs.Typing.Decides

/-!
# The check of a program with a hoisted declaration

The check does not depend on where a declaration stands either. An index only shows in the errors of
the check and in the saved shapes, so a step at another index fails or comes to the same shapes
(`Walk.agrees_step`). Where the check comes to in a program, it comes to in the program with the
declaration at the front (`reaches_hoisted`), and so the two are accepted together
(`check_hoisted`).
-/

set_option autoImplicit false

namespace Chore.Typing

open Block

/-- Both fail, or both come to a result and the results are related. -/
def Alike {α β : Type} (r : α → β → Prop) :
    Except TypeError α → Except TypeError β → Prop
  | .ok a, .ok b => r a b
  | .error _, .error _ => True
  | _, _ => False

section Alike

variable {α β γ δ : Type} {r : α → β → Prop} {q : γ → δ → Prop}

theorem Alike.bind {x : Except TypeError α} {y : Except TypeError β} {k : α → Except TypeError γ}
    {l : β → Except TypeError δ} (h : Alike r x y) (g : ∀ a b, r a b → Alike q (k a) (l b)) :
    Alike q (x >>= k) (y >>= l) := by
  cases x with
  | error e =>
    cases y with
    | error e' => exact h
    | ok b => exact h.elim
  | ok a =>
    cases y with
    | error e' => exact h.elim
    | ok b => exact g a b h

/-- One of two results, whichever the same condition chooses. -/
theorem Alike.ite {c : Prop} [Decidable c] {x x' : Except TypeError α} {y y' : Except TypeError β}
    (h : Alike r x y) (g : Alike r x' y') :
    Alike r (if c then x else x') (if c then y else y') := by
  by_cases hc : c
  · rwa [if_pos hc, if_pos hc]
  · rwa [if_neg hc, if_neg hc]

theorem Alike.of_ok {x : Except TypeError α} {y : Except TypeError β} {a : α} (h : Alike r x y)
    (ok : x = .ok a) : ∃ b, y = .ok b ∧ r a b := by
  subst ok
  cases y with
  | error e => exact h.elim
  | ok b => exact ⟨b, rfl, h⟩

theorem Alike.ok_of {x : Except TypeError α} {y : Except TypeError β} {b : β} (h : Alike r x y)
    (ok : y = .ok b) : ∃ a, x = .ok a := by
  subst ok
  cases x with
  | error e => exact h.elim
  | ok a => exact ⟨a, rfl⟩

theorem alike_retype (op : Word) (i j : Nat) (shape : Shape) :
    Alike Eq (op.retype i shape) (op.retype j shape) := by
  refine .ite trivial ?_
  cases op.results? (shape.take op.arity) with
  | none => trivial
  | some kinds => rfl

theorem alike_take (op : String) (i j n : Nat) (shape : Shape) :
    Alike Eq (take op i n shape) (take op j n shape) :=
  .ite trivial rfl

end Alike

/-- The same saved shape, of an instruction at another index. -/
def Preview.rename (f : Nat → Nat) (p : Preview) : Preview :=
  { p with causeIndex := f p.causeIndex }

namespace Walk

/-- The same walk at other indices. -/
def rename (f : Nat → Nat) (w : Walk) : Walk :=
  { w with previews := w.previews.map (Preview.rename f) }

variable {f : Nat → Nat} {program program' : Program} {o : Option Procedure} {w : Walk} {i j : Nat}

/-- The results of a step: both fail, or the walks are the same at other indices. -/
def Agrees (f : Nat → Nat) : Except TypeError Walk → Except TypeError Walk → Prop :=
  Alike fun w w' => w' = w.rename f

theorem alike_innermost (m : Mark) :
    Alike (fun r r' => r' = (r.1.rename f, r.2.map (Preview.rename f))) (w.innermost m i)
      ((w.rename f).innermost m j) := by
  unfold innermost rename
  cases w.previews with
  | nil => trivial
  | cons p ps => rfl

theorem alike_compare (m : Mark) (p : Preview) :
    Alike Eq (w.compare m i p) ((w.rename f).compare m j (p.rename f)) :=
  .ite rfl trivial

theorem alike_returns (p : Procedure) (shape : Shape) :
    Alike Eq (returns p i shape) (returns (p.rename f) j shape) :=
  .ite rfl trivial

theorem agrees_branch (m : Mark) : Agrees f (w.branch m i) ((w.rename f).branch m (f i)) := by
  refine (alike_retype _ i (f i) w.shape).bind ?_
  rintro shape _ rfl
  rfl

theorem agrees_test : Agrees f (w.test i) ((w.rename f).test (f i)) := by
  refine (alike_retype _ i (f i) w.shape).bind ?_
  rintro shape _ rfl
  refine (alike_innermost .test).bind ?_
  rintro ⟨p, previews⟩ _ rfl
  refine .ite (.ite ?_ rfl) trivial
  exact (alike_compare .test p).bind fun _ _ _ => rfl

theorem agrees_otherwise : Agrees f (w.otherwise i) ((w.rename f).otherwise (f i)) := by
  refine (alike_innermost .otherwise).bind ?_
  rintro ⟨p, previews⟩ _ rfl
  exact .ite rfl trivial

theorem agrees_close : Agrees f (w.close i) ((w.rename f).close (f i)) := by
  refine (alike_innermost .close).bind ?_
  rintro ⟨p, previews⟩ _ rfl
  obtain ⟨shape, saved, returned⟩ := w
  refine .ite (.ite ((alike_compare .close p).bind fun _ _ _ => ?_) ?_) trivial
  all_goals
    change (if p.cause = Mark.test.token then _ else _) = rename f (if _ then _ else _)
    cases returned <;> split <;> rfl

/-- A call looks at the signature only. -/
theorem agrees_call (found : ∀ name, program'.procedure? name =
      (program.procedure? name).map (Procedure.rename f)) (name : String) :
    Agrees f (w.call program i name) ((w.rename f).call program' (f i) name) := by
  unfold call
  rw [found]
  cases program.procedure? name with
  | none => trivial
  | some p =>
    refine (alike_take name i (f i) _ w.shape).bind ?_
    rintro ⟨taken, rest⟩ _ rfl
    exact .ite rfl trivial

/-- The literals in front of an index of a body are those in front of the other. -/
def SameCounts (f : Nat → Nat) (program program' : Program) (o : Option Procedure) (i : Nat) :
    Prop :=
  ∀ p, o = some p → ∀ back,
    literalCount? program' (p.rename f) (f i) back = literalCount? program p i back

theorem alike_dropRet {p : Procedure} (same : SameCounts f program program' (some p) i)
    (shape : Shape) :
    Alike Eq (dropRet program p i shape) (dropRet program' (p.rename f) (f i) shape) := by
  unfold dropRet
  rw [same p rfl]
  cases literalCount? program p i 1 with
  | none => trivial
  | some drop =>
    refine (alike_take _ i (f i) 1 shape).bind ?_
    rintro ⟨_, shape⟩ _ rfl
    refine (alike_take _ i (f i) drop shape).bind ?_
    rintro ⟨_, shape⟩ _ rfl
    rfl

theorem alike_keepRet {p : Procedure} (same : SameCounts f program program' (some p) i)
    (shape : Shape) :
    Alike Eq (keepRet program p i shape) (keepRet program' (p.rename f) (f i) shape) := by
  unfold keepRet
  rw [same p rfl, same p rfl]
  cases literalCount? program p i 1 with
  | none => trivial
  | some drop =>
    cases literalCount? program p i 2 with
    | none => trivial
    | some keep =>
      refine (alike_take _ i (f i) 2 shape).bind ?_
      rintro ⟨_, shape⟩ _ rfl
      refine (alike_take _ i (f i) keep shape).bind ?_
      rintro ⟨kept, shape⟩ _ rfl
      refine (alike_take _ i (f i) drop shape).bind ?_
      rintro ⟨_, shape⟩ _ rfl
      rfl

theorem agrees_leave (same : SameCounts f program program' o i) (l : Leave) :
    Agrees f (w.leave program o i l)
      ((w.rename f).leave program' (o.map (Procedure.rename f)) (f i) l) := by
  cases o with
  | none => cases l <;> trivial
  | some p =>
    cases l with
    | exit => rfl
    | ret => exact (alike_returns p w.shape).bind fun _ _ _ => rfl
    | dropRet =>
      refine (alike_dropRet same w.shape).bind ?_
      rintro shape _ rfl
      exact (alike_returns p shape).bind fun _ _ _ => rfl
    | keepRet =>
      refine (alike_keepRet same w.shape).bind ?_
      rintro shape _ rfl
      exact (alike_returns p shape).bind fun _ _ _ => rfl

/-- **A step at another index** fails too, or comes to the same shapes. -/
theorem agrees_step (found : ∀ name, program'.procedure? name =
      (program.procedure? name).map (Procedure.rename f))
    (same : SameCounts f program program' o i) (instr : Instr) :
    Agrees f (w.step program o i instr)
      ((w.rename f).step program' (o.map (Procedure.rename f)) (f i) (instr.rename f)) := by
  have data (op : Word) : Agrees f (do return { w with shape := ← op.retype i w.shape })
      (do return { w.rename f with shape := ← op.retype (f i) (w.rename f).shape }) := by
    refine (alike_retype op i (f i) w.shape).bind ?_
    rintro shape _ rfl
    rfl
  unfold step
  rw [show (instr.rename f).next.isNone = instr.next.isNone from Option.isNone_map]
  refine .ite trivial ?_
  obtain ⟨token, next, role⟩ := instr
  cases token with
  | literal v => rfl
  | header sig => trivial
  | name name => exact agrees_call found name
  | word op =>
    cases op with
    | leave l => exact agrees_leave same l
    | mark m =>
      cases m with
      | onTrue => exact agrees_branch .onTrue
      | onFalse => exact agrees_branch .onFalse
      | whileTrue => rfl
      | untilTrue => rfl
      | test => exact agrees_test
      | otherwise => exact agrees_otherwise
      | close => exact agrees_close
    | _ => exact data _

end Walk

/-! ## Where the check comes to -/

variable {b b' : Block} {program program' : Program} {o : Option Procedure} {p : Procedure}
  {w : Walk} {sig : Signature} {g n i : Nat}

/-- The check outside of procedures never comes into one. -/
theorem Reaches.not_inside (proper : b.Proper) (reached : Reaches b.program none i w) :
    ¬b.program.Inside i := by
  generalize outside : none = o at reached
  induction reached with
  | start =>
    rintro ⟨p, hp, covers⟩
    exact absurd ((covers_bounds proper hp).2 0 covers).1 (Nat.lt_irrefl 0)
  | enter => cases outside
  | step _ _ fetched stepped ih =>
    have zones := zoned proper fetched
    have same := zones.next (fun sig header => Walk.step_header header stepped)
      fun _ ends => ih outside (zones.inside ends)
    rw [← same.inside_iff]
    exact ih outside
  | skip _ fetched _ next ih =>
    rw [← ((zoned proper fetched).jump _ next).1.inside_iff]
    exact ih outside

/-- The check of a procedure stays in it. -/
theorem Reaches.covers (proper : b.Proper) (reached : Reaches b.program (some p) i w) :
    p ∈ b.program.procedures ∧ p.Covers i := by
  generalize inside : some p = o at reached
  induction reached with
  | start => cases inside
  | enter declared =>
    obtain rfl := Option.some.inj inside
    exact ⟨declared, (covers_bounds proper declared).1⟩
  | step _ bounds _ _ ih =>
    obtain ⟨declared, start, -⟩ := ih inside
    exact ⟨declared, Nat.le_succ_of_le start, bounds p inside.symm⟩
  | skip => cases inside

section Hoists

variable (proper : b.Proper) (h : Hoists g n sig b.program program')

include proper h

/-- A body has the same literals in front of its instructions wherever it is. -/
theorem Reaches.sameCounts (reached : Reaches b.program o i w) :
    Walk.SameCounts (hoisted g n) b.program program' o i := by
  rintro p rfl back
  obtain ⟨declared, covers⟩ := reached.covers proper
  have here := (h.straight declared covers.1 covers.2).2
  have start : p.start ≤ i := covers.1
  have stop : i ≤ p.stop := covers.2
  have there : (p.rename (hoisted g n)).start = hoisted g n p.start := rfl
  unfold Walk.literalCount?
  by_cases within : back ≤ i ∧ p.start ≤ i - back
  · obtain ⟨other, place⟩ := h.straight declared within.2 (by omega)
    have index : hoisted g n i - back = hoisted g n (i - back) := by omega
    rw [if_pos within, if_pos (by omega), index, h.getElem? other]
    cases b.program.instructions[i - back]? with
    | none => rfl
    | some instr =>
      obtain ⟨token, next, role⟩ := instr
      cases token with
      | literal v => cases v <;> rfl
      | _ => rfl
  · rw [if_neg within, if_neg (by omega)]

/-- The body of a procedure ends where its end went. -/
theorem Reaches.bounds_hoisted (reached : Reaches b.program o i w) (bounds : Bounds o (i + 1)) :
    Bounds (o.map (Procedure.rename (hoisted g n))) (hoisted g n i + 1) := by
  intro q inside
  obtain ⟨p, rfl, rfl⟩ := Option.map_eq_some_iff.1 inside
  obtain ⟨declared, covers⟩ := reached.covers proper
  have here := (h.straight declared covers.1 covers.2).2
  have stop := (h.straight declared (Nat.le_trans covers.1 covers.2) (Nat.le_refl _)).2
  have start : p.start ≤ i := covers.1
  have bound : i + 1 ≤ p.stop := bounds p rfl
  have there : (p.rename (hoisted g n)).stop = hoisted g n p.stop := rfl
  omega

/-- **Where the check comes to** in a program, it comes to with the declaration at the front. -/
theorem reaches_hoisted (reached : Reaches b.program o i w) :
    Reaches program' (o.map (Procedure.rename (hoisted g n))) (hoisted g n i)
      (w.rename (hoisted g n)) := by
  induction reached with
  | start =>
    rw [hoisted_front (Nat.zero_le g), Nat.zero_add]
    exact .skip .start h.header' rfl rfl
  | enter declared => exact .enter (h.mem declared)
  | @step o i w w' instr reached bounds fetched stepped ih =>
    have other : i ≠ g := by
      rintro rfl
      obtain rfl := Option.some.inj (h.header.symm.trans fetched)
      exact Walk.step_header rfl stepped
    -- nothing is stepped over at the end of the declaration: outside of it the check does not come
    -- there, and inside the body is over
    have next : hoisted g n (i + 1) = hoisted g n i + 1 := by
      cases o with
      | none =>
        refine hoisted_succ other fun last => reached.not_inside proper ?_
        have long := h.long
        have close := h.close
        rw [show g + n - 1 = i by omega] at close
        exact (zoned proper close).inside rfl
      | some p =>
        obtain ⟨declared, covers⟩ := reached.covers proper
        have start : p.start ≤ i := covers.1
        have here := (h.straight declared start covers.2).2
        have there := (h.straight declared (i := i + 1) (by omega) (bounds p rfl)).2
        omega
    have same := reached.sameCounts proper h
    obtain ⟨_, stepped', rfl⟩ := (Walk.agrees_step h.found same instr).of_ok stepped
    rw [next]
    exact .step ih (reached.bounds_hoisted proper h bounds) (h.instr other fetched) stepped'
  | @skip i m w instr sig reached fetched header next ih =>
    by_cases here : i = g
    · -- the header of the declaration, which the other check has passed
      subst here
      obtain rfl := Option.some.inj (h.header.symm.trans fetched)
      obtain rfl := Option.some.inj next
      have long := h.long
      rw [hoisted_front (Nat.le_refl i)] at ih
      rwa [hoisted_behind (by omega) (Nat.le_refl _)]
    · exact .skip ih (h.instr here fetched) header (congrArg (Option.map (hoisted g n)) next)

/-- The check goes on from wherever it comes to if it does so with the declaration at the front. -/
theorem smooth_hoisted (smooth : ∀ o, Smooth program' o) : Smooth b.program o := by
  intro i w instr reached bounds fetched
  have token := (resolved_of_getElem? proper fetched).token
  by_cases header : ∃ sig, instr.token = .header sig
  · right
    obtain ⟨sig, header⟩ := header
    rw [header] at token
    cases o with
    | none => exact ⟨rfl, sig, header⟩
    | some p =>
      obtain ⟨declared, covers⟩ := reached.covers proper
      exact absurd covers (not_covers_header proper declared token)
  · left
    have other : i ≠ g := by
      rintro rfl
      obtain rfl := Option.some.inj (h.header.symm.trans fetched)
      exact header ⟨_, rfl⟩
    rcases smooth _ _ _ _ (reaches_hoisted proper h reached) (reached.bounds_hoisted proper h bounds)
      (h.instr other fetched) with ⟨w', stepped⟩ | ⟨-, header'⟩
    · exact (Walk.agrees_step h.found (reached.sameCounts proper h) instr).ok_of stepped
    · exact absurd header' header

end Hoists

/-- The check of a procedure, or of what is outside of all, comes to its end: every block is closed,
and a body has the declared outputs unless it has returned. -/
def Completes (program : Program) (o : Option Procedure) : Prop :=
  ∃ w, Reaches program o (limitOf program o) w ∧ w.previews = [] ∧
    ∀ p, o = some p → w.returned = false → w.shape = p.signature.outputs.reverse

/-- The check that goes on from wherever it comes to comes to its end. -/
theorem Smooth.ends (proper : b.Proper) (smooth : Smooth b.program o)
    (known : ∀ p, o = some p → p ∈ b.program.procedures) :
    ∃ w, Reaches b.program o (limitOf b.program o) w ∧ w.previews = [] := by
  have stands := standsAt_program proper
  cases o with
  | none =>
    obtain ⟨w, reached, closed, -⟩ := smooth.through stands nofun .start
    rw [Nat.zero_add, ← b.size_program] at reached
    exact ⟨w, reached, closed⟩
  | some p =>
    have declared := known p rfl
    rw [show b.program.procedures = _ from b.procedures_eq 0] at declared
    obtain ⟨d, hd, rfl⟩ := List.mem_map.1 declared
    obtain ⟨w, reached, closed, -⟩ := smooth.through (stands_of_mem_declarations stands hd).body
      (bounds_procedure d) (.enter (known _ rfl))
    exact ⟨w, reached, closed⟩

/-- A linked program is accepted exactly if the check of each of its parts comes to its end. -/
theorem check_iff_completes (wellFormed : b.WellFormed) :
    check b.program = .ok () ↔
      Completes b.program none ∧ ∀ p ∈ b.program.procedures, Completes b.program (some p) := by
  constructor
  · intro checked
    have accepted : Accepted b.program := ⟨⟨b, wellFormed, rfl⟩, checked⟩
    have complete (o : Option Procedure) (known : ∀ p, o = some p → p ∈ b.program.procedures) :
        Completes b.program o := by
      obtain ⟨w, reached, closed⟩ := (accepted.smooth o).ends wellFormed.proper known
      refine ⟨w, reached, closed, ?_⟩
      rintro p rfl live
      exact accepted.outputs reached live
    refine ⟨complete none nofun, fun p hp => complete (some p) ?_⟩
    rintro q ⟨⟩
    exact hp
  · rintro ⟨⟨w, reached, closed, -⟩, bodies⟩
    refine check_of_reaches (headersPass_of_bodies wellFormed fun p hp => ?_) reached closed
    obtain ⟨w, reached, closed, outputs⟩ := bodies p hp
    exact checkProcedure_of_reaches reached closed (outputs p rfl)

/-- What comes to its end does so with the declaration at the front. -/
theorem completes_hoisted (proper : b.Proper) (h : Hoists g n sig b.program b'.program)
    (complete : Completes b.program o) :
    Completes b'.program (o.map (Procedure.rename (hoisted g n))) := by
  obtain ⟨w, reached, closed, outputs⟩ := complete
  refine ⟨w.rename (hoisted g n), ?_, ?_, ?_⟩
  · have reached' := reaches_hoisted proper h reached
    cases o with
    | some p => exact reached'
    | none =>
      have behind := h.hoisted_size (Nat.le_refl _)
      rw [limitOf, behind, ← h.size] at reached'
      exact reached'
  · change w.previews.map _ = []
    rw [closed]
    rfl
  · rintro q same
    obtain ⟨p, rfl, rfl⟩ := Option.map_eq_some_iff.1 same
    exact outputs p rfl

/-- **The check accepts both programs or neither.** -/
theorem check_hoisted (wellFormed : b.WellFormed) (wellFormed' : b'.WellFormed)
    (h : Hoists g n sig b.program b'.program) :
    check b.program = .ok () ↔ check b'.program = .ok () := by
  have proper := wellFormed.proper
  constructor
  · intro checked
    obtain ⟨outside, bodies⟩ := (check_iff_completes wellFormed).1 checked
    refine (check_iff_completes wellFormed').2 ⟨completes_hoisted proper h outside, fun q hq => ?_⟩
    have found := (procedure?_eq_some_iff wellFormed').2 ⟨hq, rfl⟩
    rw [h.found] at found
    obtain ⟨p, found, rfl⟩ := Option.map_eq_some_iff.1 found
    exact completes_hoisted proper h (bodies p ((procedure?_eq_some_iff wellFormed).1 found).1)
  · intro checked'
    have accepted : Accepted b'.program := ⟨⟨b', wellFormed', rfl⟩, checked'⟩
    have complete (o : Option Procedure) (known : ∀ p, o = some p → p ∈ b.program.procedures) :
        Completes b.program o := by
      obtain ⟨w, reached, closed⟩ := (smooth_hoisted proper h accepted.smooth).ends proper known
      refine ⟨w, reached, closed, ?_⟩
      rintro p rfl live
      have there : Reaches b'.program (some (p.rename (hoisted g n))) (hoisted g n p.stop)
        (w.rename (hoisted g n)) := reaches_hoisted proper h reached
      have outputs := accepted.outputs there live
      exact outputs
    refine (check_iff_completes wellFormed).2 ⟨complete none nofun, fun p hp => complete (some p) ?_⟩
    rintro q ⟨⟩
    exact hp

/-! ## The theorem -/

open Machine

/-- **The order of declarations does not matter.** Take a token list that can be linked and any
declaration in it, however deep in branches and loops; its body is in the grammar, so the `end`
behind it is the one that belongs to its header. The list with the declaration at the front can be
linked as well, and the check accepts one program exactly if it accepts the other. Runs of the
two on any host, with the same limit on the stacks, that are not cut short by their limits on
instructions end with the same stack, the same variables and the same outside world, and either both
without an error or with the same fault at the same token, which `hoisted` follows to where it went.

The host is arbitrary. It may keep whatever it is asked and told in its world, so the runs also make
the same requests and print the same texts in the same order. -/
theorem declaration_order_immaterial {A B body : List Token} {sig : Signature} {program : Program}
    (linked : Program.ofTokens (A ++ declarationTokens sig body ++ B) = .ok program)
    (inside : Grammar body) :
    ∃ program', Program.ofTokens (declarationTokens sig body ++ A ++ B) = .ok program' ∧
      (check program = .ok () ↔ check program' = .ok ()) ∧
      ∀ {ω τ τ' : Type} (host : Host ω) (limit steps steps' : Nat) (watch : Watch τ)
        (watch' : Watch τ') (world : ω) (seen : τ) (seen' : τ'),
        Patient watch → Patient watch' →
        let r := runProgram program host ⟨limit, steps⟩ watch world seen
        let r' := runProgram program' host ⟨limit, steps'⟩ watch' world seen'
        (∀ counter, r.error? ≠ some (.tooLong counter)) →
        (∀ counter, r'.error? ≠ some (.tooLong counter)) →
          r'.state.store.stack = r.state.store.stack ∧
          r'.state.store.memory = r.state.store.memory ∧
          r'.state.store.world = r.state.store.world ∧
          ((r.error? = none ∧ r'.error? = none) ∨
            ∃ token i counter counter' fault, i ≠ A.length ∧
              (A ++ declarationTokens sig body ++ B)[i]? = some token ∧
              r.error? = some (.instructionFailed token i counter fault) ∧
              r'.error? = some (.instructionFailed token
                (hoisted A.length (declarationTokens sig body).length i) counter' fault)) := by
  rw [List.append_assoc, length_declarationTokens] at *
  rw [List.append_assoc]
  obtain ⟨program', linked', hoists⟩ := exists_hoists linked inside
  obtain ⟨b, wellFormed, tokens, rfl⟩ := ofTokens_ok linked
  obtain ⟨b', wellFormed', -, rfl⟩ := ofTokens_ok linked'
  refine ⟨b'.program, linked', check_hoisted wellFormed wellFormed' hoists, ?_⟩
  intro ω τ τ' host limit steps steps' watch watch' world seen seen' patient patient' r r' long long'
  obtain ⟨store, ending⟩ :=
    runs_hoisted hoists host patient patient' world seen seen' long long'
  have stack := congrArg Store.stack store
  have memory := congrArg Store.memory store
  have outside := congrArg Store.world store
  refine ⟨stack, memory, outside, ?_⟩
  change SameEnd A.length (body.length + 2) b.program r.error? r'.error? at ending
  generalize r.error? = error?, r'.error? = error'? at ending
  cases ending with
  | finished => exact .inl ⟨rfl, rfl⟩
  | failed other fetched =>
    have token := (resolved_of_getElem? wellFormed.proper fetched).token
    rw [tokens] at token
    exact .inr ⟨_, _, _, _, _, other, token, rfl, rfl⟩

/-- A loop whose header declares the procedure it asks with: its header is passed twice, and with
the declaration at the front once. The same is asked, twice. -/
theorem declaration_order_immaterial_asks :
    let f := declarationTokens ⟨"f", [], [.int]⟩ [.literal (.path "a"), .word (.tool .exist)]
    let B := [.name "f", Mark.test.token, Mark.close.token]
    let world : World Script := { tools := { answers := [.done] } }
    ∃ program', Program.ofTokens (f ++ [Mark.whileTrue.token] ++ B) = .ok program' ∧
      check program' = .ok () ∧
      (runProgram program' (Script.tools "/").host ⟨2, 16⟩ quiet world ()).state.store.world.tools =
        { answers := [], asked := [.pathExists "a", .pathExists "a"] } := by
  intro f B world
  have inside : Grammar [.literal (.path "a"), .word (.tool .exist)] := .plain rfl (.plain rfl .nil)
  obtain ⟨program', linked', accepted, same⟩ :=
    @declaration_order_immaterial [Mark.whileTrue.token] B _ ⟨"f", [], [.int]⟩ _ rfl inside
  refine ⟨program', linked', accepted.1 rfl, ?_⟩
  obtain rfl := Except.ok.inj (show _ = Except.ok program' from linked')
  obtain ⟨-, -, world', -⟩ := same (Script.tools "/").host 2 18 16 quiet quiet world () ()
    (fun _ _ => rfl) (fun _ _ => rfl) (by rintro counter ⟨⟩) (by rintro counter ⟨⟩)
  rw [world']
  rfl

end Chore.Typing
