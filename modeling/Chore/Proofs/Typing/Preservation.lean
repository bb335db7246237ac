import Chore.Proofs.Machine.Path
import Chore.Proofs.Typing.Spot
import Chore.Proofs.Typing.Words

/-!
# Typed states

The machine has no frames: its stack is one list, and all it keeps of a call is the index to go
back to. `WellTyped` adds what is not there. Each pending call comes with the procedure that was
called and the values the caller keeps below the operands; the stack is what the current procedure
has of its own, of the kinds the check found at this index, on top of all that is kept.

`WellTyped.turn` is the step: an instruction takes a typed state to a typed state, with the calls
that belong to it, or fails as its token may.
-/

set_option autoImplicit false

namespace Chore.Typing

open Machine

variable {ω : Type} {c : Setup ω} {s t : State ω}

/-- A pending call: the procedure called, the index to go back to, and the values the caller keeps
below the operands. -/
structure Call where
  callee : Procedure
  back : Nat
  kept : List Value

/-- The procedure whose body is being performed, if any. -/
def current (calls : List Call) : Option Procedure :=
  calls.head?.map Call.callee

/-- The values kept by all callers, those of the latest on top. -/
def held (calls : List Call) : List Value :=
  calls.flatMap Call.kept

/-- Every pending call goes back to a spot that has the outputs on top of what is kept. -/
def Awaits (program : Program) : List Call → Prop
  | [] => True
  | call :: calls =>
    (∃ w, Spot program (current calls) call.back w ∧
      w.shape = call.callee.signature.outputs.reverse ++ call.kept.map Value.kind) ∧
    Landing program call.back ∧ Awaits program calls

/-- The machine may go on at an index with a stack: the index is a spot, and the current procedure
has values of its own of the kinds there. -/
def Fits (program : Program) (calls : List Call) (i : Nat) (stack : List Value) : Prop :=
  Fresh program i stack ∧ ∃ w own, Spot program (current calls) i w ∧
    own.map Value.kind = w.shape ∧ stack = own ++ held calls

/-- A state of the machine with the calls that are pending in it. -/
structure WellTyped (c : Setup ω) (calls : List Call) (s : State ω) : Prop where
  fits : Fits c.program calls s.ip s.store.stack.toList
  returns : s.store.calls.toList = calls.map Call.back
  awaits : Awaits c.program calls
  ints : s.store.memory.Ints

/-- What one instruction makes of a typed state. -/
inductive Turn (c : Setup ω) (calls : List Call) (s : State ω) (instr : Instr) (t : State ω) :
    Prop where
  | stays (other : ∀ name, instr.token ≠ .name name) (typed : WellTyped c calls t)
  | calls {name : String} {p : Procedure} {args kept : List Value}
      (token : instr.token = .name name) (found : c.program.procedure? name = some p)
      (inputs : args.map Value.kind = p.signature.inputs.reverse)
      (before : s.store.stack.toList = args ++ (kept ++ held calls))
      (typed : WellTyped c (⟨p, s.ip + 1, kept⟩ :: calls) t)
  | returns {call : Call} {rest : List Call} {outs : List Value}
      (other : ∀ name, instr.token ≠ .name name) (latest : calls = call :: rest)
      (back : t.ip = call.back)
      (outputs : outs.map Value.kind = call.callee.signature.outputs.reverse)
      (after : t.store.stack.toList = outs ++ (call.kept ++ held rest))
      (typed : WellTyped c rest t)
  | exits (token : instr.token = .word (.leave .exit)) (ip : t.ip = c.program.size)
      (store : t.store = s.store)

/-! ## From parts of instructions to steps -/

/-- An instruction that goes on or jumps, and leaves the pending returns alone. -/
theorem follow_of_gives {instr : Instr} {E : Fault → Prop} {P : Nat → List Value → Prop}
    (given : Gives E s.store.calls s.store.stack.toList (perform c instr) fun effect ys =>
      (effect = .next ∧ P (s.ip + 1) ys) ∨ ∃ n, effect = .jump n ∧ P n ys)
    (ints : s.store.memory.Ints) :
    match s.follow c instr with
    | .ok t => P t.ip t.store.stack.toList ∧ t.store.calls = s.store.calls ∧ t.store.memory.Ints
    | .error fault => E fault := by
  have performed := given { s.store with } ⟨rfl, rfl, ints⟩
  rw [Block.follow_eq]
  rcases hp : perform c instr { s.store with } with ⟨fault | effect, scene⟩ <;> rw [hp] at performed
  · exact performed
  · obtain ⟨ys, has, ⟨rfl, there⟩ | ⟨n, rfl, there⟩⟩ := performed
    · exact ⟨by rw [has.stack]; exact there, has.calls, has.ints⟩
    · exact ⟨by rw [has.stack]; exact there, has.calls, has.ints⟩

/-- An instruction that returns. -/
theorem follow_ret {instr : Instr} {m : Action ω Unit} {E : Fault → Prop} {Q : List Value → Prop}
    (performs : perform c instr = (m >>= fun _ => ret))
    (given : Gives E s.store.calls s.store.stack.toList m fun _ ys => Q ys)
    (ints : s.store.memory.Ints) {back : Nat} {rest : List Nat}
    (pending : s.store.calls.toList = back :: rest) :
    match s.follow c instr with
    | .ok t => t.ip = back ∧ Q t.store.stack.toList ∧ t.store.calls.toList = rest ∧
        t.store.memory.Ints
    | .error fault => E fault := by
  have unwound := given { s.store with } ⟨rfl, rfl, ints⟩
  rw [Block.follow_eq, performs, Attempt.bind_apply]
  rcases hm : m { s.store with } with ⟨fault | u, scene⟩ <;> rw [hm] at unwound
  · exact unwound
  · obtain ⟨ys, has, there⟩ := unwound
    have popped : scene.calls.pop? = some (back, .ofList rest) :=
      Stack.pop?_eq_some_iff.2 (by rw [has.calls, pending]; rfl)
    simp only [ret, popped]
    exact ⟨rfl, by rw [has.stack]; exact there, rfl, has.ints⟩

/-- A jump or a plain step between spots. -/
theorem WellTyped.stay {calls : List Call} (typed : WellTyped c calls s) {instr : Instr}
    {E : Fault → Prop} (other : ∀ name, instr.token ≠ .name name)
    (given : Gives E s.store.calls s.store.stack.toList (perform c instr) fun effect ys =>
      (effect = .next ∧ Fits c.program calls (s.ip + 1) ys) ∨
        ∃ n, effect = .jump n ∧ Fits c.program calls n ys) :
    match s.follow c instr with
    | .ok t => Turn c calls s instr t
    | .error fault => E fault := by
  have followed := follow_of_gives given typed.ints
  cases hf : s.follow c instr with
  | error fault => rwa [hf] at followed
  | ok t =>
    rw [hf] at followed
    obtain ⟨fits, same, ints⟩ := followed
    exact .stays other ⟨fits, by rw [same]; exact typed.returns, typed.awaits, ints⟩

/-- A return from the current procedure, with its outputs on top of what the caller kept. -/
theorem WellTyped.goBack {calls : List Call} (typed : WellTyped c calls s) {instr : Instr}
    {E : Fault → Prop} {m : Action ω Unit} {p : Procedure}
    (other : ∀ name, instr.token ≠ .name name) (inside : current calls = some p)
    (performs : perform c instr = (m >>= fun _ => ret))
    (given : Gives E s.store.calls s.store.stack.toList m fun _ ys =>
      ∃ outs, outs.map Value.kind = p.signature.outputs.reverse ∧ ys = outs ++ held calls) :
    match s.follow c instr with
    | .ok t => Turn c calls s instr t
    | .error fault => E fault := by
  cases calls with
  | nil => cases inside
  | cons call rest =>
    obtain rfl : call.callee = p := Option.some.inj inside
    obtain ⟨⟨w, spot, shape⟩, landing, awaits⟩ := typed.awaits
    have followed := follow_ret performs given typed.ints typed.returns
    cases hf : s.follow c instr with
    | error fault => rwa [hf] at followed
    | ok t =>
      rw [hf] at followed
      obtain ⟨back, ⟨outs, outputs, stack⟩, returns, ints⟩ := followed
      have after : t.store.stack.toList = outs ++ (call.kept ++ held rest) := stack
      refine .returns other rfl back outputs after ⟨⟨?_, w, outs ++ call.kept, ?_, ?_, ?_⟩, returns,
        awaits, ints⟩
      · rw [back]
        exact landing.fresh _
      · rw [back]
        exact spot
      · rw [List.map_append, outputs, shape]
      · rw [after, List.append_assoc]

/-! ## Each kind of instruction -/

section Kinds

variable {calls : List Call} {w : Walk} {own : List Value}

/-- Values of a shape that begins with some kinds begin with values of these kinds. -/
theorem split_own {n : Nat} (kinds : own.map Value.kind = w.shape) (enough : n ≤ w.shape.length) :
    ∃ args rest, own = args ++ rest ∧ args.length = n ∧ args.map Value.kind = w.shape.take n ∧
      rest.map Value.kind = w.shape.drop n := by
  refine ⟨own.take n, own.drop n, (List.take_append_drop n own).symm, ?_, ?_, ?_⟩
  · rw [← kinds, List.length_map] at enough
    exact List.length_take_of_le enough
  · rw [← kinds, List.map_take]
  · rw [← kinds, List.map_drop]

/-- Where `dret` is accepted its count is on top, the values it drops are below that, and what it
leaves below these. -/
theorem Fresh.dropRet {program : Program} {p : Procedure} {i : Nat} {stack below : List Value}
    {left : Shape} (fresh : Fresh program i stack) (noLoop : ¬LoopAt program i)
    (kinds : own.map Value.kind = w.shape) (same : stack = own ++ below)
    (accepted : Walk.dropRet program p i w.shape = .ok left) :
    ∃ d ds outs, own = .int d :: (ds ++ outs) ∧
      Walk.literalCount? program p i 1 = some d.toInt.toNat ∧ d.toInt = ds.length ∧
      outs.map Value.kind = left := by
  obtain ⟨drop, literal, enough, rfl⟩ := Walk.dropRet_ok accepted
  obtain ⟨args, outs, rfl, count, -, outsKinds⟩ := split_own kinds enough
  obtain ⟨d, rest, top, positive, rfl⟩ := fresh.one noLoop literal
  match args, count with
  | v :: ds, count =>
    obtain rfl : v = .int d := (List.cons.inj (same.symm.trans top)).1
    have dropped : ds.length = d.toInt.toNat := Nat.succ.inj count
    exact ⟨d, ds, outs, rfl, literal, by omega, outsKinds⟩

/-- Where `iret` is accepted its counts are on top, and below them the values it keeps, the values it
drops, and what it leaves. -/
theorem Fresh.keepRet {program : Program} {p : Procedure} {i : Nat} {stack below : List Value}
    {left : Shape} (fresh : Fresh program i stack) (noLoop : ¬LoopAt program i)
    (kinds : own.map Value.kind = w.shape) (same : stack = own ++ below)
    (accepted : Walk.keepRet program p i w.shape = .ok left) :
    ∃ d r ks ds outs, own = .int d :: .int r :: (ks ++ (ds ++ outs)) ∧
      Walk.literalCount? program p i 1 = some d.toInt.toNat ∧
      Walk.literalCount? program p i 2 = some r.toInt.toNat ∧
      d.toInt = ds.length ∧ r.toInt = ks.length ∧ (ks ++ outs).map Value.kind = left := by
  obtain ⟨drop, keep, literal, literal', enough, rfl⟩ := Walk.keepRet_ok accepted
  obtain ⟨args, outs, rfl, count, argsKinds, outsKinds⟩ := split_own kinds enough
  obtain ⟨d, r, rest, top, positive, positive', rfl, rfl⟩ := fresh.two noLoop literal literal'
  match args, count with
  | v :: u :: args, count =>
    obtain ⟨rfl, others⟩ := List.cons.inj (same.symm.trans top)
    obtain rfl : u = .int r := (List.cons.inj others).1
    have middle : args.length = r.toInt.toNat + d.toInt.toNat := Nat.succ.inj (Nat.succ.inj count)
    -- below the two counts lie the values to keep, and below these the ones to drop
    obtain ⟨ks, ds, rfl, kept, dropped⟩ : ∃ ks ds, args = ks ++ ds ∧
        ks.length = r.toInt.toNat ∧ ds.length = d.toInt.toNat :=
      ⟨args.take r.toInt.toNat, args.drop r.toInt.toNat, (List.take_append_drop _ _).symm,
        by rw [List.length_take]; omega, by rw [List.length_drop]; omega⟩
    have keptKinds : (w.shape.drop 2).take r.toInt.toNat = ks.map Value.kind := by
      rw [← kinds, ← kept]
      simp
    refine ⟨d, r, ks, ds, outs, by simp, literal, literal', by omega, by omega, ?_⟩
    rw [List.map_append, outsKinds, keptKinds]

/-- A token that only works on values. -/
theorem WellTyped.turn_work (typed : WellTyped c calls s) {token : Token} {w' : Walk}
    (kinds : own.map Value.kind = w.shape) (stack : s.store.stack.toList = own ++ held calls)
    (fetched : c.program.instructions[s.ip]? = some { token }) (data : token.isData = true)
    (stepped : w.step c.program (current calls) s.ip { token } = .ok w')
    (next : Spot c.program (current calls) (s.ip + 1) w') :
    match s.follow c { token } with
    | .ok t => Turn c calls s { token } t
    | .error fault => token.MayFail fault := by
  refine typed.stay (by rintro name rfl; cases data) ?_
  obtain ⟨-, -, ⟨v, rfl, shape⟩ | ⟨op, rfl, retyped⟩⟩ := Walk.step_data data stepped
  · refine gives_bind (gives_push c (Token.mayFail_push _)) ?_
    intro _ ys pushed
    refine gives_pure (.inl ⟨rfl, ?_, ?_⟩)
    · rw [pushed]
      exact typed.fits.1.push fetched rfl
    · exact ⟨w', v :: own, next, by rw [List.map_cons, kinds, shape], by rw [pushed, stack]; rfl⟩
  · obtain ⟨outs, enough, accepted, shape⟩ := Word.retype_ok retyped
    obtain ⟨args, rest, rfl, count, argsKinds, restKinds⟩ := split_own kinds enough
    rw [← argsKinds] at accepted
    rw [stack, List.append_assoc]
    refine (gives_word c data count accepted).mono fun effect ys given => .inl ?_
    obtain ⟨rfl, vs, rfl, left⟩ := given
    refine ⟨rfl, (landing_succ fetched nofun).fresh _, w', vs ++ rest, next, ?_, ?_⟩
    · rw [List.map_append, left, restKinds, shape]
    · rw [List.append_assoc]

/-- A condition, and the two ways on behind it. -/
theorem WellTyped.turn_test (typed : WellTyped c calls s) {instr : Instr} {m : Mark} {wanted : Bool}
    {n : Nat} {kind : Kind} {shape : Shape} {previews previews' : List Preview}
    (kinds : own.map Value.kind = w.shape) (stack : s.store.stack.toList = own ++ held calls)
    (fetched : c.program.instructions[s.ip]? = some instr) (tests : Block.Tests c instr m wanted)
    (target : instr.next = some n) (condition : kind ≠ .path) (top : w.shape = kind :: shape)
    (goesOn : Spot c.program (current calls) (s.ip + 1) ⟨shape, previews, false⟩)
    (jumps : Spot c.program (current calls) n ⟨shape, previews', false⟩)
    (landing : Landing c.program n) :
    match s.follow c instr with
    | .ok t => Turn c calls s instr t
    | .error fault => instr.token.MayFail fault := by
  obtain ⟨token, performs⟩ := tests
  have ne_name (name : String) : instr.token ≠ .name name := by
    rw [token]
    exact mark_ne_name m name
  have ne_literal (v : Value) : instr.token ≠ .literal v := by
    rw [token]
    exact mark_ne_literal m v
  refine typed.stay ne_name ?_
  cases own with
  | nil =>
    rw [top] at kinds
    cases kinds
  | cons v own =>
    rw [top] at kinds
    obtain ⟨rfl, ownKinds⟩ := List.cons.inj kinds
    rw [performs, stack]
    refine gives_bind (gives_popCondition _ condition) ?_
    intro b ys same
    obtain rfl := same
    cases hb : b == wanted with
    | true =>
      exact gives_pure (.inl ⟨rfl, (landing_succ fetched ne_literal).fresh _, _, own, goesOn,
        ownKinds, rfl⟩)
    | false =>
      have jump : (goOnIf false instr : Action ω Effect) = pure (.jump n) := by
        simp only [goOnIf, Machine.target, target]
        rfl
      rw [jump]
      exact gives_pure (.inr ⟨n, rfl, landing.fresh _, _, own, jumps, ownKinds, rfl⟩)

/-- An instruction that only moves. -/
theorem WellTyped.turn_goto (typed : WellTyped c calls s) {instr : Instr} {n : Nat} {w' : Walk}
    (kinds : own.map Value.kind = w.shape) (stack : s.store.stack.toList = own ++ held calls)
    (other : ∀ name, instr.token ≠ .name name)
    (moves : perform c instr = pure (.jump n) ∨ n = s.ip + 1 ∧ perform c instr = pure .next)
    (there : Spot c.program (current calls) n w') (same : w'.shape = w.shape)
    (landing : Landing c.program n) :
    match s.follow c instr with
    | .ok t => Turn c calls s instr t
    | .error fault => instr.token.MayFail fault := by
  have fits : Fits c.program calls n s.store.stack.toList :=
    ⟨landing.fresh _, w', own, there, by rw [kinds, same], stack⟩
  refine typed.stay other ?_
  rcases moves with jumps | ⟨rfl, goes⟩
  · rw [jumps]
    exact gives_pure (.inr ⟨n, rfl, fits⟩)
  · rw [goes]
    exact gives_pure (.inl ⟨rfl, fits⟩)

/-- A call: the operands become the callee's own, the rest of the caller's is kept. -/
theorem WellTyped.turn_call (h : Accepted c.program) (typed : WellTyped c calls s) {name : String}
    {p : Procedure} (kinds : own.map Value.kind = w.shape)
    (stack : s.store.stack.toList = own ++ held calls)
    (fetched : c.program.instructions[s.ip]? = some { token := .name name })
    (found : c.program.procedure? name = some p)
    (enough : p.signature.inputs.length ≤ w.shape.length)
    (inputs : w.shape.take p.signature.inputs.length = p.signature.inputs.reverse)
    (next : Spot c.program (current calls) (s.ip + 1) { w with
      shape := p.signature.outputs.reverse ++ w.shape.drop p.signature.inputs.length }) :
    match s.follow c { token := .name name } with
    | .ok t => Turn c calls s { token := .name name } t
    | .error fault => (Token.name name).MayFail fault := by
  obtain ⟨args, kept, rfl, count, argsKinds, keptKinds⟩ := split_own kinds enough
  have declared : p ∈ c.program.procedures := List.mem_of_find?_eq_some found
  obtain ⟨entry, landing⟩ := spot_enter h declared
  have notLiteral (v : Value) : Token.name name ≠ .literal v := by rintro ⟨⟩
  have performs : perform c { token := .name name } { s.store with } =
      (.ok (.call p.start), { s.store with }) := by
    simp only [perform_eq, found]
    rfl
  rw [Block.follow_ok _ _ performs, State.advance]
  by_cases room : s.store.calls.size < c.limit
  · rw [if_pos room]
    rw [List.append_assoc] at stack
    refine .calls rfl found (argsKinds.trans inputs) stack ⟨⟨landing.fresh _, _, args, entry,
      argsKinds.trans inputs, stack⟩, ?_,
      ⟨⟨_, next, ?_⟩, landing_succ fetched notLiteral, typed.awaits⟩, typed.ints⟩
    · exact congrArg (fun others => (s.ip + 1) :: others) typed.returns
    · rw [keptKinds]
  · rw [if_neg room]
    exact Token.mayFail_push _

theorem not_loopAt_leave {program : Program} {i : Nat} {instr : Instr} {l : Leave}
    (fetched : program.instructions[i]? = some instr) (token : instr.token = .word (.leave l)) :
    ¬LoopAt program i := by
  rintro ⟨k, instr', fetched', token'⟩
  obtain rfl := Option.some.inj (fetched.symm.trans fetched')
  rw [token] at token'
  cases token'

/-- A word that leaves the procedure, or the program. -/
theorem WellTyped.turn_leave (typed : WellTyped c calls s) {l : Leave} {w' : Walk}
    (kinds : own.map Value.kind = w.shape) (stack : s.store.stack.toList = own ++ held calls)
    (fetched : c.program.instructions[s.ip]? = some { token := .word (.leave l) })
    (stepped : w.step c.program (current calls) s.ip { token := .word (.leave l) } = .ok w') :
    match s.follow c { token := .word (.leave l) } with
    | .ok t => Turn c calls s { token := .word (.leave l) } t
    | .error fault => (Token.word (.leave l)).MayFail fault := by
  have full := (Token.word (.leave l)).mayFail_push
  have noLoop := not_loopAt_leave fetched rfl
  cases l with
  | ret =>
    obtain ⟨-, p, inside, shape⟩ := Walk.step_ret stepped
    refine typed.goBack nofun inside (Block.leave_eq c .ret) ?_
    exact gives_pure ⟨own, kinds.trans shape, stack⟩
  | dropRet =>
    obtain ⟨-, p, inside, accepted⟩ := Walk.step_dropRet stepped
    refine typed.goBack nofun inside (Block.leave_eq c .dropRet) ?_
    obtain ⟨d, ds, outs, rfl, -, count, outsKinds⟩ :=
      typed.fits.1.dropRet noLoop kinds stack accepted
    obtain ⟨positive, length⟩ : 0 ≤ d.toInt ∧ d.toInt.toNat = ds.length := by omega
    rw [stack, List.cons_append, List.append_assoc]
    refine gives_then (gives_popCount _ positive) ?_
    rw [length]
    exact gives_then gives_popMany (gives_pure ⟨outs, outsKinds, rfl⟩)
  | keepRet =>
    obtain ⟨-, p, inside, accepted⟩ := Walk.step_keepRet stepped
    refine typed.goBack nofun inside (Block.leave_eq c .keepRet) ?_
    obtain ⟨d, r, ks, ds, outs, rfl, -, -, count, count', leftKinds⟩ :=
      typed.fits.1.keepRet noLoop kinds stack accepted
    obtain ⟨positive, length⟩ : 0 ≤ d.toInt ∧ d.toInt.toNat = ds.length := by omega
    obtain ⟨positive', length'⟩ : 0 ≤ r.toInt ∧ r.toInt.toNat = ks.length := by omega
    simp only [stack, List.cons_append, List.append_assoc]
    refine gives_then (gives_popCount _ positive) (gives_then (gives_popCount _ positive') ?_)
    rw [length, length']
    refine gives_then gives_popMany (gives_then gives_popMany ?_)
    refine (gives_pushAll c full).mono fun _ ys pushed => ⟨ks ++ outs, leftKinds, ?_⟩
    rw [pushed, List.reverse_reverse, List.append_assoc]
  | exit =>
    exact .exits rfl rfl rfl

/-- The `end` of a procedure body. -/
theorem WellTyped.turn_back (typed : WellTyped c calls s) {p : Procedure} {instr : Instr}
    (kinds : own.map Value.kind = w.shape) (stack : s.store.stack.toList = own ++ held calls)
    (inside : current calls = some p) (outputs : w.shape = p.signature.outputs.reverse)
    (instr_eq : instr = { token := Mark.close.token, role := .close .procedure }) :
    match s.follow c instr with
    | .ok t => Turn c calls s instr t
    | .error fault => instr.token.MayFail fault := by
  subst instr_eq
  refine @WellTyped.goBack _ c s calls typed _ _ (pure ()) p nofun inside rfl ?_
  exact gives_pure ⟨own, kinds.trans outputs, stack⟩

end Kinds

/-- **One instruction** takes a typed state to a typed state, or fails as its token may. -/
theorem WellTyped.turn (h : Accepted c.program) {calls : List Call} (typed : WellTyped c calls s)
    {instr : Instr} (fetched : c.program.instructions[s.ip]? = some instr) :
    match s.follow c instr with
    | .ok t => Turn c calls s instr t
    | .error fault => instr.token.MayFail fault := by
  obtain ⟨-, w, own, spot, kinds, stack⟩ := typed.fits
  cases spot.flow h fetched with
  | work data stepped next => exact typed.turn_work kinds stack fetched data stepped next
  | call found enough inputs next =>
    exact typed.turn_call h kinds stack fetched found enough inputs next
  | leave stepped => exact typed.turn_leave kinds stack fetched stepped
  | test tests target condition top goesOn jumps landing =>
    exact typed.turn_test kinds stack fetched (tests c) target condition top goesOn jumps landing
  | goto other moves there same landing =>
    exact typed.turn_goto kinds stack other (moves c) there same landing
  | back inside outputs => exact typed.turn_back kinds stack inside outputs rfl

end Chore.Typing
