import Chore.Proofs.Block.Grammar

/-!
# Jump targets

What linking makes of a token list, said of the list alone. A `Part` of a token list is a block
between the token that opens it and the one that ends it; the grammar leaves no choice of either,
given the other. `Resolved` reads the instruction of every index off the parts it opens, divides or
ends. A token list is linked exactly if it is in the grammar and declares no name twice, and then
the linked program has the instruction of each index there (`ofTokens_iff_resolved`).
-/

set_option autoImplicit false

namespace Chore.Block

/-- A part of a construct: a block stands between two tokens of a list. -/
structure Part (ts : List Token) (i : Nat) (x : Token) (j : Nat) (y : Token) : Prop where
  opens : ts[i]? = some x
  ends : ts[j]? = some y
  before : i < j
  inside : Grammar ((ts.take j).drop (i + 1))

/-- The instruction of an index: what it jumps to and what it does for its construct. -/
inductive Resolved (ts : List Token) : Nat → Instr → Prop where
  | plain {i : Nat} {t : Token} (here : ts[i]? = some t) (plain : t.isPlain = true) :
      Resolved ts i { token := t }
  | branch {i j : Nat} {k : BranchKind} (body : Part ts i k.mark.token j Mark.close.token) :
      Resolved ts i { token := k.mark.token, next := some (j + 1) }
  | choice {i j : Nat} {k : BranchKind} (body : Part ts i k.mark.token j Mark.otherwise.token) :
      Resolved ts i { token := k.mark.token, next := some (j + 1) }
  | otherwise {i j : Nat} (alternative : Part ts i Mark.otherwise.token j Mark.close.token) :
      Resolved ts i { token := Mark.otherwise.token, next := some (j + 1) }
  | loop {i j : Nat} {k : LoopKind} (header : Part ts i k.mark.token j Mark.test.token) :
      Resolved ts i { token := k.mark.token, next := some (j + 1) }
  | test {h i j : Nat} {k : LoopKind} (header : Part ts h k.mark.token i Mark.test.token)
      (body : Part ts i Mark.test.token j Mark.close.token) :
      Resolved ts i { token := Mark.test.token, next := some (j + 1), role := .test k h }
  | header {i j : Nat} {sig : Signature} (body : Part ts i (.header sig) j Mark.close.token) :
      Resolved ts i { token := .header sig, next := some (j + 1) }
  | endBranch {i j : Nat} {k : BranchKind} (body : Part ts i k.mark.token j Mark.close.token) :
      Resolved ts j { token := Mark.close.token, role := .close .branch }
  | endChoice {i j : Nat} (alternative : Part ts i Mark.otherwise.token j Mark.close.token) :
      Resolved ts j { token := Mark.close.token, role := .close .branch }
  | endLoop {h i j : Nat} {k : LoopKind} (header : Part ts h k.mark.token i Mark.test.token)
      (body : Part ts i Mark.test.token j Mark.close.token) :
      Resolved ts j { token := Mark.close.token, next := some h, role := .close (.loop h) }
  | endProcedure {i j : Nat} {sig : Signature}
      (body : Part ts i (.header sig) j Mark.close.token) :
      Resolved ts j { token := Mark.close.token, role := .close .procedure }

/-! ## Parts -/

/-- Tokens lie in a list from an index on. -/
def Lies (ts : List Token) (base : Nat) (us : List Token) : Prop :=
  us <+: ts.drop base

theorem lies_cons {ts us : List Token} {base : Nat} {t : Token} :
    Lies ts base (t :: us) ↔ ts[base]? = some t ∧ Lies ts (base + 1) us := by
  rw [Lies, Lies, ← List.head?_drop, ← List.tail_drop]
  cases ts.drop base with
  | nil => simp
  | cons a l => simp [List.cons_prefix_cons, eq_comm]

theorem lies_append {ts us vs : List Token} {base : Nat} :
    Lies ts base (us ++ vs) ↔ Lies ts base us ∧ Lies ts (base + us.length) vs := by
  induction us generalizing base with
  | nil => simp [Lies]
  | cons t us ih =>
    rw [List.cons_append, lies_cons, lies_cons, ih, and_assoc, List.length_cons,
      show base + 1 + us.length = base + (us.length + 1) by omega]

theorem Lies.trans {ts us vs : List Token} {base i : Nat} (h : Lies ts base us)
    (g : Lies us i vs) : Lies ts (base + i) vs := by
  obtain ⟨back, whole⟩ := h
  refine List.IsPrefix.trans g ?_
  rw [← List.drop_drop, ← whole, List.drop_append]
  exact List.prefix_append _ _

/-- A part is a block that lies behind its first token and in front of its last. -/
theorem part_iff {ts : List Token} {i j : Nat} {x y : Token} :
    Part ts i x j y ↔
      ∃ body, Grammar body ∧ Lies ts i (x :: (body ++ [y])) ∧ j = i + 1 + body.length := by
  constructor
  · rintro ⟨opens, ends, before, inside⟩
    obtain ⟨size, -⟩ := List.getElem?_eq_some_iff.1 ends
    have length : ((ts.take j).drop (i + 1)).length = j - (i + 1) := by
      rw [List.length_drop, List.length_take_of_le (by omega)]
    refine ⟨_, inside, ?_, by omega⟩
    rw [lies_cons, lies_append, lies_cons, length, show i + 1 + (j - (i + 1)) = j by omega]
    refine ⟨opens, ?_, ends, List.nil_prefix⟩
    rw [List.drop_take]
    exact List.take_prefix _ _
  · rintro ⟨body, inside, lies, rfl⟩
    rw [lies_cons, lies_append, lies_cons] at lies
    obtain ⟨opens, lies, ends, -⟩ := lies
    refine ⟨opens, ends, by omega, ?_⟩
    rw [List.drop_take, Nat.add_sub_cancel_left, ← List.prefix_iff_eq_take.1 lies]
    exact inside

/-- A part ends at one place only. -/
theorem Part.right_unique {ts : List Token} {i j j' : Nat} {x x' y y' : Token}
    (h : Part ts i x j y) (h' : Part ts i x' j' y') (hy : y.endsPart = true)
    (hy' : y'.endsPart = true) : j = j' := by
  obtain ⟨body, inside, lies, rfl⟩ := part_iff.1 h
  obtain ⟨body', inside', lies', rfl⟩ := part_iff.1 h'
  obtain ⟨r, whole⟩ := (lies_cons.1 lies).2
  obtain ⟨r', whole'⟩ := (lies_cons.1 lies').2
  have same : body ++ y :: r = body' ++ y' :: r' := by simpa using whole.trans whole'.symm
  obtain ⟨rfl, -⟩ := inside.unique inside' hy hy' same
  rfl

/-- A part of tokens that lie in a list is one of the list. -/
theorem Part.within {ts us : List Token} {base i j : Nat} {x y : Token} (h : Part us i x j y)
    (lies : Lies ts base us) : Part ts (base + i) x (base + j) y := by
  obtain ⟨body, inside, within, rfl⟩ := part_iff.1 h
  exact part_iff.2 ⟨body, inside, lies.trans within, by omega⟩

/-! ## The instructions of a block -/

/-- A block between two tokens is a part, and lies behind the first of them. -/
theorem Lies.part {ts rest : List Token} {i : Nat} {x y : Token} {b : Block} (proper : b.Proper)
    (lies : Lies ts i (x :: (b.tokens ++ y :: rest))) :
    Part ts i x (i + b.size + 1) y ∧ Lies ts (i + 1) b.tokens ∧
      Lies ts (i + b.size + 1) (y :: rest) := by
  obtain ⟨opens, behind⟩ := lies_cons.1 lies
  obtain ⟨inside, ends⟩ := lies_append.1 behind
  rw [length_tokens, show i + 1 + b.size = i + b.size + 1 by omega] at ends
  refine ⟨part_iff.2 ⟨b.tokens, grammar_tokens proper, ?_, by simp; omega⟩, inside, ends⟩
  refine lies_cons.2 ⟨opens, lies_append.2 ⟨inside, ?_⟩⟩
  rw [length_tokens, show i + 1 + b.size = i + b.size + 1 by omega]
  exact lies_cons.2 ⟨(lies_cons.1 ends).1, List.nil_prefix⟩

/-- Instructions in a row, each with its index. -/
def Placed (ts : List Token) (base : Nat) (instrs : List Instr) : Prop :=
  ∀ p ∈ instrs.zipIdx base, Resolved ts p.2 p.1

theorem placed_cons {ts : List Token} {base : Nat} {instr : Instr} {instrs : List Instr} :
    Placed ts base (instr :: instrs) ↔ Resolved ts base instr ∧ Placed ts (base + 1) instrs := by
  rw [Placed, List.zipIdx_cons, List.forall_mem_cons]
  rfl

/-- The instructions of a block, and those behind them. -/
theorem placed_append {ts : List Token} {base : Nat} {b : Block} {instrs : List Instr} :
    Placed ts (base + 1) (b.instructions (base + 1) ++ instrs) ↔
      Placed ts (base + 1) (b.instructions (base + 1)) ∧
        Placed ts (base + b.size + 1) instrs := by
  rw [Placed, List.zipIdx_append, List.forall_mem_append, length_instructions,
    show base + 1 + b.size = base + b.size + 1 by omega]
  rfl

/-- **The instructions of a block** are those of the parts its tokens have. -/
theorem placed_instructions {b : Block} (proper : b.Proper) {ts : List Token} {base : Nat}
    (lies : Lies ts base b.tokens) : Placed ts base (b.instructions base) := by
  induction b generalizing base with
  | nil => simp [Placed, instructions]
  | plain t rest ih =>
    obtain ⟨here, behind⟩ := lies_cons.1 lies
    exact placed_cons.2 ⟨.plain here proper.1, ih proper.2 behind⟩
  | branch k body rest ihb ihr =>
    obtain ⟨part, inside, closes⟩ := lies.part proper.1
    refine placed_cons.2 ⟨.branch part, placed_append.2 ⟨ihb proper.1 inside, ?_⟩⟩
    exact placed_cons.2 ⟨.endBranch part, ihr proper.2 (lies_cons.1 closes).2⟩
  | choice k body alternative rest ihb iha ihr =>
    obtain ⟨first, inside, divides⟩ := lies.part proper.1
    obtain ⟨second, inside', closes⟩ := divides.part proper.2.1
    refine placed_cons.2 ⟨.choice first, placed_append.2 ⟨ihb proper.1 inside, ?_⟩⟩
    refine placed_cons.2 ⟨.otherwise second, placed_append.2 ⟨iha proper.2.1 inside', ?_⟩⟩
    exact placed_cons.2 ⟨.endChoice second, ihr proper.2.2 (lies_cons.1 closes).2⟩
  | loop k header body rest ihh ihb ihr =>
    obtain ⟨first, inside, tests⟩ := lies.part proper.1
    obtain ⟨second, inside', closes⟩ := tests.part proper.2.1
    refine placed_cons.2 ⟨.loop first, placed_append.2 ⟨ihh proper.1 inside, ?_⟩⟩
    refine placed_cons.2 ⟨.test first second, placed_append.2 ⟨ihb proper.2.1 inside', ?_⟩⟩
    exact placed_cons.2 ⟨.endLoop first second, ihr proper.2.2 (lies_cons.1 closes).2⟩
  | procedure sig body rest ihb ihr =>
    obtain ⟨part, inside, closes⟩ := lies.part proper.1
    refine placed_cons.2 ⟨.header part, placed_append.2 ⟨ihb proper.1 inside, ?_⟩⟩
    exact placed_cons.2 ⟨.endProcedure part, ihr proper.2.2 (lies_cons.1 closes).2⟩

/-- Every instruction of a laid out block is the one its tokens give. -/
theorem resolved_of_getElem? {b : Block} (proper : b.Proper) {i : Nat} {instr : Instr}
    (fetched : b.program.instructions[i]? = some instr) : Resolved b.tokens i instr := by
  have placed : Placed b.tokens 0 (b.instructions 0) :=
    placed_instructions proper List.prefix_rfl
  exact placed (instr, i) (List.mk_mem_zipIdx_iff_getElem?.2 (by simpa [program] using fetched))

/-! ## One instruction for each index -/

theorem not_isOpener_of_isPlain {t : Token} (plain : t.isPlain = true) : t.isOpener = false := by
  cases t with
  | literal v => rfl
  | name s => rfl
  | header sig => cases plain
  | word w =>
    cases w with
    | mark m => cases plain
    | _ => rfl

section Inversion

variable {ts : List Token} {i : Nat} {a : Instr}

theorem Resolved.token (h : Resolved ts i a) : ts[i]? = some a.token := by
  cases h with
  | plain here _ => exact here
  | branch body => exact body.opens
  | choice body => exact body.opens
  | otherwise alternative => exact alternative.opens
  | loop header => exact header.opens
  | test header _ => exact header.ends
  | header body => exact body.opens
  | endBranch body => exact body.ends
  | endChoice alternative => exact alternative.ends
  | endLoop _ body => exact body.ends
  | endProcedure body => exact body.ends

theorem Resolved.of_plain (h : Resolved ts i a) (plain : a.token.isPlain = true) :
    a = { token := a.token } := by
  cases h with
  | plain => rfl
  | _ => cases plain

/-- A token that opens a part jumps behind its end. -/
theorem Resolved.of_opener (h : Resolved ts i a) (opener : a.token.isOpener = true) :
    ∃ j y, Part ts i a.token j y ∧ y.endsPart = true ∧ a.next = some (j + 1) ∧
      (a.token ≠ Mark.test.token → a.role = .plain) ∧
      (a.token = Mark.test.token → ∃ h k, Part ts h k.mark.token i Mark.test.token ∧
        a.role = .test k h) := by
  cases h with
  | plain _ plain => rw [not_isOpener_of_isPlain plain] at opener; cases opener
  | @branch _ _ k body => exact ⟨_, _, body, rfl, rfl, fun _ => rfl, by cases k <;> nofun⟩
  | @choice _ _ k body => exact ⟨_, _, body, rfl, rfl, fun _ => rfl, by cases k <;> nofun⟩
  | otherwise alternative => exact ⟨_, _, alternative, rfl, rfl, fun _ => rfl, nofun⟩
  | @loop _ _ k header => exact ⟨_, _, header, rfl, rfl, fun _ => rfl, by cases k <;> nofun⟩
  | test header body =>
    exact ⟨_, _, body, rfl, rfl, fun other => absurd rfl other, fun _ => ⟨_, _, header, rfl⟩⟩
  | header body => exact ⟨_, _, body, rfl, rfl, fun _ => rfl, nofun⟩
  | _ => cases opener

theorem Resolved.of_header {sig : Signature} (h : Resolved ts i a) (token : a.token = .header sig) :
    ∃ j, Part ts i (.header sig) j Mark.close.token ∧ a.next = some (j + 1) := by
  cases h with
  | plain _ plain =>
    simp only at token
    rw [token] at plain
    cases plain
  | header body =>
    obtain rfl := Token.header.inj token
    exact ⟨_, body, rfl⟩
  | _ => cases token

/-- The `end` of a part that a token opened; `header` is where its loop starts, if it is one. -/
def closing (header : Nat) : Token → Instr
  | .header _ => { token := Mark.close.token, role := .close .procedure }
  | .word (.mark .test) =>
    { token := Mark.close.token, next := some header, role := .close (.loop header) }
  | _ => { token := Mark.close.token, role := .close .branch }

theorem Resolved.of_close (h : Resolved ts i a) (token : a.token = Mark.close.token) :
    ∃ j x header, Part ts j x i Mark.close.token ∧ x.isOpener = true ∧ a = closing header x ∧
      (x = Mark.test.token → ∃ k : LoopKind, Part ts header k.mark.token j Mark.test.token) := by
  cases h with
  | plain _ plain => exact absurd token (mark_ne_of_isPlain plain _)
  | @branch _ _ k => cases k <;> cases token
  | @choice _ _ k => cases k <;> cases token
  | otherwise => cases token
  | @loop _ _ k => cases k <;> cases token
  | test => cases token
  | header => cases token
  | @endBranch _ _ k body => exact ⟨_, _, 0, body, by cases k <;> exact ⟨rfl, rfl, nofun⟩⟩
  | endChoice alternative => exact ⟨_, _, 0, alternative, rfl, rfl, nofun⟩
  | endLoop header body => exact ⟨_, _, _, body, rfl, rfl, fun _ => ⟨_, header⟩⟩
  | endProcedure body => exact ⟨_, _, 0, body, rfl, rfl, nofun⟩

end Inversion

/-- In a block every token that opens a part has an end of that part. -/
theorem Grammar.exists_part {us : List Token} (h : Grammar us) {i : Nat} {x : Token}
    (here : us[i]? = some x) (opener : x.isOpener = true) :
    ∃ j y, Part us i x j y ∧ y.endsPart = true := by
  obtain ⟨b, proper, rfl⟩ := grammar_iff.1 h
  rw [← map_token_instructions 0 b, List.getElem?_map, Option.map_eq_some_iff] at here
  obtain ⟨instr, fetched, rfl⟩ := here
  have resolved := resolved_of_getElem? proper (by simpa [program] using fetched)
  obtain ⟨j, y, part, ends, -⟩ := resolved.of_opener opener
  exact ⟨j, y, part, ends⟩

/-- A part that starts inside of another one ends there. -/
theorem Part.nested {ts : List Token} {i i' j j' : Nat} {x x' y y' : Token} (h : Part ts i x j y)
    (h' : Part ts i' x' j' y') (hx' : x'.isOpener = true) (hy' : y'.endsPart = true)
    (after : i < i') (before : i' < j) : j' < j := by
  obtain ⟨body, inside, lies, rfl⟩ := part_iff.1 h
  obtain ⟨-, behind⟩ := lies_cons.1 lies
  obtain ⟨lies, -⟩ := lies_append.1 behind
  have here : body[i' - (i + 1)]? = some x' := by
    obtain ⟨back, whole⟩ := lies
    have fetched := h'.opens
    rw [show i' = i + 1 + (i' - (i + 1)) by omega, ← List.getElem?_drop, ← whole] at fetched
    rwa [List.getElem?_append_left (by omega)] at fetched
  obtain ⟨m, z, part, ends⟩ := inside.exists_part here hx'
  have bound : m < body.length := (List.getElem?_eq_some_iff.1 part.ends).1
  have within := part.within lies
  rw [show i + 1 + (i' - (i + 1)) = i' by omega] at within
  have same := within.right_unique h' ends hy'
  omega

/-- A part starts at one place only. -/
theorem Part.left_unique {ts : List Token} {i i' j : Nat} {x x' y y' : Token} (h : Part ts i x j y)
    (h' : Part ts i' x' j y') (hx : x.isOpener = true) (hx' : x'.isOpener = true)
    (hy : y.endsPart = true) : i = i' ∧ x = x' := by
  obtain rfl : y = y' := Option.some.inj (h.ends.symm.trans h'.ends)
  have first : ¬i < i' := fun lt => Nat.lt_irrefl j (h.nested h' hx' hy lt h'.before)
  have second : ¬i' < i := fun lt => Nat.lt_irrefl j (h'.nested h hx hy lt h.before)
  obtain rfl : i = i' := by omega
  exact ⟨rfl, Option.some.inj (h.opens.symm.trans h'.opens)⟩

theorem isOpener_loop (k : LoopKind) : k.mark.token.isOpener = true := by
  cases k <;> rfl

theorem instr_ext {a b : Instr} (token : a.token = b.token) (next : a.next = b.next)
    (role : a.role = b.role) : a = b := by
  obtain ⟨_, _, _⟩ := a
  obtain ⟨_, _, _⟩ := b
  obtain rfl := token
  obtain rfl := next
  obtain rfl := role
  rfl

/-- A token that is neither plain nor opens a part is an `end`. -/
theorem eq_close {t : Token} (plain : ¬t.isPlain = true) (opener : ¬t.isOpener = true) :
    t = Mark.close.token := by
  cases t with
  | literal v => exact absurd rfl plain
  | name s => exact absurd rfl plain
  | header sig => exact absurd rfl opener
  | word w =>
    cases w with
    | mark m =>
      cases m with
      | close => rfl
      | _ => exact absurd rfl opener
    | _ => exact absurd rfl plain

/-- Only the `end` of a loop knows where its loop starts. -/
theorem closing_eq {x : Token} {h h' : Nat} (other : x ≠ Mark.test.token) :
    closing h x = closing h' x := by
  unfold closing
  split
  · rfl
  · exact absurd rfl other
  · rfl

/-- **Each index has one instruction.** -/
theorem Resolved.unique {ts : List Token} {i : Nat} {a b : Instr} (ha : Resolved ts i a)
    (hb : Resolved ts i b) : a = b := by
  have same : a.token = b.token := Option.some.inj (ha.token.symm.trans hb.token)
  have header {h h' j : Nat} {k k' : LoopKind} (p : Part ts h k.mark.token j Mark.test.token)
      (p' : Part ts h' k'.mark.token j Mark.test.token) : h = h' ∧ k = k' := by
    obtain ⟨rfl, same⟩ := p.left_unique p' (isOpener_loop k) (isOpener_loop k') rfl
    exact ⟨rfl, by cases k <;> cases k' <;> first | rfl | cases same⟩
  by_cases plain : a.token.isPlain = true
  · rw [ha.of_plain plain, hb.of_plain (same ▸ plain), same]
  · by_cases opener : a.token.isOpener = true
    · obtain ⟨j, y, part, ends, next, role, test⟩ := ha.of_opener opener
      obtain ⟨j', y', part', ends', next', role', test'⟩ := hb.of_opener (same ▸ opener)
      obtain rfl := part.right_unique part' ends ends'
      have roles : a.role = b.role := by
        by_cases isTest : a.token = Mark.test.token
        · obtain ⟨h, k, header_, role⟩ := test isTest
          obtain ⟨h', k', header', role'⟩ := test' (same ▸ isTest)
          obtain ⟨rfl, rfl⟩ := header header_ header'
          rw [role, role']
        · rw [role isTest, role' (same ▸ isTest)]
      exact instr_ext same (next.trans next'.symm) roles
    · have token : a.token = Mark.close.token := eq_close plain opener
      obtain ⟨j, x, h, part, hx, rfl, loop⟩ := ha.of_close token
      obtain ⟨j', x', h', part', hx', rfl, loop'⟩ := hb.of_close (same ▸ token)
      obtain ⟨rfl, rfl⟩ := part.left_unique part' hx hx' rfl
      by_cases isTest : x = Mark.test.token
      · obtain ⟨k, header_⟩ := loop isTest
        obtain ⟨k', header'⟩ := loop' isTest
        obtain ⟨rfl, -⟩ := header header_ header'
        rfl
      · exact closing_eq isTest

/-! ## Linked token lists -/

theorem ofTokens_ok {ts : List Token} {program : Program} (h : Program.ofTokens ts = .ok program) :
    ∃ b : Block, b.WellFormed ∧ b.tokens = ts ∧ b.program = program := by
  unfold Program.ofTokens at h
  cases read : ofTokens ts with
  | error e => rw [read] at h; cases h
  | ok b =>
    rw [read] at h
    obtain ⟨wellFormed, tokens⟩ := ofTokens_eq_ok_iff.1 read
    exact ⟨b, wellFormed, tokens, Except.ok.inj h⟩

/-- A linked program has the instruction of each index. -/
theorem getElem?_program_iff {b : Block} (proper : b.Proper) {i : Nat} {instr : Instr} :
    b.program.instructions[i]? = some instr ↔ Resolved b.tokens i instr := by
  refine ⟨resolved_of_getElem? proper, fun resolved => ?_⟩
  have size : i < b.program.instructions.size := by
    obtain ⟨bound, -⟩ := List.getElem?_eq_some_iff.1 resolved.token
    simpa [program] using bound
  have fetched := Array.getElem?_eq_getElem size
  rw [fetched, (resolved_of_getElem? proper fetched).unique resolved]

/-- A linked program has a procedure for each part that a header opens. -/
theorem mem_procedures_iff {b : Block} (proper : b.Proper) {p : Procedure} :
    p ∈ b.program.procedures ↔
      ∃ i, p.start = i + 1 ∧ Part b.tokens i (.header p.signature) p.stop Mark.close.token := by
  have stands := standsAt_program proper
  constructor
  · intro hp
    rw [show b.program.procedures = _ from b.procedures_eq 0] at hp
    obtain ⟨d, hd, rfl⟩ := List.mem_map.1 hp
    obtain ⟨i, start, header⟩ := (stands_of_mem_declarations stands hd).header
    obtain ⟨j, part, next⟩ := (resolved_of_getElem? proper header).of_header rfl
    obtain rfl : d.start + d.body.size = j := Nat.succ.inj (Option.some.inj next)
    exact ⟨i, start, part⟩
  · rintro ⟨i, start, part⟩
    have fetched := (getElem?_program_iff proper).2 (.header part)
    have size : i < 0 + b.size := by
      obtain ⟨bound, -⟩ := List.getElem?_eq_some_iff.1 part.opens
      simpa using bound
    obtain ⟨d, hd, start', next⟩ := exists_declaration stands (Nat.zero_le i) size fetched rfl
    obtain ⟨i', start'', header⟩ := (stands_of_mem_declarations stands hd).header
    obtain rfl : i = i' := by omega
    have signature : p.signature = d.signature := by
      obtain ⟨token, -⟩ := Instr.mk.inj (Option.some.inj (fetched.symm.trans header))
      exact Token.header.inj token
    have stop : p.stop = d.start + d.body.size := Nat.succ.inj (Option.some.inj next)
    rw [show b.program.procedures = _ from b.procedures_eq 0]
    refine List.mem_map.2 ⟨d, hd, ?_⟩
    obtain ⟨pstart, pstop, psignature⟩ := p
    simp only [Declaration.procedure, Procedure.mk.injEq]
    exact ⟨start'.trans start.symm, stop.symm, signature.symm⟩

/-- A name leads to the procedure that has it. -/
theorem procedure?_eq_some_iff {b : Block} (wellFormed : b.WellFormed) {name : String}
    {p : Procedure} :
    b.program.procedure? name = some p ↔ p ∈ b.program.procedures ∧ p.name = name := by
  constructor
  · intro h
    exact ⟨List.mem_of_find?_eq_some h, by simpa using List.find?_some h⟩
  · rintro ⟨hp, rfl⟩
    exact procedure?_of_mem wellFormed.distinct hp

/-- **Linking is the grammar.** A token list is linked exactly if it is in the grammar and declares
no name twice. The linked program then has, at every index, the instruction that the parts of the
list give it and no other; and its table has one procedure for each header, with the part the
header opens, found under its name. -/
theorem ofTokens_iff_resolved (ts : List Token) :
    ((∃ program, Program.ofTokens ts = .ok program) ↔
      Grammar ts ∧ ((signatures ts).map Signature.name).Nodup) ∧
    ∀ program, Program.ofTokens ts = .ok program →
      program.size = ts.length ∧
      (∀ i instr, program.instructions[i]? = some instr ↔ Resolved ts i instr) ∧
      program.procedures.map Procedure.signature = signatures ts ∧
      (∀ p, p ∈ program.procedures ↔
        ∃ i, p.start = i + 1 ∧ Part ts i (.header p.signature) p.stop Mark.close.token) ∧
      ∀ name p, program.procedure? name = some p ↔ p ∈ program.procedures ∧ p.name = name := by
  refine ⟨⟨?_, ?_⟩, ?_⟩
  · rintro ⟨program, linked⟩
    obtain ⟨b, wellFormed, rfl, -⟩ := ofTokens_ok linked
    refine ⟨grammar_tokens wellFormed.proper, ?_⟩
    rw [← names_eq_signatures wellFormed.proper]
    exact wellFormed.distinct
  · rintro ⟨grammar, distinct⟩
    obtain ⟨b, proper, rfl⟩ := grammar_iff.1 grammar
    rw [← names_eq_signatures proper] at distinct
    refine ⟨b.program, ?_⟩
    rw [Program.ofTokens, ofTokens_tokens ⟨proper, distinct⟩]
    rfl
  · intro program linked
    obtain ⟨b, wellFormed, rfl, rfl⟩ := ofTokens_ok linked
    have proper := wellFormed.proper
    exact ⟨by simp, fun i instr => getElem?_program_iff proper, map_signature_procedures proper 0,
      fun p => mem_procedures_iff proper, fun name p => procedure?_eq_some_iff wellFormed⟩

/-- A procedure with a branch in it, and a loop: the `do` of the loop knows where the loop starts
and ends, and the procedure is the part behind its header. -/
theorem ofTokens_iff_resolved_loop :
    let sig : Signature := { name := "f", inputs := [], outputs := [] }
    let ts : List Token := [.header sig, .literal (.int 1), Mark.onTrue.token, Mark.close.token,
      Mark.close.token, Mark.whileTrue.token, .literal (.int 0), Mark.test.token, .name "f",
      Mark.close.token]
    ∃ program, Program.ofTokens ts = .ok program ∧
      Resolved ts 7 { token := Mark.test.token, next := some 10, role := .test .whileTrue 5 } ∧
      program.procedure? "f" = some { start := 1, stop := 4, signature := sig } := by
  intro sig ts
  obtain ⟨program, linked⟩ : ∃ program, Program.ofTokens ts = .ok program := ⟨_, rfl⟩
  obtain ⟨-, resolves, -, -, found⟩ := (ofTokens_iff_resolved ts).2 program linked
  obtain rfl := Except.ok.inj linked
  refine ⟨_, rfl, (resolves 7 _).1 rfl, (found _ _).2 ⟨?_, rfl⟩⟩
  exact List.mem_cons_self

end Chore.Block
