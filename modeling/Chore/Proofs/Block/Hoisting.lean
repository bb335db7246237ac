import Chore.Proofs.Block.Renaming
import Chore.Proofs.Block.Zones

/-!
# Hoisting a declaration

A declaration can be moved to the front of a token list, out of all the branches and loops it stands
in. `hoisted` is where an index goes then. What remains is in the grammar (`Grammar.without`), the
parts of the list go where their tokens do (`part_hoisted`), and so do the instructions that linking
makes of them. `Hoists` collects what this means for the linked program: the same instructions and
the same procedures, under other indices, and a header that is passed once, at the start.
-/

set_option autoImplicit false

namespace Chore

namespace Block

open Machine

/-- The tokens of a declaration. -/
def declarationTokens (sig : Signature) (body : List Token) : List Token :=
  .header sig :: (body ++ [Mark.close.token])

/-- Where an index goes when the `n` tokens behind the first `g` are moved to the front. The index
of the first of them goes behind them all: this is where the header there leads to. -/
def hoisted (g n i : Nat) : Nat :=
  if i ≤ g then i + n else if i < g + n then i - g else i

theorem hoisted_front {g n i : Nat} (h : i ≤ g) : hoisted g n i = i + n :=
  if_pos h

theorem hoisted_inside {g n i : Nat} (h : g < i) (h' : i < g + n) : hoisted g n i = i - g := by
  rw [hoisted, if_neg (by omega), if_pos h']

theorem hoisted_behind {g n i : Nat} (h : g < i) (h' : g + n ≤ i) : hoisted g n i = i := by
  rw [hoisted, if_neg (by omega), if_neg (by omega)]

/-- Indices that follow each other still do, but for the two ends of what was moved. -/
theorem hoisted_succ {g n i : Nat} (h : i ≠ g) (h' : i + 1 ≠ g + n) :
    hoisted g n (i + 1) = hoisted g n i + 1 := by
  unfold hoisted
  split <;> split <;> (try split) <;> (try split) <;> omega

/-! ## The grammar without a declaration -/

variable {A B body us vs : List Token} {sig : Signature} {i j : Nat} {x y : Token}

/-- A declaration that begins in a block ends there. -/
theorem Grammar.split {rest : List Token} (h : Grammar us) (inside : Grammar body)
    (ender : x.endsPart = true)
    (same : us ++ x :: rest = A ++ .header sig :: (body ++ Mark.close.token :: B)) :
    (∃ behind, us = A ++ .header sig :: (body ++ Mark.close.token :: behind) ∧
        B = behind ++ x :: rest) ∨
      ∃ before, A = us ++ x :: before ∧
        rest = before ++ .header sig :: (body ++ Mark.close.token :: B) := by
  rcases List.append_eq_append_iff.1 same with ⟨before, whole, tail⟩ | ⟨behind, whole, tail⟩
  · right
    cases before with
    | nil =>
      obtain ⟨rfl, -⟩ := List.cons.inj tail
      cases ender
    | cons t before =>
      obtain ⟨rfl, others⟩ := List.cons.inj tail
      exact ⟨before, whole, others⟩
  · left
    cases behind with
    | nil =>
      obtain ⟨rfl, -⟩ := List.cons.inj tail
      cases ender
    | cons t behind =>
      obtain ⟨rfl, others⟩ := List.cons.inj tail
      -- the block has an end for this header, and the tokens leave no other choice
      have here : us[A.length]? = some (.header sig) := by rw [whole]; simp
      obtain ⟨k, y, part, ends⟩ := h.exists_part here rfl
      obtain ⟨mid, grammar, lies, -⟩ := part_iff.1 part
      obtain ⟨r, lies⟩ := (lies_cons.1 lies).2
      have split : mid ++ y :: r = behind := by
        rw [List.append_assoc, whole] at lies
        simpa using lies
      have others : body ++ Mark.close.token :: B = mid ++ y :: (r ++ x :: rest) := by
        rw [others, ← split]
        simp
      obtain ⟨rfl, rfl, rfl⟩ := inside.unique grammar rfl ends others
      exact ⟨r, by rw [whole, ← split], rfl⟩

/-- A list that starts with another token has it in front of the header. -/
theorem exists_front {t : Token} {others : List Token} (whole : A ++ .header sig :: us = t :: others)
    (other : t ≠ .header sig) : ∃ A', A = t :: A' ∧ A' ++ .header sig :: us = others := by
  cases A with
  | nil => exact absurd (List.cons.inj whole).1.symm other
  | cons t' A' =>
    obtain ⟨rfl, others⟩ := List.cons.inj whole
    exact ⟨A', rfl, others⟩

/-- **Without a declaration** a block is still one; the declaration itself declares nothing
else. -/
theorem Grammar.without (inside : Grammar body)
    (h : Grammar (A ++ .header sig :: (body ++ Mark.close.token :: B))) :
    signatures body = [] ∧ Grammar (A ++ B) := by
  have close : Mark.close.token.endsPart = true := rfl
  have otherwise : Mark.otherwise.token.endsPart = true := rfl
  have test : Mark.test.token.endsPart = true := rfl
  have mark (m : Mark) : m.token ≠ .header sig := nofun
  generalize whole : A ++ .header sig :: (body ++ Mark.close.token :: B) = all at h
  induction h generalizing A B with
  | nil => simp at whole
  | plain plain behind ih =>
    obtain ⟨A, rfl, others⟩ := exists_front whole (by rintro rfl; cases plain)
    obtain ⟨flat, shorter⟩ := ih others
    exact ⟨flat, .plain plain shorter⟩
  | @branch k first rest hb hr ihb ihr =>
    obtain ⟨A, rfl, others⟩ := exists_front whole (mark k.mark)
    obtain ⟨behind, rfl, rfl⟩ | ⟨before, rfl, rfl⟩ := hb.split inside close others.symm
    · obtain ⟨flat, shorter⟩ := ihb rfl
      exact ⟨flat, by simpa using Grammar.branch (k := k) shorter hr⟩
    · obtain ⟨flat, shorter⟩ := ihr rfl
      exact ⟨flat, by simpa using Grammar.branch (k := k) hb shorter⟩
  | @choice k first second rest hb ha hr ihb iha ihr =>
    obtain ⟨A, rfl, others⟩ := exists_front whole (mark k.mark)
    obtain ⟨behind, rfl, rfl⟩ | ⟨before, rfl, arm⟩ := hb.split inside otherwise others.symm
    · obtain ⟨flat, shorter⟩ := ihb rfl
      exact ⟨flat, by simpa using Grammar.choice (k := k) shorter ha hr⟩
    · obtain ⟨behind, rfl, rfl⟩ | ⟨before, rfl, rfl⟩ := ha.split inside close arm
      · obtain ⟨flat, shorter⟩ := iha rfl
        exact ⟨flat, by simpa using Grammar.choice (k := k) hb shorter hr⟩
      · obtain ⟨flat, shorter⟩ := ihr rfl
        exact ⟨flat, by simpa using Grammar.choice (k := k) hb ha shorter⟩
  | @loop k first second rest hh hb hr ihh ihb ihr =>
    obtain ⟨A, rfl, others⟩ := exists_front whole (mark k.mark)
    obtain ⟨behind, rfl, rfl⟩ | ⟨before, rfl, arm⟩ := hh.split inside test others.symm
    · obtain ⟨flat, shorter⟩ := ihh rfl
      exact ⟨flat, by simpa using Grammar.loop (k := k) shorter hb hr⟩
    · obtain ⟨behind, rfl, rfl⟩ | ⟨before, rfl, rfl⟩ := hb.split inside close arm
      · obtain ⟨flat, shorter⟩ := ihb rfl
        exact ⟨flat, by simpa using Grammar.loop (k := k) hh shorter hr⟩
      · obtain ⟨flat, shorter⟩ := ihr rfl
        exact ⟨flat, by simpa using Grammar.loop (k := k) hh hb shorter⟩
  | @procedure sig' first rest hb flat hr ihb ihr =>
    cases A with
    | nil =>
      obtain ⟨-, others⟩ := List.cons.inj whole
      obtain ⟨rfl, -, rfl⟩ := inside.unique hb close close others
      exact ⟨flat, hr⟩
    | cons t A =>
      obtain ⟨rfl, others⟩ := List.cons.inj whole
      obtain ⟨behind, rfl, -⟩ | ⟨before, rfl, rfl⟩ := hb.split inside close others.symm
      · simp [signatures_append, signatures_header] at flat
      · obtain ⟨flat', shorter⟩ := ihr rfl
        exact ⟨flat', by simpa using @Grammar.procedure sig' _ _ hb flat shorter⟩

/-! ## Parts -/

/-- What lies in a segment of a list. -/
theorem Lies.restrict {ts : List Token} {base : Nat} (h : Lies ts base us)
    (lies : Lies ts (base + i) vs) (short : i + vs.length ≤ us.length) : Lies us i vs := by
  obtain ⟨back, whole⟩ := h
  unfold Lies at lies ⊢
  rw [← List.drop_drop, ← whole, List.drop_append_of_le_length (by omega)] at lies
  refine List.prefix_of_prefix_length_le lies (List.prefix_append _ back) ?_
  rw [List.length_drop]
  omega

/-- A part of a segment is one wherever the segment lies. -/
theorem Part.transfer {ts ts' : List Token} {base base' : Nat} (lies : Lies ts base us)
    (lies' : Lies ts' base' us) (h : Part ts (base + i) x (base + j) y) (short : j < us.length) :
    Part ts' (base' + i) x (base' + j) y := by
  obtain ⟨mid, grammar, within, place⟩ := part_iff.1 h
  have segment := lies.restrict within (by simp; omega)
  exact part_iff.2 ⟨mid, grammar, lies'.trans segment, by omega⟩

section Hoisted

/-! A token list with a declaration in it, and the one with the declaration at the front. -/

variable (A B body sig)

/-- The tokens with the declaration where it is. -/
def inPlace : List Token :=
  A ++ (declarationTokens sig body ++ B)

/-- The tokens with the declaration at the front. -/
def atFront : List Token :=
  declarationTokens sig body ++ (A ++ B)

variable {A B body sig}

@[simp] theorem length_declarationTokens :
    (declarationTokens sig body).length = body.length + 2 := by
  simp [declarationTokens]

theorem lies_segment (front us back : List Token) : Lies (front ++ (us ++ back)) front.length us := by
  unfold Lies
  rw [List.drop_left]
  exact List.prefix_append us back

theorem inPlace_eq :
    inPlace A B body sig = A ++ .header sig :: (body ++ Mark.close.token :: B) := by
  simp [inPlace, declarationTokens]

/-- What stands behind the declaration lies at the same index in both lists. -/
theorem lies_behind :
    Lies (inPlace A B body sig) (A.length + (body.length + 2)) B ∧
      Lies (atFront A B body sig) (A.length + (body.length + 2)) B := by
  have suffix (front : List Token) : Lies (front ++ B) front.length B := by
    simp only [Lies, List.drop_left, List.prefix_rfl]
  constructor
  · have lies := suffix (A ++ declarationTokens sig body)
    rwa [List.append_assoc, List.length_append, length_declarationTokens] at lies
  · have lies := suffix (declarationTokens sig body ++ A)
    rwa [List.append_assoc, List.length_append, length_declarationTokens, Nat.add_comm] at lies

theorem part_inPlace (inside : Grammar body) :
    Part (inPlace A B body sig) A.length (.header sig) (A.length + 1 + body.length)
      Mark.close.token :=
  part_iff.2 ⟨body, inside, lies_segment A (declarationTokens sig body) B, rfl⟩

theorem part_atFront (inside : Grammar body) :
    Part (atFront A B body sig) 0 (.header sig) (body.length + 1) Mark.close.token :=
  part_iff.2 ⟨body, inside, lies_segment [] (declarationTokens sig body) (A ++ B), by omega⟩

/-- A part that begins in front of the declaration ends there, or holds the declaration and is a
block without it. -/
theorem part_hoisted_front (inside : Grammar body) (part : Part (inPlace A B body sig) i x j y)
    (ender : y.endsPart = true) (front : i < A.length) :
    Part (atFront A B body sig) (hoisted A.length (body.length + 2) i) x
      (hoisted A.length (body.length + 2) j) y := by
  obtain ⟨mid, grammar, ⟨r, lies⟩, rfl⟩ := part_iff.1 part
  have first : A.drop i = x :: A.drop (i + 1) ∧
      mid ++ y :: r = A.drop (i + 1) ++ .header sig :: (body ++ Mark.close.token :: B) := by
    rw [inPlace_eq, List.drop_append_of_le_length (by omega), List.drop_eq_getElem_cons front]
      at lies
    obtain ⟨rfl, others⟩ := List.cons.inj lies
    rw [List.drop_eq_getElem_cons front]
    exact ⟨rfl, by simpa using others⟩
  obtain ⟨first, others⟩ := first
  have length : (A.drop (i + 1)).length = A.length - (i + 1) := List.length_drop
  have there : (atFront A B body sig).drop (body.length + 2 + i) = x :: A.drop (i + 1) ++ B := by
    rw [atFront, ← List.drop_drop, List.drop_left' length_declarationTokens,
      List.drop_append_of_le_length (by omega), first]
  rw [hoisted_front (by omega), Nat.add_comm i, part_iff]
  obtain ⟨back, rfl, rfl⟩ | ⟨before, whole, -⟩ := grammar.split inside ender others
  · refine ⟨_, (inside.without grammar).2, ⟨r, ?_⟩, ?_⟩
    · rw [there]
      simp
    · simp only [List.length_append, List.length_cons] at length ⊢
      rw [hoisted_behind (by omega) (by omega)]
      omega
  · refine ⟨mid, grammar, ⟨before ++ B, ?_⟩, ?_⟩
    · rw [there, whole]
      simp
    · have short := congrArg List.length whole
      simp only [List.length_append, List.length_cons, length] at short
      rw [hoisted_front (by omega)]
      omega

/-- A part that begins in the declaration ends there. -/
theorem part_hoisted_inside (inside : Grammar body) (part : Part (inPlace A B body sig) i x j y)
    (opener : x.isOpener = true) (ender : y.endsPart = true) (behind : A.length < i)
    (within : i < A.length + (body.length + 2)) :
    Part (atFront A B body sig) (hoisted A.length (body.length + 2) i) x
      (hoisted A.length (body.length + 2) j) y := by
  -- the declaration ends with a token that opens nothing
  have ne : i ≠ A.length + 1 + body.length := by
    rintro rfl
    obtain rfl := Option.some.inj ((part_inPlace inside).ends.symm.trans part.opens)
    cases opener
  have nested := (part_inPlace inside).nested part opener ender behind (by omega)
  have before := part.before
  have place : (declarationTokens sig body).length = body.length + 2 := length_declarationTokens
  rw [hoisted_inside behind within, hoisted_inside (by omega) (by omega)]
  obtain ⟨i, rfl⟩ := Nat.exists_eq_add_of_le (Nat.le_of_lt behind)
  obtain ⟨j, rfl⟩ : ∃ k, j = A.length + k := Nat.exists_eq_add_of_le (by omega)
  have moved := part.transfer (lies_segment A _ B) (lies_segment [] _ (A ++ B)) (by omega)
  rwa [List.length_nil, Nat.zero_add, Nat.zero_add, ← Nat.add_sub_cancel_left A.length i,
    ← Nat.add_sub_cancel_left A.length j] at moved

/-- A part that begins behind the declaration stays where it is. -/
theorem part_hoisted_behind (part : Part (inPlace A B body sig) i x j y)
    (beyond : A.length + (body.length + 2) ≤ i) :
    Part (atFront A B body sig) (hoisted A.length (body.length + 2) i) x
      (hoisted A.length (body.length + 2) j) y := by
  have before := part.before
  have bound := (List.getElem?_eq_some_iff.1 part.ends).1
  rw [hoisted_behind (by omega) beyond, hoisted_behind (by omega) (by omega)]
  obtain ⟨i, rfl⟩ := Nat.exists_eq_add_of_le beyond
  obtain ⟨j, rfl⟩ : ∃ k, j = A.length + (body.length + 2) + k :=
    Nat.exists_eq_add_of_le (by omega)
  refine part.transfer lies_behind.1 lies_behind.2 ?_
  simp only [inPlace, List.length_append, length_declarationTokens] at bound
  omega

/-- **Parts are hoisted**, that of the declaration apart. -/
theorem part_hoisted (inside : Grammar body) (part : Part (inPlace A B body sig) i x j y)
    (opener : x.isOpener = true) (ender : y.endsPart = true) (other : i ≠ A.length) :
    Part (atFront A B body sig) (hoisted A.length (body.length + 2) i) x
      (hoisted A.length (body.length + 2) j) y := by
  rcases Nat.lt_or_ge i A.length with front | behind
  · exact part_hoisted_front inside part ender front
  · rcases Nat.lt_or_ge i (A.length + (body.length + 2)) with within | beyond
    · exact part_hoisted_inside inside part opener ender (by omega) within
    · exact part_hoisted_behind part beyond

/-- Tokens are hoisted. -/
theorem getElem?_hoisted (other : i ≠ A.length) :
    (atFront A B body sig)[hoisted A.length (body.length + 2) i]? = (inPlace A B body sig)[i]? := by
  have place : (declarationTokens sig body).length = body.length + 2 := length_declarationTokens
  unfold atFront inPlace
  rcases Nat.lt_or_ge i A.length with front | behind
  · rw [hoisted_front (by omega), List.getElem?_append_right (by omega), place,
      Nat.add_sub_cancel, List.getElem?_append_left front, List.getElem?_append_left front]
  · rcases Nat.lt_or_ge i (A.length + (body.length + 2)) with within | beyond
    · rw [hoisted_inside (by omega) within, List.getElem?_append_left (by omega),
        List.getElem?_append_right (by omega), List.getElem?_append_left (by omega)]
    · rw [hoisted_behind (by omega) beyond, List.getElem?_append_right (by omega),
        List.getElem?_append_right (by omega), List.getElem?_append_right (by omega),
        List.getElem?_append_right (by omega), place]
      congr 1
      omega

/-- A part that is not the declaration ends elsewhere, and the index behind it is hoisted with
it. -/
theorem hoisted_succ_of_part (inside : Grammar body) (part : Part (inPlace A B body sig) i x j y)
    (opener : x.isOpener = true) (ender : y.endsPart = true) (other : i ≠ A.length) :
    hoisted A.length (body.length + 2) (j + 1) = hoisted A.length (body.length + 2) j + 1 := by
  apply hoisted_succ
  · rintro rfl
    obtain rfl := Option.some.inj ((part_inPlace inside).opens.symm.trans part.ends)
    cases ender
  · intro last
    obtain rfl : j = A.length + 1 + body.length := by omega
    exact other (part.left_unique (part_inPlace inside) opener rfl ender).1

/-- **Instructions are hoisted.** -/
theorem resolved_hoisted (inside : Grammar body) {instr : Instr}
    (resolved : Resolved (inPlace A B body sig) i instr) (other : i ≠ A.length) :
    Resolved (atFront A B body sig) (hoisted A.length (body.length + 2) i)
      (instr.rename (hoisted A.length (body.length + 2))) := by
  -- an index with a word of a block's frame is not the one of the header
  have ne {h j : Nat} {m : Mark} {y : Token} (part : Part (inPlace A B body sig) h m.token j y) :
      h ≠ A.length := by
    rintro rfl
    cases (part_inPlace inside).opens.symm.trans part.opens
  have branch (k : BranchKind) : k.mark.token.isOpener = true := by cases k <;> rfl
  cases resolved with
  | plain here plain => exact .plain (by rwa [getElem?_hoisted other]) plain
  | @branch _ _ k body' =>
    have moved := Resolved.branch (part_hoisted inside body' (branch k) rfl other)
    rwa [← hoisted_succ_of_part inside body' (branch k) rfl other] at moved
  | @choice _ _ k body' =>
    have moved := Resolved.choice (part_hoisted inside body' (branch k) rfl other)
    rwa [← hoisted_succ_of_part inside body' (branch k) rfl other] at moved
  | otherwise alternative =>
    have moved := Resolved.otherwise (part_hoisted inside alternative rfl rfl other)
    rwa [← hoisted_succ_of_part inside alternative rfl rfl other] at moved
  | @loop _ _ k header =>
    have moved := Resolved.loop (part_hoisted inside header (isOpener_loop k) rfl other)
    rwa [← hoisted_succ_of_part inside header (isOpener_loop k) rfl other] at moved
  | @test _ _ _ k header body' =>
    have moved := Resolved.test (part_hoisted inside header (isOpener_loop k) rfl (ne header))
      (part_hoisted inside body' rfl rfl other)
    rwa [← hoisted_succ_of_part inside body' rfl rfl other] at moved
  | header body' =>
    have moved := Resolved.header (part_hoisted inside body' rfl rfl other)
    rwa [← hoisted_succ_of_part inside body' rfl rfl other] at moved
  | @endBranch _ _ k body' =>
    exact .endBranch (part_hoisted inside body' (branch k) rfl (ne body'))
  | endChoice alternative =>
    exact .endChoice (part_hoisted inside alternative rfl rfl (ne alternative))
  | @endLoop _ _ _ k header body' =>
    exact .endLoop (part_hoisted inside header (isOpener_loop k) rfl (ne header))
      (part_hoisted inside body' rfl rfl (ne body'))
  | @endProcedure h _ sig' body' =>
    by_cases same : h = A.length
    · -- this is the end of the declaration itself
      subst same
      obtain rfl := body'.right_unique (part_inPlace inside) rfl rfl
      rw [hoisted_inside (by omega) (by omega),
        show A.length + 1 + body.length - A.length = body.length + 1 by omega]
      exact .endProcedure (part_atFront inside)
    · exact .endProcedure (part_hoisted inside body' rfl rfl same)

end Hoisted

/-! ## Linked programs -/

/-- A program with a declaration of `n` tokens behind the first `g`, and the program with the
declaration at the front. -/
structure Hoists (g n : Nat) (sig : Signature) (program program' : Program) : Prop where
  size : program'.size = program.size
  long : 2 ≤ n
  header : program.instructions[g]? = some { token := .header sig, next := some (g + n) }
  close : program.instructions[g + n - 1]? =
    some { token := Mark.close.token, role := .close .procedure }
  header' : program'.instructions[0]? = some { token := .header sig, next := some n }
  instr : ∀ {i : Nat} {instr : Instr}, i ≠ g → program.instructions[i]? = some instr →
    program'.instructions[hoisted g n i]? = some (instr.rename (hoisted g n))
  found : ∀ name, program'.procedure? name =
    (program.procedure? name).map (Procedure.rename (hoisted g n))
  mem : ∀ {p : Procedure}, p ∈ program.procedures →
    p.rename (hoisted g n) ∈ program'.procedures
  straight : ∀ {p : Procedure}, p ∈ program.procedures → ∀ {i : Nat}, p.start ≤ i → i ≤ p.stop →
    i ≠ g ∧ hoisted g n i = hoisted g n p.start + (i - p.start)

/-- Behind the program is behind the program. -/
theorem Hoists.hoisted_size {g n : Nat} {program program' : Program}
    (h : Hoists g n sig program program') (behind : program.size ≤ i) : hoisted g n i = i := by
  have close := lt_size_of_getElem?_eq_some h.close
  have long := h.long
  apply hoisted_behind <;> omega

theorem Hoists.getElem? {g n : Nat} {program program' : Program}
    (h : Hoists g n sig program program') (other : i ≠ g) :
    program'.instructions[hoisted g n i]? =
      program.instructions[i]?.map (Instr.rename (hoisted g n)) := by
  cases fetched : program.instructions[i]? with
  | some instr => exact h.instr other fetched
  | none =>
    have behind := size_le_of_getElem?_eq_none fetched
    rw [h.hoisted_size behind]
    rw [← h.size] at behind
    exact Array.getElem?_eq_none_iff.2 behind

theorem perm_hoisted : (inPlace A B body sig).Perm (atFront A B body sig) :=
  List.perm_append_comm_assoc A _ B

/-- Procedures are hoisted. -/
theorem mem_procedures_hoisted {b b' : Block} (proper : b.Proper) (proper' : b'.Proper)
    (tokens : b.tokens = inPlace A B body sig) (tokens' : b'.tokens = atFront A B body sig)
    (inside : Grammar body) {p : Procedure} (hp : p ∈ b.program.procedures) :
    p.rename (hoisted A.length (body.length + 2)) ∈ b'.program.procedures := by
  obtain ⟨i, start, part⟩ := (mem_procedures_iff proper).1 hp
  rw [tokens] at part
  rw [mem_procedures_iff proper', tokens']
  by_cases same : i = A.length
  · subst same
    have declared : Part (inPlace A B body sig) _ (.header sig) _ _ := part_inPlace inside
    have stop := part.right_unique declared rfl rfl
    have signature := Token.header.inj (Option.some.inj (part.opens.symm.trans declared.opens))
    simp only [Procedure.rename, start, stop, signature]
    rw [hoisted_inside (by omega) (by omega), hoisted_inside (by omega) (by omega)]
    refine ⟨0, by omega, ?_⟩
    rw [show A.length + 1 + body.length - A.length = body.length + 1 by omega]
    exact part_atFront inside
  · refine ⟨_, ?_, part_hoisted inside part rfl rfl same⟩
    have last := part.before
    simp only [Procedure.rename, start]
    refine hoisted_succ same fun ends => ?_
    obtain rfl : i = A.length + 1 + body.length := by omega
    cases part.opens.symm.trans (part_inPlace inside).ends

/-- Names are hoisted: each leads to the same procedure. -/
theorem procedure?_hoisted {b b' : Block} (wellFormed : b.WellFormed) (wellFormed' : b'.WellFormed)
    (tokens : b.tokens = inPlace A B body sig) (tokens' : b'.tokens = atFront A B body sig)
    (inside : Grammar body) (name : String) :
    b'.program.procedure? name =
      (b.program.procedure? name).map (Procedure.rename (hoisted A.length (body.length + 2))) := by
  cases found : b.program.procedure? name with
  | some p =>
    obtain ⟨hp, rfl⟩ := (procedure?_eq_some_iff wellFormed).1 found
    apply (procedure?_eq_some_iff wellFormed').2
    exact ⟨mem_procedures_hoisted wellFormed.proper wellFormed'.proper tokens tokens' inside hp, rfl⟩
  | none =>
    cases found' : b'.program.procedure? name with
    | none => rfl
    | some p' =>
      -- both lists declare the same signatures, so the name is declared before the move too
      obtain ⟨hp', rfl⟩ := (procedure?_eq_some_iff wellFormed').1 found'
      have declared : p'.signature ∈ signatures b.tokens := by
        rw [tokens, signatures, (perm_hoisted.filterMap _).mem_iff, ← tokens', ← signatures,
          ← map_signature_procedures wellFormed'.proper 0]
        exact List.mem_map_of_mem hp'
      rw [← map_signature_procedures wellFormed.proper 0] at declared
      obtain ⟨p, hp, same⟩ := List.mem_map.1 declared
      have known := (procedure?_eq_some_iff wellFormed).2 ⟨hp, congrArg Signature.name same⟩
      cases found.symm.trans known

/-- A procedure body lies in one piece before and behind the move. -/
theorem hoisted_straight {b : Block} (proper : b.Proper) (tokens : b.tokens = inPlace A B body sig)
    (inside : Grammar body) {p : Procedure} (hp : p ∈ b.program.procedures) (start : p.start ≤ i)
    (stop : i ≤ p.stop) :
    i ≠ A.length ∧ hoisted A.length (body.length + 2) i =
      hoisted A.length (body.length + 2) p.start + (i - p.start) := by
  have declared : Part (inPlace A B body sig) _ (.header sig) _ _ := part_inPlace inside
  rw [← tokens] at declared
  have own := (mem_procedures_iff proper (p := ⟨_, _, sig⟩)).2 ⟨A.length, rfl, declared⟩
  obtain ⟨h, first, part⟩ := (mem_procedures_iff proper).1 hp
  have apart := not_covers_header proper hp declared.opens
  have apart' := not_covers_header proper own part.opens
  have same : h = A.length → p.stop = A.length + 1 + body.length := by
    rintro rfl
    exact part.right_unique declared rfl rfl
  simp only [Procedure.Covers] at apart apart'
  unfold hoisted
  constructor
  · omega
  · split <;> split <;> (try split) <;> (try split) <;> omega

/-- **A declaration can be hoisted** in every linked program. -/
theorem exists_hoists {program : Program}
    (linked : Program.ofTokens (inPlace A B body sig) = .ok program) (inside : Grammar body) :
    ∃ program', Program.ofTokens (atFront A B body sig) = .ok program' ∧
      Hoists A.length (body.length + 2) sig program program' := by
  obtain ⟨b, wellFormed, tokens, rfl⟩ := ofTokens_ok linked
  have proper := wellFormed.proper
  have grammar := grammar_tokens proper
  have distinct := wellFormed.distinct
  rw [names_eq_signatures proper, tokens] at distinct
  rw [tokens, inPlace_eq] at grammar
  obtain ⟨flat, shorter⟩ := inside.without grammar
  have front : Grammar (atFront A B body sig) := by
    simpa [atFront, declarationTokens] using @Grammar.procedure sig _ _ inside flat shorter
  obtain ⟨b', proper', tokens'⟩ := grammar_iff.1 front
  have wellFormed' : b'.WellFormed := by
    refine ⟨proper', ?_⟩
    rw [names_eq_signatures proper', tokens']
    exact (((perm_hoisted.filterMap _).map _).nodup_iff).1 distinct
  have fetch {i : Nat} {instr : Instr} :
      b.program.instructions[i]? = some instr ↔ Resolved (inPlace A B body sig) i instr := by
    rw [← tokens]
    exact getElem?_program_iff proper
  have fetch' {i : Nat} {instr : Instr} :
      b'.program.instructions[i]? = some instr ↔ Resolved (atFront A B body sig) i instr := by
    rw [← tokens']
    exact getElem?_program_iff proper'
  have mem {p : Procedure} (hp : p ∈ b.program.procedures) :=
    mem_procedures_hoisted proper proper' tokens tokens' inside hp
  refine ⟨b'.program, ?_, ?_⟩
  · rw [Program.ofTokens, ← tokens', ofTokens_tokens wellFormed']
    rfl
  · constructor
    · rw [size_program, size_program, ← length_tokens, ← length_tokens, tokens, tokens']
      exact perm_hoisted.length_eq.symm
    · omega
    · have resolved := fetch.2 (.header (part_inPlace inside))
      rwa [show A.length + 1 + body.length + 1 = A.length + (body.length + 2) by omega] at resolved
    · rw [show A.length + (body.length + 2) - 1 = A.length + 1 + body.length by omega]
      exact fetch.2 (.endProcedure (part_inPlace inside))
    · exact fetch'.2 (.header (part_atFront inside))
    · exact fun other fetched => fetch'.2 (resolved_hoisted inside (fetch.1 fetched) other)
    · exact procedure?_hoisted wellFormed wellFormed' tokens tokens' inside
    · exact mem
    · exact fun hp => hoisted_straight proper tokens inside hp

end Block

end Chore
