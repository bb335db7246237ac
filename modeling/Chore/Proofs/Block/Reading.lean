import Chore.Proofs.Block.WellFormed

/-!
# Reading blocks back

Every well-formed block is read back from its tokens (`ofTokens_tokens`), so a token list spells
at most one block. Reading the tokens of a block, wherever it stands, adds its steps and its names
to what the builder has and changes nothing else.
-/

set_option autoImplicit false

namespace Chore.Block

/-- The steps of a block, in order. -/
def items : Block → List Item
  | nil => []
  | plain t rest => .plain t :: rest.items
  | branch k body rest => .branch k body :: rest.items
  | choice k body alternative rest => .choice k body alternative :: rest.items
  | loop k header body rest => .loop k header body :: rest.items
  | procedure sig body rest => .procedure sig body :: rest.items

theorem ofReversed_items (b : Block) : ofReversed b.items.reverse = b := by
  rw [ofReversed, List.foldl_reverse]
  induction b with
  | nil => rfl
  | plain t rest ih => exact congrArg (plain t) ih
  | branch k body rest _ ih => exact congrArg (branch k body) ih
  | choice k body alternative rest _ _ ih => exact congrArg (choice k body alternative) ih
  | loop k header body rest _ _ ih => exact congrArg (loop k header body) ih
  | procedure sig body rest _ ih => exact congrArg (procedure sig body) ih

namespace Builder

/-- The builder once the tokens of a block have been read. -/
def having (builder : Builder) (b : Block) : Builder :=
  { builder with
    items := b.items.reverse ++ builder.items
    declared := b.names.reverse ++ builder.declared }

/-- A block can be read here: its names are new and distinct, and it declares no procedure where a
procedure is open. -/
structure Admits (builder : Builder) (b : Block) : Prop where
  proper : b.Proper
  distinct : b.names.Nodup
  fresh : ∀ name ∈ b.names, name ∉ builder.declared
  outside : b.names ≠ [] → ∀ f ∈ builder.frames, f.opener.isProcedure = false

/-- A part of a block can be read where the names in front of it have been declared and no other
procedure has been opened. -/
theorem Admits.part {builder inner : Builder} {b part : Block} (h : builder.Admits b)
    (proper : part.Proper) {front back : List String}
    (names : b.names = front ++ (part.names ++ back))
    (declared : inner.declared = front.reverse ++ builder.declared)
    (frames : ∀ f ∈ inner.frames, f.opener.isProcedure = true → f ∈ builder.frames) :
    inner.Admits part := by
  have distinct := h.distinct
  rw [names, List.nodup_append, List.nodup_append] at distinct
  obtain ⟨-, ⟨distinct, -, -⟩, apart⟩ := distinct
  refine ⟨proper, distinct, fun name mem => ?_, fun some f mem => ?_⟩
  · rw [declared, List.mem_append, List.mem_reverse, not_or]
    refine ⟨fun earlier => apart name earlier name (by simp [mem]) rfl, h.fresh name ?_⟩
    simp [names, mem]
  · cases open_ : f.opener.isProcedure with
    | false => rfl
    | true =>
      rw [← open_]
      exact h.outside (by simp [names, some]) f (frames f mem open_)

theorem readAll_cons {builder after : Builder} {index : Nat} {t : Token} {ts : List Token}
    (h : builder.read index t = .ok after) :
    builder.readAll index (t :: ts) = after.readAll (index + 1) ts := by
  rw [readAll, h]
  rfl

theorem read_plain (builder : Builder) (index : Nat) {t : Token} (h : t.isPlain = true) :
    builder.read index t = .ok (builder.add (.plain t)) := by
  cases t with
  | literal v => rfl
  | header sig => cases h
  | name s => rfl
  | word w =>
    cases w with
    | mark m => cases h
    | _ => rfl

theorem read_branch (builder : Builder) (index : Nat) (k : BranchKind) :
    builder.read index k.mark.token = .ok (builder.enter (.branch k) index) := by
  cases k <;> rfl

theorem read_loop (builder : Builder) (index : Nat) (k : LoopKind) :
    builder.read index k.mark.token = .ok (builder.enter (.header k) index) := by
  cases k <;> rfl

theorem read_header {builder : Builder} {sig : Signature} (index : Nat)
    (outside : ∀ f ∈ builder.frames, f.opener.isProcedure = false)
    (fresh : sig.name ∉ builder.declared) :
    builder.read index (.header sig) = .ok (builder.enter (.procedure sig) index) := by
  have h : (builder.frames.any fun f => f.opener.isProcedure) = false := by simpa using outside
  simp [read, declare, h, fresh]

/-- The open procedures are those that were open before. -/
theorem mem_of_isProcedure {f g : Frame} {frames : List Frame} (h : f ∈ g :: frames)
    (is : f.opener.isProcedure = true) (other : g.opener.isProcedure = false) : f ∈ frames := by
  rcases List.mem_cons.1 h with rfl | h
  · rw [other] at is
    cases is
  · exact h

/-- Reading the tokens of a block adds the block to what has been read. -/
def ReadsBack (b : Block) : Prop :=
  ∀ {builder : Builder}, builder.Admits b → ∀ (index : Nat) (ts : List Token),
    builder.readAll index (b.tokens ++ ts) = (builder.having b).readAll (index + b.size) ts

theorem readsBack_plain {t : Token} {rest : Block} (ih : ReadsBack rest) :
    ReadsBack (.plain t rest) := by
  intro builder h index ts
  have admits : (builder.add (.plain t)).Admits rest :=
    @Admits.part _ _ _ _ h h.proper.2 [] [] (by simp [Block.names]) rfl (fun _ mem _ => mem)
  rw [Block.tokens, List.cons_append, readAll_cons (builder.read_plain index h.proper.1),
    ih admits]
  simp [having, add, Block.items, Block.names, Block.size, Nat.add_assoc, Nat.add_comm]

theorem readsBack_branch {k : BranchKind} {body rest : Block} (ihb : ReadsBack body)
    (ihr : ReadsBack rest) :
    ReadsBack (.branch k body rest) := by
  intro builder h index ts
  let inside := (builder.enter (.branch k) index).having body
  let behind : Builder :=
    { builder with
      items := .branch k body :: builder.items
      declared := body.names.reverse ++ builder.declared }
  have first : (builder.enter (.branch k) index).Admits body :=
    @Admits.part _ _ _ _ h h.proper.1 [] rest.names rfl rfl
      fun _ mem is => mem_of_isProcedure mem is rfl
  have closes (i : Nat) : inside.read i Mark.close.token = .ok behind := by
    simp [inside, behind, having, enter, read, close, Mark.token, leave, ofReversed_items]
  have second : behind.Admits rest :=
    @Admits.part _ _ _ _ h h.proper.2 body.names [] (by simp [Block.names]) rfl
      fun _ mem _ => mem
  have same : behind.having rest = builder.having (.branch k body rest) := by
    simp [behind, having, Block.items, Block.names]
  rw [Block.tokens, List.cons_append, List.append_assoc, List.cons_append,
    readAll_cons (builder.read_branch index k), ihb first, readAll_cons (closes _), ihr second,
    same, show index + 1 + body.size + 1 + rest.size = index + (Block.branch k body rest).size by
      simp only [Block.size]; omega]

theorem readsBack_choice {k : BranchKind} {body alternative rest : Block} (ihb : ReadsBack body)
    (iha : ReadsBack alternative) (ihr : ReadsBack rest) :
    ReadsBack (.choice k body alternative rest) := by
  intro builder h index ts
  let inside := (builder.enter (.branch k) index).having body
  let divided (i : Nat) : Builder :=
    { builder with
      items := []
      frames := ⟨.alternative k body, i, builder.items⟩ :: builder.frames
      declared := body.names.reverse ++ builder.declared }
  let behind : Builder :=
    { builder with
      items := .choice k body alternative :: builder.items
      declared := alternative.names.reverse ++ (body.names.reverse ++ builder.declared) }
  have first : (builder.enter (.branch k) index).Admits body :=
    @Admits.part _ _ _ _ h h.proper.1 [] (alternative.names ++ rest.names) rfl rfl
      fun _ mem is => mem_of_isProcedure mem is rfl
  have divides (i : Nat) : inside.read i Mark.otherwise.token = .ok (divided i) := by
    simp [inside, divided, having, enter, read, otherwise, Mark.token, proceed, ofReversed_items]
  have second (i : Nat) : (divided i).Admits alternative :=
    @Admits.part _ _ _ _ h h.proper.2.1 body.names rest.names rfl rfl
      fun _ mem is => mem_of_isProcedure mem is rfl
  have closes (i j : Nat) : ((divided i).having alternative).read j Mark.close.token =
      .ok behind := by
    simp [divided, behind, having, read, close, Mark.token, leave, ofReversed_items]
  have third : behind.Admits rest :=
    @Admits.part _ _ _ _ h h.proper.2.2 (body.names ++ alternative.names) []
      (by simp [Block.names]) (by simp [behind]) fun _ mem _ => mem
  have same : behind.having rest = builder.having (.choice k body alternative rest) := by
    simp [behind, having, Block.items, Block.names]
  rw [Block.tokens, List.cons_append, List.append_assoc, List.cons_append, List.append_assoc,
    List.cons_append, readAll_cons (builder.read_branch index k), ihb first,
    readAll_cons (divides _), iha (second _), readAll_cons (closes _ _), ihr third, same,
    show index + 1 + body.size + 1 + alternative.size + 1 + rest.size =
      index + (Block.choice k body alternative rest).size by simp only [Block.size]; omega]

theorem readsBack_loop {k : LoopKind} {header body rest : Block} (ihh : ReadsBack header)
    (ihb : ReadsBack body) (ihr : ReadsBack rest) :
    ReadsBack (.loop k header body rest) := by
  intro builder h index ts
  let inside := (builder.enter (.header k) index).having header
  let tested (i : Nat) : Builder :=
    { builder with
      items := []
      frames := ⟨.body k header, i, builder.items⟩ :: builder.frames
      declared := header.names.reverse ++ builder.declared }
  let behind : Builder :=
    { builder with
      items := .loop k header body :: builder.items
      declared := body.names.reverse ++ (header.names.reverse ++ builder.declared) }
  have first : (builder.enter (.header k) index).Admits header :=
    @Admits.part _ _ _ _ h h.proper.1 [] (body.names ++ rest.names) rfl rfl
      fun _ mem is => mem_of_isProcedure mem is rfl
  have tests (i : Nat) : inside.read i Mark.test.token = .ok (tested i) := by
    simp [inside, tested, having, enter, read, test, Mark.token, proceed, ofReversed_items]
  have second (i : Nat) : (tested i).Admits body :=
    @Admits.part _ _ _ _ h h.proper.2.1 header.names rest.names rfl rfl
      fun _ mem is => mem_of_isProcedure mem is rfl
  have closes (i j : Nat) : ((tested i).having body).read j Mark.close.token = .ok behind := by
    simp [tested, behind, having, read, close, Mark.token, leave, ofReversed_items]
  have third : behind.Admits rest :=
    @Admits.part _ _ _ _ h h.proper.2.2 (header.names ++ body.names) []
      (by simp [Block.names]) (by simp [behind]) fun _ mem _ => mem
  have same : behind.having rest = builder.having (.loop k header body rest) := by
    simp [behind, having, Block.items, Block.names]
  rw [Block.tokens, List.cons_append, List.append_assoc, List.cons_append, List.append_assoc,
    List.cons_append, readAll_cons (builder.read_loop index k), ihh first,
    readAll_cons (tests _), ihb (second _), readAll_cons (closes _ _), ihr third, same,
    show index + 1 + header.size + 1 + body.size + 1 + rest.size =
      index + (Block.loop k header body rest).size by simp only [Block.size]; omega]

theorem readsBack_procedure {sig : Signature} {body rest : Block} (ihb : ReadsBack body)
    (ihr : ReadsBack rest) :
    ReadsBack (.procedure sig body rest) := by
  intro builder h index ts
  obtain ⟨body_proper, empty, rest_proper⟩ := h.proper
  let inside := (builder.enter (.procedure sig) index).having body
  let behind : Builder :=
    { builder with
      items := .procedure sig body :: builder.items
      declared := sig.name :: builder.declared }
  have opens : builder.read index (.header sig) = .ok (builder.enter (.procedure sig) index) :=
    read_header index (h.outside (by simp [Block.names])) (h.fresh _ (by simp [Block.names]))
  have first : (builder.enter (.procedure sig) index).Admits body :=
    ⟨body_proper, by simp [empty], by simp [empty], fun some => absurd empty some⟩
  have closes (i : Nat) : inside.read i Mark.close.token = .ok behind := by
    simp [inside, behind, having, enter, read, close, Mark.token, leave, ofReversed_items, empty]
  have second : behind.Admits rest :=
    @Admits.part _ _ _ _ h rest_proper [sig.name] [] (by simp [Block.names, empty]) rfl
      fun _ mem _ => mem
  have same : behind.having rest = builder.having (.procedure sig body rest) := by
    simp [behind, having, Block.items, Block.names, empty]
  rw [Block.tokens, List.cons_append, List.append_assoc, List.cons_append,
    readAll_cons opens, ihb first, readAll_cons (closes _), ihr second,
    same, show index + 1 + body.size + 1 + rest.size =
      index + (Block.procedure sig body rest).size by simp only [Block.size]; omega]

/-- **Every block is read back.** -/
theorem readsBack (b : Block) : ReadsBack b := by
  induction b with
  | nil => exact fun _ _ _ => rfl
  | plain t rest ih => exact readsBack_plain ih
  | branch k body rest ihb ihr => exact readsBack_branch ihb ihr
  | choice k body alternative rest ihb iha ihr => exact readsBack_choice ihb iha ihr
  | loop k header body rest ihh ihb ihr => exact readsBack_loop ihh ihb ihr
  | procedure sig body rest ihb ihr => exact readsBack_procedure ihb ihr

end Builder

/-- **A well-formed block is read back** from its tokens. -/
theorem ofTokens_tokens {b : Block} (h : b.WellFormed) : ofTokens b.tokens = .ok b := by
  have admits : Builder.Admits {} b := ⟨h.proper, h.distinct, by simp, by simp⟩
  have reads := Builder.readsBack b admits 0 []
  rw [List.append_nil] at reads
  rw [ofTokens, reads]
  simp [Builder.readAll, Builder.having, Builder.finish, ofReversed_items, bind, Except.bind]

/-- A token list is linked exactly if it spells a well-formed block, and only one. -/
theorem ofTokens_eq_ok_iff {ts : List Token} {b : Block} :
    ofTokens ts = .ok b ↔ b.WellFormed ∧ b.tokens = ts := by
  constructor
  · intro h
    obtain ⟨tokens, wellFormed⟩ := ofTokens_wellFormed h
    exact ⟨wellFormed, tokens⟩
  · rintro ⟨wellFormed, rfl⟩
    exact ofTokens_tokens wellFormed

end Chore.Block
