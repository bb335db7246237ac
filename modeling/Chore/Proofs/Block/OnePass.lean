import Chore.Block.Linker
import Chore.Proofs.Block.Prefixes

/-!
# One pass

Linking in one pass answers what reading the block structure and laying it out answers, errors
included (`link_eq_ofTokens`). What was read is laid out as `Builder.code`, in which the openers of
the parts being read have no targets yet, and the linker has these instructions with the tokens to
come behind them (`Matches`). Its stack holds the indices of the frames. So a word that ends a part
finds the opener of that part, and once it has given it its target and changed its own instruction,
the construct is laid out as far as it was read (`Innermost.patch`).

Each word does the same to both (`agree_read`), and so do all of them, one behind the other
(`agree_readAll`).
-/

set_option autoImplicit false

namespace Chore.Block

/-! ## Layouts, step by step -/

/-- What a block is laid out as is what its first step is, and behind it what the others are. -/
structure Stepwise {α : Type} (layout : Nat → Block → List α) : Prop where
  ends : ∀ base, layout base nil = []
  goesOn : ∀ (i : Item) (rest : Block) (base : Nat), layout base (i.before rest) =
    layout base (i.before nil) ++ layout (base + (i.before nil).size) rest

theorem stepwise_instructions : Stepwise instructions where
  ends _ := rfl
  goesOn i rest base := by
    cases i <;> simp [Item.before, instructions, size] <;> congr 1 <;> omega

theorem stepwise_procedures : Stepwise procedures where
  ends _ := rfl
  goesOn i rest base := by
    cases i <;> simp [Item.before, procedures, size] <;> congr 1 <;> omega

theorem size_ofReversed_cons (i : Item) (items : List Item) :
    (ofReversed (i :: items)).size = (ofReversed items).size + (i.before nil).size := by
  rw [← length_tokens, ← length_tokens, ← length_tokens, tokens_ofReversed_cons, List.length_append]
  rfl

theorem Stepwise.foldl_before {α : Type} {layout : Nat → Block → List α} (h : Stepwise layout)
    (items : List Item) (b : Block) (base : Nat) :
    layout base (items.foldl (fun rest item => item.before rest) b) =
      layout base (ofReversed items) ++ layout (base + (ofReversed items).size) b := by
  induction items generalizing b with
  | nil => simp [ofReversed, h.ends, size]
  | cons i items ih =>
    rw [List.foldl_cons, ih, h.goesOn i b, size_ofReversed_cons, ← List.append_assoc,
      ← Nat.add_assoc]
    exact congrArg (· ++ _) (ih (i.before nil)).symm

/-- A step behind some others is laid out behind them. -/
theorem Stepwise.ofReversed_cons {α : Type} {layout : Nat → Block → List α} (h : Stepwise layout)
    (i : Item) (items : List Item) (base : Nat) :
    layout base (ofReversed (i :: items)) =
      layout base (ofReversed items) ++ layout (base + (ofReversed items).size) (i.before nil) :=
  h.foldl_before items (i.before nil) base

/-! ## Open constructs -/

/-- The instruction that opens the part being read of a construct that starts at an index. It has no
target yet. -/
def Opener.instr (start : Nat) : Opener → Instr
  | body k _ => { token := Mark.test.token, role := .test k start }
  | o => { token := o.token }

/-- The instructions of an open construct in front of the one that opens the part being read. -/
def Opener.front (start : Nat) : Opener → List Instr
  | alternative k first =>
    { token := k.mark.token, next := some (start + first.size + 2) } ::
      first.instructions (start + 1)
  | body k first =>
    { token := k.mark.token, next := some (start + first.size + 2) } ::
      first.instructions (start + 1)
  | _ => []

/-- The procedures declared in the parts of an open construct that are complete. -/
def Opener.procedures (start : Nat) : Opener → List Procedure
  | alternative _ first => first.procedures (start + 1)
  | body _ first => first.procedures (start + 1)
  | _ => []

@[simp] theorem Opener.token_instr (o : Opener) (start : Nat) :
    (o.instr start).token = o.token := by
  cases o <;> rfl

theorem Opener.map_token_front (o : Opener) (start : Nat) :
    (o.front start).map Instr.token ++ [o.token] = o.spelled := by
  cases o <;> simp [front, spelled, token, map_token_instructions]

/-- The part being read is the first of its construct. -/
structure Opener.IsFirst (o : Opener) : Prop where
  front : ∀ start, o.front start = []
  instr : ∀ start, o.instr start = .ofToken o.token
  procedures : ∀ start, o.procedures start = []

theorem Opener.isFirst_branch (k : BranchKind) : (branch k).IsFirst :=
  ⟨fun _ => rfl, fun _ => rfl, fun _ => rfl⟩

theorem Opener.isFirst_header (k : LoopKind) : (header k).IsFirst :=
  ⟨fun _ => rfl, fun _ => rfl, fun _ => rfl⟩

theorem Opener.isFirst_procedure (sig : Signature) : (procedure sig).IsFirst :=
  ⟨fun _ => rfl, fun _ => rfl, fun _ => rfl⟩

/-- The instructions of an open construct once the part being read is over: the instruction in front
of the part has its target, and another one is behind it. -/
def Opener.passed (o : Opener) (start : Nat) (items : List Item) (last : Instr) : List Instr :=
  let index := start + (o.front start).length
  o.front start ++ { o.instr start with next := some (index + (ofReversed items).size + 2) } ::
    ((ofReversed items).instructions (index + 1) ++ [last])

/-- The procedures declared in it. -/
def Opener.declared (o : Opener) (start : Nat) (items : List Item) : List Procedure :=
  o.procedures start ++ (ofReversed items).procedures (start + (o.front start).length + 1)

/-- A part that is over is the front of the next one. -/
structure Opener.Before (o p : Opener) (start : Nat) (items : List Item) (last : Instr) : Prop where
  code : p.front start ++ [p.instr start] = o.passed start items last
  procedures : p.procedures start = o.declared start items
  outside : o.isProcedure = false ∧ p.isProcedure = false

theorem Opener.before_alternative (k : BranchKind) (start : Nat) (items : List Item) :
    (branch k).Before (alternative k (ofReversed items)) start items
      (.ofToken Mark.otherwise.token) where
  code := rfl
  procedures := rfl
  outside := ⟨rfl, rfl⟩

theorem Opener.before_body (k : LoopKind) (start : Nat) (items : List Item) :
    (header k).Before (body k (ofReversed items)) start items
      { token := Mark.test.token, role := .test k start } where
  code := rfl
  procedures := rfl
  outside := ⟨rfl, rfl⟩

/-- The instruction of a closing word. -/
def closer (what : Closing) (next : Option Nat) : Instr where
  token := Mark.close.token
  role := .close what
  next := next

/-- A part that is over is the last of its construct, which is no procedure. -/
structure Opener.Ends (o : Opener) (item : Item) (start : Nat) (items : List Item)
    (last : Instr) : Prop where
  code : (item.before nil).instructions start = o.passed start items last
  procedures : (item.before nil).procedures start = o.declared start items
  outside : o.isProcedure = false

theorem Opener.ends_branch (k : BranchKind) (start : Nat) (items : List Item) :
    (branch k).Ends (.branch k (ofReversed items)) start items (closer .branch none) where
  code := rfl
  procedures := List.append_nil _
  outside := rfl

theorem Opener.ends_alternative (k : BranchKind) (first : Block) (start : Nat) (items : List Item) :
    (alternative k first).Ends (.choice k first (ofReversed items)) start items
      (closer .branch none) := by
  have index : start + ((alternative k first).front start).length = start + first.size + 1 := by
    simp [front, Nat.add_assoc]
  refine ⟨?_, ?_, rfl⟩
  · rw [passed, index]
    simp [Item.before, instructions, front, instr, token, closer, Nat.add_right_comm _ 1]
  · rw [declared, index]
    simp [Item.before, Block.procedures, procedures]

theorem Opener.ends_body (k : LoopKind) (first : Block) (start : Nat) (items : List Item) :
    (body k first).Ends (.loop k first (ofReversed items)) start items
      (closer (.loop start) (some start)) := by
  have index : start + ((body k first).front start).length = start + first.size + 1 := by
    simp [front, Nat.add_assoc]
  refine ⟨?_, ?_, rfl⟩
  · rw [passed, index]
    simp [Item.before, instructions, front, instr, closer, Nat.add_right_comm _ 1]
  · rw [declared, index]
    simp [Item.before, Block.procedures, procedures]

theorem Opener.instructions_procedure (sig : Signature) (start : Nat) (items : List Item) :
    ((Item.procedure sig (ofReversed items)).before nil).instructions start =
      (procedure sig).passed start items (closer .procedure none) :=
  rfl

/-- Instructions with steps laid out behind them. -/
def behind (code : List Instr) (items : List Item) : List Instr :=
  code ++ (ofReversed items).instructions code.length

/-- Procedures with those declared by steps behind some instructions. -/
def listed (procedures : List Procedure) (code : List Instr) (items : List Item) : List Procedure :=
  procedures ++ (ofReversed items).procedures code.length

theorem length_behind (code : List Instr) (items : List Item) :
    (behind code items).length = code.length + (ofReversed items).size := by
  rw [behind, List.length_append, length_instructions]

theorem behind_cons (code : List Instr) (i : Item) (items : List Item) :
    behind code (i :: items) =
      behind code items ++ (i.before nil).instructions (behind code items).length := by
  rw [length_behind, behind, stepwise_instructions.ofReversed_cons, ← List.append_assoc]
  rfl

theorem listed_cons (procedures : List Procedure) (code : List Instr) (i : Item)
    (items : List Item) :
    listed procedures code (i :: items) =
      listed procedures code items ++ (i.before nil).procedures (behind code items).length := by
  rw [length_behind, listed, stepwise_procedures.ofReversed_cons, ← List.append_assoc]
  rfl

theorem map_name_procedures (b : Block) (base : Nat) :
    (b.procedures base).map Procedure.name = b.names := by
  rw [b.procedures_eq base, b.names_eq base, List.map_map]
  rfl

theorem procedures_eq_nil {b : Block} (none : b.names = []) (base : Nat) :
    b.procedures base = [] := by
  rw [b.procedures_eq base, declarations_eq_nil none, List.map_nil]

theorem map_name_listed (procedures : List Procedure) (code : List Instr) (items : List Item) :
    (listed procedures code items).map Procedure.name =
      procedures.map Procedure.name ++ (ofReversed items).names := by
  rw [listed, List.map_append, map_name_procedures]

theorem Opener.map_name_procedures (o : Opener) (start : Nat) :
    (o.procedures start).map Procedure.name = o.names := by
  cases o with
  | alternative k first => exact first.map_name_procedures (start + 1)
  | body k first => exact first.map_name_procedures (start + 1)
  | _ => rfl

namespace Frame

/-- The instructions up to the innermost part being read. -/
def code : List Frame → List Instr
  | [] => []
  | f :: fs =>
    let outer := behind (code fs) f.before
    outer ++ f.opener.front outer.length ++ [f.opener.instr outer.length]

/-- The procedures declared up to the innermost part being read. -/
def declared : List Frame → List Procedure
  | [] => []
  | f :: fs =>
    listed (declared fs) (code fs) f.before ++
      f.opener.procedures (behind (code fs) f.before).length

theorem map_token_code (fs : List Frame) :
    (code fs).map Instr.token = fs.reverse.flatMap Frame.spelled := by
  induction fs with
  | nil => rfl
  | cons f fs ih =>
    simp [code, behind, ih, spelled, f.opener.map_token_front, map_token_instructions]

theorem map_name_declared (fs : List Frame) :
    (declared fs).map Procedure.name = fs.reverse.flatMap Frame.names := by
  induction fs with
  | nil => rfl
  | cons f fs ih =>
    simp [declared, map_name_listed, ih, names, f.opener.map_name_procedures]

end Frame

namespace Builder

/-- The instructions read so far, linked as far as they are read. -/
def code (b : Builder) : List Instr :=
  behind (Frame.code b.frames) b.items

/-- The procedures declared so far. -/
def procedures (b : Builder) : List Procedure :=
  listed (Frame.declared b.frames) (Frame.code b.frames) b.items

theorem map_token_code (b : Builder) : b.code.map Instr.token = b.spelled := by
  rw [code, behind, spelled, List.map_append, Frame.map_token_code, map_token_instructions]

theorem length_code (b : Builder) : b.code.length = b.spelled.length := by
  rw [← b.map_token_code, List.length_map]

theorem map_name_procedures (b : Builder) : b.procedures.map Procedure.name = b.names := by
  rw [procedures, map_name_listed, Frame.map_name_declared, names]

end Builder

/-! ## The code of the linker -/

section Patches

variable {n : Nat} {l : Linker n} {i : Fin n} {front back : List Instr} {a : Instr}

theorem getElem_code (code : l.code.toList = front ++ a :: back) (here : i.val = front.length) :
    l.code[i] = a := by
  have bound : i.val < l.code.toList.length := by simp
  have same : l.code.toList.get ⟨i.val, bound⟩ = l.code[i] := Vector.getElem_toList bound
  rw [← same]
  simp [code, here]

theorem code_patch (code : l.code.toList = front ++ a :: back) (here : i.val = front.length)
    (change : Instr → Instr) : (l.patch i change).code.toList = front ++ change a :: back := by
  rw [Linker.patch, Vector.toList_set, getElem_code code here, code, here,
    List.set_append_right _ _ (Nat.le_refl _), Nat.sub_self, List.set_cons_zero]

end Patches

/-! ## Linker and builder -/

variable {n : Nat}

/-- The linker and the builder have read the same and have some tokens in front of them. -/
structure Matches (l : Linker n) (b : Builder) (ts : List Token) : Prop where
  code : l.code.toList = b.code ++ ts.map Instr.ofToken
  opened : l.opened.map Fin.val = b.frames.map Frame.index
  header : l.header?.isSome = b.frames.any fun f => f.opener.isProcedure
  procedures : l.procedures = b.procedures

/-- They come to the same, with some tokens in front of them. -/
def Agree (ts : List Token) : Except LinkError (Linker n) → Except LinkError Builder → Prop
  | .ok l, .ok b => Matches l b ts
  | .error e, .error e' => e = e'
  | _, _ => False

theorem Agree.cases {ts : List Token} {x : Except LinkError (Linker n)}
    {y : Except LinkError Builder} (agree : Agree ts x y) :
    (∃ e, x = .error e ∧ y = .error e) ∨ ∃ l b, x = .ok l ∧ y = .ok b ∧ Matches l b ts := by
  cases x with
  | error e =>
    cases y with
    | error e' => exact .inl ⟨e, rfl, congrArg Except.error agree.symm⟩
    | ok b => exact agree.elim
  | ok l =>
    cases y with
    | error e' => exact agree.elim
    | ok b => exact .inr ⟨l, b, rfl, rfl, agree⟩

/-- What both have in front of them is not linked. -/
theorem Matches.token {l : Linker n} {b : Builder} {t : Token} {ts : List Token} {i : Fin n}
    (m : Matches l b (t :: ts)) (here : i.val = b.spelled.length) : l.code[i] = .ofToken t :=
  getElem_code m.code (by rw [here, b.length_code])

/-- Where nothing is open there is nothing on the stack. -/
theorem Matches.opened_nil {l : Linker n} {b : Builder} {ts : List Token} (m : Matches l b ts)
    (closed : b.frames = []) : l.opened = [] := by
  have opened := m.opened
  rw [closed] at opened
  exact List.map_eq_nil_iff.1 opened

section Words

variable {l : Linker n} {b : Builder} {t : Token} {ts : List Token} {o : Opener} {j : Nat}
  {before : List Item} {fs : List Frame} {opener i : Fin n} {opened : List (Fin n)}

/-- The innermost opener, as both have it. -/
structure Innermost (l : Linker n) (b : Builder) (ts : List Token) (o : Opener) (j : Nat)
    (before : List Item) (fs : List Frame) (opener : Fin n) (opened : List (Fin n)) : Prop where
  here : b.frames = ⟨o, j, before⟩ :: fs
  top : l.opened = opener :: opened
  below : opened.map Fin.val = fs.map Frame.index
  index : opener.val = j
  place : j = (behind (Frame.code fs) before).length +
    (o.front (behind (Frame.code fs) before).length).length
  reached : b.spelled.length = j + (ofReversed b.items).size + 1
  code : l.code.toList = (behind (Frame.code fs) before ++
    o.front (behind (Frame.code fs) before).length) ++
      o.instr (behind (Frame.code fs) before).length ::
        ((ofReversed b.items).instructions (j + 1) ++ ts.map Instr.ofToken)
  procedures : l.procedures = listed (Frame.declared fs) (Frame.code fs) before ++
    o.declared (behind (Frame.code fs) before).length b.items

theorem Matches.innermost (m : Matches l b ts) (indexed : b.Indexed)
    (here : b.frames = ⟨o, j, before⟩ :: fs) :
    ∃ opener opened, Innermost l b ts o j before fs opener opened := by
  have opened := m.opened
  rw [here, List.map_cons] at opened
  obtain ⟨opener, others, top, index, below⟩ := List.map_eq_cons_iff.1 opened
  have length : (Frame.code (⟨o, j, before⟩ :: fs)).length = j + 1 := by
    have innermost : ⟨o, j, before⟩ :: fs <:+ b.frames := here ▸ List.suffix_rfl
    have last := indexed _ fs innermost
    rwa [← Frame.map_token_code, List.length_map] at last
  have place : j = (behind (Frame.code fs) before).length +
      (o.front (behind (Frame.code fs) before).length).length := by
    rw [Frame.code, List.length_append, List.length_append] at length
    exact (Nat.succ.inj length).symm
  refine ⟨opener, others, here, top, below, index, place, ?_, ?_, ?_⟩
  · rw [← b.length_code, Builder.code, here, length_behind, length, Nat.add_right_comm]
  · have whole : b.code =
        Frame.code (⟨o, j, before⟩ :: fs) ++ (ofReversed b.items).instructions (j + 1) := by
      rw [Builder.code, here, behind, length]
    rw [m.code, whole]
    simp [Frame.code]
  · rw [m.procedures, Builder.procedures, here, listed, length, Frame.declared, Opener.declared,
      ← place, List.append_assoc]

/-- Either nothing is open, or both have the same innermost opener. -/
theorem Matches.cases (m : Matches l b ts) (indexed : b.Indexed) :
    (b.frames = [] ∧ l.opened = []) ∨
      ∃ o j before fs opener opened, Innermost l b ts o j before fs opener opened := by
  cases here : b.frames with
  | nil => exact .inl ⟨rfl, m.opened_nil here⟩
  | cons f fs =>
    obtain ⟨opener, opened, h⟩ := m.innermost indexed here
    exact .inr ⟨f.opener, f.index, f.before, fs, opener, opened, h⟩

namespace Innermost

/-- The opener stands right behind what is laid out in front of it. -/
theorem stands (h : Innermost l b ts o j before fs opener opened) : opener.val =
    (behind (Frame.code fs) before ++ o.front (behind (Frame.code fs) before).length).length := by
  rw [h.index, h.place, List.length_append]

/-- What the linker has in its instructions once the part being read is over: the last of them is
the one it stands at. -/
def Passed (b : Builder) (o : Opener) (before : List Item) (fs : List Frame) (last : Instr)
    (ts : List Token) (code : Vector Instr n) : Prop :=
  code.toList = behind (Frame.code fs) before ++
    o.passed (behind (Frame.code fs) before).length b.items last ++ ts.map Instr.ofToken

theorem resolve (h : Innermost l b (t :: ts) o j before fs opener opened)
    (index : i.val = b.spelled.length) :
    Passed b o before fs (.ofToken t) ts (l.resolve opener i).code := by
  have target : i.val + 1 = j + (ofReversed b.items).size + 2 := by rw [index, h.reached]
  rw [Passed, Linker.resolve, code_patch h.code h.stands, target, h.place]
  simp [Opener.passed]

/-- The instruction it stands at can be changed as well. -/
theorem patch (h : Innermost l b (t :: ts) o j before fs opener opened)
    (index : i.val = b.spelled.length) (change : Instr → Instr) :
    Passed b o before fs (change (.ofToken t)) ts ((l.resolve opener i).patch i change).code := by
  have place := h.place
  have resolved := h.resolve index
  rw [Passed, Opener.passed, ← List.cons_append, ← List.append_assoc, ← List.append_assoc,
    List.append_assoc _ [_], List.singleton_append] at resolved
  rw [Passed, code_patch resolved (by simp [index, h.reached]; omega)]
  simp [Opener.passed]

end Innermost

/-- A plain token is left alone. -/
theorem Matches.plain (m : Matches l b (t :: ts)) : Matches l (b.add (.plain t)) ts := by
  refine ⟨?_, m.opened, m.header, ?_⟩
  · rw [m.code, Builder.code, Builder.code, Builder.add, behind_cons]
    simp [Item.before, instructions, Instr.ofToken]
  · rw [m.procedures, Builder.procedures, Builder.procedures, Builder.add, listed_cons]
    simp [Item.before, Block.procedures]

/-- A token that opens a part. -/
theorem Matches.enter (first : o.IsFirst) (m : Matches l b (o.token :: ts)) (i : Fin n)
    {header? : Option (Fin n)} (header : header?.isSome = (o.isProcedure || l.header?.isSome)) :
    Matches { l.enter i with header? } (b.enter o i) ts := by
  refine ⟨?_, ?_, ?_, ?_⟩
  · change l.code.toList = _
    rw [m.code]
    simp [Builder.code, Builder.enter, behind, Frame.code, first.front, first.instr, ofReversed,
      instructions]
  · simp [Linker.enter, Builder.enter, m.opened]
  · simp [Builder.enter, header, m.header]
  · change l.procedures = _
    rw [m.procedures]
    simp [Builder.procedures, Builder.enter, listed, Frame.declared, first.procedures, ofReversed,
      Block.procedures]

namespace Innermost

/-- A word that goes on to the next part of the innermost construct. -/
theorem proceed (h : Innermost l b (t :: ts) o j before fs opener opened)
    (m : Matches l b (t :: ts)) (i : Fin n) {p : Opener} {last : Instr} {code : Vector Instr n}
    (next : o.Before p (behind (Frame.code fs) before).length b.items last)
    (passed : Passed b o before fs last ts code) :
    Matches { l with code, opened := i :: opened } (b.proceed p i before fs) ts := by
  obtain ⟨first, second⟩ := next.outside
  refine ⟨?_, ?_, ?_, ?_⟩
  · rw [passed, ← next.code, Builder.code, Builder.proceed, Frame.code]
    simp [behind, ofReversed, instructions]
  · simp [Builder.proceed, h.below]
  · simpa [Builder.proceed, h.here, first, second] using m.header
  · change l.procedures = _
    rw [h.procedures, ← next.procedures]
    simp [Builder.procedures, Builder.proceed, listed, Frame.declared, ofReversed, Block.procedures]

variable {item : Item} {what : Closing} {next : Option Nat}

theorem code_leave (h : Innermost l b (Mark.close.token :: ts) o j before fs opener opened)
    (index : i.val = b.spelled.length)
    (code : (item.before nil).instructions (behind (Frame.code fs) before).length =
      o.passed (behind (Frame.code fs) before).length b.items (closer what next)) :
    (l.leave opener opened i what next).code.toList =
      (b.leave item before fs).code ++ ts.map Instr.ofToken := by
  rw [Builder.code, Builder.leave, behind_cons, code]
  exact h.patch index fun instr => { instr with role := .close what, next }

/-- A word that closes the innermost construct. -/
theorem leave (h : Innermost l b (Mark.close.token :: ts) o j before fs opener opened)
    (m : Matches l b (Mark.close.token :: ts)) (index : i.val = b.spelled.length)
    (ends : o.Ends item (behind (Frame.code fs) before).length b.items (closer what next)) :
    Matches (l.leave opener opened i what next) (b.leave item before fs) ts := by
  refine ⟨h.code_leave index ends.code, ?_, ?_, ?_⟩
  · simp [Linker.leave, Builder.leave, h.below]
  · simpa [Linker.leave, Linker.patch, Linker.resolve, Builder.leave, h.here, ends.outside]
      using m.header
  · change l.procedures = _
    rw [h.procedures, Builder.procedures, Builder.leave, listed_cons, ends.procedures]

/-- The word that closes a procedure. -/
theorem complete {sig : Signature}
    (h : Innermost l b (Mark.close.token :: ts) (.procedure sig) j before fs opener opened)
    (m : Matches l b (Mark.close.token :: ts)) (sound : b.Sound)
    (index : i.val = b.spelled.length) :
    Matches
      ((l.leave opener opened i .procedure none).complete
        { start := opener + 1, stop := i, signature := sig })
      { b.leave (.procedure sig (ofReversed b.items)) before fs with
        declared := sig.name :: b.declared } ts := by
  obtain ⟨flat, outside⟩ := shielded_procedure.1 (h.here ▸ sound.shielded)
  refine ⟨h.code_leave index (Opener.instructions_procedure sig _ _), h.below, ?_, ?_⟩
  · symm
    simpa [Linker.complete, Builder.leave] using outside
  · have fresh : ∀ q ∈ l.procedures, (q.name != sig.name) = true := by
      intro q member
      have new := sound.fresh ⟨.procedure sig, j, before⟩ (by simp [h.here]) sig rfl
      rw [sound.declared, List.mem_reverse, ← b.map_name_procedures, ← m.procedures] at new
      exact bne_iff_ne.2 fun same => new (same ▸ List.mem_map_of_mem member)
    have outer : l.procedures = listed (Frame.declared fs) (Frame.code fs) before := by
      simpa [Opener.declared, Opener.procedures, procedures_eq_nil flat] using h.procedures
    have start : opener.val = (behind (Frame.code fs) before).length := h.index.trans h.place
    have stop : i.val = opener.val + (ofReversed b.items).size + 1 := by
      rw [index, h.reached, h.index]
    change l.procedures.filter (fun q => q.name != sig.name) ++ [_] = _
    rw [List.filter_eq_self.2 fresh, outer, Builder.procedures, Builder.leave, listed_cons, stop,
      start]
    simp [Item.before, Block.procedures, procedures_eq_nil flat]

end Innermost

/-! ## One word -/

theorem agree_declare {sig : Signature} (m : Matches l b (.header sig :: ts)) (sound : b.Sound)
    (i : Fin n) : Agree ts (l.declare sig i) (b.declare sig i) := by
  have known : (l.procedures.any fun p => p.name == sig.name) = b.declared.contains sig.name := by
    rw [Bool.eq_iff_iff, List.contains_iff_mem, sound.declared, List.mem_reverse,
      ← b.map_name_procedures, ← m.procedures]
    simp
  rw [Linker.declare, Builder.declare, m.header, known]
  split
  · rfl
  · split
    · rfl
    · exact Matches.enter (Opener.isFirst_procedure sig) m i rfl

theorem agree_otherwise (m : Matches l b (Mark.otherwise.token :: ts)) (indexed : b.Indexed)
    (index : i.val = b.spelled.length) : Agree ts (l.otherwise i) (b.otherwise i) := by
  rw [Linker.otherwise, Builder.otherwise]
  rcases m.cases indexed with ⟨closed, top⟩ | ⟨o, j, before, fs, opener, opened, h⟩
  · rw [closed, top]
    rfl
  · simp only [h.here, h.top, getElem_code h.code h.stands, Opener.token_instr, Linker.mismatch,
      h.index]
    cases o with
    | branch k =>
      have goesOn := h.proceed m i (Opener.before_alternative k _ _) (h.resolve index)
      cases k <;> exact goesOn
    | header k => cases k <;> rfl
    | _ => rfl

theorem agree_test (m : Matches l b (Mark.test.token :: ts)) (indexed : b.Indexed)
    (index : i.val = b.spelled.length) : Agree ts (l.test i) (b.test i) := by
  rw [Linker.test, Builder.test]
  rcases m.cases indexed with ⟨closed, top⟩ | ⟨o, j, before, fs, opener, opened, h⟩
  · rw [closed, top]
    rfl
  · simp only [h.here, h.top, getElem_code h.code h.stands, Opener.token_instr, Linker.mismatch,
      h.index]
    cases o with
    | branch k => cases k <;> rfl
    | header k =>
      obtain rfl : j = (behind (Frame.code fs) before).length := h.place
      have passed := h.patch index fun instr =>
        { instr with role := .test k (behind (Frame.code fs) before).length }
      have goesOn := h.proceed m i (Opener.before_body k _ _) passed
      cases k <;> exact goesOn
    | _ => rfl

theorem agree_close (m : Matches l b (Mark.close.token :: ts)) (sound : b.Sound)
    (indexed : b.Indexed) (index : i.val = b.spelled.length) :
    Agree ts (l.close i) (b.close i) := by
  rw [Linker.close, Builder.close]
  rcases m.cases indexed with ⟨closed, top⟩ | ⟨o, j, before, fs, opener, opened, h⟩
  · rw [closed, top]
    rfl
  · simp only [h.here, h.top, getElem_code h.code h.stands, Opener.token_instr, Linker.mismatch,
      h.index]
    cases o with
    | branch k =>
      have closed := h.leave m index (Opener.ends_branch k _ _)
      cases k <;> exact closed
    | alternative k first => exact h.leave m index (Opener.ends_alternative k first _ _)
    | header k => cases k <;> rfl
    | body k first => exact h.leave m index (Opener.ends_body k first _ _)
    | procedure sig =>
      have closed := h.complete m sound index
      rw [h.index] at closed
      exact closed

/-- **One word does the same to both.** -/
theorem agree_read (m : Matches l b (t :: ts)) (sound : b.Sound) (indexed : b.Indexed)
    (index : i.val = b.spelled.length) : Agree ts (l.read i) (b.read i t) := by
  rw [Linker.read, m.token index]
  cases t with
  | header sig => exact agree_declare m sound i
  | word w =>
    cases w with
    | mark mark =>
      cases mark with
      | onTrue => exact Matches.enter (Opener.isFirst_branch .onTrue) m i rfl
      | onFalse => exact Matches.enter (Opener.isFirst_branch .onFalse) m i rfl
      | whileTrue => exact Matches.enter (Opener.isFirst_header .whileTrue) m i rfl
      | untilTrue => exact Matches.enter (Opener.isFirst_header .untilTrue) m i rfl
      | otherwise => exact agree_otherwise m indexed index
      | test => exact agree_test m indexed index
      | close => exact agree_close m sound indexed index
    | _ => exact m.plain
  | _ => exact m.plain

/-! ## All words -/

/-- **Token after token both come to the same.** The indices in front of the linker are those of the
tokens. -/
theorem agree_readAll (m : Matches l b ts) (sound : b.Sound) (indexed : b.Indexed)
    {indices : List (Fin n)}
    (inOrder : indices.map Fin.val = List.range' b.spelled.length ts.length) :
    Agree [] (indices.foldlM Linker.read l) (b.readAll b.spelled.length ts) := by
  induction ts generalizing l b indices with
  | nil =>
    obtain rfl := List.map_eq_nil_iff.1 inOrder
    exact m
  | cons t ts ih =>
    obtain ⟨i, others, rfl, index, rest⟩ := List.map_eq_cons_iff.1 inOrder
    rw [List.foldlM_cons, Builder.readAll]
    obtain ⟨e, linked, read⟩ | ⟨l', after, linked, read, m'⟩ :=
      (agree_read m sound indexed index).cases
    · rw [index] at read
      rw [linked, read]
      rfl
    · rw [index] at read
      obtain ⟨spelled, stays⟩ := Builder.reads_read read
      have length : after.spelled.length = b.spelled.length + 1 := by
        rw [spelled, List.length_append]
        rfl
      have goesOn := ih m' (stays sound) (indexed.read read) (length ▸ rest)
      rw [linked, read]
      rwa [length] at goesOn

/-- Both finish alike. -/
theorem finish_eq (m : Matches l b []) (indexed : b.Indexed) :
    l.finish = b.finish.map Block.program := by
  rw [Linker.finish, Builder.finish]
  rcases m.cases indexed with ⟨closed, top⟩ | ⟨o, j, before, fs, opener, opened, h⟩
  · have code : l.code.toList = (ofReversed b.items).instructions 0 := by
      have code := m.code
      rw [Builder.code, closed] at code
      simpa [behind, Frame.code] using code
    have array : l.code.toArray = ((ofReversed b.items).instructions 0).toArray :=
      Array.toList_inj.1 code
    have procedures : l.procedures = (ofReversed b.items).procedures 0 := by
      have procedures := m.procedures
      rw [Builder.procedures, closed] at procedures
      simpa [listed, Frame.code, Frame.declared] using procedures
    rw [closed, top, array, procedures]
    rfl
  · simp only [h.here, h.top, getElem_code h.code h.stands, Opener.token_instr, h.index]
    rfl

end Words

/-- **Linking in one pass** is reading the block structure and laying it out: the same program, with
its procedures in the same order, or the same error. -/
theorem link_eq_ofTokens (tokens : List Token) : Program.link tokens = Program.ofTokens tokens := by
  have start : Matches (Linker.start tokens) {} tokens := by
    refine ⟨?_, rfl, rfl, rfl⟩
    simp [Linker.start, Builder.code, behind, Frame.code, ofReversed, instructions]
  have inOrder : (List.finRange tokens.length).map Fin.val = List.range' 0 tokens.length := by
    refine List.ext_getElem (by simp) fun i _ _ => ?_
    simp
  have agree := agree_readAll start Builder.sound_start Builder.indexed_start inOrder
  change Agree [] _ (Builder.readAll {} 0 tokens) at agree
  rw [Program.link, Program.ofTokens, ofTokens]
  obtain ⟨e, linked, read⟩ | ⟨l, b, linked, read, m⟩ := agree.cases
  · rw [linked, read]
    rfl
  · rw [linked, read]
    change l.finish = b.finish >>= fun block => pure block.program
    rw [finish_eq m (Builder.indexed_start.readAll read)]
    cases b.finish <;> rfl

end Chore.Block
