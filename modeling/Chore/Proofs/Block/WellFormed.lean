import Chore.Block.Builder

/-!
# Well-formed blocks

A block is well-formed if its plain tokens are plain, no procedure is declared inside another, and
no name is declared twice. `ofTokens_wellFormed` says that the blocks read from token lists are,
and that they spell the list they were read from.

While a list is being read, its tokens so far are in the builder: those in front of the innermost
open part are kept by the frames, those of the part itself by the items. `Builder.spelled` puts
them together again.
-/

set_option autoImplicit false

namespace Chore.Block

/-- The names of the procedures a block declares, in the order their headers stand. -/
def names : Block → List String
  | nil => []
  | plain _ rest => rest.names
  | branch _ body rest => body.names ++ rest.names
  | choice _ body alternative rest => body.names ++ (alternative.names ++ rest.names)
  | loop _ header body rest => header.names ++ (body.names ++ rest.names)
  | procedure sig body rest => sig.name :: (body.names ++ rest.names)

/-- Plain tokens are plain, and procedure bodies declare no procedures. -/
def Proper : Block → Prop
  | nil => True
  | plain t rest => t.isPlain = true ∧ rest.Proper
  | branch _ body rest => body.Proper ∧ rest.Proper
  | choice _ body alternative rest => body.Proper ∧ alternative.Proper ∧ rest.Proper
  | loop _ header body rest => header.Proper ∧ body.Proper ∧ rest.Proper
  | procedure _ body rest => body.Proper ∧ body.names = [] ∧ rest.Proper

/-- What a token list must be to be linked, said of its block. -/
structure WellFormed (b : Block) : Prop where
  proper : b.Proper
  distinct : b.names.Nodup

namespace Item

/-- The tokens of a step. -/
def tokens (i : Item) : List Token :=
  (i.before nil).tokens

/-- The names of the procedures a step declares. -/
def names (i : Item) : List String :=
  (i.before nil).names

theorem tokens_before (i : Item) (rest : Block) :
    (i.before rest).tokens = i.tokens ++ rest.tokens := by
  cases i <;> simp [before, tokens, Block.tokens]

theorem names_before (i : Item) (rest : Block) :
    (i.before rest).names = i.names ++ rest.names := by
  cases i <;> simp [before, names, Block.names]

theorem proper_before (i : Item) (rest : Block) :
    (i.before rest).Proper ↔ (i.before nil).Proper ∧ rest.Proper := by
  cases i <;> simp [before, Proper, and_assoc]

end Item

/-! ## Steps read so far -/

theorem tokens_foldl_before (items : List Item) (b : Block) :
    (items.foldl (fun rest item => item.before rest) b).tokens =
      (ofReversed items).tokens ++ b.tokens := by
  induction items generalizing b with
  | nil => rfl
  | cons i items ih =>
    simp only [ofReversed, List.foldl_cons] at ih ⊢
    rw [ih, ih (i.before nil), i.tokens_before b]
    simp [Item.tokens]

theorem names_foldl_before (items : List Item) (b : Block) :
    (items.foldl (fun rest item => item.before rest) b).names =
      (ofReversed items).names ++ b.names := by
  induction items generalizing b with
  | nil => rfl
  | cons i items ih =>
    simp only [ofReversed, List.foldl_cons] at ih ⊢
    rw [ih, ih (i.before nil), i.names_before b]
    simp [Item.names]

theorem proper_foldl_before (items : List Item) (b : Block) :
    (items.foldl (fun rest item => item.before rest) b).Proper ↔
      (ofReversed items).Proper ∧ b.Proper := by
  induction items generalizing b with
  | nil => simp [ofReversed, Proper]
  | cons i items ih =>
    simp only [ofReversed, List.foldl_cons] at ih ⊢
    rw [ih, ih (i.before nil), i.proper_before b, and_assoc]

@[simp] theorem tokens_ofReversed_cons (i : Item) (items : List Item) :
    (ofReversed (i :: items)).tokens = (ofReversed items).tokens ++ i.tokens :=
  tokens_foldl_before items (i.before nil)

@[simp] theorem names_ofReversed_cons (i : Item) (items : List Item) :
    (ofReversed (i :: items)).names = (ofReversed items).names ++ i.names :=
  names_foldl_before items (i.before nil)

@[simp] theorem proper_ofReversed_cons (i : Item) (items : List Item) :
    (ofReversed (i :: items)).Proper ↔ (ofReversed items).Proper ∧ (i.before nil).Proper :=
  proper_foldl_before items (i.before nil)

/-! ## Open constructs -/

/-- The tokens of an open construct up to the part being read. -/
def Opener.spelled : Opener → List Token
  | branch k => [k.mark.token]
  | alternative k first => k.mark.token :: (first.tokens ++ [Mark.otherwise.token])
  | header k => [k.mark.token]
  | body k first => k.mark.token :: (first.tokens ++ [Mark.test.token])
  | procedure sig => [.header sig]

/-- The names declared in the parts of an open construct that are complete. -/
def Opener.names : Opener → List String
  | alternative _ first => first.names
  | body _ first => first.names
  | _ => []

/-- The parts of an open construct that are complete are proper. -/
def Opener.Proper : Opener → Prop
  | alternative _ first => first.Proper
  | body _ first => first.Proper
  | _ => True

namespace Frame

/-- The tokens in front of the part being read, up to the frame around it. -/
def spelled (f : Frame) : List Token :=
  (ofReversed f.before).tokens ++ f.opener.spelled

/-- The names declared in front of the part being read, up to the frame around it. -/
def names (f : Frame) : List String :=
  (ofReversed f.before).names ++ f.opener.names

/-- What is in front of the part being read is proper. -/
def Proper (f : Frame) : Prop :=
  (ofReversed f.before).Proper ∧ f.opener.Proper

end Frame

/-- Nothing has been declared inside an open procedure, and only one is open. The second argument
lists what has been declared inside the innermost frame. -/
def Shielded : List Frame → List String → Prop
  | [], _ => True
  | f :: fs, inner =>
    if f.opener.isProcedure then inner = [] ∧ ∀ g ∈ fs, g.opener.isProcedure = false
    else Shielded fs (f.names ++ inner)

theorem shielded_procedure {sig : Signature} {i : Nat} {before : List Item} {fs : List Frame}
    {inner : List String} :
    Shielded (⟨.procedure sig, i, before⟩ :: fs) inner ↔
      inner = [] ∧ ∀ g ∈ fs, g.opener.isProcedure = false := by
  simp [Shielded, Opener.isProcedure]

theorem shielded_other {f : Frame} {fs : List Frame} {inner : List String}
    (h : f.opener.isProcedure = false) :
    Shielded (f :: fs) inner ↔ Shielded fs (f.names ++ inner) := by
  simp [Shielded, h]

theorem shielded_of_none {fs : List Frame} (h : ∀ f ∈ fs, f.opener.isProcedure = false)
    (inner : List String) : Shielded fs inner := by
  induction fs generalizing inner with
  | nil => trivial
  | cons f fs ih =>
    rw [shielded_other (h f List.mem_cons_self)]
    exact ih (fun g hg => h g (List.mem_cons_of_mem f hg)) _

namespace Builder

/-- The tokens read so far. -/
def spelled (b : Builder) : List Token :=
  b.frames.reverse.flatMap Frame.spelled ++ (ofReversed b.items).tokens

/-- The names declared so far. -/
def names (b : Builder) : List String :=
  b.frames.reverse.flatMap Frame.names ++ (ofReversed b.items).names

/-- What holds while a token list is read. -/
structure Sound (b : Builder) : Prop where
  items : (ofReversed b.items).Proper
  frames : ∀ f ∈ b.frames, f.Proper
  declared : b.declared = b.names.reverse
  distinct : b.declared.Nodup
  shielded : Shielded b.frames (ofReversed b.items).names
  fresh : ∀ f ∈ b.frames, ∀ sig, f.opener = .procedure sig → sig.name ∉ b.declared

theorem sound_start : Sound {} :=
  ⟨trivial, by simp, rfl, List.nodup_nil, trivial, by simp⟩

/-! ## One token -/

/-- Reading one token: it is spelled behind the others, and the builder stays sound. -/
def Reads (b : Builder) (t : Token) (after : Builder) : Prop :=
  after.spelled = b.spelled ++ [t] ∧ (b.Sound → after.Sound)

theorem reads_add (b : Builder) {t : Token} (h : t.isPlain = true) :
    b.Reads t (b.add (.plain t)) := by
  refine ⟨by simp [add, spelled, Item.tokens, Item.before, Block.tokens], ?_⟩
  intro s
  refine ⟨?_, s.frames, ?_, s.distinct, ?_, s.fresh⟩
  · simpa [add, Item.before, Block.Proper, h] using s.items
  · simpa [add, names, Item.names, Item.before, Block.names] using s.declared
  · simpa [add, Item.names, Item.before, Block.names] using s.shielded

/-- Opening a construct that is no procedure. -/
theorem reads_enter (b : Builder) {o : Opener} (index : Nat) (tokens : o.spelled = [o.token])
    (names : o.names = []) (proper : o.Proper) (other : o.isProcedure = false) :
    b.Reads o.token (b.enter o index) := by
  refine ⟨by simp [enter, spelled, Frame.spelled, tokens, ofReversed, Block.tokens], ?_⟩
  intro s
  refine ⟨trivial, ?_, ?_, s.distinct, ?_, ?_⟩
  · intro f hf
    rcases List.mem_cons.1 hf with rfl | hf
    · exact ⟨s.items, proper⟩
    · exact s.frames f hf
  · simpa [enter, Builder.names, Frame.names, names, ofReversed, Block.names] using s.declared
  · rw [enter, shielded_other other]
    simpa [Frame.names, names, ofReversed, Block.names] using s.shielded
  · intro f hf sig hsig
    rcases List.mem_cons.1 hf with rfl | hf
    · rw [show o = .procedure sig from hsig] at other
      cases other
    · exact s.fresh f hf sig hsig

/-- Opening a procedure. -/
theorem reads_declare (b : Builder) {sig : Signature} (index : Nat)
    (outside : ∀ f ∈ b.frames, f.opener.isProcedure = false) (fresh : sig.name ∉ b.declared) :
    b.Reads (.header sig) (b.enter (.procedure sig) index) := by
  refine ⟨by simp [enter, spelled, Frame.spelled, Opener.spelled, ofReversed, Block.tokens], ?_⟩
  intro s
  refine ⟨trivial, ?_, ?_, s.distinct, ?_, ?_⟩
  · intro f hf
    rcases List.mem_cons.1 hf with rfl | hf
    · exact ⟨s.items, trivial⟩
    · exact s.frames f hf
  · simpa [enter, Builder.names, Frame.names, Opener.names, ofReversed, Block.names]
      using s.declared
  · exact shielded_procedure.2 ⟨rfl, outside⟩
  · intro f hf other hother
    rcases List.mem_cons.1 hf with rfl | hf
    · obtain rfl := Opener.procedure.inj hother
      exact fresh
    · exact s.fresh f hf other hother

/-- Going on to the next part of the innermost construct. -/
theorem reads_proceed (b : Builder) {o p : Opener} {i : Nat} {before : List Item}
    {frames : List Frame} (here : b.frames = ⟨o, i, before⟩ :: frames) (t : Token) (index : Nat)
    (tokens : p.spelled = o.spelled ++ (ofReversed b.items).tokens ++ [t])
    (names : p.names = o.names ++ (ofReversed b.items).names)
    (proper : (ofReversed b.items).Proper → p.Proper)
    (first : o.isProcedure = false) (second : p.isProcedure = false) :
    b.Reads t (b.proceed p index before frames) := by
  refine ⟨by simp [proceed, spelled, here, Frame.spelled, tokens, ofReversed, Block.tokens], ?_⟩
  intro s
  refine ⟨trivial, ?_, ?_, s.distinct, ?_, ?_⟩
  · intro f hf
    rcases List.mem_cons.1 hf with rfl | hf
    · have hb : Frame.Proper ⟨o, i, before⟩ := s.frames _ (by simp [here])
      exact ⟨hb.1, proper s.items⟩
    · exact s.frames f (by simp [here, hf])
  · simpa [proceed, Builder.names, here, Frame.names, names, ofReversed, Block.names]
      using s.declared
  · have hs := s.shielded
    rw [here, shielded_other first] at hs
    rw [proceed, shielded_other second]
    simpa [Frame.names, names, ofReversed, Block.names] using hs
  · intro f hf sig hsig
    rcases List.mem_cons.1 hf with rfl | hf
    · rw [show p = .procedure sig from hsig] at second
      cases second
    · exact s.fresh f (by simp [here, hf]) sig hsig

/-- Closing a construct that is no procedure. -/
theorem reads_leave (b : Builder) {o : Opener} {i : Nat} {before : List Item} {frames : List Frame}
    (here : b.frames = ⟨o, i, before⟩ :: frames) (item : Item)
    (tokens : item.tokens = o.spelled ++ (ofReversed b.items).tokens ++ [Mark.close.token])
    (names : item.names = o.names ++ (ofReversed b.items).names)
    (proper : o.Proper → (ofReversed b.items).Proper → (item.before nil).Proper)
    (other : o.isProcedure = false) :
    b.Reads Mark.close.token (b.leave item before frames) := by
  refine ⟨by simp [leave, spelled, here, Frame.spelled, tokens], ?_⟩
  intro s
  have hb : Frame.Proper ⟨o, i, before⟩ := s.frames _ (by simp [here])
  refine ⟨?_, fun f hf => s.frames f (by simp [here, show f ∈ frames from hf]), ?_, s.distinct, ?_,
    fun f hf => s.fresh f (by simp [here, show f ∈ frames from hf])⟩
  · exact (proper_ofReversed_cons item before).2 ⟨hb.1, proper hb.2 s.items⟩
  · simpa [leave, Builder.names, here, Frame.names, names] using s.declared
  · have hs := s.shielded
    rw [here, shielded_other other] at hs
    simpa [leave, Frame.names, names] using hs

/-- Closing a procedure. -/
theorem reads_complete (b : Builder) {sig : Signature} {i : Nat} {before : List Item}
    {frames : List Frame} (here : b.frames = ⟨.procedure sig, i, before⟩ :: frames) :
    b.Reads Mark.close.token
      { b.leave (.procedure sig (ofReversed b.items)) before frames with
        declared := sig.name :: b.declared } := by
  refine ⟨by simp [leave, spelled, here, Frame.spelled, Opener.spelled, Item.tokens, Item.before,
    Block.tokens], ?_⟩
  intro s
  have hb : Frame.Proper ⟨.procedure sig, i, before⟩ := s.frames _ (by simp [here])
  obtain ⟨empty, outside⟩ := shielded_procedure.1 (here ▸ s.shielded)
  have hfresh : sig.name ∉ b.declared :=
    s.fresh ⟨.procedure sig, i, before⟩ (by simp [here]) sig rfl
  refine ⟨?_, fun f hf => s.frames f (by simp [here, show f ∈ frames from hf]), ?_, ?_, ?_, ?_⟩
  · exact (proper_ofReversed_cons _ before).2 ⟨hb.1, s.items, empty, trivial⟩
  · simp [leave, Builder.names, s.declared, here, Frame.names, Opener.names, Item.names,
      Item.before, Block.names, empty]
  · exact List.nodup_cons.2 ⟨hfresh, s.distinct⟩
  · exact shielded_of_none outside _
  · intro f hf other hother
    have := outside f hf
    rw [hother] at this
    cases this

/-- A closing word. -/
theorem reads_close {b after : Builder} {index : Nat} (h : b.close index = .ok after) :
    b.Reads Mark.close.token after := by
  unfold close at h
  split at h <;> cases h
  case h_2 k i before frames here =>
    exact b.reads_leave here _ (by simp [Item.tokens, Item.before, Block.tokens, Opener.spelled])
      (by simp [Item.names, Item.before, Block.names, Opener.names]) (fun _ h => ⟨h, trivial⟩) rfl
  case h_3 k first i before frames here =>
    exact b.reads_leave here _ (by simp [Item.tokens, Item.before, Block.tokens, Opener.spelled])
      (by simp [Item.names, Item.before, Block.names, Opener.names])
      (fun g h => ⟨g, h, trivial⟩) rfl
  case h_4 k first i before frames here =>
    exact b.reads_leave here _ (by simp [Item.tokens, Item.before, Block.tokens, Opener.spelled])
      (by simp [Item.names, Item.before, Block.names, Opener.names])
      (fun g h => ⟨g, h, trivial⟩) rfl
  case h_5 sig i before frames here => exact b.reads_complete here

/-- The word between the two parts of a branch. -/
theorem reads_otherwise {b after : Builder} {index : Nat} (h : b.otherwise index = .ok after) :
    b.Reads Mark.otherwise.token after := by
  unfold otherwise at h
  split at h <;> cases h
  case h_2 k i before frames here =>
    exact b.reads_proceed here _ index (by simp [Opener.spelled]) (by simp [Opener.names])
      (fun h => h) rfl rfl

/-- The word between the header and the body of a loop. -/
theorem reads_test {b after : Builder} {index : Nat} (h : b.test index = .ok after) :
    b.Reads Mark.test.token after := by
  unfold test at h
  split at h <;> cases h
  case h_2 k i before frames here =>
    exact b.reads_proceed here _ index (by simp [Opener.spelled]) (by simp [Opener.names])
      (fun h => h) rfl rfl

/-- A procedure header. -/
theorem reads_header {b after : Builder} {sig : Signature} {index : Nat}
    (h : b.declare sig index = .ok after) : b.Reads (.header sig) after := by
  unfold declare at h
  split at h
  · cases h
  · split at h <;> cases h
    rename_i outside fresh
    exact b.reads_declare index (by simpa using outside) (by simpa using fresh)

/-- **One token**: it is spelled behind the others, and the builder stays sound. -/
theorem reads_read {b after : Builder} {index : Nat} {t : Token} (h : b.read index t = .ok after) :
    b.Reads t after := by
  unfold read at h
  split at h
  case h_5 => exact reads_otherwise h
  case h_6 => exact reads_test h
  case h_7 => exact reads_close h
  case h_8 sig => exact reads_header h
  case h_9 t _ _ _ _ _ _ _ _ =>
    cases h
    refine b.reads_add ?_
    unfold Token.isPlain
    split <;> simp_all
    rename_i m _ _ _ _ _ _ _
    cases m <;> simp_all
  all_goals
    cases h
    exact b.reads_enter index rfl rfl trivial rfl

/-- Token after token. -/
theorem readAll_sound {b after : Builder} {index : Nat} {ts : List Token}
    (h : b.readAll index ts = .ok after) (s : b.Sound) :
    after.spelled = b.spelled ++ ts ∧ after.Sound := by
  induction ts generalizing b index with
  | nil =>
    obtain rfl : b = after := Except.ok.inj h
    exact ⟨by simp, s⟩
  | cons t ts ih =>
    rw [readAll] at h
    cases hr : b.read index t with
    | error e => rw [hr] at h; cases h
    | ok mid =>
      rw [hr] at h
      obtain ⟨spelled, sound⟩ := reads_read hr
      obtain ⟨hs, hv⟩ := ih h (sound s)
      exact ⟨by rw [hs, spelled, List.append_assoc]; rfl, hv⟩

end Builder

/-- **A block read from a token list** spells the list and is well-formed. -/
theorem ofTokens_wellFormed {ts : List Token} {b : Block} (h : ofTokens ts = .ok b) :
    b.tokens = ts ∧ b.WellFormed := by
  unfold ofTokens at h
  cases hr : Builder.readAll {} 0 ts with
  | error e => rw [hr] at h; cases h
  | ok built =>
    rw [hr] at h
    obtain ⟨spelled, sound⟩ := Builder.readAll_sound hr Builder.sound_start
    change built.finish = .ok b at h
    unfold Builder.finish at h
    split at h <;> cases h
    rename_i closed
    refine ⟨by simpa [Builder.spelled, closed, ofReversed, Block.tokens] using spelled,
      sound.items, ?_⟩
    have distinct := sound.distinct
    rw [sound.declared, Builder.names, closed] at distinct
    exact (List.pairwise_reverse.1 distinct).imp Ne.symm

end Chore.Block
