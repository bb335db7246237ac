import Chore.Proofs.Block.Resolution

/-!
# Prefixes of token lists

What a link error says of the lists that go on. A list that fails with an open construct is the
front of one that is linked: whatever is open can be closed (`Builder.completes`). Any other error
is final. It is about the token it names, all lists with the same tokens up to there fail alike, and
the tokens in front of it are linked or leave something open. So the two kinds of error are told
apart by what can follow (`link_errors_classify_prefixes`).

The index named for an open construct is that of the innermost one: each frame of the builder keeps
the index of the token that opened its part (`Builder.Indexed`), and the tokens read since are a
block, in which every part that is opened also ends.
-/

set_option autoImplicit false

namespace Chore

/-- Where a link error is. -/
def LinkError.index : LinkError → Nat
  | unmatchedCloser _ index => index
  | mismatchedOpener _ index _ _ => index
  | unclosed _ index => index
  | nestedProcedure _ index => index
  | duplicateProcedure _ index => index

/-- The error is that the tokens end too soon. -/
def LinkError.isUnclosed : LinkError → Bool
  | unclosed _ _ => true
  | _ => false

namespace Block

namespace Builder

/-! ## Errors while reading -/

/-- A token that cannot be read is named by its index. -/
theorem read_error {b : Builder} {index : Nat} {t : Token} {e : LinkError}
    (h : b.read index t = .error e) : e.index = index ∧ e.isUnclosed = false := by
  unfold read at h
  split at h
  case h_5 =>
    unfold otherwise at h
    split at h <;> cases h <;> exact ⟨rfl, rfl⟩
  case h_6 =>
    unfold test at h
    split at h <;> cases h <;> exact ⟨rfl, rfl⟩
  case h_7 =>
    unfold close at h
    split at h <;> cases h <;> exact ⟨rfl, rfl⟩
  case h_8 sig =>
    unfold declare at h
    split at h
    · cases h
      exact ⟨rfl, rfl⟩
    · split at h <;> cases h
      exact ⟨rfl, rfl⟩
  all_goals cases h

theorem readAll_append (b : Builder) (index : Nat) (ts us : List Token) :
    b.readAll index (ts ++ us) = b.readAll index ts >>= fun after =>
      after.readAll (index + ts.length) us := by
  induction ts generalizing b index with
  | nil => rfl
  | cons t ts ih =>
    rw [List.cons_append, readAll, readAll]
    cases b.read index t with
    | error e => rfl
    | ok after =>
      change after.readAll (index + 1) (ts ++ us) = after.readAll (index + 1) ts >>= _
      rw [ih, List.length_cons, Nat.add_assoc, Nat.add_comm 1]

/-- Reading fails at one of the tokens, the first that cannot be read. -/
theorem readAll_error {b : Builder} {index : Nat} {ts : List Token} {e : LinkError}
    (h : b.readAll index ts = .error e) :
    ∃ front t back after, ts = front ++ t :: back ∧ b.readAll index front = .ok after ∧
      after.read (index + front.length) t = .error e := by
  induction ts generalizing b index with
  | nil => cases h
  | cons t ts ih =>
    rw [readAll] at h
    cases first : b.read index t with
    | error e' =>
      rw [first] at h
      obtain rfl := Except.error.inj h
      exact ⟨[], t, ts, b, rfl, rfl, first⟩
    | ok mid =>
      rw [first] at h
      obtain ⟨front, u, back, after, rfl, front_ok, last⟩ := ih h
      refine ⟨t :: front, u, back, after, rfl, ?_, ?_⟩
      · rw [readAll_cons first]
        exact front_ok
      · rw [List.length_cons, Nat.add_comm front.length 1, ← Nat.add_assoc]
        exact last

/-! ## Completing a list -/

/-- **Whatever is open can be closed**: with some tokens behind it every construct is complete. -/
theorem completes (b : Builder) (index : Nat) :
    ∃ us after, b.readAll index us = .ok after ∧ after.frames = [] := by
  obtain ⟨items, frames, declared⟩ := b
  induction frames generalizing items declared index with
  | nil => exact ⟨[], _, rfl, rfl⟩
  | cons frame frames ih =>
    obtain ⟨opener, i, before⟩ := frame
    -- one `end` completes every part but the header of a loop, which needs its test first
    have closes {b after : Builder} (h : ∀ n, b.read n Mark.close.token = .ok after)
        (below : after.frames = frames) (n : Nat) :
        ∃ us last, b.readAll n us = .ok last ∧ last.frames = [] := by
      obtain ⟨items', frames', declared'⟩ := after
      obtain rfl : frames' = frames := below
      obtain ⟨us, last, rest, complete⟩ := ih (n + 1) items' declared'
      exact ⟨Mark.close.token :: us, last, (readAll_cons (h n)).trans rest, complete⟩
    cases opener with
    | branch k => exact closes (fun _ => rfl) rfl index
    | alternative k body => exact closes (fun _ => rfl) rfl index
    | body k header => exact closes (fun _ => rfl) rfl index
    | procedure sig => exact closes (fun _ => rfl) rfl index
    | header k =>
      let inside : Builder := ⟨[], ⟨.body k (ofReversed items), index, before⟩ :: frames, declared⟩
      have tested : (⟨items, ⟨.header k, i, before⟩ :: frames, declared⟩ : Builder).read index
          Mark.test.token = .ok inside := rfl
      obtain ⟨us, last, rest, complete⟩ := @closes inside _ (fun _ => rfl) rfl (index + 1)
      exact ⟨Mark.test.token :: us, last, (readAll_cons tested).trans rest, complete⟩

/-! ## Where the open constructs are -/

/-- Each frame keeps the index of the last token of what is spelled up to its part. -/
def Indexed (b : Builder) : Prop :=
  ∀ f fs, f :: fs <:+ b.frames → ((f :: fs).reverse.flatMap Frame.spelled).length = f.index + 1

theorem indexed_start : Indexed {} := by
  intro f fs suffix
  simp at suffix

/-- A token that is read leaves the frames, closes some, or begins a part at its own index. -/
theorem frames_of_read {b after : Builder} {index : Nat} {t : Token}
    (h : b.read index t = .ok after) :
    after.frames <:+ b.frames ∨
      ∃ opener before fs, after.items = [] ∧ after.frames = ⟨opener, index, before⟩ :: fs ∧
        fs <:+ b.frames := by
  unfold read at h
  split at h
  case h_5 =>
    unfold otherwise at h
    split at h <;> cases h
    rename_i here
    exact .inr ⟨_, _, _, rfl, rfl, here ▸ List.suffix_cons _ _⟩
  case h_6 =>
    unfold test at h
    split at h <;> cases h
    rename_i here
    exact .inr ⟨_, _, _, rfl, rfl, here ▸ List.suffix_cons _ _⟩
  case h_7 =>
    unfold close at h
    split at h <;> cases h <;> rename_i here <;> exact .inl (here ▸ List.suffix_cons _ _)
  case h_8 sig =>
    unfold declare at h
    split at h
    · cases h
    · split at h <;> cases h
      exact .inr ⟨_, _, _, rfl, rfl, List.suffix_rfl⟩
  case h_9 =>
    cases h
    exact .inl List.suffix_rfl
  all_goals
    cases h
    exact .inr ⟨_, _, _, rfl, rfl, List.suffix_rfl⟩

theorem Indexed.read {b after : Builder} {t : Token} (indexed : b.Indexed)
    (h : b.read b.spelled.length t = .ok after) : after.Indexed := by
  intro f fs suffix
  obtain closed | ⟨opener, before, below, noItems, frames, rest⟩ := frames_of_read h
  · exact indexed f fs (suffix.trans closed)
  · rw [frames] at suffix
    rcases List.suffix_cons_iff.1 suffix with whole | inner
    · have spelled : after.spelled = (f :: fs).reverse.flatMap Frame.spelled := by
        rw [Builder.spelled, noItems, frames, whole]
        exact List.append_nil _
      obtain ⟨rfl, -⟩ := List.cons.inj whole
      rw [← spelled, (reads_read h).1, List.length_append]
      rfl
    · exact indexed f fs (inner.trans rest)

theorem Indexed.readAll {b after : Builder} {ts : List Token} (indexed : b.Indexed)
    (h : b.readAll b.spelled.length ts = .ok after) : after.Indexed := by
  induction ts generalizing b with
  | nil =>
    obtain rfl : b = after := Except.ok.inj h
    exact indexed
  | cons t ts ih =>
    rw [Builder.readAll] at h
    cases first : b.read b.spelled.length t with
    | error e => rw [first] at h; cases h
    | ok mid =>
      rw [first] at h
      have length : mid.spelled.length = b.spelled.length + 1 := by
        rw [(reads_read first).1, List.length_append]
        rfl
      exact ih (indexed.read first) (length ▸ h)

end Builder

theorem Opener.isOpener_token (o : Opener) : o.token.isOpener = true := by
  cases o with
  | branch k => cases k <;> rfl
  | alternative k body => rfl
  | header k => cases k <;> rfl
  | body k header => rfl
  | procedure sig => rfl

theorem Opener.spelled_token (o : Opener) : ∃ front, o.spelled = front ++ [o.token] := by
  cases o with
  | branch k => exact ⟨[], rfl⟩
  | alternative k body => exact ⟨k.mark.token :: body.tokens, rfl⟩
  | header k => exact ⟨[], rfl⟩
  | body k header => exact ⟨k.mark.token :: header.tokens, rfl⟩
  | procedure sig => exact ⟨[], rfl⟩

/-- A token opens a part that no token of the list ends. -/
structure LeftOpen (ts : List Token) (i : Nat) (x : Token) : Prop where
  opens : ts[i]? = some x
  opener : x.isOpener = true
  unended : ∀ j y, y.endsPart = true → ¬Part ts i x j y

/-- No block goes on behind its end with a token that ends a part. -/
theorem Grammar.not_append {ts us body : List Token} {y : Token} (h : Grammar ts)
    (inside : Grammar body) (ends : y.endsPart = true) : ts ≠ body ++ y :: us := by
  intro same
  have longer : ts ++ Mark.close.token :: [] = body ++ y :: (us ++ [Mark.close.token]) := by
    rw [same, List.append_assoc, List.cons_append]
  obtain ⟨rfl, -⟩ := h.unique inside rfl ends longer
  simp at same

/-- With a block behind it, an opening token is left open, and it is the last that is. -/
theorem leftOpen_last {front rest : List Token} {x : Token} (opener : x.isOpener = true)
    (block : Grammar rest) :
    LeftOpen (front ++ x :: rest) front.length x ∧
      ∀ i z, LeftOpen (front ++ x :: rest) i z → i ≤ front.length := by
  have lies : Lies (front ++ x :: rest) (front.length + 1) rest := by
    rw [Lies, List.drop_append, List.drop_of_length_le (by omega)]
    simp
  refine ⟨⟨by simp, opener, fun j y ends part => ?_⟩, fun i z left => ?_⟩
  · obtain ⟨body, inside, within, -⟩ := part_iff.1 part
    obtain ⟨us, whole⟩ := (lies_cons.1 within).2
    have same : body ++ y :: us = rest := by
      rw [List.append_assoc, List.drop_append, List.drop_of_length_le (by omega)] at whole
      simpa using whole
    exact block.not_append inside ends same.symm
  · refine Nat.le_of_not_lt fun behind => ?_
    have here : rest[i - (front.length + 1)]? = some z := by
      have opens := left.opens
      rw [List.getElem?_append_right (by omega), show i - front.length = i - (front.length + 1) + 1
        by omega] at opens
      exact opens
    obtain ⟨j, y, part, ends⟩ := block.exists_part here left.opener
    have within := part.within lies
    rw [show front.length + 1 + (i - (front.length + 1)) = i by omega] at within
    exact left.unended _ y ends within

/-- The innermost frame of a list that was read is the last token left open. -/
theorem leftOpen_of_frame {ts : List Token} {b : Builder} {f : Frame} {fs : List Frame}
    (h : Builder.readAll {} 0 ts = .ok b) (innermost : b.frames = f :: fs) :
    LeftOpen ts f.index f.opener.token ∧ ∀ i x, LeftOpen ts i x → i ≤ f.index := by
  obtain ⟨spelled, sound⟩ := Builder.readAll_sound h Builder.sound_start
  have indexed := Builder.indexed_start.readAll h f fs (innermost ▸ List.suffix_rfl)
  obtain ⟨front, last⟩ := f.opener.spelled_token
  obtain ⟨before, upTo⟩ : ∃ before,
      (f :: fs).reverse.flatMap Frame.spelled = before ++ [f.opener.token] := by
    refine ⟨fs.reverse.flatMap Frame.spelled ++ ((ofReversed f.before).tokens ++ front), ?_⟩
    simp [Frame.spelled, last]
  have split : ts = before ++ f.opener.token :: (ofReversed b.items).tokens := by
    have whole : b.spelled = ts := by
      simpa [Builder.spelled, ofReversed, Block.tokens] using spelled
    rw [← whole, Builder.spelled, innermost, upTo, List.append_assoc]
    rfl
  have index : f.index = before.length := by
    rw [upTo, List.length_append] at indexed
    simpa using indexed.symm
  rw [split, index]
  exact leftOpen_last f.opener.isOpener_token (grammar_tokens sound.items)

/-! ## Linking -/

/-- The token list can be linked. -/
def Linkable (ts : List Token) : Prop :=
  ∃ program, Program.ofTokens ts = .ok program

variable {ts : List Token} {e : LinkError}

theorem not_linkable_of_error (h : Program.ofTokens ts = .error e) : ¬Linkable ts := by
  rintro ⟨program, linked⟩
  cases h.symm.trans linked

/-- Linking fails where reading does. -/
theorem link_of_read_error (h : Builder.readAll {} 0 ts = .error e) :
    Program.ofTokens ts = .error e ∧ e.isUnclosed = false := by
  obtain ⟨front, t, back, b, -, -, last⟩ := Builder.readAll_error h
  refine ⟨?_, (Builder.read_error last).2⟩
  rw [Program.ofTokens, ofTokens, h]
  rfl

/-- A list that was read is linked if no construct is open. -/
theorem linkable_of_read {b : Builder} (h : Builder.readAll {} 0 ts = .ok b)
    (closed : b.frames = []) : Linkable ts := by
  refine ⟨(ofReversed b.items).program, ?_⟩
  rw [Program.ofTokens, ofTokens, h]
  simp [bind, Except.bind, Builder.finish, closed, pure, Except.pure]

/-- A list that was read fails with the innermost construct that is open. -/
theorem unclosed_of_read {b : Builder} {f : Frame} {fs : List Frame}
    (h : Builder.readAll {} 0 ts = .ok b) (innermost : b.frames = f :: fs) :
    Program.ofTokens ts = .error (.unclosed f.opener.token f.index) := by
  rw [Program.ofTokens, ofTokens, h]
  simp [bind, Except.bind, Builder.finish, innermost]

theorem linked_or_unclosed {b : Builder} (h : Builder.readAll {} 0 ts = .ok b) :
    Linkable ts ∨ ∃ opener index, Program.ofTokens ts = .error (.unclosed opener index) := by
  cases frames : b.frames with
  | nil => exact .inl (linkable_of_read h frames)
  | cons f fs => exact .inr ⟨_, _, unclosed_of_read h frames⟩

theorem read_of_unclosed {opener : Token} {index : Nat}
    (h : Program.ofTokens ts = .error (.unclosed opener index)) :
    ∃ b f fs, Builder.readAll {} 0 ts = .ok b ∧ b.frames = f :: fs ∧
      f.opener.token = opener ∧ f.index = index := by
  cases whole : Builder.readAll {} 0 ts with
  | error e =>
    obtain ⟨failed, other⟩ := link_of_read_error whole
    obtain rfl := Except.error.inj (h.symm.trans failed)
    cases other
  | ok b =>
    cases frames : b.frames with
    | nil => exact absurd (linkable_of_read whole frames) (not_linkable_of_error h)
    | cons f fs =>
      have same := Except.error.inj (h.symm.trans (unclosed_of_read whole frames))
      obtain ⟨token, index⟩ := LinkError.unclosed.inj same
      exact ⟨b, f, fs, rfl, frames, token.symm, index.symm⟩

theorem read_error_of_link (h : Program.ofTokens ts = .error e) (other : e.isUnclosed = false) :
    Builder.readAll {} 0 ts = .error e := by
  cases whole : Builder.readAll {} 0 ts with
  | error e' => rw [Except.error.inj (h.symm.trans (link_of_read_error whole).1)]
  | ok b =>
    obtain linked | ⟨opener, index, unclosed⟩ := linked_or_unclosed whole
    · exact absurd linked (not_linkable_of_error h)
    · obtain rfl := Except.error.inj (h.symm.trans unclosed)
      cases other

/-- A list can go on to one that is linked exactly if all of its tokens can be read. -/
theorem viable_iff_read : (∃ us, Linkable (ts ++ us)) ↔ ∃ b, Builder.readAll {} 0 ts = .ok b := by
  constructor
  · rintro ⟨us, linked⟩
    cases whole : Builder.readAll {} 0 ts with
    | ok b => exact ⟨b, rfl⟩
    | error e =>
      have longer : Builder.readAll {} 0 (ts ++ us) = .error e := by
        rw [Builder.readAll_append, whole]
        rfl
      exact absurd linked (not_linkable_of_error (link_of_read_error longer).1)
  · rintro ⟨b, read⟩
    obtain ⟨us, after, completed, closed⟩ := b.completes (0 + ts.length)
    have longer : Builder.readAll {} 0 (ts ++ us) = .ok after := by
      rw [Builder.readAll_append, read]
      exact completed
    exact ⟨us, linkable_of_read longer closed⟩

theorem unclosed_iff_viable :
    (∃ opener index, Program.ofTokens ts = .error (.unclosed opener index)) ↔
      ¬Linkable ts ∧ ∃ us, Linkable (ts ++ us) := by
  rw [viable_iff_read]
  constructor
  · rintro ⟨opener, index, h⟩
    obtain ⟨b, -, -, read, -⟩ := read_of_unclosed h
    exact ⟨not_linkable_of_error h, b, read⟩
  · rintro ⟨unlinked, b, read⟩
    exact (linked_or_unclosed read).resolve_left unlinked

theorem final_iff_not_viable :
    (∃ e, Program.ofTokens ts = .error e ∧ e.isUnclosed = false) ↔
      ∀ us, ¬Linkable (ts ++ us) := by
  rw [← not_exists, viable_iff_read]
  constructor
  · rintro ⟨e, h, other⟩ ⟨b, read⟩
    cases read.symm.trans (read_error_of_link h other)
  · intro unread
    cases whole : Builder.readAll {} 0 ts with
    | ok b => exact absurd ⟨b, whole⟩ unread
    | error e => exact ⟨e, link_of_read_error whole⟩

/-- An error other than an open construct is about the first token that cannot be read. -/
theorem final_error_stays (h : Program.ofTokens ts = .error e) (other : e.isUnclosed = false) :
    e.index < ts.length ∧
      (∀ us, ts.take (e.index + 1) <+: us → Program.ofTokens us = .error e) ∧
      (Linkable (ts.take e.index) ∨
        ∃ opener index, Program.ofTokens (ts.take e.index) = .error (.unclosed opener index)) := by
  obtain ⟨front, t, back, b, rfl, before, last⟩ :=
    Builder.readAll_error (read_error_of_link h other)
  have index : e.index = front.length := by
    rw [(Builder.read_error last).1, Nat.zero_add]
  rw [index, List.take_left]
  refine ⟨by simp, fun us begins => ?_, linked_or_unclosed before⟩
  have upTo : (front ++ t :: back).take (front.length + 1) = front ++ [t] := by
    rw [List.take_append, List.take_of_length_le (by omega), Nat.add_sub_cancel_left]
    rfl
  obtain ⟨more, rfl⟩ := upTo ▸ begins
  refine (link_of_read_error ?_).1
  rw [List.append_assoc, Builder.readAll_append, before]
  change b.readAll (0 + front.length) (t :: more) = _
  rw [Builder.readAll, last]
  rfl

/-- **Link errors tell prefixes apart.** A list fails with an open construct exactly if it is not
linked but can go on to a list that is; it fails with another error exactly if it cannot. Such an
error stays whatever follows the token it names, and the tokens in front of that one are linked or
leave a construct open. The index of an open construct is that of the last token left open. -/
theorem link_errors_classify_prefixes (ts : List Token) :
    ((∃ opener index, Program.ofTokens ts = .error (.unclosed opener index)) ↔
        ¬Linkable ts ∧ ∃ us, Linkable (ts ++ us)) ∧
      ((∃ e, Program.ofTokens ts = .error e ∧ e.isUnclosed = false) ↔
        ∀ us, ¬Linkable (ts ++ us)) ∧
      (∀ e, Program.ofTokens ts = .error e → e.isUnclosed = false →
        e.index < ts.length ∧
        (∀ us, ts.take (e.index + 1) <+: us → Program.ofTokens us = .error e) ∧
        (Linkable (ts.take e.index) ∨
          ∃ opener index, Program.ofTokens (ts.take e.index) = .error (.unclosed opener index))) ∧
      ∀ opener index, Program.ofTokens ts = .error (.unclosed opener index) →
        LeftOpen ts index opener ∧ ∀ i x, LeftOpen ts i x → i ≤ index := by
  refine ⟨unclosed_iff_viable, final_iff_not_viable, fun e => final_error_stays, ?_⟩
  intro opener index h
  obtain ⟨b, f, fs, read, frames, rfl, rfl⟩ := read_of_unclosed h
  exact leftOpen_of_frame read frames

/-- A loop in the arm of a branch, whose header is divided: the `else` can stand nowhere, and in
front of it the `while` is the last token left open. -/
theorem link_errors_classify_prefixes_header :
    let ts : List Token := [.literal (.int 1), Mark.onTrue.token, Mark.whileTrue.token,
      .literal (.int 1)]
    Program.ofTokens (ts ++ [Mark.otherwise.token, Mark.close.token]) =
        .error (.mismatchedOpener .otherwise 4 Mark.whileTrue.token 2) ∧
      (∀ us, ¬Linkable (ts ++ [Mark.otherwise.token, Mark.close.token] ++ us)) ∧
      (∃ us, Linkable (ts ++ us)) ∧ LeftOpen ts 2 Mark.whileTrue.token ∧
      ∀ i x, LeftOpen ts i x → i ≤ 2 := by
  intro ts
  obtain ⟨-, final, -, -⟩ :=
    link_errors_classify_prefixes (ts ++ [Mark.otherwise.token, Mark.close.token])
  obtain ⟨viable, -, -, innermost⟩ := link_errors_classify_prefixes ts
  exact ⟨rfl, final.1 ⟨_, rfl, rfl⟩, (viable.1 ⟨_, _, rfl⟩).2, innermost _ _ rfl⟩

end Block

end Chore
