import Chore.Proofs.Block.Layout
import Chore.Proofs.Block.Reading

/-!
# The grammar of token lists

`Grammar` says which token lists have a block structure, without building one: a sequence of plain
tokens, branches, loops and procedures, where a procedure holds no header. These are the token
lists of proper blocks (`grammar_iff`). The grammar is unambiguous in a strong sense: where a part
of a construct ends is known from the tokens behind its start (`Grammar.unique`), so every opening
token has one closing token of its own.
-/

set_option autoImplicit false

namespace Chore

/-- The signature a token declares. -/
def Token.signature? : Token → Option Signature
  | header sig => some sig
  | _ => none

/-- Whether a token ends a part of a construct. -/
def Token.endsPart : Token → Bool
  | word (.mark .otherwise) => true
  | word (.mark .test) => true
  | word (.mark .close) => true
  | _ => false

namespace Block

/-- The signatures some tokens declare, in their order. -/
def signatures (ts : List Token) : List Signature :=
  ts.filterMap Token.signature?

/-- The token lists that have a block structure. -/
inductive Grammar : List Token → Prop where
  | nil : Grammar []
  | plain {t : Token} {rest : List Token} (plain : t.isPlain = true) (behind : Grammar rest) :
      Grammar (t :: rest)
  | branch {k : BranchKind} {body rest : List Token} (inside : Grammar body)
      (behind : Grammar rest) :
      Grammar (k.mark.token :: (body ++ Mark.close.token :: rest))
  | choice {k : BranchKind} {body alternative rest : List Token} (first : Grammar body)
      (second : Grammar alternative) (behind : Grammar rest) :
      Grammar (k.mark.token :: (body ++ Mark.otherwise.token ::
        (alternative ++ Mark.close.token :: rest)))
  | loop {k : LoopKind} {header body rest : List Token} (first : Grammar header)
      (second : Grammar body) (behind : Grammar rest) :
      Grammar (k.mark.token :: (header ++ Mark.test.token :: (body ++ Mark.close.token :: rest)))
  | procedure {sig : Signature} {body rest : List Token} (inside : Grammar body)
      (flat : signatures body = []) (behind : Grammar rest) :
      Grammar (.header sig :: (body ++ Mark.close.token :: rest))

/-! ## The token lists of blocks -/

theorem signatures_append (ts us : List Token) :
    signatures (ts ++ us) = signatures ts ++ signatures us :=
  List.filterMap_append

theorem signatures_mark (m : Mark) (ts : List Token) :
    signatures (m.token :: ts) = signatures ts := rfl

theorem signatures_header (sig : Signature) (ts : List Token) :
    signatures (.header sig :: ts) = sig :: signatures ts := rfl

theorem signatures_plain {t : Token} (plain : t.isPlain = true) (ts : List Token) :
    signatures (t :: ts) = signatures ts := by
  refine List.filterMap_cons_none ?_
  cases t with
  | header sig => cases plain
  | _ => rfl

/-- The table of a block lists the signatures its tokens declare. -/
theorem map_signature_procedures {b : Block} (proper : b.Proper) (base : Nat) :
    (b.procedures base).map Procedure.signature = signatures b.tokens := by
  induction b generalizing base with
  | nil => rfl
  | plain t rest ih =>
    rw [procedures, tokens, signatures_plain proper.1]
    exact ih proper.2 _
  | branch k body rest ihb ihr =>
    simp [procedures, tokens, signatures_mark, signatures_append, ihb proper.1, ihr proper.2]
  | choice k body alternative rest ihb iha ihr =>
    simp [procedures, tokens, signatures_mark, signatures_append, ihb proper.1, iha proper.2.1,
      ihr proper.2.2]
  | loop k header body rest ihh ihb ihr =>
    simp [procedures, tokens, signatures_mark, signatures_append, ihh proper.1, ihb proper.2.1,
      ihr proper.2.2]
  | procedure sig body rest ihb ihr =>
    simp [procedures, tokens, signatures_header, signatures_mark, signatures_append,
      ihb proper.1, ihr proper.2.2]

theorem names_eq_signatures {b : Block} (proper : b.Proper) :
    b.names = (signatures b.tokens).map Signature.name := by
  rw [← map_signature_procedures proper 0, procedures_eq, List.map_map, List.map_map, b.names_eq 0]
  rfl

/-- The tokens of a proper block are in the grammar. -/
theorem grammar_tokens {b : Block} (proper : b.Proper) : Grammar b.tokens := by
  induction b with
  | nil => exact .nil
  | plain t rest ih => exact .plain proper.1 (ih proper.2)
  | branch k body rest ihb ihr => exact .branch (ihb proper.1) (ihr proper.2)
  | choice k body alternative rest ihb iha ihr =>
    exact .choice (ihb proper.1) (iha proper.2.1) (ihr proper.2.2)
  | loop k header body rest ihh ihb ihr =>
    exact .loop (ihh proper.1) (ihb proper.2.1) (ihr proper.2.2)
  | procedure sig body rest ihb ihr =>
    obtain ⟨body_proper, empty, rest_proper⟩ := proper
    rw [names_eq_signatures body_proper] at empty
    exact .procedure (ihb body_proper) (List.map_eq_nil_iff.1 empty) (ihr rest_proper)

/-- **The grammar** gives the token lists of proper blocks. -/
theorem grammar_iff {ts : List Token} : Grammar ts ↔ ∃ b : Block, b.Proper ∧ b.tokens = ts := by
  constructor
  · intro h
    induction h with
    | nil => exact ⟨.nil, trivial, rfl⟩
    | @plain t _ plain _ ih =>
      obtain ⟨rest, proper, rfl⟩ := ih
      exact ⟨.plain t rest, ⟨plain, proper⟩, rfl⟩
    | @branch k _ _ _ _ ihb ihr =>
      obtain ⟨body, hb, rfl⟩ := ihb
      obtain ⟨rest, hr, rfl⟩ := ihr
      exact ⟨.branch k body rest, ⟨hb, hr⟩, rfl⟩
    | @choice k _ _ _ _ _ _ ihb iha ihr =>
      obtain ⟨body, hb, rfl⟩ := ihb
      obtain ⟨alternative, ha, rfl⟩ := iha
      obtain ⟨rest, hr, rfl⟩ := ihr
      exact ⟨.choice k body alternative rest, ⟨hb, ha, hr⟩, rfl⟩
    | @loop k _ _ _ _ _ _ ihh ihb ihr =>
      obtain ⟨header, hh, rfl⟩ := ihh
      obtain ⟨body, hb, rfl⟩ := ihb
      obtain ⟨rest, hr, rfl⟩ := ihr
      exact ⟨.loop k header body rest, ⟨hh, hb, hr⟩, rfl⟩
    | @procedure sig _ _ _ flat _ ihb ihr =>
      obtain ⟨body, hb, rfl⟩ := ihb
      obtain ⟨rest, hr, rfl⟩ := ihr
      have empty : body.names = [] := by
        rw [names_eq_signatures hb, flat]
        rfl
      exact ⟨.procedure sig body rest, ⟨hb, empty, hr⟩, rfl⟩
  · rintro ⟨b, proper, rfl⟩
    exact grammar_tokens proper

/-! ## Where a part ends -/

theorem not_endsPart_of_isPlain {t : Token} (plain : t.isPlain = true) : t.endsPart = false := by
  cases t with
  | word w =>
    cases w with
    | mark m => cases plain
    | _ => rfl
  | _ => rfl

/-- No block starts with a token that ends a part. -/
theorem Grammar.not_endsPart {x : Token} {ts : List Token} (h : Grammar (x :: ts)) :
    x.endsPart = false := by
  cases h with
  | plain plain _ => exact not_endsPart_of_isPlain plain
  | @branch k => cases k <;> rfl
  | @choice k => cases k <;> rfl
  | @loop k => cases k <;> rfl
  | procedure => rfl

theorem mark_ne_of_isPlain {t : Token} (plain : t.isPlain = true) (m : Mark) : t ≠ m.token := by
  rintro rfl
  cases plain

theorem branch_ne_loop (k : BranchKind) (l : LoopKind) : k.mark.token ≠ l.mark.token := by
  cases k <;> cases l <;> decide

/-! What a block is that starts with a given token. -/

theorem Grammar.of_plain {t : Token} {ts : List Token} (h : Grammar (t :: ts))
    (plain : t.isPlain = true) : Grammar ts := by
  cases h with
  | plain _ behind => exact behind
  | branch => cases plain
  | choice => cases plain
  | loop => cases plain
  | procedure => cases plain

theorem Grammar.of_branch {k : BranchKind} {ts : List Token} (h : Grammar (k.mark.token :: ts)) :
    (∃ body rest, Grammar body ∧ Grammar rest ∧ ts = body ++ Mark.close.token :: rest) ∨
      ∃ body alternative rest, Grammar body ∧ Grammar alternative ∧ Grammar rest ∧
        ts = body ++ Mark.otherwise.token :: (alternative ++ Mark.close.token :: rest) := by
  generalize whole : k.mark.token :: ts = all at h
  cases h with
  | nil => cases whole
  | plain plain _ => exact absurd (List.cons.inj whole).1.symm (mark_ne_of_isPlain plain _)
  | branch inside behind => exact .inl ⟨_, _, inside, behind, (List.cons.inj whole).2⟩
  | choice first second behind =>
    exact .inr ⟨_, _, _, first, second, behind, (List.cons.inj whole).2⟩
  | loop => exact absurd (List.cons.inj whole).1 (branch_ne_loop _ _)
  | procedure => cases (List.cons.inj whole).1

theorem Grammar.of_loop {k : LoopKind} {ts : List Token} (h : Grammar (k.mark.token :: ts)) :
    ∃ header body rest, Grammar header ∧ Grammar body ∧ Grammar rest ∧
      ts = header ++ Mark.test.token :: (body ++ Mark.close.token :: rest) := by
  generalize whole : k.mark.token :: ts = all at h
  cases h with
  | nil => cases whole
  | plain plain _ => exact absurd (List.cons.inj whole).1.symm (mark_ne_of_isPlain plain _)
  | branch => exact absurd (List.cons.inj whole).1.symm (branch_ne_loop _ _)
  | choice => exact absurd (List.cons.inj whole).1.symm (branch_ne_loop _ _)
  | loop first second behind => exact ⟨_, _, _, first, second, behind, (List.cons.inj whole).2⟩
  | procedure => cases (List.cons.inj whole).1

theorem Grammar.of_header {sig : Signature} {ts : List Token} (h : Grammar (.header sig :: ts)) :
    ∃ body rest, Grammar body ∧ Grammar rest ∧ ts = body ++ Mark.close.token :: rest := by
  cases h with
  | plain plain _ => cases plain
  | procedure inside _ behind => exact ⟨_, _, inside, behind, rfl⟩

/-- A block in front of a token that ends a part starts as any other such block does. -/
theorem Grammar.starts_alike {t x y : Token} {u v r s : List Token} (hu : Grammar (t :: u))
    (hy : y.endsPart = true) (same : t :: (u ++ x :: r) = v ++ y :: s) :
    ∃ w, v = t :: w ∧ u ++ x :: r = w ++ y :: s := by
  cases v with
  | nil =>
    obtain ⟨rfl, -⟩ := List.cons.inj same
    rw [hu.not_endsPart] at hy
    cases hy
  | cons t' w =>
    obtain ⟨rfl, tails⟩ := List.cons.inj same
    exact ⟨w, rfl, tails⟩

/-- **Where a block ends**, in front of a token that ends a part, is known from the tokens. -/
theorem Grammar.unique {u v r s : List Token} {x y : Token} (hu : Grammar u) (hv : Grammar v)
    (hx : x.endsPart = true) (hy : y.endsPart = true) (same : u ++ x :: r = v ++ y :: s) :
    u = v ∧ x = y ∧ r = s := by
  have close : Mark.close.token.endsPart = true := rfl
  have otherwise : Mark.otherwise.token.endsPart = true := rfl
  have test : Mark.test.token.endsPart = true := rfl
  induction hu generalizing v r s x y with
  | nil =>
    cases v with
    | nil => exact ⟨rfl, List.cons.inj same⟩
    | cons t w =>
      obtain ⟨rfl, -⟩ := List.cons.inj same
      rw [hv.not_endsPart] at hx
      cases hx
  | plain plain behind ih =>
    obtain ⟨w, rfl, tails⟩ := (Grammar.plain plain behind).starts_alike hy same
    obtain ⟨rfl, ends⟩ := ih (hv.of_plain plain) hx hy tails
    exact ⟨rfl, ends⟩
  | branch inside behind ihb ihr =>
    obtain ⟨w, rfl, tails⟩ := (Grammar.branch inside behind).starts_alike hy same
    obtain ⟨body, rest, hb, hr, rfl⟩ | ⟨body, alternative, rest, hb, -, -, rfl⟩ := hv.of_branch
    · rw [List.append_assoc, List.append_assoc] at tails
      obtain ⟨rfl, -, tails'⟩ := ihb hb close close tails
      obtain ⟨rfl, ends⟩ := ihr hr hx hy tails'
      exact ⟨rfl, ends⟩
    · rw [List.append_assoc, List.append_assoc] at tails
      obtain ⟨-, divided, -⟩ := ihb hb close otherwise tails
      cases divided
  | choice first second behind ihb iha ihr =>
    obtain ⟨w, rfl, tails⟩ := (Grammar.choice first second behind).starts_alike hy same
    obtain ⟨body, rest, hb, -, rfl⟩ | ⟨body, alternative, rest, hb, ha, hr, rfl⟩ := hv.of_branch
    · rw [List.append_assoc, List.append_assoc] at tails
      obtain ⟨-, divided, -⟩ := ihb hb otherwise close tails
      cases divided
    · rw [List.append_assoc, List.append_assoc] at tails
      obtain ⟨rfl, -, tails'⟩ := ihb hb otherwise otherwise tails
      rw [List.append_eq, List.append_eq, List.append_assoc, List.append_assoc] at tails'
      obtain ⟨rfl, -, tails''⟩ := iha ha close close tails'
      obtain ⟨rfl, ends⟩ := ihr hr hx hy tails''
      exact ⟨rfl, ends⟩
  | loop first second behind ihh ihb ihr =>
    obtain ⟨w, rfl, tails⟩ := (Grammar.loop first second behind).starts_alike hy same
    obtain ⟨header, body, rest, hh, hb, hr, rfl⟩ := hv.of_loop
    rw [List.append_assoc, List.append_assoc] at tails
    obtain ⟨rfl, -, tails'⟩ := ihh hh test test tails
    rw [List.append_eq, List.append_eq, List.append_assoc, List.append_assoc] at tails'
    obtain ⟨rfl, -, tails''⟩ := ihb hb close close tails'
    obtain ⟨rfl, ends⟩ := ihr hr hx hy tails''
    exact ⟨rfl, ends⟩
  | procedure inside flat behind ihb ihr =>
    obtain ⟨w, rfl, tails⟩ := (Grammar.procedure inside flat behind).starts_alike hy same
    obtain ⟨body, rest, hb, hr, rfl⟩ := hv.of_header
    rw [List.append_assoc, List.append_assoc] at tails
    obtain ⟨rfl, -, tails'⟩ := ihb hb close close tails
    obtain ⟨rfl, ends⟩ := ihr hr hx hy tails'
    exact ⟨rfl, ends⟩

end Block

end Chore
