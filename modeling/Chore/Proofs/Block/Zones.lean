import Chore.Proofs.Block.Resolution

/-!
# Zones

The ranges of its procedures cut a program into zones: two indices are in one zone if every
procedure covers both of them or neither. `Zoned` says of an instruction that it goes on, jumps and
loops within its zone, and `zoned` that every instruction of a linked program is such. The ranges
themselves do not overlap (`eq_of_covers`). From here on no proof looks at the parts of a token
list again.
-/

set_option autoImplicit false

namespace Chore

/-- An index is in the range of a procedure: in its body, or at the `end` behind it. -/
def Procedure.Covers (p : Procedure) (i : Nat) : Prop :=
  p.start ≤ i ∧ i ≤ p.stop

namespace Program

variable {program : Program} {i j k : Nat}

/-- An index is in the range of some procedure. -/
def Inside (program : Program) (i : Nat) : Prop :=
  ∃ p ∈ program.procedures, p.Covers i

/-- Every procedure covers both indices or neither. -/
def SameZone (program : Program) (i j : Nat) : Prop :=
  ∀ p ∈ program.procedures, p.Covers i ↔ p.Covers j

theorem SameZone.symm (h : program.SameZone i j) : program.SameZone j i :=
  fun p hp => (h p hp).symm

theorem SameZone.trans (h : program.SameZone i j) (g : program.SameZone j k) :
    program.SameZone i k :=
  fun p hp => (h p hp).trans (g p hp)

theorem SameZone.inside_iff (h : program.SameZone i j) : program.Inside i ↔ program.Inside j :=
  exists_congr fun p => and_congr_right (h p)

end Program

namespace Block

/-- An instruction stays in its zone where it goes on, jumps or loops, and a body ends in the range
of its procedure. -/
structure Zoned (program : Program) (i : Nat) (instr : Instr) : Prop where
  next : (∀ sig, instr.token ≠ .header sig) →
    (instr.token = Mark.close.token → instr.role ≠ .close .procedure) → program.SameZone i (i + 1)
  jump : ∀ n, instr.next = some n → program.SameZone i n ∧ n ≤ program.size
  again : ∀ n, instr.role = .close (.loop n) → instr.next = some n
  inside : instr.role = .close .procedure → program.Inside i

variable {b : Block} {i j : Nat} {x y : Token}

theorem ne_of_tokens {ts : List Token} (hx : ts[i]? = some x) (hy : ts[j]? = some y)
    (other : x ≠ y) : i ≠ j := by
  rintro rfl
  exact other (Option.some.inj (hx.symm.trans hy))

/-- The ends of a part and what lies right behind them are in one zone. -/
structure Part.InZone (program : Program) (i j : Nat) : Prop where
  opens : program.SameZone i (i + 1)
  ends : program.SameZone i j
  behind : program.SameZone i (j + 1)
  bound : j + 1 ≤ program.size

theorem Part.bound (part : Part b.tokens i x j y) : j + 1 ≤ b.program.size := by
  obtain ⟨bound, -⟩ := List.getElem?_eq_some_iff.1 part.ends
  simpa [Nat.succ_le_iff] using bound

/-- **Parts are in one zone**, bodies of procedures apart: a procedure encloses the part or lies in
it or beside it. -/
theorem Part.inZone (proper : b.Proper) (part : Part b.tokens i x j y) (opener : x.isOpener = true)
    (other : ∀ sig, x ≠ .header sig) (ender : y.endsPart = true) : Part.InZone b.program i j := by
  have zone : ∀ p ∈ b.program.procedures,
      (p.Covers i ↔ p.Covers (i + 1)) ∧ (p.Covers i ↔ p.Covers j) ∧
        (p.Covers i ↔ p.Covers (j + 1)) := by
    intro p hp
    obtain ⟨h, start, body⟩ := (mem_procedures_iff proper).1 hp
    -- the tokens keep the ends of part and body apart, so that one starts inside the other or not
    have ne : i ≠ h := ne_of_tokens part.opens body.opens (other _)
    have ne' : j ≠ h := ne_of_tokens part.ends body.opens (by rintro rfl; cases ender)
    have ne'' : i ≠ p.stop := ne_of_tokens part.opens body.ends (by rintro rfl; cases opener)
    have around := body.nested part opener ender
    have within := part.nested body rfl rfl
    have before := part.before
    have before' := body.before
    simp only [Procedure.Covers, start]
    omega
  exact ⟨fun p hp => (zone p hp).1, fun p hp => (zone p hp).2.1, fun p hp => (zone p hp).2.2,
    part.bound⟩

/-- A header jumps over the body to its own zone. -/
theorem Part.behind_body (proper : b.Proper) {sig : Signature}
    (part : Part b.tokens i (.header sig) j Mark.close.token) : b.program.SameZone i (j + 1) := by
  intro p hp
  obtain ⟨h, start, body⟩ := (mem_procedures_iff proper).1 hp
  have same : i = h → j = p.stop := by
    rintro rfl
    exact part.right_unique body rfl rfl
  have ne : j ≠ h := ne_of_tokens part.ends body.opens nofun
  have ne' : i ≠ p.stop := ne_of_tokens part.opens body.ends nofun
  have around := body.nested part rfl rfl
  have within := part.nested body rfl rfl
  have before := part.before
  have before' := body.before
  simp only [Procedure.Covers, start]
  omega

/-- Behind a plain token the zone is the same. -/
theorem sameZone_plain (proper : b.Proper) (here : b.tokens[i]? = some x)
    (plain : x.isPlain = true) : b.program.SameZone i (i + 1) := by
  intro p hp
  obtain ⟨h, start, body⟩ := (mem_procedures_iff proper).1 hp
  have ne : i ≠ h := ne_of_tokens here body.opens (by rintro rfl; cases plain)
  have ne' : i ≠ p.stop := ne_of_tokens here body.ends (mark_ne_of_isPlain plain _)
  simp only [Procedure.Covers, start]
  omega

/-- **Instructions stay in their zone**, calls and returns apart. -/
theorem zoned (proper : b.Proper) {instr : Instr}
    (fetched : b.program.instructions[i]? = some instr) : Zoned b.program i instr := by
  have jumps {i n : Nat} (zone : b.program.SameZone i n) (bound : n ≤ b.program.size) :
      ∀ m, some n = some m → b.program.SameZone i m ∧ m ≤ b.program.size := by
    rintro m ⟨⟩
    exact ⟨zone, bound⟩
  have branch (k : BranchKind) : k.mark.token.isOpener = true := by cases k <;> rfl
  cases resolved_of_getElem? proper fetched with
  | plain here plain => exact ⟨fun _ _ => sameZone_plain proper here plain, nofun, nofun, nofun⟩
  | @branch _ _ k body =>
    have zone := body.inZone proper (branch k) nofun rfl
    exact ⟨fun _ _ => zone.opens, jumps zone.behind zone.bound, nofun, nofun⟩
  | @choice _ _ k body =>
    have zone := body.inZone proper (branch k) nofun rfl
    exact ⟨fun _ _ => zone.opens, jumps zone.behind zone.bound, nofun, nofun⟩
  | otherwise alternative =>
    have zone := alternative.inZone proper rfl nofun rfl
    exact ⟨fun _ _ => zone.opens, jumps zone.behind zone.bound, nofun, nofun⟩
  | @loop _ _ k header =>
    have zone := header.inZone proper (isOpener_loop k) nofun rfl
    exact ⟨fun _ _ => zone.opens, jumps zone.behind zone.bound, nofun, nofun⟩
  | test _ body =>
    have zone := body.inZone proper rfl nofun rfl
    exact ⟨fun _ _ => zone.opens, jumps zone.behind zone.bound, nofun, nofun⟩
  | header body =>
    exact ⟨fun other => absurd rfl (other _), jumps (body.behind_body proper) body.bound, nofun,
      nofun⟩
  | @endBranch _ _ k body =>
    have zone := body.inZone proper (branch k) nofun rfl
    exact ⟨fun _ _ => zone.ends.symm.trans zone.behind, nofun, nofun, nofun⟩
  | endChoice alternative =>
    have zone := alternative.inZone proper rfl nofun rfl
    exact ⟨fun _ _ => zone.ends.symm.trans zone.behind, nofun, nofun, nofun⟩
  | @endLoop h _ _ k header body =>
    have zone := header.inZone proper (isOpener_loop k) nofun rfl
    have zone' := body.inZone proper rfl nofun rfl
    have bound : h ≤ b.program.size :=
      Nat.le_trans (Nat.le_of_lt header.before) (Nat.le_of_succ_le header.bound)
    refine ⟨fun _ _ => zone'.ends.symm.trans zone'.behind,
      jumps (zone.ends.trans zone'.ends).symm bound, ?_, nofun⟩
    rintro n ⟨⟩
    rfl
  | @endProcedure h _ sig body =>
    refine ⟨fun _ other => absurd rfl (other rfl), nofun, nofun, fun _ => ?_⟩
    refine ⟨⟨h + 1, i, sig⟩, (mem_procedures_iff proper).2 ⟨h, rfl, body⟩, ?_⟩
    exact ⟨body.before, Nat.le_refl i⟩

/-- No header stands in the range of a procedure. -/
theorem not_covers_header (proper : b.Proper) {p : Procedure} (hp : p ∈ b.program.procedures)
    {sig : Signature} (header : b.tokens[i]? = some (.header sig)) : ¬p.Covers i := by
  rintro ⟨after, before⟩
  obtain ⟨_, _, body⟩ := (mem_procedures_iff proper).1 hp
  have ne : i ≠ p.stop := ne_of_tokens header body.ends nofun
  have stands := standsAt_program proper
  rw [show b.program.procedures = _ from b.procedures_eq 0] at hp
  obtain ⟨d, hd, rfl⟩ := List.mem_map.1 hp
  have fetched : ∃ instr, b.program.instructions[i]? = some instr ∧ instr.token = .header sig := by
    rw [← map_token_instructions 0 b, List.getElem?_map, Option.map_eq_some_iff] at header
    simpa [program] using header
  obtain ⟨instr, fetched, token⟩ := fetched
  have standing := (stands_of_mem_declarations stands hd).body
  obtain ⟨d', hd', -⟩ :=
    exists_declaration standing after (Nat.lt_of_le_of_ne before ne) fetched token
  rw [declarations_eq_nil (body_of_mem_declarations proper hd).1] at hd'
  cases hd'

/-- **Procedures do not overlap.** -/
theorem eq_of_covers (proper : b.Proper) {p q : Procedure} (hp : p ∈ b.program.procedures)
    (hq : q ∈ b.program.procedures) (covers : p.Covers i) (covers' : q.Covers i) : p = q := by
  obtain ⟨h, start, body⟩ := (mem_procedures_iff proper).1 hp
  obtain ⟨h', start', body'⟩ := (mem_procedures_iff proper).1 hq
  have apart := not_covers_header proper hp body'.opens
  have apart' := not_covers_header proper hq body.opens
  simp only [Procedure.Covers, start, start'] at covers covers' apart apart'
  obtain rfl : h = h' := by omega
  have stop : p.stop = q.stop := body.right_unique body' rfl rfl
  have signature : p.signature = q.signature :=
    Token.header.inj (Option.some.inj (body.opens.symm.trans body'.opens))
  obtain ⟨pstart, pstop, psignature⟩ := p
  obtain ⟨qstart, qstop, qsignature⟩ := q
  simp only [Procedure.mk.injEq]
  exact ⟨start.trans start'.symm, stop, signature⟩

/-- The range of a procedure begins behind its header and ends within the program. -/
theorem covers_bounds (proper : b.Proper) {p : Procedure} (hp : p ∈ b.program.procedures) :
    p.Covers p.start ∧ ∀ i, p.Covers i → 0 < i ∧ i < b.program.size := by
  obtain ⟨h, start, body⟩ := (mem_procedures_iff proper).1 hp
  have before := body.before
  have bound := body.bound
  simp only [Procedure.Covers, start]
  exact ⟨by omega, fun i => by omega⟩

end Block

end Chore
