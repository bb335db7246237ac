import Chore.Proofs.Block.WellFormed

/-!
# Where blocks stand in a program

`Block.StandsAt` says that a block stands in a program from an index on: each of its instructions
is there, with the jump target and the role the block gives it. The block of a program stands at
zero, and every declared body stands at the start of its procedure. From here on no proof looks at
the list of instructions again.
-/

set_option autoImplicit false

namespace Chore

namespace Block

/-- A declared procedure: its signature, and its body with the index it stands at. -/
structure Declaration where
  signature : Signature
  start : Nat
  body : Block

/-- A declared procedure in the table of a program. -/
def Declaration.procedure (d : Declaration) : Procedure where
  start := d.start
  stop := d.start + d.body.size
  signature := d.signature

/-- The procedures declared in a block laid out from the index `base` on, with their bodies. -/
def declarations (base : Nat) : Block → List Declaration
  | nil => []
  | plain _ rest => rest.declarations (base + 1)
  | branch _ body rest =>
    body.declarations (base + 1) ++ rest.declarations (base + body.size + 2)
  | choice _ body alternative rest =>
    body.declarations (base + 1) ++ (alternative.declarations (base + body.size + 2) ++
      rest.declarations (base + body.size + alternative.size + 3))
  | loop _ header body rest =>
    header.declarations (base + 1) ++ (body.declarations (base + header.size + 2) ++
      rest.declarations (base + header.size + body.size + 3))
  | procedure sig body rest =>
    ⟨sig, base + 1, body⟩ ::
      (body.declarations (base + 1) ++ rest.declarations (base + body.size + 2))

/-- The table of a program is that of its declarations. -/
theorem procedures_eq (b : Block) (base : Nat) :
    b.procedures base = (b.declarations base).map Declaration.procedure := by
  induction b generalizing base with
  | nil => rfl
  | plain t rest ih => exact ih _
  | branch k body rest ihb ihr => simp [procedures, declarations, ihb, ihr]
  | choice k body alternative rest ihb iha ihr => simp [procedures, declarations, ihb, iha, ihr]
  | loop k header body rest ihh ihb ihr => simp [procedures, declarations, ihh, ihb, ihr]
  | procedure sig body rest ihb ihr =>
    simp only [procedures, declarations, ihb, ihr, List.map_cons, List.map_append,
      Declaration.procedure]
    rw [Nat.add_right_comm]

theorem names_eq (b : Block) (base : Nat) :
    b.names = (b.declarations base).map fun d => d.signature.name := by
  induction b generalizing base with
  | nil => rfl
  | plain t rest ih => exact ih _
  | branch k body rest ihb ihr =>
    simp only [names, declarations, List.map_append, ← ihb, ← ihr]
  | choice k body alternative rest ihb iha ihr =>
    simp only [names, declarations, List.map_append, ← ihb, ← iha, ← ihr]
  | loop k header body rest ihh ihb ihr =>
    simp only [names, declarations, List.map_append, ← ihh, ← ihb, ← ihr]
  | procedure sig body rest ihb ihr =>
    simp only [names, declarations, List.map_cons, List.map_append, ← ihb, ← ihr]

theorem declarations_eq_nil {b : Block} (h : b.names = []) (base : Nat) :
    b.declarations base = [] := by
  rw [b.names_eq base] at h
  exact List.map_eq_nil_iff.1 h

/-- A declared body is made of tokens of the block, and declares nothing itself. -/
theorem body_of_mem_declarations {b : Block} (proper : b.Proper) {base : Nat} {d : Declaration}
    (hd : d ∈ b.declarations base) : d.body.names = [] ∧ d.body.tokens ⊆ b.tokens := by
  induction b generalizing base with
  | nil => cases hd
  | plain t rest ih =>
    obtain ⟨flat, part⟩ := ih proper.2 hd
    refine ⟨flat, fun t ht => ?_⟩
    simp [tokens, part ht]
  | branch k body rest ihb ihr =>
    rcases List.mem_append.1 hd with hd | hd
    · obtain ⟨flat, part⟩ := ihb proper.1 hd
      exact ⟨flat, fun t ht => by simp [tokens, part ht]⟩
    · obtain ⟨flat, part⟩ := ihr proper.2 hd
      exact ⟨flat, fun t ht => by simp [tokens, part ht]⟩
  | choice k body alternative rest ihb iha ihr =>
    rcases List.mem_append.1 hd with hd | hd
    · obtain ⟨flat, part⟩ := ihb proper.1 hd
      exact ⟨flat, fun t ht => by simp [tokens, part ht]⟩
    · rcases List.mem_append.1 hd with hd | hd
      · obtain ⟨flat, part⟩ := iha proper.2.1 hd
        exact ⟨flat, fun t ht => by simp [tokens, part ht]⟩
      · obtain ⟨flat, part⟩ := ihr proper.2.2 hd
        exact ⟨flat, fun t ht => by simp [tokens, part ht]⟩
  | loop k header body rest ihh ihb ihr =>
    rcases List.mem_append.1 hd with hd | hd
    · obtain ⟨flat, part⟩ := ihh proper.1 hd
      exact ⟨flat, fun t ht => by simp [tokens, part ht]⟩
    · rcases List.mem_append.1 hd with hd | hd
      · obtain ⟨flat, part⟩ := ihb proper.2.1 hd
        exact ⟨flat, fun t ht => by simp [tokens, part ht]⟩
      · obtain ⟨flat, part⟩ := ihr proper.2.2 hd
        exact ⟨flat, fun t ht => by simp [tokens, part ht]⟩
  | procedure sig body rest ihb ihr =>
    rcases List.mem_cons.1 hd with rfl | hd
    · exact ⟨proper.2.1, fun t ht => by simp [tokens, ht]⟩
    · rw [declarations_eq_nil proper.2.1, List.nil_append] at hd
      obtain ⟨flat, part⟩ := ihr proper.2.2 hd
      exact ⟨flat, fun t ht => by simp [tokens, part ht]⟩

/-- A block stands in a program from an index on. -/
def StandsAt (program : Program) : Block → Nat → Prop
  | nil, _ => True
  | plain t rest, base =>
    t.isPlain = true ∧ program.instructions[base]? = some { token := t } ∧
      rest.StandsAt program (base + 1)
  | branch k body rest, base =>
    program.instructions[base]? =
        some { token := k.mark.token, next := some (base + body.size + 2) } ∧
      body.StandsAt program (base + 1) ∧
      program.instructions[base + body.size + 1]? =
        some { token := Mark.close.token, role := .close .branch } ∧
      rest.StandsAt program (base + body.size + 2)
  | choice k body alternative rest, base =>
    program.instructions[base]? =
        some { token := k.mark.token, next := some (base + body.size + 2) } ∧
      body.StandsAt program (base + 1) ∧
      program.instructions[base + body.size + 1]? =
        some { token := Mark.otherwise.token,
               next := some (base + body.size + alternative.size + 3) } ∧
      alternative.StandsAt program (base + body.size + 2) ∧
      program.instructions[base + body.size + alternative.size + 2]? =
        some { token := Mark.close.token, role := .close .branch } ∧
      rest.StandsAt program (base + body.size + alternative.size + 3)
  | loop k header body rest, base =>
    program.instructions[base]? =
        some { token := k.mark.token, next := some (base + header.size + 2) } ∧
      header.StandsAt program (base + 1) ∧
      program.instructions[base + header.size + 1]? =
        some { token := Mark.test.token, next := some (base + header.size + body.size + 3),
               role := .test k base } ∧
      body.StandsAt program (base + header.size + 2) ∧
      program.instructions[base + header.size + body.size + 2]? =
        some { token := Mark.close.token, next := some base, role := .close (.loop base) } ∧
      rest.StandsAt program (base + header.size + body.size + 3)
  | procedure sig body rest, base =>
    program.instructions[base]? =
        some { token := .header sig, next := some (base + body.size + 2) } ∧
      body.StandsAt program (base + 1) ∧
      program.instructions[base + body.size + 1]? =
        some { token := Mark.close.token, role := .close .procedure } ∧
      rest.StandsAt program (base + body.size + 2)

end Block

/-- Instructions stand in a program from an index on. -/
def Program.Has (program : Program) : Nat → List Instr → Prop
  | _, [] => True
  | base, instr :: instrs =>
    program.instructions[base]? = some instr ∧ program.Has (base + 1) instrs

theorem Program.has_append {program : Program} {base : Nat} {front back : List Instr} :
    program.Has base (front ++ back) ↔
      program.Has base front ∧ program.Has (base + front.length) back := by
  induction front generalizing base with
  | nil => simp [Has]
  | cons instr front ih =>
    simp only [List.cons_append, Has, ih, List.length_cons, and_assoc]
    rw [show base + 1 + front.length = base + (front.length + 1) by omega]

/-- A program has its instructions. -/
theorem Program.has_of_append {program : Program} {front back : List Instr}
    (h : program.instructions.toList = front ++ back) : program.Has front.length back := by
  induction back generalizing front with
  | nil => trivial
  | cons instr back ih =>
    refine ⟨?_, ?_⟩
    · rw [← Array.getElem?_toList, h]
      simp
    · have := @ih (front ++ [instr]) (by simpa using h)
      simpa using this

namespace Block

/-- A block stands where its instructions do. -/
theorem standsAt_of_has {program : Program} {b : Block} (proper : b.Proper) {base : Nat}
    (h : program.Has base (b.instructions base)) : b.StandsAt program base := by
  induction b generalizing base with
  | nil => trivial
  | plain t rest ih => exact ⟨proper.1, h.1, ih proper.2 h.2⟩
  | branch k body rest ihb ihr =>
    obtain ⟨opens, h⟩ := h
    obtain ⟨hb, closes, hr⟩ := Program.has_append.1 h
    rw [length_instructions, show base + 1 + body.size = base + body.size + 1 by omega]
      at closes hr
    exact ⟨opens, ihb proper.1 hb, closes, ihr proper.2 hr⟩
  | choice k body alternative rest ihb iha ihr =>
    have after : base + body.size + 1 + alternative.size + 2 =
      base + body.size + alternative.size + 3 := by omega
    simp only [instructions, after] at h
    obtain ⟨opens, h⟩ := h
    obtain ⟨hb, divides, h⟩ := Program.has_append.1 h
    rw [length_instructions, show base + 1 + body.size = base + body.size + 1 by omega]
      at divides h
    obtain ⟨ha, closes, hr⟩ := Program.has_append.1 h
    rw [length_instructions, show base + body.size + 1 + 1 + alternative.size =
      base + body.size + alternative.size + 2 by omega] at closes hr
    exact ⟨opens, ihb proper.1 hb, divides, iha proper.2.1 ha, closes, ihr proper.2.2 hr⟩
  | loop k header body rest ihh ihb ihr =>
    have after : base + header.size + 1 + body.size + 2 =
      base + header.size + body.size + 3 := by omega
    simp only [instructions, after] at h
    obtain ⟨opens, h⟩ := h
    obtain ⟨hh, tests, h⟩ := Program.has_append.1 h
    rw [length_instructions, show base + 1 + header.size = base + header.size + 1 by omega]
      at tests h
    obtain ⟨hb, closes, hr⟩ := Program.has_append.1 h
    rw [length_instructions, show base + header.size + 1 + 1 + body.size =
      base + header.size + body.size + 2 by omega] at closes hr
    exact ⟨opens, ihh proper.1 hh, tests, ihb proper.2.1 hb, closes, ihr proper.2.2 hr⟩
  | procedure sig body rest ihb ihr =>
    obtain ⟨opens, h⟩ := h
    obtain ⟨hb, closes, hr⟩ := Program.has_append.1 h
    rw [length_instructions, show base + 1 + body.size = base + body.size + 1 by omega]
      at closes hr
    exact ⟨opens, ihb proper.1 hb, closes, ihr proper.2.2 hr⟩

/-- The block of a program stands at its start. -/
theorem standsAt_program {b : Block} (proper : b.Proper) : b.StandsAt b.program 0 :=
  standsAt_of_has proper (@Program.has_of_append b.program [] _ (by simp [program]))

@[simp] theorem size_program (b : Block) : b.program.size = b.size := by
  simp [program, Program.size]

theorem find?_of_mem {procedures : List Procedure}
    (distinct : (procedures.map Procedure.name).Nodup) {p : Procedure} (hp : p ∈ procedures) :
    (procedures.find? fun q => q.name == p.name) = some p := by
  induction procedures with
  | nil => cases hp
  | cons q procedures ih =>
    rw [List.map_cons, List.nodup_cons] at distinct
    rcases List.mem_cons.1 hp with rfl | hp
    · simp
    · have other : q.name ≠ p.name :=
        fun same => distinct.1 (same ▸ List.mem_map_of_mem hp)
      rw [List.find?_cons_of_neg (by simpa using other)]
      exact ih distinct.2 hp

/-- A declared procedure is found under its name. -/
theorem procedure?_of_mem {b : Block} (distinct : b.names.Nodup) {p : Procedure}
    (hp : p ∈ b.program.procedures) : b.program.procedure? p.name = some p := by
  refine find?_of_mem ?_ hp
  rw [show b.program.procedures = _ from b.procedures_eq 0, List.map_map]
  rw [b.names_eq 0] at distinct
  exact distinct

/-- The table of a program has its declared procedures. -/
theorem procedure_mem_program {b : Block} {d : Declaration} (hd : d ∈ b.declarations 0) :
    d.procedure ∈ b.program.procedures := by
  rw [show b.program.procedures = _ from b.procedures_eq 0]
  exact List.mem_map_of_mem hd

/-- A declared body stands at the start of its procedure, between header and `end`. -/
structure Declaration.Stands (program : Program) (d : Declaration) : Prop where
  header : ∃ base, d.start = base + 1 ∧ program.instructions[base]? =
    some { token := .header d.signature, next := some (d.start + d.body.size + 1) }
  body : d.body.StandsAt program d.start
  close : program.instructions[d.start + d.body.size]? =
    some { token := Mark.close.token, role := .close .procedure }

theorem stands_of_mem_declarations {program : Program} {b : Block} {base : Nat}
    (h : b.StandsAt program base) {d : Declaration} (hd : d ∈ b.declarations base) :
    d.Stands program := by
  induction b generalizing base with
  | nil => cases hd
  | plain t rest ih => exact ih h.2.2 hd
  | branch k body rest ihb ihr =>
    obtain ⟨-, hb, -, hr⟩ := h
    rcases List.mem_append.1 hd with hd | hd
    · exact ihb hb hd
    · exact ihr hr hd
  | choice k body alternative rest ihb iha ihr =>
    obtain ⟨-, hb, -, ha, -, hr⟩ := h
    rcases List.mem_append.1 hd with hd | hd
    · exact ihb hb hd
    · rcases List.mem_append.1 hd with hd | hd
      · exact iha ha hd
      · exact ihr hr hd
  | loop k header body rest ihh ihb ihr =>
    obtain ⟨-, hh, -, hb, -, hr⟩ := h
    rcases List.mem_append.1 hd with hd | hd
    · exact ihh hh hd
    · rcases List.mem_append.1 hd with hd | hd
      · exact ihb hb hd
      · exact ihr hr hd
  | procedure sig body rest ihb ihr =>
    obtain ⟨opens, hb, closes, hr⟩ := h
    rcases List.mem_cons.1 hd with rfl | hd
    · have place : base + 1 + body.size = base + body.size + 1 := by omega
      exact ⟨⟨base, rfl, by rw [opens, place]⟩, hb, by rw [place]; exact closes⟩
    · rcases List.mem_append.1 hd with hd | hd
      · exact ihb hb hd
      · exact ihr hr hd

/-- Every header of a block is that of a declared procedure. -/
theorem exists_declaration {program : Program} {b : Block} {base i : Nat} {instr : Instr}
    {sig : Signature} (h : b.StandsAt program base) (start : base ≤ i) (stop : i < base + b.size)
    (fetched : program.instructions[i]? = some instr) (header : instr.token = .header sig) :
    ∃ d ∈ b.declarations base, d.start = i + 1 ∧ instr.next = some (d.start + d.body.size + 1) := by
  -- an index where the block has another token is none of a header
  have other {j : Nat} {instr' : Instr} (at_ : program.instructions[j]? = some instr')
      (ne : ∀ sig, instr'.token ≠ .header sig) : i ≠ j := by
    rintro rfl
    obtain rfl : instr = instr' := Option.some.inj (fetched.symm.trans at_)
    exact ne sig header
  have mark (m : Mark) (sig : Signature) : m.token ≠ .header sig := nofun
  induction b generalizing base with
  | nil => exact absurd stop (by simp only [size]; omega)
  | plain t rest ih =>
    obtain ⟨plain, at_, hr⟩ := h
    have ne := other at_ (by rintro sig rfl; cases plain)
    simp only [size] at stop
    exact ih hr (by omega) (by omega)
  | branch k body rest ihb ihr =>
    obtain ⟨opens, hb, closes, hr⟩ := h
    have ne := other opens (mark _)
    have ne' := other closes (mark _)
    simp only [size] at stop
    by_cases inside : i < base + 1 + body.size
    · obtain ⟨d, hd, place⟩ := ihb hb (by omega) inside
      exact ⟨d, List.mem_append_left _ hd, place⟩
    · obtain ⟨d, hd, place⟩ := ihr hr (by omega) (by omega)
      exact ⟨d, List.mem_append_right _ hd, place⟩
  | choice k body alternative rest ihb iha ihr =>
    obtain ⟨opens, hb, divides, ha, closes, hr⟩ := h
    have ne := other opens (mark _)
    have ne' := other divides (mark _)
    have ne'' := other closes (mark _)
    simp only [size] at stop
    by_cases inside : i < base + 1 + body.size
    · obtain ⟨d, hd, place⟩ := ihb hb (by omega) inside
      exact ⟨d, List.mem_append_left _ hd, place⟩
    · by_cases inside' : i < base + body.size + 2 + alternative.size
      · obtain ⟨d, hd, place⟩ := iha ha (by omega) inside'
        exact ⟨d, List.mem_append_right _ (List.mem_append_left _ hd), place⟩
      · obtain ⟨d, hd, place⟩ := ihr hr (by omega) (by omega)
        exact ⟨d, List.mem_append_right _ (List.mem_append_right _ hd), place⟩
  | loop k header body rest ihh ihb ihr =>
    obtain ⟨opens, hh, tests, hb, closes, hr⟩ := h
    have ne := other opens (mark _)
    have ne' := other tests (mark _)
    have ne'' := other closes (mark _)
    simp only [size] at stop
    by_cases inside : i < base + 1 + header.size
    · obtain ⟨d, hd, place⟩ := ihh hh (by omega) inside
      exact ⟨d, List.mem_append_left _ hd, place⟩
    · by_cases inside' : i < base + header.size + 2 + body.size
      · obtain ⟨d, hd, place⟩ := ihb hb (by omega) inside'
        exact ⟨d, List.mem_append_right _ (List.mem_append_left _ hd), place⟩
      · obtain ⟨d, hd, place⟩ := ihr hr (by omega) (by omega)
        exact ⟨d, List.mem_append_right _ (List.mem_append_right _ hd), place⟩
  | procedure sig body rest ihb ihr =>
    obtain ⟨opens, hb, closes, hr⟩ := h
    have ne := other closes (mark _)
    simp only [size] at stop
    by_cases here : i = base
    · obtain rfl := here
      obtain rfl := Option.some.inj (fetched.symm.trans opens)
      refine ⟨⟨sig, i + 1, body⟩, List.mem_cons_self, rfl, ?_⟩
      rw [show i + body.size + 2 = i + 1 + body.size + 1 by omega]
    · by_cases inside : i < base + 1 + body.size
      · obtain ⟨d, hd, place⟩ := ihb hb (by omega) inside
        exact ⟨d, List.mem_cons_of_mem _ (List.mem_append_left _ hd), place⟩
      · obtain ⟨d, hd, place⟩ := ihr hr (by omega) (by omega)
        exact ⟨d, List.mem_cons_of_mem _ (List.mem_append_right _ hd), place⟩

end Block

end Chore
