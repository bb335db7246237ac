import Chore.Proofs.Block.Instructions

/-!
# The machine runs what the block says

A linked program does what the block it was laid out from does. The machine moves between indices
and keeps return addresses; `Block.exec` only follows the structure. `exec_leads` takes each outcome
of a block to a path of the machine that ends accordingly, one constructor of blocks after the
other.
-/

set_option autoImplicit false

namespace Chore.Block

open Machine

variable {ω : Type} {c : Setup ω} {e : Scope ω} {s t : State ω} {d : Data ω} {k : Stack Nat}

/-- The machine does what blocks do with so much fuel. -/
def Simulates (c : Setup ω) (e : Scope ω) (fuel : Nat) : Prop :=
  ∀ {b : Block} {base : Nat} {d : Data ω} {s : State ω} {k : Stack Nat} {o : Outcome ω},
    b.StandsAt c.program base → At base k d s → exec e fuel k.size b base d = some o →
    Leads c s k (base + b.size) o

section

variable {fuel base : Nat} {o : Outcome ω}

theorem leads_plain (serves : Serves c e) (ih : Simulates c e fuel) {token : Token} {rest : Block}
    (stands : (Block.plain token rest).StandsAt c.program base) (here : At base k d s)
    (h : exec e (fuel + 1) k.size (.plain token rest) base d = some o) :
    Leads c s k (base + (Block.plain token rest).size) o := by
  obtain ⟨plain, fetched, rest_stands⟩ := stands
  have size : base + (Block.plain token rest).size = base + 1 + rest.size := by
    simp only [Block.size]; omega
  rw [size]
  have behind : ∀ d t, At (base + 1) k d t → exec e fuel k.size rest (base + 1) d = some o →
      Leads c t k (base + 1 + rest.size) o := fun d t there h => ih rest_stands there h
  by_cases call : ∃ name, token = .name name
  · obtain ⟨name, rfl⟩ := call
    rw [exec_name] at h
    cases found : e.find? name with
    | none =>
      rw [found] at h
      obtain rfl := Option.some.inj h
      exact .here ((failsAt_call serves here fetched).1 found)
    | some p =>
      rw [found] at h
      by_cases room : k.size < e.limit
      · simp only [room, if_true] at h
        refine .andThen ?_ behind h
        intro o ho
        obtain ⟨o, ran, rfl⟩ := Option.map_eq_some_iff.1 ho
        exact leads_call serves found room here fetched fun t inside =>
          ih (serves.known name p found).2.body inside ran
      · simp only [room, if_false] at h
        obtain rfl := Option.some.inj h
        exact .here ((failsAt_call serves here fetched).2 p found room)
  · by_cases leaves : ∃ l, token = .word (.leave l)
    · obtain ⟨l, rfl⟩ := leaves
      obtain rfl := Option.some.inj h
      exact leads_leave serves here _ fetched
    · rw [not_exists] at call leaves
      rw [exec_other e _ _ call leaves] at h
      refine .andThen ?_ behind h
      intro o ho
      obtain rfl := Option.some.inj ho
      exact leads_work serves (isData_of_isPlain plain call leaves) here fetched

theorem leads_branch (ih : Simulates c e fuel) {kind : BranchKind} {body rest : Block}
    (stands : (Block.branch kind body rest).StandsAt c.program base) (here : At base k d s)
    (h : exec e (fuel + 1) k.size (.branch kind body rest) base d = some o) :
    Leads c s k (base + (Block.branch kind body rest).size) o := by
  obtain ⟨opens, body_stands, closes, rest_stands⟩ := stands
  have size : base + (Block.branch kind body rest).size = base + body.size + 2 + rest.size := by
    simp only [Block.size]; omega
  rw [size]
  have behind : ∀ d t, At (base + body.size + 2) k d t →
      exec e fuel k.size rest (base + body.size + 2) d = some o →
      Leads c t k (base + body.size + 2 + rest.size) o :=
    fun d t there h => ih rest_stands there h
  refine leads_condition here opens (tests_branch c kind _) rfl ?_ h
  intro b d t there h
  by_cases enters : b = kind.enters
  · simp only [enters, if_true] at there h
    refine .andThen (fun o ho => ih body_stands there ho) ?_ h
    intro d t there h
    rw [show base + 1 + body.size = base + body.size + 1 by omega] at there
    obtain ⟨u, step, behindEnd⟩ := step_next there closes rfl
    exact .step step (behind d u behindEnd h)
  · simp only [enters, if_false] at there h
    exact behind d t there h

theorem leads_choice (ih : Simulates c e fuel) {kind : BranchKind} {body alternative rest : Block}
    (stands : (Block.choice kind body alternative rest).StandsAt c.program base)
    (here : At base k d s)
    (h : exec e (fuel + 1) k.size (.choice kind body alternative rest) base d = some o) :
    Leads c s k (base + (Block.choice kind body alternative rest).size) o := by
  obtain ⟨opens, body_stands, divides, alternative_stands, closes, rest_stands⟩ := stands
  have size : base + (Block.choice kind body alternative rest).size =
      base + body.size + alternative.size + 3 + rest.size := by
    simp only [Block.size]; omega
  rw [size]
  have behind : ∀ d t, At (base + body.size + alternative.size + 3) k d t →
      exec e fuel k.size rest (base + body.size + alternative.size + 3) d = some o →
      Leads c t k (base + body.size + alternative.size + 3 + rest.size) o :=
    fun d t there h => ih rest_stands there h
  refine leads_condition here opens (tests_branch c kind _) rfl ?_ h
  intro b d t there h
  by_cases enters : b = kind.enters
  · simp only [enters, if_true] at there h
    refine .andThen (fun o ho => ih body_stands there ho) ?_ h
    intro d t there h
    rw [show base + 1 + body.size = base + body.size + 1 by omega] at there
    obtain ⟨u, step, behindEnd⟩ := step_jump there divides rfl
    exact .step step (behind d u behindEnd h)
  · simp only [enters, if_false] at there h
    refine .andThen (fun o ho => ih alternative_stands there ho) ?_ h
    intro d t there h
    rw [show base + body.size + 2 + alternative.size = base + body.size + alternative.size + 2
      by omega] at there
    obtain ⟨u, step, behindEnd⟩ := step_next there closes rfl
    exact .step step (behind d u behindEnd h)

theorem leads_loop (ih : Simulates c e fuel) {kind : LoopKind} {header body rest : Block}
    (stands : (Block.loop kind header body rest).StandsAt c.program base) (here : At base k d s)
    (h : exec e (fuel + 1) k.size (.loop kind header body rest) base d = some o) :
    Leads c s k (base + (Block.loop kind header body rest).size) o := by
  have whole := stands
  obtain ⟨opens, header_stands, tests, body_stands, closes, rest_stands⟩ := stands
  have size : base + (Block.loop kind header body rest).size =
      base + header.size + body.size + 3 + rest.size := by
    simp only [Block.size]; omega
  obtain ⟨t, step, inside⟩ := step_next here opens (by cases kind <;> rfl)
  refine .step step (.andThen (fun o ho => ih header_stands inside ho) ?_ h)
  intro d t there h
  rw [show base + 1 + header.size = base + header.size + 1 by omega] at there
  refine leads_condition there tests (tests_loop c kind base _) rfl ?_ h
  intro b d t there h
  by_cases goesOn : b = kind.goesOn
  · simp only [goesOn, if_true] at there h
    refine .andThen (fun o ho => ih body_stands there ho) ?_ h
    intro d t there h
    rw [show base + header.size + 2 + body.size = base + header.size + body.size + 2
      by omega] at there
    -- the `end` goes back to where the whole loop stands, with less fuel
    obtain ⟨u, step, again⟩ := step_jump there closes rfl
    exact .step step (ih whole again h)
  · simp only [goesOn, if_false] at there h
    rw [size]
    exact ih rest_stands there h

theorem leads_procedure (ih : Simulates c e fuel) {sig : Signature} {body rest : Block}
    (stands : (Block.procedure sig body rest).StandsAt c.program base) (here : At base k d s)
    (h : exec e (fuel + 1) k.size (.procedure sig body rest) base d = some o) :
    Leads c s k (base + (Block.procedure sig body rest).size) o := by
  obtain ⟨opens, -, -, rest_stands⟩ := stands
  have size : base + (Block.procedure sig body rest).size =
      base + body.size + 2 + rest.size := by simp only [Block.size]; omega
  rw [size]
  obtain ⟨t, step, there⟩ := step_jump here opens rfl
  exact .step step (ih rest_stands there h)

end

/-- **Each outcome of a block is met by the machine.** -/
theorem exec_leads (serves : Serves c e) (fuel : Nat) : Simulates c e fuel := by
  intro b base d s k o stands here h
  induction fuel generalizing b base d s k o with
  | zero => cases h
  | succ fuel ih =>
    cases b with
    | nil =>
      obtain rfl := Option.some.inj h
      exact .here here
    | plain token rest => exact leads_plain serves ih stands here h
    | branch kind body rest => exact leads_branch ih stands here h
    | choice kind body alternative rest => exact leads_choice ih stands here h
    | loop kind header body rest => exact leads_loop ih stands here h
    | procedure sig body rest => exact leads_procedure ih stands here h

end Chore.Block
