import Chore.Machine.Perform

/-!
# What data words do not look at

The words that only work on values never look at the pending returns, nor at the program they
stand in. `Mirrors m m'` says that `m` does on every stack of pending returns what `m'` does, and
leaves that stack alone; it goes through `do` blocks (`mirrors_bind`), so it holds of a word as
soon as it holds of the parts the word is made of. `perform_mirrors` is the result for whole
instructions.
-/

set_option autoImplicit false

namespace Chore

/-- Whether a token only works on values: it is no call, no way out of a procedure, and no part of
a block's frame. -/
def Token.isData : Token → Bool
  | literal _ => true
  | word (.mark _) => false
  | word (.leave _) => false
  | word _ => true
  | _ => false

namespace Machine

variable {ω α β : Type}

/-- The same scene with other pending returns. -/
def Scene.withCalls (s : Scene ω) (calls : Stack Nat) : Scene ω :=
  { s with calls }

/-- `m` does on any pending returns what `m'` does, and keeps them. -/
def Mirrors (m m' : Action ω α) : Prop :=
  ∀ (s : Scene ω) (calls : Stack Nat), m (s.withCalls calls) = ((m' s).1, (m' s).2.withCalls calls)

theorem mirrors_pure (a : α) : Mirrors (pure a : Action ω α) (pure a) :=
  fun _ _ => rfl

theorem mirrors_fail (f : Fault) : Mirrors (.fail f : Action ω α) (.fail f) :=
  fun _ _ => rfl

theorem mirrors_ofExcept (r : Except Fault α) : Mirrors (.ofExcept r : Action ω α) (.ofExcept r) :=
  fun _ _ => rfl

theorem mirrors_bind {m m' : Action ω α} {f f' : α → Action ω β} (h : Mirrors m m')
    (g : ∀ a, Mirrors (f a) (f' a)) : Mirrors (m >>= f) (m' >>= f') := by
  intro s calls
  rw [Attempt.bind_apply, Attempt.bind_apply, h s calls]
  rcases m' s with ⟨_ | a, t⟩
  · rfl
  · exact g a t calls

/-- Looking at the variables and the outside world. -/
theorem mirrors_get {f f' : Scene ω → Action ω β} (g : ∀ s, Mirrors (f s) (f' s))
    (same : ∀ s calls, f (s.withCalls calls) = f s) : Mirrors (.get >>= f) (.get >>= f') := by
  intro s calls
  change f (s.withCalls calls) (s.withCalls calls) = _
  rw [same]
  exact g s s calls

theorem mirrors_pop : Mirrors (pop : Action ω Value) pop := by
  intro s calls
  simp only [pop, Scene.withCalls]
  cases s.stack.pop? <;> rfl

theorem mirrors_peek (depth : Nat) : Mirrors (peek depth : Action ω Value) (peek depth) := by
  intro s calls
  simp only [peek, Scene.withCalls]
  cases s.stack.peek? depth <;> rfl

theorem mirrors_note (n : Note) : Mirrors (note n : Action ω Unit) (note n) :=
  fun _ _ => rfl

theorem mirrors_popMany (n : Nat) : Mirrors (popMany n : Action ω (List Value)) (popMany n) := by
  induction n with
  | zero => exact mirrors_pure []
  | succ n ih => exact mirrors_bind mirrors_pop fun v => mirrors_bind ih fun vs => mirrors_pure _

theorem mirrors_popInt (op : Word) : Mirrors (popInt op : Action ω Int64) (popInt op) := by
  refine mirrors_bind mirrors_pop ?_
  intro v
  cases v with
  | int n => exact mirrors_pure n
  | _ => exact mirrors_fail _

theorem mirrors_popText (op : Word) : Mirrors (popText op : Action ω String) (popText op) := by
  refine mirrors_bind mirrors_pop ?_
  intro v
  cases v with
  | text s => exact mirrors_pure s
  | _ => exact mirrors_fail _

theorem mirrors_popPath (op : Word) : Mirrors (popPath op : Action ω String) (popPath op) := by
  refine mirrors_bind mirrors_pop ?_
  intro v
  cases v with
  | path p => exact mirrors_pure p
  | _ => exact mirrors_fail _

theorem mirrors_popLocation (op : Word) :
    Mirrors (popLocation op : Action ω String) (popLocation op) := by
  refine mirrors_bind mirrors_pop ?_
  intro v
  cases v with
  | int n => exact mirrors_fail _
  | _ => exact mirrors_pure _

theorem mirrors_popCondition (op : Word) :
    Mirrors (popCondition op : Action ω Bool) (popCondition op) := by
  refine mirrors_bind mirrors_pop ?_
  intro v
  cases v.truthy with
  | none => exact mirrors_fail _
  | some b => exact mirrors_pure b

theorem mirrors_popCount (op : Word) : Mirrors (popCount op : Action ω Nat) (popCount op) := by
  refine mirrors_bind (mirrors_popInt op) ?_
  intro n
  split
  · exact mirrors_pure _
  · exact mirrors_fail _

theorem mirrors_succeeded (w : Tool) (reply : Except ToolError α) :
    Mirrors (succeeded w reply : Action ω (Option α)) (succeeded w reply) := by
  cases reply with
  | ok a => exact mirrors_pure _
  | error e => exact mirrors_bind (mirrors_note _) fun _ => mirrors_pure _

section Setups

/-! ## Parts that depend on the setup

They depend on its host and its limit only, so the two sides may stand in different programs. -/

variable {c c' : Setup ω} (host : c.host = c'.host) (limit : c.limit = c'.limit)

include limit in
theorem mirrors_push (v : Value) : Mirrors (push c v) (push c' v) := by
  intro s calls
  simp only [push, Scene.withCalls, limit]
  split <;> rfl

include limit in
theorem mirrors_pushAll (vs : List Value) : Mirrors (pushAll c vs) (pushAll c' vs) := by
  induction vs with
  | nil => exact mirrors_pure ()
  | cons v vs ih => exact mirrors_bind (mirrors_push limit v) fun _ => ih

include host in
theorem mirrors_ask (r : Request) : Mirrors (ask c r) (ask c' r) := by
  intro s calls
  simp only [ask, Scene.withCalls, host]

include host in
theorem mirrors_print : Mirrors (print c) (print c') := by
  refine mirrors_bind mirrors_pop ?_
  intro v s calls
  simp only [Scene.withCalls, host]
  rcases c'.host.write (v.display ++ "\n") s.world with ⟨_ | _, world⟩ <;> rfl

include limit in
theorem mirrors_binary (f : Value → Value → Except Fault Value) :
    Mirrors (binary c f) (binary c' f) :=
  mirrors_bind mirrors_pop fun _ => mirrors_bind mirrors_pop fun _ =>
    mirrors_bind (mirrors_ofExcept _) fun v => mirrors_push limit v

include host limit in
theorem mirrors_convert (w : Conversion) : Mirrors (convert c w) (convert c' w) := by
  cases w with
  | toText => exact mirrors_bind mirrors_pop fun v => mirrors_push limit _
  | toPath => exact mirrors_bind (mirrors_popText _) fun s => mirrors_push limit _
  | absolute =>
    refine mirrors_bind (mirrors_popLocation _) ?_
    intro p
    exact mirrors_get (fun s => host ▸ mirrors_push limit _) fun _ _ => rfl
  | relative =>
    refine mirrors_bind (mirrors_popLocation _) ?_
    intro p
    exact mirrors_get (fun s => host ▸ mirrors_push limit _) fun _ _ => rfl
  | concat =>
    refine mirrors_bind (mirrors_popText _) fun suffix => mirrors_bind mirrors_pop ?_
    intro v
    cases v with
    | int n => exact mirrors_fail _
    | _ => exact mirrors_push limit _

include limit in
theorem mirrors_access (w : Access) : Mirrors (access c w) (access c' w) := by
  refine mirrors_bind (mirrors_popText _) ?_
  intro name
  cases w with
  | store => exact mirrors_bind mirrors_pop fun v => fun _ _ => rfl
  | load =>
    refine mirrors_get ?_ fun _ _ => rfl
    intro s
    cases s.memory.load name with
    | none => exact mirrors_fail _
    | some v => exact mirrors_push limit v

include limit in
theorem mirrors_shuffle (w : Shuffle) : Mirrors (shuffle c w) (shuffle c' w) := by
  cases w with
  | dup => exact mirrors_bind (mirrors_peek 0) fun v => mirrors_push limit v
  | drop => exact mirrors_bind mirrors_pop fun _ => mirrors_pure ()
  | swap =>
    exact mirrors_bind mirrors_pop fun a => mirrors_bind mirrors_pop fun b =>
      mirrors_pushAll limit _
  | «over» => exact mirrors_bind (mirrors_peek 1) fun v => mirrors_push limit v
  | dup2 =>
    exact mirrors_bind (mirrors_peek 1) fun a => mirrors_bind (mirrors_peek 0) fun b =>
      mirrors_pushAll limit _
  | swap2 =>
    exact mirrors_bind mirrors_pop fun a => mirrors_bind mirrors_pop fun b =>
      mirrors_bind mirrors_pop fun c => mirrors_bind mirrors_pop fun d => mirrors_pushAll limit _

include host limit in
/-- A request, a note if it failed, and one value for how it went. -/
theorem mirrors_ask_push (w : Tool) (r : Request) (reply : r.Reply → Except ToolError α)
    (result : Option α → Value) :
    Mirrors (ask c r >>= fun x => succeeded w (reply x) >>= fun o => push c (result o))
      (ask c' r >>= fun x => succeeded w (reply x) >>= fun o => push c' (result o)) :=
  mirrors_bind (mirrors_ask host r) fun _ => mirrors_bind (mirrors_succeeded w _) fun _ =>
    mirrors_push limit _

include host limit in
/-- A request, a note if it failed, and values for how it went. -/
theorem mirrors_ask_pushAll (w : Tool) (r : Request) (reply : r.Reply → Except ToolError α)
    {results results' : Option α → Action ω Unit}
    (values : ∀ o, ∃ vs, results o = pushAll c vs ∧ results' o = pushAll c' vs) :
    Mirrors (ask c r >>= fun x => succeeded w (reply x) >>= results)
      (ask c' r >>= fun x => succeeded w (reply x) >>= results') := by
  refine mirrors_bind (mirrors_ask host r) fun _ => mirrors_bind (mirrors_succeeded w _) ?_
  intro o
  obtain ⟨vs, left, right⟩ := values o
  rw [left, right]
  exact mirrors_pushAll limit vs

include host limit in
theorem mirrors_tool (w : Tool) : Mirrors (tool c w) (tool c' w) := by
  cases w with
  | download =>
    exact mirrors_bind (mirrors_popPath _) fun dest => mirrors_bind (mirrors_popText _) fun url =>
      mirrors_ask_push host limit .download (.download url dest) id _
  | readFile =>
    refine mirrors_bind (mirrors_popPath _) fun path =>
      mirrors_ask_pushAll host limit .readFile (.readText path) id ?_
    intro o
    cases o <;> exact ⟨_, rfl, rfl⟩
  | move =>
    exact mirrors_bind (mirrors_popPath _) fun dst => mirrors_bind (mirrors_popPath _) fun src =>
      mirrors_ask_push host limit .move (.move src dst) id _
  | copy =>
    refine mirrors_bind (mirrors_popPath _) fun dst => mirrors_bind (mirrors_popPath _) fun src =>
      mirrors_ask_pushAll host limit .copy (.copy src dst) id ?_
    intro o
    rcases o with _ | _ | _ <;> exact ⟨_, rfl, rfl⟩
  | exist =>
    exact mirrors_bind (mirrors_popPath _) fun path =>
      mirrors_bind (mirrors_ask host (.pathExists path)) fun _ => mirrors_push limit _
  | touch =>
    exact mirrors_bind (mirrors_popPath _) fun path =>
      mirrors_ask_push host limit .touch (.touch path) id _
  | mkdir =>
    exact mirrors_bind (mirrors_popPath _) fun path =>
      mirrors_ask_push host limit .mkdir (.makeDir path) id _
  | remove =>
    exact mirrors_bind (mirrors_popPath _) fun path =>
      mirrors_ask_push host limit .remove (.remove path) id _
  | unzip =>
    refine mirrors_bind (mirrors_popPath _) fun dest =>
      mirrors_bind (mirrors_popPath _) fun archive =>
      mirrors_ask_pushAll host limit .unzip (.unzip archive dest) id ?_
    intro o
    cases o <;> exact ⟨_, rfl, rfl⟩
  | countFiles =>
    exact mirrors_bind (mirrors_popPath _) fun dir =>
      mirrors_ask_push host limit .countFiles (.listFiles dir) id _
  | countDirs =>
    exact mirrors_bind (mirrors_popPath _) fun dir =>
      mirrors_ask_push host limit .countDirs (.listDirs dir) id _
  | fileAt =>
    exact mirrors_bind (mirrors_popPath _) fun dir => mirrors_bind (mirrors_popInt _) fun index =>
      mirrors_ask_push host limit .fileAt (.listFiles dir)
        (fun names => Except.bind names fun names => entryAt names index dir) _
  | dirAt =>
    refine mirrors_bind (mirrors_popPath _) fun dir => mirrors_bind (mirrors_popInt _) fun index =>
      mirrors_bind (mirrors_ask host (.listDirs dir)) ?_
    intro names
    cases Except.bind names fun names => entryAt names index dir with
    | ok name => exact mirrors_push limit _
    | error e => exact mirrors_fail _

include host limit in
/-- An instruction that only works on values is such a part, and then goes on. -/
theorem perform_data {t : Token} (h : t.isData = true) :
    ∃ m m' : Action ω Unit, perform c { token := t } = andNext m ∧
      perform c' { token := t } = andNext m' ∧ Mirrors m m' := by
  cases t with
  | literal v => exact ⟨_, _, rfl, rfl, mirrors_push limit v⟩
  | header sig => cases h
  | name s => cases h
  | word w =>
    cases w with
    | print => exact ⟨_, _, rfl, rfl, mirrors_print host⟩
    | convert w => exact ⟨_, _, rfl, rfl, mirrors_convert host limit w⟩
    | access w => exact ⟨_, _, rfl, rfl, mirrors_access limit w⟩
    | arithmetic w => exact ⟨_, _, rfl, rfl, mirrors_binary limit w.apply⟩
    | count w =>
      exact ⟨_, _, rfl, rfl, mirrors_bind (mirrors_popInt _) fun n =>
        mirrors_bind (mirrors_ofExcept _) fun v => mirrors_push limit v⟩
    | shuffle w => exact ⟨_, _, rfl, rfl, mirrors_shuffle limit w⟩
    | mark m => cases h
    | leave l => cases h
    | compare w => exact ⟨_, _, rfl, rfl, mirrors_binary limit w.apply⟩
    | bitwise w => exact ⟨_, _, rfl, rfl, mirrors_binary limit w.apply⟩
    | complement =>
      exact ⟨_, _, rfl, rfl, mirrors_bind (mirrors_popInt _) fun n => mirrors_push limit _⟩
    | logic w => exact ⟨_, _, rfl, rfl, mirrors_binary limit w.apply⟩
    | negate =>
      exact ⟨_, _, rfl, rfl, mirrors_bind (mirrors_popCondition _) fun b => mirrors_push limit _⟩
    | tool w => exact ⟨_, _, rfl, rfl, mirrors_tool host limit w⟩

include host limit in
/-- **Data words are local**: a word that only works on values does the same on any pending
returns and in any program. -/
theorem perform_mirrors {t : Token} (h : t.isData = true) :
    Mirrors (perform c { token := t }) (perform c' { token := t }) := by
  obtain ⟨m, m', left, right, mirrors⟩ := perform_data host limit h
  rw [left, right]
  exact mirrors_bind mirrors fun _ => mirrors_pure _

end Setups

/-- A word that only works on values goes on with the next instruction. -/
theorem effect_of_isData {c : Setup ω} {t : Token} (h : t.isData = true) {s u : Scene ω}
    {e : Effect} (performed : perform c { token := t } s = (.ok e, u)) : e = .next := by
  obtain ⟨m, -, left, -⟩ := @perform_data ω c c rfl rfl t h
  rw [left, andNext, Attempt.bind_apply] at performed
  rcases hm : m s with ⟨_ | _, v⟩ <;> rw [hm] at performed
  · cases performed
  · exact (Except.ok.inj (congrArg Prod.fst performed)).symm

end Machine

end Chore
