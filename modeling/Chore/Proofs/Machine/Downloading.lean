import Chore.Proofs.File.Elsewhere
import Chore.Proofs.Machine.ToolWords

/-!
# Downloads

A download is meant to be whole or absent. What comes in is written to its destination piece after
piece, so the file is half written most of the time; a transfer ends with the whole body in the file
or, if it breaks off, without the file, unless the system does not let it be removed
(`saveBody_cases`). Then a part of the body stays. Before the destination is made nothing is changed,
and afterwards nothing but the file at the destination.
-/

set_option autoImplicit false

namespace Chore.Machine

open File (Files FileError Place SameBut landing)

/-- The transfer of a body to a destination breaks off: the body does not come in as a whole, or what
comes in cannot all be written behind the file that was made. -/
def BreaksOff (r : Response) (dest : String) (f : Files) : Prop :=
  r.brokenOff? ≠ none ∨ ∃ p f' e, File.create dest f = (.ok p, f') ∧
    (Attempt.forEach r.pieces (File.append p) f').1 = .error e

/-- A file at a place holds the first part of a body. -/
def HoldsPart (f : Files) (path : String) (body : ByteArray) : Prop :=
  ∃ kept rest, kept ++ rest = body ∧ f.bytesAt path = .ok kept

/-- Two states of the files with nothing but the file at a place between them: the other places keep
what is listed for them, and what is there but for the bytes of that file. -/
structure OneFile (p : Place) (f f' : Files) : Prop where
  same : SameBut (f.Across p) f f'
  listed : ∀ q, q ≠ p → f'.tree.listed? q = f.tree.listed? q

/-- A transfer writes the whole body, or it breaks off and has written the first part of it. -/
theorem transfer_cases {f : Files} {dest : String} {p : Place} (writable : f.Writable dest p)
    (made : File.create dest f = (.ok p, f.written p .empty)) (r : Response) :
    (¬BreaksOff r dest f ∧ transfer r p (f.written p .empty) = (.ok (), f.written p r.body)) ∨
      ∃ e kept rest, BreaksOff r dest f ∧ kept ++ rest = r.body ∧
        transfer r p (f.written p .empty) = (.error e, f.written p kept) := by
  rcases File.append_all writable r.pieces .empty with whole | ⟨e, kept, rest, split, fails⟩
  · have written : (Attempt.forEach r.pieces (File.append p)).mapError
        (fun e => ToolError.io e.message) (f.written p .empty) = (.ok (), f.written p r.body) := by
      rw [Attempt.mapError_apply, whole]
      rfl
    rw [transfer, Attempt.bind_apply_ok written]
    cases ended : r.brokenOff? with
    | none =>
      refine .inl ⟨?_, rfl⟩
      rintro (cut | ⟨p', f', e, made', fails⟩)
      · exact cut ended
      · cases made.symm.trans made'
        rw [whole] at fails
        cases fails
    | some reason =>
      refine .inr ⟨.io reason, r.body, .empty, .inl ?_, ByteArray.append_empty, rfl⟩
      rw [ended]
      exact Option.some_ne_none _
  · have cut : BreaksOff r dest f := .inr ⟨p, _, e, made, congrArg Prod.fst fails⟩
    refine .inr ⟨.io e.message, kept, rest, cut, split, Attempt.bind_apply_error ?_ _⟩
    rw [Attempt.mapError_apply, fails]
    rfl

/-- How saving a body ends, once its destination is made. -/
inductive Saves (r : Response) (dest : String) (f : Files) :
    Except DownloadError Unit × Files → Prop
  | whole {f' : Files} (all : ¬BreaksOff r dest f) (one : OneFile (landing f.here dest) f f')
      (holds : f'.bytesAt dest = .ok r.body) : Saves r dest f (.ok (), f')
  | gone {f' : Files} {reason : ToolError} (cut : BreaksOff r dest f)
      (one : OneFile (landing f.here dest) f f') (gone : f'.pathExists dest = false) :
      Saves r dest f (.error { reason }, f')
  | remains {f' : Files} {reason : ToolError} {e : FileError}
      (cut : BreaksOff r dest f) (one : OneFile (landing f.here dest) f f')
      (refused : f'.allowed .remove (landing f.here dest) = .error e)
      (part : HoldsPart f' dest r.body) :
      Saves r dest f (.error { reason, remains? := some e }, f')

/-- **A body is saved as a whole, or not at all, or a part of it cannot be removed**; unless the
destination cannot be made, and nothing changes. -/
theorem saveBody_cases (r : Response) (dest : String) (f : Files) :
    (∃ e, File.create dest f = (.error e, f) ∧
      saveBody r dest f = (.error { reason := .io e.message }, f)) ∨
      Saves r dest f (saveBody r dest f) := by
  obtain ⟨e, fails⟩ | ⟨p, writable, made⟩ := File.create_cases dest f
  · refine .inl ⟨e, fails, Attempt.bind_apply_error (t := f) ?_ _⟩
    rw [Attempt.mapError_apply, fails]
    rfl
  have made' : (File.create dest).mapError (fun e => { reason := .io e.message : DownloadError }) f =
      (.ok p, f.written p .empty) := by
    rw [Attempt.mapError_apply, made]
    rfl
  have one (bytes : ByteArray) : OneFile p f (f.written p bytes) :=
    ⟨writable.sameBut bytes, fun q other => File.Files.Writable.listed?_written other bytes⟩
  obtain rfl := writable.lands
  right
  rw [saveBody, Attempt.bind_apply_ok made', Attempt.bind_apply, Attempt.outcome_apply]
  rcases transfer_cases writable made r with ⟨all, whole⟩ | ⟨reason, kept, rest, cut, split, fails⟩
  · rw [whole]
    exact .whole all (one _) (writable.bytesAt_written _)
  · rw [fails]
    simp only [Attempt.bind_apply, Attempt.outcome_apply]
    rcases writable.unlink_written kept with ⟨e, refused, fails⟩ | ⟨f', removed, same, listed, gone⟩
    · rw [fails]
      exact .remains cut (one _) refused ⟨kept, rest, split, writable.bytesAt_written kept⟩
    · rw [removed]
      exact .gone cut ⟨same, listed⟩ gone

/-- The network answers, and does not take the answer for a failure. -/
def Delivers (network : Network) (url : String) (response : Response) : Prop :=
  network.fetch url = .ok response ∧ network.refusal? url response.status = none

/-- Nothing is saved: there is no answer, or one that is a failure, or the destination cannot be
made. -/
def NothingSaved (network : Network) (url dest : String) (f : Files) : Prop :=
  (∀ response, ¬Delivers network url response) ∨ ∃ e, File.create dest f = (.error e, f)

theorem download_cases (network : Network) (url dest : String) (f : Files) :
    (NothingSaved network url dest f ∧
        ∃ reason, download network url dest f = (.error { reason }, f)) ∨
      ∃ response, Delivers network url response ∧
        Saves response dest f (download network url dest f) := by
  rw [download]
  cases answer : network.fetch url with
  | error reason =>
    refine .inl ⟨.inl ?_, .http reason, rfl⟩
    rintro response ⟨came, -⟩
    cases answer.symm.trans came
  | ok response =>
    cases refusal : network.refusal? url response.status with
    | some reason =>
      simp only [refusal]
      refine .inl ⟨.inl ?_, .http reason, rfl⟩
      rintro response' ⟨came, accepted⟩
      cases answer.symm.trans came
      cases refusal.symm.trans accepted
    | none =>
      simp only [refusal]
      rcases saveBody_cases response dest f with ⟨e, unmade, fails⟩ | saves
      · exact .inl ⟨.inr ⟨e, unmade⟩, _, fails⟩
      · exact .inr ⟨response, ⟨answer, refusal⟩, saves⟩

/-- The word pushes whether the download succeeded. -/
theorem does_download {c : Setup (World Files)} {network : Network}
    (host : c.host = (Files.tools network).host) (f : Files) (url dest : String) :
    Does c .download [.path dest, .text url] f (.ofBool (download network url dest f).1.isOk)
      (download network url dest f).2 := by
  apply does_of_yields
  rintro st rest stack room rfl
  have asked := yields_ask c (.download url dest) { st with stack := .ofList rest }
  rw [host] at asked
  let replied := (download network url dest).mapError (fun e => e.reason) st.world.tools
  have pushed : replied.1.toOption.isSome = (download network url dest st.world.tools).1.isOk := by
    change ((download network url dest st.world.tools).1.mapError _).toOption.isSome = _
    cases (download network url dest st.world.tools).1 <;> rfl
  rw [← pushed]
  apply yields_bind (yields_popPath stack)
  apply yields_bind (yields_popText rfl)
  apply yields_bind asked
  apply yields_bind (yields_succeeded _ _ _)
  exact @yields_push _ { st with world := _ } _ _ room _

/-- **A download is whole or absent, or a part of it could not be removed.** If it succeeds the
destination is a file that holds the whole body. If it fails, then either nothing was saved and the
files are as before; or the transfer broke off and the destination is gone; or it broke off and the
system refused to let the destination be removed, and then the file there holds the first part of the
body. In any case every other place keeps what is listed for it, and what is seen there is the same
unless it is the same file. The word pushes whether the download succeeded. -/
theorem download_whole_or_absent_or_refused {c : Setup (World Files)} {network : Network}
    (host : c.host = (Files.tools network).host) (f : Files) (url dest : String) :
    let result := (download network url dest f).1
    let after := (download network url dest f).2
    let p := landing f.here dest
    (result = .ok () → ∃ response, Delivers network url response ∧ ¬BreaksOff response dest f ∧
      after.bytesAt dest = .ok response.body) ∧
    (∀ e, result = .error e →
      (NothingSaved network url dest f ∧ after = f) ∨
        ∃ response, Delivers network url response ∧ BreaksOff response dest f ∧
          ((e.remains? = none ∧ after.pathExists dest = false) ∨
            ∃ refusal, e.remains? = some refusal ∧ after.allowed .remove p = .error refusal ∧
              HoldsPart after dest response.body)) ∧
    (∀ q, q ≠ p → after.tree.listed? q = f.tree.listed? q) ∧
    (∀ path r, ¬f.Across p (landing f.here path ++ r) → after.view path r = f.view path r) ∧
    Does c .download [.path dest, .text url] f (.ofBool result.isOk) after := by
  have does := does_download host f url dest
  have ends := download_cases network url dest f
  generalize download network url dest f = ended at does ends ⊢
  obtain ⟨nothing, reason, rfl⟩ | ⟨response, delivers, saves⟩ := ends
  · exact ⟨nofun, fun _ _ => .inl ⟨nothing, rfl⟩, fun _ _ => rfl, fun _ _ _ => rfl, does⟩
  cases saves with
  | whole all one holds =>
    exact ⟨fun _ => ⟨response, delivers, all, holds⟩, nofun, one.listed,
      fun _ _ other => one.same.view other, does⟩
  | gone cut one gone =>
    refine ⟨nofun, ?_, one.listed, fun _ _ other => one.same.view other, does⟩
    rintro e ⟨⟩
    exact .inr ⟨response, delivers, cut, .inl ⟨rfl, gone⟩⟩
  | remains cut one refused part =>
    refine ⟨nofun, ?_, one.listed, fun _ _ other => one.same.view other, does⟩
    rintro e ⟨⟩
    exact .inr ⟨response, delivers, cut, .inr ⟨_, rfl, refused, part⟩⟩

/-- A transfer that breaks off over a file that was there leaves no file, and 0 is pushed. -/
theorem download_broken_off :
    let network : Network := {
      fetch _ := .ok { status := 200, pieces := ["ha".toUTF8], brokenOff? := some "reset" }
      refusal? := Network.usualRefusal? }
    let f : Files := {
      tree := (File.Tree.empty.put ["old"] (.file .empty)).put ["a"] (.file .empty) }
    let c : Setup (World Files) := {
      program := { instructions := #[], procedures := [] }
      host := (Files.tools network).host
      limit := 1 }
    let after := (download network "u" "old" f).2
    after.pathExists "old" = false ∧ after.view "a" [] = some (.file .empty) ∧
      Does c .download [.path "old", .text "u"] f (.int 0) after := by
  intro network f c after
  obtain ⟨e, fails, removed⟩ :
      ∃ e, (download network "u" "old" f).1 = .error e ∧ e.remains? = none :=
    ⟨_, rfl, rfl⟩
  obtain ⟨-, failed, -, elsewhere, does⟩ :=
    @download_whole_or_absent_or_refused c network rfl f "u" "old"
  rw [fails] at does
  refine ⟨?_, (elsewhere "a" [] (by decide +kernel)).trans (by decide +kernel), does⟩
  obtain ⟨none | ⟨_, unmade⟩, -⟩ | ⟨-, -, -, ⟨-, gone⟩ | ⟨refusal, remains, -⟩⟩ := failed e fails
  · exact absurd ⟨rfl, by decide⟩ (none _)
  · have made : failure? (File.create "old" f).1 = none := by decide +kernel
    rw [unmade] at made
    cases made
  · exact gone
  · rw [removed] at remains
    cases remains

/-- A part of a body stays where the system does not let the file be removed. -/
theorem part_of_download_stays :
    ¬∀ (network : Network) (url dest : String) (f : Files) (e : DownloadError),
      (download network url dest f).1 = .error e →
        (download network url dest f).2.view dest [] = f.view dest [] ∨
          (download network url dest f).2.pathExists dest = false := by
  intro claim
  let network : Network := {
    fetch _ := .ok { status := 200, pieces := ["ha".toUTF8], brokenOff? := some "reset" }
    refusal? := Network.usualRefusal? }
  let f : Files := {
    tree := File.Tree.empty.put ["old"] (.file .empty)
    rules := {
      refuses _ access _ := if access = .remove then some "Permission denied" else none
      cuts _ _ _ := none } }
  rcases claim network "u" "old" f _ rfl with same | gone
  · have changed : (download network "u" "old" f).2.view "old" [] ≠ f.view "old" [] := by
      decide +kernel
    exact changed same
  · have stays : (download network "u" "old" f).2.pathExists "old" = true := by decide +kernel
    rw [gone] at stays
    cases stays

end Chore.Machine
