import Chore.Machine.World

/-!
# Scripted tools

Tools that answer from a prepared list, one answer for each request, and keep the requests they
were asked. An answer that does not fit the request, and a request behind the end of the list, is
a failed download.
-/

set_option autoImplicit false

namespace Chore

/-- A prepared answer. -/
inductive Answer where
  | done
  | text (s : String)
  | copy (outcome : CopyOutcome)
  | counts (dirs files : Int64)
  | names (names : List String)
  | failed (e : ToolError)
  deriving DecidableEq

/-- The answers to come, and the requests asked, latest first. -/
structure Script where
  answers : List Answer
  asked : List Request := []

namespace Script

/-- The failure of an answer that does not fit the request. -/
def mismatch : ToolError := .http "script mismatch"

/-- The failure of a request behind the last answer. -/
def exhausted : ToolError := .http "script exhausted"

/-- An answer as the reply to a request. -/
def replyOf (a : Answer) : (r : Request) → r.Reply
  | .download _ _ | .move _ _ | .touch _ | .makeDir _ | .remove _ =>
    match a with
    | .done => Except.ok ()
    | .failed e => Except.error e
    | _ => Except.error mismatch
  | .readText _ =>
    match a with
    | .text s => Except.ok s
    | .failed e => Except.error e
    | _ => Except.error mismatch
  | .copy _ _ =>
    match a with
    | .copy outcome => Except.ok outcome
    | .failed e => Except.error e
    | _ => Except.error mismatch
  | .pathExists _ => decide (a = .done)
  | .unzip _ _ =>
    match a with
    | .counts dirs files => Except.ok (dirs, files)
    | .failed e => Except.error e
    | _ => Except.error mismatch
  | .listFiles _ | .listDirs _ =>
    match a with
    | .names names => Except.ok names
    | .failed e => Except.error e
    | _ => Except.error mismatch

/-- Takes the next answer. -/
def reply (r : Request) (s : Script) : r.Reply × Script :=
  match s.answers with
  | [] => (replyOf (.failed exhausted) r, { s with asked := r :: s.asked })
  | a :: answers => (replyOf a r, { answers, asked := r :: s.asked })

/-- Scripted tools in a directory. -/
def tools (here : String) : Tools Script where
  reply := reply
  notes _ _ := []
  here? _ := some here.toUTF8

end Script

end Chore
