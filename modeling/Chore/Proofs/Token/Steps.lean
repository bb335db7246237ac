import Chore.Proofs.Token.Scanning
import Chore.Token.Reader

/-!
# The reader, lexeme by lexeme

What one lexeme does to the reader (`Reading.step`): it complains, or it goes on in another reading,
with the tokens that are complete. `ofLexemes_cons` says that the reader is made up of these steps,
so that what holds of it is shown by induction on the lexemes with one step at a time.
-/

set_option autoImplicit false

namespace Chore.Token

open Lexemes

/-- What a kind or a word of the frame does inside a header, before `in` and behind it. -/
def Reading.kindStep (line : Nat) (procedure : String) (inputs : List Kind)
    (outputs : Option (List Kind)) (w : String) : Except ParseError (Reading × List Token) :=
  match outputs with
  | none =>
    if w = "do" then .error (.missingIn procedure line)
    else if w = "in" then .ok (.headerKinds line procedure inputs (some []), [])
    else
      match Kind.ofName? w with
      | some k => .ok (.headerKinds line procedure (k :: inputs) none, [])
      | none => .error (.unknownKind w procedure)
  | some outs =>
    if w = "do" then .ok (.body, [.header ⟨procedure, inputs.reverse, outs.reverse⟩])
    else
      match Kind.ofName? w with
      | some k => .ok (.headerKinds line procedure inputs (some (k :: outs)), [])
      | none => .error (.unknownKind w procedure)

/-- What a lexeme on a line does. -/
def Reading.step : Reading → Lexeme → Nat → Except ParseError (Reading × List Token)
  | .body, .text s, _ => .ok (.body, [.literal (.text s)])
  | .body, .path p, _ => .ok (.body, [.literal (.path p)])
  | .body, .word w, line =>
    if w = "proc" then .ok (.headerName line, [])
    else (ofWord w line).map fun t => (.body, [t])
  | .headerName line, .word w, _ =>
    if isProcedureName w then .ok (.headerKinds line w [] none, [])
    else .error (.invalidName w line)
  | .headerName line, l, _ => .error (.invalidName l.content line)
  | .headerKinds line procedure inputs outputs, .word w, _ =>
    Reading.kindStep line procedure inputs outputs w
  | .headerKinds line _ _ _, _, _ => .error (.unterminatedHeader line)

/-- What the end of the text does. -/
def Reading.stop : Reading → Except ParseError (List Token)
  | .body => .ok []
  | .headerName line => .error (.unterminatedHeader line)
  | .headerKinds line _ _ _ => .error (.unterminatedHeader line)

theorem ofLexemes_done (reading : Reading) : ofLexemes reading .done = reading.stop := by
  cases reading <;> rfl

theorem ofLexemes_fault (reading : Reading) (e : ParseError) :
    ofLexemes reading (.fault e) = .error e := by
  cases reading <;> rfl

/-- Tokens in front of what is read. -/
def inFront (ts : List Token) (read : Except ParseError (List Token)) :
    Except ParseError (List Token) :=
  read.map (ts ++ ·)

@[simp] theorem inFront_nil (read : Except ParseError (List Token)) : inFront [] read = read := by
  cases read <;> rfl

theorem inFront_append (ts us : List Token) (read : Except ParseError (List Token)) :
    inFront ts (inFront us read) = inFront (ts ++ us) read := by
  cases read with
  | error e => rfl
  | ok vs => exact congrArg Except.ok (List.append_assoc ts us vs).symm

theorem inFront_ok {ts : List Token} {read : Except ParseError (List Token)} {us : List Token}
    (h : inFront ts read = .ok us) : ∃ vs, read = .ok vs ∧ us = ts ++ vs := by
  cases read with
  | error e => cases h
  | ok vs => exact ⟨vs, rfl, (Except.ok.inj h).symm⟩

theorem inFront_error {ts : List Token} {read : Except ParseError (List Token)} {e : ParseError}
    (h : inFront ts read = .error e) : read = .error e := by
  cases read with
  | error e' => exact h
  | ok vs => cases h

theorem push_eq_inFront (t : Token) (read : Except ParseError (List Token)) :
    (do return t :: (← read)) = inFront [t] read := by
  cases read <;> rfl

/-- **The reader goes step by step.** -/
theorem ofLexemes_cons (reading : Reading) (l : Lexeme) (line : Nat) (rest : Lexemes) :
    ofLexemes reading (.cons l line rest) =
      match reading.step l line with
      | .ok (next, ts) => inFront ts (ofLexemes next rest)
      | .error e => .error e := by
  cases reading with
  | body =>
    cases l with
    | text s | path p => exact push_eq_inFront _ _
    | word w =>
      rw [ofLexemes, Reading.step]
      split
      · exact (inFront_nil _).symm
      · cases ofWord w line with
        | error e => rfl
        | ok t => exact push_eq_inFront _ _
  | headerName start =>
    cases l with
    | text s | path p => rfl
    | word w =>
      rw [ofLexemes, Reading.step]
      split
      · exact (inFront_nil _).symm
      · rfl
  | headerKinds start procedure inputs outputs =>
    cases l with
    | text s | path p => rfl
    | word w =>
      cases outputs with
      | none =>
        rw [ofLexemes, Reading.step, Reading.kindStep]
        by_cases last : w = "do"
        · simp only [if_pos last]
        by_cases between : w = "in"
        · simp only [if_neg last, if_pos between, inFront_nil]
        cases Kind.ofName? w <;> simp only [if_neg last, if_neg between, inFront_nil]
      | some outs =>
        rw [ofLexemes, Reading.step, Reading.kindStep]
        by_cases last : w = "do"
        · simp only [if_pos last]
          exact push_eq_inFront _ _
        cases Kind.ofName? w <;> simp only [if_neg last, inFront_nil]

end Chore.Token
