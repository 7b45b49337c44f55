import Univariate.Lifecycle
import Univariate.Worksheet

/-!
# Sessions

A session performs the effects that the life of a result asks for: it
holds what the form shows, the two logs, and the last error.  A
submission is split into `Session.beginSubmit`, which makes the local
checks and says what to ask the solver, and `Session.resolve`, which
takes the answer, so that submissions can overlap; `Session.submit` does
both around one call of a solver.

* `Session.perform` — one effect;
* `Session.apply` — a transition;
* `Session.beginSubmit`, `Session.resolve`, `Session.discard`,
  `Session.submit` — the operations.
-/

namespace Univariate

/-- What the form shows. -/
structure View where
  equation : String
  roots : Option (List String)
  factorization : Option String
  identicallyZero : Bool
  chart : Option Chart
  /-- The text of the last error. -/
  error : Option String

/-- Nothing is shown. -/
def View.empty : View := ⟨"", none, none, false, none, none⟩

/-- A record that a listener has been given, by the log it went to. -/
inductive Delivery where
  | history (record : Record)
  | trash (record : Record)
deriving DecidableEq, Repr

/-- The state of a session. -/
structure Session where
  state : Lifecycle
  view : View
  /-- Results that have been shown, the oldest first. -/
  history : List Record
  /-- What has been discarded, the oldest first. -/
  trash : List Record
  lastError : Option Error
  worksheet : Worksheet
  /-- The ticket of the next submission.  Tickets are counted without a
  bound; a counter of 64 bits would come round to zero after `2 ^ 64 - 1`
  submissions, and shows the same tickets until then. -/
  nextTicket : Nat
  /-- Someone listens to the history. -/
  historyListener : Bool
  /-- Someone listens to the trash. -/
  trashListener : Bool
  /-- What the listeners have been given, the oldest first. -/
  delivered : List Delivery

/-- The answer of a solver, or none ever. -/
inductive Reply where
  | answered (outcome : Except Error Response)
  | hanging

/-- The outcome of a call when the time allowed for it is over: an answer
that is there counts. -/
def Reply.outcome : Reply → Except Error Response
  | .answered outcome => outcome
  | .hanging => .error (.transport .timedOut)

namespace Session

/-- The slot of the worksheet that the form writes into. -/
def formSlot : String := "form"

/-- A new session.  Tickets count from one. -/
def start (settings : Settings) : Session :=
  { state := .initial
    view := .empty
    history := []
    trash := []
    lastError := none
    worksheet := .empty settings
    nextTicket := 1
    historyListener := false
    trashListener := false
    delivered := [] }

/-- The same session with a listener to each of the logs. -/
def withListeners (s : Session) : Session :=
  { s with historyListener := true, trashListener := true }

/-- An error is shown and kept. -/
def surface (s : Session) (error : Error) : Session :=
  { s with view := { s.view with error := some error.userMessage }, lastError := some error }

/-- A record goes to the history, and to its listener. -/
def appendHistory (s : Session) (record : Record) : Session :=
  { s with
    history := s.history ++ [record]
    delivered := s.delivered ++ if s.historyListener then [.history record] else [] }

/-- A record goes to the trash, and to its listener. -/
def appendTrash (s : Session) (record : Record) : Session :=
  { s with
    trash := s.trash ++ [record]
    delivered := s.delivered ++ if s.trashListener then [.trash record] else [] }

/-- Nothing but the equation is shown, and no error is kept. -/
def clearResult (s : Session) : Session :=
  { s with view := { View.empty with equation := s.view.equation }, lastError := none }

/-- One effect.  Calling the solver is left to the caller. -/
def perform (s : Session) : Effect → Session
  | .callSolver _ _ => s
  | .appendHistory record => s.appendHistory record
  | .appendTrash record => s.appendTrash record
  | .showResult result =>
    { s with view := { s.view with
      roots := some result.roots
      factorization := some result.factorization
      identicallyZero := result.identicallyZero } }
  | .showChart chart => { s with view := { s.view with chart := some chart } }
  | .clearResult => s.clearResult
  | .clearEquation => { s with view := { s.view with equation := "" } }
  | .surfaceError error => s.surface error

/-- The call of the solver that an effect asks for. -/
def callOf? : Effect → Option (Nat × Request)
  | .callSolver ticket request => some (ticket, request)
  | _ => none

/-- The last call among some effects. -/
def lastCall? (effects : List Effect) : Option (Nat × Request) :=
  (effects.filterMap callOf?).getLast?

/-- Takes the next state and performs the effects. -/
def apply (s : Session) (t : Transition) : Session :=
  t.effects.foldl perform { s with state := t.state }

/-- Starts a submission: the session, and the ticket and request to send
if the local checks pass.  The text goes into the form and into its slot of
the worksheet, and what is checked is what the slot then says. -/
def beginSubmit (s : Session) (text : String) : Session × Option (Nat × Request) :=
  let ticket := s.nextTicket
  let (worksheet, precheck) := s.worksheet.samples formSlot text
  let s : Session :=
    { s with
      nextTicket := ticket + 1
      view := { s.view with equation := text }
      worksheet := worksheet }
  match s.state.transition (.submit ticket text precheck) with
  | .ok t => (s.apply t, lastCall? t.effects)
  | .error error => (s.surface error, none)

/-- Takes the answer of the solver for a ticket. -/
def resolve (s : Session) (ticket : Nat) (outcome : Except Error Response) : Session :=
  match s.state.transition (.resolved ticket outcome) with
  | .ok t => s.apply t
  | .error error => s.surface error

/-- Moves the result, or the remembered text, to the trash and clears the
form. -/
def discard (s : Session) : Except Error Session := do
  return s.apply (← s.state.transition .discard)

/-- What a submission comes to: the session, the error that it surfaced,
and the request that was sent. -/
structure Submission where
  session : Session
  error : Option Error
  asked : Option Request

/-- Submits a text, asks the solver, and takes its answer. -/
def submit (s : Session) (solver : Request → Reply) (text : String) : Submission :=
  let (s, call) := beginSubmit { s with lastError := none } text
  match call with
  | none => ⟨s, s.lastError, none⟩
  | some (ticket, request) =>
    let s := s.resolve ticket (solver request).outcome
    ⟨s, s.lastError, some request⟩

/-- The solver of this library, which answers at once. -/
def localSolver (settings : Settings) (request : Request) : Reply :=
  .answered (settings.respond request)

end Session

end Univariate
