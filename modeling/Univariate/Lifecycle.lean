import Univariate.Chart
import Univariate.Record
import Univariate.Wire

/-!
# The life of a result

A result is shown, replaced, and thrown away.  `Lifecycle.transition`
takes the state and one event and answers with the next state and the
effects to perform, in order; it performs none itself.

Every submission has a ticket, and only the newest submission is waited
for: an answer with any other ticket changes nothing.

* `Lifecycle.submit` — a text has been entered, and checked locally;
* `Lifecycle.resolve` — the solver has answered;
* `Lifecycle.discard` — the result, or the text alone, goes to the trash.
-/

namespace Univariate

/-- Whether a result is on display. -/
inductive Phase where
  /-- No result, but perhaps the text that was entered last. -/
  | idle (remembered : Option String)
  | active (result : Result)

/-- A submission that waits for its answer. -/
structure Pending where
  ticket : Nat
  equation : String
  samples : Samples

/-- The state of the form. -/
structure Lifecycle where
  phase : Phase
  /-- The newest submission, while it waits. -/
  pending : Option Pending

/-- What can happen. -/
inductive Event where
  /-- A text has been entered.  `precheck` is the outcome of reading,
  normalizing and sampling it. -/
  | submit (ticket : Nat) (equation : String) (precheck : Except Error Samples)
  /-- The solver has finished with a ticket. -/
  | resolved (ticket : Nat) (outcome : Except Error Response)
  | discard

/-- What is to be done. -/
inductive Effect where
  | callSolver (ticket : Nat) (request : Request)
  | appendHistory (record : Record)
  | appendTrash (record : Record)
  | showResult (result : Result)
  | showChart (chart : Chart)
  /-- Clears the roots, the factorization, the chart and the error. -/
  | clearResult
  | clearEquation
  | surfaceError (error : Error)

/-- The next state, and the effects in order. -/
structure Transition where
  state : Lifecycle
  effects : List Effect

namespace Lifecycle

/-- Nothing has happened. -/
def initial : Lifecycle := ⟨.idle none, none⟩

/-- The result on display. -/
def active? (s : Lifecycle) : Option Result :=
  match s.phase with
  | .active result => some result
  | .idle _ => none

/-- No result is on display. -/
def isIdle (s : Lifecycle) : Bool :=
  match s.phase with
  | .idle _ => true
  | .active _ => false

/-- The phase once a text has been entered: an idle form remembers it, a
result stays. -/
def remember (equation : String) : Phase → Phase
  | .idle _ => .idle (some equation)
  | .active result => .active result

/-- A text has been entered.  Without a local failure the solver is
called; with one nothing is waited for. -/
def submit (s : Lifecycle) (ticket : Nat) (equation : String) :
    Except Error Samples → Transition
  | .error error =>
    ⟨⟨remember equation s.phase, none⟩, [.clearResult, .surfaceError error]⟩
  | .ok samples =>
    ⟨⟨remember equation s.phase, some ⟨ticket, equation, samples⟩⟩,
      [.clearResult, .callSolver ticket ⟨equation⟩]⟩

/-- The result that an answer to a submission is. -/
def resultOf (p : Pending) (r : Response) : Result :=
  ⟨p.equation, r.roots, r.factorization, r.identicallyZero⟩

/-- The submission that is waited for has been answered. -/
def settle (s : Lifecycle) (p : Pending) : Except Error Response → Transition
  | .ok response =>
    let result := resultOf p response
    ⟨⟨.active result, none⟩,
      [.appendHistory result.record, .showResult result, .showChart p.samples.toChart]⟩
  | .error error => ⟨⟨s.phase, none⟩, [.surfaceError error]⟩

/-- The solver has finished with a ticket.  Only the one that is waited
for matters. -/
def resolve (s : Lifecycle) (ticket : Nat) (outcome : Except Error Response) :
    Transition :=
  match s.pending with
  | none => ⟨s, []⟩
  | some p => if p.ticket = ticket then settle s p outcome else ⟨s, []⟩

/-- What discarding would put into the trash. -/
def discardable? : Phase → Option Record
  | .active result => some result.record
  | .idle remembered => remembered.map .ofEquation

/-- The result, or the text alone, goes to the trash. -/
def discard (s : Lifecycle) : Except Error Transition :=
  match discardable? s.phase with
  | none => .error .nothingToDiscard
  | some record =>
    .ok ⟨initial, [.appendTrash record, .clearResult, .clearEquation]⟩

/-- One event.  Only a discard can fail. -/
def transition (s : Lifecycle) : Event → Except Error Transition
  | .submit ticket equation precheck => .ok (s.submit ticket equation precheck)
  | .resolved ticket outcome => .ok (s.resolve ticket outcome)
  | .discard => s.discard

end Lifecycle

end Univariate
