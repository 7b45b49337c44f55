import Univariate.Proofs.Worksheet
import Univariate.Session

/-!
# Runs of a session

What can be done to a session, and everything that one call can do to it.
A caller that waits for its answers does nothing else: submitting and
waiting is starting the submission and taking the answer.

* `Session.Call`, `Session.call`, `Session.run` — calls in any order, with
  any answers;
* `Session.precheck` — what the local checks say of a text that is written
  into the slot of the form;
* `Session.Step`, `Session.step_call` — the seven things that a call can
  come to;
* `Session.precheck_of_follows` — the checks are those of the settings, as
  long as the worksheet follows them, which every call keeps
  (`Session.Step.follows`);
* `Session.Operation`, `Session.operate` — the same with whole submissions;
* `Session.operate_eq_run` — a whole submission is one call or two.
-/

namespace Univariate

namespace Session

/-- What can be called. -/
inductive Call where
  | beginSubmit (text : String)
  | resolve (ticket : ℕ) (outcome : Except Error Response)
  | discard

/-- The session after a call.  A discard that fails leaves it as it is. -/
def call (s : Session) : Call → Session
  | .beginSubmit text => (s.beginSubmit text).1
  | .resolve ticket outcome => s.resolve ticket outcome
  | .discard =>
    match s.discard with
    | .ok s' => s'
    | .error _ => s

/-- A new session with listeners to some of the logs. -/
def listening (settings : Settings) (history trash : Bool) : Session :=
  { start settings with historyListener := history, trashListener := trash }

/-- The session after some calls, the first one first. -/
def run (s : Session) (calls : List Call) : Session := calls.foldl call s

theorem run_cons (s : Session) (c : Call) (calls : List Call) :
    s.run (c :: calls) = (s.call c).run calls := rfl

/-- A run may be cut into two. -/
theorem run_append (s : Session) (calls calls' : List Call) :
    s.run (calls ++ calls') = (s.run calls).run calls' :=
  List.foldl_append

/-! ## What a call comes to -/

/-- What the local checks say of a text: what is asked is the slot of the
form, when the text is in it. -/
def precheck (s : Session) (text : String) : Except Error Samples :=
  (s.worksheet.samples formSlot text).2

/-- Asking the slot of the form writes the text and checks it. -/
theorem samples_formSlot (s : Session) (text : String) : s.worksheet.samples formSlot text =
    ((s.worksheet.define formSlot text).1, s.precheck text) :=
  rfl

/-- The session after a text has been entered: it is in its slot, a ticket
has been issued for it, and nothing else is shown. -/
def entered (s : Session) (text : String) : Session :=
  { s with
    nextTicket := s.nextTicket + 1
    worksheet := (s.worksheet.define formSlot text).1
    view := { View.empty with equation := text }
    lastError := none }

/-- **Everything that a call can do.** -/
inductive Step (s : Session) : Call → Session → Prop
  /-- The text fails the local checks. -/
  | refuse {text : String} {error : Error}
      (h : s.precheck text = .error error) :
      Step s (.beginSubmit text)
        { (s.entered text).surface error with
          state := ⟨Lifecycle.remember text s.state.phase, none⟩ }
  /-- The solver is to be asked. -/
  | ask {text : String} {samples : Samples}
      (h : s.precheck text = .ok samples) :
      Step s (.beginSubmit text)
        { s.entered text with
          state := ⟨Lifecycle.remember text s.state.phase,
            some ⟨s.nextTicket, text, samples⟩⟩ }
  /-- The answer that is waited for is a result. -/
  | settle {p : Pending} (h : s.state.pending = some p) (r : Response) :
      Step s (.resolve p.ticket (.ok r))
        { s.appendHistory (Lifecycle.resultOf p r).record with
          state := ⟨.active (Lifecycle.resultOf p r), none⟩
          view := { s.view with
            roots := some r.roots
            factorization := some r.factorization
            identicallyZero := r.identicallyZero
            chart := some p.samples.toChart } }
  /-- The answer that is waited for is a failure. -/
  | fail {p : Pending} (h : s.state.pending = some p) (error : Error) :
      Step s (.resolve p.ticket (.error error))
        { s.surface error with state := ⟨s.state.phase, none⟩ }
  /-- The answer is not waited for. -/
  | stale {ticket : ℕ} {outcome : Except Error Response}
      (h : ∀ p, s.state.pending = some p → p.ticket ≠ ticket) :
      Step s (.resolve ticket outcome) s
  | discard {record : Record} (h : Lifecycle.discardable? s.state.phase = some record) :
      Step s .discard
        { s.appendTrash record with state := .initial, view := .empty, lastError := none }
  /-- There is nothing to discard. -/
  | nothing (h : Lifecycle.discardable? s.state.phase = none) : Step s .discard s

/-- **A text that fails the local checks** is reported, and nothing waits. -/
theorem beginSubmit_of_error {s : Session} {text : String} {error : Error}
    (h : s.precheck text = .error error) :
    s.beginSubmit text =
      ({ (s.entered text).surface error with
          state := ⟨Lifecycle.remember text s.state.phase, none⟩ }, none) := by
  simp only [beginSubmit, samples_formSlot, h, Lifecycle.transition]
  rfl

/-- **A text that can be sampled** waits for an answer, under a new ticket. -/
theorem beginSubmit_of_ok {s : Session} {text : String} {samples : Samples}
    (h : s.precheck text = .ok samples) :
    s.beginSubmit text =
      ({ s.entered text with
          state := ⟨Lifecycle.remember text s.state.phase,
            some ⟨s.nextTicket, text, samples⟩⟩ },
        some (s.nextTicket, ⟨text⟩)) := by
  simp only [beginSubmit, samples_formSlot, h, Lifecycle.transition]
  rfl

/-- The answer to what waits settles it. -/
theorem resolve_of_pending {s : Session} {p : Pending} (h : s.state.pending = some p)
    (outcome : Except Error Response) :
    s.resolve p.ticket outcome = s.apply (s.state.settle p outcome) := by
  simp only [resolve, Lifecycle.transition, Lifecycle.resolve, h, if_true]

/-- **Any other answer changes nothing.** -/
theorem resolve_stale {s : Session} {ticket : ℕ}
    (h : ∀ p, s.state.pending = some p → p.ticket ≠ ticket) (outcome : Except Error Response) :
    s.resolve ticket outcome = s := by
  simp only [resolve, Lifecycle.transition, Lifecycle.resolve]
  cases hpending : s.state.pending with
  | none => rfl
  | some p =>
      simp only [if_neg (h p hpending)]
      rfl

/-- There is nothing to throw away in a form that remembers nothing. -/
theorem discard_of_none {s : Session} (h : Lifecycle.discardable? s.state.phase = none) :
    s.discard = .error .nothingToDiscard := by
  simp only [discard, Lifecycle.transition, Lifecycle.discard, h]
  rfl

/-- Otherwise the record goes to the trash, and the form is as at the start. -/
theorem discard_of_some {s : Session} {record : Record}
    (h : Lifecycle.discardable? s.state.phase = some record) :
    s.discard =
      .ok { s.appendTrash record with state := .initial, view := .empty, lastError := none } := by
  simp only [discard, Lifecycle.transition, Lifecycle.discard, h]
  rfl

/-- Every call does one of these things. -/
theorem step_call (s : Session) (c : Call) : Step s c (s.call c) := by
  cases c with
  | beginSubmit text =>
      cases h : s.precheck text with
      | error error =>
          rw [call, beginSubmit_of_error h]
          exact .refuse h
      | ok samples =>
          rw [call, beginSubmit_of_ok h]
          exact .ask h
  | resolve ticket outcome =>
      by_cases hwaits : ∃ p, s.state.pending = some p ∧ p.ticket = ticket
      · obtain ⟨p, hp, rfl⟩ := hwaits
        rw [call, resolve_of_pending hp]
        cases outcome with
        | ok r => exact .settle hp r
        | error error => exact .fail hp error
      · have hstale : ∀ p, s.state.pending = some p → p.ticket ≠ ticket :=
          fun p hp hticket => hwaits ⟨p, hp, hticket⟩
        rw [call, resolve_stale hstale]
        exact .stale hstale
  | discard =>
      cases h : Lifecycle.discardable? s.state.phase with
      | none =>
          simp only [call, discard_of_none h]
          exact .nothing h
      | some record =>
          simp only [call, discard_of_some h]
          exact .discard h

/-- **What every call keeps, a run keeps.** -/
theorem run_invariant {Inv : Session → Prop}
    (hstep : ∀ {s s' : Session} {c : Call}, Inv s → Step s c s' → Inv s') {s : Session}
    (hs : Inv s) (calls : List Call) : Inv (s.run calls) := by
  induction calls generalizing s with
  | nil => exact hs
  | cons c calls ih => exact ih (hstep hs (s.step_call c))

/-! ## The worksheet -/

/-- Every call keeps the equations read as the settings say. -/
theorem Step.follows {settings : Settings} {s s' : Session} {c : Call} (hstep : Step s c s')
    (h : s.worksheet.Follows settings) : s'.worksheet.Follows settings := by
  cases hstep with
  | @refuse text error hfails => exact h.define formSlot text
  | @ask text samples hpasses => exact h.define formSlot text
  | settle hp r => exact h
  | fail hp error => exact h
  | stale hstale => exact h
  | discard hrecord => exact h
  | nothing hnothing => exact h

/-- A text is checked under the settings, whatever the slot of the form has
held before. -/
theorem precheck_of_follows {settings : Settings} {s : Session}
    (h : s.worksheet.Follows settings) (text : String) :
    s.precheck text = settings.samples text :=
  (h.answers_eq formSlot text).2.2

/-! ## Whole submissions -/

/-- What can be done: a call, or a submission that waits for its
solver. -/
inductive Operation where
  | call (c : Call)
  | submit (solver : Request → Reply) (text : String)

/-- The session after an operation. -/
def operate (s : Session) : Operation → Session
  | .call c => s.call c
  | .submit solver text => (s.submit solver text).session

/-- Forgetting the last error before a submission makes no difference. -/
theorem beginSubmit_forget (s : Session) (text : String) :
    beginSubmit { s with lastError := none } text = s.beginSubmit text := by
  cases h : s.precheck text with
  | error error =>
      rw [beginSubmit_of_error h, beginSubmit_of_error (s := { s with lastError := none }) h]
      rfl
  | ok samples =>
      rw [beginSubmit_of_ok h, beginSubmit_of_ok (s := { s with lastError := none }) h]
      rfl

/-- **A whole submission is one call or two.** -/
theorem operate_eq_run (s : Session) (o : Operation) :
    ∃ calls : List Call, s.operate o = s.run calls := by
  cases o with
  | call c => exact ⟨[c], rfl⟩
  | submit solver text =>
      cases h : s.precheck text with
      | error error =>
          refine ⟨[.beginSubmit text], ?_⟩
          simp only [operate, submit, beginSubmit_forget, run_cons, call, beginSubmit_of_error h]
          rfl
      | ok samples =>
          refine ⟨[.beginSubmit text, .resolve s.nextTicket (solver ⟨text⟩).outcome], ?_⟩
          simp only [operate, submit, beginSubmit_forget, run_cons, call, beginSubmit_of_ok h]
          rfl

/-- What every call preserves holds after all operations, as each of them is a
run of calls. -/
theorem operations_invariant {Inv : Session → Prop}
    (hstep : ∀ {s s' : Session} {c : Call}, Inv s → Step s c s' → Inv s') {s : Session}
    (hs : Inv s) (operations : List Operation) : Inv (operations.foldl operate s) := by
  induction operations generalizing s with
  | nil => exact hs
  | cons o operations ih =>
      obtain ⟨calls, hcalls⟩ := s.operate_eq_run o
      rw [List.foldl_cons, hcalls]
      exact ih (run_invariant hstep hs calls)

end Session

end Univariate
