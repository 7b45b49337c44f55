import Univariate.Proofs.Session.Refinement
import Univariate.Proofs.Session.View

/-!
# Failures leave results intact

A text may fail the local checks, and the solver may answer with an error or
not at all.  What a submission reports is only the error that is kept when it
has ended, so a failure must keep one and a success none.  After a failure
the logs and the result that was on display are as they were; the form shows
the text and the error, and no result, because a result is only shown while
nothing has been entered since.

* `Session.FailsWith` — what a failure does, and what it leaves alone;
* `Session.failsWith_refused`, `Session.failsWith_answer`,
  `Session.Consistent.failsWith_resolve` — the failures of a text, of its
  answer, and of an answer that comes later;
* `Session.failures_preserve` — every failure, in every state that a session
  can reach.
-/

namespace Univariate

namespace Session

variable {settings : Settings} {s : Session} {text : String} {e : Error}

/-- The error is kept and shown, and nothing is waited for or shown beside
it.  The logs are as they were, with what their listeners have been given,
and so is the result on display; a form without one has none. -/
structure FailsWith (s s' : Session) (e : Error) : Prop where
  lastError : s'.lastError = some e
  message : s'.view.error = some e.userMessage
  history : s'.history = s.history
  trash : s'.trash = s.trash
  delivered : s'.delivered = s.delivered
  active : ∀ r, s.state.phase = .active r → s'.state.phase = .active r
  idle : s.state.isIdle = true → s'.state.isIdle = true
  pending : s'.state.pending = none
  bare : Bare s'.view

/-- A result is on display for the text, and its record has been written. -/
def SucceedsWith (s s' : Session) (text : String) : Prop :=
  ∃ r : Result, r.equation = text ∧ s'.history = s.history ++ [r.record] ∧
    s'.state.phase = .active r

/-! ## Three failures -/

/-- A result on display stays where it is. -/
theorem remember_active {phase : Phase} {r : Result} (h : phase = .active r) :
    Lifecycle.remember text phase = .active r := by
  rw [h, Lifecycle.remember]

/-- A form without a result has none after a text has been entered. -/
theorem isIdle_remember {pending pending' : Option Pending} {phase : Phase}
    (h : Lifecycle.isIdle ⟨phase, pending⟩ = true) :
    Lifecycle.isIdle ⟨Lifecycle.remember text phase, pending'⟩ = true := by
  cases phase with
  | idle remembered => rfl
  | active result => cases h

/-- The text fails the local checks. -/
theorem failsWith_refused (s : Session) (text : String) (e : Error) :
    FailsWith s
      { (s.entered text).surface e with
        state := ⟨Lifecycle.remember text s.state.phase, none⟩ } e where
  lastError := rfl
  message := rfl
  history := rfl
  trash := rfl
  delivered := rfl
  active _ := remember_active
  idle := isIdle_remember
  pending := rfl
  bare := ⟨rfl, rfl, rfl⟩

/-- The solver answers with an error, or not in time. -/
theorem failsWith_answer (s : Session) (text : String) (samples : Samples) (e : Error) :
    FailsWith s ((s.asking text samples).resolve s.nextTicket (.error e)) e := by
  rw [resolve_asking]
  exact
    { lastError := rfl
      message := rfl
      history := rfl
      trash := rfl
      delivered := rfl
      active := fun _ => remember_active
      idle := isIdle_remember
      pending := rfl
      bare := ⟨rfl, rfl, rfl⟩ }

/-- The answer that is waited for is an error.  While something is waited
for, no result is shown. -/
theorem Consistent.failsWith_resolve (h : Consistent settings s) {p : Pending}
    (hp : s.state.pending = some p) (e : Error) :
    FailsWith s (s.resolve p.ticket (.error e)) e := by
  obtain ⟨hroots, hfactorization, hchart⟩ := (h.waits p hp).bare
  rw [resolve_of_pending hp]
  exact
    { lastError := rfl
      message := rfl
      history := rfl
      trash := rfl
      delivered := rfl
      active := fun _ hr => hr
      idle := fun hidle => hidle
      pending := rfl
      bare := ⟨hroots, hfactorization, hchart⟩ }

/-! ## Submissions -/

/-- What has failed has written no record. -/
theorem FailsWith.not_succeedsWith {s' : Session} (h : FailsWith s s' e) :
    ¬SucceedsWith s s' text := by
  rintro ⟨r, -, hhistory, -⟩
  rw [h.history] at hhistory
  exact List.cons_ne_nil _ _ (List.self_eq_append_right.mp hhistory)

/-- **A submission fails or succeeds.** -/
theorem submit_cases (s : Session) (solver : Request → Reply) (text : String) :
    (∃ e, (s.submit solver text).error = some e ∧
        FailsWith s (s.submit solver text).session e) ∨
      ((s.submit solver text).error = none ∧
        SucceedsWith s (s.submit solver text).session text) := by
  cases hsamples : s.precheck text with
  | error e =>
      rw [submit_of_error hsamples]
      exact Or.inl ⟨e, rfl, failsWith_refused s text e⟩
  | ok samples =>
      rw [submit_of_ok hsamples]
      cases (solver ⟨text⟩).outcome with
      | error e =>
          have hfails := failsWith_answer s text samples e
          exact Or.inl ⟨e, hfails.lastError, hfails⟩
      | ok response =>
          rw [resolve_asking]
          exact Or.inr ⟨rfl, _, rfl, rfl, rfl⟩

/-- A submission reports the error that is kept. -/
theorem error_submit (s : Session) (solver : Request → Reply) (text : String) :
    (s.submit solver text).error = (s.submit solver text).session.lastError := by
  cases hsamples : s.precheck text with
  | error e =>
      rw [submit_of_error hsamples]
      rfl
  | ok samples => rw [submit_of_ok hsamples]

/-- A text that is not sent out has failed the local checks. -/
theorem failsWith_beginSubmit (h : (s.beginSubmit text).2 = none) :
    ∃ e, s.precheck text = .error e ∧
      FailsWith s (s.beginSubmit text).1 e := by
  cases hsamples : s.precheck text with
  | ok samples =>
      rw [beginSubmit_of_ok hsamples] at h
      cases h
  | error e =>
      rw [beginSubmit_of_error hsamples]
      exact ⟨e, rfl, failsWith_refused s text e⟩

/-! ## Discarding -/

/-- Only a form that remembers nothing has nothing to throw away. -/
theorem discardable?_eq_none_iff (phase : Phase) :
    Lifecycle.discardable? phase = none ↔ phase = .idle none := by
  cases phase with
  | active result => exact iff_of_false nofun nofun
  | idle remembered =>
      cases remembered with
      | none => exact iff_of_true rfl rfl
      | some text => exact iff_of_false nofun nofun

/-- Of all that can happen only a discard can fail, and only where there is
nothing to discard. -/
theorem transition_eq_error_iff (l : Lifecycle) (event : Event) (e : Error) :
    l.transition event = .error e ↔
      event = .discard ∧ e = .nothingToDiscard ∧ l.phase = .idle none := by
  cases event with
  | submit ticket equation precheck => simp [Lifecycle.transition]
  | resolved ticket outcome => simp [Lifecycle.transition]
  | discard =>
      rw [Lifecycle.transition, Lifecycle.discard, ← discardable?_eq_none_iff]
      cases Lifecycle.discardable? l.phase with
      | none => simp [eq_comm]
      | some record => simp

/-- Discarding fails only where there is nothing to discard. -/
theorem discard_eq_error_iff (s : Session) (e : Error) :
    s.discard = .error e ↔ e = .nothingToDiscard ∧ s.state.phase = .idle none := by
  have hfails : s.discard = .error e ↔ s.state.transition .discard = .error e := by
    constructor
    · intro h
      rw [discard] at h
      obtain herror | ⟨t, -, ht⟩ := bind_eq_error h
      · exact herror
      · cases ht
    · intro h
      rw [discard, h]
      rfl
  rw [hfails, transition_eq_error_iff]
  exact and_iff_right rfl

/-! ## Every failure -/

/-- **Failures leave results intact**, whatever has been done with the
session before.  A submission reports an error exactly if that error is kept
when it has ended; then the logs and the result on display are as they were,
nothing is waited for and no result is shown.  It reports none exactly if one
record has been written, for its text, and the result of that record is on
display.  A text that fails the local checks, and an answer that is waited
for and is an error, preserve the same.  Discarding fails exactly in a form
that remembers nothing, and changes nothing then. -/
theorem failures_preserve (settings : Settings) (history trash : Bool)
    (operations : List Operation) :
    let s := operations.foldl operate (listening settings history trash)
    (∀ solver text,
      let submission := s.submit solver text
      (∀ e, submission.error = some e ↔ submission.session.lastError = some e) ∧
      (∀ e, submission.error = some e → FailsWith s submission.session e) ∧
      (submission.error = none ↔ SucceedsWith s submission.session text)) ∧
    (∀ text, (s.beginSubmit text).2 = none →
      ∃ e, settings.samples text = .error e ∧ FailsWith s (s.beginSubmit text).1 e) ∧
    (∀ p, s.state.pending = some p → ∀ e, FailsWith s (s.resolve p.ticket (.error e)) e) ∧
    (∀ e, s.discard = .error e ↔ e = .nothingToDiscard ∧ s.state.phase = .idle none) ∧
    (s.state.phase = .idle none → s.call .discard = s) := by
  intro s
  have hconsistent : Consistent settings s :=
    operations_invariant Consistent.step (consistent_listening settings history trash) operations
  refine ⟨fun solver text => ?_, fun text htext => ?_, fun p hp => hconsistent.failsWith_resolve hp,
    discard_eq_error_iff s, fun hidle => ?_⟩
  · intro submission
    refine ⟨fun e => by rw [← error_submit], ?_⟩
    rcases submit_cases s solver text with ⟨e, herror, hfails⟩ | ⟨herror, hsucceeds⟩
    · refine ⟨fun e' he' => ?_, ?_⟩
      · obtain rfl : e = e' := Option.some.inj (herror.symm.trans he')
        exact hfails
      · exact iff_of_false (by rw [herror]; exact Option.some_ne_none e) hfails.not_succeedsWith
    · refine ⟨fun e he => ?_, iff_of_true herror hsucceeds⟩
      rw [herror] at he
      cases he
  · rw [← precheck_of_follows hconsistent.follows]
    exact failsWith_beginSubmit htext
  · have hdiscard := (discard_eq_error_iff s .nothingToDiscard).mpr ⟨rfl, hidle⟩
    simp only [call, hdiscard]

end Session

end Univariate
