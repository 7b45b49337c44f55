import Univariate.Proofs.Session.Operations

/-!
# What is shown is what is held

The form, the phase, the history and the last error are written by
different effects, and yet agree in every state that a session can reach:
a result is shown only while it is the active one, for the equation in the
form and with its curve; what is waited for is the equation in the form;
and the error shown is the error kept.

* `Session.Shows` — the form holds exactly a result and its curve;
* `Session.Consistent` — the invariant, kept by every step
  (`Consistent.step`);
* `Session.view_consistent` — what a reader of the form may rely on.
-/

namespace Univariate

namespace Session

/-- No result is shown. -/
structure Bare (view : View) : Prop where
  roots : view.roots = none
  factorization : view.factorization = none
  chart : view.chart = none

/-- A result is shown with its curve, and no error. -/
structure Shows (settings : Settings) (view : View) (r : Result) : Prop where
  equation : view.equation = r.equation
  roots : view.roots = some r.roots
  factorization : view.factorization = some r.factorization
  identicallyZero : view.identicallyZero = r.identicallyZero
  chart : ∃ samples, settings.samples r.equation = .ok samples ∧
    view.chart = some samples.toChart
  error : view.error = none

/-- A submission waits for the equation in the form, under the last ticket
issued, and nothing else is shown. -/
structure Waits (settings : Settings) (s : Session) (p : Pending) : Prop where
  equation : p.equation = s.view.equation
  ticket : p.ticket + 1 = s.nextTicket
  samples : settings.samples p.equation = .ok p.samples
  bare : Bare s.view
  error : s.view.error = none

/-- The parts of a session agree. -/
structure Consistent (settings : Settings) (s : Session) : Prop where
  follows : s.worksheet.Follows settings
  error : s.view.error = s.lastError.map Error.userMessage
  waits : ∀ p, s.state.pending = some p → Waits settings s p
  result : Bare s.view ∨
    ∃ r, s.state.phase = .active r ∧ s.state.pending = none ∧ Shows settings s.view r
  recorded : ∀ r, s.state.phase = .active r → s.history.getLast? = some r.record
  remembered : ∀ text, s.state.phase = .idle (some text) →
    text = s.view.equation ∧ Bare s.view
  forgotten : s.state.phase = .idle none → s.state.pending = none ∧ s.view = .empty

variable {settings : Settings} {s s' : Session} {c : Call}

/-- A new session shows nothing and holds nothing. -/
theorem consistent_listening (settings : Settings) (history trash : Bool) :
    Consistent settings (listening settings history trash) where
  follows := Worksheet.follows_empty settings
  error := rfl
  waits := nofun
  result := Or.inl ⟨rfl, rfl, rfl⟩
  recorded := nofun
  remembered := nofun
  forgotten _ := ⟨rfl, rfl⟩

/-- Only a result that was on display is. -/
theorem active_of_remember {text : String} {phase : Phase} {r : Result}
    (h : Lifecycle.remember text phase = .active r) : phase = .active r := by
  cases phase with
  | idle remembered => cases h
  | active result => exact h

/-- A form that shows no result remembers the text. -/
theorem idle_of_remember {text : String} {phase : Phase} {remembered : Option String}
    (h : Lifecycle.remember text phase = .idle remembered) : remembered = some text := by
  cases phase with
  | idle other => exact (Phase.idle.inj h).symm
  | active result => cases h

/-- **A text is entered.**  Whether it is sent out or refused, nothing but
the text and perhaps an error is shown. -/
theorem Consistent.enter {text : String} {pending : Option Pending} (error : Option Error)
    (h : Consistent settings s)
    (hpending : ∀ p, pending = some p →
      p = ⟨s.nextTicket, text, p.samples⟩ ∧ settings.samples text = .ok p.samples ∧
        error = none) :
    Consistent settings
      { s.entered text with
        state := ⟨Lifecycle.remember text s.state.phase, pending⟩
        view := { View.empty with equation := text, error := error.map Error.userMessage }
        lastError := error } where
  follows := h.follows.define formSlot text
  error := rfl
  waits p hp := by
    obtain ⟨hp, hsamples, herror⟩ := hpending p hp
    rw [hp]
    exact ⟨rfl, rfl, hsamples, ⟨rfl, rfl, rfl⟩, by rw [herror]; rfl⟩
  result := Or.inl ⟨rfl, rfl, rfl⟩
  recorded r hr := h.recorded r (active_of_remember hr)
  remembered text' htext := ⟨Option.some.inj (idle_of_remember htext), rfl, rfl, rfl⟩
  forgotten hidle := nomatch idle_of_remember hidle

/-- **The answer is a result.** -/
theorem Consistent.settle {p : Pending} (h : Consistent settings s)
    (hp : s.state.pending = some p) (r : Response) :
    Consistent settings
      { s.appendHistory (Lifecycle.resultOf p r).record with
        state := ⟨.active (Lifecycle.resultOf p r), none⟩
        view := { s.view with
          roots := some r.roots
          factorization := some r.factorization
          identicallyZero := r.identicallyZero
          chart := some p.samples.toChart } } where
  follows := h.follows
  error := h.error
  waits := nofun
  result := by
    have hwaits := h.waits p hp
    exact Or.inr ⟨_, rfl, rfl, hwaits.equation.symm, rfl, rfl, rfl,
      ⟨p.samples, hwaits.samples, rfl⟩, hwaits.error⟩
  recorded r' hr := by
    obtain rfl := Phase.active.inj hr
    exact List.getLast?_concat
  remembered := nofun
  forgotten := nofun

/-- **The answer is a failure.** -/
theorem Consistent.fail {p : Pending} (h : Consistent settings s)
    (hp : s.state.pending = some p) (error : Error) :
    Consistent settings { s.surface error with state := ⟨s.state.phase, none⟩ } where
  follows := h.follows
  error := rfl
  waits := nofun
  result := by
    obtain ⟨hroots, hfactorization, hchart⟩ := (h.waits p hp).bare
    exact Or.inl ⟨hroots, hfactorization, hchart⟩
  recorded := h.recorded
  remembered text htext := by
    obtain ⟨htext, hroots, hfactorization, hchart⟩ := h.remembered text htext
    exact ⟨htext, hroots, hfactorization, hchart⟩
  forgotten hidle := by
    -- A form that remembers nothing waits for nothing.
    have hnone := (h.forgotten hidle).1
    rw [hp] at hnone
    cases hnone

/-- **Every call keeps the parts in agreement.** -/
theorem Consistent.step (h : Consistent settings s) (hstep : Step s c s') :
    Consistent settings s' := by
  cases hstep with
  | @refuse text error hsamples => exact h.enter (some error) nofun
  | ask hsamples =>
      rw [precheck_of_follows h.follows] at hsamples
      refine h.enter none ?_
      intro p hp
      cases hp
      exact ⟨rfl, hsamples, rfl⟩
  | settle hp r => exact h.settle hp r
  | fail hp error => exact h.fail hp error
  | stale hstale => exact h
  | discard hrecord =>
      exact ⟨h.follows, rfl, nofun, Or.inl ⟨rfl, rfl, rfl⟩, nofun, nofun, fun _ => ⟨rfl, rfl⟩⟩
  | nothing hnothing => exact h

/-- **What is shown is what is held**, after operations of every kind in
every order, whatever the solvers answer.  Roots, factorization and chart
are shown together or not at all; when they are shown they are those of
the active result, nothing is waited for and no error is shown; the active
result is the last one in the history; the error shown is the one kept;
what is waited for is the equation in the form under the last ticket; and
an idle form holds the remembered text and no result, or nothing. -/
theorem view_consistent (settings : Settings) (operations : List Operation) :
    let s := operations.foldl operate (start settings)
    s.worksheet.settings = settings ∧
    (s.view.roots.isSome = s.view.factorization.isSome ∧
      s.view.factorization.isSome = s.view.chart.isSome) ∧
    (s.view.roots.isSome → s.state.pending = none ∧ s.view.error = none ∧
      ∃ r, s.state.phase = .active r ∧ s.view.equation = r.equation ∧
        s.view.roots = some r.roots ∧ s.view.factorization = some r.factorization ∧
        s.view.identicallyZero = r.identicallyZero ∧
        ∃ samples, settings.samples r.equation = .ok samples ∧
          s.view.chart = some samples.toChart) ∧
    (∀ r, s.state.phase = .active r → s.history.getLast? = some r.record) ∧
    s.view.error = s.lastError.map Error.userMessage ∧
    (∀ p, s.state.pending = some p → p.equation = s.view.equation ∧
      p.ticket + 1 = s.nextTicket ∧ s.view.roots = none ∧ s.view.factorization = none ∧
      s.view.chart = none ∧ s.view.error = none) ∧
    ∀ remembered, s.state.phase = .idle remembered →
      (remembered = some s.view.equation ∧ s.view.roots = none ∧ s.view.chart = none) ∨
        (remembered = none ∧ s.view = .empty) := by
  intro s
  have h : Consistent settings s :=
    operations_invariant Consistent.step (consistent_listening settings false false) operations
  refine ⟨h.follows.settings_eq, ?_, ?_, h.recorded, h.error, ?_, ?_⟩
  · rcases h.result with hbare | ⟨r, -, -, hshows⟩
    · rw [hbare.roots, hbare.factorization, hbare.chart]
      exact ⟨rfl, rfl⟩
    · obtain ⟨samples, -, hchart⟩ := hshows.chart
      rw [hshows.roots, hshows.factorization, hchart]
      exact ⟨rfl, rfl⟩
  · intro hroots
    rcases h.result with hbare | ⟨r, hactive, hpending, hshows⟩
    · rw [hbare.roots] at hroots
      cases hroots
    · obtain ⟨samples, hsamples, hchart⟩ := hshows.chart
      exact ⟨hpending, hshows.error, r, hactive, hshows.equation, hshows.roots,
        hshows.factorization, hshows.identicallyZero, samples, hsamples, hchart⟩
  · intro p hp
    have hwaits := h.waits p hp
    exact ⟨hwaits.equation, hwaits.ticket, hwaits.bare.roots, hwaits.bare.factorization,
      hwaits.bare.chart, hwaits.error⟩
  · intro remembered hidle
    cases remembered with
    | none => exact Or.inr ⟨rfl, (h.forgotten hidle).2⟩
    | some text =>
        obtain ⟨htext, hbare⟩ := h.remembered text hidle
        exact Or.inl ⟨congrArg some htext, hbare.roots, hbare.chart⟩

end Session

end Univariate
