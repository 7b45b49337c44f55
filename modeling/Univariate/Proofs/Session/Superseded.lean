import Univariate.Proofs.Session.Operations

/-!
# Superseded submissions

A text that is entered and at once replaced by another one might as well
not have been entered: all that is left of it is the ticket it was given.
Two runs, one with the superseded text and one without it, stay in step
through everything that follows, if the tickets of the second run are
counted one further on, and whatever answers to the lost ticket arrive in
the first run.

* `Session.postponed` — a session with its tickets counted one further on;
* `Session.Since` — no ticket below a bound is waited for, nor will be;
* `Session.call_postponed`, `Session.operate_postponed` — every operation
  keeps the runs in step;
* `Session.superseded_leaves_no_trace` — the two runs.
-/

namespace Univariate

/-- A ticket with those from `first` on counted one further. -/
def postponeTicket (first ticket : ℕ) : ℕ := if ticket < first then ticket else ticket + 1

namespace Session

/-- The same session with one ticket more issued: what waits, waits under
the next number. -/
def postponed (s : Session) : Session :=
  { s with
    nextTicket := s.nextTicket + 1
    state := { s.state with
      pending := s.state.pending.map fun p => { p with ticket := p.ticket + 1 } } }

/-- The same call with its ticket counted further. -/
def Call.postponed (first : ℕ) : Call → Call
  | .resolve ticket outcome => .resolve (postponeTicket first ticket) outcome
  | other => other

/-- The same operation with its ticket counted further. -/
def Operation.postponed (first : ℕ) : Operation → Operation
  | .call c => .call (c.postponed first)
  | other => other

/-- No ticket below `first` is waited for, nor will be. -/
structure Since (first : ℕ) (s : Session) : Prop where
  next : first ≤ s.nextTicket
  pending : ∀ p, s.state.pending = some p → first ≤ p.ticket

variable {s s' : Session} {first ticket : ℕ} {c : Call}

/-! ## Tickets -/

theorem postponeTicket_of_le (h : first ≤ ticket) : postponeTicket first ticket = ticket + 1 :=
  if_neg (not_lt.mpr h)

/-- Counted further, a ticket takes the place behind an issued one only if it
is that one. -/
theorem postponeTicket_eq_iff {issued : ℕ} (h : first ≤ issued) :
    postponeTicket first ticket = issued + 1 ↔ ticket = issued := by
  unfold postponeTicket
  split_ifs <;> omega

/-- No call lets an old ticket wait again. -/
theorem Since.step (h : s.Since first) (hstep : Step s c s') : s'.Since first := by
  cases hstep with
  | refuse hsamples => exact ⟨h.next.trans (Nat.le_succ _), nofun⟩
  | ask hsamples =>
      refine ⟨h.next.trans (Nat.le_succ _), ?_⟩
      intro p hp
      cases hp
      exact h.next
  | settle hp r => exact ⟨h.next, nofun⟩
  | fail hp error => exact ⟨h.next, nofun⟩
  | stale hstale => exact h
  | discard hrecord => exact ⟨h.next, nofun⟩
  | nothing hnothing => exact h

/-! ## Calls in step -/

/-- A submission is the same, with the number of its ticket one higher. -/
theorem beginSubmit_postponed (s : Session) (text : String) :
    s.postponed.beginSubmit text =
      ((s.beginSubmit text).1.postponed,
        (s.beginSubmit text).2.map fun asked => (asked.1 + 1, asked.2)) := by
  cases h : s.precheck text with
  | error error =>
      rw [beginSubmit_of_error h, beginSubmit_of_error (s := s.postponed) h]
      rfl
  | ok samples =>
      rw [beginSubmit_of_ok h, beginSubmit_of_ok (s := s.postponed) h]
      rfl

/-- An answer counts, or is stale, with both numbers of its ticket. -/
theorem resolve_postponed (h : s.Since first) (ticket : ℕ) (outcome : Except Error Response) :
    s.postponed.resolve (postponeTicket first ticket) outcome =
      (s.resolve ticket outcome).postponed := by
  by_cases hwaits : ∃ p, s.state.pending = some p ∧ p.ticket = ticket
  · obtain ⟨p, hp, rfl⟩ := hwaits
    have hpostponed : s.postponed.state.pending = some { p with ticket := p.ticket + 1 } := by
      rw [postponed, hp]
      rfl
    rw [postponeTicket_of_le (h.pending p hp), resolve_of_pending hp]
    refine (resolve_of_pending hpostponed outcome).trans ?_
    cases outcome <;> rfl
  · have hstale : ∀ p, s.state.pending = some p → p.ticket ≠ ticket :=
      fun p hp hticket => hwaits ⟨p, hp, hticket⟩
    rw [resolve_stale hstale, resolve_stale]
    intro p hp hticket
    obtain ⟨q, hq, rfl⟩ := Option.map_eq_some_iff.mp hp
    exact hstale q hq ((postponeTicket_eq_iff (h.pending q hq)).mp hticket.symm).symm

/-- Throwing away has nothing to do with tickets. -/
theorem discard_postponed (s : Session) : s.postponed.discard = s.discard.map postponed := by
  cases h : Lifecycle.discardable? s.state.phase with
  | none =>
      rw [discard_of_none h, discard_of_none (s := s.postponed) h]
      rfl
  | some record =>
      rw [discard_of_some h, discard_of_some (s := s.postponed) h]
      rfl

/-- **Every call keeps the runs in step.** -/
theorem call_postponed (h : s.Since first) (c : Call) :
    s.postponed.call (c.postponed first) = (s.call c).postponed := by
  cases c with
  | beginSubmit text => exact congrArg Prod.fst (beginSubmit_postponed s text)
  | resolve ticket outcome => exact resolve_postponed h ticket outcome
  | discard =>
      simp only [call, Call.postponed, discard_postponed]
      cases s.discard <;> rfl

/-- **So does a whole submission**, which asks the solver the same. -/
theorem submit_postponed (h : s.Since first) (solver : Request → Reply) (text : String) :
    (s.postponed.submit solver text).session = (s.submit solver text).session.postponed := by
  have hsince : (s.beginSubmit text).1.Since first := h.step (s.step_call (.beginSubmit text))
  have hbegin := beginSubmit_postponed s text
  cases hsamples : s.precheck text with
  | error error =>
      simp only [submit, beginSubmit_forget, hbegin, beginSubmit_of_error hsamples, Option.map_none]
  | ok samples =>
      rw [beginSubmit_of_ok hsamples] at hsince
      -- The solver's answer goes to the ticket that the submission was given.
      have hresolve := resolve_postponed hsince s.nextTicket (solver ⟨text⟩).outcome
      rw [postponeTicket_of_le h.next] at hresolve
      simp only [submit, beginSubmit_forget, hbegin, beginSubmit_of_ok hsamples, Option.map_some]
      exact hresolve

/-- **Every operation keeps two sessions in step** that differ in one lost
ticket. -/
theorem operate_postponed (h : s.Since first) (o : Operation) :
    s.postponed.operate (o.postponed first) = (s.operate o).postponed := by
  cases o with
  | call c => exact call_postponed h c
  | submit solver text => exact submit_postponed h solver text

/-- No operation lets an old ticket wait again. -/
theorem Since.operate (h : s.Since first) (o : Operation) : (s.operate o).Since first := by
  obtain ⟨calls, hcalls⟩ := s.operate_eq_run o
  rw [hcalls]
  exact run_invariant Since.step h calls

/-- An answer to the lost ticket changes nothing. -/
theorem resolve_lost (h : s.Since first) (outcome : Except Error Response) :
    s.postponed.resolve first outcome = s.postponed := by
  refine resolve_stale ?_ outcome
  intro p hp hticket
  obtain ⟨q, hq, rfl⟩ := Option.map_eq_some_iff.mp hp
  exact absurd (h.pending q hq) (by simp only at hticket; omega)

/-! ## Two runs -/

/-- What may happen after a submission has been superseded. -/
inductive Later where
  /-- An operation, in both runs. -/
  | both (o : Operation)
  /-- An answer to the lost ticket, in the run in which it was issued. -/
  | lost (outcome : Except Error Response)

/-- What happens in the run with the superseded submission. -/
def Later.withLost (first : ℕ) : Later → Operation
  | both o => o.postponed first
  | lost outcome => .call (.resolve first outcome)

/-- What happens in the run without it. -/
def Later.without? : Later → Option Operation
  | both o => some o
  | lost _ => none

/-- **The runs stay in step**, whatever happens later. -/
theorem run_later (h : s.Since first) (later : List Later) :
    (later.map (Later.withLost first)).foldl operate s.postponed =
      ((later.filterMap Later.without?).foldl operate s).postponed := by
  induction later generalizing s with
  | nil => rfl
  | cons l later ih =>
      cases l with
      | both o =>
          calc (later.map (Later.withLost first)).foldl operate
                (s.postponed.operate (o.postponed first))
              = (later.map (Later.withLost first)).foldl operate (s.operate o).postponed := by
                rw [operate_postponed h o]
            _ = ((later.filterMap Later.without?).foldl operate (s.operate o)).postponed :=
                ih (h.operate o)
      | lost outcome =>
          calc (later.map (Later.withLost first)).foldl operate (s.postponed.resolve first outcome)
              = (later.map (Later.withLost first)).foldl operate s.postponed := by
                rw [resolve_lost h outcome]
            _ = ((later.filterMap Later.without?).foldl operate s).postponed := ih h

/-! ## The superseded text -/

/-- Only the last text that is remembered counts. -/
theorem remember_remember (text text' : String) (phase : Phase) :
    Lifecycle.remember text' (Lifecycle.remember text phase) = Lifecycle.remember text' phase := by
  cases phase <;> rfl

/-- What is left of a submission, whether it was sent out or refused, apart
from the form: a ticket is gone, and an idle form remembers the text. -/
theorem beginSubmit_frame (s : Session) (text : String) :
    (s.beginSubmit text).1.nextTicket = s.nextTicket + 1 ∧
      (s.beginSubmit text).1.worksheet = (s.worksheet.define formSlot text).1 ∧
      (s.beginSubmit text).1.state.phase = Lifecycle.remember text s.state.phase := by
  cases h : s.precheck text with
  | error error =>
      rw [beginSubmit_of_error h]
      exact ⟨rfl, rfl, rfl⟩
  | ok samples =>
      rw [beginSubmit_of_ok h]
      exact ⟨rfl, rfl, rfl⟩

/-- The ticket of a submission is the next number. -/
theorem ticket_of_beginSubmit {text : String} {request : Request}
    (h : (s.beginSubmit text).2 = some (ticket, request)) : ticket = s.nextTicket := by
  cases hsamples : s.precheck text with
  | error error =>
      rw [beginSubmit_of_error hsamples] at h
      cases h
  | ok samples =>
      rw [beginSubmit_of_ok hsamples] at h
      cases h
      rfl

/-- From a submission on only its ticket is waited for, and later ones. -/
theorem since_beginSubmit (s : Session) (text : String) :
    (s.beginSubmit text).1.Since s.nextTicket := by
  cases h : s.precheck text with
  | error error =>
      rw [beginSubmit_of_error h]
      exact ⟨Nat.le_succ _, nofun⟩
  | ok samples =>
      rw [beginSubmit_of_ok h]
      refine ⟨Nat.le_succ _, ?_⟩
      intro p hp
      cases hp
      exact le_rfl

/-- The next text finds the form as it was, but for the ticket and for what
is waited for. -/
theorem entered_beginSubmit (s : Session) (text text' : String) :
    (s.beginSubmit text).1.entered text' =
      { s.entered text' with
        nextTicket := s.nextTicket + 2
        state := (s.beginSubmit text).1.state } := by
  have hdefine := s.worksheet.define_define formSlot text text'
  cases h : s.precheck text with
  | error error =>
      rw [beginSubmit_of_error h]
      simp only [entered, surface, hdefine]
  | ok samples =>
      rw [beginSubmit_of_ok h]
      simp only [entered, hdefine]

/-- It is checked as it would have been without the first one: the slot of
the form says the second text alone. -/
theorem precheck_beginSubmit (s : Session) (text text' : String) :
    (s.beginSubmit text).1.precheck text' = s.precheck text' := by
  obtain ⟨-, hworksheet, -⟩ := beginSubmit_frame s text
  rw [precheck, hworksheet, Worksheet.samples_define, precheck]

/-- **Entering another text at once is entering that text alone**, but for
the ticket. -/
theorem beginSubmit_beginSubmit (s : Session) (text text' : String) :
    (s.beginSubmit text).1.beginSubmit text' =
      ((s.beginSubmit text').1.postponed,
        (s.beginSubmit text').2.map fun asked => (asked.1 + 1, asked.2)) := by
  have hentered := entered_beginSubmit s text text'
  have hprecheck := precheck_beginSubmit s text text'
  obtain ⟨hticket, -, hphase⟩ := beginSubmit_frame s text
  cases h : s.precheck text' with
  | error error =>
      rw [beginSubmit_of_error h, beginSubmit_of_error (hprecheck.trans h), hentered, hphase,
        remember_remember]
      rfl
  | ok samples =>
      rw [beginSubmit_of_ok h, beginSubmit_of_ok (hprecheck.trans h), hentered, hphase, hticket,
        remember_remember]
      rfl

/-- **A superseded submission leaves no trace.**  Entering a text and then
another one is entering the second one alone: the same request goes out,
under the ticket after the superseded one, and the phase, the form, the
logs, the error, and the text and curve that are waited for are the same.
And so they stay, whatever is done to both sessions later, with the tickets
from that submission on counted one further in the first session, and
whatever answers to the superseded ticket arrive there. -/
theorem superseded_leaves_no_trace (s : Session) (text text' : String) :
    let twice := (s.beginSubmit text).1.beginSubmit text'
    let once := s.beginSubmit text'
    (∀ ticket request, (s.beginSubmit text).2 = some (ticket, request) → ticket = s.nextTicket) ∧
    twice.2 = once.2.map (fun asked => (asked.1 + 1, asked.2)) ∧
    ∀ later : List Later,
      let s₁ := (later.map (Later.withLost s.nextTicket)).foldl operate twice.1
      let s₂ := (later.filterMap Later.without?).foldl operate once.1
      s₁.state.phase = s₂.state.phase ∧ s₁.view = s₂.view ∧ s₁.history = s₂.history ∧
        s₁.trash = s₂.trash ∧ s₁.lastError = s₂.lastError ∧ s₁.delivered = s₂.delivered ∧
        s₁.nextTicket = s₂.nextTicket + 1 ∧
        s₁.state.pending =
          s₂.state.pending.map fun p => ⟨p.ticket + 1, p.equation, p.samples⟩ := by
  intro twice once
  have htwice : twice = (once.1.postponed, once.2.map fun asked => (asked.1 + 1, asked.2)) :=
    beginSubmit_beginSubmit s text text'
  refine ⟨fun _ _ => ticket_of_beginSubmit, congrArg Prod.snd htwice, fun later => ?_⟩
  intro s₁ s₂
  have hrun : s₁ = s₂.postponed := by
    have hsince : once.1.Since s.nextTicket := since_beginSubmit s text'
    calc s₁ = (later.map (Later.withLost s.nextTicket)).foldl operate once.1.postponed := by
          simp only [s₁, htwice]
      _ = s₂.postponed := run_later hsince later
  rw [hrun]
  exact ⟨rfl, rfl, rfl, rfl, rfl, rfl, rfl, rfl⟩

end Session

end Univariate
