import Univariate.Proofs.Session.Operations

/-!
# Tickets

Answers may arrive in any order, more than once, under numbers that were
never issued, and after the form has moved on.  Only one answer counts:
the first one to the ticket that the most recent submission was given, if
nothing has been discarded since.  Every other answer changes nothing at
all.

* `Session.Awaited` — the ticket of the most recent submission, with
  neither a discard nor an answer to it since;
* `Session.awaited_iff_waitingFor` — the session waits for exactly this one;
* `Session.nextTicket_run` — how many tickets a run takes;
* `Session.log` — the tickets behind the history;
* `Session.earliest`, `Session.log_run` — they ascend;
* `Session.history_by_tickets` — which answers reach the history, and in
  which order.
-/

namespace Univariate

namespace Session

/-- After this call an answer to a ticket does not count. -/
def Call.Ends (ticket : ℕ) : Call → Prop
  | .beginSubmit _ => True
  | .resolve other _ => other = ticket
  | .discard => True

/-- The most recent submission was of this text and was given this ticket,
and there was neither a discard nor an answer to it since. -/
def Awaited (settings : Settings) (calls : List Call) (ticket : ℕ) (text : String) : Prop :=
  ∃ before after request, calls = before ++ .beginSubmit text :: after ∧
    (((start settings).run before).beginSubmit text).2 = some (ticket, request) ∧
    ∀ c ∈ after, ¬c.Ends ticket

/-- What a call adds to the history, with the ticket of the answer. -/
def logged (s : Session) : Call → List (ℕ × Record)
  | .resolve ticket outcome =>
    ((s.resolve ticket outcome).history.drop s.history.length).map fun record =>
      (ticket, record)
  | _ => []

/-- What a run adds to the history, with the tickets of the answers. -/
def log (s : Session) : List Call → List (ℕ × Record)
  | [] => []
  | c :: calls => s.logged c ++ (s.call c).log calls

/-- A text is entered. -/
def Call.isSubmission : Call → Bool
  | .beginSubmit _ => true
  | .resolve _ _ => false
  | .discard => false

variable {settings : Settings} {s s' : Session} {c : Call} {ticket : ℕ} {text : String}

/-! ## What is waited for -/

/-- A form that remembers nothing waits for nothing. -/
def Remembers (s : Session) : Prop :=
  Lifecycle.discardable? s.state.phase = none → s.state.pending = none

/-- Every text that is entered is remembered. -/
theorem discardable_remember (text : String) (phase : Phase) :
    Lifecycle.discardable? (Lifecycle.remember text phase) ≠ none := by
  cases phase <;> exact Option.some_ne_none _

/-- What waits is remembered after every call. -/
theorem Remembers.step (h : s.Remembers) (hstep : Step s c s') : s'.Remembers := by
  cases hstep with
  | refuse hsamples => exact fun hnone => absurd hnone (discardable_remember _ _)
  | ask hsamples => exact fun hnone => absurd hnone (discardable_remember _ _)
  | settle hp r => exact fun _ => rfl
  | fail hp error => exact fun _ => rfl
  | stale hstale => exact h
  | discard hrecord => exact fun _ => rfl
  | nothing hnothing => exact h

/-- The ticket and the text that are waited for. -/
def waitingFor (s : Session) : Option (ℕ × String) :=
  s.state.pending.map fun p => (p.ticket, p.equation)

theorem ticket_of_waitingFor {p : Pending} (hp : s.state.pending = some p)
    (h : s.waitingFor = some (ticket, text)) : p.ticket = ticket := by
  rw [waitingFor, hp] at h
  cases h
  rfl

/-- Nothing is waited for after a call that has sent nothing out and that
has ended what was waited for. -/
theorem waitingFor_iff_of_none (hnone : s'.waitingFor = none)
    (hsends : ∀ request, (s.beginSubmit text).2 = some (ticket, request) → c ≠ .beginSubmit text)
    (hends : s.waitingFor = some (ticket, text) → c.Ends ticket) :
    s'.waitingFor = some (ticket, text) ↔
      (c = .beginSubmit text ∧ ∃ request, (s.beginSubmit text).2 = some (ticket, request)) ∨
        (s.waitingFor = some (ticket, text) ∧ ¬c.Ends ticket) := by
  rw [hnone]
  refine iff_of_false nofun fun hor => ?_
  rcases hor with ⟨hcall, request, hrequest⟩ | ⟨hwaiting, hwaits⟩
  · exact hsends request hrequest hcall
  · exact hwaits (hends hwaiting)

/-- What is waited for after one call more: what it has just sent out, or
what was waited for before, unless the call ends that. -/
theorem waitingFor_step (h : s.Remembers) (hstep : Step s c s') :
    s'.waitingFor = some (ticket, text) ↔
      (c = .beginSubmit text ∧ ∃ request, (s.beginSubmit text).2 = some (ticket, request)) ∨
        (s.waitingFor = some (ticket, text) ∧ ¬c.Ends ticket) := by
  cases hstep with
  | refuse hsamples =>
      refine waitingFor_iff_of_none rfl (fun request hrequest hcall => ?_) fun _ => trivial
      cases hcall
      rw [beginSubmit_of_error hsamples] at hrequest
      cases hrequest
  | @ask text' samples hsamples =>
      constructor
      · intro hwaiting
        cases hwaiting
        refine Or.inl ⟨rfl, ⟨text'⟩, ?_⟩
        rw [beginSubmit_of_ok hsamples]
      · intro hor
        rcases hor with ⟨hcall, request, hrequest⟩ | ⟨-, hends⟩
        · cases hcall
          rw [beginSubmit_of_ok hsamples] at hrequest
          cases hrequest
          rfl
        · exact absurd trivial hends
  | settle hp r => exact waitingFor_iff_of_none rfl nofun (ticket_of_waitingFor hp)
  | fail hp error => exact waitingFor_iff_of_none rfl nofun (ticket_of_waitingFor hp)
  | stale hstale =>
      constructor
      · intro hwaiting
        obtain ⟨p, hp, hpair⟩ := Option.map_eq_some_iff.mp hwaiting
        cases hpair
        exact Or.inr ⟨hwaiting, fun hticket => hstale p hp hticket.symm⟩
      · intro hor
        rcases hor with ⟨hcall, -⟩ | ⟨hwaiting, -⟩
        · cases hcall
        · exact hwaiting
  | discard hrecord => exact waitingFor_iff_of_none rfl nofun fun _ => trivial
  | nothing hnothing =>
      -- A discard ends every wait, and one that fails had none to end.
      have hnone : s.waitingFor = none := by rw [waitingFor, h hnothing, Option.map_none]
      exact waitingFor_iff_of_none hnone nofun fun _ => trivial

/-- **The last call decides**: it is the submission, or the ticket was awaited
before it and the call does not end that. -/
theorem awaited_concat {calls : List Call} :
    Awaited settings (calls ++ [c]) ticket text ↔
      (c = .beginSubmit text ∧
        ∃ request, (((start settings).run calls).beginSubmit text).2 = some (ticket, request)) ∨
      (Awaited settings calls ticket text ∧ ¬c.Ends ticket) := by
  constructor
  · intro hawaited
    obtain ⟨before, after, request, hcalls, hrequest, hafter⟩ := hawaited
    rcases List.eq_nil_or_concat after with rfl | ⟨after, last, rfl⟩
    · obtain ⟨rfl, hc⟩ := List.append_inj' hcalls rfl
      exact Or.inl ⟨List.singleton_inj.mp hc, request, hrequest⟩
    · rw [List.concat_eq_append, ← List.cons_append, ← List.append_assoc] at hcalls
      obtain ⟨rfl, hc⟩ := List.append_inj' hcalls rfl
      obtain rfl := List.singleton_inj.mp hc
      rw [List.concat_eq_append] at hafter
      exact Or.inr ⟨⟨before, after, request, rfl, hrequest,
        fun other hother => hafter other (List.mem_append_left _ hother)⟩,
        hafter c (List.mem_append_right _ List.mem_cons_self)⟩
  · intro hor
    rcases hor with
      ⟨rfl, request, hrequest⟩ | ⟨⟨before, after, request, rfl, hrequest, hafter⟩, hends⟩
    · exact ⟨calls, [], request, rfl, hrequest, nofun⟩
    · refine ⟨before, after ++ [c], request, by simp, hrequest, ?_⟩
      intro other hother
      rcases List.mem_append.mp hother with hother | hother
      · exact hafter other hother
      · exact List.mem_singleton.mp hother ▸ hends

/-- **The session waits for exactly the awaited ticket.** -/
theorem awaited_iff_waitingFor (calls : List Call) :
    Awaited settings calls ticket text ↔
      ((start settings).run calls).waitingFor = some (ticket, text) := by
  induction calls using List.reverseRecOn with
  | nil =>
      refine iff_of_false (fun hawaited => ?_) nofun
      obtain ⟨before, after, request, hcalls, -⟩ := hawaited
      exact absurd hcalls.symm (List.append_ne_nil_of_right_ne_nil _ (List.cons_ne_nil _ _))
  | append_singleton calls c ih =>
      have hremembers : ((start settings).run calls).Remembers :=
        run_invariant Remembers.step (fun _ => rfl) calls
      rw [awaited_concat, ih, run_append]
      exact (waitingFor_step hremembers (step_call _ c)).symm

/-! ## The count -/

/-- One call takes a ticket if it is a submission, and none otherwise. -/
theorem nextTicket_step (hstep : Step s c s') :
    s'.nextTicket = s.nextTicket + [c].countP Call.isSubmission := by
  cases hstep <;> rfl

/-- **A run takes as many tickets as it has submissions.**  A counter of any
fixed width shows the same ones while it has room for these. -/
theorem nextTicket_run (s : Session) (calls : List Call) :
    (s.run calls).nextTicket = s.nextTicket + calls.countP Call.isSubmission := by
  induction calls generalizing s with
  | nil => rfl
  | cons c calls ih =>
      rw [run_cons, ih, nextTicket_step (s.step_call c), add_assoc, ← List.countP_append]
      rfl

/-! ## The log -/

/-- The first ticket an answer to which may still reach the history. -/
def earliest (s : Session) : ℕ :=
  match s.state.pending with
  | some p => p.ticket
  | none => s.nextTicket

/-- What waits has been issued. -/
def Issued (s : Session) : Prop := ∀ p, s.state.pending = some p → p.ticket < s.nextTicket

theorem Issued.earliest_le (h : s.Issued) : s.earliest ≤ s.nextTicket := by
  unfold earliest
  cases hp : s.state.pending with
  | none => exact le_rfl
  | some p => exact (h p hp).le

/-- Every call waits for issued tickets only. -/
theorem Issued.step (h : s.Issued) (hstep : Step s c s') : s'.Issued := by
  cases hstep with
  | refuse hsamples => exact nofun
  | ask hsamples =>
      intro p hp
      cases hp
      exact Nat.lt_succ_self s.nextTicket
  | settle hp r => exact nofun
  | fail hp error => exact nofun
  | stale hstale => exact h
  | discard hrecord => exact nofun
  | nothing hnothing => exact h

/-- A call that adds nothing logs nothing. -/
theorem logged_eq_nil (h : (s.call c).history = s.history) : s.logged c = [] := by
  cases c with
  | beginSubmit text => rfl
  | resolve ticket outcome =>
      have hdrop : ((s.resolve ticket outcome).history.drop s.history.length) = [] := by
        rw [show (s.resolve ticket outcome).history = s.history from h, List.drop_length]
      rw [logged, hdrop, List.map_nil]
  | discard => rfl

/-- **One call** adds a record to the history only for the earliest ticket
that may still count, which then counts no more. -/
theorem logged_step (h : s.Issued) (hstep : Step s c s') (hcall : s.call c = s') :
    (s.logged c = [] ∧ s'.history = s.history ∧ s.earliest ≤ s'.earliest) ∨
      ∃ record, s.logged c = [(s.earliest, record)] ∧ s'.history = s.history ++ [record] ∧
        s.earliest < s'.earliest := by
  cases hstep with
  | refuse hsamples => exact Or.inl ⟨rfl, rfl, h.earliest_le.trans (Nat.le_succ _)⟩
  | ask hsamples => exact Or.inl ⟨rfl, rfl, h.earliest_le⟩
  | @settle p hp r =>
      have hearliest : s.earliest = p.ticket := by rw [earliest, hp]
      refine Or.inr ⟨(Lifecycle.resultOf p r).record, ?_, rfl, ?_⟩
      · have hdrop : (s.resolve p.ticket (.ok r)).history.drop s.history.length =
            [(Lifecycle.resultOf p r).record] := by
          rw [show s.resolve p.ticket (.ok r) = _ from hcall]
          exact List.drop_left
        rw [logged, hdrop, hearliest]
        rfl
      · rw [hearliest]
        exact h p hp
  | @fail p hp error =>
      have hearliest : s.earliest = p.ticket := by rw [earliest, hp]
      refine Or.inl ⟨logged_eq_nil (by rw [hcall]; rfl), rfl, ?_⟩
      rw [hearliest]
      exact (h p hp).le
  | stale hstale => exact Or.inl ⟨logged_eq_nil (by rw [hcall]), rfl, le_rfl⟩
  | discard hrecord => exact Or.inl ⟨rfl, rfl, h.earliest_le⟩
  | nothing hnothing => exact Or.inl ⟨rfl, rfl, le_rfl⟩

/-- **A run** adds to the history what it logs, for ascending tickets that
could still count when it began. -/
theorem log_run (h : s.Issued) (calls : List Call) :
    (s.run calls).history = s.history ++ (s.log calls).map Prod.snd ∧
      (∀ entry ∈ s.log calls, s.earliest ≤ entry.1) ∧
      ((s.log calls).map Prod.fst).Pairwise (· < ·) := by
  induction calls generalizing s with
  | nil => exact ⟨(List.append_nil _).symm, nofun, List.Pairwise.nil⟩
  | cons c calls ih =>
      obtain ⟨hhistory, hlater, hascending⟩ := ih (h.step (s.step_call c))
      rw [run_cons, log, hhistory]
      rcases logged_step h (s.step_call c) rfl with
        ⟨hlogged, hcall, hearliest⟩ | ⟨record, hlogged, hcall, hearliest⟩
      · rw [hlogged, hcall, List.nil_append]
        exact ⟨rfl, fun entry hentry => hearliest.trans (hlater entry hentry), hascending⟩
      · rw [hlogged, hcall, List.append_assoc]
        refine ⟨rfl, ?_, ?_⟩
        · intro entry hentry
          rcases List.mem_cons.mp hentry with rfl | hentry
          · exact le_rfl
          · exact hearliest.le.trans (hlater entry hentry)
        · refine List.pairwise_cons.mpr ⟨?_, hascending⟩
          intro ticket hticket
          obtain ⟨entry, hentry, rfl⟩ := List.mem_map.mp hticket
          exact hearliest.trans_le (hlater entry hentry)

/-! ## Answers -/

/-- **The awaited answer is recorded** with the text it was asked about. -/
theorem history_of_waitingFor (h : s.waitingFor = some (ticket, text)) (r : Response) :
    (s.resolve ticket (.ok r)).history =
      s.history ++ [⟨text, some r.roots, some r.factorization, r.identicallyZero⟩] := by
  obtain ⟨p, hp, hpair⟩ := Option.map_eq_some_iff.mp h
  obtain ⟨rfl, rfl⟩ := Prod.mk.inj hpair
  rw [resolve_of_pending hp]
  rfl

/-- Only an awaited answer changes the history. -/
theorem exists_waitingFor {outcome : Except Error Response}
    (h : (s.resolve ticket outcome).history ≠ s.history) :
    ∃ text, s.waitingFor = some (ticket, text) := by
  by_contra hno
  refine h (congrArg Session.history (resolve_stale (fun p hp hticket => hno ?_) outcome))
  refine ⟨p.equation, ?_⟩
  rw [waitingFor, hp, ← hticket]
  rfl

/-- **Tickets.**  After any calls, a result is added to the history exactly
when its ticket is the one of the most recent submission, with neither a
discard nor an answer to it since; the record has the text of that
submission.  An answer to any other ticket than the one waited for leaves
the whole session as it is.  The history therefore holds at most one record
for each ticket, by ascending tickets. -/
theorem history_by_tickets (settings : Settings) (calls : List Call) :
    let s := (start settings).run calls
    (∀ ticket r, (∃ record, (s.resolve ticket (.ok r)).history = s.history ++ [record]) ↔
      ∃ text, Awaited settings calls ticket text) ∧
    (∀ ticket text r, Awaited settings calls ticket text →
      (s.resolve ticket (.ok r)).history =
        s.history ++ [⟨text, some r.roots, some r.factorization, r.identicallyZero⟩]) ∧
    (∀ ticket outcome, (∀ p, s.state.pending = some p → p.ticket ≠ ticket) →
      s.resolve ticket outcome = s) ∧
    s.history = ((start settings).log calls).map Prod.snd ∧
    (((start settings).log calls).map Prod.fst).Pairwise (· < ·) := by
  intro s
  obtain ⟨hhistory, -, hascending⟩ := log_run (s := start settings) nofun calls
  refine ⟨fun ticket r => ⟨?_, ?_⟩, ?_, fun ticket outcome hstale => resolve_stale hstale outcome,
    hhistory, hascending⟩
  · intro hadded
    obtain ⟨record, hrecord⟩ := hadded
    have hgrown : (s.resolve ticket (.ok r)).history ≠ s.history := by
      rw [hrecord]
      exact fun h => List.cons_ne_nil _ _ (List.append_right_eq_self.mp h)
    obtain ⟨text, hwaiting⟩ := exists_waitingFor hgrown
    exact ⟨text, (awaited_iff_waitingFor calls).mpr hwaiting⟩
  · intro hissued
    obtain ⟨text, hawaited⟩ := hissued
    exact ⟨_, history_of_waitingFor ((awaited_iff_waitingFor calls).mp hawaited) r⟩
  · intro ticket text r hawaited
    exact history_of_waitingFor ((awaited_iff_waitingFor calls).mp hawaited) r

end Session

end Univariate
