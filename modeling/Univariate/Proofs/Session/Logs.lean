import Univariate.Proofs.Computation
import Univariate.Proofs.Session.Operations

/-!
# The two logs

History and trash only grow.  A call adds one record to one of them or
nothing at all, and what it adds is what the listener of that log is
given.  A result that is thrown away is a result that was shown: while it
is on display, one record of the history has not been paid for by the
trash, and discarding pays for it.

* `Session.Adds` — what a run adds to the logs, and what the listeners get
  of it;
* `Session.adds_step`, `Session.adds_run` — one call, and any number;
* `Session.Covered` — the trash, with the result on display, is covered by
  the history;
* `Session.logs_append_only` — the logs in every state that a session can
  reach.
-/

namespace Univariate

/-- The record, if it went to the history. -/
def Delivery.history? : Delivery → Option Record
  | .history record => some record
  | .trash _ => none

/-- The record, if it went to the trash. -/
def Delivery.trash? : Delivery → Option Record
  | .history _ => none
  | .trash record => some record

namespace Session

/-- Someone listens to the log that the record goes to. -/
def hears (s : Session) : Delivery → Bool
  | .history _ => s.historyListener
  | .trash _ => s.trashListener

/-- Between two states the logs have grown by these records, the listeners
have been given the ones they hear, and nobody has come or gone. -/
structure Adds (s s' : Session) (entries : List Delivery) : Prop where
  history : s'.history = s.history ++ entries.filterMap Delivery.history?
  trash : s'.trash = s.trash ++ entries.filterMap Delivery.trash?
  delivered : s'.delivered = s.delivered ++ entries.filter s.hears
  historyListener : s'.historyListener = s.historyListener
  trashListener : s'.trashListener = s.trashListener

variable {settings : Settings} {s s' s'' : Session} {c : Call} {entries entries' : List Delivery}

/-! ## What is added -/

/-- Where no log and no listener changes, nothing was added. -/
theorem adds_nothing (hhistory : s'.history = s.history) (htrash : s'.trash = s.trash)
    (hdelivered : s'.delivered = s.delivered)
    (hlisteners : s'.historyListener = s.historyListener ∧ s'.trashListener = s.trashListener) :
    Adds s s' [] where
  history := hhistory.trans (List.append_nil _).symm
  trash := htrash.trans (List.append_nil _).symm
  delivered := hdelivered.trans (List.append_nil _).symm
  historyListener := hlisteners.1
  trashListener := hlisteners.2

theorem Adds.hears_eq (h : Adds s s' entries) : s'.hears = s.hears := by
  funext entry
  cases entry with
  | history record => exact h.historyListener
  | trash record => exact h.trashListener

/-- One piece of work after another adds the records of both. -/
theorem Adds.trans (h : Adds s s' entries) (h' : Adds s' s'' entries') :
    Adds s s'' (entries ++ entries') where
  history := by rw [h'.history, h.history, List.filterMap_append, List.append_assoc]
  trash := by rw [h'.trash, h.trash, List.filterMap_append, List.append_assoc]
  delivered := by
    rw [h'.delivered, h.delivered, h.hears_eq, List.filter_append, List.append_assoc]
  historyListener := h'.historyListener.trans h.historyListener
  trashListener := h'.trashListener.trans h.trashListener

/-- Every record goes to one of the two logs. -/
theorem length_filterMap_add (entries : List Delivery) :
    (entries.filterMap Delivery.history?).length + (entries.filterMap Delivery.trash?).length =
      entries.length := by
  induction entries with
  | nil => rfl
  | cons entry entries ih =>
      cases entry <;>
        simp only [List.filterMap_cons, Delivery.history?, Delivery.trash?, List.length_cons] <;>
        omega

/-- The logs have grown by as many records as were added. -/
theorem Adds.length_eq (h : Adds s s' entries) :
    s'.history.length + s'.trash.length =
      s.history.length + s.trash.length + entries.length := by
  rw [h.history, h.trash, List.length_append, List.length_append, ← length_filterMap_add entries]
  omega

/-- A record by itself is heard or not. -/
theorem filter_hears_singleton (s : Session) (entry : Delivery) :
    [entry].filter s.hears = if s.hears entry then [entry] else [] := by
  rw [List.filter_singleton, cond_eq_ite]

/-- **One call adds one record at most.** -/
theorem adds_step (hstep : Step s c s') :
    ∃ entries : List Delivery, entries.length ≤ 1 ∧ Adds s s' entries := by
  cases hstep with
  | refuse hsamples => exact ⟨[], Nat.zero_le _, adds_nothing rfl rfl rfl ⟨rfl, rfl⟩⟩
  | ask hsamples => exact ⟨[], Nat.zero_le _, adds_nothing rfl rfl rfl ⟨rfl, rfl⟩⟩
  | @settle p hp r =>
      refine ⟨[.history (Lifecycle.resultOf p r).record], le_rfl, rfl, (List.append_nil _).symm,
        ?_, rfl, rfl⟩
      rw [filter_hears_singleton]
      rfl
  | fail hp error => exact ⟨[], Nat.zero_le _, adds_nothing rfl rfl rfl ⟨rfl, rfl⟩⟩
  | stale hstale => exact ⟨[], Nat.zero_le _, adds_nothing rfl rfl rfl ⟨rfl, rfl⟩⟩
  | @discard record hrecord =>
      refine ⟨[.trash record], le_rfl, (List.append_nil _).symm, rfl, ?_, rfl, rfl⟩
      rw [filter_hears_singleton]
      rfl
  | nothing hnothing => exact ⟨[], Nat.zero_le _, adds_nothing rfl rfl rfl ⟨rfl, rfl⟩⟩

/-- **A run adds what its calls add**, in that order. -/
theorem adds_run (s : Session) (calls : List Call) : ∃ entries, Adds s (s.run calls) entries := by
  induction calls generalizing s with
  | nil => exact ⟨[], adds_nothing rfl rfl rfl ⟨rfl, rfl⟩⟩
  | cons c calls ih =>
      obtain ⟨first, -, hfirst⟩ := adds_step (s.step_call c)
      obtain ⟨later, hlater⟩ := ih (s.call c)
      exact ⟨first ++ later, hfirst.trans hlater⟩

/-- **Every operation only adds to the logs.** -/
theorem adds_operate (s : Session) (o : Operation) : ∃ entries, Adds s (s.operate o) entries := by
  obtain ⟨calls, hcalls⟩ := s.operate_eq_run o
  rw [hcalls]
  exact adds_run s calls

/-! ## The listeners -/

/-- The listeners are these, and each has been given its log, all of it and
in order. -/
structure Heard (history trash : Bool) (s : Session) : Prop where
  historyListener : s.historyListener = history
  trashListener : s.trashListener = trash
  toHistory : s.delivered.filterMap Delivery.history? = if history then s.history else []
  toTrash : s.delivered.filterMap Delivery.trash? = if trash then s.trash else []

/-- At the start nothing is in the logs, and nothing has been heard. -/
theorem heard_listening (settings : Settings) (history trash : Bool) :
    (listening settings history trash).Heard history trash :=
  ⟨rfl, rfl, (ite_self _).symm, (ite_self _).symm⟩

/-- Of the records that are heard, those of one log are all of them if
there is a listener to it, and none otherwise. -/
theorem filterMap_filter_hears (s : Session) (entries : List Delivery) :
    (entries.filter s.hears).filterMap Delivery.history? =
        (if s.historyListener then entries.filterMap Delivery.history? else []) ∧
      (entries.filter s.hears).filterMap Delivery.trash? =
        if s.trashListener then entries.filterMap Delivery.trash? else [] := by
  induction entries with
  | nil => exact ⟨(ite_self _).symm, (ite_self _).symm⟩
  | cons entry entries ih =>
      obtain ⟨hhistory, htrash⟩ := ih
      cases entry with
      | history record =>
          cases h : s.historyListener <;>
            simp [List.filterMap_cons, hears, Delivery.history?, Delivery.trash?, hhistory, htrash,
              h]
      | trash record =>
          cases h : s.trashListener <;>
            simp [List.filterMap_cons, hears, Delivery.history?, Delivery.trash?, hhistory, htrash,
              h]

/-- **Every call keeps the listeners informed.** -/
theorem Heard.step {history trash : Bool} (h : s.Heard history trash) (hstep : Step s c s') :
    s'.Heard history trash := by
  obtain ⟨entries, -, hadds⟩ := adds_step hstep
  obtain ⟨hhistory, htrash⟩ := filterMap_filter_hears s entries
  refine ⟨hadds.historyListener.trans h.historyListener,
    hadds.trashListener.trans h.trashListener, ?_, ?_⟩
  · rw [hadds.delivered, hadds.history, List.filterMap_append, h.toHistory, hhistory,
      h.historyListener]
    split_ifs <;> rfl
  · rw [hadds.delivered, hadds.trash, List.filterMap_append, h.toTrash, htrash, h.trashListener]
    split_ifs <;> rfl

/-! ## What was thrown away had been shown -/

/-- The records of the results in the trash. -/
def trashedResults (s : Session) : Multiset Record :=
  ((s.trash.filter fun record => record.roots.isSome : List Record) : Multiset Record)

/-- The record of the result on display, if there is one. -/
def displayed (s : Session) : Multiset Record :=
  ((s.state.active?.map Result.record).toList : Multiset Record)

/-- The results in the trash and the one on display are among the results
of the history, each as often as it occurs. -/
def Covered (s : Session) : Prop :=
  s.trashedResults + s.displayed ≤ (s.history : Multiset Record)

/-- Remembering a text takes no result from the display. -/
theorem active?_remember (text : String) (phase : Phase) (pending : Option Pending) :
    (⟨Lifecycle.remember text phase, pending⟩ : Lifecycle).active? =
      (⟨phase, pending⟩ : Lifecycle).active? := by
  cases phase <;> rfl

/-- What is on display is what discarding would throw away, unless that is
a text without a result. -/
theorem displayed_of_discardable {record : Record}
    (h : Lifecycle.discardable? s.state.phase = some record) :
    (([record].filter fun record => record.roots.isSome : List Record) : Multiset Record) =
      s.displayed := by
  unfold displayed Lifecycle.active?
  cases hphase : s.state.phase with
  | active result =>
      rw [hphase] at h
      cases h
      rfl
  | idle remembered =>
      rw [hphase] at h
      obtain ⟨text, -, rfl⟩ := Option.map_eq_some_iff.mp h
      rfl

/-- **Every call keeps the trash covered.**  A new result pays for itself,
and a discard moves what is on display. -/
theorem Covered.step (h : s.Covered) (hstep : Step s c s') : s'.Covered := by
  cases hstep with
  | refuse hsamples =>
      rw [Covered, displayed, active?_remember]
      exact h
  | ask hsamples =>
      rw [Covered, displayed, active?_remember]
      exact h
  | @settle p hp r =>
      have htrash : s.trashedResults ≤ (s.history : Multiset Record) :=
        (Multiset.le_add_right _ _).trans h
      calc s.trashedResults + {(Lifecycle.resultOf p r).record}
          ≤ (s.history : Multiset Record) + {(Lifecycle.resultOf p r).record} := by gcongr
        _ = ((s.history ++ [(Lifecycle.resultOf p r).record] : List Record) : Multiset Record) :=
            Multiset.coe_add _ _
  | fail hp error => exact h
  | stale hstale => exact h
  | @discard record hrecord =>
      have hmoved :
          (((s.trash ++ [record]).filter fun record => record.roots.isSome : List Record) :
            Multiset Record) = s.trashedResults + s.displayed := by
        rw [← displayed_of_discardable hrecord, List.filter_append]
        exact (Multiset.coe_add _ _).symm
      calc ((((s.trash ++ [record]).filter fun record => record.roots.isSome : List Record) :
            Multiset Record) + 0)
          = s.trashedResults + s.displayed := by rw [hmoved, add_zero]
        _ ≤ (s.history : Multiset Record) := h
  | nothing hnothing => exact h

/-- The history grows only when a result comes on display, by its record. -/
theorem history_step (hstep : Step s c s') :
    s'.history = s.history ∨
      ∃ r, s'.state.phase = .active r ∧ s'.history = s.history ++ [r.record] := by
  cases hstep with
  | settle hp r => exact Or.inr ⟨_, rfl, rfl⟩
  | refuse hsamples => exact Or.inl rfl
  | ask hsamples => exact Or.inl rfl
  | fail hp error => exact Or.inl rfl
  | stale hstale => exact Or.inl rfl
  | discard hrecord => exact Or.inl rfl
  | nothing hnothing => exact Or.inl rfl

/-- A discard that succeeds leaves nothing behind. -/
theorem state_of_discard (h : s.discard = .ok s') : s'.state = .initial := by
  cases hrecord : Lifecycle.discardable? s.state.phase with
  | none =>
      rw [discard_of_none hrecord] at h
      cases h
  | some record =>
      rw [discard_of_some hrecord] at h
      cases h
      rfl

/-- **The logs**, after operations of every kind in every order, whatever
the solvers answer.  What was in a log stays in it, in its place; a single
call adds one record at most to both together, and to the history only the
record of a result that comes on display; each listener has been given its
log, all of it and in order.  The results in the trash are among those in
the history, each no more often than it was shown, and a discard that
succeeds leaves a form that remembers nothing and waits for nothing. -/
theorem logs_append_only (settings : Settings) (history trash : Bool)
    (operations : List Operation) :
    let s := operations.foldl operate (listening settings history trash)
    (∀ o, s.history <+: (s.operate o).history ∧ s.trash <+: (s.operate o).trash ∧
      s.delivered <+: (s.operate o).delivered) ∧
    (∀ c, (s.call c).history.length + (s.call c).trash.length ≤
      s.history.length + s.trash.length + 1) ∧
    (∀ c, (s.call c).history = s.history ∨
      ∃ r, (s.call c).state.phase = .active r ∧ (s.call c).history = s.history ++ [r.record]) ∧
    s.delivered.filterMap Delivery.history? = (if history then s.history else []) ∧
    s.delivered.filterMap Delivery.trash? = (if trash then s.trash else []) ∧
    ((s.trash.filter fun record => record.roots.isSome : List Record) : Multiset Record) ≤
      (s.history : Multiset Record) ∧
    ∀ s', s.discard = .ok s' → s'.state.phase = .idle none ∧ s'.state.pending = none := by
  intro s
  -- The invariants are those of the calls that the operations consist of.
  have hcovered : s.Covered := operations_invariant Covered.step (Multiset.zero_le _) operations
  have hheard : s.Heard history trash :=
    operations_invariant Heard.step (heard_listening settings history trash) operations
  refine ⟨fun o => ?_, fun c => ?_, fun c => history_step (s.step_call c), hheard.toHistory,
    hheard.toTrash, (Multiset.le_add_right _ _).trans hcovered, fun s' hs' => ?_⟩
  · obtain ⟨entries, hadds⟩ := adds_operate s o
    exact ⟨⟨_, hadds.history.symm⟩, ⟨_, hadds.trash.symm⟩, ⟨_, hadds.delivered.symm⟩⟩
  · obtain ⟨entries, hlength, hadds⟩ := adds_step (s.step_call c)
    have hgrown := hadds.length_eq
    omega
  · rw [state_of_discard hs']
    exact ⟨rfl, rfl⟩

end Session

end Univariate
