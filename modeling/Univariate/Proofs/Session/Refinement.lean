import Univariate.Proofs.Failures
import Univariate.Proofs.Session.Logs

/-!
# A submission is a solution

A session checks a text on its own before it asks a solver, and the solver
of this library reads and expands the text once more.  The two agree: what
a submission comes to is what solving the text comes to, whatever has been
done with the session before.

* `Session.submitTo` — a submission to a solver with effects of its own,
  so that its calls can be counted;
* `Session.run_submitTo_recorded` — a submission asks its solver what it
  says it asked, and nothing else;
* `Session.submit_of_error`, `Session.submit_of_ok` — submissions to any
  solver, by the local checks;
* `Session.precheck_operations` — the local checks do not depend on what has
  been written into the form before;
* `Session.submit_refines_solve` — submissions to the solver of this
  library.
-/

namespace Univariate

/-- A text that has no normal form has no curve, for the same reason. -/
theorem Settings.samples_of_error {settings : Settings} {text : String} {e : Error}
    (h : settings.normalForm text = .error e) : settings.samples text = .error e := by
  rw [samples, h]
  rfl

/-- A text that has a normal form has a curve. -/
theorem Settings.exists_samples {settings : Settings} {text : String} {p : NormalForm Float}
    (h : settings.normalForm text = .ok p) : ∃ samples, settings.samples text = .ok samples := by
  obtain ⟨e, hparse, -⟩ := bind_eq_ok h
  refine ⟨.ofExpr e.fold, ?_⟩
  rw [samples, h, hparse]
  rfl

/-- A text that has no normal form has no solution either, for the same
reason. -/
theorem Settings.solve_of_error {settings : Settings} {text : String} {e : Error}
    (h : settings.normalForm text = .error e) : settings.solve text = .error e := by
  rw [solve, h]
  rfl

/-- A text that has a normal form fails in solving, and not locally. -/
theorem Settings.isLocal_eq_false_of_solve {settings : Settings} {text : String}
    {p : NormalForm Float} {e : Error} (hnormal : settings.normalForm text = .ok p)
    (h : settings.solve text = .error e) : e.isLocal = false := by
  have hsolve : Solution.ofNormalForm p settings.solver = .error e := by
    rw [solve, hnormal] at h
    exact h
  exact (Solution.yields_of_ofNormalForm p settings.solver).isLocal_eq_false hsolve

namespace Session

/-! ## Counting calls -/

/-- Submits a text to a solver with effects of its own. -/
def submitTo {m : Type → Type} [Monad m] (s : Session) (solver : Request → m Reply)
    (text : String) : m Submission := do
  let (s, call) := beginSubmit { s with lastError := none } text
  match call with
  | none => return ⟨s, s.lastError, none⟩
  | some (ticket, request) =>
    let reply ← solver request
    let s := s.resolve ticket reply.outcome
    return ⟨s, s.lastError, some request⟩

/-- The same solver, writing down what it is asked. -/
def recorded (solver : Request → Reply) (request : Request) : StateM (List Request) Reply := do
  modify (· ++ [request])
  return solver request

/-- **What a submission says it asked** is what its solver has been asked. -/
theorem run_submitTo_recorded (s : Session) (solver : Request → Reply) (text : String)
    (asked : List Request) :
    (s.submitTo (recorded solver) text).run asked =
      (s.submit solver text, asked ++ (s.submit solver text).asked.toList) := by
  unfold submitTo submit
  rcases beginSubmit { s with lastError := none } text with ⟨begun, _ | ⟨ticket, request⟩⟩
  · exact congrArg (Prod.mk _) (List.append_nil asked).symm
  · rfl

/-! ## Submissions by the local checks -/

variable {s : Session} {settings : Settings} {text : String}

/-- A text that fails the local checks is not sent to any solver. -/
theorem submit_of_error {e : Error} (h : s.precheck text = .error e)
    (solver : Request → Reply) :
    s.submit solver text =
      ⟨{ (s.entered text).surface e with
          state := ⟨Lifecycle.remember text s.state.phase, none⟩ }, some e, none⟩ := by
  rw [submit, beginSubmit_forget, beginSubmit_of_error h]
  rfl

/-- The session that waits for the answer to a text. -/
def asking (s : Session) (text : String) (samples : Samples) : Session :=
  { s.entered text with
    state := ⟨Lifecycle.remember text s.state.phase, some ⟨s.nextTicket, text, samples⟩⟩ }

/-- A text that passes the local checks is sent to the solver as it is. -/
theorem submit_of_ok {samples : Samples} (h : s.precheck text = .ok samples)
    (solver : Request → Reply) :
    s.submit solver text =
      let answered := (s.asking text samples).resolve s.nextTicket (solver ⟨text⟩).outcome
      ⟨answered, answered.lastError, some ⟨text⟩⟩ := by
  rw [submit, beginSubmit_forget, beginSubmit_of_ok h]
  rfl

/-- The answer to the question just asked is not stale. -/
theorem resolve_asking (s : Session) (text : String) (samples : Samples)
    (outcome : Except Error Response) :
    (s.asking text samples).resolve s.nextTicket outcome =
      (s.asking text samples).apply
        ((s.asking text samples).state.settle ⟨s.nextTicket, text, samples⟩ outcome) :=
  resolve_of_pending (p := ⟨s.nextTicket, text, samples⟩) rfl outcome

/-! ## The solver of this library -/

/-- What a submission to the solver of this library leaves behind. -/
structure Presents (s : Session) (text : String) (response : Response)
    (submission : Submission) : Prop where
  error : submission.error = none
  history : submission.session.history =
    s.history ++ [⟨text, some response.roots, some response.factorization,
      response.identicallyZero⟩]
  equation : submission.session.view.equation = text
  roots : submission.session.view.roots = some response.roots
  factorization : submission.session.view.factorization = some response.factorization
  identicallyZero : submission.session.view.identicallyZero = response.identicallyZero
  noError : submission.session.view.error = none

/-- An error is surfaced, and no record is written. -/
structure Reports (s : Session) (e : Error) (submission : Submission) : Prop where
  error : submission.error = some e
  message : submission.session.view.error = some e.userMessage
  history : submission.session.history = s.history

/-- **A text that cannot be sampled** is reported, and the solver is not
asked. -/
theorem reports_of_error {e : Error} (h : s.precheck text = .error e)
    (solver : Request → Reply) :
    Reports s e (s.submit solver text) ∧ (s.submit solver text).asked = none := by
  rw [submit_of_error h solver]
  exact ⟨⟨rfl, rfl, rfl⟩, rfl⟩

/-- **A failure of the solver** is reported. -/
theorem reports_of_failure {samples : Samples} {e : Error}
    (h : s.precheck text = .ok samples) {solver : Request → Reply}
    (hfails : (solver ⟨text⟩).outcome = .error e) : Reports s e (s.submit solver text) := by
  rw [submit_of_ok h, hfails, resolve_asking]
  exact ⟨rfl, rfl, rfl⟩

/-- **An answer of the solver** is presented. -/
theorem presents_of_answer {samples : Samples} {response : Response}
    (h : s.precheck text = .ok samples) {solver : Request → Reply}
    (hanswers : (solver ⟨text⟩).outcome = .ok response) :
    Presents s text response (s.submit solver text) := by
  rw [submit_of_ok h, hanswers, resolve_asking]
  exact ⟨rfl, rfl, rfl, rfl, rfl, rfl, rfl⟩

/-- The local solver answers with what the settings make of the text. -/
theorem outcome_localSolver (settings : Settings) (text : String) :
    (localSolver settings ⟨text⟩).outcome =
      settings.solve text >>= fun solution => .ok (.ofSolution solution settings.name) := rfl

/-- Whatever has been done with a session, a text is checked under its
settings: neither an earlier text in the slot nor an answer makes a
difference. -/
theorem precheck_operations (settings : Settings) (history trash : Bool)
    (operations : List Operation) (text : String) :
    (operations.foldl operate (listening settings history trash)).precheck text =
      settings.samples text :=
  precheck_of_follows
    (operations_invariant (fun h hstep => hstep.follows h) (Worksheet.follows_empty settings)
      operations) text

/-- **A submission is a solution.**  Whatever has been done with a session,
a text that cannot be read or expanded is refused without a call of the
solver, with the error that solving it has; any other text is sent to the
solver once and as it is, and the submission then fails with the error of
the solution, or writes one record and shows the texts of the solution.  So
the error that a submission surfaces is a local one exactly when no solver
has been called. -/
theorem submit_refines_solve (settings : Settings) (history trash : Bool)
    (operations : List Operation) (text : String) :
    let s := operations.foldl operate (listening settings history trash)
    ∃ submission requests,
      (s.submitTo (recorded (localSolver settings)) text).run [] = (submission, requests) ∧
      submission = s.submit (localSolver settings) text ∧
      (∀ e, settings.normalForm text = .error e →
        requests = [] ∧ settings.solve text = .error e) ∧
      (∀ p, settings.normalForm text = .ok p → requests = [⟨text⟩]) ∧
      (∀ e, settings.solve text = .error e → Reports s e submission) ∧
      (∀ solution, settings.solve text = .ok solution →
        Presents s text
          ⟨solution.rootTexts, solution.factorizationText settings.name,
            solution.isIdenticallyZero⟩ submission) ∧
      ((∃ e, submission.error = some e ∧ e.isLocal = true) ↔ requests = []) := by
  intro s
  have hprecheck : s.precheck text = settings.samples text :=
    precheck_operations settings history trash operations text
  refine ⟨_, _, run_submitTo_recorded s _ text [], rfl, ?_⟩
  rw [List.nil_append]
  cases hnormal : settings.normalForm text with
  | error e =>
      have hrefused : s.precheck text = .error e :=
        hprecheck.trans (settings.samples_of_error hnormal)
      obtain ⟨hreports, hasked⟩ := reports_of_error hrefused (localSolver settings)
      have hlocal : e.isLocal = true := settings.failsLocally_normalForm text e hnormal
      rw [hasked, settings.solve_of_error hnormal]
      refine ⟨fun e' he' => ⟨rfl, Except.error.inj he' ▸ rfl⟩, nofun, fun e' he' => ?_, nofun, ?_⟩
      · obtain rfl := Except.error.inj he'
        exact hreports
      · exact ⟨fun _ => rfl, fun _ => ⟨e, hreports.error, hlocal⟩⟩
  | ok p =>
      obtain ⟨samples, hsamples⟩ := settings.exists_samples hnormal
      rw [← hprecheck] at hsamples
      have hasked : (s.submit (localSolver settings) text).asked = some ⟨text⟩ := by
        rw [submit_of_ok hsamples]
      have houtcome := outcome_localSolver settings text
      rw [hasked]
      refine ⟨nofun, fun _ _ => rfl, fun e he => ?_, fun solution hsolution => ?_, ?_, nofun⟩
      · rw [he] at houtcome
        exact reports_of_failure hsamples houtcome
      · rw [hsolution] at houtcome
        exact presents_of_answer hsamples houtcome
      · rintro ⟨e, he, hlocal⟩
        -- Whatever went wrong went wrong in solving.
        cases hs : settings.solve text with
        | ok solution =>
            rw [hs] at houtcome
            rw [(presents_of_answer hsamples houtcome).error] at he
            cases he
        | error fault =>
            rw [hs] at houtcome
            rw [(reports_of_failure hsamples houtcome).error] at he
            obtain rfl := Option.some.inj he
            rw [Settings.isLocal_eq_false_of_solve hnormal hs] at hlocal
            cases hlocal

end Session

end Univariate
