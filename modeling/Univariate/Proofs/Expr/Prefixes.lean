import Univariate.Proofs.Expr.Completeness
import Univariate.Proofs.Expr.Sentences
import Univariate.Proofs.Expr.Soundness

/-!
# How far tokens are read

There are two reasons to stop.  A token cannot stand where it does; the
stage then has a place without successor, and no sentence goes on like
this.  Or a token arrives behind an exponent that is no natural number: any
token but a caret closes the exponent, and closing it fails whatever else
may be waiting on the stack.

Apart from these, reading goes on, and what has been read can always be
completed to a sentence.  So tokens are read to their end if, and only if,
they begin a sentence and no exponent has been closed that is refused.

* `Stage.place`, `Stage.step_cases` — what one token does;
* `Awaits.completes`, `Stage.Sound.viable` — what has been read begins a
  sentence;
* `ClosesBadExponent`, `Stage.exists_unwind_error` — closing an exponent
  that is refused;
* `Stage.Runs.step_error`, `Stage.Runs.finish_error` — why reading stops;
* `Stage.runs_iff` — how far tokens are read.
-/

namespace Univariate

variable {level : Level} {stack below : List Frame} {v t : Expr Float} {us vs ws : List Token}
  {token : Token} {s s' : Stage} {lexeme : Lexeme} {ls : List Lexeme} {error : Error}

/-! ## Places of stages -/

/-- How many parentheses are open on a stack. -/
def openDepth : List Frame → ℕ
  | [] => 0
  | .paren :: below => openDepth below + 1
  | _ :: below => openDepth below

/-- Only parentheses count for the depth of a stack. -/
theorem openDepth_cons {frame : Frame} (h : frame.level ≠ .paren) (below : List Frame) :
    openDepth (frame :: below) = openDepth below := by
  cases frame with
  | paren => exact absurd rfl h
  | _ => rfl

/-- Closing operators closes no parenthesis. -/
theorem openDepth_unwind (hlevel : level.rank < Level.paren.rank)
    (h : unwind level stack v = .ok (below, t)) : openDepth below = openDepth stack := by
  induction stack generalizing v with
  | nil =>
      obtain ⟨rfl, -⟩ := Prod.mk.inj (Except.ok.inj h)
      rfl
  | cons frame stack ih =>
      by_cases hrank : frame.level.rank ≤ level.rank
      · rw [unwind_cons _ v hrank] at h
        obtain ⟨e, -, h⟩ := bind_eq_ok h
        have hoperator : frame.level ≠ .paren := by
          intro hparen
          rw [hparen] at hrank
          exact absurd hlevel (not_lt.mpr hrank)
        rw [ih h, openDepth_cons hoperator]
      · rw [unwind_stop _ v (not_le.mp hrank)] at h
        obtain ⟨rfl, -⟩ := Prod.mk.inj (Except.ok.inj h)
        rfl

/-- Where a sum has been closed, only a parenthesis is left to wait. -/
theorem unwind_sum_cases (h : unwind .sum stack v = .ok (below, t)) :
    below = [] ∨ ∃ rest, below = .paren :: rest := by
  induction stack generalizing v with
  | nil => exact Or.inl (Prod.mk.inj (Except.ok.inj h)).1.symm
  | cons frame stack ih =>
      by_cases hrank : frame.level.rank ≤ Level.sum.rank
      · rw [unwind_cons _ v hrank] at h
        obtain ⟨e, -, h⟩ := bind_eq_ok h
        exact ih h
      · rw [unwind_stop _ v (not_le.mp hrank)] at h
        obtain ⟨rfl, -⟩ := Prod.mk.inj (Except.ok.inj h)
        cases frame with
        | paren => exact Or.inr ⟨stack, rfl⟩
        | power | exponentMinus | minus | product | sum => simp [Frame.level, Level.rank] at hrank

/-- The operators that a token closes when it stands behind an operand. -/
def Token.closes : Token → Level
  | .plus | .minus | .closeParen => .sum
  | _ => .product

/-- Every token closes products, or sums too. -/
theorem Token.closes_cases (token : Token) : token.closes = .product ∨ token.closes = .sum := by
  cases token <;> simp [closes]

/-- What a stage lets the next token be. -/
def Stage.place : Stage → Place
  | .operand stack => ⟨.operand, openDepth stack⟩
  | .exponent stack => ⟨.exponent, openDepth stack⟩
  | .atom stack _ => ⟨.nothing, openDepth stack⟩

/-- An answer to a token is the one that a place gives: on to the place
behind the token, or to the failure that names it. -/
def Place.Answers (p : Place) (lexeme : Lexeme) : Except Error Stage → Prop
  | .ok s => p.step lexeme.token = some s.place
  | .error error => p.step lexeme.token = none ∧
      error = .malformed lexeme.start (.unexpectedToken lexeme.token)

/-- Places that go on alike give the same answers. -/
theorem Place.Answers.congr {p q : Place} {r : Except Error Stage} (h : p.Answers lexeme r)
    (hstep : p.step lexeme.token = q.step lexeme.token) : q.Answers lexeme r := by
  cases r with
  | ok s => exact hstep.symm.trans h
  | error error => exact ⟨hstep.symm.trans h.1, h.2⟩

namespace Stage

/-- **Where an operand is expected**, the parser answers as its place does. -/
theorem answers_operand (stack : List Frame) (lexeme : Lexeme) :
    (operand stack).place.Answers lexeme ((operand stack).step lexeme) := by
  simp only [step]
  cases htoken : lexeme.token <;> simp [Place.Answers, refuse, htoken, place, Place.step, openDepth]

/-- **Where an exponent is expected**, the parser answers as its place does. -/
theorem answers_exponent (stack : List Frame) (lexeme : Lexeme) :
    (exponent stack).place.Answers lexeme ((exponent stack).step lexeme) := by
  simp only [step]
  cases htoken : lexeme.token <;> simp [Place.Answers, refuse, htoken, place, Place.step, openDepth]

/-- Behind an operand, once the operators in front of the token are
closed. -/
theorem answers_atom (htoken : lexeme.token ≠ .caret)
    (hunwind : unwind lexeme.token.closes stack v = .ok (below, t)) :
    (atom stack v).place.Answers lexeme ((atom stack v).step lexeme) := by
  have hdepth : openDepth below = openDepth stack := by
    refine openDepth_unwind ?_ hunwind
    rcases lexeme.token.closes_cases with h | h <;> rw [h] <;> decide
  rw [place, ← hdepth]
  have hok {s : Stage} (hstep : (atom stack v).step lexeme = .ok s)
      (hplace : Place.step ⟨.nothing, openDepth below⟩ lexeme.token = some s.place) :
      Place.Answers ⟨.nothing, openDepth below⟩ lexeme ((atom stack v).step lexeme) := by
    rw [hstep]
    exact hplace
  have hadjacent (hstarts : lexeme.token.StartsAtom)
      (hunwind : unwind .product stack v = .ok (below, t)) :
      Place.Answers ⟨.nothing, openDepth below⟩ lexeme ((atom stack v).step lexeme) := by
    rw [step_adjacent_eq hstarts hunwind]
    exact (answers_operand _ lexeme).congr (Place.step_of_startsAtom hstarts _ _)
  cases hkind : lexeme.token with
  | caret => exact absurd hkind htoken
  | plus =>
      rw [hkind] at hunwind
      exact hok (step_sum .plus hkind hunwind) (by rw [hkind]; rfl)
  | minus =>
      rw [hkind] at hunwind
      exact hok (step_sum .minus hkind hunwind) (by rw [hkind]; rfl)
  | star =>
      rw [hkind] at hunwind
      exact hok (step_product .times (congrArg some hkind) hunwind) (by rw [hkind]; rfl)
  | slash =>
      rw [hkind] at hunwind
      exact hok (step_product .over (congrArg some hkind) hunwind) (by rw [hkind]; rfl)
  | number | var | openParen =>
      rw [hkind] at hunwind
      exact hadjacent (by rw [hkind]; trivial) hunwind
  | closeParen =>
      rw [hkind] at hunwind
      simp only [Token.closes] at hunwind
      simp only [step, hkind, hunwind]
      rcases unwind_sum_cases hunwind with rfl | ⟨rest, rfl⟩
      · exact ⟨by rw [hkind]; rfl, by rw [hkind]⟩
      · show Place.step _ lexeme.token = some _
        rw [hkind]
        rfl

/-- A token that closes operators fails if closing them does. -/
theorem step_of_unwind_error (htoken : lexeme.token ≠ .caret)
    (h : unwind lexeme.token.closes stack v = .error error) :
    (atom stack v).step lexeme = .error error := by
  cases hkind : lexeme.token <;> rw [hkind] at h htoken <;>
    simp only [Token.closes] at h <;> simp only [step, hkind, pushSum, pushProduct, h] <;>
    first | rfl | exact absurd rfl htoken

/-- **What one token does.**  The place of the stage answers it, unless it
closes operators and closing them fails. -/
theorem step_cases (s : Stage) (lexeme : Lexeme) :
    s.place.Answers lexeme (s.step lexeme) ∨
      ∃ stack v error, s = atom stack v ∧ lexeme.token ≠ .caret ∧
        unwind lexeme.token.closes stack v = .error error ∧ s.step lexeme = .error error := by
  cases s with
  | operand stack => exact Or.inl (answers_operand stack lexeme)
  | exponent stack => exact Or.inl (answers_exponent stack lexeme)
  | atom stack v =>
      by_cases hcaret : lexeme.token = .caret
      · refine Or.inl ?_
        simp only [step, hcaret, Place.Answers]
        rfl
      · cases hunwind : unwind lexeme.token.closes stack v with
        | ok r => exact Or.inl (answers_atom hcaret hunwind)
        | error error =>
            exact Or.inr ⟨stack, v, error, rfl, hcaret, hunwind,
              step_of_unwind_error hcaret hunwind⟩

/-- **A run of the parser** is one of its places. -/
theorem reads_of_runs (h : start.Runs ls s) :
    Place.start.reads (ls.map Lexeme.token) = some s.place := by
  refine foldlM_invariant (fun past (s : Stage) =>
    Place.start.reads (past.map Lexeme.token) = some s.place) ?_ [] (b := .start) rfl h
  intro past lexeme s s' hs hstep
  have hplace : s.place.step lexeme.token = some s'.place := by
    rcases s.step_cases lexeme with hanswers | ⟨stack, v, error, -, -, -, herror⟩
    · rw [hstep] at hanswers
      exact hanswers
    · rw [hstep] at herror
      cases herror
  rw [List.map_append, Place.reads_append, hs]
  show Place.reads s.place [lexeme.token] = some s'.place
  rw [Place.reads_cons, hplace]
  rfl

end Stage

/-! ## What has been read can be completed -/

/-- **What a stack waits for completes it to a sentence.** -/
theorem Awaits.completes {X : Symbol} (h : Awaits X stack us) (hws : Phrase X ws) :
    ∃ rest, Sentence (us ++ ws ++ rest) := by
  induction h generalizing ws with
  | start => exact ⟨[], by simpa [Sentence] using hws⟩
  | paren _ ih =>
      obtain ⟨rest, h⟩ := ih (.paren hws)
      exact ⟨.closeParen :: rest, by simpa using h⟩
  | add _ hl ih =>
      obtain ⟨rest, h⟩ := ih (.add hl.phrase hws)
      exact ⟨rest, by simpa using h⟩
  | sub _ hl ih =>
      obtain ⟨rest, h⟩ := ih (.sub hl.phrase hws)
      exact ⟨rest, by simpa using h⟩
  | term _ ih => exact ih (.term hws)
  | mul _ hl ih =>
      obtain ⟨rest, h⟩ := ih (.mul hl.phrase hws)
      exact ⟨rest, by simpa using h⟩
  | div _ hl ih =>
      obtain ⟨rest, h⟩ := ih (.div hl.phrase hws)
      exact ⟨rest, by simpa using h⟩
  | adjacent _ hl ih =>
      obtain ⟨rest, h⟩ := ih (.adjacent hl.phrase hws)
      exact ⟨rest, by simpa using h⟩
  | unary _ ih => exact ih (.unary hws)
  | neg _ ih =>
      obtain ⟨rest, h⟩ := ih (.neg hws)
      exact ⟨rest, by simpa using h⟩
  | pos _ ih =>
      obtain ⟨rest, h⟩ := ih (.pos hws)
      exact ⟨rest, by simpa using h⟩
  | power _ ih => exact ih (.power hws)
  | raise _ _ hbase ih =>
      obtain ⟨rest, h⟩ := ih (.raise hbase.phrase hws)
      exact ⟨rest, by simpa using h⟩
  | exponentNeg _ ih =>
      obtain ⟨rest, h⟩ := ih (.exponentNeg hws)
      exact ⟨rest, by simpa using h⟩
  | exponent _ ih => exact ih (.exponent hws)
  | atom _ ih => exact ih (.atom hws)

/-- So every stage has read the beginning of a sentence. -/
theorem Stage.Sound.viable (h : s.Sound us) : Viable us := by
  cases s with
  | operand stack =>
      have hvar : Phrase .unary [.var] := .power (.atom .var)
      obtain ⟨rest, hsentence⟩ := Awaits.completes h hvar
      exact ⟨[.var] ++ rest, by simpa using hsentence⟩
  | exponent stack =>
      have hvar : Phrase .exponent [.var] := .exponent (.atom .var)
      obtain ⟨rest, hsentence⟩ := Awaits.completes h hvar
      exact ⟨[.var] ++ rest, by simpa using hsentence⟩
  | atom stack v =>
      obtain ⟨ts, vs, rfl, hts, hvs⟩ := h
      exact hts.completes hvs.phrase

/-! ## Exponents that are refused -/

/-- Somewhere in the tokens an exponent is closed that is refused: what
comes next is no caret, which would take its last operand for a base. -/
def ClosesBadExponent (us : List Token) : Prop :=
  ∃ front closing after, us = front ++ closing :: after ∧ closing ≠ .caret ∧
    EndsInBadExponent front

/-- Refused exponents are errors of two kinds. -/
theorem RefusesExponent.kind (h : RefusesExponent error) :
    error.kind = .domain ∨ error.kind = .notPolynomial := by
  obtain ⟨e, caret, h⟩ := h
  unfold Expr.exponentOf at h
  split_ifs at h
  · exact Or.inr (Except.error.inj h ▸ rfl)
  · refine Or.inl ?_
    dsimp only at h
    split at h
    · exact Except.error.inj h ▸ rfl
    · exact Except.error.inj h ▸ rfl
    · split at h
      · exact Except.error.inj h ▸ rfl
      · split_ifs at h
        · exact Except.error.inj h ▸ rfl
        · exact Except.error.inj h ▸ rfl

/-- They are no errors of syntax. -/
theorem RefusesExponent.ne_malformed (h : RefusesExponent error) (position : ℕ)
    (fault : SyntaxFault) : error ≠ .malformed position fault := by
  rintro rfl
  rcases h.kind with hkind | hkind <;> cases hkind

/-- What has been refused stays refused, whatever follows. -/
theorem ClosesBadExponent.append (h : ClosesBadExponent us) (vs : List Token) :
    ClosesBadExponent (us ++ vs) := by
  obtain ⟨front, closing, after, rfl, hclosing, hfront⟩ := h
  exact ⟨front, closing, after ++ vs, by simp, hclosing, hfront⟩

/-- An element of a list is its last one, or one of those in front of it. -/
theorem concat_cases {α : Type} {as front after : List α} {a b : α}
    (h : as ++ [a] = front ++ b :: after) :
    (front = as ∧ b = a) ∨ ∃ between, as = front ++ b :: between := by
  rcases List.eq_nil_or_concat after with rfl | ⟨between, last, rfl⟩
  · obtain ⟨rfl, hlast⟩ := List.append_inj' h rfl
    exact Or.inl ⟨rfl, (List.cons.inj hlast).1.symm⟩
  · rw [List.concat_eq_append, ← List.cons_append, ← List.append_assoc] at h
    exact Or.inr ⟨between, (List.append_inj' h rfl).1⟩

/-- One more token closes an exponent that is open at the end. -/
theorem closesBadExponent_concat :
    ClosesBadExponent (us ++ [token]) ↔
      ClosesBadExponent us ∨ EndsInBadExponent us ∧ token ≠ .caret := by
  constructor
  · rintro ⟨front, closing, after, h, hclosing, hfront⟩
    rcases concat_cases h with ⟨rfl, rfl⟩ | ⟨between, rfl⟩
    · exact Or.inr ⟨hfront, hclosing⟩
    · exact Or.inl ⟨front, closing, between, rfl, hclosing, hfront⟩
  · rintro (h | ⟨h, htoken⟩)
    · exact h.append _
    · exact ⟨us, token, [], rfl, htoken, h⟩

namespace Stage

/-- A run comes by every token on its way. -/
theorem Runs.split {s₀ : Stage} {ms : List Lexeme} (h : s₀.Runs (ls ++ lexeme :: ms) s) :
    ∃ s₁ s₂, s₀.Runs ls s₁ ∧ s₁.step lexeme = .ok s₂ ∧ s₂.Runs ms s := by
  rw [Runs, List.foldlM_append] at h
  obtain ⟨s₁, hls, h⟩ := bind_eq_ok h
  rw [List.foldlM_cons] at h
  obtain ⟨s₂, hstep, hms⟩ := bind_eq_ok h
  exact ⟨s₁, s₂, hls, hstep, hms⟩

/-- A caret stands behind an operand. -/
theorem step_caret (hcaret : lexeme.token = .caret) (h : s.step lexeme = .ok s') :
    ∃ stack v, s' = .exponent (.power v lexeme.start :: stack) := by
  cases s with
  | operand stack | exponent stack =>
      simp only [step, hcaret] at h
      cases h
  | atom stack v =>
      simp only [step, hcaret] at h
      exact ⟨stack, v, (Except.ok.inj h).symm⟩

/-- **Behind a refused exponent every attempt to close operators fails.** -/
theorem exists_unwind_error (h : start.Runs ls s)
    (hbad : EndsInBadExponent (ls.map Lexeme.token)) :
    ∃ stack v error, s = .atom stack v ∧ RefusesExponent error ∧
      ∀ level, unwind level stack v = .error error := by
  obtain ⟨before, es, e, hls, he, hnot⟩ := hbad
  obtain ⟨ls, rest, rfl, -, hrest⟩ := List.map_eq_append_iff.mp hls
  obtain ⟨caret, ms, rfl, hcaret, hms⟩ := List.map_eq_cons_iff.mp hrest
  obtain ⟨s₁, s₂, -, hstep, hruns⟩ := h.split
  obtain ⟨stack, v, rfl⟩ := step_caret hcaret hstep
  obtain ⟨frames, w, hreads, hwithin, hclose⟩ :=
    he.reads ms (.power v caret.start :: stack) hms (Symbol.loose_of_closedAt rfl _)
  have hs : s = .atom (frames ++ .power v caret.start :: stack) w :=
    Except.ok.inj (hruns.symm.trans hreads)
  cases hn : e.exponentOf caret.start with
  | ok n => exact absurd ((Expr.exponentOf_eq_ok_iff e caret.start n).mp hn) (hnot n)
  | error error =>
      refine ⟨_, w, error, hs, ⟨e, caret.start, hn⟩, fun level => ?_⟩
      have hbound : Symbol.exponent.bound ≤ level.rank + 1 := Nat.succ_le_succ (Nat.zero_le _)
      rw [unwind_append (hwithin.mono hbound), hclose]
      show unwind level (.power v caret.start :: stack) e = _
      rw [unwind_cons _ e (Nat.zero_le _), Frame.close, hn]
      rfl

/-! ## Why reading stops -/

/-- Behind a refused exponent only a caret can be read. -/
theorem step_eq_error (h : start.Runs ls s) (hbad : EndsInBadExponent (ls.map Lexeme.token))
    (htoken : lexeme.token ≠ .caret) :
    ∃ error, s.step lexeme = .error error ∧ RefusesExponent error := by
  obtain ⟨stack, v, error, rfl, hrefuses, hunwind⟩ := exists_unwind_error h hbad
  exact ⟨error, step_of_unwind_error htoken (hunwind _), hrefuses⟩

/-- The parser passes no exponent that is refused. -/
theorem Runs.not_closesBadExponent (h : start.Runs ls s) :
    ¬ClosesBadExponent (ls.map Lexeme.token) := by
  rintro ⟨front, closing, after, hls, hclosing, hfront⟩
  obtain ⟨ls, rest, rfl, rfl, hrest⟩ := List.map_eq_append_iff.mp hls
  obtain ⟨lexeme, ms, rfl, rfl, -⟩ := List.map_eq_cons_iff.mp hrest
  obtain ⟨s₁, s₂, hruns, hstep, -⟩ := h.split
  obtain ⟨error, herror, -⟩ := step_eq_error hruns hfront hclosing
  rw [hstep] at herror
  cases herror

/-- **What the parser has passed begins a sentence.** -/
theorem Runs.viable (h : start.Runs ls s) : Viable (ls.map Lexeme.token) :=
  (sound_of_run h).viable

/-- **Why a token is not read**: no sentence goes on with it, or it closes
an exponent that is refused. -/
theorem Runs.step_error (h : start.Runs ls s) (hstep : s.step lexeme = .error error) :
    (¬Viable (ls.map Lexeme.token ++ [lexeme.token]) ∧
      ¬ClosesBadExponent (ls.map Lexeme.token ++ [lexeme.token]) ∧
      error = .malformed lexeme.start (.unexpectedToken lexeme.token)) ∨
    (ClosesBadExponent (ls.map Lexeme.token ++ [lexeme.token]) ∧ RefusesExponent error) := by
  rcases s.step_cases lexeme with hanswers | ⟨stack, v, error', rfl, htoken, hunwind, herror⟩
  · rw [hstep] at hanswers
    obtain ⟨hnone, rfl⟩ := hanswers
    refine Or.inl ⟨not_viable_of_step (reads_of_runs h) hnone, ?_, rfl⟩
    rw [closesBadExponent_concat]
    rintro (hcloses | ⟨hends, htoken⟩)
    · exact h.not_closesBadExponent hcloses
    · obtain ⟨error, herror, hrefuses⟩ := step_eq_error h hends htoken
      rw [hstep] at herror
      exact hrefuses.ne_malformed _ _ (Except.error.inj herror).symm
  · obtain rfl := Except.error.inj (hstep.symm.trans herror)
    obtain ⟨hends, hrefuses⟩ := Follows.unwind_error (sound_of_run h)
      lexeme.token.closes_cases hunwind
    exact Or.inr ⟨closesBadExponent_concat.mpr (Or.inr ⟨hends, htoken⟩), hrefuses⟩

/-- **Why the end is refused**: the tokens are no sentence, or they end in
an exponent that is refused. -/
theorem Runs.finish_error {stop : ℕ} (h : start.Runs ls s)
    (hfinish : s.finish stop = .error error) :
    (¬Sentence (ls.map Lexeme.token) ∧ ¬EndsInBadExponent (ls.map Lexeme.token) ∧
      error = .malformed stop .unexpectedEnd) ∨
    (EndsInBadExponent (ls.map Lexeme.token) ∧ RefusesExponent error) := by
  have hplace (hs : s.place ≠ ⟨.nothing, 0⟩) : ¬Sentence (ls.map Lexeme.token) := by
    intro hsentence
    exact hs (Option.some.inj ((reads_of_runs h).symm.trans hsentence.reads))
  cases s with
  | operand stack | exponent stack =>
      refine Or.inl ⟨hplace nofun, fun hends => ?_, (Except.error.inj hfinish).symm⟩
      obtain ⟨stack', v, error', hs, -⟩ := exists_unwind_error h hends
      cases hs
  | atom stack v =>
      rcases bind_eq_error hfinish with hunwind | ⟨⟨below, t⟩, hunwind, hfinish⟩
      · exact Or.inr (Follows.unwind_error (sound_of_run h) (Or.inr rfl) hunwind)
      · have hdepth := openDepth_unwind (by decide) hunwind
        rcases unwind_sum_cases hunwind with rfl | ⟨rest, rfl⟩
        · cases hfinish
        · refine Or.inl ⟨hplace fun hs => ?_, fun hends => ?_, (Except.error.inj hfinish).symm⟩
          · have hclosed : openDepth stack = 0 := congrArg Place.depth hs
            rw [hclosed] at hdepth
            cases hdepth
          · obtain ⟨stack', v', error', hs, -, herror⟩ := exists_unwind_error h hends
            obtain ⟨rfl, rfl⟩ := atom.inj hs
            rw [herror] at hunwind
            cases hunwind

/-- **How far tokens are read.**  They are read to their end exactly if they
begin a sentence and close no exponent that is refused. -/
theorem runs_iff (ls : List Lexeme) :
    (∃ s, start.Runs ls s) ↔
      Viable (ls.map Lexeme.token) ∧ ¬ClosesBadExponent (ls.map Lexeme.token) := by
  constructor
  · rintro ⟨s, h⟩
    exact ⟨h.viable, h.not_closesBadExponent⟩
  · rintro ⟨hviable, hcloses⟩
    cases hrun : ls.foldlM step start with
    | ok s => exact ⟨s, hrun⟩
    | error error =>
        obtain ⟨before, lexeme, after, s, rfl, hbefore, hstep⟩ := foldlM_eq_error hrun
        rw [List.map_append, List.map_cons, List.append_cons] at hviable hcloses
        rcases Runs.step_error hbefore hstep with ⟨hnot, -⟩ | ⟨hbad, -⟩
        · exact absurd hviable.of_append hnot
        · exact absurd (hbad.append _) hcloses

end Stage

end Univariate
