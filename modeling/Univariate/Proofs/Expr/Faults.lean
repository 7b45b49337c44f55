import Univariate.Proofs.Expr.Prefixes
import Univariate.Proofs.Expr.Spans

/-!
# What a syntax error points at

A text is refused for the first reason that reading it from the left comes
upon.  The grammar gives one as soon as no sentence goes on with the next
token; a power gives one when the token behind its exponent arrives; and
what the lexer cannot read is a reason only once all tokens in front of it
have been read.

* `Diagnosis`, `diagnosis_of_ofLexemes` — the reasons to refuse tokens;
* `ofLexemes_unexpectedToken`, `ofLexemes_lexical`, `ofLexemes_unexpectedEnd`
  — where there is such a reason, it is the one that is given;
* `exists_refusesExponent` — an exponent comes before all that follows it;
* `parse_faults` — when a whole text has which error.
-/

namespace Univariate

namespace Expr

variable {name text : String} {before ls : List Lexeme} {lexeme : Lexeme}
  {failure : Option Error} {error : Error}

/-- A reason to refuse a list of tokens that was perhaps cut short by a
failure of the lexer. -/
inductive Diagnosis (ls : List Lexeme) (failure : Option Error) : Error → Prop
  | unexpectedToken {before after : List Lexeme} {lexeme : Lexeme}
      (hls : ls = before ++ lexeme :: after) (hviable : Viable (before.map Lexeme.token))
      (hnot : ¬Viable (before.map Lexeme.token ++ [lexeme.token]))
      (hcloses : ¬ClosesBadExponent (before.map Lexeme.token ++ [lexeme.token])) :
      Diagnosis ls failure (.malformed lexeme.start (.unexpectedToken lexeme.token))
  | unexpectedEnd (hfailure : failure = none) (hviable : Viable (ls.map Lexeme.token))
      (hnot : ¬Sentence (ls.map Lexeme.token)) (hcloses : ¬ClosesBadExponent (ls.map Lexeme.token))
      (hends : ¬EndsInBadExponent (ls.map Lexeme.token)) :
      Diagnosis ls failure (.malformed (lastStop ls) .unexpectedEnd)
  | lexical {error : Error} (hfailure : failure = some error)
      (hviable : Viable (ls.map Lexeme.token))
      (hcloses : ¬ClosesBadExponent (ls.map Lexeme.token)) : Diagnosis ls failure error
  | exponent {error : Error} (h : RefusesExponent error) : Diagnosis ls failure error

/-- **Every refusal has one of these reasons.** -/
theorem diagnosis_of_ofLexemes (h : ofLexemes ls failure = .error error) :
    Diagnosis ls failure error := by
  rcases bind_eq_error h with hrun | ⟨s, hrun, h⟩
  · obtain ⟨before, lexeme, after, s, rfl, hbefore, hstep⟩ := foldlM_eq_error hrun
    rcases Stage.Runs.step_error hbefore hstep with ⟨hnot, hcloses, rfl⟩ | ⟨-, hrefuses⟩
    · exact .unexpectedToken rfl (Stage.Runs.viable hbefore) hnot hcloses
    · exact .exponent hrefuses
  · have hviable := Stage.Runs.viable hrun
    have hcloses := Stage.Runs.not_closesBadExponent hrun
    cases failure with
    | some failed =>
        obtain rfl := Except.error.inj h
        exact .lexical rfl hviable hcloses
    | none =>
        rcases Stage.Runs.finish_error hrun h with ⟨hnot, hends, rfl⟩ | ⟨-, hrefuses⟩
        · exact .unexpectedEnd rfl hviable hnot hcloses hends
        · exact .exponent hrefuses

/-- What fails at a token fails there whatever follows. -/
theorem ofLexemes_of_step {s : Stage} (hrun : Stage.start.Runs before s)
    (hstep : s.step lexeme = .error error) (after : List Lexeme) (failure : Option Error) :
    ofLexemes (before ++ lexeme :: after) failure = .error error := by
  have hbefore : before.foldlM Stage.step .start = .ok s := hrun
  rw [ofLexemes, List.foldlM_append, hbefore]
  show (lexeme :: after).foldlM Stage.step s >>= _ = _
  rw [List.foldlM_cons, hstep]
  rfl

/-- **The first token that no sentence goes on with** is reported, unless an
exponent is refused before it. -/
theorem ofLexemes_unexpectedToken (after : List Lexeme) (failure : Option Error)
    (hviable : Viable (before.map Lexeme.token))
    (hnot : ¬Viable (before.map Lexeme.token ++ [lexeme.token]))
    (hcloses : ¬ClosesBadExponent (before.map Lexeme.token ++ [lexeme.token])) :
    ofLexemes (before ++ lexeme :: after) failure =
      .error (.malformed lexeme.start (.unexpectedToken lexeme.token)) := by
  obtain ⟨s, hrun⟩ := (Stage.runs_iff before).mpr ⟨hviable, fun h => hcloses (h.append _)⟩
  refine ofLexemes_of_step hrun ?_ after failure
  cases hstep : s.step lexeme with
  | ok s' =>
      have hviable' := (hrun.append (.single hstep)).viable
      rw [List.map_append] at hviable'
      exact absurd hviable' hnot
  | error error =>
      rcases hrun.step_error hstep with ⟨-, -, rfl⟩ | ⟨hbad, -⟩
      · rfl
      · exact absurd hbad hcloses

/-- **A word that is none** is reported if a sentence could have gone on
there. -/
theorem ofLexemes_lexical (hviable : Viable (ls.map Lexeme.token))
    (hcloses : ¬ClosesBadExponent (ls.map Lexeme.token)) (error : Error) :
    ofLexemes ls (some error) = .error error := by
  obtain ⟨s, hrun⟩ := (Stage.runs_iff ls).mpr ⟨hviable, hcloses⟩
  have hls : ls.foldlM Stage.step .start = .ok s := hrun
  rw [ofLexemes, hls]
  rfl

/-- **An end in the middle of a sentence** is reported, unless an exponent is
refused there. -/
theorem ofLexemes_unexpectedEnd (hviable : Viable (ls.map Lexeme.token))
    (hnot : ¬Sentence (ls.map Lexeme.token)) (hcloses : ¬ClosesBadExponent (ls.map Lexeme.token))
    (hends : ¬EndsInBadExponent (ls.map Lexeme.token)) :
    ofLexemes ls none = .error (.malformed (lastStop ls) .unexpectedEnd) := by
  obtain ⟨s, hrun⟩ := (Stage.runs_iff ls).mpr ⟨hviable, hcloses⟩
  have hls : ls.foldlM Stage.step .start = .ok s := hrun
  have hfinish : ofLexemes ls none = s.finish (lastStop ls) := by
    rw [ofLexemes, hls]
    rfl
  cases h : s.finish (lastStop ls) with
  | ok t => exact absurd (derives_of_ofLexemes (hfinish.trans h)).2.phrase hnot
  | error error =>
      rcases hrun.finish_error h with ⟨-, -, rfl⟩ | ⟨hbad, -⟩
      · exact hfinish.trans h
      · exact absurd hbad hends

/-- **An exponent comes before all that follows it**: once it is closed, the
tokens are refused for it. -/
theorem exists_refusesExponent (after : List Lexeme) (failure : Option Error)
    (hviable : Viable (before.map Lexeme.token))
    (hcloses : ClosesBadExponent (before.map Lexeme.token ++ [lexeme.token])) :
    ∃ error, ofLexemes (before ++ lexeme :: after) failure = .error error ∧
      RefusesExponent error := by
  have hmap : (before ++ [lexeme]).map Lexeme.token =
      before.map Lexeme.token ++ [lexeme.token] := List.map_append
  cases hrun : (before ++ [lexeme]).foldlM Stage.step .start with
  | ok s =>
      rw [← hmap] at hcloses
      exact absurd hcloses (Stage.Runs.not_closesBadExponent hrun)
  | error error =>
      refine ⟨error, ?_, ?_⟩
      · rw [ofLexemes, List.append_cons, List.foldlM_append, hrun]
        rfl
      · obtain ⟨front, stopped, back, s, hsplit, hfront, hstep⟩ := foldlM_eq_error hrun
        rcases Stage.Runs.step_error hfront hstep with ⟨hnot, hopen, -⟩ | ⟨-, hrefuses⟩
        · -- The token that stopped is this one or one in front of it.
          rcases concat_cases hsplit with ⟨rfl, rfl⟩ | ⟨between, rfl⟩
          · exact absurd hcloses hopen
          · rw [List.map_append, List.map_cons, List.append_cons] at hviable
            exact absurd hviable.of_append hnot
        · exact hrefuses

/-! ## Whole texts -/

/-- Texts that are not blank and have balanced parentheses are read as their
tokens are. -/
theorem parse_eq_ofLexemes (htrim : Text.trim text.toList ≠ []) (hbalanced : Balanced text.toList) :
    parse name text = ofLexemes (Token.lex name text).1 (Token.lex name text).2 := by
  unfold parse
  rw [if_neg (mt List.isEmpty_iff.mp htrim), (checkParens_eq_ok_iff _).mpr hbalanced]
  rfl

/-- What the looks at the text before say of parentheses. -/
theorem exists_of_checkParens (h : checkParens text.toList = .error error) :
    ∃ p, OnBoundary text p ∧
      (error = .malformed p .unmatchedClose ∨ error = .malformed p .unmatchedOpen) := by
  rcases checkParens_cases text.toList with
    ⟨hok, -⟩ | ⟨front, back, hsplit, -, herror⟩ | ⟨i, waiting, hleaves, herror⟩
  · rw [hok] at h
    cases h
  · rw [herror] at h
    exact ⟨_, onBoundary_of_toList hsplit, Or.inl (Except.error.inj h).symm⟩
  · rw [herror] at h
    obtain ⟨before, rest, hsplit, rfl, -⟩ := hleaves.exists_open List.mem_cons_self
    exact ⟨_, onBoundary_of_toList hsplit, Or.inr (Except.error.inj h).symm⟩

/-- The reasons to refuse a text. -/
theorem parse_error_cases (h : parse name text = .error error) :
    error = .malformed 0 .empty ∨
      (∃ p, OnBoundary text p ∧
        (error = .malformed p .unmatchedClose ∨ error = .malformed p .unmatchedOpen)) ∨
      Text.trim text.toList ≠ [] ∧ Balanced text.toList ∧
        Diagnosis (Token.lex name text).1 (Token.lex name text).2 error := by
  by_cases htrim : Text.trim text.toList = []
  · unfold parse at h
    rw [if_pos (List.isEmpty_iff.mpr htrim)] at h
    exact Or.inl (Except.error.inj h).symm
  · cases hparens : checkParens text.toList with
    | error refused =>
        unfold parse at h
        rw [if_neg (mt List.isEmpty_iff.mp htrim), hparens] at h
        cases h
        exact Or.inr (Or.inl (exists_of_checkParens hparens))
    | ok _ =>
        have hbalanced := (checkParens_eq_ok_iff _).mp hparens
        rw [parse_eq_ofLexemes htrim hbalanced] at h
        exact Or.inr (Or.inr ⟨htrim, hbalanced, diagnosis_of_ofLexemes h⟩)

/-- Where the lexer has been. -/
theorem lex_boundaries (name text : String) :
    (∀ lexeme ∈ (Token.lex name text).1,
      OnBoundary text lexeme.start ∧ OnBoundary text lexeme.stop) ∧
    ∀ error ∈ (Token.lex name text).2, ∃ p fault,
      error = .malformed p fault ∧ fault.IsLexical ∧ OnBoundary text p := by
  have htext : text.toList = [] ++ text.toList := rfl
  exact Token.lexFrom_boundaries htext rfl

/-- A failure of the lexer says what it could not read. -/
theorem isLexical_of_lex {p : ℕ} {fault : SyntaxFault}
    (h : (Token.lex name text).2 = some (.malformed p fault)) : fault.IsLexical := by
  obtain ⟨q, fault', heq, hlexical, -⟩ := (lex_boundaries name text).2 _ h
  obtain ⟨rfl, rfl⟩ := Error.malformed.inj heq
  exact hlexical

/-- A text that is not blank and that the lexer reads has a last token. -/
theorem exists_last (htrim : Text.trim text.toList ≠ []) (h : (Token.lex name text).2 = none) :
    ∃ before last, Token.lex name text = (before ++ [last], none) ∧
      lastStop (Token.lex name text).1 = last.stop := by
  rcases List.eq_nil_or_concat (Token.lex name text).1 with hnil | ⟨before, last, hlast⟩
  · refine absurd ((Text.trim_eq_nil_iff _).mpr fun c hc => ?_) htrim
    have hlex : Token.lex name text = ([], none) := Prod.ext hnil h
    exact Token.isBlank_of_isSpacing (Token.isSpacing_of_lexFrom hlex c hc)
  · rw [List.concat_eq_append] at hlast
    refine ⟨before, last, Prod.ext hlast h, ?_⟩
    rw [hlast, lastStop, List.getLast?_concat]
    rfl

/-- The tokens of a text, as far as the lexer comes. -/
def tokens (name text : String) : List Token := (Token.lex name text).1.map Lexeme.token

/-- What is not found by a look at the text before is found at a token or
at the end. -/
theorem diagnosis_of_parse {p : ℕ} {fault : SyntaxFault}
    (hfault : fault ≠ .empty ∧ fault ≠ .unmatchedClose ∧ fault ≠ .unmatchedOpen)
    (h : parse name text = .error (.malformed p fault)) :
    Text.trim text.toList ≠ [] ∧ Balanced text.toList ∧
      Diagnosis (Token.lex name text).1 (Token.lex name text).2 (.malformed p fault) := by
  rcases parse_error_cases h with hempty | ⟨q, -, hclose | hopen⟩ | hdiagnosis
  · exact absurd (Error.malformed.inj hempty).2 hfault.1
  · exact absurd (Error.malformed.inj hclose).2 hfault.2.1
  · exact absurd (Error.malformed.inj hopen).2 hfault.2.2
  · exact hdiagnosis

/-- A text with a token is not blank. -/
theorem trim_ne_nil_of_lex {before after : List Lexeme}
    (h : (Token.lex name text).1 = before ++ lexeme :: after) : Text.trim text.toList ≠ [] := by
  intro hblank
  cases hls : before ++ lexeme :: after with
  | nil => exact List.append_ne_nil_of_right_ne_nil _ (List.cons_ne_nil _ _) hls
  | cons first rest =>
      obtain ⟨c, hc, hnot⟩ := exists_not_isBlank (Prod.ext (h.trans hls) rfl)
      rw [(Text.trim_eq_nil_iff _).mp hblank c hc] at hnot
      cases hnot

/-- **A token is unexpected** if it is the first one with which no sentence
goes on. -/
theorem parse_eq_unexpectedToken_iff (p : ℕ) (token : Token) :
    parse name text = .error (.malformed p (.unexpectedToken token)) ↔
      Balanced text.toList ∧ ∃ before lexeme after,
        (Token.lex name text).1 = before ++ lexeme :: after ∧
        p = lexeme.start ∧ token = lexeme.token ∧ Viable (before.map Lexeme.token) ∧
        ¬Viable (before.map Lexeme.token ++ [token]) ∧
        ¬ClosesBadExponent (before.map Lexeme.token ++ [token]) := by
  constructor
  · intro h
    obtain ⟨-, hbalanced, hdiagnosis⟩ := diagnosis_of_parse (by simp) h
    cases hdiagnosis with
    | unexpectedToken hls hviable hnot hcloses =>
        exact ⟨hbalanced, _, _, _, hls, rfl, rfl, hviable, hnot, hcloses⟩
    | lexical hfailure _ _ => exact (isLexical_of_lex hfailure).elim
    | exponent hrefuses => exact absurd rfl (hrefuses.ne_malformed _ _)
  · rintro ⟨hbalanced, before, lexeme, after, hls, rfl, rfl, hviable, hnot, hcloses⟩
    rw [parse_eq_ofLexemes (trim_ne_nil_of_lex hls) hbalanced, hls]
    exact ofLexemes_unexpectedToken after _ hviable hnot hcloses

/-- **The end is unexpected** if the tokens only begin a sentence. -/
theorem parse_eq_unexpectedEnd_iff (p : ℕ) :
    parse name text = .error (.malformed p .unexpectedEnd) ↔
      Balanced text.toList ∧
        (∃ before last, Token.lex name text = (before ++ [last], none) ∧ p = last.stop) ∧
        Viable (tokens name text) ∧ ¬Sentence (tokens name text) ∧
        ¬ClosesBadExponent (tokens name text) ∧ ¬EndsInBadExponent (tokens name text) := by
  constructor
  · intro h
    obtain ⟨htrim, hbalanced, hdiagnosis⟩ := diagnosis_of_parse (by simp) h
    cases hdiagnosis with
    | unexpectedEnd hfailure hviable hnot hcloses hends =>
        obtain ⟨before, last, hlex, hstop⟩ := exists_last htrim hfailure
        exact ⟨hbalanced, ⟨before, last, hlex, hstop⟩, hviable, hnot, hcloses, hends⟩
    | lexical hfailure _ _ => exact (isLexical_of_lex hfailure).elim
    | exponent hrefuses => exact absurd rfl (hrefuses.ne_malformed _ _)
  · rintro ⟨hbalanced, ⟨before, last, hlex, rfl⟩, hviable, hnot, hcloses, hends⟩
    have hls : (Token.lex name text).1 = before ++ last :: [] := congrArg Prod.fst hlex
    have hend := ofLexemes_unexpectedEnd hviable hnot hcloses hends
    rw [hls, lastStop, List.getLast?_concat] at hend
    rw [parse_eq_ofLexemes (trim_ne_nil_of_lex hls) hbalanced, hlex]
    exact hend

/-- **What the lexer cannot read is reported** if the tokens in front of it
begin a sentence. -/
theorem parse_eq_lexical_iff {fault : SyntaxFault} (hlexical : fault.IsLexical) (p : ℕ) :
    parse name text = .error (.malformed p fault) ↔
      Text.trim text.toList ≠ [] ∧ Balanced text.toList ∧
        (Token.lex name text).2 = some (.malformed p fault) ∧ Viable (tokens name text) ∧
        ¬ClosesBadExponent (tokens name text) := by
  constructor
  · intro h
    have hfault : fault ≠ .empty ∧ fault ≠ .unmatchedClose ∧ fault ≠ .unmatchedOpen := by
      refine ⟨?_, ?_, ?_⟩ <;> rintro rfl <;> exact hlexical
    obtain ⟨htrim, hbalanced, hdiagnosis⟩ := diagnosis_of_parse hfault h
    cases hdiagnosis with
    | unexpectedToken _ _ _ _ => exact hlexical.elim
    | unexpectedEnd _ _ _ _ _ => exact hlexical.elim
    | lexical hfailure hviable hcloses =>
        exact ⟨htrim, hbalanced, hfailure, hviable, hcloses⟩
    | exponent hrefuses => exact absurd rfl (hrefuses.ne_malformed _ _)
  · rintro ⟨htrim, hbalanced, hfailure, hviable, hcloses⟩
    rw [parse_eq_ofLexemes htrim hbalanced, hfailure]
    exact ofLexemes_lexical hviable hcloses _

/-- **A refused exponent is reported** whatever follows the token that
closes it. -/
theorem exists_parse_refusesExponent {before after : List Lexeme}
    (hbalanced : Balanced text.toList)
    (hlex : (Token.lex name text).1 = before ++ lexeme :: after)
    (hviable : Viable (before.map Lexeme.token))
    (hcloses : ClosesBadExponent (before.map Lexeme.token ++ [lexeme.token])) :
    ∃ error, parse name text = .error error ∧ RefusesExponent error := by
  rw [parse_eq_ofLexemes (trim_ne_nil_of_lex hlex) hbalanced, hlex]
  exact exists_refusesExponent after _ hviable hcloses

/-- **Every reported position is on a boundary.** -/
theorem onBoundary_of_parse {p : ℕ} {fault : SyntaxFault}
    (h : parse name text = .error (.malformed p fault)) : OnBoundary text p := by
  rcases parse_error_cases h with hempty | ⟨q, hq, hclose | hopen⟩ | ⟨htrim, -, hdiagnosis⟩
  · obtain ⟨rfl, -⟩ := Error.malformed.inj hempty
    exact String.Pos.Raw.isValid_zero
  · exact (Error.malformed.inj hclose).1 ▸ hq
  · exact (Error.malformed.inj hopen).1 ▸ hq
  · obtain ⟨hlexemes, hfailures⟩ := lex_boundaries name text
    cases hdiagnosis with
    | unexpectedToken hls _ _ _ =>
        exact (hlexemes _ (hls ▸ List.mem_append_right _ List.mem_cons_self)).1
    | unexpectedEnd hfailure _ _ _ _ =>
        obtain ⟨before, last, hlex, hstop⟩ := exists_last htrim hfailure
        rw [hstop]
        exact (hlexemes last (hlex ▸ List.mem_append_right _ List.mem_cons_self)).2
    | lexical hfailure _ _ =>
        obtain ⟨q, fault', heq, -, hq⟩ := hfailures _ hfailure
        exact (Error.malformed.inj heq).1 ▸ hq
    | exponent hrefuses => exact absurd rfl (hrefuses.ne_malformed _ _)

/-- **What a syntax error points at.**  A text with balanced parentheses has
an unexpected token if this is the first one with which no sentence goes on,
and an unexpected end if its tokens only begin a sentence; the positions are
where the token starts and where the last one stops.  What the lexer cannot
read is reported if the tokens in front of it begin a sentence.  None of
these is reported if an exponent has been closed that is refused: the
failure is then the one of an exponent, whatever follows.  And a position is
always one between two characters of the text. -/
theorem parse_faults (name text : String) :
    (∀ p token, parse name text = .error (.malformed p (.unexpectedToken token)) ↔
      Balanced text.toList ∧ ∃ before lexeme after,
        (Token.lex name text).1 = before ++ lexeme :: after ∧
        p = lexeme.start ∧ token = lexeme.token ∧ Viable (before.map Lexeme.token) ∧
        ¬Viable (before.map Lexeme.token ++ [token]) ∧
        ¬ClosesBadExponent (before.map Lexeme.token ++ [token])) ∧
    (∀ p, parse name text = .error (.malformed p .unexpectedEnd) ↔
      Balanced text.toList ∧
        (∃ before last, Token.lex name text = (before ++ [last], none) ∧ p = last.stop) ∧
        Viable (tokens name text) ∧ ¬Sentence (tokens name text) ∧
        ¬ClosesBadExponent (tokens name text) ∧ ¬EndsInBadExponent (tokens name text)) ∧
    (∀ p fault, fault.IsLexical → (parse name text = .error (.malformed p fault) ↔
      Text.trim text.toList ≠ [] ∧ Balanced text.toList ∧
        (Token.lex name text).2 = some (.malformed p fault) ∧ Viable (tokens name text) ∧
        ¬ClosesBadExponent (tokens name text))) ∧
    (∀ before closing after, Balanced text.toList →
      (Token.lex name text).1 = before ++ closing :: after → Viable (before.map Lexeme.token) →
      ClosesBadExponent (before.map Lexeme.token ++ [closing.token]) →
        ∃ error, parse name text = .error error ∧ RefusesExponent error ∧
          (error.kind = .domain ∨ error.kind = .notPolynomial)) ∧
    ∀ p fault, parse name text = .error (.malformed p fault) →
      p ≤ text.utf8ByteSize ∧ OnBoundary text p := by
  refine ⟨parse_eq_unexpectedToken_iff, parse_eq_unexpectedEnd_iff,
    fun p fault hlexical => parse_eq_lexical_iff hlexical p,
    fun before closing after hbalanced hlex hviable hcloses => ?_,
    fun p fault h => ⟨(onBoundary_of_parse h).le, onBoundary_of_parse h⟩⟩
  obtain ⟨error, herror, hrefuses⟩ :=
    exists_parse_refusesExponent hbalanced hlex hviable hcloses
  exact ⟨error, herror, hrefuses, hrefuses.kind⟩

/-- Parentheses around nothing are balanced, but no expression. -/
example : parse "x" "()" = .error (.malformed 1 (.unexpectedToken .closeParen)) := by cbv

end Expr

end Univariate
