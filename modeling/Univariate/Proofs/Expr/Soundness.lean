import Univariate.Proofs.Computation
import Univariate.Proofs.Expr.Grammar

/-!
# The grammar derives what the parser reads

The stack records how far a derivation has come: every operator on it is a
rule whose right operand is still to be read.  `Awaits X stack us` says
that the tokens `us` lead to the stack, and that an `X` may follow.  Every
token keeps this invariant, and at the end of the text nothing waits, so
that all tokens together are an expression.

* `Awaits`, `Follows` — the derivations that a stack stands for, before
  and after the operand on top has been read;
* `EndsInBadExponent`, `RefusesExponent` — powers that do not derive;
* `Awaits.unwind` — closing operators completes their rules;
* `Stage.Sound.step` — one token; `Stage.Sound.finish` — the end;
* `derives_of_ofLexemes` — whatever the parser answers, the grammar
  derives.
-/

namespace Univariate

/-- The tokens lead to the stack, and a nonterminal may come next. -/
inductive Awaits : Symbol → List Frame → List Token → Prop
  | start : Awaits .expr [] []
  | paren {stack : List Frame} {us : List Token} (h : Awaits .atom stack us) :
      Awaits .expr (.paren :: stack) (us ++ [.openParen])
  | add {stack : List Frame} {us vs : List Token} {l : Expr Float} (h : Awaits .expr stack us)
      (hl : Derives .expr vs l) : Awaits .term (.sum l .plus :: stack) (us ++ vs ++ [.plus])
  | sub {stack : List Frame} {us vs : List Token} {l : Expr Float} (h : Awaits .expr stack us)
      (hl : Derives .expr vs l) : Awaits .term (.sum l .minus :: stack) (us ++ vs ++ [.minus])
  | term {stack : List Frame} {us : List Token} (h : Awaits .expr stack us) :
      Awaits .term stack us
  | mul {stack : List Frame} {us vs : List Token} {l : Expr Float} (h : Awaits .term stack us)
      (hl : Derives .term vs l) :
      Awaits .unary (.product l .times :: stack) (us ++ vs ++ [.star])
  | div {stack : List Frame} {us vs : List Token} {l : Expr Float} (h : Awaits .term stack us)
      (hl : Derives .term vs l) :
      Awaits .unary (.product l .over :: stack) (us ++ vs ++ [.slash])
  | adjacent {stack : List Frame} {us vs : List Token} {l : Expr Float}
      (h : Awaits .term stack us) (hl : Derives .term vs l) :
      Awaits .power (.product l .adjacent :: stack) (us ++ vs)
  | unary {stack : List Frame} {us : List Token} (h : Awaits .term stack us) :
      Awaits .unary stack us
  | neg {stack : List Frame} {us : List Token} (h : Awaits .unary stack us) :
      Awaits .unary (.minus :: stack) (us ++ [.minus])
  | pos {stack : List Frame} {us : List Token} (h : Awaits .unary stack us) :
      Awaits .unary stack (us ++ [.plus])
  | power {stack : List Frame} {us : List Token} (h : Awaits .unary stack us) :
      Awaits .power stack us
  | raise {stack : List Frame} {us vs : List Token} {base : Expr Float} (caret : ℕ)
      (h : Awaits .power stack us) (hbase : Derives .atom vs base) :
      Awaits .exponent (.power base caret :: stack) (us ++ vs ++ [.caret])
  | exponentNeg {stack : List Frame} {us : List Token} (h : Awaits .exponent stack us) :
      Awaits .exponent (.exponentMinus :: stack) (us ++ [.minus])
  | exponent {stack : List Frame} {us : List Token} (h : Awaits .exponent stack us) :
      Awaits .power stack us
  | atom {stack : List Frame} {us : List Token} (h : Awaits .power stack us) :
      Awaits .atom stack us

/-- The tokens lead to the stack and then on to a tree on top of it. -/
def Follows (X : Symbol) (stack : List Frame) (v : Expr Float) (us : List Token) : Prop :=
  ∃ ts vs, us = ts ++ vs ∧ Awaits X stack ts ∧ Derives X vs v

/-! ## Exponents that are refused -/

/-- The tokens end in an exponent that is no natural number. -/
def EndsInBadExponent (us : List Token) : Prop :=
  ∃ before es e, us = before ++ .caret :: es ∧ Derives .exponent es e ∧ ∀ n, ¬e.IsExponent n

/-- The failure is that of an exponent. -/
def RefusesExponent (error : Error) : Prop :=
  ∃ (e : Expr Float) (caret : ℕ), e.exponentOf caret = .error error

/-! ## Unwinding -/

/-- What is complete when a level has been unwound. -/
def Level.yield : Level → Symbol
  | .sum => .expr
  | _ => .term

/-- What comes of unwinding a level behind some tokens: its rules are
complete, or the tokens end in an exponent that is refused. -/
def Level.Unwinds (level : Level) (us : List Token) :
    Except Error (List Frame × Expr Float) → Prop
  | .ok (below, t) => Follows level.yield below t us
  | .error error => EndsInBadExponent us ∧ RefusesExponent error

/-- **Closing operators completes their rules**, up to an exponent that is
refused. -/
theorem Awaits.unwind {level : Level} (hlevel : level = .product ∨ level = .sum) {X : Symbol}
    {stack : List Frame} {us vs : List Token} {v : Expr Float}
    (h : Awaits X stack us) (hX : level = .product → X ≠ .expr) (hv : Derives X vs v) :
    level.Unwinds (us ++ vs) (Univariate.unwind level stack v) := by
  have hminus : Frame.minus.level.rank ≤ level.rank := by rcases hlevel with rfl | rfl <;> decide
  have hproduct {l sign} : (Frame.product l sign).level.rank ≤ level.rank := hminus
  have hparen : level.rank < Frame.paren.level.rank := by
    rcases hlevel with rfl | rfl <;> decide
  have hunary (us vs : List Token) (token : Token) :
      us ++ [token] ++ vs = us ++ token :: vs := by simp
  have hbinary (us vs ws : List Token) (token : Token) :
      us ++ vs ++ [token] ++ ws = us ++ (vs ++ token :: ws) := by simp
  induction h generalizing vs v with
  | start =>
      rcases hlevel with rfl | rfl
      · exact absurd rfl (hX rfl)
      · exact ⟨[], vs, rfl, .start, hv⟩
  | paren h ih =>
      rw [unwind_stop _ v hparen]
      rcases hlevel with rfl | rfl
      · exact absurd rfl (hX rfl)
      · exact ⟨_, vs, rfl, .paren h, hv⟩
  | add h hl ih =>
      rcases hlevel with rfl | rfl
      · exact ⟨_, vs, rfl, .add h hl, hv⟩
      · rw [hbinary]
        exact ih nofun (.add hl hv)
  | sub h hl ih =>
      rcases hlevel with rfl | rfl
      · exact ⟨_, vs, rfl, .sub h hl, hv⟩
      · rw [hbinary]
        exact ih nofun (.sub hl hv)
  | @term stack _ h ih =>
      rcases hlevel with rfl | rfl
      · -- An expression may come next only at the bottom and after a parenthesis.
        have hstop : Univariate.unwind .product stack v = .ok (stack, v) := by
          cases h with
          | start => rfl
          | paren h => exact unwind_stop _ v hparen
        rw [hstop]
        exact ⟨_, vs, rfl, .term h, hv⟩
      · exact ih nofun (.term hv)
  | mul h hl ih =>
      rw [unwind_cons _ v hproduct, hbinary]
      exact ih (fun _ => nofun) (.mul hl hv)
  | div h hl ih =>
      rw [unwind_cons _ v hproduct, hbinary]
      exact ih (fun _ => nofun) (.div hl hv)
  | adjacent h hl ih =>
      rw [unwind_cons _ v hproduct, List.append_assoc]
      exact ih (fun _ => nofun) (.adjacent hl hv)
  | unary h ih => exact ih (fun _ => nofun) (.unary hv)
  | neg h ih =>
      rw [unwind_cons _ v hminus, hunary]
      exact ih (fun _ => nofun) (.neg hv)
  | pos h ih =>
      rw [hunary]
      exact ih (fun _ => nofun) (.pos hv)
  | power h ih => exact ih (fun _ => nofun) (.power hv)
  | @raise _ us bs base caret h hbase ih =>
      rw [unwind_cons _ v (Nat.zero_le _), hbinary, Frame.close]
      cases hn : v.exponentOf caret with
      | ok n =>
          have hexponent := (Expr.exponentOf_eq_ok_iff v caret n).mp hn
          exact ih (fun _ => nofun) (.raise hbase hv hexponent)
      | error error =>
          refine ⟨⟨us ++ bs, vs, v, (List.append_assoc _ _ _).symm, hv, fun n hexponent => ?_⟩,
            v, caret, hn⟩
          rw [(Expr.exponentOf_eq_ok_iff v caret n).mpr hexponent] at hn
          cases hn
  | exponentNeg h ih =>
      rw [unwind_cons _ v (Nat.zero_le _), hunary]
      exact ih (fun _ => nofun) (.exponentNeg hv)
  | exponent h ih => exact ih (fun _ => nofun) (.exponent hv)
  | atom h ih => exact ih (fun _ => nofun) (.atom hv)

namespace Follows

variable {stack below : List Frame} {us : List Token} {v t : Expr Float}

/-- An atom in front of any token but a caret, or of the end. -/
theorem unwinds (h : Follows .atom stack v us) {level : Level}
    (hlevel : level = .product ∨ level = .sum) : level.Unwinds us (unwind level stack v) := by
  obtain ⟨ts, vs, rfl, hts, hvs⟩ := h
  exact hts.unwind hlevel (fun _ => nofun) hvs

/-- Unwinding to a product leaves a term. -/
theorem unwind_product (h : Follows .atom stack v us)
    (hunwind : unwind .product stack v = .ok (below, t)) : Follows .term below t us := by
  have hunwinds := h.unwinds (Or.inl rfl)
  rw [hunwind] at hunwinds
  exact hunwinds

/-- An atom in front of a sign of a sum, a closing parenthesis or the end
completes an expression. -/
theorem unwind_sum (h : Follows .atom stack v us)
    (hunwind : unwind .sum stack v = .ok (below, t)) : Follows .expr below t us := by
  have hunwinds := h.unwinds (Or.inr rfl)
  rw [hunwind] at hunwinds
  exact hunwinds

/-- Closing operators fails only behind a refused exponent. -/
theorem unwind_error (h : Follows .atom stack v us) {level : Level} {error : Error}
    (hlevel : level = .product ∨ level = .sum) (hunwind : unwind level stack v = .error error) :
    EndsInBadExponent us ∧ RefusesExponent error := by
  have hunwinds := h.unwinds hlevel
  rw [hunwind] at hunwinds
  exact hunwinds

/-- **An operator of sums** turns what has been read into an expression. -/
theorem pushSum {sign : SumSign} {s : Stage} (h : Follows .atom stack v us)
    (hpush : Stage.pushSum stack v sign = .ok s) :
    ∃ below t, s = .operand (.sum t sign :: below) ∧ Follows .expr below t us := by
  obtain ⟨⟨below, t⟩, hunwind, hs⟩ := bind_eq_ok hpush
  exact ⟨below, t, (Except.ok.inj hs).symm, h.unwind_sum hunwind⟩

/-- **An operator of products** turns what has been read into a term. -/
theorem pushProduct {sign : ProductSign} {stack' : List Frame} (h : Follows .atom stack v us)
    (hpush : Stage.pushProduct stack v sign = .ok stack') :
    ∃ below t, stack' = .product t sign :: below ∧ Follows .term below t us := by
  obtain ⟨⟨below, t⟩, hunwind, hstack⟩ := bind_eq_ok hpush
  exact ⟨below, t, (Except.ok.inj hstack).symm, h.unwind_product hunwind⟩

/-- Without an operator an operand is awaited. -/
theorem pushAdjacent {stack' : List Frame} (h : Follows .atom stack v us)
    (hpush : Stage.pushProduct stack v .adjacent = .ok stack') : Awaits .atom stack' us := by
  obtain ⟨below, t, rfl, ts, vs, rfl, hts, hvs⟩ := h.pushProduct hpush
  exact .atom (.adjacent hts hvs)

end Follows

/-! ## Reading -/

namespace Stage

/-- The tokens lead to the stage. -/
def Sound (us : List Token) : Stage → Prop
  | operand stack => Awaits .unary stack us
  | exponent stack => Awaits .exponent stack us
  | atom stack v => Follows .atom stack v us

variable {us : List Token} {s : Stage} {lexeme : Lexeme} {stack : List Frame} {v t : Expr Float}

/-- A number or the variable, where an atom may come next. -/
theorem sound_atom (h : Awaits .atom stack us) (hv : Derives .atom [lexeme.token] v) :
    (atom stack v).Sound (us ++ [lexeme.token]) :=
  ⟨us, [lexeme.token], rfl, h, hv⟩

/-- An open parenthesis, where an atom may come next. -/
theorem sound_paren (h : Awaits .atom stack us) :
    (operand (.paren :: stack)).Sound (us ++ [.openParen]) :=
  .unary (.term (.paren h))

/-- A step where an operand is expected is sound. -/
theorem sound_step_operand (h : Awaits .unary stack us)
    (hstep : (operand stack).step lexeme = .ok s) : s.Sound (us ++ [lexeme.token]) := by
  have hatom : Awaits .atom stack us := .atom (.power h)
  simp only [step] at hstep
  cases htoken : lexeme.token <;> rw [htoken] at hstep <;> cases hstep
  case number => exact htoken ▸ sound_atom hatom (htoken ▸ .number _)
  case var => exact htoken ▸ sound_atom hatom (htoken ▸ .var)
  case openParen => exact sound_paren hatom
  case minus => exact .neg h
  case plus => exact .pos h

/-- A step where an exponent is expected is sound. -/
theorem sound_step_exponent (h : Awaits .exponent stack us)
    (hstep : (exponent stack).step lexeme = .ok s) : s.Sound (us ++ [lexeme.token]) := by
  have hatom : Awaits .atom stack us := .atom (.exponent h)
  simp only [step] at hstep
  cases htoken : lexeme.token <;> rw [htoken] at hstep <;> cases hstep
  case number => exact htoken ▸ sound_atom hatom (htoken ▸ .number _)
  case var => exact htoken ▸ sound_atom hatom (htoken ▸ .var)
  case openParen => exact sound_paren hatom
  case minus => exact .exponentNeg h

/-- A closing parenthesis is sound. -/
theorem sound_step_closeParen (h : Follows .atom stack v us)
    (htoken : lexeme.token = .closeParen) (hstep : (atom stack v).step lexeme = .ok s) :
    s.Sound (us ++ [.closeParen]) := by
  simp only [step, htoken] at hstep
  obtain ⟨⟨below, t⟩, hunwind, hstep⟩ := bind_eq_ok hstep
  obtain ⟨ts, vs, rfl, hts, hvs⟩ := h.unwind_sum hunwind
  cases hts with
  | start => cases hstep
  | paren hbelow =>
      obtain rfl := Except.ok.inj hstep
      exact ⟨_, _, by simp, hbelow, .paren hvs⟩

/-- A step behind an operand is sound. -/
theorem sound_step_atom (h : Follows .atom stack v us)
    (hstep : (atom stack v).step lexeme = .ok s) : s.Sound (us ++ [lexeme.token]) := by
  have hstep' := hstep
  simp only [step] at hstep
  cases htoken : lexeme.token <;> rw [htoken] at hstep
  case caret =>
    obtain rfl := Except.ok.inj hstep
    obtain ⟨ts, vs, rfl, hts, hvs⟩ := h
    cases hts with
    | atom hts => exact .raise _ hts hvs
  case plus =>
    obtain ⟨below, t, rfl, ts, vs, rfl, hts, hvs⟩ := h.pushSum hstep
    exact .unary (.add hts hvs)
  case minus =>
    obtain ⟨below, t, rfl, ts, vs, rfl, hts, hvs⟩ := h.pushSum hstep
    exact .unary (.sub hts hvs)
  case star =>
    obtain ⟨stack', hpush, rfl⟩ := map_eq_ok hstep
    obtain ⟨below, t, rfl, ts, vs, rfl, hts, hvs⟩ := h.pushProduct hpush
    exact .mul hts hvs
  case slash =>
    obtain ⟨stack', hpush, rfl⟩ := map_eq_ok hstep
    obtain ⟨below, t, rfl, ts, vs, rfl, hts, hvs⟩ := h.pushProduct hpush
    exact .div hts hvs
  case number right =>
    obtain ⟨stack', hpush, hs⟩ := bind_eq_ok hstep
    obtain rfl := Except.ok.inj hs
    exact htoken ▸ sound_atom (h.pushAdjacent hpush) (htoken ▸ .number right)
  case var =>
    obtain ⟨stack', hpush, hs⟩ := bind_eq_ok hstep
    obtain rfl := Except.ok.inj hs
    exact htoken ▸ sound_atom (h.pushAdjacent hpush) (htoken ▸ .var)
  case openParen =>
    obtain ⟨stack', hpush, hs⟩ := bind_eq_ok hstep
    obtain rfl := Except.ok.inj hs
    exact sound_paren (h.pushAdjacent hpush)
  case closeParen => exact sound_step_closeParen h htoken hstep'

/-- **Every token keeps the invariant.** -/
theorem Sound.step {s' : Stage} (h : s.Sound us) (hstep : s.step lexeme = .ok s') :
    s'.Sound (us ++ [lexeme.token]) := by
  cases s with
  | operand stack => exact sound_step_operand h hstep
  | exponent stack => exact sound_step_exponent h hstep
  | atom stack v => exact sound_step_atom h hstep

/-- At the end all tokens together are an expression. -/
theorem Sound.finish {stop : ℕ} (h : s.Sound us) (hfinish : s.finish stop = .ok t) :
    Derives .expr us t := by
  cases s with
  | operand stack => cases hfinish
  | exponent stack => cases hfinish
  | atom stack v =>
      obtain ⟨⟨below, e⟩, hunwind, hfinish⟩ := bind_eq_ok hfinish
      obtain ⟨ts, vs, rfl, hts, hvs⟩ := h.unwind_sum hunwind
      cases hts with
      | start => exact Except.ok.inj hfinish ▸ hvs
      | paren hbelow => cases hfinish

/-- So a whole run keeps it. -/
theorem sound_of_run {ls : List Lexeme} (h : ls.foldlM Stage.step .start = .ok s) :
    s.Sound (ls.map Lexeme.token) := by
  have hstart : start.Sound [] := .unary (.term .start)
  exact foldlM_invariant (fun past (s : Stage) => s.Sound (past.map Lexeme.token))
    (fun past lexeme s s' hs hstep => by simpa using hs.step hstep) [] (b := .start) hstart h

end Stage

/-- **Whatever the parser answers, the grammar derives.** -/
theorem derives_of_ofLexemes {ls : List Lexeme} {failure : Option Error} {t : Expr Float}
    (h : Expr.ofLexemes ls failure = .ok t) :
    failure = none ∧ Derives .expr (ls.map Lexeme.token) t := by
  obtain ⟨s, hrun, hfinish⟩ := bind_eq_ok h
  cases failure with
  | some error => cases hfinish
  | none => exact ⟨rfl, (Stage.sound_of_run hrun).finish hfinish⟩

end Univariate
