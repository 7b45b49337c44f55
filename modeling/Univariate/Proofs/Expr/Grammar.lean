import Univariate.Expr.Parser
import Univariate.Proofs.Binary64.Decoding
import Univariate.Proofs.Expr.Folding

/-!
# The grammar of expressions

The grammar that the parser reads, as a relation between tokens and trees.
Sums and products recur on the left, powers on the right; the right
operand of a product without a sign is a power and so never starts with a
sign.  A power derives only if its exponent has no variable and is a
natural number below `2³²`.

* `Symbol`, `Derives` — the six nonterminals and their rules; `Phrase` — the
  same rules without the condition on exponents;
* `Expr.IsExponent` — what a power asks of its exponent, and
  `Expr.exponentOf_eq_ok_iff`, that the parser asks the same;
* `Derives.starts` — a power starts with a number, the variable or an open
  parenthesis;
* `unwind_cons`, `unwind_stop` — the parser closes an operator, or stops at
  it.
-/

namespace Univariate

namespace Expr

/-- The tree holds no variable and comes out as a natural number that is
not too large. -/
def IsExponent (e : Expr Float) (n : ℕ) : Prop :=
  e.mentionsVariable = false ∧
    ∃ value, e.constantValue? = some value ∧ Binary64.toInt? value = some (n : ℤ) ∧
      n ≤ maxExponent

end Expr

/-- The nonterminals. -/
inductive Symbol where
  | expr
  | term
  | unary
  | power
  | exponent
  | atom
deriving DecidableEq, Repr

/-- The trees that a nonterminal derives from tokens. -/
inductive Derives : Symbol → List Token → Expr Float → Prop
  | add {us vs : List Token} {l r : Expr Float} (hl : Derives .expr us l)
      (hr : Derives .term vs r) : Derives .expr (us ++ .plus :: vs) (.add l r)
  | sub {us vs : List Token} {l r : Expr Float} (hl : Derives .expr us l)
      (hr : Derives .term vs r) : Derives .expr (us ++ .minus :: vs) (.sub l r)
  | term {us : List Token} {t : Expr Float} (h : Derives .term us t) : Derives .expr us t
  | mul {us vs : List Token} {l r : Expr Float} (hl : Derives .term us l)
      (hr : Derives .unary vs r) : Derives .term (us ++ .star :: vs) (.mul l r)
  | div {us vs : List Token} {l r : Expr Float} (hl : Derives .term us l)
      (hr : Derives .unary vs r) : Derives .term (us ++ .slash :: vs) (.div l r)
  | adjacent {us vs : List Token} {l r : Expr Float} (hl : Derives .term us l)
      (hr : Derives .power vs r) : Derives .term (us ++ vs) (.mul l r)
  | unary {us : List Token} {t : Expr Float} (h : Derives .unary us t) : Derives .term us t
  | neg {us : List Token} {t : Expr Float} (h : Derives .unary us t) :
      Derives .unary (.minus :: us) (.neg t)
  | pos {us : List Token} {t : Expr Float} (h : Derives .unary us t) :
      Derives .unary (.plus :: us) t
  | power {us : List Token} {t : Expr Float} (h : Derives .power us t) : Derives .unary us t
  | raise {us vs : List Token} {base e : Expr Float} {n : ℕ} (hbase : Derives .atom us base)
      (he : Derives .exponent vs e) (hn : e.IsExponent n) :
      Derives .power (us ++ .caret :: vs) (.pow base n)
  | atom {us : List Token} {t : Expr Float} (h : Derives .atom us t) : Derives .power us t
  | exponentNeg {us : List Token} {t : Expr Float} (h : Derives .exponent us t) :
      Derives .exponent (.minus :: us) (.neg t)
  | exponent {us : List Token} {t : Expr Float} (h : Derives .power us t) :
      Derives .exponent us t
  | number (value : Float) : Derives .atom [.number value] (.const value)
  | var : Derives .atom [.var] .var
  | paren {us : List Token} {t : Expr Float} (h : Derives .expr us t) :
      Derives .atom (.openParen :: (us ++ [.closeParen])) t

/-- The tokens of a nonterminal, whatever its exponents come out as. -/
inductive Phrase : Symbol → List Token → Prop
  | add {us vs : List Token} (hl : Phrase .expr us) (hr : Phrase .term vs) :
      Phrase .expr (us ++ .plus :: vs)
  | sub {us vs : List Token} (hl : Phrase .expr us) (hr : Phrase .term vs) :
      Phrase .expr (us ++ .minus :: vs)
  | term {us : List Token} (h : Phrase .term us) : Phrase .expr us
  | mul {us vs : List Token} (hl : Phrase .term us) (hr : Phrase .unary vs) :
      Phrase .term (us ++ .star :: vs)
  | div {us vs : List Token} (hl : Phrase .term us) (hr : Phrase .unary vs) :
      Phrase .term (us ++ .slash :: vs)
  | adjacent {us vs : List Token} (hl : Phrase .term us) (hr : Phrase .power vs) :
      Phrase .term (us ++ vs)
  | unary {us : List Token} (h : Phrase .unary us) : Phrase .term us
  | neg {us : List Token} (h : Phrase .unary us) : Phrase .unary (.minus :: us)
  | pos {us : List Token} (h : Phrase .unary us) : Phrase .unary (.plus :: us)
  | power {us : List Token} (h : Phrase .power us) : Phrase .unary us
  | raise {us vs : List Token} (hbase : Phrase .atom us) (he : Phrase .exponent vs) :
      Phrase .power (us ++ .caret :: vs)
  | atom {us : List Token} (h : Phrase .atom us) : Phrase .power us
  | exponentNeg {us : List Token} (h : Phrase .exponent us) : Phrase .exponent (.minus :: us)
  | exponent {us : List Token} (h : Phrase .power us) : Phrase .exponent us
  | number (value : Float) : Phrase .atom [.number value]
  | var : Phrase .atom [.var]
  | paren {us : List Token} (h : Phrase .expr us) :
      Phrase .atom (.openParen :: (us ++ [.closeParen]))

/-- Tokens that derive a tree are a phrase. -/
theorem Derives.phrase {X : Symbol} {us : List Token} {t : Expr Float}
    (h : Derives X us t) : Phrase X us := by
  induction h with
  | add _ _ ihl ihr => exact .add ihl ihr
  | sub _ _ ihl ihr => exact .sub ihl ihr
  | term _ ih => exact .term ih
  | mul _ _ ihl ihr => exact .mul ihl ihr
  | div _ _ ihl ihr => exact .div ihl ihr
  | adjacent _ _ ihl ihr => exact .adjacent ihl ihr
  | unary _ ih => exact .unary ih
  | neg _ ih => exact .neg ih
  | pos _ ih => exact .pos ih
  | power _ ih => exact .power ih
  | raise _ _ _ ihbase ihe => exact .raise ihbase ihe
  | atom _ ih => exact .atom ih
  | exponentNeg _ ih => exact .exponentNeg ih
  | exponent _ ih => exact .exponent ih
  | number value => exact .number value
  | var => exact .var
  | paren _ ih => exact .paren ih

/-! ## Exponents -/

namespace Expr

/-- The parser accepts the exponents of the grammar, wherever the caret
stands. -/
theorem exponentOf_eq_ok_iff (e : Expr Float) (caret n : ℕ) :
    e.exponentOf caret = .ok n ↔ e.IsExponent n := by
  rw [exponentOf, IsExponent]
  cases hvar : e.mentionsVariable with
  | true => simp
  | false =>
      have hsome : e.constantValue? ≠ none := by
        rw [ne_eq, constantValue?_eq_none_iff, hvar]
        exact Bool.false_ne_true
      obtain ⟨value, hvalue⟩ := Option.ne_none_iff_exists'.mp hsome
      simp only [hvalue, Option.getD_some, Bool.false_eq_true, if_false, true_and,
        Option.some.injEq, exists_eq_left', Binary64.toInt?]
      cases FloatValue.ofFloat value with
      | undefined => simp
      | infinite negative => simp
      | finite d =>
          cases hint : d.toInt? with
          | none => simp [hint]
          | some k =>
              simp only [hint, Option.some.injEq]
              split_ifs with hneg hhuge
              · simp only [false_iff, not_and]
                omega
              · simp only [false_iff, not_and]
                omega
              · rw [Except.ok.injEq]
                omega

end Expr

/-! ## First tokens -/

/-- The token starts an atom. -/
def Token.StartsAtom : Token → Prop
  | .number _ | .var | .openParen => True
  | _ => False

/-- Powers and operands begin with a token that begins an operand. -/
theorem Phrase.starts {X : Symbol} {us : List Token} (h : Phrase X us)
    (hX : X = .power ∨ X = .atom) :
    ∃ first rest, us = first :: rest ∧ first.StartsAtom := by
  induction h with
  | raise _ _ ih _ =>
      obtain ⟨first, rest, rfl, hfirst⟩ := ih (Or.inr rfl)
      exact ⟨first, _, rfl, hfirst⟩
  | atom _ ih => exact ih (Or.inr rfl)
  | number value => exact ⟨_, _, rfl, trivial⟩
  | var => exact ⟨_, _, rfl, trivial⟩
  | paren _ _ => exact ⟨_, _, rfl, trivial⟩
  | _ => simp at hX

/-- So do the derived ones. -/
theorem Derives.starts {X : Symbol} {us : List Token} {t : Expr Float} (h : Derives X us t)
    (hX : X = .power ∨ X = .atom) : ∃ first rest, us = first :: rest ∧ first.StartsAtom :=
  h.phrase.starts hX

/-! ## Closing operators -/

/-- An operator that binds tightly enough is closed. -/
theorem unwind_cons {level : Level} {frame : Frame} (below : List Frame) (e : Expr Float)
    (h : frame.level.rank ≤ level.rank) :
    unwind level (frame :: below) e = frame.close e >>= unwind level below :=
  if_pos h

/-- An operator that binds too loosely stays. -/
theorem unwind_stop {level : Level} {frame : Frame} (below : List Frame) (e : Expr Float)
    (h : level.rank < frame.level.rank) :
    unwind level (frame :: below) e = .ok (frame :: below, e) :=
  if_neg (not_le.mpr h)

end Univariate
