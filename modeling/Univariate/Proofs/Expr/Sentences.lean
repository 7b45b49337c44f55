import Univariate.Proofs.Expr.Grammar

/-!
# Sentences and how they begin

Whether tokens form an expression is a matter of the grammar alone; whether
the exponents in it are natural numbers is found out by computing them.
Here the grammar is taken by itself.

What may come after some tokens that begin a sentence depends on very
little of them: whether an operand or an exponent is expected or has just
been read, and how many parentheses are open.  A `Place` holds that and no
more, and every phrase leads from the place where it is expected to the one
behind an operand.  So a token for which a place has no successor is one
that no sentence has there.

* `Sentence`, `Viable` — the tokens are an expression, or begin one;
* `Place`, `Phrase.reads` — where phrases lead;
* `Sentence.reads`, `Viable.reads` — what sentences and their beginnings
  have in common.
-/

namespace Univariate

/-- The tokens are an expression, whatever its exponents come out as. -/
def Sentence (us : List Token) : Prop := Phrase .expr us

/-- The tokens begin a sentence. -/
def Viable (us : List Token) : Prop := ∃ vs, Sentence (us ++ vs)

variable {X : Symbol} {us vs : List Token} {token : Token} {depth : ℕ}

/-! ## Places -/

/-- What is expected, or has just been read. -/
inductive Expecting where
  | operand
  | exponent
  /-- Nothing: an operand has just been read. -/
  | nothing
deriving DecidableEq

/-- Where reading stands, as far as the next token is concerned. -/
structure Place where
  expecting : Expecting
  /-- How many parentheses are open. -/
  depth : ℕ

namespace Place

/-- Nothing has been read. -/
def start : Place := ⟨.operand, 0⟩

/-- The place behind one more token, if it can stand there. -/
def step (p : Place) (token : Token) : Option Place :=
  match p.expecting, token with
  | _, .number _ | _, .var => some ⟨.nothing, p.depth⟩
  | _, .openParen => some ⟨.operand, p.depth + 1⟩
  | .operand, .plus | .operand, .minus => some p
  | .exponent, .minus => some p
  | .nothing, .plus | .nothing, .minus | .nothing, .star | .nothing, .slash =>
    some ⟨.operand, p.depth⟩
  | .nothing, .caret => some ⟨.exponent, p.depth⟩
  | .nothing, .closeParen => if p.depth = 0 then none else some ⟨.nothing, p.depth - 1⟩
  | _, _ => none

/-- The place behind some tokens. -/
def reads (p : Place) (us : List Token) : Option Place := us.foldlM step p

/-- One token, and then the others. -/
theorem reads_cons (p : Place) (token : Token) (us : List Token) :
    p.reads (token :: us) = p.step token >>= fun q => q.reads us := rfl

/-- Tokens may be read in two portions. -/
theorem reads_append (p : Place) (us vs : List Token) :
    p.reads (us ++ vs) = p.reads us >>= fun q => q.reads vs :=
  List.foldlM_append

/-- An operand may start wherever reading stands. -/
theorem step_of_startsAtom (h : token.StartsAtom) (e e' : Expecting) :
    step ⟨e, depth⟩ token = step ⟨e', depth⟩ token := by
  cases token <;> first | exact h.elim | (cases e <;> cases e' <;> rfl)

/-- Behind a token that begins an operand it makes no difference what was
expected. -/
theorem reads_of_starts (h : ∃ first rest, us = first :: rest ∧ first.StartsAtom)
    (e e' : Expecting) : reads ⟨e, depth⟩ us = reads ⟨e', depth⟩ us := by
  obtain ⟨first, rest, rfl, hfirst⟩ := h
  rw [reads_cons, reads_cons, step_of_startsAtom hfirst e e']

end Place

/-- Where a nonterminal is expected. -/
def Symbol.expecting : Symbol → Expecting
  | .exponent => .exponent
  | _ => .operand

open Place

/-- One operator between two phrases. -/
theorem reads_operator {e e' : Expecting} (hus : reads ⟨e, depth⟩ us = some ⟨.nothing, depth⟩)
    (htoken : step ⟨.nothing, depth⟩ token = some ⟨e', depth⟩)
    (hvs : reads ⟨e', depth⟩ vs = some ⟨.nothing, depth⟩) :
    reads ⟨e, depth⟩ (us ++ token :: vs) = some ⟨.nothing, depth⟩ := by
  rw [reads_append, hus]
  show reads ⟨.nothing, depth⟩ (token :: vs) = _
  rw [reads_cons, htoken]
  exact hvs

/-- **A phrase leads behind an operand**, and leaves the parentheses in
front of it open. -/
theorem Phrase.reads (h : Phrase X us) (depth : ℕ) :
    Place.reads ⟨X.expecting, depth⟩ us = some ⟨.nothing, depth⟩ := by
  induction h generalizing depth with
  | add _ _ ihl ihr | sub _ _ ihl ihr | mul _ _ ihl ihr | div _ _ ihl ihr | raise _ _ ihl ihr =>
      exact reads_operator (ihl depth) rfl (ihr depth)
  | @adjacent us vs _ hr ihl ihr =>
      rw [reads_append, ihl depth]
      exact (reads_of_starts (hr.starts (Or.inl rfl)) _ _).trans (ihr depth)
  | term _ ih | unary _ ih | power _ ih | atom _ ih => exact ih depth
  | neg _ ih | pos _ ih | exponentNeg _ ih => exact ih depth
  | exponent h ih => exact (reads_of_starts (h.starts (Or.inl rfl)) _ _).trans (ih depth)
  | number value => rfl
  | var => rfl
  | @paren us _ ih =>
      have hus : Place.reads ⟨.operand, depth + 1⟩ us = some ⟨.nothing, depth + 1⟩ := ih (depth + 1)
      have hinside : Place.reads ⟨.operand, depth + 1⟩ (us ++ [.closeParen]) =
          some ⟨.nothing, depth⟩ := by
        rw [reads_append, hus]
        rfl
      exact hinside

/-- A sentence leaves no parenthesis open. -/
theorem Sentence.reads (h : Sentence us) : start.reads us = some ⟨.nothing, 0⟩ := Phrase.reads h 0

/-- **What begins the beginning of a sentence begins one.** -/
theorem Viable.of_append (h : Viable (us ++ vs)) : Viable us := by
  obtain ⟨ws, h⟩ := h
  exact ⟨vs ++ ws, by rwa [← List.append_assoc]⟩

/-- **What begins a sentence can be read.** -/
theorem Viable.reads (h : Viable us) : ∃ p, start.reads us = some p := by
  obtain ⟨vs, h⟩ := h
  have hreads := h.reads
  rw [reads_append] at hreads
  obtain ⟨p, hp, -⟩ := Option.bind_eq_some_iff.mp hreads
  exact ⟨p, hp⟩

/-- A token that cannot stand behind some tokens ends no beginning of a
sentence. -/
theorem not_viable_of_step {p : Place} (hreads : start.reads us = some p)
    (hstep : p.step token = none) : ¬Viable (us ++ [token]) := by
  intro h
  obtain ⟨q, hq⟩ := h.reads
  rw [reads_append, hreads] at hq
  have hnone : p.reads [token] = none := by
    rw [reads_cons, hstep]
    rfl
  exact absurd (hnone.symm.trans hq) (Option.some_ne_none q).symm

end Univariate
