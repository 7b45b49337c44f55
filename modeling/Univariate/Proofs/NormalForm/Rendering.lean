import Univariate.NormalForm.Render
import Univariate.Proofs.Display
import Univariate.Proofs.Expansion.Monomials
import Univariate.Proofs.Expr.Words

/-!
# A rendered polynomial as an expression

The text of a normal form is an expression again.  Its tree is a sum, from
left to right, of products of a number and a power of the variable; a minus
in front of the first term belongs to its number, unless the number is left
out.  Each term is read as the term with the number that its text shows, and
the terms come by descending degree, so that no two of them are added up.

* `Reads` — a text that is read as some tokens in front of a blank;
* `IsTerm`, `exists_term` — a rendered term: text, tokens, tree, expansion;
* `exists_sum` — further terms behind a sum;
* `NormalForm.readBack`, `exists_parse_render` — what the text of a normal
  form is normalized to.
-/

namespace Univariate

open Binary64 Decimal Token Expansion

namespace Display

/-- The number that a coefficient of a rendered polynomial reads as. -/
def shown (c : Float) : Float :=
  let magnitude := (Decimal.read? (real c.abs).toList).getD 0
  if c < 0 then -magnitude else magnitude

end Display

/-- The term as its text reads. -/
def shownTerm (t : ℕ × Float) : ℕ × Float := (t.1, Display.shown t.2)

/-- The normal form with every coefficient as its text reads, and without
those that read as zero. -/
def NormalForm.readBack (p : NormalForm Float) : NormalForm Float :=
  .ofAscending (p.terms.map shownTerm).reverse

/-! ## Texts in front of a blank -/

/-- What follows is nothing, or starts with a blank. -/
def Spaced (rest : List Char) : Prop := ∀ c ∈ rest.head?, c = ' '

/-- A blank ends a number. -/
theorem Spaced.endsNumber {rest : List Char} (h : Spaced rest) : EndsNumber rest := by
  intro c hc
  rw [h c hc]
  decide

/-- A blank ends a name. -/
theorem Spaced.endsName {rest : List Char} (h : Spaced rest) :
    ∀ c ∈ rest.head?, continuesName c = false := by
  intro c hc
  rw [h c hc]
  decide

/-- The text is read as these tokens, in front of whatever starts with a
blank. -/
def Reads (text : List Char) (tokens : List Token) : Prop :=
  ∀ rest more, Spaced rest → Lexes ['x'] rest more → Lexes ['x'] (text ++ rest) (tokens ++ more)

/-- A number in front of a blank is one token. -/
theorem reads_number {text : List Char} {y : Float} (h : ReadsAs text y)
    (hy : y.isFinite = true) : Reads text [.number y] := by
  intro rest more hspaced hrest
  exact hrest.number h hy hspaced.endsNumber

/-- A sign in front of a text is one more token. -/
theorem Reads.minus {text : List Char} {tokens : List Token} (h : Reads text tokens) :
    Reads ('-' :: text) (.minus :: tokens) := by
  intro rest more hspaced hrest
  exact (h rest more hspaced hrest).operator rfl

/-! ## Powers of the variable -/

theorem maxExponent_lt : maxExponent < 2 ^ 53 := by
  norm_num [maxExponent]

/-- The digits of an exponent are an exponent. -/
theorem exists_exponent {n : ℕ} (hmax : n ≤ maxExponent) :
    ∃ e, ReadsAs (natText n).toList e ∧ e.isFinite = true ∧ (Expr.const e).IsExponent n := by
  obtain ⟨e, hread, he⟩ := readsAs_natText (hmax.trans_lt maxExponent_lt)
  refine ⟨e, hread, (isFinite_iff e).mpr ⟨_, he⟩, rfl, e, rfl, ?_, hmax⟩
  exact (toInt?_eq_some_iff e n).mpr (by exact_mod_cast he)

/-- A rendered power of the variable: its text starts with the variable,
and its tree expands to that power. -/
theorem exists_power {d : ℕ} (hd : 0 < d) (hmax : d ≤ maxExponent) :
    ∃ tail tokens tree, (NormalForm.powerText "x" d).toList = 'x' :: tail ∧
      Reads ('x' :: tail) tokens ∧ Derives .power tokens tree ∧
      ∀ limit, d ≤ limit → ∃ r, tree.expand limit = .ok r ∧ Monomial d r := by
  by_cases hone : d = 1
  · subst hone
    refine ⟨[], [.var], .var, rfl, ?_, .atom .var, ?_⟩
    · intro rest more hspaced hrest
      exact hrest.variable hspaced.endsName
    · intro limit _
      exact ⟨_, rfl, monomial_single 1⟩
  · obtain ⟨e, hread, he, hexponent⟩ := exists_exponent hmax
    have htext : NormalForm.powerText "x" d = "x" ++ "^" ++ natText d := by
      unfold NormalForm.powerText
      split <;> first | rfl | omega
    refine ⟨'^' :: (natText d).toList, [.var, .caret, .number e], .pow .var d, ?_, ?_,
      .raise .var (.exponent (.atom (.number e))) hexponent, ?_⟩
    · rw [htext, String.toList_append, String.toList_append]
      rfl
    · intro rest more hspaced hrest
      have hnumber := reads_number hread he rest more hspaced hrest
      refine (hnumber.operator (c := '^') rfl).variable ?_
      intro c hc
      obtain rfl : '^' = c := Option.some.inj hc
      decide
    · intro limit hlimit
      have hpow := (monomial_single 1).pow (by rwa [one_mul] : 1 * d ≤ limit)
      rw [one_mul] at hpow
      exact hpow

/-! ## Terms -/

/-- The tree expands to one term, as far as the limit allows its degree. -/
def Expands (tree : Expr Float) (d : ℕ) (x : Float) : Prop :=
  ∀ limit, d ≤ limit → ∃ r, tree.expand limit = .ok r ∧ Lists r [(d, x)]

/-- The text of a term, its tokens, its tree and what the tree expands
to. -/
structure IsTerm (text : List Char) (tokens : List Token) (tree : Expr Float) (d : ℕ)
    (x : Float) : Prop where
  reads : Reads text tokens
  derives : Derives .term tokens tree
  expands : Expands tree d x

variable {tree : Expr Float} {text : List Char} {tokens : List Token} {d : ℕ} {x y : Float}
  {v : ℚ}

/-- The opposite of one term is one term. -/
theorem Expands.neg (h : Expands tree d x) (hx : Exactly x v) :
    Expands (.neg tree) d (-x) := by
  intro limit hlimit
  obtain ⟨r, hr, hlists⟩ := h limit hlimit
  have hy : Exactly (-x) (-1 * v) := by
    rw [neg_one_mul]
    exact hx.neg
  exact ⟨_, by rw [Expr.expand, hr]; rfl, hlists.map hx (fun hs => hs.neg) hy⟩

/-- A minus in front of a term that is a single operand. -/
theorem IsTerm.opposite (h : IsTerm text tokens tree d x) (hx : Exactly x v)
    (hunary : Derives .unary tokens tree) :
    IsTerm ('-' :: text) (.minus :: tokens) (.neg tree) d (-x) :=
  ⟨h.reads.minus, .unary (.neg hunary), h.expands.neg hx⟩

/-- A number in front of a power of the variable. -/
theorem IsTerm.times {us : List Token} {coefficient power : Expr Float}
    (hreads : Reads text (us ++ tokens)) (hcoefficient : Derives .term us coefficient)
    (hexpands : Expands coefficient 0 x) (hx : Exactly x v) (hpower : Derives .power tokens power)
    (hmonomial : ∀ limit, d ≤ limit → ∃ r, power.expand limit = .ok r ∧ Monomial d r) :
    IsTerm text (us ++ tokens) (.mul coefficient power) d x := by
  refine ⟨hreads, .adjacent hcoefficient hpower, ?_⟩
  intro limit hlimit
  obtain ⟨p, hp, hlists⟩ := hexpands limit (Nat.zero_le limit)
  obtain ⟨q, hq, hmonomial⟩ := hmonomial limit hlimit
  obtain ⟨r, hr, hproduct⟩ := hlists.mul hx hmonomial (by rwa [zero_add] : 0 + d ≤ limit)
  rw [zero_add] at hproduct
  exact ⟨r, by rw [Expr.expand, hp, hq]; exact hr, hproduct⟩

/-- **A rendered term is read as the term with the number it shows**, with
a minus in front as its opposite. -/
theorem exists_term {c : Float} (hread : ReadsAs (Display.real c.abs).toList y)
    (hy : Exactly y v) (hmax : d ≤ maxExponent) :
    ∃ tokens tree opposite, IsTerm (NormalForm.termText "x" d c).toList tokens tree d y ∧
      IsTerm ('-' :: (NormalForm.termText "x" d c).toList) (.minus :: tokens) opposite d (-y) := by
  have hfinite : y.isFinite = true := (isFinite_iff y).mpr ⟨_, hy⟩
  have hatom : Derives .unary [.number y] (.const y) := .power (.atom (.number y))
  have hconst : Expands (.const y) 0 y := fun limit _ => ⟨_, rfl, .single 0 hy⟩
  rcases Nat.eq_zero_or_pos d with rfl | hd
  · -- The number alone.
    have htext : NormalForm.termText "x" 0 c = Display.real c.abs := by
      simp [NormalForm.termText, NormalForm.powerText]
    have hterm : IsTerm (Display.real c.abs).toList [.number y] (.const y) 0 y :=
      ⟨reads_number hread hfinite, .unary hatom, hconst⟩
    rw [htext]
    exact ⟨_, _, _, hterm, hterm.opposite hy hatom⟩
  obtain ⟨tail, tokens, power, hpowerText, hpowerReads, hpower, hmonomial⟩ := exists_power hd hmax
  by_cases hone : Display.real c.abs = "1"
  · -- The power alone.
    have htext : (NormalForm.termText "x" d c).toList = 'x' :: tail := by
      simp [NormalForm.termText, hone, hd.ne', hpowerText]
    have hvalue : v = 1 := by
      rw [hone] at hread
      exact_mod_cast value_of_readsAs (n := 1) (by norm_num) hread hy
    have hterm : IsTerm ('x' :: tail) tokens power d y := by
      refine ⟨hpowerReads, .unary (.power hpower), fun limit hlimit => ?_⟩
      obtain ⟨r, hr, hmonomial⟩ := hmonomial limit hlimit
      exact ⟨r, hr, hmonomial.lists (hvalue ▸ hy)⟩
    rw [htext]
    exact ⟨_, _, _, hterm, hterm.opposite hy (.power hpower)⟩
  · -- The number and the power side by side.
    have htext : (NormalForm.termText "x" d c).toList =
        (Display.real c.abs).toList ++ 'x' :: tail := by
      simp [NormalForm.termText, hone, hpowerText]
    have hreads : Reads ((Display.real c.abs).toList ++ 'x' :: tail) ([.number y] ++ tokens) := by
      intro rest more hspaced hrest
      rw [List.append_assoc, List.append_assoc]
      refine (hpowerReads rest more hspaced hrest).number hread hfinite ?_
      intro c hc
      obtain rfl : 'x' = c := Option.some.inj hc
      decide
    rw [htext]
    exact ⟨_, _, _, .times hreads (.unary hatom) hconst hy hpower hmonomial,
      .times hreads.minus (.unary (.neg hatom)) (hconst.neg hy) hy.neg hpower hmonomial⟩

/-! ## Sums -/

/-- The text of a term behind others. -/
def laterText (t : ℕ × Float) : String :=
  NormalForm.signText false (t.2 < 0) ++ NormalForm.termText "x" t.1 t.2

/-- An operator between two blanks. -/
theorem Reads.behind {operator : Char} {token : Token} (h : Reads text tokens)
    (hoperator : ofChar? operator = some token) :
    Reads (' ' :: operator :: ' ' :: text) (token :: tokens) := by
  intro rest more hspaced hrest
  exact (((h rest more hspaced hrest).spacing rfl).operator hoperator).spacing rfl

/-- **A further term behind a sum**: the text goes on with an operator and
the term, and the sum with the term that its text shows. -/
theorem exists_later {us : List Token} {ts : List (ℕ × Float)} {p : Expansion Float} {limit : ℕ}
    {c : Float} (hderives : Derives .expr us tree) (hexpand : tree.expand limit = .ok p)
    (hp : p.Lists ts) (hts : ∀ t ∈ ts, d < t.1) (hc : c.isFinite = true)
    (hmax : d ≤ maxExponent) (hlimit : d ≤ limit) :
    ∃ vs tree' p', Reads (laterText (d, c)).toList vs ∧ Derives .expr (us ++ vs) tree' ∧
      tree'.expand limit = .ok p' ∧ p'.Lists ((d, Display.shown c) :: ts) := by
  obtain ⟨q, hq⟩ := (isFinite_iff c).mp hc
  obtain ⟨y, r, hread, hy, -⟩ := Display.readsAs_real hq
  obtain ⟨tokens, term, -, hterm, -⟩ := exists_term (d := d) hread hy hmax
  obtain ⟨t, ht, hlists⟩ := hterm.expands limit hlimit
  by_cases hnegative : c < 0
  · have hshown : Display.shown c = -y := by simp [Display.shown, hread.read, hnegative]
    have htext : (laterText (d, c)).toList =
        ' ' :: '-' :: ' ' :: (NormalForm.termText "x" d c).toList := by
      simp [laterText, NormalForm.signText, hnegative]
    have hopposite : Exactly (-y) (-1 * r) := by
      rw [neg_one_mul]
      exact hy.neg
    rw [htext, hshown]
    exact ⟨.minus :: tokens, .sub tree term, _, hterm.reads.behind rfl, .sub hderives hterm.derives,
      by rw [Expr.expand, hexpand, ht]; rfl,
      hp.addSigned hts hlists hy exactly_scalar_one.neg (by simp) hopposite⟩
  · have hshown : Display.shown c = y := by simp [Display.shown, hread.read, hnegative]
    have htext : (laterText (d, c)).toList =
        ' ' :: '+' :: ' ' :: (NormalForm.termText "x" d c).toList := by
      simp [laterText, NormalForm.signText, hnegative]
    have hsame : Exactly y (1 * r) := by rwa [one_mul]
    rw [htext, hshown]
    exact ⟨.plus :: tokens, .add tree term, _, hterm.reads.behind rfl, .add hderives hterm.derives,
      by rw [Expr.expand, hexpand, ht]; rfl,
      hp.addSigned hts hlists hy exactly_scalar_one abs_one hsame⟩

/-- Further terms start with a blank. -/
theorem Spaced.later {rest : List Char} (h : Spaced rest) (terms : List (ℕ × Float)) :
    Spaced ((String.join (terms.map laterText)).toList ++ rest) := by
  cases terms with
  | nil => exact h
  | cons t terms =>
      obtain ⟨tail, htail⟩ : ∃ tail, (laterText t).toList = ' ' :: tail := by
        by_cases hnegative : t.2 < 0 <;> simp [laterText, NormalForm.signText, hnegative]
      intro c hc
      rw [List.map_cons, String.join_cons, String.toList_append, htail] at hc
      exact (Option.some.inj hc).symm

/-- **Further terms behind a sum**, by descending degree. -/
theorem exists_sum {us : List Token} {ts : List (ℕ × Float)} {p : Expansion Float} {limit : ℕ}
    (terms : List (ℕ × Float)) (hderives : Derives .expr us tree)
    (hexpand : tree.expand limit = .ok p) (hp : p.Lists ts)
    (hdescending : terms.Pairwise fun s t => t.1 < s.1)
    (hbelow : ∀ t ∈ terms, ∀ s ∈ ts, t.1 < s.1) (hfinite : ∀ t ∈ terms, t.2.isFinite = true)
    (hmax : ∀ t ∈ terms, t.1 ≤ maxExponent) (hlimit : ∀ t ∈ terms, t.1 ≤ limit) :
    ∃ vs tree' p', Reads (String.join (terms.map laterText)).toList vs ∧
      Derives .expr (us ++ vs) tree' ∧ tree'.expand limit = .ok p' ∧
      p'.Lists ((terms.map shownTerm).reverse ++ ts) := by
  induction terms generalizing us tree ts p with
  | nil =>
      refine ⟨[], tree, p, ?_, ?_, hexpand, hp⟩
      · intro rest more _ hrest
        exact hrest
      · rwa [List.append_nil]
  | cons t terms ih =>
      obtain ⟨d, c⟩ := t
      rw [List.forall_mem_cons] at hbelow hfinite hmax hlimit
      obtain ⟨hfirst, hdescending⟩ := List.pairwise_cons.mp hdescending
      obtain ⟨vs, sum, p', hreads, hderives', hexpand', hp'⟩ :=
        exists_later hderives hexpand hp hbelow.1 hfinite.1 hmax.1 hlimit.1
      have hbelow' : ∀ t ∈ terms, ∀ s ∈ (d, Display.shown c) :: ts, t.1 < s.1 := by
        intro t ht
        rw [List.forall_mem_cons]
        exact ⟨hfirst t ht, hbelow.2 t ht⟩
      obtain ⟨vs', whole, p'', hreads', hderives'', hexpand'', hp''⟩ :=
        ih hderives' hexpand' hp' hdescending hbelow' hfinite.2 hmax.2 hlimit.2
      refine ⟨vs ++ vs', whole, p'', ?_, ?_, hexpand'', ?_⟩
      · rw [List.map_cons, String.join_cons, String.toList_append]
        intro rest more hrest hmore
        rw [List.append_assoc, List.append_assoc]
        exact hreads _ _ (hrest.later terms) (hreads' rest more hrest hmore)
      · rwa [← List.append_assoc]
      · rw [List.map_cons, List.reverse_cons, List.append_assoc]
        exact hp''

/-! ## The whole text -/

/-- The first term, with its sign. -/
theorem exists_first {c : Float} (hc : c.isFinite = true) (hmax : d ≤ maxExponent) :
    ∃ tokens tree, IsTerm (NormalForm.signText true (c < 0) ++
      NormalForm.termText "x" d c).toList tokens tree d (Display.shown c) := by
  obtain ⟨q, hq⟩ := (isFinite_iff c).mp hc
  obtain ⟨y, r, hread, hy, -⟩ := Display.readsAs_real hq
  obtain ⟨tokens, term, opposite, hterm, hopposite⟩ := exists_term (d := d) hread hy hmax
  by_cases hnegative : c < 0
  · have hshown : Display.shown c = -y := by simp [Display.shown, hread.read, hnegative]
    have htext : (NormalForm.signText true (c < 0) ++ NormalForm.termText "x" d c).toList =
        '-' :: (NormalForm.termText "x" d c).toList := by
      simp [NormalForm.signText, hnegative]
    rw [htext, hshown]
    exact ⟨_, _, hopposite⟩
  · have hshown : Display.shown c = y := by simp [Display.shown, hread.read, hnegative]
    have htext : NormalForm.signText true (c < 0) ++ NormalForm.termText "x" d c =
        NormalForm.termText "x" d c := by
      simp [NormalForm.signText, hnegative]
    rw [htext, hshown]
    exact ⟨_, _, hterm⟩

/-- What is read from a text that ends behind its last token. -/
theorem Reads.parse {text : String} (h : Reads text.toList tokens)
    (hderives : Derives .expr tokens tree) : Expr.parse "x" text = .ok tree := by
  have hlex := h [] [] (by simp [Spaced]) lexes_nil
  rw [List.append_nil, List.append_nil] at hlex
  exact Expr.parse_of_lexes hlex hderives

/-- **The text of a normal form is normalized to the normal form with the
coefficients that its text shows.** -/
theorem exists_parse_render {p : NormalForm Float} {limit : ℕ}
    (hdescending : p.terms.Pairwise fun s t => t.1 < s.1)
    (hfinite : ∀ t ∈ p.terms, t.2.isFinite = true) (hmax : ∀ t ∈ p.terms, t.1 ≤ maxExponent)
    (hlimit : ∀ t ∈ p.terms, t.1 ≤ limit) :
    ∃ t, Expr.parse "x" (p.render "x") = .ok t ∧ t.normalize limit = .ok p.readBack := by
  obtain ⟨terms⟩ := p
  cases terms with
  | nil =>
      obtain ⟨y, hread, hy⟩ := readsAs_natText (n := 0) (by norm_num)
      have hzero : Scalar.eq y Scalar.zero = true := hy.eq_zero_iff.mpr Nat.cast_zero
      have hnormal : (Expansion.single 0 y).toNormalForm = .ofAscending [(0, y)] :=
        (Lists.single 0 hy).toNormalForm_eq
      refine ⟨.const y, (reads_number hread ((isFinite_iff y).mpr ⟨_, hy⟩)).parse
        (.term (.unary (.power (.atom (.number y))))), ?_⟩
      show Except.ok (Expansion.single 0 y).toNormalForm = .ok _
      rw [hnormal]
      simp [NormalForm.readBack, NormalForm.ofAscending, hzero]
  | cons t terms =>
      obtain ⟨d, c⟩ := t
      obtain ⟨hfirst, hdescending⟩ := List.pairwise_cons.mp hdescending
      rw [List.forall_mem_cons] at hfinite hmax hlimit
      obtain ⟨us, term, hterm⟩ := exists_first hfinite.1 hmax.1
      obtain ⟨r, hr, hlists⟩ := hterm.expands limit hlimit.1
      have hbelow : ∀ t ∈ terms, ∀ s ∈ [(d, Display.shown c)], t.1 < s.1 := by
        intro t ht
        rw [List.forall_mem_singleton]
        exact hfirst t ht
      obtain ⟨vs, tree, r', hreads, hderives, hexpand, hlists'⟩ :=
        exists_sum terms (.term hterm.derives) hr hlists hdescending hbelow hfinite.2 hmax.2
          hlimit.2
      have hwhole : Reads ((NormalForm.mk ((d, c) :: terms)).render "x").toList (us ++ vs) := by
        have htext : (NormalForm.mk ((d, c) :: terms)).render "x" =
            NormalForm.signText true (c < 0) ++ NormalForm.termText "x" d c ++
              String.join (terms.map laterText) := rfl
        rw [htext, String.toList_append]
        intro rest more hrest hmore
        rw [List.append_assoc, List.append_assoc]
        exact hterm.reads _ _ (hrest.later terms) (hreads rest more hrest hmore)
      have hnormal : r'.toNormalForm = (NormalForm.mk ((d, c) :: terms)).readBack := by
        rw [hlists'.toNormalForm_eq, NormalForm.readBack, List.map_cons, List.reverse_cons]
        rfl
      refine ⟨tree, hwhole.parse hderives, ?_⟩
      rw [Expr.normalize, hexpand, ← hnormal]
      rfl

end Univariate
