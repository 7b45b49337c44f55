import Univariate.Proofs.NormalForm.Canonical
import Univariate.Proofs.NormalForm.Products
import Univariate.Proofs.NormalForm.Rendering
import Univariate.Proofs.Roots.Reconstruction

/-!
# A rendered factorization as an expression

A factorization is written as a number and powers of linear factors, side
by side.  A leading one is left out, and of minus one only the sign is left;
a factor shows its root with the opposite sign, and is the variable alone if
the root is zero.  The text is an expression again: a minus in front belongs
to the first operand, an exponent to the factor in front of it, and what
stands side by side is multiplied from left to right.  The variable alone is
read as a name, since the next factor has another root and starts with a
parenthesis.

The tree is a product, and so none of its parts is larger than itself.  The
factors are multiplied out one root at a time elsewhere, and come to the same
polynomial, because nothing is rounded on either way.

* `Root.IsInteger` — an integer root with its multiplicity;
* `Factorization.toNormalForm_eq` — the factors multiplied out;
* `Root.IsInteger.exists_linear`, `Root.IsInteger.exists_factor`,
  `exists_factors` — the texts of factors, with their tokens and trees;
* `Factorization.exists_tree` — the whole text;
* `Factorization.normalize_render` — it denotes the polynomial.
-/

namespace Univariate

open Binary64 Decimal Token Polynomial

/-- An integer root with its multiplicity. -/
structure Root.IsInteger (c : Root Float) (p : ℤ × ℕ) : Prop where
  re : Exactly c.value.re p.1
  im : Exactly c.value.im 0
  multiplicity : c.multiplicity = p.2

/-- The product of the powers of linear factors. -/
noncomputable def rootPowers (powers : List (ℤ × ℕ)) : ℤ[X] :=
  (powers.map fun p => (X - C p.1) ^ p.2).prod

/-- The magnitude of that product, with all signs left aside. -/
def rootSizes (powers : List (ℤ × ℕ)) : ℕ := (powers.map fun p => (1 + p.1.natAbs) ^ p.2).prod

theorem rootPowers_cons (p : ℤ × ℕ) (powers : List (ℤ × ℕ)) :
    rootPowers (p :: powers) = (X - C p.1) ^ p.2 * rootPowers powers := by
  rw [rootPowers, List.map_cons, List.prod_cons, rootPowers]

theorem rootSizes_cons (p : ℤ × ℕ) (powers : List (ℤ × ℕ)) :
    rootSizes (p :: powers) = (1 + p.1.natAbs) ^ p.2 * rootSizes powers := by
  rw [rootSizes, List.map_cons, List.prod_cons, rootSizes]

variable {F : Factorization Float} {lead : ℤ} {powers : List (ℤ × ℕ)}

/-! ## The factors multiplied out -/

/-- Every root as often as it counts. -/
def repeated (powers : List (ℤ × ℕ)) : List ℤ := powers.flatMap fun p => List.replicate p.2 p.1

/-- A product over repeated roots is one of powers. -/
theorem prod_map_repeated {M : Type} [CommMonoid M] (g : ℤ → M) (powers : List (ℤ × ℕ)) :
    ((repeated powers).map g).prod = (powers.map fun p => g p.1 ^ p.2).prod := by
  induction powers with
  | nil => rfl
  | cons p powers ih =>
      rw [repeated, List.flatMap_cons, List.map_append, List.prod_append, List.map_replicate,
        List.prod_replicate, ← repeated, ih, List.map_cons, List.prod_cons]

/-- **Repeated roots make powers of linear factors.** -/
theorem withRoots_repeated (lead : ℤ) (powers : List (ℤ × ℕ)) :
    withRoots lead (repeated powers) = C lead * rootPowers powers :=
  congrArg (C lead * ·) (prod_map_repeated _ powers)

/-- There are as many roots as the powers say. -/
theorem length_repeated (powers : List (ℤ × ℕ)) :
    (repeated powers).length = (powers.map Prod.snd).sum := by
  rw [repeated, List.length_flatMap]
  simp only [List.length_replicate]

/-- The degree is the sum of the powers. -/
theorem natDegree_rootPowers (hlead : lead ≠ 0) :
    (C lead * rootPowers powers).natDegree = (powers.map Prod.snd).sum := by
  rw [← withRoots_repeated, natDegree_withRoots hlead, length_repeated]

namespace Factorization

/-- **Small integer factors are multiplied out exactly.** -/
theorem toNormalForm_eq (hlead : Exactly F.leading lead) (hne : lead ≠ 0)
    (hfactors : List.Forall₂ Root.IsInteger F.factors powers)
    (hsmall : lead.natAbs * rootSizes powers < 2 ^ 53) :
    F.toNormalForm = .ofPolynomial (C lead * rootPowers powers) := by
  have hsizes : |lead| * ((repeated powers).map fun r => 1 + |r|).prod < 2 ^ 53 := by
    have hcast : ((repeated powers).map fun r => 1 + |r|).prod = (rootSizes powers : ℤ) := by
      rw [prod_map_repeated, rootSizes, Nat.cast_list_prod, List.map_map]
      simp [Function.comp_def]
    rw [hcast, Int.abs_eq_natAbs]
    exact_mod_cast hsmall
  have hconstant (i : ℕ) : |(C lead).coeff i| ≤ |lead| := by
    rw [coeff_C]
    split_ifs
    · exact le_rfl
    · rw [abs_zero]
      exact abs_nonneg lead
  have hnumeric : Numeric (withRoots lead (repeated powers)) := fun i =>
    (abs_coeff_mul_prod_le hconstant _ i).trans_lt hsizes
  have hroots : List.Forall₂ (fun z r => Near 0 z r ∧ Exactly z.im 0)
      (F.factors.flatMap fun c => List.replicate c.multiplicity c.value) (repeated powers) := by
    refine List.rel_flatMap hfactors fun c p hc => ?_
    rw [hc.multiplicity]
    exact forall₂_replicate ⟨⟨_, hc.re, by rw [sub_self, abs_zero]⟩, hc.im⟩ p.2
  have htracks := (Tracks.single 0 hlead hne).timesLinears le_rfl hroots
    ((staysExact_of_lt hconstant hsizes).factorsFit 0 _)
  rw [← expand_eq_foldl, ← withRoots] at htracks
  rw [← withRoots_repeated]
  refine NormalForm.Agree.eq (fun d => ⟨_, ?_, NormalForm.exactly_coefficient hnumeric d⟩)
    (NormalForm.canonical_ofDense _) (NormalForm.canonical_ofPolynomial hnumeric)
  refine NormalForm.exactly_coefficient_ofDense (fun c hc => ?_) fun hnone => ?_
  · rw [List.getElem?_map, Option.map_eq_some_iff] at hc
    obtain ⟨z, hz, rfl⟩ := hc
    obtain ⟨⟨v, hv, hclose⟩, -⟩ := htracks.holds d z hz
    rw [add_zero, one_pow] at hclose
    rwa [← hclose.eq]
  · rw [List.getElem?_map, Option.map_eq_none_iff, List.getElem?_eq_none_iff] at hnone
    exact_mod_cast (htracks.beyond d hnone).1

end Factorization

/-! ## Texts of factors -/

section Factors

variable {c : Root Float} {p : ℤ × ℕ} {k : ℤ}

/-- The text of a linear factor. -/
theorem Root.IsInteger.linearText_eq (hc : c.IsInteger p) :
    c.linearText "x" =
      if p.1 = 0 then "x"
      else "(x " ++ (if 0 < p.1 then "-" else "+") ++ " " ++
        Display.real c.value.re.abs ++ ")" := by
  have hreal : Display.complex c.value = Display.real c.value.re := by
    have him : Display.real c.value.im = "0" :=
      (Display.real_eq_zero_iff (k := 0) (by exact_mod_cast hc.im)).mpr rfl
    rw [Display.complex, if_pos him]
  have hisReal : c.isReal = true := hc.im.eq_zero_iff.mpr rfl
  have hpositive : 0 < c.value.re ↔ 0 < p.1 := (exactly_zero.lt_iff hc.re).trans Int.cast_pos
  rw [Root.linearText, hreal, if_pos hisReal]
  by_cases hp : p.1 = 0
  · rw [if_pos hp, if_pos ((Display.real_eq_zero_iff hc.re).mpr hp)]
  · have hre : (p.1 : ℚ) ≠ 0 := by exact_mod_cast hp
    rw [if_neg hp, if_neg (mt (Display.real_eq_zero_iff hc.re).mp hp)]
    by_cases hsign : 0 < p.1
    · have habs : c.value.re.abs = c.value.re := by
        have h := hc.re.abs
        rw [abs_of_pos (by exact_mod_cast hsign)] at h
        exact h.eq_of_ne_zero hc.re hre
      rw [if_pos hsign, if_pos (hpositive.mpr hsign), habs]
      simp [String.append_assoc]
    · have habs : c.value.re.abs = -c.value.re := by
        have h := hc.re.abs
        rw [abs_of_nonpos (by exact_mod_cast not_lt.mp hsign)] at h
        exact h.eq_of_ne_zero hc.re.neg (neg_ne_zero.mpr hre)
      rw [if_neg hsign, if_neg (mt hpositive.mp hsign), habs]
      simp [String.append_assoc]

/-- What stands behind a factor: nothing, or another factor, which is not
the variable alone if this one is. -/
def Joins (k : ℤ) (rest : List Char) : Prop := ∀ d ∈ rest.head?, d = '(' ∨ (d = 'x' ∧ k ≠ 0)

/-- What follows a factor ends a number. -/
theorem Joins.endsNumber {rest : List Char} (h : Joins k rest) : EndsNumber rest := by
  intro d hd
  rcases h d hd with rfl | ⟨rfl, -⟩ <;> decide

/-- What follows the variable ends a name. -/
theorem Joins.endsName {rest : List Char} (h : Joins 0 rest) :
    ∀ d ∈ rest.head?, continuesName d = false := by
  intro d hd
  rcases h d hd with rfl | ⟨-, hne⟩
  · decide
  · exact absurd rfl hne

/-- A linear factor in parentheses. -/
theorem lexes_linear {operator : Char} {token : Token} {digits rest : List Char} {y : Float}
    {more : List Token} (hoperator : ofChar? operator = some token)
    (hread : ReadsAs digits y) (hy : y.isFinite = true) (hrest : Lexes ['x'] rest more) :
    Lexes ['x'] ('(' :: 'x' :: ' ' :: operator :: ' ' :: (digits ++ ')' :: rest))
      (.openParen :: .var :: token :: .number y :: .closeParen :: more) := by
  have hclose : Lexes ['x'] (')' :: rest) (.closeParen :: more) := hrest.operator rfl
  have hnumber := hclose.number hread hy fun d hd => by
    obtain rfl : ')' = d := Option.some.inj hd
    decide
  have htail := ((hnumber.spacing (c := ' ') rfl).operator hoperator).spacing (c := ' ') rfl
  refine (htail.variable fun d hd => ?_).operator rfl
  obtain rfl : ' ' = d := Option.some.inj hd
  decide

/-- **A linear factor**: its text, tokens and tree. -/
theorem Root.IsInteger.exists_linear (hc : c.IsInteger p) :
    ∃ tokens tree, (∀ rest more, (p.1 = 0 → ∀ d ∈ rest.head?, continuesName d = false) →
        Lexes ['x'] rest more → Lexes ['x'] ((c.linearText "x").toList ++ rest) (tokens ++ more)) ∧
      Derives .atom tokens tree ∧ tree.Denotes (X - C p.1) (1 + p.1.natAbs) := by
  by_cases hp : p.1 = 0
  · refine ⟨[.var], .var, ?_, .var, ?_⟩
    · intro rest more hends hrest
      rw [hc.linearText_eq, if_pos hp]
      exact hrest.variable (hends hp)
    · rw [hp, C_0, sub_zero]
      exact Expr.denotes_var
  · obtain ⟨y, hread, hy⟩ := Display.readsAs_integer hc.re
    have hfinite : y.isFinite = true := (isFinite_iff y).mpr ⟨_, hy⟩
    by_cases hsign : 0 < p.1
    · rw [abs_of_pos hsign] at hy
      refine ⟨[.openParen, .var, .minus, .number y, .closeParen], .sub .var (.const y), ?_,
        .paren (.sub (.term (.unary (.power (.atom .var)))) (.unary (.power (.atom (.number y))))),
        Expr.denotes_sub hy⟩
      intro rest more _ hrest
      rw [hc.linearText_eq, if_neg hp, if_pos hsign]
      have hminus : ofChar? '-' = some .minus := rfl
      simpa using lexes_linear hminus hread hfinite hrest
    · rw [abs_of_nonpos (not_lt.mp hsign)] at hy
      have hdenotes := Expr.denotes_add hy
      rw [C_neg, ← sub_eq_add_neg, Int.natAbs_neg] at hdenotes
      refine ⟨[.openParen, .var, .plus, .number y, .closeParen], .add .var (.const y), ?_,
        .paren (.add (.term (.unary (.power (.atom .var)))) (.unary (.power (.atom (.number y))))),
        hdenotes⟩
      intro rest more _ hrest
      rw [hc.linearText_eq, if_neg hp, if_neg hsign]
      have hplus : ofChar? '+' = some .plus := rfl
      simpa using lexes_linear hplus hread hfinite hrest

/-- **A factor with its power.** -/
theorem Root.IsInteger.exists_factor (hc : c.IsInteger p) (hpos : 1 ≤ p.2)
    (hmax : p.2 ≤ maxExponent) :
    ∃ tokens tree, (∀ rest more, Joins p.1 rest → Lexes ['x'] rest more →
        Lexes ['x'] ((c.factorText "x").toList ++ rest) (tokens ++ more)) ∧
      Derives .power tokens tree ∧ tree.Denotes ((X - C p.1) ^ p.2) ((1 + p.1.natAbs) ^ p.2) := by
  obtain ⟨tokens, tree, hreads, hderives, hdenotes⟩ := hc.exists_linear
  by_cases hone : 1 < p.2
  · obtain ⟨e, hread, hfinite, hexponent⟩ := exists_exponent hmax
    refine ⟨tokens ++ [.caret, .number e], .pow tree p.2, ?_,
      .raise hderives (.exponent (.atom (.number e))) hexponent, hdenotes.pow hpos⟩
    intro rest more hjoins hrest
    have hpower : Lexes ['x'] ('^' :: ((natText p.2).toList ++ rest))
        (.caret :: .number e :: more) :=
      (hrest.number hread hfinite hjoins.endsNumber).operator rfl
    have htext := hreads _ _ (fun _ d hd => by
      obtain rfl : '^' = d := Option.some.inj hd
      decide) hpower
    rw [Root.factorText, hc.multiplicity, if_pos hone]
    simpa using htext
  · have hpower : p.2 = 1 := by omega
    refine ⟨tokens, tree, ?_, .atom hderives, ?_⟩
    · intro rest more hjoins hrest
      rw [Root.factorText, hc.multiplicity, if_neg hone, String.append_empty]
      refine hreads rest more (fun hp => ?_) hrest
      rw [hp] at hjoins
      exact hjoins.endsName
    · rw [hpower, pow_one, pow_one]
      exact hdenotes

/-- The first character of a factor. -/
theorem Root.IsInteger.exists_toList_factorText (hc : c.IsInteger p) :
    ∃ tail, (c.factorText "x").toList = (if p.1 = 0 then 'x' else '(') :: tail := by
  rw [Root.factorText, hc.linearText_eq, String.toList_append]
  split_ifs <;> simp

/-! ## Several factors -/

/-- The text of all factors. -/
def factorTexts (factors : List (Root Float)) : String :=
  String.join (factors.map fun c => c.factorText "x")

theorem factorTexts_cons (c : Root Float) (factors : List (Root Float)) :
    factorTexts (c :: factors) = c.factorText "x" ++ factorTexts factors := by
  rw [factorTexts, List.map_cons, String.join_cons, factorTexts]

/-- Factors can stand behind a factor, unless the variable alone could come
behind the variable alone. -/
theorem joins_factorTexts {factors : List (Root Float)}
    (hfactors : List.Forall₂ Root.IsInteger factors powers)
    (hk : k = 0 → (0 : ℤ) ∉ powers.map Prod.fst) : Joins k (factorTexts factors).toList := by
  cases hfactors with
  | nil => simp [Joins, factorTexts]
  | @cons c p factors powers hc _ =>
      obtain ⟨tail, htail⟩ := hc.exists_toList_factorText
      intro d hd
      rw [factorTexts_cons, String.toList_append, htail, List.cons_append, List.head?_cons,
        Option.mem_some_iff] at hd
      rw [← hd]
      split_ifs with hp
      · refine Or.inr ⟨rfl, fun hzero => hk hzero ?_⟩
        rw [← hp]
        exact List.mem_cons_self
      · exact Or.inl rfl

/-- **Factors behind an operand**: all of them are multiplied to it. -/
theorem exists_factors {factors : List (Root Float)}
    (hfactors : List.Forall₂ Root.IsInteger factors powers)
    (hdistinct : (powers.map Prod.fst).Nodup)
    (hexponents : ∀ p ∈ powers, 1 ≤ p.2 ∧ p.2 ≤ maxExponent) {us : List Token}
    {tree : Expr Float} {f : ℤ[X]} {b : ℕ} (hderives : Derives .term us tree)
    (hdenotes : tree.Denotes f b) :
    ∃ vs tree', Lexes ['x'] (factorTexts factors).toList vs ∧ Derives .term (us ++ vs) tree' ∧
      tree'.Denotes (f * rootPowers powers) (b * rootSizes powers) := by
  induction hfactors generalizing us tree f b with
  | nil =>
      refine ⟨[], tree, lexes_nil, by rwa [List.append_nil], ?_⟩
      simpa [rootPowers, rootSizes] using hdenotes
  | @cons c p factors powers hc hfactors ih =>
      rw [List.map_cons, List.nodup_cons] at hdistinct
      obtain ⟨hfirst, hexponents⟩ := List.forall_mem_cons.mp hexponents
      obtain ⟨tokens, power, hreads, hpower, hdenotes'⟩ := hc.exists_factor hfirst.1 hfirst.2
      obtain ⟨vs, tree', hlexes, hderives', hproduct⟩ :=
        ih hdistinct.2 hexponents (.adjacent hderives hpower) (hdenotes.mul hdenotes')
      refine ⟨tokens ++ vs, tree', ?_, ?_, ?_⟩
      · rw [factorTexts_cons, String.toList_append]
        exact hreads _ _ (joins_factorTexts hfactors fun hzero => hzero ▸ hdistinct.1) hlexes
      · rwa [← List.append_assoc]
      · rw [rootPowers_cons, rootSizes_cons, ← mul_assoc, ← mul_assoc]
        exact hproduct

end Factors

/-! ## The whole text -/

namespace Factorization

/-- The leading number is shown as its sign and its magnitude, and a
magnitude of one is left out. -/
theorem leadingText_eq {x : Float} (hx : Exactly x lead) :
    leadingText x = signed (decide (lead < 0))
      (if Display.real x.abs = "1" then "" else Display.real x.abs) := by
  obtain ⟨y, hread, -⟩ := Display.readsAs_integer hx
  obtain ⟨d, ds, hdigits, hdigit⟩ := hread.exists_digit
  rw [leadingText, Display.real_eq_signed hx]
  cases decide (lead < 0) with
  | false =>
      have hminus : Display.real x.abs ≠ "-1" := by
        intro h
        rw [h] at hdigits
        obtain rfl : '-' = d := (List.cons.inj hdigits).1
        cases hdigit
      simp only [signed, Bool.false_eq_true, if_false, if_neg hminus]
  | true =>
      have hone : ("-" ++ Display.real x.abs = "-1") ↔ Display.real x.abs = "1" := by
        rw [← String.toList_inj, ← String.toList_inj, String.toList_append]
        exact List.cons_inj_right '-'
      have hsign : "-" ++ Display.real x.abs ≠ "1" := by
        rw [ne_eq, ← String.toList_inj, String.toList_append]
        exact fun h => absurd (List.cons.inj h).1 (by decide)
      simp only [signed, if_true, if_neg hsign, hone]
      split_ifs <;> rfl

/-- An operand with a sign, or without, and factors behind it: the sign
belongs to the operand. -/
theorem exists_product {negative : Bool} {text : String} {factors : List (Root Float)}
    {us : List Token} {operand : Expr Float} {f : ℤ[X]} {b : ℕ}
    (hfactors : List.Forall₂ Root.IsInteger factors powers)
    (hdistinct : (powers.map Prod.fst).Nodup)
    (hexponents : ∀ p ∈ powers, 1 ≤ p.2 ∧ p.2 ≤ maxExponent)
    (hreads : ∀ more, Lexes ['x'] (factorTexts factors).toList more →
      Lexes ['x'] (text.toList ++ (factorTexts factors).toList) (us ++ more))
    (hderives : Derives .unary us operand) (hdenotes : operand.Denotes f b) :
    ∃ tokens tree, Lexes ['x'] (signed negative (text ++ factorTexts factors)).toList tokens ∧
      Derives .term tokens tree ∧
      tree.Denotes ((if negative then -1 else 1) * f * rootPowers powers)
        (b * rootSizes powers) := by
  rw [toList_signed, String.toList_append]
  cases negative with
  | false =>
      obtain ⟨more, tree, hmore, hterm, hproduct⟩ :=
        exists_factors hfactors hdistinct hexponents (.unary hderives) hdenotes
      refine ⟨us ++ more, tree, hreads more hmore, hterm, ?_⟩
      rwa [if_neg Bool.false_ne_true, one_mul]
  | true =>
      obtain ⟨more, tree, hmore, hterm, hproduct⟩ :=
        exists_factors hfactors hdistinct hexponents (.unary (.neg hderives)) hdenotes.neg
      refine ⟨.minus :: us ++ more, tree, (hreads more hmore).operator (c := '-') rfl, hterm, ?_⟩
      rwa [if_pos rfl, neg_one_mul]

/-- **The text of a factorization**: its tokens and its tree. -/
theorem exists_tree (hlead : Exactly F.leading lead) (hne : lead ≠ 0)
    (hfactors : List.Forall₂ Root.IsInteger F.factors powers) (hnonempty : powers ≠ [])
    (hdistinct : (powers.map Prod.fst).Nodup)
    (hexponents : ∀ p ∈ powers, 1 ≤ p.2 ∧ p.2 ≤ maxExponent) :
    ∃ tokens tree, Lexes ['x'] (F.render "x").toList tokens ∧ Derives .term tokens tree ∧
      tree.Denotes (C lead * rootPowers powers) (lead.natAbs * rootSizes powers) := by
  obtain ⟨y, hread, hy⟩ := Display.readsAs_integer hlead
  have hrender : F.render "x" = signed (decide (lead < 0))
      ((if Display.real F.leading.abs = "1" then "" else Display.real F.leading.abs) ++
        factorTexts F.factors) := by
    rw [render, leadingText_eq hlead, signed_append, factorTexts]
  have hsign : C lead = (if decide (lead < 0) then -1 else 1) * C |lead| := by
    by_cases hnegative : lead < 0
    · simp [hnegative, abs_of_neg hnegative]
    · simp [hnegative, abs_of_nonneg (not_lt.mp hnegative)]
  rw [hrender, hsign, ← Int.natAbs_abs]
  by_cases hone : Display.real F.leading.abs = "1"
  · -- No number is left, and the sign belongs to the first factor.
    have hunit : |lead| = 1 := by
      rw [hone] at hread
      exact_mod_cast value_of_readsAs (n := 1) (by norm_num) hread hy
    obtain ⟨p, powers, rfl⟩ := List.exists_cons_of_ne_nil hnonempty
    obtain ⟨c, factors, hc, hfactors, hF⟩ := List.forall₂_cons_right_iff.mp hfactors
    rw [List.map_cons, List.nodup_cons] at hdistinct
    obtain ⟨hfirst, hexponents⟩ := List.forall_mem_cons.mp hexponents
    obtain ⟨us, power, hreads, hpower, hdenotes⟩ := hc.exists_factor hfirst.1 hfirst.2
    have hjoins := joins_factorTexts hfactors fun hzero => hzero ▸ hdistinct.1
    rw [if_pos hone, String.empty_append, hF, factorTexts_cons, hunit, C_1, mul_one,
      Int.natAbs_one, one_mul, rootPowers_cons, rootSizes_cons, ← mul_assoc]
    exact exists_product hfactors hdistinct.2 hexponents (fun more => hreads _ more hjoins)
      (.power hpower) hdenotes
  · have hjoins : Joins 1 (factorTexts F.factors).toList :=
      joins_factorTexts hfactors fun h => absurd h one_ne_zero
    have hfinite : y.isFinite = true := (isFinite_iff y).mpr ⟨_, hy⟩
    rw [if_neg hone]
    exact exists_product hfactors hdistinct hexponents
      (fun more hmore => hmore.number hread hfinite hjoins.endsNumber)
      (.power (.atom (.number y))) (Expr.denotes_const hy (abs_ne_zero.mpr hne))

/-- **A rendered factorization denotes the polynomial.**  With an integer in
front and distinct integer roots, its text is an expression, and within any
limit that the degree respects the normal form of the expression is the one
that the factors multiply out to: that of the polynomial itself. -/
theorem normalize_render (hlead : Exactly F.leading lead) (hne : lead ≠ 0)
    (hfactors : List.Forall₂ Root.IsInteger F.factors powers) (hnonempty : powers ≠ [])
    (hdistinct : (powers.map Prod.fst).Nodup)
    (hexponents : ∀ p ∈ powers, 1 ≤ p.2 ∧ p.2 ≤ maxExponent)
    (hsmall : lead.natAbs * rootSizes powers < 2 ^ 49) {limit : ℕ}
    (hlimit : (powers.map Prod.snd).sum ≤ limit) :
    ∃ t, Expr.parse "x" (F.render "x") = .ok t ∧ t.normalize limit = .ok F.toNormalForm ∧
      F.toNormalForm = .ofPolynomial (C lead * rootPowers powers) := by
  obtain ⟨tokens, t, hlexes, hderives, hdenotes⟩ :=
    exists_tree hlead hne hfactors hnonempty hdistinct hexponents
  have hdegree : (C lead * rootPowers powers).natDegree ≤ limit := by
    rwa [natDegree_rootPowers hne]
  have hexact := toNormalForm_eq hlead hne hfactors (hsmall.trans (by norm_num))
  refine ⟨t, Expr.parse_of_lexes hlexes (.term hderives), ?_, hexact⟩
  rw [hexact]
  exact hdenotes.normalize hsmall hdegree

/-- A sign in front of the variable alone, a power, and a negative root. -/
theorem normalize_render_quartic :
    let F : Factorization Float := ⟨-1, [.real 0 1, .real 1 2, .real (-3) 1]⟩
    let powers : List (ℤ × ℕ) := [(0, 1), (1, 2), (-3, 1)]
    Exactly F.leading (-1 : ℤ) ∧ (-1 : ℤ) ≠ 0 ∧ List.Forall₂ Root.IsInteger F.factors powers ∧
      powers ≠ [] ∧ (powers.map Prod.fst).Nodup ∧
      (∀ p ∈ powers, 1 ≤ p.2 ∧ p.2 ≤ maxExponent) ∧
      (-1 : ℤ).natAbs * rootSizes powers < 2 ^ 49 ∧ (powers.map Prod.snd).sum ≤ 4 ∧
      F.render "x" = "-x(x - 1)^2(x + 3)" ∧
      ∃ t, Expr.parse "x" "-x(x - 1)^2(x + 3)" = .ok t ∧ t.normalize 4 = .ok F.toNormalForm ∧
        F.toNormalForm = .ofPolynomial (C (-1) * rootPowers powers) := by
  intro F powers
  have hinteger {x : Float} {k : ℤ} (h : toInt? x = some k) : Exactly x k :=
    (toInt?_eq_some_iff x k).mp h
  have hlead : Exactly F.leading (-1 : ℤ) := hinteger (by decide +kernel)
  have hfactors : List.Forall₂ Root.IsInteger F.factors powers :=
    .cons ⟨hinteger (by decide +kernel), exactly_scalar_zero, rfl⟩
      (.cons ⟨hinteger (by decide +kernel), exactly_scalar_zero, rfl⟩
        (.cons ⟨hinteger (by decide +kernel), exactly_scalar_zero, rfl⟩ .nil))
  have hdistinct : (powers.map Prod.fst).Nodup := by decide
  have hexponents : ∀ p ∈ powers, 1 ≤ p.2 ∧ p.2 ≤ maxExponent := by decide
  have hsmall : (-1 : ℤ).natAbs * rootSizes powers < 2 ^ 49 := by decide
  have hrender : F.render "x" = "-x(x - 1)^2(x + 3)" := by decide +kernel
  have h :=
    normalize_render hlead (by decide) hfactors (by simp [powers]) hdistinct hexponents hsmall
    (show (powers.map Prod.snd).sum ≤ 4 by decide)
  rw [hrender] at h
  exact ⟨hlead, by decide, hfactors, by simp [powers], hdistinct, hexponents, hsmall, by decide,
    hrender, h⟩

end Factorization

end Univariate
