import Univariate.Proofs.Binary64.Distance
import Univariate.Proofs.Dense.Gcd
import Univariate.Proofs.Expansion.Exact

/-!
# Leading coefficients in floating point

In floating point a leading coefficient divided by itself is one, or no
number where it was infinite or none before.  Neither of the two is taken
for zero, so a polynomial that is not empty and does not end with a zero
keeps its length when it is made monic and trimmed, and its greatest common
divisor with any other polynomial is not empty.  What such a divisor ends
with is zero, one, or no number; and no such division makes a zero of a
coefficient that was none.

* `Binary64.isOneOrNaN_div_self`, `Binary64.not_exactly_zero_div` —
  numbers;
* `Dense.Leads`, `Dense.EndsMonic` — the last coefficients of the operands
  and of the divisors;
* `Dense.Leads.gcd_ne_nil`, `Dense.Leads.quotient` — polynomials.
-/

namespace Univariate

namespace Binary64

open Float.Model Float.Model.UnpackedFloat

variable {x y : Float}

/-- One, or no number. -/
def IsOneOrNaN (x : Float) : Prop := Exactly x 1 ∨ x.isNaN = true

/-- A quotient by the fields of its two numbers. -/
theorem div_eq (x y : Float) : x / y = Float.ofModel (Float.Model.pack
    (UnpackedFloat.div .binary64 x.toModel.unpack y.toModel.unpack)) := rfl

/-- What is no number is decoded as none. -/
theorem unpack_of_isNaN (h : x.isNaN = true) : x.toModel.unpack = .notANumber := by
  rw [isNaN_eq] at h
  cases hx : x.toModel.unpack <;> rw [hx] at h <;> first | rfl | cases h

/-- What is packed from infinity, or from no number, has no value. -/
theorem not_exactly_pack {u : UnpackedFloat} (h : u = .notANumber ∨ ∃ s, u = .infinity s)
    (q : ℚ) : ¬Exactly (Float.ofModel (Float.Model.pack u)) q := by
  intro hq
  have hfinite := (isFinite_iff _).mpr ⟨q, hq⟩
  rcases h with rfl | ⟨s, rfl⟩
  · cases hfinite
  · cases s <;> cases hfinite

/-- What is no zero, divided by itself. -/
theorem isOneOrNaN_div_self (h : ¬Exactly x 0) : IsOneOrNaN (x / x) := by
  by_cases hfinite : x.isFinite = true
  · obtain ⟨q, hq⟩ := (isFinite_iff x).mp hfinite
    have hne : q ≠ 0 := fun hzero => h (hzero ▸ hq)
    have hdiv := hq.nearest_div hq hne
    rw [div_self hne] at hdiv
    exact Or.inl (hdiv.exactly_of_representable exactly_one.representable)
  · refine Or.inr ?_
    rw [div_eq]
    rcases unpack_of_not_finite hfinite with hx | ⟨s, hx⟩ <;> rw [hx]
    · rfl
    · cases s <;> rfl

/-- Zero has no mantissa. -/
theorem Exactly.unpack_zero (h : Exactly x 0) : ∃ s, x.toModel.unpack = .zero s := by
  rcases h.unpacks.zero_or_finite with ⟨s, hs, -⟩ | ⟨s, m, e, hm, -, hvalue⟩
  · exact ⟨s, hs⟩
  · have hpow : (2 : ℚ) ^ e ≠ 0 := zpow_ne_zero e two_ne_zero
    have hmantissa : s.apply m ≠ 0 := by
      cases s <;> simp [Sign.apply, hm.ne']
    exact absurd hvalue.symm (mul_ne_zero (Int.cast_ne_zero.mpr hmantissa) hpow)

/-- A division by zero, by one or by no number leaves no zero. -/
theorem not_exactly_zero_div (hx : ¬Exactly x 0) (hy : Exactly y 0 ∨ IsOneOrNaN y) :
    ¬Exactly (x / y) 0 := by
  by_cases hfinite : x.isFinite = true
  · obtain ⟨q, hq⟩ := (isFinite_iff x).mp hfinite
    have hne : q ≠ 0 := fun hzero => hx (hzero ▸ hq)
    obtain ⟨s, m, e, hm, hunpack⟩ : ∃ s m e hm, x.toModel.unpack = .finite s m e hm := by
      rcases hq.unpacks.zero_or_finite with ⟨s, -, hzero⟩ | ⟨s, m, e, hm, hunpack, -⟩
      · exact absurd hzero hne
      · exact ⟨s, m, e, hm, hunpack⟩
    rcases hy with hy | hy | hy
    · obtain ⟨t, ht⟩ := hy.unpack_zero
      rw [div_eq, hunpack, ht]
      exact not_exactly_pack (Or.inr ⟨_, rfl⟩) 0
    · have hdiv := hq.nearest_div hy one_ne_zero
      rw [div_one] at hdiv
      exact fun h => hne ((hdiv.exactly_of_representable hq.representable).unique h)
    · rw [div_eq, hunpack, unpack_of_isNaN hy]
      exact not_exactly_pack (Or.inl rfl) 0
  · rw [div_eq]
    rcases unpack_of_not_finite hfinite with hunpack | ⟨s, hunpack⟩ <;> rw [hunpack]
    · exact not_exactly_pack (Or.inl rfl) 0
    · cases y.toModel.unpack with
      | notANumber | infinity t => exact not_exactly_pack (Or.inl rfl) 0
      | zero t | finite t m e hm => exact not_exactly_pack (Or.inr ⟨_, rfl⟩) 0

/-- Neither one nor what is no number stands for zero. -/
theorem IsOneOrNaN.not_exactly_zero (hx : IsOneOrNaN x) : ¬Exactly x 0 := by
  intro hzero
  rcases hx with hx | hx
  · exact one_ne_zero (hx.unique hzero)
  · rw [hzero.isNaN] at hx
    cases hx

/-- One and what is no number are not negligible. -/
theorem IsOneOrNaN.not_negligible (hx : IsOneOrNaN x) :
    Dense.negligible (Scalar.zero : Float) x = false := by
  rcases hx with hx | hx
  · have hle := hx.abs.le_iff exactly_scalar_zero
    rw [abs_one] at hle
    exact Bool.eq_false_iff.mpr (mt hle.mp (by norm_num))
  · have habs : x.abs = Float.ofModel (Float.Model.pack x.toModel.unpack.abs) := rfl
    have hle : Dense.negligible (Scalar.zero : Float) x =
        (x.abs.toModel.unpack.compare (0 : Float).toModel.unpack).any (·.isLE) :=
      Bool.decide_coe _
    rw [hle, habs, unpack_of_isNaN hx]
    rfl

/-- Only zero is taken for zero. -/
theorem eq_zero_iff (x : Float) : Scalar.eq x Scalar.zero = true ↔ Exactly x 0 :=
  ⟨fun h => exactly_zero_of_beq h exactly_scalar_zero, fun h => h.eq_zero_iff.mpr rfl⟩

end Binary64

namespace Dense

open Binary64

variable {p q : Dense Float} {c : Float}

/-- The last coefficient is there and is not zero. -/
def Leads (p : Dense Float) : Prop := ∃ c ∈ p.getLast?, ¬Exactly c 0

/-- The last coefficient, where there is one, is zero, one, or no number. -/
def EndsMonic (p : Dense Float) : Prop := ∀ c ∈ p.getLast?, Exactly c 0 ∨ IsOneOrNaN c

/-- A list with a leading coefficient has one. -/
theorem Leads.ne_nil (hp : Leads p) : p ≠ [] := by
  rintro rfl
  obtain ⟨c, hc, -⟩ := hp
  cases hc

/-! ## Monic polynomials -/

/-- Making a list monic divides the leading coefficient by itself. -/
theorem getLast?_makeMonic (hc : c ∈ p.getLast?) (hzero : ¬Exactly c 0) :
    (makeMonic p).getLast? = some (c / c) := by
  have hne : ¬Scalar.eq c Scalar.zero = true := mt (eq_zero_iff c).mp hzero
  rw [makeMonic, hc]
  dsimp only
  rw [if_neg hne, List.getLast?_map, hc]
  rfl

/-- **A list that has been made monic** ends in zero, in one, or in what is no
number. -/
theorem endsMonic_makeMonic (p : Dense Float) : EndsMonic (makeMonic p) := by
  intro c hc
  cases hp : p.getLast? with
  | none =>
      rw [makeMonic, hp] at hc
      cases hp.symm.trans hc
  | some lead =>
      by_cases hzero : Exactly lead 0
      · rw [makeMonic, hp] at hc
        dsimp only at hc
        rw [if_pos ((eq_zero_iff lead).mpr hzero), hp] at hc
        exact Or.inl (Option.some.inj hc ▸ hzero)
      · rw [getLast?_makeMonic hp hzero] at hc
        exact Or.inr (Option.some.inj hc ▸ isOneOrNaN_div_self hzero)

/-- Making a list monic leaves it a leading coefficient. -/
theorem Leads.makeMonic (hp : Leads p) : Leads (makeMonic p) := by
  obtain ⟨c, hc, hzero⟩ := hp
  exact ⟨c / c, getLast?_makeMonic hc hzero, (isOneOrNaN_div_self hzero).not_exactly_zero⟩

/-! ## Common divisors -/

/-- The first dividend has coefficients. -/
theorem Leads.firstDividend_ne_nil (hp : Leads p) : firstDividend p ≠ [] := by
  obtain ⟨c, hc, hzero⟩ := hp
  have hlast := getLast?_makeMonic hc hzero
  have hkept := (isOneOrNaN_div_self hzero).not_negligible
  obtain ⟨lower, hlower⟩ : ∃ lower, Dense.makeMonic p = lower ++ [c / c] :=
    List.getLast?_eq_some_iff.mp hlast
  rw [firstDividend, hlower, trim]
  simp [hkept]

/-- **A common divisor** of what leads with anything is not empty. -/
theorem Leads.gcd_ne_nil (hp : Leads p) (q : Dense Float) : gcd p q ≠ [] := by
  have hloop := gcdLoop_ne_nil hp.firstDividend_ne_nil (firstDivisor p q)
  rw [← List.length_pos_iff] at hloop ⊢
  rwa [gcd_eq, length_makeMonic]

/-- The common divisor with something shorter is no longer. -/
theorem length_gcd_le_left (h : q.length ≤ p.length) : (gcd p q).length ≤ p.length := by
  rcases length_gcd_le p ((length_trim_le q _).trans h) with hall | hle
  · rw [hall, length_makeMonic, firstDividend]
    refine (length_trim_le _ _).trans ?_
    rw [length_makeMonic]
  · exact hle

/-- So does a greatest common divisor. -/
theorem endsMonic_gcd (p q : Dense Float) : EndsMonic (gcd p q) := endsMonic_makeMonic _

/-! ## Quotients -/

/-- A longer divisor leaves no quotient. -/
theorem quotient_of_length_lt (h : p.length < q.length) : quotient p q = [] := by
  rw [quotient, divRem]
  cases q.reverse with
  | nil => rfl
  | cons lead lower => exact congrArg Prod.fst (if_pos h)

/-- The leading coefficient of a quotient is that of the leading
coefficients. -/
theorem getLast?_quotient {d : Float} (hc : c ∈ p.getLast?) (hd : d ∈ q.getLast?)
    (h : q.length ≤ p.length) : (quotient p q).getLast? = some (c / d) := by
  obtain ⟨front, rfl⟩ := List.getLast?_eq_some_iff.mp hc
  obtain ⟨lower, rfl⟩ := List.getLast?_eq_some_iff.mp hd
  simp only [List.length_append, List.length_singleton] at h
  have hsteps : front.length + 1 - lower.length = front.length - lower.length + 1 := by omega
  have hnot : ¬front.length + 1 < lower.length + 1 := by omega
  simp [quotient, divRem, hnot, hsteps, divSteps]

/-- A quotient by such a divisor has a leading coefficient. -/
theorem Leads.quotient (hp : Leads p) (hq : q ≠ []) (hmonic : EndsMonic q)
    (h : q.length ≤ p.length) : Leads (quotient p q) := by
  obtain ⟨c, hc, hzero⟩ := hp
  have hd := List.getLast?_eq_some_getLast hq
  exact ⟨_, getLast?_quotient hc hd h, not_exactly_zero_div hzero (hmonic _ hd)⟩

end Dense

end Univariate
