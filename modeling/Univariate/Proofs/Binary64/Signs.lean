import Univariate.Proofs.Binary64.Nearest

/-!
# Numbers that are not below zero

Magnitudes are sums and products of magnitudes.  They may overflow, and may
even become no number at all, but they never get below zero, so none of
them is smaller than zero.

* `NotNegative` — zero or more, positive infinity, or no number;
* `notNegative_abs`, `NotNegative.add`, `NotNegative.mul` — where such
  numbers come from;
* `NotNegative.not_lt` — none of them is below zero;
* `exactly_zero_of_beq` — nothing but zero equals zero.
-/

namespace Univariate

namespace Binary64

open Float.Model Float.Model.UnpackedFloat

variable {x y z : Float} {q : ℚ}

/-- Positive infinity, or no number. -/
def Unbounded (u : UnpackedFloat) : Prop := u = .infinity .positive ∨ u = .notANumber

/-- Zero or more, positive infinity, or no number. -/
def NotNegative (x : Float) : Prop :=
  Unbounded x.toModel.unpack ∨ ∃ q, 0 ≤ q ∧ Exactly x q

/-- Packing keeps infinity, and what is no number. -/
theorem Unbounded.notNegative {u : UnpackedFloat} (h : Unbounded u) :
    NotNegative (Float.ofModel (Float.Model.pack u)) := by
  rcases h with rfl | rfl
  · exact Or.inl (Or.inl rfl)
  · exact Or.inl (Or.inr rfl)

/-- Rounding does not lead below zero. -/
theorem Nearest.notNegative (h : Nearest x q) (hq : 0 ≤ q) : NotNegative x := by
  have hround : 0 ≤ rounded q := by
    rw [rounded_of_nonneg hq]
    exact roundMag_nonneg q
  by_cases hfits : rounded q < 2 ^ 1024
  · exact Or.inr ⟨_, hround, h.exactly (by rwa [abs_of_nonneg hround])⟩
  · rw [h.infinite (not_lt.mp hfits)]
    exact Or.inl (Or.inl rfl)

/-- What is not finite is infinite or no number. -/
theorem unpack_of_not_finite (h : ¬x.isFinite = true) :
    x.toModel.unpack = .notANumber ∨ ∃ s, x.toModel.unpack = .infinity s := by
  have hnot : ¬x.toModel.unpack.isFinite = true := h
  cases hx : x.toModel.unpack with
  | notANumber => exact Or.inl rfl
  | infinity s => exact Or.inr ⟨s, rfl⟩
  | zero s | finite s m e hm =>
      rw [hx] at hnot
      exact absurd rfl hnot

/-- No magnitude is negative. -/
theorem notNegative_abs (x : Float) : NotNegative x.abs := by
  by_cases hfinite : x.isFinite = true
  · obtain ⟨q, hq⟩ := (isFinite_iff x).mp hfinite
    exact Or.inr ⟨|q|, abs_nonneg q, hq.abs⟩
  · have habs : x.abs = Float.ofModel (Float.Model.pack x.toModel.unpack.abs) := rfl
    rw [habs]
    refine Unbounded.notNegative ?_
    rcases unpack_of_not_finite hfinite with hx | ⟨s, hx⟩ <;> rw [hx]
    · exact Or.inr rfl
    · exact Or.inl rfl

namespace NotNegative

/-- The unpacked forms of numbers that are not below zero. -/
theorem unpack_cases (hx : NotNegative x) :
    Unbounded x.toModel.unpack ∨ (∃ s, x.toModel.unpack = .zero s) ∨
      ∃ m e hm, x.toModel.unpack = .finite .positive m e hm := by
  rcases hx with hx | ⟨q, hq, hx⟩
  · exact Or.inl hx
  rcases hx.unpacks.zero_or_finite with ⟨s, hunpack, -⟩ | ⟨s, m, e, hm, hunpack, hvalue⟩
  · exact Or.inr (Or.inl ⟨s, hunpack⟩)
  · cases s with
    | positive => exact Or.inr (Or.inr ⟨m, e, hm, hunpack⟩)
    | negative =>
        have hneg : q < 0 := by
          rw [hvalue, Sign.apply, Int.cast_neg, neg_mul, Int.cast_natCast, neg_lt_zero]
          positivity
        exact absurd hq (not_le.mpr hneg)

/-- An operation keeps numbers from getting below zero if it does so on
finite ones, and if infinity and what is no number lead to one of the
two. -/
theorem of_finite {op : Float → Float → Float} {f : UnpackedFloat → UnpackedFloat → UnpackedFloat}
    (hx : NotNegative x) (hy : NotNegative y)
    (hop : ∀ x y, op x y = Float.ofModel (Float.Model.pack (f x.toModel.unpack y.toModel.unpack)))
    (hfinite : ∀ {p q}, 0 ≤ p → 0 ≤ q → Exactly x p → Exactly y q → NotNegative (op x y))
    (hunbounded : ∀ {u v}, Unbounded u →
      (Unbounded v ∨ (∃ s, v = .zero s) ∨ ∃ m e hm, v = .finite .positive m e hm) →
        Unbounded (f u v) ∧ Unbounded (f v u)) : NotNegative (op x y) := by
  rcases hx with hx' | ⟨p, hp, hx'⟩
  · rw [hop]
    exact (hunbounded hx' hy.unpack_cases).1.notNegative
  rcases hy with hy' | ⟨q, hq, hy'⟩
  · rw [hop]
    exact (hunbounded hy' (unpack_cases (Or.inr ⟨p, hp, hx'⟩))).2.notNegative
  · exact hfinite hp hq hx' hy'

/-- Sums of what is not negative are not. -/
theorem add (hx : NotNegative x) (hy : NotNegative y) : NotNegative (x + y) := by
  refine of_finite (f := UnpackedFloat.add .binary64) hx hy (fun _ _ => rfl)
    (fun hp hq hx hy => (hx.nearest_add hy).notNegative (add_nonneg hp hq)) ?_
  rintro u v (rfl | rfl) ((rfl | rfl) | ⟨s, rfl⟩ | ⟨m, e, hm, rfl⟩) <;>
    exact ⟨by first | exact Or.inl rfl | exact Or.inr rfl,
      by first | exact Or.inl rfl | exact Or.inr rfl⟩

/-- Products of what is not negative are not. -/
theorem mul (hx : NotNegative x) (hy : NotNegative y) : NotNegative (x * y) := by
  refine of_finite (f := UnpackedFloat.mul .binary64) hx hy (fun _ _ => rfl)
    (fun hp hq hx hy => (hx.nearest_mul hy).notNegative (mul_nonneg hp hq)) ?_
  rintro u v (rfl | rfl) ((rfl | rfl) | ⟨s, rfl⟩ | ⟨m, e, hm, rfl⟩) <;>
    exact ⟨by first | exact Or.inl rfl | exact Or.inr rfl,
      by first | exact Or.inl rfl | exact Or.inr rfl⟩

/-- **None of these numbers is below zero.** -/
theorem not_lt (hx : NotNegative x) (hz : Exactly z 0) : Float.lt x z = false := by
  rcases hx with hx | ⟨q, hq, hx⟩
  · have hlt : Float.lt x z = (x.toModel.unpack.compare z.toModel.unpack == some .lt) :=
      Bool.decide_coe _
    rw [hlt]
    rcases hz.unpacks.zero_or_finite with ⟨s, hz, -⟩ | ⟨s, m, e, hm, hz, -⟩ <;>
      rcases hx with hx | hx <;> rw [hx, hz] <;> rfl
  · exact Bool.eq_false_iff.mpr (mt (hx.lt_iff hz).mp hq.not_gt)

end NotNegative

/-- Only zero equals zero. -/
theorem exactly_zero_of_beq (h : Float.beq x z = true) (hz : Exactly z 0) : Exactly x 0 := by
  by_cases hfinite : x.isFinite = true
  · obtain ⟨q, hq⟩ := (isFinite_iff x).mp hfinite
    exact (hq.beq_iff hz).mp h ▸ hq
  · have hbeq : Float.beq x z = (x.toModel.unpack.compare z.toModel.unpack == some .eq) := rfl
    rw [hbeq] at h
    rcases unpack_of_not_finite hfinite with hx | ⟨s, hx⟩ <;>
      rcases hz.unpacks.zero_or_finite with ⟨t, hz, -⟩ | ⟨t, n, f, hn, hz, -⟩ <;>
        rw [hx, hz] at h
    · cases h
    · cases h
    · cases s <;> cases h
    · cases s <;> cases h

end Binary64

end Univariate
