import Univariate.Proofs.Roots.Separation

/-!
# Multiplying approximate factors out

The product of linear factors is computed coefficient by coefficient, each
with a product and a difference that are rounded, at roots that are only
near the integers they stand for.  What this does to a coefficient is
bounded by the same coefficient of the product without its signs, times
the growth of an error that is multiplied by `1 + δ` in every operation.

* `Close` — approximation relative to a magnitude, which products,
  differences and rounding multiply up;
* `Tracks` — a list of coefficients that follows a polynomial;
* `Tracks.timesLinear`, `Tracks.timesLinears` — one factor, and all of them;
* `StaysExact`, `staysExact_of_lt` — when nothing is rounded at all.
-/

namespace Univariate

open Binary64 Polynomial

/-! ## Relative approximation -/

/-- `x` approximates `y` within the share `W - 1` of a magnitude `M` that
is no less than that of `y`. -/
structure Close (W x y M : ℚ) : Prop where
  close : |x - y| ≤ M * (W - 1)
  le : |y| ≤ M

/-- A rounding that an approximation by `δ` has room for: there is none,
or `δ` is at least a rounding error and nothing overflows. -/
def Room (δ q b : ℚ) : Prop :=
  (δ = 0 ∧ Representable q) ∨ (2 ^ (-52 : ℤ) ≤ δ ∧ b * (1 + δ) < 2 ^ 1024)

/-- With room a rounding costs a share `δ`. -/
theorem Room.abs_sub_rounded_le {δ q b : ℚ} (h : Room δ q b) (hq : |q| ≤ b) (hb : 1 ≤ b) :
    |rounded q - q| ≤ b * δ := by
  rcases h with ⟨rfl, hrep⟩ | ⟨hδ, -⟩
  · rw [rounded_eq hrep, sub_self, abs_zero, mul_zero]
  · rw [abs_sub_comm]
    calc |q - rounded q| ≤ |q| / 2 ^ 53 + 1 / 10 ^ 30 := abs_sub_rounded_le_add q
      _ ≤ b / 2 ^ 53 + b / 10 ^ 30 := by gcongr
      _ = b * (1 / 2 ^ 53 + 1 / 10 ^ 30) := by ring
      _ ≤ b * 2 ^ (-52 : ℤ) := by gcongr; norm_num
      _ ≤ b * δ := by gcongr

/-- With room a rounding does not overflow. -/
theorem Room.abs_rounded_lt {δ q b : ℚ} (h : Room δ q b) (hq : |q| ≤ b) (hb : 1 ≤ b) :
    |rounded q| < 2 ^ 1024 := by
  have herror := h.abs_sub_rounded_le hq hb
  rcases h with ⟨-, hrep⟩ | ⟨-, hfits⟩
  · rw [rounded_eq hrep]
    exact hrep.abs_lt
  · have hsum := abs_add_le q (rounded q - q)
    rw [add_sub_cancel] at hsum
    have hle : |rounded q| ≤ b * (1 + δ) := by linarith
    exact hle.trans_lt hfits

namespace Close

variable {δ W W' x y M x' y' M' : ℚ}

/-- A number approximates itself. -/
theorem refl (h : |y| ≤ M) : Close 1 y y M := ⟨by simp, h⟩

theorem nonneg (h : Close W x y M) : 0 ≤ M := (abs_nonneg y).trans h.le

/-- What approximates is not much larger. -/
theorem abs_le (h : Close W x y M) : |x| ≤ M * W := by
  have hsum := abs_add_le (x - y) y
  rw [sub_add_cancel] at hsum
  linarith [h.close, h.le]

/-- Without an error there is nothing between them. -/
theorem eq (h : Close 1 x y M) : x = y := by
  have hzero := h.close
  rw [sub_self, mul_zero] at hzero
  linarith [abs_nonpos_iff.mp hzero]

/-- A wider share. -/
theorem mono (h : Close W x y M) (hW : W ≤ W') : Close W' x y M := by
  refine ⟨h.close.trans ?_, h.le⟩
  have := h.nonneg
  gcongr

/-- **A product**, whose shares multiply. -/
theorem mul (h : Close W x y M) (h' : Close W' x' y' M') :
    Close (W * W') (x * x') (y * y') (M * M') := by
  have hM := h.nonneg
  have hM' := h'.nonneg
  constructor
  · calc |x * x' - y * y'| = |(x - y) * x' + y * (x' - y')| := by ring_nf
      _ ≤ |x - y| * |x'| + |y| * |x' - y'| := by
        rw [← abs_mul, ← abs_mul]
        exact abs_add_le _ _
      _ ≤ M * (W - 1) * (M' * W') + M * (M' * (W' - 1)) := by
        have hfirst := mul_le_mul h.close h'.abs_le (abs_nonneg _) ((abs_nonneg _).trans h.close)
        have hsecond := mul_le_mul h.le h'.close (abs_nonneg _) hM
        exact add_le_add hfirst hsecond
      _ = M * M' * (W * W' - 1) := by ring
  · rw [abs_mul]
    exact mul_le_mul h.le h'.le (abs_nonneg _) hM

/-- **A difference**, whose magnitudes add up. -/
theorem sub (h : Close W x y M) (h' : Close W x' y' M') : Close W (x - x') (y - y') (M + M') := by
  constructor
  · calc |x - x' - (y - y')| = |(x - y) - (x' - y')| := by ring_nf
      _ ≤ |x - y| + |x' - y'| := abs_sub _ _
      _ ≤ (M + M') * (W - 1) := by linarith [h.close, h'.close]
  · exact (abs_sub _ _).trans (add_le_add h.le h'.le)

/-- **A rounding** adds its share. -/
theorem round (h : Close W x y M) (hroom : Room δ x (M * W)) (hone : 1 ≤ M * W) :
    Close (W * (1 + δ)) (rounded x) y M := by
  refine ⟨?_, h.le⟩
  calc |rounded x - y| = |(rounded x - x) + (x - y)| := by ring_nf
    _ ≤ |rounded x - x| + |x - y| := abs_add_le _ _
    _ ≤ M * W * δ + M * (W - 1) := add_le_add (hroom.abs_sub_rounded_le h.abs_le hone) h.close
    _ = M * (W * (1 + δ) - 1) := by ring

end Close

/-! ## One coefficient -/

/-- The size that an error of a root counts relative to. -/
def size (r : ℤ) : ℤ := max 1 |r|

theorem one_le_size (r : ℤ) : 1 ≤ size r := le_max_left _ _

/-- The number approximates an integer after some roundings, relative to a
magnitude. -/
structure Holds (δ : ℚ) (k : ℕ) (z : Cplx Float) (a m : ℤ) : Prop where
  re : ∃ v, Exactly z.re v ∧ Close ((1 + δ) ^ k) v a m
  im : Exactly z.im 0

/-- An integer that is computed as a difference with a product is computed
without an error, or with errors of at most `δ` and without overflow. -/
def StepFits (δ : ℚ) (k : ℕ) (product difference m : ℤ) : Prop :=
  (δ = 0 ∧ |product| < 2 ^ 53 ∧ |difference| < 2 ^ 53) ∨
    (2 ^ (-52 : ℤ) ≤ δ ∧ (m : ℚ) * (1 + δ) ^ k < 2 ^ 1024)

variable {δ : ℚ} {k : ℕ} {z c below : Cplx Float} {a b m n r : ℤ}

/-- An approximation of a root is within one rounding of it, relative to its
size. -/
theorem Near.holds (h : Near δ z r) (him : Exactly z.im 0) : Holds δ 1 z r (size r) := by
  obtain ⟨v, hv, hvr⟩ := h
  refine ⟨⟨v, hv, ?_, ?_⟩, him⟩
  · have hδ : 0 ≤ δ := (abs_nonneg _).trans hvr
    have hone : (1 : ℚ) ≤ size r := by exact_mod_cast one_le_size r
    rw [pow_one, add_sub_cancel_left]
    exact hvr.trans (le_mul_of_one_le_left hδ hone)
  · exact_mod_cast le_max_right 1 |r|

theorem holds_zero (δ : ℚ) (k : ℕ) : Holds δ k Cplx.zero 0 0 := by
  refine ⟨⟨0, exactly_scalar_zero, ?_, ?_⟩, exactly_scalar_zero⟩ <;> simp

namespace Holds

/-- Adding to zero costs nothing. -/
theorem add_from_zero (h : Holds δ k z a m) : Holds δ k (Cplx.zero + z) a m := by
  obtain ⟨⟨v, hv, hclose⟩, him⟩ := h
  have hre := exactly_scalar_zero.add hv (by rw [zero_add]; exact hv.representable)
  have him := exactly_scalar_zero.add him (by rw [zero_add]; exact him.representable)
  rw [zero_add] at hre him
  exact ⟨⟨v, hre, hclose⟩, him⟩

/-- An approximation by fewer roundings, relative to less. -/
theorem mono {l : ℕ} (hδ : 0 ≤ δ) (h : Holds δ k z a m) (hkl : k ≤ l) (hmn : m ≤ n) :
    Holds δ l z a n := by
  obtain ⟨⟨v, hv, hclose⟩, him⟩ := h
  have hone : 1 ≤ 1 + δ := by linarith
  have hmono := hclose.mono (pow_le_pow_right₀ hone hkl)
  have hmn : (m : ℚ) ≤ n := by exact_mod_cast hmn
  refine ⟨⟨v, hv, hmono.close.trans ?_, hmono.le.trans hmn⟩, him⟩
  have hgrowth := one_le_pow₀ hone (n := l)
  exact mul_le_mul_of_nonneg_right hmn (by linarith)

end Holds

/-- On the axis complex arithmetic is real arithmetic. -/
theorem exactly_sub_mul {u v ρ : ℚ} (hb : Exactly below.re u) (hb0 : Exactly below.im 0)
    (hc : Exactly c.re v) (hc0 : Exactly c.im 0) (hz : Exactly z.re ρ) (hz0 : Exactly z.im 0)
    (hproduct : |rounded (v * ρ)| < 2 ^ 1024)
    (hdifference : |rounded (u - rounded (v * ρ))| < 2 ^ 1024) :
    Exactly (below - c * z).re (rounded (u - rounded (v * ρ))) ∧ Exactly (below - c * z).im 0 := by
  have hzero : Representable 0 := hz0.representable
  constructor
  · have hreal := (hc.nearest_mul hz).exactly hproduct
    have himaginary := hc0.mul hz0 (by rw [mul_zero]; exact hzero)
    have hmul := hreal.nearest_sub himaginary
    rw [mul_zero, sub_zero] at hmul
    exact (hb.nearest_sub (hmul.exactly_of_representable hreal.representable)).exactly hdifference
  · have hfirst := hc.mul hz0 (by rw [mul_zero]; exact hzero)
    have hsecond := hc0.mul hz (by rw [zero_mul]; exact hzero)
    have hmul := hfirst.add hsecond (by rw [mul_zero, zero_mul, add_zero]; exact hzero)
    have hsub := hb0.nearest_sub hmul
    rw [mul_zero, zero_mul, add_zero, sub_zero] at hsub
    exact hsub.exactly_of_representable hzero

/-- An intermediate result of fewer roundings has room for one more. -/
theorem StepFits.room (hfits : StepFits δ k a b m) (hδ : 0 ≤ δ) {j : ℕ} (hj : j + 1 ≤ k) {x : ℚ}
    {y n : ℤ} (hx : Close ((1 + δ) ^ j) x y n) (hn : n ≤ m)
    (hy : |a| < 2 ^ 53 → |b| < 2 ^ 53 → |y| < 2 ^ 53) :
    Room δ x (n * (1 + δ) ^ j) := by
  rcases hfits with ⟨rfl, hproduct, hdifference⟩ | ⟨hround, hfits⟩
  · rw [add_zero, one_pow] at hx
    refine Or.inl ⟨rfl, ?_⟩
    rw [hx.eq]
    exact representable_int (hy hproduct hdifference)
  · refine Or.inr ⟨hround, lt_of_le_of_lt ?_ hfits⟩
    have hone : 1 ≤ 1 + δ := by linarith
    have hm : (n : ℚ) ≤ m := by exact_mod_cast hn
    have hnonneg := hx.nonneg
    calc (n : ℚ) * (1 + δ) ^ j * (1 + δ) = n * (1 + δ) ^ (j + 1) := by ring
      _ ≤ m * (1 + δ) ^ k := mul_le_mul hm (pow_le_pow_right₀ hone hj) (by positivity)
          (hnonneg.trans hm)

/-- **One coefficient of a product**: three more roundings. -/
theorem Holds.step (hδ : 0 ≤ δ) (hbelow : Holds δ k below b n) (hc : Holds δ k c a m)
    (hm : 1 ≤ m) (hz : Near δ z r) (hz0 : Exactly z.im 0)
    (hfits : StepFits δ (k + 3) (a * r) (b - a * r) (n + m * size r)) :
    Holds δ (k + 3) (below - c * z) (b - a * r) (n + m * size r) := by
  obtain ⟨⟨u, hu, hub⟩, hu0⟩ := hbelow
  obtain ⟨⟨v, hv, hva⟩, hv0⟩ := hc
  obtain ⟨⟨ρ, hρ, hρr⟩, -⟩ := hz.holds hz0
  have hn : 0 ≤ n := by exact_mod_cast hub.nonneg
  have hms : 1 ≤ m * size r := one_le_mul_of_one_le_of_one_le hm (one_le_size r)
  have hone (j : ℕ) : 1 ≤ (1 + δ) ^ j := one_le_pow₀ (by linarith)
  have hbound (j : ℕ) {M : ℤ} (hM : 1 ≤ M) : 1 ≤ (M : ℚ) * (1 + δ) ^ j :=
    one_le_mul_of_one_le_of_one_le (by exact_mod_cast hM) (hone j)
  have hproduct : Close ((1 + δ) ^ (k + 1)) (v * ρ) (a * r : ℤ) (m * size r : ℤ) := by
    have hmul := hva.mul hρr
    rw [pow_one, ← pow_succ] at hmul
    push_cast
    exact hmul
  have hroom := hfits.room hδ (by omega) hproduct (by omega) fun h _ => h
  have hrounded := hproduct.round hroom (hbound _ hms)
  rw [← pow_succ] at hrounded
  have hdifference : Close ((1 + δ) ^ (k + 2)) (u - rounded (v * ρ)) (b - a * r : ℤ)
      (n + m * size r : ℤ) := by
    have hsub := (hub.mono (pow_le_pow_right₀ (by linarith) (by omega : k ≤ k + 2))).sub hrounded
    push_cast at hsub ⊢
    exact hsub
  have hroom' := hfits.room hδ (by omega) hdifference le_rfl fun _ h => h
  have hlast := hdifference.round hroom' (hbound _ (by omega))
  rw [← pow_succ] at hlast
  obtain ⟨hre, him⟩ := exactly_sub_mul hu hu0 hv hv0 hρ hz0
    (hroom.abs_rounded_lt hproduct.abs_le (hbound _ hms))
    (hroom'.abs_rounded_lt hdifference.abs_le (hbound _ (by omega)))
  exact ⟨⟨_, hre, hlast⟩, him⟩

/-! ## One factor -/

/-- The coefficients follow those of a polynomial, relative to those of
another one, which has no gaps. -/
structure Tracks (δ : ℚ) (k : ℕ) (cs : List (Cplx Float)) (f g : ℤ[X]) : Prop where
  holds : ∀ i c, cs[i]? = some c → Holds δ k c (f.coeff i) (g.coeff i)
  length_pos : 0 < cs.length
  pos : ∀ i < cs.length, 1 ≤ g.coeff i
  beyond : ∀ i, cs.length ≤ i → f.coeff i = 0 ∧ g.coeff i = 0

variable {cs : List (Cplx Float)} {f g : ℤ[X]}

/-- The leading coefficient alone is exact. -/
theorem Tracks.single (δ : ℚ) {x : Float} {lead : ℤ} (hx : Exactly x lead) (hlead : lead ≠ 0) :
    Tracks δ 0 [Cplx.ofReal x] (C lead) (C |lead|) := by
  refine ⟨?_, zero_lt_one, ?_, ?_⟩
  · intro i c hc
    obtain ⟨rfl, rfl⟩ : i = 0 ∧ Cplx.ofReal x = c := by
      cases i with
      | zero => exact ⟨rfl, Option.some.inj hc⟩
      | succ i => cases hc
    rw [coeff_C_zero, coeff_C_zero]
    refine ⟨⟨lead, hx, ?_⟩, exactly_scalar_zero⟩
    rw [pow_zero]
    exact .refl (by rw [Int.cast_abs])
  · intro i hi
    obtain rfl : i = 0 := by simpa using hi
    rw [coeff_C_zero]
    exact Int.one_le_abs hlead
  · intro i hi
    have hi : i ≠ 0 := by
      rintro rfl
      simp at hi
    rw [coeff_C_of_ne_zero hi, coeff_C_of_ne_zero hi]
    exact ⟨rfl, rfl⟩

/-- The lowest coefficient of a product. -/
theorem getElem?_zero_timesLinearFrom (z below : Cplx Float) (cs : List (Cplx Float)) :
    (Factorization.timesLinearFrom z below cs)[0]? =
      some (match cs[0]? with
        | none => below
        | some c => below - c * z) := by
  cases cs <;> rfl

/-- The other coefficients. -/
theorem getElem?_succ_timesLinearFrom (z below : Cplx Float) (cs : List (Cplx Float)) (i : ℕ) :
    (Factorization.timesLinearFrom z below cs)[i + 1]? =
      cs[i]?.map fun b => match cs[i + 1]? with
        | none => Cplx.zero + b
        | some c => Cplx.zero + b - c * z := by
  induction cs generalizing below i with
  | nil => rfl
  | cons c cs ih =>
      rw [Factorization.timesLinearFrom, List.getElem?_cons_succ]
      cases i with
      | zero =>
          rw [getElem?_zero_timesLinearFrom]
          rfl
      | succ i => exact ih _ i

/-- Every factor adds a coefficient. -/
theorem length_timesLinearFrom {α : Type} [Scalar α] (z below : Cplx α) (cs : List (Cplx α)) :
    (Factorization.timesLinearFrom z below cs).length = cs.length + 1 := by
  induction cs generalizing below with
  | nil => rfl
  | cons c cs ih => rw [Factorization.timesLinearFrom, List.length_cons, ih, List.length_cons]

/-- One more factor is multiplied out without an error, or with errors of at
most `δ` and without overflow. -/
def FactorFits (δ : ℚ) (k : ℕ) (f g : ℤ[X]) (r : ℤ) : Prop :=
  ∀ i, StepFits δ k (f.coeff i * r) ((f * (X - C r)).coeff i) ((g * (X + C (size r))).coeff i)

/-- A coefficient of a product with a linear factor. -/
theorem coeff_succ_mul_X_add_C (g : ℤ[X]) (s : ℤ) (i : ℕ) :
    (g * (X + C s)).coeff (i + 1) = g.coeff i + g.coeff (i + 1) * s := by
  rw [mul_add, coeff_add, coeff_mul_X, coeff_mul_C]

theorem coeff_zero_mul_X_add_C (g : ℤ[X]) (s : ℤ) : (g * (X + C s)).coeff 0 = g.coeff 0 * s := by
  simp

/-- The lowest coefficient, as the loop computes it. -/
theorem coeff_zero_mul_X_sub_C (f : ℤ[X]) (r : ℤ) :
    (f * (X - C r)).coeff 0 = 0 - f.coeff 0 * r := by
  simp

/-- The magnitudes are not negative. -/
theorem Tracks.nonneg (h : Tracks δ k cs f g) (i : ℕ) : 0 ≤ g.coeff i := by
  by_cases hi : i < cs.length
  · exact zero_le_one.trans (h.pos i hi)
  · exact (h.beyond i (not_lt.mp hi)).2.ge

/-- What the coefficient in some place, if there is one, is taken off from. -/
theorem Tracks.holds_step (hδ : 0 ≤ δ) (h : Tracks δ k cs f g) (hz : Near δ z r)
    (hz0 : Exactly z.im 0) (hbelow : Holds δ k below b n) {i : ℕ}
    (hfits : StepFits δ (k + 3) (f.coeff i * r) (b - f.coeff i * r) (n + g.coeff i * size r)) :
    Holds δ (k + 3) (match cs[i]? with
        | none => below
        | some c => below - c * z)
      (b - f.coeff i * r) (n + g.coeff i * size r) := by
  cases hc : cs[i]? with
  | none =>
      obtain ⟨hf, hg⟩ := h.beyond i (List.getElem?_eq_none_iff.mp hc)
      rw [hf, hg, zero_mul, zero_mul, sub_zero, add_zero]
      exact hbelow.mono hδ (Nat.le_add_right k 3) le_rfl
  | some c =>
      have hi := (List.getElem?_eq_some_iff.mp hc).1
      exact hbelow.step hδ (h.holds i c hc) (h.pos i hi) hz hz0 hfits

/-- **One factor** takes three more roundings of every coefficient. -/
theorem Tracks.timesLinear (hδ : 0 ≤ δ) (h : Tracks δ k cs f g) (hz : Near δ z r)
    (hz0 : Exactly z.im 0) (hfits : FactorFits δ (k + 3) f g r) :
    Tracks δ (k + 3) (Factorization.timesLinear z cs) (f * (X - C r)) (g * (X + C (size r))) := by
  have hsize := one_le_size r
  have hlength : (Factorization.timesLinear z cs).length = cs.length + 1 :=
    length_timesLinearFrom z Cplx.zero cs
  refine ⟨?_, by omega, ?_, ?_⟩
  · intro i c hc
    have hfit := hfits i
    rw [Factorization.timesLinear] at hc
    cases i with
    | zero =>
        rw [getElem?_zero_timesLinearFrom] at hc
        obtain rfl := Option.some.inj hc
        rw [coeff_zero_mul_X_sub_C, coeff_zero_mul_X_add_C, ← zero_add (g.coeff 0 * size r)] at *
        exact h.holds_step hδ hz hz0 (holds_zero δ k) hfit
    | succ i =>
        rw [getElem?_succ_timesLinearFrom] at hc
        obtain ⟨b, hb, rfl⟩ := Option.map_eq_some_iff.mp hc
        rw [coeff_mul_X_sub_C, coeff_succ_mul_X_add_C] at *
        exact h.holds_step hδ hz hz0 (h.holds i b hb).add_from_zero hfit
  · intro i hi
    rw [hlength] at hi
    cases i with
    | zero =>
        rw [coeff_zero_mul_X_add_C]
        exact one_le_mul_of_one_le_of_one_le (h.pos 0 h.length_pos) hsize
    | succ i =>
        rw [coeff_succ_mul_X_add_C]
        have hpos := h.pos i (by omega)
        have hrest := mul_nonneg (h.nonneg (i + 1)) (zero_le_one.trans hsize)
        omega
  · intro i hi
    rw [hlength] at hi
    obtain ⟨i, rfl⟩ : ∃ j, i = j + 1 := ⟨i - 1, by omega⟩
    obtain ⟨hf, hg⟩ := h.beyond i (by omega)
    obtain ⟨hf', hg'⟩ := h.beyond (i + 1) (by omega)
    rw [coeff_mul_X_sub_C, coeff_succ_mul_X_add_C, hf, hg, hf', hg']
    simp

/-! ## All factors -/

/-- Every factor in turn is multiplied out without an error, or with errors
of at most `δ` and without overflow. -/
def FactorsFit (δ : ℚ) (k : ℕ) (f g : ℤ[X]) : List ℤ → Prop
  | [] => True
  | r :: rs =>
    FactorFits δ (k + 3) f g r ∧
      FactorsFit δ (k + 3) (f * (X - C r)) (g * (X + C (size r))) rs

/-- **All factors**, at approximations of their roots. -/
theorem Tracks.timesLinears (hδ : 0 ≤ δ) (h : Tracks δ k cs f g) {zs : List (Cplx Float)}
    {rs : List ℤ} (hzs : List.Forall₂ (fun z r => Near δ z r ∧ Exactly z.im 0) zs rs)
    (hfits : FactorsFit δ k f g rs) :
    Tracks δ (k + 3 * rs.length) (zs.foldl (fun cs z => Factorization.timesLinear z cs) cs)
      (f * (rs.map fun r => X - C r).prod) (g * (rs.map fun r => X + C (size r)).prod) := by
  induction hzs generalizing k cs f g with
  | nil => simpa using h
  | @cons z r zs rs hz hzs ih =>
      obtain ⟨hfirst, hrest⟩ := hfits
      have hstep := ih (h.timesLinear hδ hz.1 hz.2 hfirst) hrest
      rw [List.map_cons, List.map_cons, List.prod_cons, List.prod_cons, ← mul_assoc, ← mul_assoc,
        List.length_cons, List.foldl_cons]
      rw [show k + 3 * (rs.length + 1) = k + 3 + 3 * rs.length by ring]
      exact hstep

/-- Multiplying by factors, one after the other, no coefficient and no
product with a root reaches `2⁵³`. -/
def StaysExact (f : ℤ[X]) : List ℤ → Prop
  | [] => True
  | r :: rs =>
    (∀ i, |f.coeff i * r| < 2 ^ 53 ∧ |(f * (X - C r)).coeff i| < (2 ^ 53 : ℤ)) ∧
      StaysExact (f * (X - C r)) rs

/-- Where everything stays exact, every factor fits without an error. -/
theorem StaysExact.factorsFit {rs : List ℤ} (h : StaysExact f rs) (k : ℕ) (g : ℤ[X]) :
    FactorsFit 0 k f g rs := by
  induction rs generalizing f k g with
  | nil => trivial
  | cons r rs ih => exact ⟨fun i => Or.inl ⟨rfl, h.1 i⟩, ih h.2 _ _⟩

/-- A factor makes coefficients larger by at most its size. -/
theorem abs_coeff_mul_X_sub_C_le {B : ℤ} (h : ∀ i, |f.coeff i| ≤ B) (r : ℤ) (i : ℕ) :
    |(f * (X - C r)).coeff i| ≤ B * (1 + |r|) := by
  have hproduct (j : ℕ) : |f.coeff j * r| ≤ B * |r| := by
    rw [abs_mul]
    exact mul_le_mul_of_nonneg_right (h j) (abs_nonneg r)
  have hB : 0 ≤ B := (abs_nonneg _).trans (h 0)
  cases i with
  | zero =>
      rw [coeff_zero_mul_X_sub_C, zero_sub, abs_neg]
      linarith [hproduct 0]
  | succ i =>
      rw [coeff_mul_X_sub_C]
      linarith [abs_sub (f.coeff i) (f.coeff (i + 1) * r), h i, hproduct (i + 1)]

/-- **The coefficients of a product** grow by one plus the magnitude of every
root. -/
theorem abs_coeff_mul_prod_le {B : ℤ} (h : ∀ i, |f.coeff i| ≤ B) (rs : List ℤ) (i : ℕ) :
    |(f * (rs.map fun r => X - C r).prod).coeff i| ≤ B * (rs.map fun r => 1 + |r|).prod := by
  induction rs generalizing f B with
  | nil => simpa using h i
  | cons r rs ih =>
      rw [List.map_cons, List.map_cons, List.prod_cons, List.prod_cons, ← mul_assoc, ← mul_assoc]
      exact ih (abs_coeff_mul_X_sub_C_le h r)

/-- That growth is at least one. -/
theorem one_le_prod_sizes (rs : List ℤ) : 1 ≤ (rs.map fun r => 1 + |r|).prod := by
  induction rs with
  | nil => exact le_rfl
  | cons r rs ih =>
      rw [List.map_cons, List.prod_cons]
      exact one_le_mul_of_one_le_of_one_le (by linarith [abs_nonneg r]) ih

/-- What is small in the end, signs left aside, is small on the way. -/
theorem staysExact_of_lt {B : ℤ} (h : ∀ i, |f.coeff i| ≤ B) {rs : List ℤ}
    (hlt : B * (rs.map fun r => 1 + |r|).prod < 2 ^ 53) : StaysExact f rs := by
  induction rs generalizing f B with
  | nil => trivial
  | cons r rs ih =>
      rw [List.map_cons, List.prod_cons, ← mul_assoc] at hlt
      have hB : 0 ≤ B := (abs_nonneg _).trans (h 0)
      have hfirst : B * (1 + |r|) < 2 ^ 53 := by
        refine lt_of_le_of_lt (le_mul_of_one_le_right ?_ (one_le_prod_sizes rs)) hlt
        exact mul_nonneg hB (by linarith [abs_nonneg r])
      refine ⟨fun i => ⟨?_, (abs_coeff_mul_X_sub_C_le h r i).trans_lt hfirst⟩,
        ih (abs_coeff_mul_X_sub_C_le h r) hlt⟩
      have hproduct := mul_le_mul_of_nonneg_right (h i) (abs_nonneg r)
      rw [abs_mul]
      linarith

theorem nonneg_mul_X_add_C (hg : ∀ i, 0 ≤ g.coeff i) (r : ℤ) (i : ℕ) :
    0 ≤ (g * (X + C (size r))).coeff i := by
  have hsize := zero_le_one.trans (one_le_size r)
  cases i with
  | zero =>
      rw [coeff_zero_mul_X_add_C]
      exact mul_nonneg (hg 0) hsize
  | succ i =>
      rw [coeff_succ_mul_X_add_C]
      exact add_nonneg (hg i) (mul_nonneg (hg _) hsize)

/-- Magnitudes only grow, at the next degree with every factor. -/
theorem exists_coeff_le (hg : ∀ i, 0 ≤ g.coeff i) (rs : List ℤ) (i : ℕ) :
    ∃ j, g.coeff i ≤ (g * (rs.map fun r => X + C (size r)).prod).coeff j := by
  induction rs generalizing g i with
  | nil => exact ⟨i, by simp⟩
  | cons r rs ih =>
      obtain ⟨j, hj⟩ := ih (nonneg_mul_X_add_C hg r) (i + 1)
      refine ⟨j, ?_⟩
      rw [List.map_cons, List.prod_cons, ← mul_assoc]
      refine le_trans ?_ hj
      rw [coeff_succ_mul_X_add_C]
      exact le_add_of_nonneg_right (mul_nonneg (hg _) (zero_le_one.trans (one_le_size r)))

/-- What does not overflow in the end does not overflow on the way. -/
theorem factorsFit_of_lt {rs : List ℤ} (hδ : 2 ^ (-52 : ℤ) ≤ δ) (hg : ∀ i, 0 ≤ g.coeff i)
    (hlt : ∀ i, ((g * (rs.map fun r => X + C (size r)).prod).coeff i : ℚ) *
      (1 + δ) ^ (k + 3 * rs.length) < 2 ^ 1024) : FactorsFit δ k f g rs := by
  have hone : 1 ≤ 1 + δ := by
    have hpos : (0 : ℚ) < 2 ^ (-52 : ℤ) := by positivity
    linarith
  induction rs generalizing k f g with
  | nil => trivial
  | cons r rs ih =>
      have hg' := nonneg_mul_X_add_C hg r
      rw [List.map_cons, List.prod_cons, ← mul_assoc, List.length_cons] at hlt
      refine ⟨fun i => Or.inr ⟨hδ, ?_⟩, ih hg' ?_⟩
      · obtain ⟨j, hj⟩ := exists_coeff_le hg' rs i
        refine lt_of_le_of_lt ?_ (hlt j)
        have hpow := pow_le_pow_right₀ hone (by omega : k + 3 ≤ k + 3 * (rs.length + 1))
        have hcoeff : ((g * (X + C (size r))).coeff i : ℚ) ≤
            (g * (X + C (size r)) * (rs.map fun r => X + C (size r)).prod).coeff j := by
          exact_mod_cast hj
        have hnonneg : (0 : ℚ) ≤ (g * (X + C (size r))).coeff i := by exact_mod_cast hg' i
        exact mul_le_mul hcoeff hpow (by positivity) (hnonneg.trans hcoeff)
      · intro i
        rw [show k + 3 + 3 * rs.length = k + 3 * (rs.length + 1) by ring]
        exact hlt i

/-- A power is a factor repeated. -/
theorem timesPower_eq_foldl {α : Type} [Scalar α] (z : Cplx α) (n : ℕ) (cs : List (Cplx α)) :
    Factorization.timesPower z n cs =
      (List.replicate n z).foldl (fun cs z => Factorization.timesLinear z cs) cs := by
  induction n generalizing cs with
  | zero => rfl
  | succ n ih => exact ih _

/-- The factors multiplied out one by one. -/
theorem expand_eq_foldl {α : Type} [Scalar α] (f : Factorization α) :
    f.expand = (f.factors.flatMap fun c => List.replicate c.multiplicity c.value).foldl
      (fun cs z => Factorization.timesLinear z cs) [Cplx.ofReal f.leading] := by
  rw [List.foldl_flatMap]
  exact List.foldl_ext _ _ _ fun cs c _ => timesPower_eq_foldl _ _ _

end Univariate
