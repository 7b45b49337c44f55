import Univariate.Proofs.Binary64.Arithmetic
import Univariate.Proofs.Binary64.Packing

/-!
# Exact binary64 arithmetic

`Exactly x q` says that the number `x` is finite and is the rational `q`.
Sums and products of such numbers are exact whenever their true value is
`Representable`, in particular whenever it is an integer of at most
fifty-three bits; signs and magnitudes are always exact, and comparisons
decide the order of the rationals.

* `Exactly.add`, `Exactly.mul`, `Exactly.neg`, `Exactly.abs` — arithmetic;
* `Exactly.lt_iff`, `Exactly.beq_iff` — comparisons;
* `Exactly.eq_of_ne_zero` — only zero has two forms;
* `exactly_ofInt` — the integers of fifty-three bits.
-/

namespace Univariate

namespace Binary64

open Float.Model Float.Model.UnpackedFloat

/-! ## Unpacked numbers -/

/-- A sum that the format can hold is exact. -/
theorem unpacks_add {u v : UnpackedFloat} {p q : ℚ} (hu : Unpacks u p) (hv : Unpacks v q)
    (h : Representable (p + q)) : Unpacks (UnpackedFloat.add .binary64 u v) (p + q) :=
  (rounds_add hu hv).unpacks_of_representable h

/-- A product that the format can hold is exact. -/
theorem unpacks_mul {u v : UnpackedFloat} {p q : ℚ} (hu : Unpacks u p) (hv : Unpacks v q)
    (h : Representable (p * q)) : Unpacks (UnpackedFloat.mul .binary64 u v) (p * q) :=
  (rounds_mul hu hv).unpacks_of_representable h

/-- Magnitudes are exact. -/
theorem unpacks_abs {u : UnpackedFloat} {q : ℚ} (h : Unpacks u q) : Unpacks u.abs |q| := by
  rcases h.zero_or_finite with ⟨s, rfl, rfl⟩ | ⟨s, m, e, hm, rfl, rfl⟩
  · rw [abs_zero]
    exact unpacks_zero _
  · refine ⟨?_, h.canonical⟩
    cases s <;> simp [UnpackedFloat.abs, rat?, Sign.apply, abs_mul]

/-! ## Comparisons -/

/-- Of two numbers on different grids the one on the wider grid is
larger. -/
theorem scaled_lt_of_exponent_lt {s t : Sign} {m n : ℕ} {e f : ℤ} {hm : 0 < m} {hn : 0 < n}
    (hu : Canonical (.finite s m e hm)) (hv : Canonical (.finite t n f hn)) (hlt : e < f) :
    (m : ℚ) * 2 ^ e < n * 2 ^ f := by
  obtain ⟨hcu, -⟩ := (canonical_finite_iff hm).mp hu
  obtain ⟨hcv, -⟩ := (canonical_finite_iff hn).mp hv
  by_contra hge
  have hlog := Int.log_mono_right (b := 2) (by positivity) (not_lt.mp hge)
  rw [log_scaled hm, log_scaled hn] at hlog
  omega

/-- Magnitudes are compared by exponents first and mantissas second. -/
theorem compare_then_compare {s t : Sign} {m n : ℕ} {e f : ℤ} {hm : 0 < m} {hn : 0 < n}
    (hu : Canonical (.finite s m e hm)) (hv : Canonical (.finite t n f hn)) :
    (compare e f).then (compare m n) = compare ((m : ℚ) * 2 ^ e) (n * 2 ^ f) := by
  rcases lt_trichotomy e f with hlt | rfl | hgt
  · rw [compare_lt_iff_lt.mpr hlt, compare_lt_iff_lt.mpr (scaled_lt_of_exponent_lt hu hv hlt)]
    rfl
  · rw [compare_eq_iff_eq.mpr (rfl : e = e)]
    have hpos : (0 : ℚ) < 2 ^ e := by positivity
    rcases lt_trichotomy m n with h | rfl | h
    · rw [compare_lt_iff_lt.mpr h, compare_lt_iff_lt.mpr (by gcongr)]
      rfl
    · rw [compare_eq_iff_eq.mpr rfl, compare_eq_iff_eq.mpr rfl]
      rfl
    · rw [compare_gt_iff_gt.mpr h, compare_gt_iff_gt.mpr
        (mul_lt_mul_of_pos_right (by exact_mod_cast h) hpos)]
      rfl
  · rw [compare_gt_iff_gt.mpr hgt,
      compare_gt_iff_gt.mpr (scaled_lt_of_exponent_lt hv hu hgt)]
    rfl

/-- Changing both signs turns the order round. -/
theorem compare_neg_neg (p q : ℚ) : compare (-p) (-q) = (compare p q).swap := by
  rcases lt_trichotomy p q with h | rfl | h
  · rw [compare_lt_iff_lt.mpr h, compare_gt_iff_gt.mpr (neg_lt_neg h)]
    rfl
  · rw [compare_eq_iff_eq.mpr rfl, compare_eq_iff_eq.mpr rfl]
    rfl
  · rw [compare_gt_iff_gt.mpr h, compare_lt_iff_lt.mpr (neg_lt_neg h)]
    rfl

/-- **Comparing numbers compares their values.** -/
theorem unpacks_compare {u v : UnpackedFloat} {p q : ℚ} (hu : Unpacks u p) (hv : Unpacks v q) :
    u.compare v = some (compare p q) := by
  rcases hu.zero_or_finite with ⟨s, rfl, rfl⟩ | ⟨s, m, e, hm, rfl, rfl⟩ <;>
    rcases hv.zero_or_finite with ⟨t, rfl, rfl⟩ | ⟨t, n, f, hn, rfl, rfl⟩
  · rw [compare_eq_iff_eq.mpr rfl]
    rfl
  · have hpos : (0 : ℚ) < n * 2 ^ f := by positivity
    cases t
    · rw [compare_gt_iff_gt.mpr (by simpa [Sign.apply] using hpos)]
      rfl
    · rw [compare_lt_iff_lt.mpr (by simpa [Sign.apply] using hpos)]
      rfl
  · have hpos : (0 : ℚ) < m * 2 ^ e := by positivity
    cases s
    · rw [compare_lt_iff_lt.mpr (by simpa [Sign.apply] using hpos)]
      rfl
    · rw [compare_gt_iff_gt.mpr (by simpa [Sign.apply] using hpos)]
      rfl
  · have hp : (0 : ℚ) < m * 2 ^ e := by positivity
    have hq : (0 : ℚ) < n * 2 ^ f := by positivity
    have hmag := compare_then_compare hu.canonical hv.canonical
    cases s <;> cases t <;> simp only [Sign.apply, Int.cast_neg, Int.cast_natCast, neg_mul]
    · rw [compare_neg_neg, ← hmag]
      rfl
    · rw [compare_lt_iff_lt.mpr (by linarith)]
      rfl
    · rw [compare_gt_iff_gt.mpr (by linarith)]
      rfl
    · rw [← hmag]
      rfl

/-- Two canonical forms of one nonzero value are the same. -/
theorem Unpacks.eq_of_ne_zero {u v : UnpackedFloat} {q : ℚ} (hu : Unpacks u q)
    (hv : Unpacks v q) (hq : q ≠ 0) : u = v := by
  rcases hu.zero_or_finite with ⟨s, rfl, rfl⟩ | ⟨s, m, e, hm, rfl, hp⟩
  · exact absurd rfl hq
  rcases hv.zero_or_finite with ⟨t, rfl, rfl⟩ | ⟨t, n, f, hn, rfl, hp'⟩
  · exact absurd rfl hq
  have hvalue : (s.apply m : ℚ) * 2 ^ e = t.apply n * 2 ^ f := hp.symm.trans hp'
  have hpos : (0 : ℚ) < m * 2 ^ e := by positivity
  have hpos' : (0 : ℚ) < n * 2 ^ f := by positivity
  have hsign : s = t := by
    cases s <;> cases t <;> first
      | rfl
      | (simp only [Sign.apply, Int.cast_neg, Int.cast_natCast, neg_mul] at hvalue; linarith)
  subst hsign
  have hmag : (m : ℚ) * 2 ^ e = n * 2 ^ f := by
    cases s <;> simpa [Sign.apply] using hvalue
  obtain rfl : e = f := hu.canonical.1.symm.trans (hmag ▸ hv.canonical.1)
  obtain rfl : m = n := by exact_mod_cast mul_right_cancel₀ (by positivity) hmag
  rfl

/-! ## Numbers -/

/-- The number is finite and has this value. -/
def Exactly (x : Float) (q : ℚ) : Prop := rat? x.toModel.unpack = some q

namespace Exactly

variable {x y : Float} {p q : ℚ}

/-- The decoded fields stand for the same number. -/
theorem unpacks (h : Exactly x q) : Unpacks x.toModel.unpack q :=
  ⟨h, canonical_unpack _⟩

/-- What is packed in canonical form keeps its value. -/
theorem of_unpacks {u : UnpackedFloat} (h : Unpacks u q) :
    Exactly (Float.ofModel (Float.Model.pack u)) q := by
  have hround : (Float.Model.pack u).unpack = u := unpack_pack h.canonical
  rw [Exactly, hround]
  exact h.value

/-- What a binary number stands for, the format can hold. -/
theorem representable (h : Exactly x q) : Representable q := h.unpacks.representable

/-- A binary number stands for one number. -/
theorem unique (hp : Exactly x p) (hq : Exactly x q) : p = q :=
  Option.some.inj (hp.symm.trans hq)

/-- **A sum that the format can hold is exact.** -/
theorem add (hx : Exactly x p) (hy : Exactly y q) (h : Representable (p + q)) :
    Exactly (x + y) (p + q) :=
  of_unpacks (unpacks_add hx.unpacks hy.unpacks h)

/-- **A product that the format can hold is exact.** -/
theorem mul (hx : Exactly x p) (hy : Exactly y q) (h : Representable (p * q)) :
    Exactly (x * y) (p * q) :=
  of_unpacks (unpacks_mul hx.unpacks hy.unpacks h)

/-- Opposites are exact. -/
theorem neg (hx : Exactly x p) : Exactly (-x) (-p) :=
  of_unpacks (unpacks_neg hx.unpacks)

/-- Magnitudes are exact. -/
theorem abs (hx : Exactly x p) : Exactly x.abs |p| :=
  of_unpacks (unpacks_abs hx.unpacks)

/-- **Comparing** binary numbers compares what they stand for. -/
theorem lt_iff (hx : Exactly x p) (hy : Exactly y q) : Float.lt x y = true ↔ p < q := by
  have hlt : Float.lt x y = (x.toModel.unpack.compare y.toModel.unpack == some .lt) :=
    Bool.decide_coe _
  rw [hlt, unpacks_compare hx.unpacks hy.unpacks, ← compare_lt_iff_lt]
  simp

/-- Binary numbers are equal if they stand for one number. -/
theorem beq_iff (hx : Exactly x p) (hy : Exactly y q) : Float.beq x y = true ↔ p = q := by
  have hbeq : Float.beq x y = (x.toModel.unpack.compare y.toModel.unpack == some .eq) := rfl
  rw [hbeq, unpacks_compare hx.unpacks hy.unpacks, ← compare_eq_iff_eq]
  simp

/-- Only zero has two forms. -/
theorem eq_of_ne_zero (hx : Exactly x p) (hy : Exactly y p) (hp : p ≠ 0) : x = y := by
  have hunpack : x.toModel.unpack = y.toModel.unpack :=
    Unpacks.eq_of_ne_zero hx.unpacks hy.unpacks hp
  have hbits : x.toModel.toBits.toBitVec = y.toModel.toBits.toBitVec := by
    rw [← pack_unpack x.toModel.valid, ← pack_unpack y.toModel.valid]
    exact congrArg _ hunpack
  rcases x with ⟨⟨⟨b⟩, hb⟩⟩
  rcases y with ⟨⟨⟨c⟩, hc⟩⟩
  obtain rfl : b = c := hbits
  rfl

end Exactly

/-! ## Integers -/

/-- Integers of fifty-three bits fit into the format. -/
theorem representable_int {n : ℤ} (h : |n| < 2 ^ 53) : Representable n :=
  ⟨n, 0, h, by norm_num, by norm_num [maxGridExponent], by simp⟩

/-- The bits that stand for one. -/
theorem exactly_ofBits_one : Exactly (Float.ofBits 0x3FF0000000000000) 1 := by
  have hunpack : (Float.ofBits 0x3FF0000000000000).toModel.unpack =
      .finite .positive (2 ^ 52) (-52) (by norm_num) := by rfl
  rw [Exactly, hunpack, rat?]
  norm_num [Sign.apply]

/-- A word of fifty-three bits is converted exactly. -/
theorem exactly_toFloat {n : ℕ} (h : n < 2 ^ 53) : Exactly n.toUInt64.toFloat n := by
  have hn : Representable ((n : ℤ) * 2 ^ (0 : ℤ)) := by
    simpa using representable_int (n := n) (by simpa using h)
  have hword : n.toUInt64.toNat = n := by
    simp
    omega
  have hround := (rounds_normalize n 0 .positive).unpacks_of_representable hn
  rw [zpow_zero, mul_one, Int.cast_natCast] at hround
  have hunpack : n.toUInt64.toFloat = Float.ofModel (Float.Model.pack
      (UnpackedFloat.normalize .binary64 (n.toUInt64.toNat : ℤ) 0 .positive)) := rfl
  rw [hunpack, hword]
  exact Exactly.of_unpacks hround

/-- **Small natural numbers are exact.** -/
theorem exactly_ofNat {n : ℕ} (h : n < 2 ^ 53) : Exactly (Float.ofNat n) n := by
  -- A literal is read as a word and then scaled by a power of ten, here by one.
  have hscale : Float.ofNat n = n.toUInt64.toFloat * Float.ofBits 0x3FF0000000000000 := by
    show Float.ofScientific n false 0 = _
    unfold Float.ofScientific
    rw [dif_pos ⟨h, by omega⟩]
    rfl
  rw [hscale]
  have hn : Representable ((n : ℚ) * 1) := by
    simpa using representable_int (n := n) (by simpa using h)
  simpa using (exactly_toFloat h).mul exactly_ofBits_one hn

theorem exactly_zero : Exactly (0 : Float) 0 := by
  exact_mod_cast exactly_ofNat (n := 0) (by norm_num)

theorem exactly_one : Exactly (1 : Float) 1 := by
  exact_mod_cast exactly_ofNat (n := 1) (by norm_num)

/-- **An integer of fifty-three bits is converted exactly.** -/
theorem exactly_ofInt {n : ℤ} (h : |n| < 2 ^ 53) : Exactly (Float.ofInt n) n := by
  cases n with
  | ofNat n => exact exactly_ofNat (by simpa using h)
  | negSucc n =>
      have hn : n + 1 < 2 ^ 53 := by
        rw [Int.negSucc_eq, abs_neg] at h
        exact_mod_cast (abs_lt.mp h).2
      have hneg := (exactly_ofNat hn).neg
      rw [Int.negSucc_eq]
      push_cast at hneg ⊢
      exact hneg

end Binary64

end Univariate
