import Univariate.Proofs.Checked.Access
import Univariate.Proofs.Dense.Polynomial

/-!
# Checked division

Long division and Euclid's loop as programs on indices: the entries of the
dividend are changed in place, from the highest degree downwards, and the
divisor's leading coefficient is asked for first.  An empty divisor has
none, so dividing by it fails; any other division succeeds, with the result
that `Dense.divRem` has.  Euclid's loop stops at an empty divisor, and so
never divides by one, whatever its arguments are.

* `Checked.subtractRow`, `Checked.divStep`, `Checked.divRem` — division;
* `Checked.divRem_eq`, `Checked.divRem_nil` — what comes out of it;
* `Checked.gcd`, `Checked.gcd_eq` — the greatest common divisor of any two
  polynomials.
-/

namespace Univariate

variable {α : Type} [Scalar α]

namespace Dense

/-- Subtracting a multiple changes as many coefficients as it has, and leaves
the ones behind them. -/
theorem subScaled_append (k : α) {mid lower : Dense α} (h : mid.length = lower.length)
    (rest : Dense α) :
    subScaled k (mid ++ rest) lower = List.zipWith (fun r c => r - k * c) mid lower ++ rest := by
  induction mid generalizing lower with
  | nil =>
      obtain rfl := List.length_eq_zero_iff.mp h.symm
      cases rest <;> rfl
  | cons r mid ih =>
      cases lower with
      | nil => cases h
      | cons c lower =>
          rw [List.cons_append, subScaled, ih (Nat.succ.inj h)]
          rfl

/-- The same with the highest degree first. -/
theorem subScaled_reverse (k : α) {mid lower : Dense α} (h : mid.length = lower.length)
    (front : Dense α) :
    subScaled k (front ++ mid).reverse lower.reverse =
      (front ++ List.zipWith (fun r c => r - k * c) mid lower).reverse := by
  have hreverse : mid.reverse.length = lower.reverse.length := by simpa using h
  rw [List.reverse_append, subScaled_append k hreverse, List.reverse_append,
    ← List.reverse_zipWith h]

end Dense

namespace Checked

/-! ## Division -/

/-- Takes `k · b[j]` off the entry at `offset + j`, for all `j`. -/
def subtractRow (k : α) (offset : ℕ) (b rest : Dense α) : Checked (Dense α) :=
  b.zipIdx.foldlM (fun rest (c, j) => do
    put rest (offset + j) ((← get rest (offset + j)) - k * c)) rest

/-- The coefficient of degree `k` of a quotient by `b`, and what it leaves
of the dividend. -/
def divStep (b : Dense α) (lead : α) (state : Dense α × Dense α) (k : ℕ) :
    Checked (Dense α × Dense α) := do
  let (quotient, rest) := state
  let coefficient := (← get rest (k + Dense.degree b)) / lead
  let quotient ← put quotient k coefficient
  let rest ← subtractRow coefficient k b rest
  let rest ← put rest (k + Dense.degree b) Scalar.zero
  return (quotient, rest)

/-- Long division. -/
def divRem (a b : Dense α) : Checked (Dense α × Dense α) := do
  let top := Dense.degree b
  let lead ← get b top
  if a.length < b.length then return ([], a)
  let count ← minus a.length top
  let (quotient, rest) ← (List.range count).reverse.foldlM (divStep b lead)
    (List.replicate count Scalar.zero, a)
  return (quotient, rest.take top)

/-- **By an empty polynomial nothing is divided.** -/
theorem divRem_nil (a : Dense α) : divRem a [] = .error (.fault (.outOfBounds 0 0)) := rfl

/-- The checked row from any place on: what lies before and behind it stays,
and in between the multiple is subtracted. -/
theorem subtractRow_go (k : α) (offset : ℕ) (b mid : Dense α) (h : mid.length = b.length)
    (front back : Dense α) (i : ℕ) (hfront : front.length = offset + i) :
    (b.zipIdx i).foldlM (fun rest (c, j) => do
        put rest (offset + j) ((← get rest (offset + j)) - k * c)) (front ++ (mid ++ back)) =
      .ok (front ++ (List.zipWith (fun r c => r - k * c) mid b ++ back)) := by
  induction b generalizing mid front i with
  | nil =>
      obtain rfl := List.length_eq_zero_iff.mp h
      rfl
  | cons c b ih =>
      cases mid with
      | nil => cases h
      | cons r mid =>
          have hnext := ih mid (Nat.succ.inj h) (front ++ [r - k * c]) (i + 1)
            (by rw [List.length_append, hfront]; rfl)
          rw [List.append_assoc, List.append_assoc] at hnext
          rw [List.zipIdx_cons, List.foldlM_cons]
          simp only [List.cons_append, get_append hfront, ok_bind, put_append hfront]
          exact hnext

/-- A row is taken off the entries from the offset on. -/
theorem subtractRow_eq (k : α) {b mid : Dense α} (h : mid.length = b.length)
    (front back : Dense α) :
    subtractRow k front.length b (front ++ (mid ++ back)) =
      .ok (front ++ (List.zipWith (fun r c => r - k * c) mid b ++ back)) :=
  subtractRow_go k front.length b mid h front back 0 rfl

/-- A step finds one entry of the quotient, and takes the row for it off the
dividend. -/
theorem divStep_eq (lead : α) {mid lower : Dense α} (hmid : mid.length = lower.length)
    (front : Dense α) (top : α) (found back : Dense α) :
    divStep (lower ++ [lead]) lead
        (List.replicate (front.length + 1) Scalar.zero ++ found, front ++ mid ++ top :: back)
        front.length =
      .ok (List.replicate front.length Scalar.zero ++ top / lead :: found,
        front ++ List.zipWith (fun r c => r - top / lead * c) mid lower ++
          Scalar.zero :: back) := by
  set k := top / lead with hk
  set below := List.zipWith (fun r c => r - k * c) mid lower with hbelow
  have hdegree : front.length + Dense.degree (lower ++ [lead]) = (front ++ mid).length := by
    rw [Dense.degree_concat, List.length_append, hmid]
  have hlength : (front ++ below).length = (front ++ mid).length := by simp [hbelow, hmid]
  have hfound : put (List.replicate (front.length + 1) Scalar.zero ++ found) front.length k =
      .ok (List.replicate front.length Scalar.zero ++ k :: found) := by
    rw [List.replicate_succ', List.append_assoc]
    exact put_append List.length_replicate _ k found
  have hrow : subtractRow k front.length (lower ++ [lead]) (front ++ mid ++ top :: back) =
      .ok (front ++ below ++ (top - k * lead) :: back) := by
    have hfull : (mid ++ [top]).length = (lower ++ [lead]).length := by simp [hmid]
    have hall := subtractRow_eq k hfull front back
    rw [List.zipWith_append hmid] at hall
    simpa using hall
  simp only [divStep, hdegree, get_append rfl, ok_bind, ← hk, hfound, hrow, put_append hlength,
    pure_eq]

/-- **The steps of a long division** turn the entries from the top downwards
into those of the quotient and the remainder. -/
theorem divLoop_eq (lead : α) (lower : Dense α) (count : ℕ) (rest : Dense α)
    (hlength : rest.length = count + lower.length) (found back : Dense α) :
    ∃ back', (List.range count).reverse.foldlM (divStep (lower ++ [lead]) lead)
        (List.replicate count Scalar.zero ++ found, rest ++ back) =
      .ok ((Dense.divSteps lead lower.reverse count rest.reverse).1.reverse ++ found,
        (Dense.divSteps lead lower.reverse count rest.reverse).2.reverse ++ back') := by
  induction count generalizing rest found back with
  | zero => exact ⟨back, by simp [Dense.divSteps]⟩
  | succ count ih =>
      -- What lies below the row of this step, the row, and its top entry.
      obtain ⟨front, mid, top, rfl, rfl, hmid⟩ : ∃ front mid top, rest = front ++ mid ++ [top] ∧
          front.length = count ∧ mid.length = lower.length := by
        have hne : rest.drop count ≠ [] := by
          rw [← List.length_pos_iff, List.length_drop]
          omega
        refine ⟨rest.take count, (rest.drop count).dropLast, (rest.drop count).getLast hne,
          ?_, ?_, ?_⟩
        · rw [List.append_assoc, List.dropLast_append_getLast, List.take_append_drop]
        · rw [List.length_take]
          omega
        · rw [List.length_dropLast, List.length_drop]
          omega
      have hstep := divStep_eq lead hmid front top found back
      have hnext : (front ++ List.zipWith (fun r c => r - top / lead * c) mid lower).length =
          front.length + lower.length := by simp [hmid]
      obtain ⟨back', hrun⟩ := ih _ hnext (top / lead :: found) (Scalar.zero :: back)
      have hreverse : (front ++ mid ++ [top]).reverse = top :: (front ++ mid).reverse := by simp
      refine ⟨back', ?_⟩
      rw [List.range_succ, List.reverse_append, List.reverse_singleton, List.singleton_append,
        List.foldlM_cons, List.append_assoc, List.singleton_append, hstep, ok_bind, hrun, hreverse,
        Dense.divSteps, Dense.subScaled_reverse (top / lead) hmid front]
      simp

/-- **By any other polynomial everything is divided.** -/
theorem divRem_eq (a : Dense α) {b : Dense α} (hb : b ≠ []) :
    divRem a b = .ok (Dense.divRem a b) := by
  obtain ⟨lower, lead, rfl⟩ := (List.eq_nil_or_concat' b).resolve_left hb
  have hlead : get (lower ++ [lead]) lower.length = .ok lead := get_append rfl lead []
  rw [divRem, Dense.divRem, List.reverse_concat]
  simp only [Dense.degree_concat, hlead, ok_bind, pure_eq, List.length_reverse]
  split_ifs with hshort
  · rfl
  · rw [List.length_append, List.length_singleton] at hshort
    obtain ⟨back, hloop⟩ := divLoop_eq lead lower (a.length - lower.length) a (by omega) [] []
    simp only [List.append_nil] at hloop
    have hrest : (Dense.divSteps lead lower.reverse (a.length - lower.length)
        a.reverse).2.reverse.length = lower.length := by
      rw [List.length_reverse, Dense.length_divSteps, List.length_reverse]
      omega
    rw [minus_of_le (by omega), ok_bind, hloop, ok_bind, List.take_left' hrest]

/-! ## Euclid's loop -/

/-- The remainder that Euclid's loop goes on with. -/
def remainder (p q : Dense α) : Checked (Dense α) := do
  let (_, rest) ← divRem p q
  let tolerance := Scalar.gcdTolerance * Scalar.max (Dense.norm p) Scalar.one
  return Dense.makeMonic (Dense.trim rest tolerance)

/-- **The checked remainder succeeds**, for every divisor that has
coefficients. -/
theorem remainder_eq (p : Dense α) {q : Dense α} (hq : q ≠ []) :
    remainder p q = .ok (Dense.remainder p q) := by
  rw [remainder, divRem_eq p hq]
  rfl

/-- Euclid's loop.  A division that failed would end it. -/
def gcdLoop (p : Dense α) : Dense α → Checked (Dense α)
  | [] => .ok p
  | b :: q =>
    match _hrest : remainder p (b :: q) with
    | .error stop => .error stop
    | .ok rest => gcdLoop (b :: q) rest
termination_by q => q.length
decreasing_by
  rw [remainder_eq p (List.cons_ne_nil b q)] at _hrest
  exact Except.ok.inj _hrest ▸ Dense.length_remainder_lt p (List.cons_ne_nil b q)

/-- The monic greatest common divisor. -/
def gcd (p q : Dense α) : Checked (Dense α) := do
  let scale := Scalar.max (Scalar.max (Dense.norm p) (Dense.norm q)) Scalar.minNormal
  let first := Dense.trim (Dense.makeMonic p) Scalar.zero
  let second :=
    Dense.trim (Dense.makeMonic (Dense.trim q (Scalar.gcdTolerance * scale))) Scalar.zero
  return Dense.makeMonic (← gcdLoop first second)

/-- The quotient alone. -/
def quotient (p q : Dense α) : Checked (Dense α) := Prod.fst <$> divRem p q

/-- **The checked loop of the greatest common divisor succeeds.** -/
theorem gcdLoop_eq (p q : Dense α) : gcdLoop p q = .ok (Dense.gcdLoop p q) := by
  fun_induction Dense.gcdLoop p q with
  | case1 p => rw [gcdLoop]
  | case2 p b q ih =>
      rw [gcdLoop]
      split
      · next stop hrest =>
        rw [remainder_eq p (List.cons_ne_nil b q)] at hrest
        cases hrest
      · next rest hrest =>
        rw [remainder_eq p (List.cons_ne_nil b q)] at hrest
        exact Except.ok.inj hrest ▸ ih

/-- **Euclid's loop never divides by an empty polynomial**, whatever its
arguments are. -/
theorem gcd_eq (p q : Dense α) : gcd p q = .ok (Dense.gcd p q) := by
  simp only [gcd, gcdLoop_eq, ok_bind]
  rfl

/-- **The checked quotient succeeds**, for every divisor that has
coefficients. -/
theorem quotient_eq (p : Dense α) {q : Dense α} (hq : q ≠ []) :
    quotient p q = .ok (Dense.quotient p q) := by
  rw [quotient, divRem_eq p hq]
  rfl

end Checked

end Univariate
