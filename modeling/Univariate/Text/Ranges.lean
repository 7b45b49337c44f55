/-!
# Character classes as ranges

A class of characters is a list of ranges of code points in ascending
order.  `Ranges.covers` looks a code point up and stops at the first
range above it, so the answer is exact for lists that ascend
(`Ranges.covers_iff`).
-/

namespace Univariate

namespace Ranges

/-- The code point lies in one of the ranges, both ends included. -/
def covers : List (Nat × Nat) → Nat → Bool
  | [], _ => false
  | (low, high) :: rest, n =>
    if n < low then false else n ≤ high || covers rest n

/-- Every range is nonempty and lies above the one before it. -/
def Ascending : List (Nat × Nat) → Prop
  | [] => True
  | [(low, high)] => low ≤ high
  | (low, high) :: (low', high') :: rest =>
    low ≤ high ∧ high < low' ∧ Ascending ((low', high') :: rest)

instance decidableAscending : (ranges : List (Nat × Nat)) → Decidable (Ascending ranges)
  | [] => .isTrue trivial
  | [(low, high)] => inferInstanceAs (Decidable (low ≤ high))
  | (low, high) :: (low', high') :: rest =>
    have := decidableAscending ((low', high') :: rest)
    inferInstanceAs (Decidable (low ≤ high ∧ high < low' ∧ Ascending ((low', high') :: rest)))

/-- The code point lies in one of the ranges, wherever that is. -/
def Contains (ranges : List (Nat × Nat)) (n : Nat) : Prop := ∃ r ∈ ranges, r.1 ≤ n ∧ n ≤ r.2

/-- The first range of an ascending list is nonempty. -/
theorem Ascending.head {first : Nat × Nat} {rest : List (Nat × Nat)}
    (h : Ascending (first :: rest)) : first.1 ≤ first.2 := by
  cases rest with
  | nil => exact h
  | cons next rest => exact h.1

/-- What is left of an ascending list without its first range ascends. -/
theorem Ascending.tail {first : Nat × Nat} {rest : List (Nat × Nat)}
    (h : Ascending (first :: rest)) : Ascending rest := by
  cases rest with
  | nil => trivial
  | cons next rest => exact h.2.2

/-- All later ranges lie above the first one. -/
theorem Ascending.lt_of_mem {first r : Nat × Nat} {rest : List (Nat × Nat)}
    (h : Ascending (first :: rest)) (hr : r ∈ rest) : first.2 < r.1 := by
  induction rest generalizing first with
  | nil => cases hr
  | cons next rest ih =>
      have hnext : first.2 < next.1 := h.2.1
      rcases List.mem_cons.mp hr with rfl | hr
      · exact hnext
      · have hnonempty : next.1 ≤ next.2 := h.tail.head
        have hlater : next.2 < r.1 := ih h.tail hr
        omega

/-- **Looking a code point up is exact** in a list that ascends. -/
theorem covers_iff {ranges : List (Nat × Nat)} (h : Ascending ranges) (n : Nat) :
    covers ranges n = true ↔ Contains ranges n := by
  induction ranges with
  | nil => exact ⟨nofun, fun ⟨_, hr, _⟩ => nomatch hr⟩
  | cons first rest ih =>
      rw [covers]
      split
      next hlow =>
        -- The search stops here: all that follows is higher still.
        refine ⟨nofun, fun ⟨r, hr, hrange⟩ => ?_⟩
        rcases List.mem_cons.mp hr with rfl | hr
        · omega
        · have hnonempty : first.1 ≤ first.2 := h.head
          have hlater : first.2 < r.1 := h.lt_of_mem hr
          omega
      next hlow =>
        rw [Bool.or_eq_true, decide_eq_true_eq, ih h.tail]
        constructor
        · rintro (hhigh | ⟨r, hr, hrange⟩)
          · exact ⟨first, List.mem_cons_self, Nat.not_lt.mp hlow, hhigh⟩
          · exact ⟨r, List.mem_cons_of_mem _ hr, hrange⟩
        · rintro ⟨r, hr, hrange⟩
          rcases List.mem_cons.mp hr with rfl | hr
          · exact Or.inl hrange.2
          · exact Or.inr ⟨r, hr, hrange⟩

/-- A list may be cut at a bound that no range straddles, and each part
looked at by itself. -/
theorem covers_append {low high : List (Nat × Nat)} (bound : Nat)
    (hlow : ∀ r ∈ low, r.1 ≤ r.2 ∧ r.2 < bound) (hhigh : ∀ r ∈ high, bound ≤ r.1) (n : Nat) :
    covers (low ++ high) n = if n < bound then covers low n else covers high n := by
  induction low with
  | nil =>
      split
      next hn =>
        cases high with
        | nil => rfl
        | cons first rest =>
            have hfirst : bound ≤ first.1 := hhigh first List.mem_cons_self
            have hbelow : n < first.1 := by omega
            rw [List.nil_append]
            simp only [covers, if_pos hbelow]
      next => rfl
  | cons first low ih =>
      obtain ⟨hnonempty, hbound⟩ := hlow first List.mem_cons_self
      rw [List.cons_append, covers, ih fun r hr => hlow r (List.mem_cons_of_mem _ hr), covers]
      split
      next hbelow =>
        have hn : n < bound := by omega
        rw [if_pos hn]
      next hbelow =>
        split
        next => rfl
        next hn =>
          have habove : decide (n ≤ first.2) = false := decide_eq_false (by omega)
          rw [habove, Bool.false_or]

end Ranges

end Univariate
