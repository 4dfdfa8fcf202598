import Mathlib

/-!
# Deviations from the mean of a list

    Σ (x - m)² = n (E[X²] - E[X]²)                              (sum_sq_sub_mean)
    #{x | k < |x - m|} · k² ≤ Σ (x - m)²                        (countP_mul_sq_le)
    some x has (x - m)² ≤ E[X²] - E[X]²                         (exists_sq_sub_mean_le)

The second is Chebyshev's bound, with counts for probabilities.
-/

namespace Lyli

variable {K : Type} [Field K] [LinearOrder K] [IsStrictOrderedRing K]

/-- `E[X²] - E[X]²`. -/
def variance (l : List K) : K :=
  (l.map fun x => x * x).sum / l.length - l.sum / l.length * (l.sum / l.length)

variable {l : List K}

theorem length_cast_pos (hl : l ≠ []) : (0 : K) < l.length :=
  Nat.cast_pos.mpr (List.length_pos_iff.mpr hl)

/-- The squared distances from any point: expand the square and collect. -/
theorem sum_sq_sub (l : List K) (m : K) :
    (l.map fun x => (x - m) ^ 2).sum = (l.map fun x => x * x).sum - 2 * m * l.sum + l.length * (m * m) := by
  induction l with
  | nil => simp
  | cons x l ih =>
    simp only [List.map_cons, List.sum_cons, List.length_cons]
    rw [ih]
    push_cast
    ring

/-- **The two forms of the variance.** -/
theorem sum_sq_sub_mean (hl : l ≠ []) :
    (l.map fun x => (x - l.sum / l.length) ^ 2).sum = l.length * variance l := by
  have hn : (l.length : K) ≠ 0 := (length_cast_pos hl).ne'
  rw [sum_sq_sub]
  unfold variance
  field_simp
  ring

theorem variance_nonneg (hl : l ≠ []) : 0 ≤ variance l := by
  have hsum : 0 ≤ (l.map fun x => (x - l.sum / l.length) ^ 2).sum := by
    apply List.sum_nonneg
    intro y hy
    obtain ⟨x, _, rfl⟩ := List.mem_map.mp hy
    exact sq_nonneg _
  rw [sum_sq_sub_mean hl] at hsum
  exact nonneg_of_mul_nonneg_right hsum (length_cast_pos hl)

/-- **Few values are far**: each value farther than `k` from `m` adds more than `k²`. -/
theorem countP_mul_sq_le (l : List K) (m : K) {k : K} (hk : 0 ≤ k) :
    (l.countP fun x => k < |x - m|) * k ^ 2 ≤ (l.map fun x => (x - m) ^ 2).sum := by
  induction l with
  | nil => simp
  | cons x l ih =>
    rw [List.map_cons, List.sum_cons, List.countP_cons]
    by_cases hx : k < |x - m|
    · rw [if_pos (decide_eq_true hx)]
      have hsq : k ^ 2 ≤ (x - m) ^ 2 := by
        rw [← sq_abs (x - m)]
        exact pow_le_pow_left₀ hk hx.le 2
      push_cast
      linarith
    · rw [if_neg (by simpa using hx), Nat.add_zero]
      have hsq : 0 ≤ (x - m) ^ 2 := sq_nonneg _
      linarith

/-- Not every value is farther from the mean than the root of the variance. -/
theorem exists_sq_sub_mean_le (hl : l ≠ []) : ∃ x ∈ l, (x - l.sum / l.length) ^ 2 ≤ variance l := by
  apply List.exists_le_of_sum_le hl
  rw [sum_sq_sub_mean hl, List.map_const', List.sum_replicate, nsmul_eq_mul]

end Lyli
