import Mathlib

/-!
# Weighted means over lists

The weighted mean of values between two bounds lies between them
(`weightedMean_mem_Icc`), whatever the weights, as long as these are not
negative and not all zero.  A value of weight 0 may be anything.
-/

namespace Lyli

variable {ι K : Type} [Field K] [LinearOrder K] [IsStrictOrderedRing K]

/-- `∑ v i * w i / ∑ w i` over a list. -/
def weightedMean (l : List ι) (v w : ι → K) : K := (l.map fun i => v i * w i).sum / (l.map w).sum

variable {l : List ι} {v w : ι → K} {lo hi : K}

theorem sum_weights_nonneg (hw : ∀ i ∈ l, 0 ≤ w i) : 0 ≤ (l.map w).sum := by
  apply List.sum_nonneg
  simpa using hw

theorem mul_sum_le_moment (hw : ∀ i ∈ l, 0 ≤ w i) (hlo : ∀ i ∈ l, 0 < w i → lo ≤ v i) :
    lo * (l.map w).sum ≤ (l.map fun i => v i * w i).sum := by
  rw [← List.sum_map_mul_left]
  apply List.sum_le_sum
  intro i hi
  rcases (hw i hi).eq_or_lt with h0 | hpos
  · rw [← h0, mul_zero, mul_zero]
  · exact mul_le_mul_of_nonneg_right (hlo i hi hpos) hpos.le

theorem moment_le_mul_sum (hw : ∀ i ∈ l, 0 ≤ w i) (hhi : ∀ i ∈ l, 0 < w i → v i ≤ hi) :
    (l.map fun i => v i * w i).sum ≤ hi * (l.map w).sum := by
  rw [← List.sum_map_mul_left]
  apply List.sum_le_sum
  intro i hi
  rcases (hw i hi).eq_or_lt with h0 | hpos
  · rw [← h0, mul_zero, mul_zero]
  · exact mul_le_mul_of_nonneg_right (hhi i hi hpos) hpos.le

/-- **A weighted mean lies between the bounds of its values** of positive weight. -/
theorem weightedMean_mem_Icc (hw : ∀ i ∈ l, 0 ≤ w i) (hsum : (l.map w).sum ≠ 0)
    (hlo : ∀ i ∈ l, 0 < w i → lo ≤ v i) (hhi : ∀ i ∈ l, 0 < w i → v i ≤ hi) :
    weightedMean l v w ∈ Set.Icc lo hi := by
  have hpos : 0 < (l.map w).sum := lt_of_le_of_ne (sum_weights_nonneg hw) hsum.symm
  constructor
  · show lo ≤ _ / _
    rw [le_div_iff₀ hpos]
    exact mul_sum_le_moment hw hlo
  · show _ / _ ≤ hi
    rw [div_le_iff₀ hpos]
    exact moment_le_mul_sum hw hhi

end Lyli
