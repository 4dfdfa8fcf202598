import Mathlib
import Lyli.Base.Deviation
import Lyli.Base.WeightedMean

/-!
# `calibration/mathutil.h`

Averages over exact reals; `none` is `0 / 0`.

    c ≠ [] → (∀ v ∈ c, v = a) → filteredAverage c s = some a          (filteredAverage_const)
    c.Perm c' → filteredAverage c s = filteredAverage c' s            (filteredAverage_perm)
    1 ≤ s → at most n/s² values go, one stays, min ≤ result ≤ max     (filteredAverage_robust)

The second is what the concurrent vector of the angles relies on.
-/

namespace Lyli.Calibration

open scoped List

/-- The values that the second loop of `filteredAverage` adds and counts. -/
noncomputable def kept (container : List ℝ) (sigmaLimit : ℝ) : List ℝ :=
  let size : ℝ := container.length
  let EX := container.sum / size
  let EX2 := (container.map fun val => val * val).sum / size
  let sigma := √(EX2 - EX * EX)
  let limit := sigmaLimit * sigma
  container.filter fun val => |val - EX| ≤ limit

/-- Average of the values that are at most `sigmaLimit` standard deviations from the mean. -/
noncomputable def filteredAverage (container : List ℝ) (sigmaLimit : ℝ) : Option ℝ :=
  let sum := (kept container sigmaLimit).sum
  let count := (kept container sigmaLimit).length
  if count = 0 then none else some (sum / count)

theorem filteredAverage_eq (container : List ℝ) (sigmaLimit : ℝ) :
    filteredAverage container sigmaLimit =
      if (kept container sigmaLimit).length = 0 then none
      else some ((kept container sigmaLimit).sum / (kept container sigmaLimit).length) := rfl

theorem kept_eq (container : List ℝ) (sigmaLimit : ℝ) : kept container sigmaLimit =
    container.filter fun val => |val - container.sum / container.length| ≤ sigmaLimit * √(variance container) := rfl

/-- Signum function. -/
noncomputable def sgn (val : ℝ) : ℝ := (if 0 < val then 1 else 0) - if val < 0 then 1 else 0

theorem sgn_mul_abs (val : ℝ) : sgn val * |val| = val := by
  unfold sgn
  rcases lt_trichotomy val 0 with h | h | h
  · rw [if_neg h.not_gt, if_pos h, abs_of_neg h]
    ring
  · rw [h, abs_zero, mul_zero]
  · rw [if_pos h, if_neg h.not_gt, abs_of_pos h]
    ring

theorem kept_perm {c c' : List ℝ} (h : c ~ c') (sigmaLimit : ℝ) : kept c sigmaLimit ~ kept c' sigmaLimit := by
  unfold kept
  simp only [h.sum_eq, h.length_eq, (h.map _).sum_eq]
  exact h.filter _

theorem filteredAverage_perm {c c' : List ℝ} (h : c ~ c') (sigmaLimit : ℝ) :
    filteredAverage c sigmaLimit = filteredAverage c' sigmaLimit := by
  have hkept := kept_perm h sigmaLimit
  rw [filteredAverage_eq, filteredAverage_eq, hkept.sum_eq, hkept.length_eq]

/-- **Equal values** are their own filtered average. -/
theorem filteredAverage_const {c : List ℝ} (hne : c ≠ []) {a : ℝ} (h : ∀ v ∈ c, v = a) (sigmaLimit : ℝ) :
    filteredAverage c sigmaLimit = some a := by
  obtain ⟨n, hc, hn⟩ : ∃ n : ℕ, c = List.replicate n a ∧ n ≠ 0 :=
    ⟨c.length, List.eq_replicate_iff.mpr ⟨rfl, h⟩, by simpa using hne⟩
  have hn' : (n : ℝ) ≠ 0 := Nat.cast_ne_zero.mpr hn
  have hmean : c.sum / (c.length : ℝ) = a := by
    rw [hc, List.sum_replicate, List.length_replicate, nsmul_eq_mul]
    field_simp
  have hsq : (c.map fun val => val * val).sum / (c.length : ℝ) = a * a := by
    rw [hc, List.map_replicate, List.sum_replicate, List.length_replicate, nsmul_eq_mul]
    field_simp
  have hkept : kept c sigmaLimit = c := by
    unfold kept
    simp only [hmean, hsq]
    apply List.filter_eq_self.mpr
    intro v hv
    rw [h v hv, sub_self, sub_self, Real.sqrt_zero, mul_zero, abs_zero]
    exact decide_eq_true le_rfl
  rw [filteredAverage_eq, hkept, hmean, if_neg (by rw [hc, List.length_replicate]; exact hn)]

/-! ## How much is filtered out -/

variable {c : List ℝ} {s : ℝ}

theorem length_kept_add (c : List ℝ) (s : ℝ) :
    (kept c s).length + (c.countP fun v => s * √(variance c) < |v - c.sum / c.length|) = c.length := by
  rw [kept_eq, ← List.countP_eq_length_filter]
  have h := List.length_eq_countP_add_countP (fun v => decide (|v - c.sum / c.length| ≤ s * √(variance c))) (l := c)
  simp only [decide_eq_true_eq, not_le] at h
  exact h.symm

/-- Without deviation no value is filtered out: the comparison is not strict. -/
theorem kept_of_variance_eq_zero (hne : c ≠ []) (h : variance c = 0) (s : ℝ) : kept c s = c := by
  have hsum := sum_sq_sub_mean hne
  rw [h, mul_zero] at hsum
  rw [kept_eq]
  apply List.filter_eq_self.mpr
  intro v hv
  have hle : (v - c.sum / c.length) ^ 2 ≤ 0 := by
    rw [← hsum]
    apply List.single_le_sum
    · simp [sq_nonneg]
    · exact List.mem_map_of_mem hv
  have hsq : v - c.sum / c.length = 0 := pow_eq_zero_iff two_ne_zero |>.mp (le_antisymm hle (sq_nonneg _))
  rw [h, Real.sqrt_zero, mul_zero, hsq, abs_zero]
  exact decide_eq_true le_rfl

/-- Chebyshev: at most `n / s²` values are filtered out. -/
theorem filtered_le (hne : c ≠ []) (hs : 0 < s) :
    ((c.length - (kept c s).length : ℕ) : ℝ) ≤ c.length / s ^ 2 := by
  by_cases hv : variance c = 0
  · rw [kept_of_variance_eq_zero hne hv, Nat.sub_self, Nat.cast_zero]
    positivity
  · have hpos : 0 < variance c := lt_of_le_of_ne (variance_nonneg hne) (Ne.symm hv)
    have hcheb := countP_mul_sq_le c (c.sum / c.length) (mul_nonneg hs.le (Real.sqrt_nonneg (variance c)))
    rw [sum_sq_sub_mean hne, mul_pow, Real.sq_sqrt hpos.le, ← mul_assoc] at hcheb
    have hcount : c.length - (kept c s).length = c.countP fun v => s * √(variance c) < |v - c.sum / c.length| := by
      have := length_kept_add c s
      omega
    rw [hcount, le_div_iff₀ (by positivity)]
    exact le_of_mul_le_mul_right hcheb hpos

/-- Some value is within one deviation of the mean, and stays. -/
theorem kept_ne_nil (hne : c ≠ []) (hs : 1 ≤ s) : kept c s ≠ [] := by
  obtain ⟨v, hv, hsq⟩ := exists_sq_sub_mean_le hne
  have hdev : |v - c.sum / c.length| ≤ √(variance c) := Real.abs_le_sqrt hsq
  have hlim : √(variance c) ≤ s * √(variance c) := le_mul_of_one_le_left (Real.sqrt_nonneg _) hs
  apply List.ne_nil_of_mem
  show v ∈ kept c s
  exact List.mem_filter.mpr ⟨hv, decide_eq_true (hdev.trans hlim)⟩

/-- The average of what is kept is between any bounds of the values. -/
theorem filteredAverage_mem_Icc {lo hi r : ℝ} (hlo : ∀ v ∈ c, lo ≤ v) (hhi : ∀ v ∈ c, v ≤ hi)
    (h : filteredAverage c s = some r) : r ∈ Set.Icc lo hi := by
  have hmem : ∀ v ∈ kept c s, v ∈ c := fun v hv => (List.mem_filter.mp hv).1
  rw [filteredAverage_eq] at h
  by_cases h0 : (kept c s).length = 0
  · rw [if_pos h0] at h
    cases h
  · rw [if_neg h0, Option.some.injEq] at h
    have hne : ((kept c s).length : ℝ) ≠ 0 := Nat.cast_ne_zero.mpr h0
    have hmean : weightedMean (kept c s) id (fun _ => (1 : ℝ)) ∈ Set.Icc lo hi := by
      apply weightedMean_mem_Icc
      · simp
      · simpa using hne
      · exact fun v hv _ => hlo v (hmem v hv)
      · exact fun v hv _ => hhi v (hmem v hv)
    rw [← h]
    simpa [weightedMean] using hmean

/-- **Filtering is robust**: what is under the root is not negative, at most `n / s²` values are filtered out,
one is kept, and the average of what is kept is between the least and the greatest value. -/
theorem filteredAverage_robust (hne : c ≠ []) (hs : 1 ≤ s) :
    0 ≤ variance c ∧ ((c.length - (kept c s).length : ℕ) : ℝ) ≤ c.length / s ^ 2 ∧
      1 ≤ (kept c s).length ∧ filteredAverage c s = some ((kept c s).sum / (kept c s).length) ∧
      ∃ r : ℝ, filteredAverage c s = some r ∧ c.minimum ≤ (r : WithTop ℝ) ∧ (r : WithBot ℝ) ≤ c.maximum := by
  have hlen : 1 ≤ (kept c s).length := List.length_pos_iff.mpr (kept_ne_nil hne hs)
  have hcpos : 0 < c.length := List.length_pos_iff.mpr hne
  have hsome : filteredAverage c s = some ((kept c s).sum / (kept c s).length) := by
    rw [filteredAverage_eq, if_neg (by omega)]
  have hmem := filteredAverage_mem_Icc (fun _ hv => List.minimum_of_length_pos_le_of_mem hv hcpos)
    (fun _ hv => List.le_maximum_of_length_pos_of_mem hv hcpos) hsome
  refine ⟨variance_nonneg hne, filtered_le hne (by linarith), hlen, hsome, _, hsome, ?_, ?_⟩
  · rw [← List.coe_minimum_of_length_pos hcpos, WithTop.coe_le_coe]
    exact hmem.1
  · rw [← List.coe_maximum_of_length_pos hcpos, WithBot.coe_le_coe]
    exact hmem.2

theorem filteredAverage_robust_pair :
    0 ≤ variance [(1 : ℝ), 3] ∧ ((2 - (kept [1, 3] 2).length : ℕ) : ℝ) ≤ 2 / 2 ^ 2 ∧ 1 ≤ (kept [1, 3] 2).length ∧
      filteredAverage [1, 3] 2 = some ((kept [1, 3] 2).sum / (kept [1, 3] 2).length) ∧
      ∃ r : ℝ, filteredAverage [1, 3] 2 = some r ∧
        [(1 : ℝ), 3].minimum ≤ (r : WithTop ℝ) ∧ (r : WithBot ℝ) ≤ [(1 : ℝ), 3].maximum := by
  have h := filteredAverage_robust (c := [1, 3]) (s := 2) (by simp) (by norm_num)
  simpa using h

end Lyli.Calibration
