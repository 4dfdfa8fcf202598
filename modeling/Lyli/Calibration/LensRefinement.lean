import Mathlib
import Lyli.Base.FoldM
import Lyli.Calibration.LensDetector

/-!
# Interpolation and refinement of centroids

`getInterpolatedColor` weighs the four pixels around a position, but gives the
right neighbour the weight of the lower one and the other way round:

    getInterpolatedColor past image p = bilinear image p ↔ dx = dy ∨ the two neighbours are equal
                                                             (getInterpolatedColor_bilinear_iff)

That is in exact arithmetic.  However the operations are rounded, no color is
negative, and a round of `refineCentroid` has a positive sum where its disc is
not dark:

    0 < getInterpolatedColor past image p  ↔  LitAt past image p        (color_pos_iff)
    0 < (roundMoments past image e radius).2.2  ↔  Lit past image e radius     (sum_pos_iff)
-/

namespace Lyli.Calibration.LensDetector

open Rounding

/-! ## Interpolation -/

/-- The position has a pixel on each side. -/
structure Inside (image : Image8) (p : Point2f) : Prop where
  x_nonneg : 0 ≤ p.x
  x_lt : p.x < (image.cols : ℚ) - 1
  y_nonneg : 0 ≤ p.y
  y_lt : p.y < (image.rows : ℚ) - 1

theorem Inside.floor_lt {image : Image8} {p : Point2f} (h : Inside image p) :
    ⌊p.x⌋₊ + 1 < image.cols ∧ ⌊p.y⌋₊ + 1 < image.rows := by
  constructor
  · have : ((⌊p.x⌋₊ + 1 : ℕ) : ℚ) < image.cols := by
      push_cast
      linarith [Nat.floor_le h.x_nonneg, h.x_lt]
    exact_mod_cast this
  · have : ((⌊p.y⌋₊ + 1 : ℕ) : ℚ) < image.rows := by
      push_cast
      linarith [Nat.floor_le h.y_nonneg, h.y_lt]
    exact_mod_cast this

/-- The grey value of a pixel as a number. -/
def grey (image : Image8) (x y : ℕ) : ℚ := (image.value x y).toNat

/-- Distance from the pixel to the left of a position. -/
def dx (p : Point2f) : ℚ := p.x - ⌊p.x⌋₊

/-- Distance from the pixel above a position. -/
def dy (p : Point2f) : ℚ := p.y - ⌊p.y⌋₊

/-- Bilinear interpolation. -/
def bilinear (image : Image8) (p : Point2f) : ℚ :=
  (1 - dx p) * (1 - dy p) * grey image ⌊p.x⌋₊ ⌊p.y⌋₊ + dx p * (1 - dy p) * grey image (⌊p.x⌋₊ + 1) ⌊p.y⌋₊ +
    (1 - dx p) * dy p * grey image ⌊p.x⌋₊ (⌊p.y⌋₊ + 1) + dx p * dy p * grey image (⌊p.x⌋₊ + 1) (⌊p.y⌋₊ + 1)

section Exact

attribute [local instance] Rounding.exact

variable {past : ℕ → ℕ → UInt8} {image : Image8} {p : Point2f}

/-- What the code computes: the weights of the right and the lower neighbour are exchanged. -/
theorem getInterpolatedColor_inside (h : Inside image p) :
    getInterpolatedColor past image p = grey image ⌊p.x⌋₊ ⌊p.y⌋₊ * (1 - dy p) * (1 - dx p) +
      grey image ⌊p.x⌋₊ (⌊p.y⌋₊ + 1) * dx p * (1 - dy p) + grey image (⌊p.x⌋₊ + 1) ⌊p.y⌋₊ * (1 - dx p) * dy p +
      grey image (⌊p.x⌋₊ + 1) (⌊p.y⌋₊ + 1) * dx p * dy p := by
  obtain ⟨hx, hy⟩ := h.floor_lt
  have hload : ∀ x ≤ ⌊p.x⌋₊ + 1, ∀ y ≤ ⌊p.y⌋₊ + 1, image.loadOr past x y = image.value x y := by
    intro x hx' y hy'
    unfold Image8.loadOr Image8.load
    rw [if_pos ⟨by omega, by omega⟩]
    rfl
  have hin : ¬ (p.x < 0 ∨ p.x > float ((image.cols : ℚ) - 1) ∨ p.y < 0 ∨ p.y > float ((image.rows : ℚ) - 1)) := by
    simp only [not_or, not_lt]
    exact ⟨h.x_nonneg, h.x_lt.le, h.y_nonneg, h.y_lt.le⟩
  unfold getInterpolatedColor
  rw [if_neg hin]
  simp only [hload _ (Nat.le_succ _) _ (Nat.le_succ _), hload _ le_rfl _ (Nat.le_succ _),
    hload _ (Nat.le_succ _) _ le_rfl, hload _ le_rfl _ le_rfl]
  rfl

/-- The error of the interpolation. -/
theorem getInterpolatedColor_eq (h : Inside image p) :
    getInterpolatedColor past image p = bilinear image p +
      (grey image ⌊p.x⌋₊ (⌊p.y⌋₊ + 1) - grey image (⌊p.x⌋₊ + 1) ⌊p.y⌋₊) * (dx p - dy p) := by
  rw [getInterpolatedColor_inside h]
  unfold bilinear
  ring

/-- On an affine image bilinear interpolation is exact. -/
theorem bilinear_affine (h : Inside image p) {a b c : ℚ}
    (haff : ∀ x < image.cols, ∀ y < image.rows, grey image x y = a + b * x + c * y) :
    bilinear image p = a + b * p.x + c * p.y ∧
      grey image ⌊p.x⌋₊ (⌊p.y⌋₊ + 1) - grey image (⌊p.x⌋₊ + 1) ⌊p.y⌋₊ = c - b := by
  obtain ⟨hx, hy⟩ := h.floor_lt
  have hvalue : ∀ x ≤ ⌊p.x⌋₊ + 1, ∀ y ≤ ⌊p.y⌋₊ + 1, grey image x y = a + b * x + c * y := fun x hx' y hy' =>
    haff x (by omega) y (by omega)
  constructor
  · unfold bilinear
    rw [hvalue _ (Nat.le_succ _) _ (Nat.le_succ _), hvalue _ le_rfl _ (Nat.le_succ _),
      hvalue _ (Nat.le_succ _) _ le_rfl, hvalue _ le_rfl _ le_rfl]
    unfold dx dy
    push_cast
    ring
  · rw [hvalue _ (Nat.le_succ _) _ le_rfl, hvalue _ le_rfl _ (Nat.le_succ _)]
    push_cast
    ring

/-- **The interpolated color** is bilinear interpolation exactly where the exchange makes no difference. -/
theorem getInterpolatedColor_bilinear_iff (past : ℕ → ℕ → UInt8) (image : Image8) (p : Point2f) (h : Inside image p) :
    (getInterpolatedColor past image p = bilinear image p ↔
      dx p = dy p ∨ grey image (⌊p.x⌋₊ + 1) ⌊p.y⌋₊ = grey image ⌊p.x⌋₊ (⌊p.y⌋₊ + 1)) ∧
    ∀ a b c : ℚ, (∀ x < image.cols, ∀ y < image.rows, grey image x y = a + b * x + c * y) →
      (getInterpolatedColor past image p = a + b * p.x + c * p.y ↔ dx p = dy p ∨ b = c) := by
  have herror : ∀ r d : ℚ, (r + d * (dx p - dy p) = r ↔ dx p = dy p ∨ d = 0) := by
    intro r d
    rw [add_eq_left, mul_eq_zero, sub_eq_zero, or_comm]
  constructor
  · rw [getInterpolatedColor_eq h, herror, sub_eq_zero, eq_comm (a := grey image ⌊p.x⌋₊ _)]
  · intro a b c haff
    obtain ⟨hval, hdiff⟩ := bilinear_affine h haff
    rw [getInterpolatedColor_eq h, hval, hdiff, herror, sub_eq_zero, eq_comm (a := c)]

/-- The column index as grey value. -/
def rampImage : Image8 where
  rows := 2
  cols := 2
  value x _ := UInt8.ofNat x

theorem rampImage_inside : Inside rampImage ⟨1 / 2, 0⟩ := by
  constructor <;> norm_num [rampImage]

theorem rampImage_affine : ∀ x < rampImage.cols, ∀ y < rampImage.rows, grey rampImage x y = 0 + 1 * x + 0 * y := by
  intro x hx y _
  change x < 2 at hx
  interval_cases x <;> simp [grey, rampImage]

/-- There is nothing but zeros past the image. -/
def zeros : ℕ → ℕ → UInt8 := fun _ _ => 0

theorem getInterpolatedColor_bilinear_iff_ramp :
    (getInterpolatedColor zeros rampImage ⟨1 / 2, 0⟩ = bilinear rampImage ⟨1 / 2, 0⟩ ↔
      dx ⟨1 / 2, 0⟩ = dy ⟨1 / 2, 0⟩ ∨ grey rampImage (⌊(1 / 2 : ℚ)⌋₊ + 1) ⌊(0 : ℚ)⌋₊ =
        grey rampImage ⌊(1 / 2 : ℚ)⌋₊ (⌊(0 : ℚ)⌋₊ + 1)) ∧
    (getInterpolatedColor zeros rampImage ⟨1 / 2, 0⟩ = 0 + 1 * (1 / 2) + 0 * 0 ↔
      dx ⟨1 / 2, 0⟩ = dy ⟨1 / 2, 0⟩ ∨ (1 : ℚ) = 0) :=
  ⟨(getInterpolatedColor_bilinear_iff zeros rampImage ⟨1 / 2, 0⟩ rampImage_inside).1,
    (getInterpolatedColor_bilinear_iff zeros rampImage ⟨1 / 2, 0⟩ rampImage_inside).2 0 1 0 rampImage_affine⟩

/-- Halfway between a pixel of value 0 and one of value 1 the color is 0, the value of the pixel below. -/
theorem rampImage_not_bilinear :
    ¬ ∀ p, Inside rampImage p → getInterpolatedColor zeros rampImage p = bilinear rampImage p := by
  intro h
  have hcolor : getInterpolatedColor zeros rampImage ⟨1 / 2, 0⟩ = 0 := by decide +kernel
  have hbilinear : bilinear rampImage ⟨1 / 2, 0⟩ = 1 / 2 := by decide +kernel
  have := h ⟨1 / 2, 0⟩ rampImage_inside
  rw [hcolor, hbilinear] at this
  norm_num at this

end Exact

/-! ## Colors -/

/-- The position passes the guard of `getInterpolatedColor`. -/
structure Guarded [Rounding] (image : Image8) (p : Point2f) : Prop where
  x_nonneg : 0 ≤ p.x
  x_le : p.x ≤ float (image.cols - 1)
  y_nonneg : 0 ≤ p.y
  y_le : p.y ≤ float (image.rows - 1)

/-- What the four pixels around a position add to its color. -/
def addends [Rounding] (past : ℕ → ℕ → UInt8) (image : Image8) (p : Point2f) : List ℚ :=
  let x0dif := float (p.x - ⌊p.x⌋₊)
  let x1dif := float (double (1 - x0dif))
  let y0dif := float (p.y - ⌊p.y⌋₊)
  let y1dif := float (double (1 - y0dif))
  [weighted (image.loadOr past ⌊p.x⌋₊ ⌊p.y⌋₊) y1dif x1dif, weighted (image.loadOr past ⌊p.x⌋₊ (⌊p.y⌋₊ + 1)) x0dif y1dif,
    weighted (image.loadOr past (⌊p.x⌋₊ + 1) ⌊p.y⌋₊) x1dif y0dif,
    weighted (image.loadOr past (⌊p.x⌋₊ + 1) (⌊p.y⌋₊ + 1)) x0dif y0dif]

/-- One of the four pixels around a position is not black. -/
def BrightAround (past : ℕ → ℕ → UInt8) (image : Image8) (p : Point2f) : Prop :=
  image.loadOr past ⌊p.x⌋₊ ⌊p.y⌋₊ ≠ 0 ∨ image.loadOr past ⌊p.x⌋₊ (⌊p.y⌋₊ + 1) ≠ 0 ∨
    image.loadOr past (⌊p.x⌋₊ + 1) ⌊p.y⌋₊ ≠ 0 ∨ image.loadOr past (⌊p.x⌋₊ + 1) (⌊p.y⌋₊ + 1) ≠ 0

instance (past : ℕ → ℕ → UInt8) (image : Image8) (p : Point2f) : Decidable (BrightAround past image p) :=
  inferInstanceAs (Decidable (_ ∨ _))

/-- A position in the image, with a pixel that is not black among those that the interpolation gives a weight. -/
def LitAt [Rounding] (past : ℕ → ℕ → UInt8) (image : Image8) (p : Point2f) : Prop :=
  Guarded image p ∧ ∃ v ∈ addends past image p, 0 < v

/-- The disc is not dark. -/
def Lit [Rounding] (past : ℕ → ℕ → UInt8) (image : Image8) (estimate : Point2f) (radius : ℕ) : Prop :=
  ∃ o ∈ computeMask radius, LitAt past image (around estimate o)

section Colors

variable {R : Rounding} {past : ℕ → ℕ → UInt8} {image : Image8} {p : Point2f}

theorem guarded_iff : Guarded image p ↔
    ¬ (p.x < 0 ∨ p.x > float ((image.cols : ℚ) - 1) ∨ p.y < 0 ∨ p.y > float ((image.rows : ℚ) - 1)) := by
  simp only [not_or, not_lt]
  exact ⟨fun h => ⟨h.x_nonneg, h.x_le, h.y_nonneg, h.y_le⟩, fun h => ⟨h.1, h.2.1, h.2.2.1, h.2.2.2⟩⟩

theorem color_of_not_guarded (h : ¬ Guarded image p) : getInterpolatedColor past image p = 0 := by
  rw [guarded_iff, not_not] at h
  exact if_pos h

theorem color_of_guarded (past : ℕ → ℕ → UInt8) (h : Guarded image p) :
    ∃ a b c d, addends past image p = [a, b, c, d] ∧
      getInterpolatedColor past image p = float (float (float (a + b) + c) + d) :=
  ⟨_, _, _, _, rfl, if_neg (guarded_iff.mp h)⟩

/-- The distances from a position to the pixels around it are between 0 and 1. -/
theorem dif_nonneg {x : ℚ} (h : 0 ≤ x) : 0 ≤ float (x - ⌊x⌋₊) ∧ 0 ≤ float (double (1 - float (x - ⌊x⌋₊))) := by
  have hle : float (x - ⌊x⌋₊) ≤ 1 := by
    rw [← float_one]
    exact float_mono (by linarith [Nat.lt_floor_add_one x])
  exact ⟨float_nonneg (sub_nonneg.mpr (Nat.floor_le h)), float_nonneg (double_nonneg (sub_nonneg.mpr hle))⟩

theorem weighted_nonneg (v : UInt8) {a b : ℚ} (ha : 0 ≤ a) (hb : 0 ≤ b) : 0 ≤ weighted v a b :=
  float_nonneg (mul_nonneg (float_nonneg (mul_nonneg (Nat.cast_nonneg _) ha)) hb)

/-- What a pixel adds is a `float`, and not negative. -/
theorem addends_nonneg (past : ℕ → ℕ → UInt8) (h : Guarded image p) : ∀ v ∈ addends past image p, 0 ≤ v ∧ float v = v := by
  obtain ⟨hx0, hx1⟩ := dif_nonneg h.x_nonneg
  obtain ⟨hy0, hy1⟩ := dif_nonneg h.y_nonneg
  unfold addends
  simp only [List.forall_mem_cons, List.not_mem_nil, false_implies, implies_true, and_true]
  exact ⟨⟨weighted_nonneg _ hy1 hx1, float_float _⟩, ⟨weighted_nonneg _ hx0 hy1, float_float _⟩,
    ⟨weighted_nonneg _ hx1 hy0, float_float _⟩, ⟨weighted_nonneg _ hx0 hy0, float_float _⟩⟩

/-- A rounded sum of what is not negative is positive where one of the two is. -/
theorem float_add_pos_iff {a b : ℚ} (ha : 0 ≤ a) (hb : 0 ≤ b) (hfa : float a = a) (hfb : float b = b) :
    0 < float (a + b) ↔ 0 < a ∨ 0 < b := by
  constructor
  · intro h
    by_contra hn
    simp only [not_or, not_lt] at hn
    rw [le_antisymm hn.1 ha, le_antisymm hn.2 hb, add_zero, float_zero] at h
    exact lt_irrefl _ h
  · rintro (h | h)
    · calc 0 < a := h
        _ = float a := hfa.symm
        _ ≤ float (a + b) := float_mono (by linarith)
    · calc 0 < b := h
        _ = float b := hfb.symm
        _ ≤ float (a + b) := float_mono (by linarith)

/-- **A color** is positive where a weighted pixel is not black. -/
theorem color_pos_iff : 0 < getInterpolatedColor past image p ↔ LitAt past image p := by
  unfold LitAt
  by_cases hg : Guarded image p
  · obtain ⟨a, b, c, d, hadd, hcolor⟩ := color_of_guarded past hg
    have hnonneg := addends_nonneg past hg
    rw [hadd] at hnonneg
    simp only [List.forall_mem_cons, List.not_mem_nil, false_implies, implies_true, and_true] at hnonneg
    obtain ⟨⟨ha, hfa⟩, ⟨hb, hfb⟩, ⟨hc, hfc⟩, hd, hfd⟩ := hnonneg
    have hab : 0 ≤ float (a + b) := float_nonneg (add_nonneg ha hb)
    have habc : 0 ≤ float (float (a + b) + c) := float_nonneg (add_nonneg hab hc)
    rw [hcolor, hadd, float_add_pos_iff habc hd (float_float _) hfd, float_add_pos_iff hab hc (float_float _) hfc,
      float_add_pos_iff ha hb hfa hfb]
    simp [hg, or_assoc]
  · rw [color_of_not_guarded hg]
    simp [hg]

theorem color_nonneg (past : ℕ → ℕ → UInt8) (image : Image8) (p : Point2f) : 0 ≤ getInterpolatedColor past image p := by
  by_cases hg : Guarded image p
  · obtain ⟨a, b, c, d, hadd, hcolor⟩ := color_of_guarded past hg
    have hnonneg := addends_nonneg past hg
    rw [hadd] at hnonneg
    simp only [List.forall_mem_cons, List.not_mem_nil, false_implies, implies_true, and_true] at hnonneg
    obtain ⟨⟨ha, -⟩, ⟨hb, -⟩, ⟨hc, -⟩, hd, -⟩ := hnonneg
    rw [hcolor]
    exact float_nonneg (add_nonneg (float_nonneg (add_nonneg (float_nonneg (add_nonneg ha hb)) hc)) hd)
  · exact (color_of_not_guarded hg).ge

/-- A color is a `float`. -/
theorem float_color (past : ℕ → ℕ → UInt8) (image : Image8) (p : Point2f) :
    float (getInterpolatedColor past image p) = getInterpolatedColor past image p := by
  by_cases hg : Guarded image p
  · obtain ⟨a, b, c, d, -, hcolor⟩ := color_of_guarded past hg
    rw [hcolor, float_float]
  · rw [color_of_not_guarded hg, float_zero]

theorem weighted_zero (a b : ℚ) : weighted 0 a b = 0 := by
  unfold weighted
  rw [UInt8.toNat_zero, Nat.cast_zero, zero_mul, float_zero, zero_mul, float_zero]

theorem color_of_dark (h : ¬ BrightAround past image p) : getInterpolatedColor past image p = 0 := by
  by_cases hg : Guarded image p
  · unfold BrightAround at h
    simp only [not_or, not_not] at h
    obtain ⟨a, b, c, d, hadd, hcolor⟩ := color_of_guarded past hg
    unfold addends at hadd
    rw [h.1, h.2.1, h.2.2.1, h.2.2.2] at hadd
    simp only [weighted_zero, List.cons.injEq, and_true] at hadd
    obtain ⟨rfl, rfl, rfl, rfl⟩ := hadd
    rw [hcolor]
    simp only [add_zero, float_zero]
  · exact color_of_not_guarded hg

theorem LitAt.bright (h : LitAt past image p) : BrightAround past image p := by
  by_contra hdark
  have hpos := color_pos_iff.mpr h
  rw [color_of_dark hdark] at hpos
  exact lt_irrefl _ hpos

end Colors

/-! ## Neighborhoods -/

theorem roundSqrt_le {n k : ℕ} (h : n ≤ k * k) : roundSqrt n ≤ k := by
  have hsqrt : Nat.sqrt (4 * n) ≤ 2 * k := by
    rw [← Nat.sqrt_eq (2 * k)]
    apply Nat.sqrt_le_sqrt
    calc 4 * n ≤ 4 * (k * k) := Nat.mul_le_mul_left 4 h
      _ = 2 * k * (2 * k) := by ring
  unfold roundSqrt
  omega

/-- The offsets are at most the radius. -/
theorem computeMask_le {radius : ℕ} {o : Point2f} (h : o ∈ computeMask radius) : |o.x| ≤ radius ∧ |o.y| ≤ radius := by
  unfold computeMask at h
  obtain ⟨i, hi, h⟩ := List.mem_flatMap.mp h
  obtain ⟨j, hj, rfl⟩ := List.mem_map.mp h
  rw [List.mem_range] at hi hj
  generalize hx0 : roundSqrt (radius * radius - ((radius : ℤ) - i).natAbs * ((radius : ℤ) - i).natAbs) = x0 at hj
  have hle : x0 ≤ radius := by
    rw [← hx0]
    exact roundSqrt_le (Nat.sub_le _ _)
  have hj' : (j : ℚ) ≤ 2 * x0 := by exact_mod_cast Nat.lt_succ_iff.mp hj
  have hi' : (i : ℚ) ≤ 2 * radius := by exact_mod_cast Nat.lt_succ_iff.mp hi
  have hle' : (x0 : ℚ) ≤ radius := by exact_mod_cast hle
  have hi0 : (0 : ℚ) ≤ i := Nat.cast_nonneg i
  have hj0 : (0 : ℚ) ≤ j := Nat.cast_nonneg j
  constructor
  · show |(j : ℚ) - x0| ≤ radius
    rw [abs_le]
    constructor <;> linarith
  · show |(((radius : ℤ) - i : ℤ) : ℚ)| ≤ radius
    push_cast
    rw [abs_le]
    constructor <;> linarith

/-! ## Rounds -/

/-- The sum over some offsets. -/
structure SumOver [Rounding] (past : ℕ → ℕ → UInt8) (image : Image8) (estimate : Point2f) (os : List Point2f)
    (m : ℚ × ℚ × ℚ) : Prop where
  double_eq : double m.1 = m.1 ∧ double m.2.1 = m.2.1 ∧ double m.2.2 = m.2.2
  nonneg : 0 ≤ m.2.2
  pos_iff : 0 < m.2.2 ↔ ∃ o ∈ os, LitAt past image (around estimate o)

section Rounds

variable {R : Rounding} {past : ℕ → ℕ → UInt8} {image : Image8} {estimate refined : Point2f} {radius : ℕ}

/-- **One offset** adds to the sum unless it is dark. -/
theorem sumOver_addOffset {os : List Point2f} {m : ℚ × ℚ × ℚ} (h : SumOver past image estimate os m) (o : Point2f) :
    SumOver past image estimate (os ++ [o]) (addOffset past image estimate m o) := by
  obtain ⟨-, -, hdouble⟩ := h.double_eq
  generalize hv : getInterpolatedColor past image (around estimate o) = v
  have hsum : (addOffset past image estimate m o).2.2 = double (m.2.2 + v) := by
    rw [← hv]
    rfl
  have hv0 : 0 ≤ v := hv ▸ color_nonneg past image _
  have hvdouble : double v = v := by
    rw [← hv, ← float_color, double_float]
  have hm : m.2.2 ≤ double (m.2.2 + v) := by
    calc m.2.2 = double m.2.2 := hdouble.symm
      _ ≤ double (m.2.2 + v) := double_mono (by linarith)
  have hadd : v ≤ double (m.2.2 + v) := by
    calc v = double v := hvdouble.symm
      _ ≤ double (m.2.2 + v) := double_mono (by linarith [h.nonneg])
  refine ⟨⟨double_double _, double_double _, double_double _⟩, ?_, ?_⟩
  · rw [hsum]
    exact h.nonneg.trans hm
  · have hlit : (∃ o' ∈ os ++ [o], LitAt past image (around estimate o')) ↔ 0 < m.2.2 ∨ 0 < v := by
      rw [h.pos_iff, ← hv, color_pos_iff]
      simp [or_and_right, exists_or]
    rw [hlit, hsum]
    constructor
    · intro hpos
      by_contra hn
      simp only [not_or, not_lt] at hn
      rw [le_antisymm hn.1 h.nonneg, le_antisymm hn.2 hv0, add_zero, double_zero] at hpos
      exact lt_irrefl _ hpos
    · rintro (hpos | hpos)
      · exact hpos.trans_le hm
      · exact hpos.trans_le hadd

theorem sumOver_foldl (os : List Point2f) :
    SumOver past image estimate os (os.foldl (addOffset past image estimate) (0, 0, 0)) := by
  induction os using List.reverseRecOn with
  | nil => exact ⟨⟨double_zero, double_zero, double_zero⟩, le_rfl, by simp⟩
  | append_singleton os o ih =>
    rw [List.foldl_append]
    exact sumOver_addOffset ih o

/-- **The denominator of a round** is positive iff its disc is not dark. -/
theorem sum_pos_iff : 0 < (roundMoments past image estimate radius).2.2 ↔ Lit past image estimate radius :=
  (sumOver_foldl (computeMask radius)).pos_iff

/-- A dark offset adds nothing. -/
theorem SumOver.addOffset_dark {os : List Point2f} {m : ℚ × ℚ × ℚ} (h : SumOver past image estimate os m) {o : Point2f}
    (ho : ¬ BrightAround past image (around estimate o)) : addOffset past image estimate m o = m := by
  obtain ⟨h₁, h₂, h₃⟩ := h.double_eq
  unfold addOffset
  simp only [color_of_dark ho, mul_zero, float_zero, add_zero, h₁, h₂, h₃]

/-- The offsets of a disc that are not dark. -/
def brightOffsets [Rounding] (past : ℕ → ℕ → UInt8) (image : Image8) (estimate : Point2f) (radius : ℕ) : List Point2f :=
  (computeMask radius).filter fun o => BrightAround past image (around estimate o)

theorem roundMoments_eq_bright : roundMoments past image estimate radius =
    (brightOffsets past image estimate radius).foldl (addOffset past image estimate) (0, 0, 0) := by
  unfold roundMoments brightOffsets
  induction computeMask radius using List.reverseRecOn with
  | nil => rfl
  | append_singleton os o ih =>
    rw [List.foldl_append, ih, List.filter_append, List.foldl_append, List.filter_singleton]
    by_cases ho : BrightAround past image (around estimate o)
    · rw [decide_eq_true ho]
      rfl
    · rw [decide_eq_false ho]
      exact (sumOver_foldl _).addOffset_dark ho

/-- A round over the offsets that are not dark. -/
theorem refineStep_eq (os : List Point2f) (m : ℚ × ℚ × ℚ) (hos : brightOffsets past image estimate radius = os)
    (hm : os.foldl (addOffset past image estimate) (0, 0, 0) = m) (hsum : m.2.2 ≠ 0) :
    refineStep past image estimate radius = some (toPoint2f (double (m.1 / m.2.2)) (double (m.2.1 / m.2.2))) := by
  unfold refineStep
  rw [roundMoments_eq_bright, hos, hm]
  exact if_neg hsum

/-- **A round** ends with a number iff its disc is not dark. -/
theorem refineStep_defined_iff :
    (∃ r, refineStep past image estimate radius = some r) ↔ Lit past image estimate radius := by
  have hsum : SumOver past image estimate (computeMask radius) (roundMoments past image estimate radius) :=
    sumOver_foldl (computeMask radius)
  have hnonneg := hsum.nonneg
  have hne : (roundMoments past image estimate radius).2.2 = 0 ↔ ¬ Lit past image estimate radius := by
    rw [← sum_pos_iff, not_lt]
    exact ⟨fun h => h.le, fun h => le_antisymm h hnonneg⟩
  unfold refineStep
  dsimp only
  by_cases hlit : Lit past image estimate radius
  · rw [if_neg (fun h => hne.mp h hlit)]
    simp [hlit]
  · rw [if_pos (hne.mpr hlit)]
    simp [hlit]

end Rounds

end Lyli.Calibration.LensDetector
