import Mathlib
import Lyli.Base.WeightedMean
import Lyli.Calibration.LensReads

/-!
# Where a refined centroid lies

In exact arithmetic.  A position outside the image has the color 0, and the other
colors are not negative, whatever is read past the image.  So a round with a
positive sum is a mean of positions of the image:

    every sum is positive  →  every estimate is in the image, the last one at most 18 away from the start
                                                                          (refineCentroid_bounded)
-/

namespace Lyli.Calibration.LensDetector

open Rounding

/-- The sum of every round that is reached is positive. -/
def SumsPositive [Rounding] (past : ℕ → ℕ → UInt8) (image : Image8) (start : Point2f) : Prop :=
  ∀ done radius estimate, IsRound done radius → done.foldlM (refineStep past image) start = some estimate →
    0 < (roundMoments past image estimate radius).2.2

section Exact

attribute [local instance] Rounding.exact

variable {past : ℕ → ℕ → UInt8} {image : Image8} {p estimate : Point2f} {radius : ℕ}

/-! ## One round -/

/-- The moments are sums over the neighborhood. -/
theorem roundMoments_eq (past : ℕ → ℕ → UInt8) (image : Image8) (estimate : Point2f) (radius : ℕ) :
    roundMoments past image estimate radius =
      (((computeMask radius).map fun o => (o.x + estimate.x) * getInterpolatedColor past image (around estimate o)).sum,
        ((computeMask radius).map fun o => (o.y + estimate.y) * getInterpolatedColor past image (around estimate o)).sum,
        ((computeMask radius).map fun o => getInterpolatedColor past image (around estimate o)).sum) := by
  unfold roundMoments
  induction computeMask radius using List.reverseRecOn with
  | nil => rfl
  | append_singleton os o ih =>
    rw [List.foldl_append, ih]
    simp only [List.map_append, List.sum_append, List.map_singleton, List.sum_singleton]
    rfl

/-- A mean over a neighborhood is at most the radius away from its middle. -/
theorem disc_mean_near {radius : ℕ} {w : Point2f → ℚ} (hw : ∀ o ∈ computeMask radius, 0 ≤ w o)
    (hsum : ((computeMask radius).map w).sum ≠ 0) (e : ℚ) {c : Point2f → ℚ}
    (hc : ∀ o ∈ computeMask radius, |c o| ≤ radius) :
    |weightedMean (computeMask radius) (fun o => c o + e) w - e| ≤ radius := by
  have hlo : ∀ o ∈ computeMask radius, 0 < w o → e - radius ≤ c o + e := by
    intro o ho _
    linarith [(abs_le.mp (hc o ho)).1]
  have hhi : ∀ o ∈ computeMask radius, 0 < w o → c o + e ≤ e + radius := by
    intro o ho _
    linarith [(abs_le.mp (hc o ho)).2]
  obtain ⟨h₁, h₂⟩ := weightedMean_mem_Icc hw hsum hlo hhi
  rw [abs_le]
  constructor <;> linarith

/-- **A round with a positive sum** ends in the image, at most the radius away from where it began. -/
theorem refineStep_bounded (h : 0 < (roundMoments past image estimate radius).2.2) :
    ∃ refined, refineStep past image estimate radius = some refined ∧ Guarded image refined ∧
      |refined.x - estimate.x| ≤ radius ∧ |refined.y - estimate.y| ≤ radius := by
  let w : Point2f → ℚ := fun o => getInterpolatedColor past image (around estimate o)
  have hmoments := roundMoments_eq past image estimate radius
  rw [hmoments] at h
  have hsum : ((computeMask radius).map w).sum ≠ 0 := h.ne'
  have hw : ∀ o ∈ computeMask radius, 0 ≤ w o := fun o _ => color_nonneg past image _
  have hin : ∀ o, 0 < w o → Guarded image (around estimate o) := fun o ho => (color_pos_iff.mp ho).1
  let refined : Point2f := ⟨weightedMean (computeMask radius) (fun o => o.x + estimate.x) w,
    weightedMean (computeMask radius) (fun o => o.y + estimate.y) w⟩
  refine ⟨refined, ?_, ?_, ?_, ?_⟩
  · unfold refineStep
    rw [hmoments]
    show (if _ then none else _) = _
    rw [if_neg hsum]
    rfl
  · have hx : ∀ o, 0 < w o → 0 ≤ o.x + estimate.x ∧ o.x + estimate.x ≤ (image.cols : ℚ) - 1 := fun o ho =>
      ⟨(hin o ho).x_nonneg, (hin o ho).x_le⟩
    have hy : ∀ o, 0 < w o → 0 ≤ o.y + estimate.y ∧ o.y + estimate.y ≤ (image.rows : ℚ) - 1 := fun o ho =>
      ⟨(hin o ho).y_nonneg, (hin o ho).y_le⟩
    have hmeanx := weightedMean_mem_Icc hw hsum (fun o _ ho => (hx o ho).1) (fun o _ ho => (hx o ho).2)
    have hmeany := weightedMean_mem_Icc hw hsum (fun o _ ho => (hy o ho).1) (fun o _ ho => (hy o ho).2)
    exact ⟨hmeanx.1, hmeanx.2, hmeany.1, hmeany.2⟩
  · exact disc_mean_near hw hsum _ fun o ho => (computeMask_le ho).1
  · exact disc_mean_near hw hsum _ fun o ho => (computeMask_le ho).2

/-! ## The pixel that is drawn -/

/-- Rounding does not leave an interval between integers. -/
theorem cvRound_mem_Icc {q : ℚ} {n : ℤ} (h0 : 0 ≤ q) (hn : q ≤ n) : 0 ≤ cvRound q ∧ cvRound q ≤ n := by
  have hlo := roundEven_mono h0
  have hhi := roundEven_mono hn
  rw [← Int.cast_zero, roundEven_intCast] at hlo
  rw [roundEven_intCast] at hhi
  exact ⟨hlo, hhi⟩

/-- **A point of the image has a pixel in the mask.** -/
theorem pixelAt_of_guarded {mask : Image8} (hcols : mask.cols = image.cols) (hrows : mask.rows = image.rows)
    (h : Guarded image p) : ∃ q, pixelAt mask p = some q := by
  obtain ⟨hx0, hx1⟩ := cvRound_mem_Icc (n := (image.cols : ℤ) - 1) h.x_nonneg (by push_cast; exact h.x_le)
  obtain ⟨hy0, hy1⟩ := cvRound_mem_Icc (n := (image.rows : ℤ) - 1) h.y_nonneg (by push_cast; exact h.y_le)
  refine ⟨((cvRound p.x).toNat, (cvRound p.y).toNat), if_pos ?_⟩
  rw [hcols, hrows]
  omega

/-! ## All rounds -/

/-- **The rounds so far** end in the image, at most the sum of their radii away from the start. -/
theorem rounds_bounded {start : Point2f} (hsum : SumsPositive past image start) {done : List ℕ}
    (hdone : done <+: [3, 4, 5, 6]) :
    ∃ estimate, done.foldlM (refineStep past image) start = some estimate ∧ (done ≠ [] → Guarded image estimate) ∧
      |estimate.x - start.x| ≤ (done.sum : ℕ) ∧ |estimate.y - start.y| ≤ (done.sum : ℕ) := by
  induction done using List.reverseRecOn with
  | nil => exact ⟨start, rfl, by simp⟩
  | append_singleton done radius ih =>
    obtain ⟨e, he, -, hx, hy⟩ := ih ((List.prefix_append done [radius]).trans hdone)
    obtain ⟨e', he', hin, hx', hy'⟩ := refineStep_bounded (hsum done radius e hdone he)
    refine ⟨e', foldlM_append_some.mpr ⟨e, he, foldlM_cons_some.mpr ⟨e', he', rfl⟩⟩, fun _ => hin, ?_, ?_⟩
    · rw [List.sum_append, List.sum_singleton, Nat.cast_add]
      exact (abs_sub_le e'.x e.x start.x).trans (by linarith)
    · rw [List.sum_append, List.sum_singleton, Nat.cast_add]
      exact (abs_sub_le e'.y e.y start.y).trans (by linarith)

/-- **Refined centroids stay in the image and near their lens**, whatever is read past the image: if the
sums of all rounds are positive, every round ends in the image, the last one at most 18 pixels away from
the start, and the mask, which is as large as the image, has the pixel that is drawn. -/
theorem refineCentroid_bounded (past : ℕ → ℕ → UInt8) (image mask : Image8) (hcols : mask.cols = image.cols)
    (hrows : mask.rows = image.rows) (start : Point2f) (hsum : SumsPositive past image start) :
    (∀ done radius, IsRound done radius →
      ∃ estimate, (done ++ [radius]).foldlM (refineStep past image) start = some estimate ∧
        Guarded image estimate) ∧
    ∃ refined, refineCentroid past image start = some refined ∧ |refined.x - start.x| ≤ 18 ∧
      |refined.y - start.y| ≤ 18 ∧ ∃ q, pixelAt mask refined = some q := by
  constructor
  · intro done radius hround
    obtain ⟨e, he, hin, -⟩ := rounds_bounded hsum hround
    exact ⟨e, he, hin (by simp)⟩
  · obtain ⟨e, he, hin, hx, hy⟩ := rounds_bounded hsum (List.prefix_refl _)
    have h18 : (([3, 4, 5, 6] : List ℕ).sum : ℚ) = 18 := by norm_num
    rw [h18] at hx hy
    exact ⟨e, he, hx, hy, pixelAt_of_guarded hcols hrows (hin (by simp))⟩

/-- Where refinement ends, no sum was zero. -/
theorem sumsPositive_of_isSome {start : Point2f} (h : (refineCentroid past image start).isSome = true) :
    SumsPositive past image start := by
  obtain ⟨refined, hrefined⟩ := Option.isSome_iff_exists.mp h
  intro done radius e hround he
  obtain ⟨rest, hrest⟩ := hround
  unfold refineCentroid at hrefined
  rw [← hrest] at hrefined
  obtain ⟨e', hrun, -⟩ := foldlM_append_some.mp hrefined
  obtain ⟨e₁, he₁, hstep⟩ := foldlM_append_some.mp hrun
  obtain rfl := Option.some.inj (he.symm.trans he₁)
  obtain ⟨e₂, hstep, -⟩ := foldlM_cons_some.mp hstep
  exact sum_pos_iff.mpr (refineStep_defined_iff.mp ⟨e₂, hstep⟩)

/-- From `(6, 5)` the first round reads column 10 of 10. -/
theorem whiteGrey_sumsPositive : SumsPositive (fun _ _ => 255) whiteGrey ⟨6, 5⟩ :=
  sumsPositive_of_isSome (by decide +kernel)

theorem refineCentroid_bounded_white :
    (∀ done radius, IsRound done radius →
      ∃ estimate, (done ++ [radius]).foldlM (refineStep (fun _ _ => 255) whiteGrey) ⟨6, 5⟩ = some estimate ∧
        Guarded whiteGrey estimate) ∧
    ∃ refined, refineCentroid (fun _ _ => 255) whiteGrey ⟨6, 5⟩ = some refined ∧ |refined.x - 6| ≤ 18 ∧
      |refined.y - 5| ≤ 18 ∧ ∃ q, pixelAt whiteGrey refined = some q :=
  refineCentroid_bounded (fun _ _ => 255) whiteGrey whiteGrey rfl rfl ⟨6, 5⟩ whiteGrey_sumsPositive

end Exact

end Lyli.Calibration.LensDetector
