import Mathlib
import Lyli.Calibration.LensOrder

/-!
# What refinement reads and divides by

`getInterpolatedColor` lets a position on the last column or row through its
guard, and reads the pixel after it, which is not in the image.  A round of
`refineCentroid` divides by the sum of the colors of its disc, which is 0 where
the disc is dark.

    every round reads pixels of the image only
      ↔ in every round no position is on the last column or row, and no disc but the last is dark      (refineCentroid_reads_iff)
    the denominators of a call are positive  ↔  in every round the disc is not dark                     (findCentroid_denominators_iff)

The rounds are those of the loop: the estimate before each is what the rounds before it give.
-/

namespace Lyli.Calibration.LensDetector

open Rounding

/-! ## Reads -/

/-- The pixels (column, row) that `getInterpolatedColor` reads. -/
def colorReads [Rounding] (image : Image8) (position : Point2f) : List (ℕ × ℕ) :=
  if position.x < 0 ∨ position.x > float (image.cols - 1) ∨ position.y < 0 ∨ position.y > float (image.rows - 1) then []
  else
    let x0 := ⌊position.x⌋₊
    let y0 := ⌊position.y⌋₊
    [(x0, y0), (x0 + 1, y0), (x0, y0 + 1), (x0 + 1, y0 + 1)]

def InImage (image : Image8) (q : ℕ × ℕ) : Prop := q.1 < image.cols ∧ q.2 < image.rows

instance (image : Image8) (q : ℕ × ℕ) : Decidable (InImage image q) := inferInstanceAs (Decidable (_ ∧ _))

/-- On the last column or the last row of the image, past the guard. -/
def OnEdge [Rounding] (image : Image8) (p : Point2f) : Prop :=
  Guarded image p ∧ ((image.cols : ℚ) - 1 ≤ p.x ∨ (image.rows : ℚ) - 1 ≤ p.y)

/-- What a round reads. -/
def roundReads [Rounding] (image : Image8) (estimate : Point2f) (radius : ℕ) : List (ℕ × ℕ) :=
  (computeMask radius).flatMap fun o => colorReads image (around estimate o)

/-- No position of the disc is on the last column or row. -/
def OffEdge [Rounding] (image : Image8) (estimate : Point2f) (radius : ℕ) : Prop :=
  ∀ o ∈ computeMask radius, ¬ OnEdge image (around estimate o)

/-- The radius of a round, and those of the rounds before it. -/
def IsRound (done : List ℕ) (radius : ℕ) : Prop := done ++ [radius] <+: [3, 4, 5, 6]

/-- Each round starts from a number, and reads pixels of the image only. -/
def ReadsInImage [Rounding] (past : ℕ → ℕ → UInt8) (image : Image8) (start : Point2f) : Prop :=
  ∀ done radius, IsRound done radius → ∃ estimate, done.foldlM (refineStep past image) start = some estimate ∧
    ∀ q ∈ roundReads image estimate radius, InImage image q

/-- Each round starts from a number, and divides by a positive number. -/
def DenominatorsPositive [Rounding] (past : ℕ → ℕ → UInt8) (image : Image8) (start : Point2f) : Prop :=
  ∀ done radius, IsRound done radius → ∃ estimate, done.foldlM (refineStep past image) start = some estimate ∧
    0 < (roundMoments past image estimate radius).2.2

section Reads

variable {R : Rounding} {past : ℕ → ℕ → UInt8} {image : Image8} {p estimate : Point2f} {radius : ℕ}

/-- A coordinate has a pixel after it before the last one. -/
theorem floor_add_one_lt_iff {n : ℕ} {x : ℚ} (h : 0 ≤ x) : ⌊x⌋₊ + 1 < n ↔ x < (n : ℚ) - 1 := by
  rw [← Nat.lt_sub_iff_add_lt, Nat.floor_lt h]
  rcases Nat.eq_zero_or_pos n with rfl | hn
  · rw [Nat.zero_sub, Nat.cast_zero]
    constructor <;> intro hlt <;> linarith
  · rw [Nat.cast_pred hn]

theorem colorReads_of_not_guarded (hg : ¬ Guarded image p) : colorReads image p = [] := by
  rw [guarded_iff, not_not] at hg
  exact if_pos hg

/-- Past the guard, the last of the four pixels decides. -/
theorem colorReads_guarded (hg : Guarded image p) : (∀ q ∈ colorReads image p, InImage image q) ↔
    ⌊p.x⌋₊ + 1 < image.cols ∧ ⌊p.y⌋₊ + 1 < image.rows := by
  unfold colorReads
  rw [if_neg (guarded_iff.mp hg)]
  simp only [List.forall_mem_cons, List.not_mem_nil, false_implies, implies_true, and_true, InImage]
  omega

/-- **The reads of an interpolation** are in the image, off the edge. -/
theorem colorReads_inImage_iff : (∀ q ∈ colorReads image p, InImage image q) ↔ ¬ OnEdge image p := by
  unfold OnEdge
  by_cases hg : Guarded image p
  · rw [colorReads_guarded hg, floor_add_one_lt_iff hg.x_nonneg, floor_add_one_lt_iff hg.y_nonneg]
    simp only [hg, true_and, not_or, not_le]
  · rw [colorReads_of_not_guarded hg]
    simp [hg]

theorem roundReads_iff : (∀ q ∈ roundReads image estimate radius, InImage image q) ↔ OffEdge image estimate radius := by
  unfold roundReads OffEdge
  simp only [← colorReads_inImage_iff, List.mem_flatMap, forall_exists_index, and_imp]
  exact ⟨fun h o ho q hq => h q o ho hq, fun h q o ho hq => h o ho q hq⟩

/-- **Refinement reads the image only** iff no position of a round is on the last column or row, and no
disc is dark before the last round. -/
theorem refineCentroid_reads_iff (past : ℕ → ℕ → UInt8) (image : Image8) (start : Point2f) :
    ReadsInImage past image start ↔ ∀ done radius estimate, IsRound done radius →
      done.foldlM (refineStep past image) start = some estimate →
        OffEdge image estimate radius ∧ (done ++ [radius] ≠ [3, 4, 5, 6] → Lit past image estimate radius) := by
  unfold ReadsInImage IsRound
  rw [foldlM_rounds_iff]
  refine forall₅_congr fun done radius estimate _ _ => ?_
  rw [roundReads_iff, refineStep_defined_iff]

end Reads

/-- A white image. -/
def whiteGrey : Image8 where
  rows := 10
  cols := 10
  value _ _ := 255

section Floats

attribute [local instance] Rounding.ieee

/-- Three pixels to the right of the column 6 is the last one: the column after it is read. -/
theorem whiteGrey_reads_outside :
    InImage whiteGrey (6, 5) ∧ (10, 5) ∈ roundReads whiteGrey ⟨6, 5⟩ 3 ∧ ¬ ReadsInImage zeros whiteGrey ⟨6, 5⟩ := by
  have hread : (10, 5) ∈ roundReads whiteGrey ⟨6, 5⟩ 3 := by decide +kernel
  refine ⟨by decide, hread, fun h => ?_⟩
  obtain ⟨estimate, hestimate, hin⟩ := h [] 3 ⟨[4, 5, 6], rfl⟩
  rw [← Option.some.inj hestimate] at hin
  exact absurd (hin _ hread) (by decide)

end Floats

/-! ## Denominators -/

section Call

variable {R : Rounding} {past : ℕ → ℕ → UInt8} {image mask : Image8} {start : ℕ × ℕ} {centroid : Option Point2f} {f : Fill}

/-- The denominator of `findCentroid` is the sum over the pixels it accumulates. -/
theorem findCentroid_sum (h : findCentroid image mask start = some (centroid, f)) :
    f.sum = (f.pixels.map fun q => (image.value q.1 q.2).toNat).sum := by
  refine findCentroid_inv (P := fun f => f.sum = (f.pixels.map fun q => (image.value q.1 q.2).toNat).sum) ?_ rfl h
  intro x y f f' hsum _ hf
  obtain ⟨v, hv, hf⟩ := Option.bind_eq_some_iff.mp hf
  split_ifs at hf
  rw [← Option.some.inj hf]
  simp [hsum, (Image8.loadInt_some hv).2.2]

/-- It is a number where that is positive. -/
theorem findCentroid_isSome (h : findCentroid image mask start = some (centroid, f)) (hsum : 0 < f.sum) :
    ∃ c, centroid = some c := by
  unfold findCentroid at h
  split_ifs at h
  · obtain ⟨rfl, -⟩ := Prod.mk.inj (Option.some.inj h)
    exact ⟨_, rfl⟩
  · obtain ⟨f₀, -, h⟩ := Option.bind_eq_some_iff.mp h
    obtain ⟨rfl, rfl⟩ := Prod.mk.inj (Option.some.inj h)
    rw [if_neg hsum.ne']
    exact ⟨_, rfl⟩

/-- The denominators of the rounds are positive iff no disc is dark. -/
theorem refineCentroid_denominators_iff (start : Point2f) :
    DenominatorsPositive past image start ↔ ∀ done radius estimate, IsRound done radius →
      done.foldlM (refineStep past image) start = some estimate → Lit past image estimate radius := by
  unfold DenominatorsPositive IsRound
  rw [foldlM_rounds_iff]
  refine forall₅_congr fun done radius estimate _ _ => ?_
  rw [sum_pos_iff, refineStep_defined_iff]
  exact ⟨fun h => h.1, fun h => ⟨h, fun _ => h⟩⟩

/-- **The denominators of a call** whose pixels are not all black are positive iff no round has a dark disc. -/
theorem findCentroid_denominators_iff (past : ℕ → ℕ → UInt8)
    (h : findCentroid image mask start = some (centroid, f)) {q : ℕ × ℕ} (hq : q ∈ f.pixels)
    (hlight : 0 < (image.value q.1 q.2).toNat) :
    ∃ c, centroid = some c ∧ ((0 < f.sum ∧ DenominatorsPositive past image c) ↔
      ∀ done radius estimate, IsRound done radius → done.foldlM (refineStep past image) c = some estimate →
        Lit past image estimate radius) := by
  have hsum : 0 < f.sum := by
    have hle := List.single_le_sum (l := f.pixels.map fun q => (image.value q.1 q.2).toNat) (by simp) _
      (List.mem_map_of_mem hq)
    rw [findCentroid_sum h]
    exact lt_of_lt_of_le hlight hle
  obtain ⟨c, hc⟩ := findCentroid_isSome h hsum
  refine ⟨c, hc, ?_⟩
  rw [refineCentroid_denominators_iff]
  exact and_iff_right hsum

end Call

/-- Two bright pixels at the ends of a row of 15, and a lit patch in the middle of the image. -/
def endsGrey : Image8 where
  rows := 3280
  cols := 3280
  value x y :=
    if (x = 20 ∨ x = 34) ∧ y = 10 then 100
    else if 1620 ≤ x ∧ x < 1660 ∧ 1620 ≤ y ∧ y < 1660 then 128
    else 0

def endsMask : Image8 where
  rows := 3280
  cols := 3280
  value x y := if 20 ≤ x ∧ x ≤ 34 ∧ y = 10 then Mask.object else Mask.empty

section Floats

attribute [local instance] Rounding.ieee

theorem endsGrey_call : ∃ f, findCentroid endsGrey endsMask (20, 10) = some (some ⟨27, 10⟩, f) ∧ (20, 10) ∈ f.pixels := by
  have h : (findCentroid endsGrey endsMask (20, 10)).map (fun r => (r.1, decide ((20, 10) ∈ r.2.pixels))) =
      some (some ⟨27, 10⟩, true) := by decide +kernel
  obtain ⟨⟨centroid, f⟩, hr, heq⟩ := Option.map_eq_some_iff.mp h
  obtain ⟨rfl, hmem⟩ := Prod.mk.inj heq
  exact ⟨f, hr, of_decide_eq_true hmem⟩

theorem findCentroid_denominators_iff_ends :
    ∃ f, findCentroid endsGrey endsMask (20, 10) = some (some ⟨27, 10⟩, f) ∧ ∃ c, some ⟨27, 10⟩ = some c ∧
      ((0 < f.sum ∧ DenominatorsPositive zeros endsGrey c) ↔ ∀ done radius estimate, IsRound done radius →
        done.foldlM (refineStep zeros endsGrey) c = some estimate → Lit zeros endsGrey estimate radius) := by
  obtain ⟨f, hf, hmem⟩ := endsGrey_call
  exact ⟨f, hf, findCentroid_denominators_iff zeros hf hmem (by decide)⟩

/-- The object is bright at its ends only: its mean is in the dark, and the first round divides by 0. -/
theorem endsGrey_divides_by_zero :
    Reaches zeros endsGrey endsMask { mask := endsMask } (20, 10) ∧ endsMask.load 20 10 = some Mask.object ∧
      (∃ f, findCentroid endsGrey endsMask (20, 10) = some (some ⟨27, 10⟩, f) ∧ (20, 10) ∈ f.pixels ∧
        0 < (endsGrey.value 20 10).toNat) ∧
      (roundMoments zeros endsGrey ⟨27, 10⟩ 3).2.2 = 0 ∧ ¬ DenominatorsPositive zeros endsGrey ⟨27, 10⟩ := by
  have hdark : brightOffsets zeros endsGrey ⟨27, 10⟩ 3 = [] := by decide +kernel
  have hsum : (roundMoments zeros endsGrey ⟨27, 10⟩ 3).2.2 = 0 := by
    rw [roundMoments_eq_bright, hdark]
    rfl
  have hreach : Reaches zeros endsGrey endsMask { mask := endsMask } (20, 10) := by
    apply reaches_first
    · exact mem_raster.mpr (by decide)
    · intro q hq
      have hmem : 20 ≤ q.1 ∧ q.1 ≤ 34 ∧ q.2 = 10 := Mask.drawn hq
      unfold Before
      omega
  obtain ⟨f, hf, hmem⟩ := endsGrey_call
  refine ⟨hreach, by decide, ⟨f, hf, hmem, by decide⟩, hsum, fun h => ?_⟩
  obtain ⟨estimate, hestimate, hpos⟩ := h [] 3 ⟨[4, 5, 6], rfl⟩
  rw [← Option.some.inj hestimate, hsum] at hpos
  exact lt_irrefl _ hpos

end Floats

end Lyli.Calibration.LensDetector
