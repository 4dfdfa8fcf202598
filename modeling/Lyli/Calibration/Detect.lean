import Mathlib
import Lyli.Calibration.FFTPreprocessor
import Lyli.Calibration.LensAccounting
import Lyli.Calibration.PointGridFinal
import Lyli.Calibration.PointGridPhases

/-!
# `LensDetector::detect` (`calibration/lensdetector.cpp`)

The grid of a grey image: the scan of its mask.  An image that is not flat is
never skipped (`detect_isEmpty_iff`): too few lines are undefined behaviour
instead.

    gray' = a * gray  →  neither is flat  →  detect gray' = detect gray              (detect_exposure)

The mask does not change (`preprocess_illumination`), so that the scan goes the
same way; and the centroids, which are weighted by the grey values, are ratios
(of exact sums: rounding depends on the brightness).
-/

namespace Lyli.Calibration

/-- `PointGrid::isEmpty`. -/
def PointGrid.isEmpty (g : PointGrid) : Bool := g.linesHorizontal.isEmpty && g.linesVertical.isEmpty

namespace LensDetector

/-! ## `detect` -/

def Image8.transpose (m : Image8) : Image8 := ⟨m.cols, m.rows, fun x y => m.value y x⟩

/-- The mean brightness of the 40 pixels square at (1620, 1620), as a `uint8_t`. -/
def centreMean (gray : Image8) : Option ℕ :=
  if 1660 ≤ gray.cols ∧ 1660 ≤ gray.rows then
    some (((List.range 40).map fun y => ((List.range 40).map fun x =>
      (gray.value (1620 + x) (1620 + y)).toNat).sum).sum / 1600)
  else none

/-- The lens grid of a grey image, with the mask of the given preprocessor. -/
def detect [Rounding] (S : StdSort) (past : ℕ → ℕ → UInt8) (preprocess : Image8 → Option Image8) (gray : Image8) :
    Option PointGrid := do
  let mean ← centreMean gray
  if mean < 16 ∨ 240 < mean then
    -- skip flat image
    some .empty
  else
    let mask ← preprocess gray
    let s ← scan past gray.transpose mask.transpose
    s.pointGrid.finalize S

/-- Too dark or too bright in its middle. -/
def Flat (gray : Image8) : Prop := ∃ mean, centreMean gray = some mean ∧ (mean < 16 ∨ 240 < mean)

end LensDetector

namespace PointGrid

/-- A grid that `finalize` returns has horizontal lines. -/
theorem finalize_not_isEmpty {R : Rounding} {S : StdSort} {g g' : PointGrid} (h : g.finalize S = some g') :
    g'.isEmpty = false := by
  obtain ⟨hor, vert, hfin⟩ := finalize_some h
  obtain ⟨s, hs, -⟩ := Option.bind_eq_some_iff.mp hfin.vertical
  obtain ⟨k, hk, -⟩ := verticalMaps_some.mp hs
  -- the construct rows are six lines
  have hlen := (verticalKeyed_some.mp hk).1
  have hne : g'.linesHorizontal ≠ [] := by
    rw [hfin.linesHorizontal]
    apply List.ne_nil_of_length_pos
    rw [List.length_map]
    omega
  unfold isEmpty
  rw [List.isEmpty_eq_false_iff.mpr hne]
  rfl

end PointGrid

namespace LensDetector

/-- **Only flat images** give an empty grid. -/
theorem detect_isEmpty_iff {R : Rounding} {S : StdSort} {past : ℕ → ℕ → UInt8}
    {preprocess : Image8 → Option Image8} {gray : Image8} {g : PointGrid}
    (h : detect S past preprocess gray = some g) : g.isEmpty = true ↔ Flat gray := by
  obtain ⟨mean, hmean, h⟩ := Option.bind_eq_some_iff.mp h
  by_cases hflat : mean < 16 ∨ 240 < mean
  · rw [if_pos hflat] at h
    obtain rfl := Option.some.inj h
    exact ⟨fun _ => ⟨mean, hmean, hflat⟩, fun _ => rfl⟩
  · rw [if_neg hflat] at h
    obtain ⟨mask, -, h⟩ := Option.bind_eq_some_iff.mp h
    obtain ⟨s, -, hfin⟩ := Option.bind_eq_some_iff.mp h
    rw [PointGrid.finalize_not_isEmpty hfin]
    constructor
    · intro hfalse
      cases hfalse
    · rintro ⟨mean', hmean', hflat'⟩
      obtain rfl := Option.some.inj (hmean.symm.trans hmean')
      exact absurd hflat' hflat

end LensDetector

namespace LensDetector

open FFTPreprocessor

/-! ## Exposure -/

/-- The second image is the first, `a` times as bright. -/
structure Exposed (a : ℚ) (image image' : Image8) : Prop where
  pos : 0 < a
  rows : image'.rows = image.rows
  cols : image'.cols = image.cols
  value : ∀ x y, x < image.cols → y < image.rows → ((image'.value x y).toNat : ℚ) = a * (image.value x y).toNat

/-- So are the bytes found past it. -/
def ExposedPast (a : ℚ) (past past' : ℕ → ℕ → UInt8) : Prop := ∀ x y, ((past' x y).toNat : ℚ) = a * (past x y).toNat

/-- The second fill marks the same pixels, and its moments are `a` times those of the first. -/
structure ExposedFill (a : ℚ) (f f' : Fill) : Prop where
  mask : f'.mask = f.mask
  m01 : (f'.m01 : ℚ) = a * f.m01
  m10 : (f'.m10 : ℚ) = a * f.m10
  sum : (f'.sum : ℚ) = a * f.sum
  pixels : f'.pixels = f.pixels

theorem rel_bind {α α' β β' : Type} {R : α → α' → Prop} {Q : β → β' → Prop} {o : Option α} {o' : Option α'}
    {k : α → Option β} {k' : α' → Option β'} (h : Option.Rel R o o') (hk : ∀ v v', R v v' → Option.Rel Q (k v) (k' v')) :
    Option.Rel Q (o.bind k) (o'.bind k') := by
  cases h with
  | none => exact .none
  | some h => exact hk _ _ h

theorem bind_congr_rel {α α' β : Type} {R : α → α' → Prop} {o : Option α} {o' : Option α'} {k : α → Option β}
    {k' : α' → Option β} (h : Option.Rel R o o') (hk : ∀ v v', R v v' → k' v' = k v) : o'.bind k' = o.bind k := by
  cases h with
  | none => rfl
  | some h => exact hk _ _ h

section Exposure

attribute [local instance] Rounding.exact

variable {a : ℚ} {image image' : Image8} (h : Exposed a image image')

include h

theorem Exposed.transpose : Exposed a image.transpose image'.transpose where
  pos := h.pos
  rows := h.cols
  cols := h.rows
  value x y hx hy := h.value y x hy hx

theorem Exposed.load (x y : ℕ) :
    Option.Rel (fun v v' : UInt8 => (v'.toNat : ℚ) = a * v.toNat) (image.load x y) (image'.load x y) := by
  unfold Image8.load
  rw [h.cols, h.rows]
  by_cases hin : x < image.cols ∧ y < image.rows
  · rw [if_pos hin, if_pos hin]
    exact .some (h.value x y hin.1 hin.2)
  · rw [if_neg hin, if_neg hin]
    exact .none

variable (hfit : IntsFit image)

include hfit

/-- **One pixel of both fills.** -/
theorem Exposed.accumulate (x y : ℕ) {f f' : Fill} (hf : ExposedFill a f f') :
    Option.Rel (ExposedFill a) (accumulate image x y f) (accumulate image' x y f') := by
  unfold LensDetector.accumulate Image8.loadInt Image8.load
  rw [h.cols, h.rows]
  by_cases hin : image.cols * y + x < intEnd ∧ x < image.cols ∧ y < image.rows
  · obtain ⟨hpos, hx, hy⟩ := hin
    have hvalue := h.value x y hx hy
    rw [if_pos hpos, if_pos ⟨hx, hy⟩, if_pos hpos, if_pos ⟨hx, hy⟩]
    -- no product overflows, however bright the pixel is
    show Option.Rel _ (if _ then _ else _) (if _ then _ else _)
    rw [if_pos ⟨mul_grey_lt hfit.rows hy _, mul_grey_lt hfit.cols hx _⟩,
      if_pos ⟨mul_grey_lt hfit.rows hy _, mul_grey_lt hfit.cols hx _⟩]
    refine .some ⟨?_, ?_, ?_, ?_, ?_⟩
    · show f'.mask.set x y _ = _
      rw [hf.mask]
    · push_cast
      rw [hf.m01, hvalue]
      ring
    · push_cast
      rw [hf.m10, hvalue]
      ring
    · push_cast
      rw [hf.sum, hvalue]
      ring
    · show f'.pixels ++ _ = _
      rw [hf.pixels]
  · have hnone : (if image.cols * y + x < intEnd then
        if x < image.cols ∧ y < image.rows then some (image.value x y) else none else none) = none := by
      split_ifs with h₁ h₂
      · exact absurd ⟨h₁, h₂⟩ hin
      · rfl
      · rfl
    have hnone' : (if image.cols * y + x < intEnd then
        if x < image.cols ∧ y < image.rows then some (image'.value x y) else none else none) = none := by
      split_ifs with h₁ h₂
      · exact absurd ⟨h₁, h₂⟩ hin
      · rfl
      · rfl
    rw [hnone, hnone']
    exact .none

/-- Both end in the same column. -/
def ExposedRow (a : ℚ) (r r' : ℕ × Fill) : Prop := r'.1 = r.1 ∧ ExposedFill a r.2 r'.2

theorem Exposed.fillLeft (y n startx : ℕ) {f f' : Fill} (hf : ExposedFill a f f') :
    Option.Rel (ExposedRow a) (fillLeft image y n startx f) (fillLeft image' y n startx f') := by
  induction n generalizing startx f f' with
  | zero => exact .some ⟨rfl, hf⟩
  | succ n ih =>
    unfold LensDetector.fillLeft
    rw [hf.mask]
    cases f.mask.loadInt (startx - 1) y with
    | none => exact .none
    | some v =>
      show Option.Rel _ (if _ then _ else _) (if _ then _ else _)
      by_cases hobj : v = Mask.object
      · rw [if_pos hobj, if_pos hobj]
        exact rel_bind (h.accumulate hfit (startx - 1) y hf) fun g g' hg => ih (startx - 1) hg
      · rw [if_neg hobj, if_neg hobj]
        exact .some ⟨rfl, hf⟩

theorem Exposed.fillRight (y n x : ℕ) {f f' : Fill} (hf : ExposedFill a f f') :
    Option.Rel (ExposedRow a) (fillRight image y n x f) (fillRight image' y n x f') := by
  induction n generalizing x f f' with
  | zero => exact .some ⟨rfl, hf⟩
  | succ n ih =>
    unfold LensDetector.fillRight
    rw [hf.mask, h.cols]
    cases f.mask.loadInt x y with
    | none => exact .none
    | some v =>
      show Option.Rel _ (if _ then _ else _) (if _ then _ else _)
      by_cases hobj : v = Mask.object
      · rw [if_pos hobj, if_pos hobj]
        refine rel_bind (h.accumulate hfit x y hf) fun g g' hg => ?_
        by_cases hnext : image.cols * y + x + 1 < intEnd
        · rw [if_pos hnext, if_pos hnext]
          exact ih (x + 1) hg
        · rw [if_neg hnext, if_neg hnext]
          exact .none
      · rw [if_neg hobj, if_neg hobj]
        exact .some ⟨rfl, hf⟩

/-- **Both fills** go down the same rows. -/
theorem Exposed.fillRows (minx maxx n y startx endx : ℕ) {f f' : Fill} (hf : ExposedFill a f f') :
    Option.Rel (ExposedFill a) (fillRows image minx maxx n y startx endx f)
      (fillRows image' minx maxx n y startx endx f') := by
  induction n generalizing y startx endx f f' with
  | zero => exact .some hf
  | succ n ih =>
    unfold LensDetector.fillRows
    rw [hf.mask, h.cols]
    by_cases hend : intEnd ≤ image.cols * y + endx
    · rw [if_pos hend, if_pos hend]
      exact .none
    · rw [if_neg hend, if_neg hend]
      cases f.mask.loadInt startx y with
      | none => exact .none
      | some v =>
        show Option.Rel _ (if _ then _ else if _ then _ else _) (if _ then _ else if _ then _ else _)
        by_cases hobj : v = Mask.object
        · rw [if_pos hobj, if_pos hobj]
          refine rel_bind (h.fillLeft hfit y (startx - minx) startx hf) ?_
          rintro ⟨left, g⟩ ⟨_, g'⟩ ⟨rfl, hg⟩
          refine rel_bind (h.fillRight hfit y (maxx - startx) startx hg) ?_
          rintro ⟨x, e⟩ ⟨_, e'⟩ ⟨rfl, he⟩
          exact ih (y + 1) _ _ he
        · rw [if_neg hobj, if_neg hobj]
          by_cases hpast : endx < startx
          · rw [if_pos hpast, if_pos hpast]
            exact .none
          · rw [if_neg hpast, if_neg hpast]
            cases findStart f.mask y (endx - startx) startx with
            | none => exact .none
            | some start =>
              cases start with
              | none => exact .some hf
              | some start =>
                show Option.Rel _ (Option.bind (LensDetector.fillRight image y (maxx - start) start f) _)
                  (Option.bind (LensDetector.fillRight image' y (maxx - start) start f') _)
                refine rel_bind (h.fillRight hfit y (maxx - start) start hf) ?_
                rintro ⟨x, e⟩ ⟨_, e'⟩ ⟨rfl, he⟩
                exact ih (y + 1) _ _ he

/-- The centroid is a ratio. -/
theorem Exposed.findCentroid (mask : Image8) (start : ℕ × ℕ) :
    Option.Rel (fun r r' => r'.1 = r.1 ∧ ExposedFill a r.2 r'.2) (findCentroid image mask start)
      (findCentroid image' mask start) := by
  have hstart : ExposedFill a { mask } { mask } := by
    refine ⟨rfl, ?_, ?_, ?_, rfl⟩
    · rw [Nat.cast_zero, mul_zero]
    · rw [Nat.cast_zero, mul_zero]
    · rw [Nat.cast_zero, mul_zero]
  unfold LensDetector.findCentroid
  rw [h.cols, h.rows]
  by_cases hedge : start.1 = image.cols - 1
  · rw [if_pos hedge, if_pos hedge]
    exact .some ⟨rfl, hstart⟩
  · rw [if_neg hedge, if_neg hedge]
    by_cases hover : intEnd ≤ start.1 + maxLensSize ∨ intEnd ≤ start.2 + maxLensSize
    · rw [if_pos hover, if_pos hover]
      exact .none
    · rw [if_neg hover, if_neg hover]
      refine rel_bind (h.fillRows hfit _ _ _ _ _ _ hstart) fun f f' hf => .some ⟨?_, hf⟩
      have hzero : f'.sum = 0 ↔ f.sum = 0 := by
        rw [← Nat.cast_eq_zero (R := ℚ), hf.sum, mul_eq_zero, or_iff_right h.pos.ne', Nat.cast_eq_zero]
      by_cases hsum : f.sum = 0
      · rw [if_pos hsum, if_pos (hzero.mpr hsum)]
      · rw [if_neg hsum, if_neg (mt hzero.mp hsum), hf.m01, hf.m10, hf.sum, mul_div_mul_left _ _ h.pos.ne',
          mul_div_mul_left _ _ h.pos.ne']

omit hfit

/-! ### Refinement -/

variable {past past' : ℕ → ℕ → UInt8} (hpast : ExposedPast a past past')

include hpast

theorem Exposed.loadOr (x y : ℕ) : ((image'.loadOr past' x y).toNat : ℚ) = a * (image.loadOr past x y).toNat := by
  have hrel := h.load x y
  unfold Image8.loadOr
  generalize image.load x y = o, image'.load x y = o' at hrel ⊢
  cases hrel with
  | none => exact hpast x y
  | some hv => exact hv

theorem Exposed.getInterpolatedColor (position : Point2f) :
    getInterpolatedColor past' image' position = a * getInterpolatedColor past image position := by
  have hweighted : ∀ (x y : ℕ) (v w : ℚ), weighted (image'.loadOr past' x y) v w = a * weighted (image.loadOr past x y) v w := by
    intro x y v w
    show ((image'.loadOr past' x y).toNat : ℚ) * v * w = a * ((image.loadOr past x y).toNat * v * w)
    rw [h.loadOr hpast]
    ring
  unfold LensDetector.getInterpolatedColor
  rw [h.cols, h.rows, mul_ite, mul_zero]
  refine if_congr Iff.rfl rfl ?_
  show weighted _ _ _ + weighted _ _ _ + weighted _ _ _ + weighted _ _ _ =
    a * (weighted _ _ _ + weighted _ _ _ + weighted _ _ _ + weighted _ _ _)
  rw [hweighted, hweighted, hweighted, hweighted]
  ring

/-- The moments of a round are `a` times those of the first image. -/
theorem Exposed.roundMoments (estimate : Point2f) (radius : ℕ) : roundMoments past' image' estimate radius =
    (a * (roundMoments past image estimate radius).1, a * (roundMoments past image estimate radius).2.1,
      a * (roundMoments past image estimate radius).2.2) := by
  have hzero : ((0, 0, 0) : ℚ × ℚ × ℚ) = (a * 0, a * 0, a * 0) := by rw [mul_zero]
  unfold LensDetector.roundMoments
  conv_lhs => rw [hzero]
  refine @List.foldl_hom _ _ _ (fun m : ℚ × ℚ × ℚ => (a * m.1, a * m.2.1, a * m.2.2)) (addOffset past image estimate)
    (addOffset past' image' estimate) (computeMask radius) (0, 0, 0) fun m o => ?_
  show (a * m.1 + _ * _, a * m.2.1 + _ * _, a * m.2.2 + _) = (a * (m.1 + _ * _), a * (m.2.1 + _ * _), a * (m.2.2 + _))
  rw [h.getInterpolatedColor hpast]
  simp only [Prod.mk.injEq]
  refine ⟨by ring, by ring, by ring⟩

/-- **One round of the refinement** does not see the exposure. -/
theorem Exposed.refineStep (estimate : Point2f) (radius : ℕ) :
    refineStep past' image' estimate radius = refineStep past image estimate radius := by
  unfold LensDetector.refineStep
  rw [h.roundMoments hpast]
  generalize LensDetector.roundMoments past image estimate radius = m
  show (if a * m.2.2 = 0 then none else some (Point2f.mk (a * m.1 / (a * m.2.2)) (a * m.2.1 / (a * m.2.2)))) =
    if m.2.2 = 0 then none else some (Point2f.mk (m.1 / m.2.2) (m.2.1 / m.2.2))
  by_cases hsum : m.2.2 = 0
  · rw [if_pos hsum, hsum, mul_zero, if_pos rfl]
  · rw [if_neg hsum, if_neg (mul_ne_zero h.pos.ne' hsum), mul_div_mul_left _ _ h.pos.ne',
      mul_div_mul_left _ _ h.pos.ne']

theorem Exposed.refineCentroid (start : Point2f) :
    refineCentroid past' image' start = refineCentroid past image start := by
  have hstep : LensDetector.refineStep past' image' = LensDetector.refineStep past image :=
    funext fun estimate => funext fun radius => h.refineStep hpast estimate radius
  unfold LensDetector.refineCentroid
  rw [hstep]

/-! ### The scan -/

include hfit

omit h hfit hpast in
theorem visit_eq (s : Scan) (p : ℕ × ℕ) : visit past image s p = (s.mask.load p.1 p.2).bind fun v =>
    if v = Mask.object then
      (LensDetector.findCentroid image s.mask p).bind fun r => r.1.bind fun c =>
        (LensDetector.refineCentroid past image c).bind fun c => (pixelAt r.2.mask c).bind fun q => some (record s r.2 c q)
    else some s := rfl

theorem Exposed.visit (s : Scan) (p : ℕ × ℕ) : visit past' image' s p = visit past image s p := by
  rw [visit_eq, visit_eq]
  refine congrArg (Option.bind _) (funext fun v => ?_)
  by_cases hobj : v = Mask.object
  · rw [if_pos hobj, if_pos hobj]
    refine bind_congr_rel (h.findCentroid hfit s.mask p) fun r r' hr => ?_
    have hrecord : record s r'.2 = record s r.2 := by
      unfold record
      rw [hr.2.mask, hr.2.pixels]
    rw [hr.1, hr.2.mask, hrecord]
    simp only [h.refineCentroid hpast]
  · rw [if_neg hobj, if_neg hobj]

/-- **The scan** of a mask does not see the exposure. -/
theorem Exposed.scan (mask : Image8) : scan past' image' mask = scan past image mask := by
  have hvisit : LensDetector.visit past' image' = LensDetector.visit past image :=
    funext fun s => funext fun p => h.visit hfit hpast s p
  unfold LensDetector.scan
  rw [hvisit]

end Exposure

section Mask

variable {a : ℚ} {gray gray' : Image8}

/-- An exposure of an image is the image with other values. -/
theorem Exposed.eq (h : Exposed a gray gray') : gray' = { gray with value := gray'.value } := by
  obtain ⟨rows', cols', value'⟩ := gray'
  obtain rfl : rows' = gray.rows := h.rows
  obtain rfl : cols' = gray.cols := h.cols
  rfl

/-- The mask does not see the exposure. -/
theorem Exposed.preprocess (h : Exposed a gray gray') (I : RealIdft) [NeZero gray.rows] [NeZero gray.cols]
    (hspread : dblEpsilon < spread I gray) (hspread' : dblEpsilon < a * spread I gray) :
    preprocess I gray' = preprocess I gray := by
  rw [h.eq]
  refine preprocess_illumination I gray gray'.value a (by exact_mod_cast h.pos) (fun _ _ => 0) ?_ ?_ hspread hspread'
  · exact_mod_cast Submodule.zero_mem (HighPass.slow (low gray.rows gray.cols))
  · intro y x
    rw [add_zero]
    unfold plane
    exact_mod_cast h.value x.val y.val (ZMod.val_lt x) (ZMod.val_lt y)

end Mask

/-- The square that `detect` takes the mean of is in the image. -/
def HasCentre (gray : Image8) : Prop := 1660 ≤ gray.cols ∧ 1660 ≤ gray.rows

theorem detect_of_not_flat {R : Rounding} (S : StdSort) (past : ℕ → ℕ → UInt8)
    (preprocess : Image8 → Option Image8) {gray : Image8} (hin : HasCentre gray)
    (hflat : ¬ Flat gray) : detect S past preprocess gray =
      (preprocess gray).bind fun mask => (scan past gray.transpose mask.transpose).bind fun s => s.pointGrid.finalize S := by
  obtain ⟨mean, hmean⟩ : ∃ mean, centreMean gray = some mean := ⟨_, if_pos hin⟩
  have hrange : ¬ (mean < 16 ∨ 240 < mean) := fun h => hflat ⟨mean, hmean, h⟩
  unfold detect
  rw [hmean]
  exact if_neg hrange

theorem detect_of_small {R : Rounding} (S : StdSort) (past : ℕ → ℕ → UInt8) (preprocess : Image8 → Option Image8)
    {gray : Image8} (hin : ¬ HasCentre gray) :
    detect S past preprocess gray = none := by
  have hnone : centreMean gray = none := if_neg hin
  unfold detect
  rw [hnone]
  rfl

section Exact

attribute [local instance] Rounding.exact

/-- **Exposure does not matter.**  An image of `a` times the brightness gives the same grid, as long as neither is
taken for flat. -/
theorem detect_exposure (S : StdSort) (I : RealIdft) (a : ℚ) (past past' : ℕ → ℕ → UInt8) (gray gray' : Image8)
    [NeZero gray.rows] [NeZero gray.cols] (h : Exposed a gray gray') (hpast : ExposedPast a past past')
    (hfit : IntsFit gray) (hspread : dblEpsilon < spread I gray) (hspread' : dblEpsilon < a * spread I gray)
    (hflat : ¬ Flat gray) (hflat' : ¬ Flat gray') :
    detect S past' (preprocess I) gray' = detect S past (preprocess I) gray := by
  have hfit' : IntsFit gray.transpose := ⟨by rw [mul_comm]; exact hfit.size, hfit.cols, hfit.rows⟩
  by_cases hin : HasCentre gray
  · have hin' : HasCentre gray' := by
      unfold HasCentre
      rwa [h.cols, h.rows]
    rw [detect_of_not_flat S _ _ hin hflat, detect_of_not_flat S _ _ hin' hflat', h.preprocess I hspread hspread']
    refine congrArg (Option.bind _) (funext fun mask => ?_)
    rw [h.transpose.scan hfit' hpast]
  · have hin' : ¬ HasCentre gray' := by
      unfold HasCentre
      rwa [h.cols, h.rows]
    rw [detect_of_small S _ _ hin, detect_of_small S _ _ hin']

theorem stripes_not_flat {bright dark : UInt8} (mean : ℕ) (h : centreMean (stripes bright dark) = some mean)
    (hmean : 16 ≤ mean ∧ mean ≤ 240) : ¬ Flat (stripes bright dark) := by
  rintro ⟨m, hm, hflat⟩
  obtain rfl := Option.some.inj (h.symm.trans hm)
  omega

/-- Half the exposure of stripes. -/
theorem detect_exposure_stripes :
    detect .insertion zeros (preprocess .ofRe) (stripes 75 25) =
      detect .insertion zeros (preprocess .ofRe) (stripes 150 50) := by
  have hspread := spread_stripes .ofRe
  have hsmall := dblEpsilon_lt_one
  refine detect_exposure .insertion .ofRe (1 / 2) zeros zeros (stripes 150 50) (stripes 75 25)
    ⟨by norm_num, rfl, rfl, fun x y _ _ => ?_⟩ (fun _ _ => by norm_num [zeros]) ⟨by decide, by decide, by decide⟩ (by linarith)
    (by push_cast; linarith) (stripes_not_flat 100 (by decide +kernel) (by decide))
    (stripes_not_flat 50 (by decide +kernel) (by decide))
  show ((if x % 2 = 0 then (75 : UInt8) else 25).toNat : ℚ) =
    1 / 2 * ((if x % 2 = 0 then (150 : UInt8) else 50).toNat : ℚ)
  split_ifs
  · show ((75 : ℕ) : ℚ) = 1 / 2 * ((150 : ℕ) : ℚ)
    norm_num
  · show ((25 : ℕ) : ℚ) = 1 / 2 * ((50 : ℕ) : ℚ)
    norm_num

end Exact

end LensDetector

end Lyli.Calibration
