import Mathlib
import Lyli.Base.FoldM
import Lyli.Base.StdSort
import Lyli.Calibration.GridMath
import Lyli.Calibration.MathUtil

/-!
# Rotation and translation of the lens array (`calibration/calibrator.cpp`)

Lines are fitted by `cv::fitLine` (the parameter `fitLine`) and turned by the
estimated angle; the distance to the target line is measured where both meet the
middle of the image.  Exact reals; `none` is undefined behaviour or a point at
infinity.

    every line has direction (cos θ, sin θ)  →  the turned lines are parallel to (1, 0) ↔ θ ≤ 0     (calibrateRotation_straightens_iff)

`acos` returns `|θ|`, so the estimated angle turns a line with `θ > 0` further away.

    p on the turned line  ↔  p is a point of the fitted line, rotated                                (rotatedLine_iff)

    the distance is measured through the middle of the image
      ↔ the direction is (0, 1), or the line is parallel to its target                             (recordedDistance_middle_iff)

For the direction `(1, 0)` the shared constant term puts the line through the middle at height
`-imageSize / 2`.
-/

namespace Lyli.Calibration

/-- `cv::Vec4f` of a fitted line: a direction and a point of it. -/
structure LineParams where
  vx : ℝ
  vy : ℝ
  x0 : ℝ
  y0 : ℝ

/-- `cv::Vec3f`: the coefficients of `a x + b y + c = 0`, or a point in homogeneous coordinates. -/
@[ext] structure Vec3 where
  a : ℝ
  b : ℝ
  c : ℝ

/-- The parameters of the lens array. -/
structure ArrayParameters where
  grid : LineGrid
  translation : ℝ × ℝ
  rotation : ℝ

/-- `cv::fitLine` with the parameters the calibrator passes. -/
abbrev FitLine := List Point2f → LineParams

namespace ArrayCalibration

/-- Image size in pixels. -/
def imageSize : ℝ := 3280

noncomputable def atan2 (y x : ℝ) : ℝ := Complex.arg ⟨x, y⟩

/-- Find line parameters for line that best fits a line of points. -/
def findLineParams (fitLine : FitLine) (storage : PointGrid.PointStore) (line : PointGrid.Line) : LineParams :=
  fitLine (line.line.map (PointGrid.position storage))

/-- Rotate line in general form by a given angle.  The normal is that of a unit direction, so not 0. -/
noncomputable def rotateGeneralLine (line : Vec3) (angle : ℝ) : Vec3 :=
  let theta := atan2 line.b line.a
  let p := -line.c / √(line.a * line.a + line.b * line.b)
  ⟨Real.cos (theta + angle), Real.sin (theta + angle), -p⟩

/-- Convert the parametric line form to the general form. -/
def parametricToGeneral (parametric : LineParams) : Vec3 :=
  -- vy*x - vx*y + (y0*vx - x0*vy) = 0
  let d := parametric.y0 * parametric.vx - parametric.x0 * parametric.vy
  ⟨parametric.vy, -parametric.vx, d⟩

/-- The angle between a vertical line and the direction `(1, 0)`. -/
noncomputable def lineAngle (fitLine : FitLine) (storage : PointGrid.PointStore) (line : PointGrid.Line) : ℝ :=
  let lineParams := findLineParams fitLine storage line
  Real.arccos (1 * lineParams.vx + 0 * lineParams.vy)

noncomputable def calibrateRotation (fitLine : FitLine) (gridList : List PointGrid) : Option ℝ := do
  let angles ← gridList.mapM fun grid =>
    filteredAverage (grid.linesVertical.map (lineAngle fitLine grid.storage)) 2
  filteredAverage angles 2

def cross (u v : Vec3) : Vec3 :=
  ⟨u.b * v.c - u.c * v.b, u.c * v.a - u.a * v.c, u.a * v.b - u.b * v.a⟩

/-- From homogeneous coordinates. -/
noncomputable def dehomogenize (p : Vec3) : Option (ℝ × ℝ) :=
  if p.c = 0 then none else some (p.a / p.c, p.b / p.c)

/-- Signed distance of a line from a target line, along the line through the middle of the image. -/
noncomputable def lineDistance (lineParams : Vec3) (direction : ℝ × ℝ) (targetPosition : ℚ) : Option ℝ := do
  let targetParams : Vec3 := ⟨direction.1, direction.2, -targetPosition⟩
  -- orthogonal to the target line
  let intersectLineParams : Vec3 := ⟨direction.2, -direction.1, -imageSize / 2⟩
  let point1 ← dehomogenize (cross lineParams intersectLineParams)
  let point2 ← dehomogenize (cross targetParams intersectLineParams)
  let dif : ℝ × ℝ := (point1.1 - point2.1, point1.2 - point2.2)
  let sign := sgn (dif.1 * 1 + dif.2 * 1)
  return sign * √(dif.1 * dif.1 + dif.2 * dif.2)

/-- The target line that the first point of a line is mapped to. -/
noncomputable def targetLine (grid : PointGrid) (line : PointGrid.Line) (direction : ℝ × ℝ) (target : LineGrid)
    (mapper : GridMapper) : Option LineGrid.Line := do
  let front ← line.line.head?
  if direction.1 * 1 + direction.2 * 0 > 0.5 then do
    let source ← grid.horizontalLineIndex front
    let index ← mapper.mapHorizontal source
    target.horizonalLines[index]?
  else do
    let source ← grid.verticalLineIndex front
    let index ← mapper.mapVertical source
    target.verticalLines[index]?

noncomputable def findTranslation (fitLine : FitLine) (grid : PointGrid) (lines : List PointGrid.Line)
    (direction : ℝ × ℝ) (angle : ℝ) (target : LineGrid) (mapper : GridMapper) : Option ℝ := do
  let distances ← lines.mapM fun line => do
    let general := parametricToGeneral (findLineParams fitLine grid.storage line)
    let lineParams := rotateGeneralLine general angle
    let targetLine ← targetLine grid line direction target mapper
    lineDistance lineParams direction targetLine.position
  filteredAverage distances 2

/-- `(vertical, horizontal)`. -/
noncomputable def calibrateTranslation (fitLine : FitLine) (gridList : List PointGrid) (angle : ℝ)
    (target : LineGrid) (mappers : List GridMapper) : Option (ℝ × ℝ) := do
  let distances ← gridList.zipIdx.mapM fun g => do
    let mapper ← mappers[g.2]?
    let vertical ← findTranslation fitLine g.1 g.1.linesHorizontal (1, 0) (-angle) target mapper
    let horizontal ← findTranslation fitLine g.1 g.1.linesVertical (0, 1) (-angle) target mapper
    return (vertical, horizontal)
  let vertical ← filteredAverage (distances.map (·.1)) 2
  let horizontal ← filteredAverage (distances.map (·.2)) 2
  return (vertical, horizontal)

/-- The angle `calibrate` hands to `calibrateTranslation`. -/
def translationAngle (rotation : ℝ) : ℝ := -rotation

/-- The angle `findTranslation` turns the lines by, for the estimated rotation. -/
def lineTurn (rotation : ℝ) : ℝ := -translationAngle rotation

/-! ## Order of the grids -/

section Order

variable {fitLine : FitLine} {gridList gridList' : List PointGrid} (hp : gridList.Perm gridList')

include hp

theorem calibrateRotation_perm : calibrateRotation fitLine gridList = calibrateRotation fitLine gridList' :=
  bind_mapM_perm (fun _ _ h => filteredAverage_perm h 2) hp

/-- **The translation does not depend on the order of the grids**, if each comes with its mapper. -/
theorem calibrateTranslation_perm {mappers mappers' : List GridMapper} {mapperOf : PointGrid → GridMapper}
    (h : ∀ (k : ℕ) g, gridList[k]? = some g → mappers[k]? = some (mapperOf g))
    (h' : ∀ (k : ℕ) g, gridList'[k]? = some g → mappers'[k]? = some (mapperOf g)) (angle : ℝ) (target : LineGrid) :
    calibrateTranslation fitLine gridList angle target mappers =
      calibrateTranslation fitLine gridList' angle target mappers' := by
  -- the two distances of one grid
  let distance (g : PointGrid) : Option (ℝ × ℝ) := do
    let vertical ← findTranslation fitLine g g.linesHorizontal (1, 0) (-angle) target (mapperOf g)
    let horizontal ← findTranslation fitLine g g.linesVertical (0, 1) (-angle) target (mapperOf g)
    return (vertical, horizontal)
  have hdistance : ∀ {gs : List PointGrid} {ms : List GridMapper},
      (∀ (k : ℕ) g, gs[k]? = some g → ms[k]? = some (mapperOf g)) →
      (gs.zipIdx.mapM fun g : PointGrid × ℕ => do
        let mapper ← ms[g.2]?
        let vertical ← findTranslation fitLine g.1 g.1.linesHorizontal (1, 0) (-angle) target mapper
        let horizontal ← findTranslation fitLine g.1 g.1.linesVertical (0, 1) (-angle) target mapper
        return (vertical, horizontal)) = gs.mapM distance := by
    intro gs ms hms
    apply mapM_zipIdx
    intro k g hg
    rw [Nat.zero_add, hms k g hg]
    rfl
  unfold calibrateTranslation
  rw [hdistance h, hdistance h']
  refine bind_mapM_perm (fun r r' hr => ?_) hp
  rw [filteredAverage_perm (hr.map _), filteredAverage_perm (hr.map _)]

end Order

/-! ## Rotation -/

theorem arg_unit {x : ℝ} (h₁ : -Real.pi < x) (h₂ : x ≤ Real.pi) : atan2 (Real.sin x) (Real.cos x) = x := by
  have h : (⟨Real.cos x, Real.sin x⟩ : ℂ) = Complex.cos x + Complex.sin x * Complex.I := by
    apply Complex.ext
    · simp [Complex.cos_ofReal_re, Complex.sin_ofReal_im]
    · simp [Complex.cos_ofReal_im, Complex.sin_ofReal_re]
  unfold atan2
  rw [h]
  exact Complex.arg_cos_add_sin_mul_I ⟨h₁, h₂⟩

/-- The normal of a line with direction `(cos θ, sin θ)`, turned by `angle`. -/
theorem rotate_normal {l : LineParams} {θ angle : ℝ} (hθ : θ ∈ Set.Ioo (-(Real.pi / 2)) (Real.pi / 2))
    (hx : l.vx = Real.cos θ) (hy : l.vy = Real.sin θ) :
    (rotateGeneralLine (parametricToGeneral l) angle).a = Real.sin (θ + angle) := by
  obtain ⟨hlo, hhi⟩ := hθ
  have hpi := Real.pi_pos
  have hnormal : atan2 (-l.vx) l.vy = θ - Real.pi / 2 := by
    have := arg_unit (x := θ - Real.pi / 2) (by linarith) (by linarith)
    rwa [Real.sin_sub_pi_div_two, Real.cos_sub_pi_div_two, ← hx, ← hy] at this
  show Real.cos (atan2 (-l.vx) l.vy + angle) = _
  rw [hnormal, sub_add_eq_add_sub, Real.cos_sub_pi_div_two]

/-- The estimated rotation forgets the sign of the tilt. -/
theorem calibrateRotation_abs {fitLine : FitLine} {gridList : List PointGrid} {θ : ℝ} (hne : gridList ≠ [])
    (hlines : ∀ g ∈ gridList, g.linesVertical ≠ []) (hθ : θ ∈ Set.Ioo (-(Real.pi / 2)) (Real.pi / 2))
    (hfit : ∀ g ∈ gridList, ∀ l ∈ g.linesVertical, (findLineParams fitLine g.storage l).vx = Real.cos θ ∧
      (findLineParams fitLine g.storage l).vy = Real.sin θ) :
    calibrateRotation fitLine gridList = some |θ| := by
  obtain ⟨hlo, hhi⟩ := hθ
  have hpi := Real.pi_pos
  have hgrid : ∀ g ∈ gridList, filteredAverage (g.linesVertical.map (lineAngle fitLine g.storage)) 2 = some |θ| := by
    intro g hg
    refine filteredAverage_const (by simpa using hlines g hg) ?_ 2
    intro v hv
    obtain ⟨l, hl, rfl⟩ := List.mem_map.mp hv
    unfold lineAngle
    simp only [one_mul, zero_mul, add_zero]
    rw [(hfit g hg l hl).1, ← Real.cos_abs]
    exact Real.arccos_cos (abs_nonneg θ) (by rw [abs_le]; constructor <;> linarith)
  refine Option.bind_eq_some_iff.mpr ⟨gridList.map fun _ => |θ|, mapM_eq_some hgrid, ?_⟩
  refine filteredAverage_const (by simpa using hne) ?_ 2
  intro v hv
  obtain ⟨g, -, rfl⟩ := List.mem_map.mp hv
  rfl

/-- A line in general form is parallel to the direction `(1, 0)`. -/
def ParallelToX (line : Vec3) : Prop := line.a = 0

/-- **Rotation calibration straightens the lines that tilt one way only.**  Turned by the angle that
`findTranslation` applies, the vertical lines are parallel to `(1, 0)` iff they had no positive tilt. -/
theorem calibrateRotation_straightens_iff (fitLine : FitLine) (gridList : List PointGrid) (θ : ℝ)
    (hne : gridList ≠ []) (hlines : ∀ g ∈ gridList, g.linesVertical ≠ [])
    (hθ : θ ∈ Set.Ioo (-(Real.pi / 2)) (Real.pi / 2))
    (hfit : ∀ g ∈ gridList, ∀ l ∈ g.linesVertical, (findLineParams fitLine g.storage l).vx = Real.cos θ ∧
      (findLineParams fitLine g.storage l).vy = Real.sin θ) :
    ∃ rotation, calibrateRotation fitLine gridList = some rotation ∧
      ((∀ g ∈ gridList, ∀ l ∈ g.linesVertical, ParallelToX
          (rotateGeneralLine (parametricToGeneral (findLineParams fitLine g.storage l)) (lineTurn rotation))) ↔
        θ ≤ 0) := by
  refine ⟨|θ|, calibrateRotation_abs hne hlines hθ hfit, ?_⟩
  have hturn : ∀ g ∈ gridList, ∀ l ∈ g.linesVertical, (rotateGeneralLine (parametricToGeneral
      (findLineParams fitLine g.storage l)) (lineTurn |θ|)).a = Real.sin (θ + |θ|) := by
    intro g hg l hl
    rw [rotate_normal hθ (hfit g hg l hl).1 (hfit g hg l hl).2]
    unfold lineTurn translationAngle
    rw [neg_neg]
  have hsin : Real.sin (θ + |θ|) = 0 ↔ θ ≤ 0 := by
    obtain ⟨hlo, hhi⟩ := hθ
    rcases le_or_gt θ 0 with h | h
    · rw [abs_of_nonpos h, add_neg_cancel, Real.sin_zero]
      exact ⟨fun _ => h, fun _ => rfl⟩
    · rw [abs_of_pos h]
      have := Real.sin_pos_of_pos_of_lt_pi (by linarith : 0 < θ + θ) (by linarith)
      exact ⟨fun h0 => absurd h0 this.ne', fun hle => absurd hle h.not_ge⟩
  constructor
  · intro hall
    obtain ⟨g, hg⟩ := List.exists_mem_of_ne_nil _ hne
    obtain ⟨l, hl⟩ := List.exists_mem_of_ne_nil _ (hlines g hg)
    have h0 : (rotateGeneralLine (parametricToGeneral (findLineParams fitLine g.storage l)) (lineTurn |θ|)).a = 0 :=
      hall g hg l hl
    rw [hturn g hg l hl] at h0
    exact hsin.mp h0
  · intro hle g hg l hl
    exact (hturn g hg l hl).trans (hsin.mpr hle)

section Floats

attribute [local instance] Rounding.ieee

/-- Eight rows 100 pixels apart and six columns 10 pixels apart; a column crosses every other row. -/
def crossings : List Point2f :=
  (List.range 24).map fun p => ⟨100 * (2 * (p % 4) + p / 4 % 2 : ℕ), 10 * (p / 4 : ℕ)⟩

/-- The grid of an image that shows the lens of each crossing where `f` takes it. -/
def imaged (f : Point2f → Point2f) : PointGrid :=
  let pts := StdSort.insertion.sort (fun p q => decide (p.y < q.y)) (crossings.map f)
  ((PointGrid.addPoints pts).finalize .insertion).getD default

end Floats

/-- What `cv::fitLine` finds for points on a line: their direction, from the first to the last, and the first. -/
noncomputable def chordFit : FitLine := fun pts =>
  let p := pts.headD ⟨0, 0⟩
  let q := pts.getLastD ⟨0, 0⟩
  let d : ℝ × ℝ := ((q.x - p.x : ℚ), (q.y - p.y : ℚ))
  let length := √(d.1 * d.1 + d.2 * d.2)
  ⟨d.1 / length, d.2 / length, p.x, p.y⟩

/-- The direction fitted is that of any vector along the chord. -/
theorem chordFit_along {pts : List Point2f} {k u v : ℚ} (hk : 0 < k)
    (hx : (pts.getLastD ⟨0, 0⟩).x - (pts.headD ⟨0, 0⟩).x = k * u)
    (hy : (pts.getLastD ⟨0, 0⟩).y - (pts.headD ⟨0, 0⟩).y = k * v) :
    (chordFit pts).vx = u / √(u * u + v * v) ∧ (chordFit pts).vy = v / √(u * u + v * v) := by
  have hk' : (0 : ℝ) < k := by exact_mod_cast hk
  have hlength : √(((k * u : ℚ) : ℝ) * (k * u : ℚ) + (k * v : ℚ) * (k * v : ℚ)) = k * √(u * u + v * v) := by
    have hsq : ((k * u : ℚ) : ℝ) * (k * u : ℚ) + (k * v : ℚ) * (k * v : ℚ) = k * k * (u * u + v * v) := by
      push_cast
      ring
    rw [hsq, Real.sqrt_mul (mul_self_nonneg _), Real.sqrt_mul_self hk'.le]
  constructor
  · show ((pts.getLastD ⟨0, 0⟩).x - (pts.headD ⟨0, 0⟩).x : ℚ) / √(_ * _ + _ * _) = _
    rw [hx, hy, hlength, Rat.cast_mul, mul_div_mul_left _ _ hk'.ne']
  · show ((pts.getLastD ⟨0, 0⟩).y - (pts.headD ⟨0, 0⟩).y : ℚ) / √(_ * _ + _ * _) = _
    rw [hx, hy, hlength, Rat.cast_mul, mul_div_mul_left _ _ hk'.ne']

/-- The array turned by the angle `arctan s`, and stretched. -/
def diagonal (s : ℚ) : PointGrid := imaged fun p => ⟨p.x - s * p.y, p.y + s * p.x⟩

/-- The array has vertical lines, and they run along `(1, s)`. -/
theorem diagonal_vertical : ∀ s ∈ [(1 / 128 : ℚ), -1 / 128], (diagonal s).linesVertical ≠ [] ∧
    ∀ l ∈ (diagonal s).linesVertical,
      let pts := l.line.map (PointGrid.position (diagonal s).storage)
      0 < (pts.getLastD ⟨0, 0⟩).x - (pts.headD ⟨0, 0⟩).x ∧
        (pts.getLastD ⟨0, 0⟩).y - (pts.headD ⟨0, 0⟩).y =
          ((pts.getLastD ⟨0, 0⟩).x - (pts.headD ⟨0, 0⟩).x) * s := by
  decide +kernel

theorem diagonal_fit {s : ℚ} (hs : s ∈ [(1 / 128 : ℚ), -1 / 128]) : ∀ g ∈ [diagonal s], ∀ l ∈ g.linesVertical,
    (findLineParams chordFit g.storage l).vx = Real.cos (Real.arctan s) ∧
      (findLineParams chordFit g.storage l).vy = Real.sin (Real.arctan s) := by
  rw [List.forall_mem_singleton]
  intro l hl
  obtain ⟨hpos, hy⟩ := (diagonal_vertical s hs).2 l hl
  have hfit := chordFit_along hpos (mul_one _).symm hy
  rw [Rat.cast_one, one_mul, ← sq] at hfit
  rw [Real.cos_arctan, Real.sin_arctan]
  exact hfit

theorem diagonal_lines {s : ℚ} (hs : s ∈ [(1 / 128 : ℚ), -1 / 128]) : ∀ g ∈ [diagonal s], g.linesVertical ≠ [] := by
  rw [List.forall_mem_singleton]
  exact (diagonal_vertical s hs).1

theorem calibrateRotation_straightens_iff_diagonal :
    ∃ rotation, calibrateRotation chordFit [diagonal (-1 / 128)] = some rotation ∧
      ((∀ g ∈ [diagonal (-1 / 128)], ∀ l ∈ g.linesVertical, ParallelToX (rotateGeneralLine (parametricToGeneral
          (findLineParams chordFit g.storage l)) (lineTurn rotation))) ↔
        Real.arctan (-1 / 128 : ℚ) ≤ 0) :=
  calibrateRotation_straightens_iff chordFit [diagonal (-1 / 128)] (Real.arctan (-1 / 128 : ℚ)) (by simp)
    (diagonal_lines (by simp)) (Real.arctan_mem_Ioo _) (diagonal_fit (by simp))

/-- Lines with a positive tilt are turned further away. -/
theorem diagonal_not_straightened :
    ∃ rotation, calibrateRotation chordFit [diagonal (1 / 128)] = some rotation ∧
      ¬ ∀ g ∈ [diagonal (1 / 128)], ∀ l ∈ g.linesVertical, ParallelToX (rotateGeneralLine (parametricToGeneral
          (findLineParams chordFit g.storage l)) (lineTurn rotation)) := by
  have hs : (1 / 128 : ℚ) ∈ [(1 / 128 : ℚ), -1 / 128] := by simp
  have hθ := Real.arctan_mem_Ioo ((1 / 128 : ℚ) : ℝ)
  have hpos : 0 < Real.arctan ((1 / 128 : ℚ) : ℝ) := Real.arctan_pos.mpr (by norm_num)
  refine ⟨_, calibrateRotation_abs (by simp) (diagonal_lines hs) hθ (diagonal_fit hs), ?_⟩
  intro hall
  obtain ⟨l, hl⟩ := List.exists_mem_of_ne_nil _ (diagonal_vertical _ hs).1
  have h0 := hall _ (List.mem_singleton_self _) l hl
  obtain ⟨hx, hy⟩ := diagonal_fit hs _ (List.mem_singleton_self _) l hl
  unfold ParallelToX at h0
  rw [rotate_normal hθ hx hy, lineTurn, translationAngle, neg_neg, abs_of_pos hpos] at h0
  exact (Real.sin_pos_of_pos_of_lt_pi (by linarith) (by linarith [hθ.2])).ne' h0

/-! ## Points of a turned line -/

/-- `p` solves `a x + b y + c = 0`. -/
def OnLine (line : Vec3) (p : ℝ × ℝ) : Prop := line.a * p.1 + line.b * p.2 + line.c = 0

/-- Rotation about the origin. -/
noncomputable def rotatePoint (angle : ℝ) (p : ℝ × ℝ) : ℝ × ℝ :=
  (Real.cos angle * p.1 - Real.sin angle * p.2, Real.sin angle * p.1 + Real.cos angle * p.2)

/-- `(x0, y0) + s * (vx, vy)`. -/
def pointAt (l : LineParams) (s : ℝ) : ℝ × ℝ := (l.x0 + s * l.vx, l.y0 + s * l.vy)

theorem rotatePoint_neg (angle : ℝ) (p : ℝ × ℝ) : rotatePoint angle (rotatePoint (-angle) p) = p := by
  have h := Real.sin_sq_add_cos_sq angle
  ext
  · simp only [rotatePoint, Real.cos_neg, Real.sin_neg]
    linear_combination p.1 * h
  · simp only [rotatePoint, Real.cos_neg, Real.sin_neg]
    linear_combination p.2 * h

/-- The direction of the normal, whatever quadrant it is in. -/
theorem normal_atan2 (a b : ℝ) :
    √(a * a + b * b) * Real.cos (atan2 b a) = a ∧ √(a * a + b * b) * Real.sin (atan2 b a) = b := by
  have hnorm : ‖(⟨a, b⟩ : ℂ)‖ = √(a * a + b * b) := Complex.norm_def _
  unfold atan2
  constructor
  · rw [← hnorm, Complex.norm_mul_cos_arg]
  · rw [← hnorm, Complex.norm_mul_sin_arg]

/-- **Turning a line in general form turns its points.** -/
theorem rotateGeneralLine_onLine {l : Vec3} (h : 0 < l.a * l.a + l.b * l.b) (angle : ℝ) (p : ℝ × ℝ) :
    OnLine (rotateGeneralLine l angle) (rotatePoint angle p) ↔ OnLine l p := by
  obtain ⟨hcos, hsin⟩ := normal_atan2 l.a l.b
  have hr : 0 < √(l.a * l.a + l.b * l.b) := Real.sqrt_pos.mpr h
  set r := √(l.a * l.a + l.b * l.b) with hr_def
  set θ := atan2 l.b l.a
  -- along the turned normal a turned point is as far as the point was along the normal
  have hdot : Real.cos (θ + angle) * (rotatePoint angle p).1 + Real.sin (θ + angle) * (rotatePoint angle p).2 =
      Real.cos θ * p.1 + Real.sin θ * p.2 := by
    simp only [rotatePoint, Real.cos_add, Real.sin_add]
    linear_combination (Real.cos θ * p.1 + Real.sin θ * p.2) * Real.sin_sq_add_cos_sq angle
  have hscale : r * (Real.cos (θ + angle) * (rotatePoint angle p).1 + Real.sin (θ + angle) * (rotatePoint angle p).2 +
      -(-l.c / r)) = l.a * p.1 + l.b * p.2 + l.c := by
    have hc : r * (-(-l.c / r)) = l.c := by
      field_simp
    rw [hdot, mul_add, hc, mul_add, ← mul_assoc, ← mul_assoc, hcos, hsin]
  show Real.cos (θ + angle) * (rotatePoint angle p).1 + Real.sin (θ + angle) * (rotatePoint angle p).2 +
    -(-l.c / r) = 0 ↔ l.a * p.1 + l.b * p.2 + l.c = 0
  rw [← hscale]
  simp [hr.ne']

theorem direction_pos {l : LineParams} (h : (l.vx, l.vy) ≠ (0, 0)) : 0 < l.vx * l.vx + l.vy * l.vy := by
  have hne : ¬ (l.vx = 0 ∧ l.vy = 0) := by simpa using h
  have hsum : l.vx * l.vx + l.vy * l.vy ≠ 0 := fun h0 => hne (mul_self_add_mul_self_eq_zero.mp h0)
  have hnonneg : 0 ≤ l.vx * l.vx + l.vy * l.vy := add_nonneg (mul_self_nonneg _) (mul_self_nonneg _)
  exact lt_of_le_of_ne hnonneg hsum.symm

/-- The general form holds of the points of the parametric form. -/
theorem parametricToGeneral_onLine {l : LineParams} (h : (l.vx, l.vy) ≠ (0, 0)) (p : ℝ × ℝ) :
    OnLine (parametricToGeneral l) p ↔ ∃ s, p = pointAt l s := by
  have hpos := direction_pos h
  show l.vy * p.1 + -l.vx * p.2 + (l.y0 * l.vx - l.x0 * l.vy) = 0 ↔ _
  constructor
  · intro hp
    -- the foot of `p` on the direction
    obtain ⟨s, hs⟩ : ∃ s, s * (l.vx * l.vx + l.vy * l.vy) = (p.1 - l.x0) * l.vx + (p.2 - l.y0) * l.vy :=
      ⟨_, div_mul_cancel₀ _ hpos.ne'⟩
    refine ⟨s, ?_⟩
    ext
    · show p.1 = l.x0 + s * l.vx
      apply mul_right_cancel₀ hpos.ne'
      linear_combination l.vy * hp - l.vx * hs
    · show p.2 = l.y0 + s * l.vy
      apply mul_right_cancel₀ hpos.ne'
      linear_combination -l.vx * hp - l.vy * hs
  · rintro ⟨s, rfl⟩
    show l.vy * (l.x0 + s * l.vx) + -l.vx * (l.y0 + s * l.vy) + (l.y0 * l.vx - l.x0 * l.vy) = 0
    ring

/-- **Rotating a fitted line rotates its points.** -/
theorem rotatedLine_iff (l : LineParams) (h : (l.vx, l.vy) ≠ (0, 0)) (angle : ℝ) (p : ℝ × ℝ) :
    OnLine (rotateGeneralLine (parametricToGeneral l) angle) p ↔ ∃ s, p = rotatePoint angle (pointAt l s) := by
  have hnormal : 0 < (parametricToGeneral l).a * (parametricToGeneral l).a +
      (parametricToGeneral l).b * (parametricToGeneral l).b := by
    have := direction_pos h
    show 0 < l.vy * l.vy + -l.vx * -l.vx
    linarith
  have hback := rotatePoint_neg angle p
  constructor
  · intro hp
    rw [← hback, rotateGeneralLine_onLine hnormal, parametricToGeneral_onLine h] at hp
    obtain ⟨s, hs⟩ := hp
    exact ⟨s, by rw [← hs, hback]⟩
  · rintro ⟨s, rfl⟩
    rw [rotateGeneralLine_onLine hnormal, parametricToGeneral_onLine h]
    exact ⟨s, rfl⟩

/-- A line that does not pass through the origin, turned by a right angle. -/
theorem rotatedLine_iff_quarter :
    OnLine (rotateGeneralLine (parametricToGeneral ⟨1, 1, 0, 1⟩) (Real.pi / 2)) (-1, 0) ↔
      ∃ s, ((-1, 0) : ℝ × ℝ) = rotatePoint (Real.pi / 2) (pointAt ⟨1, 1, 0, 1⟩ s) :=
  rotatedLine_iff ⟨1, 1, 0, 1⟩ (by simp) (Real.pi / 2) (-1, 0)

/-! ## Translation -/

/-- The fitted line is `a x + b y + c = 0`, with a unit direction. -/
structure FitsLine (l : LineParams) (a b c : ℝ) : Prop where
  unit : l.vx * l.vx + l.vy * l.vy = 1
  direction : a * l.vx + b * l.vy = 0
  point : a * l.x0 + b * l.y0 + c = 0

/-- Turned by 0, a line with a unit normal stays as it is. -/
theorem rotateGeneralLine_zero {l : Vec3} (h : l.a * l.a + l.b * l.b = 1) : rotateGeneralLine l 0 = l := by
  have hnorm : ‖(⟨l.a, l.b⟩ : ℂ)‖ = 1 := by
    rw [Complex.norm_def, Complex.normSq_mk, h, Real.sqrt_one]
  have hne : (⟨l.a, l.b⟩ : ℂ) ≠ 0 := by
    intro h0
    rw [h0, norm_zero] at hnorm
    exact zero_ne_one hnorm
  apply Vec3.ext
  · show Real.cos (Complex.arg ⟨l.a, l.b⟩ + 0) = l.a
    rw [add_zero, Complex.cos_arg hne, hnorm, div_one]
  · show Real.sin (Complex.arg ⟨l.a, l.b⟩ + 0) = l.b
    rw [add_zero, Complex.sin_arg, hnorm, div_one]
  · show -(-l.c / √(l.a * l.a + l.b * l.b)) = l.c
    rw [h, Real.sqrt_one, div_one, neg_neg]

theorem general_unit {l : LineParams} (h : l.vx * l.vx + l.vy * l.vy = 1) :
    (parametricToGeneral l).a * (parametricToGeneral l).a + (parametricToGeneral l).b * (parametricToGeneral l).b = 1 := by
  unfold parametricToGeneral
  simp only
  linarith

theorem sgn_mul_sqrt (v : ℝ) : sgn v * √(v * v) = v := by
  rw [Real.sqrt_mul_self_eq_abs, sgn_mul_abs]

theorem lineDistance_some {l : Vec3} {direction : ℝ × ℝ} {t : ℚ} {p q : ℝ × ℝ}
    (hp : dehomogenize (cross l ⟨direction.2, -direction.1, -imageSize / 2⟩) = some p)
    (hq : dehomogenize (cross ⟨direction.1, direction.2, -t⟩ ⟨direction.2, -direction.1, -imageSize / 2⟩) = some q) :
    lineDistance l direction t = some (sgn ((p.1 - q.1) * 1 + (p.2 - q.2) * 1) *
      √((p.1 - q.1) * (p.1 - q.1) + (p.2 - q.2) * (p.2 - q.2))) := by
  simp only [lineDistance, hp, hq]
  rfl

theorem dehomogenize_some {p : Vec3} {x y : ℝ} (hc : p.c ≠ 0) (ha : p.a = x * p.c) (hb : p.b = y * p.c) :
    dehomogenize p = some (x, y) := by
  unfold dehomogenize
  rw [if_neg hc, ha, hb]
  field_simp

/-- For `(1, 0)` both lines meet the line through the middle at height `-imageSize / 2`. -/
theorem lineDistance_x {l : Vec3} (ha : l.a ≠ 0) (t : ℚ) :
    lineDistance l (1, 0) t = some (-(l.b * (-imageSize / 2) + l.c) / l.a - t) := by
  have hp : dehomogenize (cross l ⟨0, -1, -imageSize / 2⟩) =
      some (-(l.b * (-imageSize / 2) + l.c) / l.a, -imageSize / 2) := by
    refine dehomogenize_some ?_ ?_ ?_ <;> simp only [cross]
    · simpa using ha
    · field_simp
      ring
    · ring
  have hq : dehomogenize (cross ⟨1, 0, -t⟩ ⟨0, -1, -imageSize / 2⟩) = some ((t : ℝ), -imageSize / 2) := by
    refine dehomogenize_some ?_ ?_ ?_ <;> simp only [cross]
    · norm_num
    · ring
    · ring
  rw [lineDistance_some hp hq]
  simp only [sub_self, mul_zero, add_zero, mul_one]
  rw [sgn_mul_sqrt]

/-- For `(0, 1)` they meet it at `imageSize / 2`. -/
theorem lineDistance_y {l : Vec3} (hb : l.b ≠ 0) (t : ℚ) :
    lineDistance l (0, 1) t = some (-(l.a * (imageSize / 2) + l.c) / l.b - t) := by
  have hp : dehomogenize (cross l ⟨1, -0, -imageSize / 2⟩) =
      some (imageSize / 2, -(l.a * (imageSize / 2) + l.c) / l.b) := by
    refine dehomogenize_some ?_ ?_ ?_ <;> simp only [cross]
    · simpa using hb
    · ring
    · field_simp
      ring
  have hq : dehomogenize (cross ⟨0, 1, -t⟩ ⟨1, -0, -imageSize / 2⟩) = some (imageSize / 2, (t : ℝ)) := by
    refine dehomogenize_some ?_ ?_ ?_ <;> simp only [cross]
    · norm_num
    · ring
    · ring
  rw [lineDistance_some hp hq]
  simp only [sub_self, mul_zero, zero_add, mul_one]
  rw [sgn_mul_sqrt]

/-- The line `x = X` is `X - t` away from the horizontal target line at `t`. -/
theorem lineDistance_horizontal {l : LineParams} {X : ℝ} (h : FitsLine l 1 0 (-X)) (t : ℚ) :
    lineDistance (rotateGeneralLine (parametricToGeneral l) 0) (1, 0) t = some (X - t) := by
  obtain ⟨hunit, hdir, hpoint⟩ := h
  have hx : l.vx = 0 := by linarith
  have hX : l.x0 = X := by linarith
  have hy : l.vy ≠ 0 := by
    intro h0
    rw [hx, h0] at hunit
    norm_num at hunit
  rw [rotateGeneralLine_zero (general_unit hunit), lineDistance_x hy]
  simp only [parametricToGeneral, hx, hX, Option.some.injEq]
  field_simp
  ring

/-- The line `y = Y` is `Y - t` away from the vertical target line at `t`. -/
theorem lineDistance_vertical {l : LineParams} {Y : ℝ} (h : FitsLine l 0 1 (-Y)) (t : ℚ) :
    lineDistance (rotateGeneralLine (parametricToGeneral l) 0) (0, 1) t = some (Y - t) := by
  obtain ⟨hunit, hdir, hpoint⟩ := h
  have hy : l.vy = 0 := by linarith
  have hY : l.y0 = Y := by linarith
  have hx : l.vx ≠ 0 := by
    intro h0
    rw [hy, h0] at hunit
    norm_num at hunit
  rw [rotateGeneralLine_zero (general_unit hunit), lineDistance_y (neg_ne_zero.mpr hx)]
  simp only [parametricToGeneral, hy, hY, Option.some.injEq]
  field_simp
  ring

/-! ## The middle of the image -/

/-- The line fitted to the points of a line, turned by `angle`. -/
noncomputable def turnedLine (fitLine : FitLine) (grid : PointGrid) (line : PointGrid.Line) (angle : ℝ) : Vec3 :=
  rotateGeneralLine (parametricToGeneral (findLineParams fitLine grid.storage line)) angle

/-- The distance that `findTranslation` records for a line. -/
noncomputable def recordedDistance (fitLine : FitLine) (grid : PointGrid) (direction : ℝ × ℝ) (angle : ℝ)
    (target : LineGrid) (mapper : GridMapper) (line : PointGrid.Line) : Option ℝ := do
  let targetLine ← targetLine grid line direction target mapper
  lineDistance (turnedLine fitLine grid line angle) direction targetLine.position

theorem findTranslation_eq (fitLine : FitLine) (grid : PointGrid) (lines : List PointGrid.Line)
    (direction : ℝ × ℝ) (angle : ℝ) (target : LineGrid) (mapper : GridMapper) :
    findTranslation fitLine grid lines direction angle target mapper =
      (lines.mapM (recordedDistance fitLine grid direction angle target mapper)).bind (filteredAverage · 2) := rfl

/-- `x(y = 1640) - t` for the direction `(1, 0)`, `y(x = 1640) - t` for `(0, 1)`. -/
noncomputable def distanceAtMiddle (line : Vec3) (direction : ℝ × ℝ) (t : ℝ) : ℝ :=
  if direction = (1, 0) then -(line.b * (imageSize / 2) + line.c) / line.a - t
  else -(line.a * (imageSize / 2) + line.c) / line.b - t

/-- The line meets the orthogonal of the target line: its normal is not orthogonal to the direction. -/
def MeetsMiddle (line : Vec3) (direction : ℝ × ℝ) : Prop := line.a * direction.1 + line.b * direction.2 ≠ 0

/-- **Only one direction is measured along the middle of the image.**  For `(1, 0)` a line has to be
parallel to its target line for the height not to matter. -/
theorem recordedDistance_middle_iff (fitLine : FitLine) (grid : PointGrid) {direction : ℝ × ℝ} (angle : ℝ)
    (target : LineGrid) (mapper : GridMapper) (line : PointGrid.Line) {t : LineGrid.Line}
    (hdir : direction = (1, 0) ∨ direction = (0, 1))
    (ht : targetLine grid line direction target mapper = some t)
    (hmeets : MeetsMiddle (turnedLine fitLine grid line angle) direction) :
    recordedDistance fitLine grid direction angle target mapper line =
        some (distanceAtMiddle (turnedLine fitLine grid line angle) direction t.position) ↔
      direction = (0, 1) ∨ (turnedLine fitLine grid line angle).b = 0 := by
  have hrec : recordedDistance fitLine grid direction angle target mapper line =
      lineDistance (turnedLine fitLine grid line angle) direction t.position := by
    unfold recordedDistance
    rw [ht]
    rfl
  rw [hrec]
  generalize turnedLine fitLine grid line angle = l at hmeets
  unfold distanceAtMiddle
  unfold MeetsMiddle at hmeets
  rcases hdir with rfl | rfl
  · have ha : l.a ≠ 0 := by simpa using hmeets
    have hsize : imageSize ≠ 0 := by norm_num [imageSize]
    rw [if_pos rfl, lineDistance_x ha, Option.some.injEq, sub_left_inj, div_left_inj' ha, neg_inj,
      add_left_inj]
    constructor
    · intro h
      have h0 : l.b * imageSize = 0 := by linarith
      exact Or.inr ((mul_eq_zero.mp h0).resolve_right hsize)
    · rintro (h | h)
      · simp at h
      · rw [h, zero_mul, zero_mul]
  · have hb : l.b ≠ 0 := by simpa using hmeets
    rw [if_neg (by simp), lineDistance_y hb]
    exact ⟨fun _ => Or.inl rfl, fun _ => rfl⟩

/-- The rows and columns of the array, as `LineGrid` lines. -/
def crossingsTarget : LineGrid where
  horizonalLines := (List.range 8).map fun i : ℕ => ⟨if i % 2 = 0 then .subgridA else .subgridB, 100 * i⟩
  verticalLines := (List.range 6).map fun j : ℕ => ⟨if j % 2 = 0 then .subgridA else .subgridB, 10 * j⟩

def crossingsMapper : GridMapper := ⟨List.range 8, List.range 6⟩

/-- The array whose horizontal lines lean by the angle `arctan (1 / 128)`. -/
def leaning : PointGrid := diagonal (1 / 128)

/-- Its first horizontal line, which starts at `(0, 0)`. -/
def leaningLine : PointGrid.Line := leaning.linesHorizontal.headD {}

theorem leaningLine_chord :
    let pts := leaningLine.line.map (PointGrid.position leaning.storage)
    pts.headD ⟨0, 0⟩ = ⟨0, 0⟩ ∧ 0 < (pts.getLastD ⟨0, 0⟩).y ∧
      (pts.getLastD ⟨0, 0⟩).x = (pts.getLastD ⟨0, 0⟩).y * (-1 / 128) := by
  decide +kernel

theorem leaningLine_link : leaningLine.line.head?.bind leaning.horizontalLineIndex = some 0 := by
  decide +kernel

theorem leaning_targetLine : targetLine leaning leaningLine (1, 0) crossingsTarget crossingsMapper =
    some { position := 0 } := by
  obtain ⟨p, hp, hlink⟩ := Option.bind_eq_some_iff.mp leaningLine_link
  have hfirst : ((crossingsMapper.mapHorizontal 0).bind fun index => crossingsTarget.horizonalLines[index]?) =
      some { position := 0 } := by decide +kernel
  unfold targetLine
  rw [hp]
  show (if _ then _ else _) = _
  rw [if_pos (by norm_num), hlink]
  exact hfirst

theorem leaning_turnedLine : ∃ n > 0, turnedLine chordFit leaning leaningLine 0 = ⟨1 / n, 1 / 128 / n, 0⟩ := by
  obtain ⟨hp, hpos, hx⟩ := leaningLine_chord
  have hx0 : (findLineParams chordFit leaning.storage leaningLine).x0 = 0 := by
    show (((leaningLine.line.map (PointGrid.position leaning.storage)).headD ⟨0, 0⟩).x : ℝ) = 0
    rw [hp, Rat.cast_zero]
  have hy0 : (findLineParams chordFit leaning.storage leaningLine).y0 = 0 := by
    show (((leaningLine.line.map (PointGrid.position leaning.storage)).headD ⟨0, 0⟩).y : ℝ) = 0
    rw [hp, Rat.cast_zero]
  obtain ⟨hvx, hvy⟩ : (findLineParams chordFit leaning.storage leaningLine).vx = _ ∧
      (findLineParams chordFit leaning.storage leaningLine).vy = _ :=
    chordFit_along hpos (u := -1 / 128) (v := 1) (by rw [hp, sub_zero, hx]) (by rw [hp, sub_zero, mul_one])
  have hn : 0 < √(((-1 / 128 : ℚ) : ℝ) * (-1 / 128 : ℚ) + (1 : ℚ) * (1 : ℚ)) := Real.sqrt_pos.mpr (by norm_num)
  have hsq := Real.mul_self_sqrt (Real.sqrt_pos.mp hn).le
  unfold turnedLine
  generalize findLineParams chordFit leaning.storage leaningLine = l at hx0 hy0 hvx hvy
  generalize √(((-1 / 128 : ℚ) : ℝ) * (-1 / 128 : ℚ) + (1 : ℚ) * (1 : ℚ)) = n at hvx hvy hn hsq
  have hunit : l.vx * l.vx + l.vy * l.vy = 1 := by
    rw [hvx, hvy, div_mul_div_comm, div_mul_div_comm, ← add_div, hsq]
    exact div_self (by norm_num)
  refine ⟨n, hn, ?_⟩
  rw [rotateGeneralLine_zero (general_unit hunit)]
  apply Vec3.ext
  · show l.vy = 1 / n
    rw [hvy, Rat.cast_one]
  · show -l.vx = 1 / 128 / n
    rw [hvx]
    push_cast
    ring
  · show l.y0 * l.vx - l.x0 * l.vy = 0
    rw [hx0, hy0, zero_mul, zero_mul, sub_zero]

theorem recordedDistance_middle_iff_leaning :
    recordedDistance chordFit leaning (1, 0) 0 crossingsTarget crossingsMapper leaningLine =
        some (distanceAtMiddle (turnedLine chordFit leaning leaningLine 0) (1, 0) (0 : ℚ)) ↔
      ((1, 0) : ℝ × ℝ) = (0, 1) ∨ (turnedLine chordFit leaning leaningLine 0).b = 0 := by
  refine recordedDistance_middle_iff chordFit leaning 0 crossingsTarget crossingsMapper leaningLine (Or.inl rfl)
    leaning_targetLine ?_
  obtain ⟨n, hn, hline⟩ := leaning_turnedLine
  rw [hline]
  simp [MeetsMiddle, hn.ne']

/-- The line `128 x = -y` meets the middle at `x = -205/16`; the distance recorded is `205/16`. -/
theorem leaning_not_middle :
    targetLine leaning leaningLine (1, 0) crossingsTarget crossingsMapper = some { position := 0 } ∧
      MeetsMiddle (turnedLine chordFit leaning leaningLine 0) (1, 0) ∧
      distanceAtMiddle (turnedLine chordFit leaning leaningLine 0) (1, 0) (0 : ℚ) = -(205 / 16) ∧
      recordedDistance chordFit leaning (1, 0) 0 crossingsTarget crossingsMapper leaningLine = some (205 / 16) := by
  obtain ⟨n, hn, hline⟩ := leaning_turnedLine
  have hn0 := hn.ne'
  refine ⟨leaning_targetLine, ?_, ?_, ?_⟩
  · rw [hline]
    simp [MeetsMiddle, hn0]
  · rw [hline]
    simp only [distanceAtMiddle, imageSize, if_true]
    field_simp
    norm_num
  · unfold recordedDistance
    rw [leaning_targetLine, hline]
    show lineDistance _ _ _ = _
    rw [lineDistance_x (by simp [hn0])]
    simp only [imageSize, Option.some.injEq]
    field_simp
    norm_num

/-- The lines of a grid are those of the target, moved by `dv` in x and by `dh` in y. -/
structure MovedBy (fitLine : FitLine) (target : LineGrid) (dv dh : ℤ) (g : PointGrid) : Prop where
  lengthHorizontal : g.linesHorizontal.length = target.horizonalLines.length
  lengthVertical : g.linesVertical.length = target.verticalLines.length
  horizontal : ∀ (i : ℕ) (l : PointGrid.Line) (t : LineGrid.Line), g.linesHorizontal[i]? = some l →
    target.horizonalLines[i]? = some t → ∀ p ∈ l.line, (PointGrid.position g.storage p).x = t.position + dv
  vertical : ∀ (j : ℕ) (l : PointGrid.Line) (t : LineGrid.Line), g.linesVertical[j]? = some l →
    target.verticalLines[j]? = some t → ∀ p ∈ l.line, (PointGrid.position g.storage p).y = t.position + dh
  /-- the first point of a line is linked to it -/
  linkHorizontal : ∀ (i : ℕ) (l : PointGrid.Line), g.linesHorizontal[i]? = some l →
    ∃ p, l.line.head? = some p ∧ g.horizontalLineIndex p = some i
  linkVertical : ∀ (j : ℕ) (l : PointGrid.Line), g.linesVertical[j]? = some l →
    ∃ p, l.line.head? = some p ∧ g.verticalLineIndex p = some j
  /-- the exact line is fitted to each line -/
  fitHorizontal : ∀ l ∈ g.linesHorizontal, ∀ x : ℚ, (∀ p ∈ l.line, (PointGrid.position g.storage p).x = x) →
    FitsLine (findLineParams fitLine g.storage l) 1 0 (-x)
  fitVertical : ∀ l ∈ g.linesVertical, ∀ y : ℚ, (∀ p ∈ l.line, (PointGrid.position g.storage p).y = y) →
    FitsLine (findLineParams fitLine g.storage l) 0 1 (-y)

/-- The mapper takes every line to the target line of the same index. -/
structure IdentityMapper (target : LineGrid) (mapper : GridMapper) : Prop where
  horizontal : ∀ i < target.horizonalLines.length, mapper.mapHorizontal i = some i
  vertical : ∀ j < target.verticalLines.length, mapper.mapVertical j = some j

section Moved

variable {fitLine : FitLine} {target : LineGrid} {dv dh : ℤ} {g : PointGrid} {mapper : GridMapper}
  (hg : MovedBy fitLine target dv dh g) (hm : IdentityMapper target mapper)

include hg hm

theorem findTranslation_horizontal (hne : target.horizonalLines ≠ []) :
    findTranslation fitLine g g.linesHorizontal (1, 0) 0 target mapper = some (dv : ℝ) := by
  have hline : ∀ l ∈ g.linesHorizontal, (do
      let targetLine ← targetLine g l (1, 0) target mapper
      lineDistance (rotateGeneralLine (parametricToGeneral (findLineParams fitLine g.storage l)) 0) (1, 0)
        targetLine.position) = some (dv : ℝ) := by
    intro l hl
    obtain ⟨i, hi⟩ := List.getElem?_of_mem hl
    have hlt := (List.getElem?_eq_some_iff.mp hi).1
    rw [hg.lengthHorizontal] at hlt
    obtain ⟨p, hp, hlink⟩ := hg.linkHorizontal i l hi
    have ht : target.horizonalLines[i]? = some target.horizonalLines[i] := List.getElem?_eq_getElem hlt
    have htarget : targetLine g l (1, 0) target mapper = some target.horizonalLines[i] := by
      unfold targetLine
      rw [hp]
      show (if _ then _ else _) = _
      rw [if_pos (by norm_num), hlink]
      show (mapper.mapHorizontal i).bind _ = _
      rw [hm.horizontal i hlt]
      exact ht
    have hfit := hg.fitHorizontal l hl _ (hg.horizontal i l _ hi ht)
    refine Option.bind_eq_some_iff.mpr ⟨_, htarget, ?_⟩
    rw [lineDistance_horizontal hfit]
    push_cast
    rw [add_sub_cancel_left]
  refine Option.bind_eq_some_iff.mpr ⟨g.linesHorizontal.map fun _ => (dv : ℝ), mapM_eq_some hline, ?_⟩
  refine filteredAverage_const ?_ ?_ 2
  · rw [← List.length_pos_iff, List.length_map, hg.lengthHorizontal]
    exact List.length_pos_iff.mpr hne
  · intro v hv
    obtain ⟨l, -, rfl⟩ := List.mem_map.mp hv
    rfl

theorem findTranslation_vertical (hne : target.verticalLines ≠ []) :
    findTranslation fitLine g g.linesVertical (0, 1) 0 target mapper = some (dh : ℝ) := by
  have hline : ∀ l ∈ g.linesVertical, (do
      let targetLine ← targetLine g l (0, 1) target mapper
      lineDistance (rotateGeneralLine (parametricToGeneral (findLineParams fitLine g.storage l)) 0) (0, 1)
        targetLine.position) = some (dh : ℝ) := by
    intro l hl
    obtain ⟨j, hj⟩ := List.getElem?_of_mem hl
    have hlt := (List.getElem?_eq_some_iff.mp hj).1
    rw [hg.lengthVertical] at hlt
    obtain ⟨p, hp, hlink⟩ := hg.linkVertical j l hj
    have ht : target.verticalLines[j]? = some target.verticalLines[j] := List.getElem?_eq_getElem hlt
    have htarget : targetLine g l (0, 1) target mapper = some target.verticalLines[j] := by
      unfold targetLine
      rw [hp]
      show (if _ then _ else _) = _
      rw [if_neg (by norm_num), hlink]
      show (mapper.mapVertical j).bind _ = _
      rw [hm.vertical j hlt]
      exact ht
    have hfit := hg.fitVertical l hl _ (hg.vertical j l _ hj ht)
    refine Option.bind_eq_some_iff.mpr ⟨_, htarget, ?_⟩
    rw [lineDistance_vertical hfit]
    push_cast
    rw [add_sub_cancel_left]
  refine Option.bind_eq_some_iff.mpr ⟨g.linesVertical.map fun _ => (dh : ℝ), mapM_eq_some hline, ?_⟩
  refine filteredAverage_const ?_ ?_ 2
  · rw [← List.length_pos_iff, List.length_map, hg.lengthVertical]
    exact List.length_pos_iff.mpr hne
  · intro v hv
    obtain ⟨l, -, rfl⟩ := List.mem_map.mp hv
    rfl

end Moved

/-- **The estimated translation** of moved grids is `(dv, dh)`: x, the raw row, first. -/
theorem calibrateTranslation_moved {fitLine : FitLine} {target : LineGrid} {dv dh : ℤ} {gridList : List PointGrid}
    {mappers : List GridMapper} (hne : gridList ≠ []) (hh : target.horizonalLines ≠ [])
    (hv : target.verticalLines ≠ []) (hg : ∀ g ∈ gridList, MovedBy fitLine target dv dh g)
    (hlen : mappers.length = gridList.length) (hm : ∀ m ∈ mappers, IdentityMapper target m) :
    calibrateTranslation fitLine gridList 0 target mappers = some ((dv : ℝ), (dh : ℝ)) := by
  have hgrid : ∀ g ∈ gridList.zipIdx, (do
      let mapper ← mappers[g.2]?
      let vertical ← findTranslation fitLine g.1 g.1.linesHorizontal (1, 0) (-0) target mapper
      let horizontal ← findTranslation fitLine g.1 g.1.linesVertical (0, 1) (-0) target mapper
      return (vertical, horizontal)) = some ((dv : ℝ), (dh : ℝ)) := by
    rintro ⟨g, i⟩ hgi
    have hi := List.mk_mem_zipIdx_iff_getElem?.mp hgi
    have hlt := (List.getElem?_eq_some_iff.mp hi).1
    rw [← hlen] at hlt
    have hmap := hm mappers[i] (List.getElem_mem hlt)
    have hmoved := hg g (List.mem_of_getElem? hi)
    refine Option.bind_eq_some_iff.mpr ⟨_, List.getElem?_eq_getElem hlt, ?_⟩
    rw [neg_zero, findTranslation_horizontal hmoved hmap hh, findTranslation_vertical hmoved hmap hv]
    rfl
  have hconst : ∀ f : ℝ × ℝ → ℝ, filteredAverage ((gridList.zipIdx.map fun _ => ((dv : ℝ), (dh : ℝ))).map f) 2 =
      some (f (dv, dh)) := by
    intro f
    refine filteredAverage_const (by simpa using hne) ?_ 2
    intro v hv
    obtain ⟨p, hp, rfl⟩ := List.mem_map.mp hv
    obtain ⟨g, -, rfl⟩ := List.mem_map.mp hp
    rfl
  refine Option.bind_eq_some_iff.mpr ⟨_, mapM_eq_some hgrid, ?_⟩
  rw [hconst, hconst]
  rfl

/-- Points on a line are fitted by it. -/
theorem chordFit_fitsLine {pts : List Point2f} {a b c : ℚ} (hon : ∀ p ∈ pts, a * p.x + b * p.y + c = 0)
    (hne : pts.headD ⟨0, 0⟩ ≠ pts.getLastD ⟨0, 0⟩) : FitsLine (chordFit pts) a b c := by
  cases pts with
  | nil => exact absurd rfl hne
  | cons p rest =>
    have hp := hon p List.mem_cons_self
    have hq := hon ((p :: rest).getLastD ⟨0, 0⟩) (by rw [List.getLastD_cons]; exact List.getLastD_mem_cons)
    unfold chordFit
    rw [List.headD_cons] at hne ⊢
    generalize (p :: rest).getLastD ⟨0, 0⟩ = q at hne hq
    have hd : (0 : ℝ) < (q.x - p.x : ℚ) * (q.x - p.x : ℚ) + (q.y - p.y : ℚ) * (q.y - p.y : ℚ) := by
      refine direction_pos (l := ⟨(q.x - p.x : ℚ), (q.y - p.y : ℚ), 0, 0⟩) fun h0 => hne ?_
      obtain ⟨hx, hy⟩ := Prod.mk.inj h0
      rw [Rat.cast_eq_zero, sub_eq_zero] at hx hy
      cases p
      cases q
      rw [Point2f.mk.injEq]
      exact ⟨hx.symm, hy.symm⟩
    refine ⟨?_, ?_, by simpa using (Rat.cast_eq_zero (α := ℝ)).mpr hp⟩
    · show _ / √_ * (_ / √_) + _ / √_ * (_ / √_) = 1
      rw [div_mul_div_comm, div_mul_div_comm, ← add_div, Real.mul_self_sqrt hd.le]
      exact div_self hd.ne'
    · have horth : (a : ℝ) * (q.x - p.x : ℚ) + b * (q.y - p.y : ℚ) = 0 := by
        exact_mod_cast show a * (q.x - p.x) + b * (q.y - p.y) = 0 by linarith
      show (a : ℝ) * (_ / √_) + b * (_ / √_) = 0
      rw [mul_div_assoc', mul_div_assoc', ← add_div, horth, zero_div]

end ArrayCalibration

end Lyli.Calibration
