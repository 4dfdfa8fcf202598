import Mathlib
import Lyli.Base.FoldM
import Lyli.Calibration.ArrayCalibration

/-!
# `LightfieldImage` (`image/lightfieldimage.cpp`)

The raw image is moved by the calibrated translation and sampled at the
intersections of the target grid.  An image is a function of the point
`(column, row)`; `cv::getRotationMatrix2D` and `cv::warpAffine` are parameters.

    readIntersection … = raw (n - dv, m - dh)                                       (readIntersection_moved)
    every intersection reads its lens at (n + dh, m + dv) ↔ dv + dh = 0, or none is read   (lightfieldImage_undoes_iff)

The translation is `(rows, columns)` where the matrix wants `(columns, rows)`,
and it moves the image the way the grid has moved, not back.
-/

namespace Lyli.Image

open Lyli.Calibration

/-- `cv::getRotationMatrix2D(center, angle, scale)`. -/
abbrev GetRotationMatrix2D := ℝ × ℝ → ℝ → ℝ → Matrix (Fin 2) (Fin 3) ℝ

/-- `cv::warpAffine(src, dst, T, src.size())`, for any type of pixels. -/
abbrev WarpAffine := (π : Type) → (ℤ × ℤ → π) → Matrix (Fin 2) (Fin 3) ℝ → ℤ × ℤ → π

namespace LightfieldImage

/-- Conversion of a `float` coordinate to `int`. -/
def truncate (q : ℚ) : ℤ := q.num.tdiv q.den

def translationMatrix (translation : ℝ × ℝ) : Matrix (Fin 3) (Fin 3) ℝ :=
  !![1, 0, translation.1; 0, 1, translation.2; 0, 0, 1]

/-- The input transformed according to the calibration data. -/
noncomputable def transformed (getRotationMatrix2D : GetRotationMatrix2D) (warpAffine : WarpAffine) {π : Type}
    (raw : ℤ × ℤ → π) (array : ArrayParameters) : ℤ × ℤ → π :=
  let angle := array.rotation * 180 / Real.pi
  let r := getRotationMatrix2D (0, 0) angle 1
  let t := translationMatrix array.translation
  warpAffine π raw (r * t)

/-- The pixel of the transformed image at the intersection of two lines. -/
def readIntersection {π : Type} (tmp : ℤ × ℤ → π) (horizontal vertical : LineGrid.Line) : π :=
  tmp (truncate vertical.position, truncate horizontal.position)

/-- The writes of the double loop: every intersection of lines of one subgrid, column by column. -/
def intersections {π : Type} (tmp : ℤ × ℤ → π) (grid : LineGrid) : List ((ℕ × ℕ) × π) :=
  grid.verticalLines.zipIdx.flatMap fun v =>
    grid.horizonalLines.zipIdx.filterMap fun h =>
      if h.1.subgrid = v.1.subgrid then some ((v.2 / 2, h.2), readIntersection tmp h.1 v.1) else none

/-- A write into an image of `rows` by `cols` pixels. -/
def store {π : Type} (rows cols : ℕ) (image : ℕ × ℕ → Option π) (write : (ℕ × ℕ) × π) :
    Option (ℕ × ℕ → Option π) :=
  if write.1.1 < cols ∧ write.1.2 < rows then some (Function.update image write.1 (some write.2)) else none

/-- The constructor: the image of the horizontal lines by half of the vertical ones. -/
noncomputable def lightfieldImage (getRotationMatrix2D : GetRotationMatrix2D) (warpAffine : WarpAffine) {π : Type}
    (raw : ℤ × ℤ → π) (array : ArrayParameters) : Option (ℕ × ℕ → Option π) :=
  (intersections (transformed getRotationMatrix2D warpAffine raw array) array.grid).foldlM
    (store array.grid.horizonalLines.length (array.grid.verticalLines.length / 2)) fun _ => none

/-! ## Translated images -/

/-- `T q`. -/
def applyAffine (T : Matrix (Fin 2) (Fin 3) ℝ) (q : ℤ × ℤ) : ℝ × ℝ :=
  (T 0 0 * q.1 + T 0 1 * q.2 + T 0 2, T 1 0 * q.1 + T 1 1 * q.2 + T 1 2)

/-- `dst(T q) = src(q)` for every invertible `T` that takes `q` to a pixel. -/
def WarpsForward (warpAffine : WarpAffine) : Prop :=
  ∀ (π : Type) (src : ℤ × ℤ → π) (T : Matrix (Fin 2) (Fin 3) ℝ), T 0 0 * T 1 1 - T 0 1 * T 1 0 ≠ 0 →
    ∀ q q' : ℤ × ℤ, applyAffine T q = ((q'.1 : ℝ), (q'.2 : ℝ)) → warpAffine π src T q' = src q

section Moved

variable {getRotationMatrix2D : GetRotationMatrix2D} {warpAffine : WarpAffine}
  (hrot : getRotationMatrix2D (0, 0) 0 1 = !![1, 0, 0; 0, 1, 0]) (hwarp : WarpsForward warpAffine)

theorem identity_mul_translation (translation : ℝ × ℝ) :
    (!![1, 0, 0; 0, 1, 0] : Matrix (Fin 2) (Fin 3) ℝ) * translationMatrix translation =
      !![1, 0, translation.1; 0, 1, translation.2] := by
  unfold translationMatrix
  ext i j
  fin_cases i <;> fin_cases j <;> simp [Matrix.mul_apply, Fin.sum_univ_three]

theorem truncate_intCast (n : ℤ) : truncate n = n := by
  unfold truncate
  rw [Rat.num_intCast, Rat.den_intCast]
  simp

include hrot hwarp

/-- **What is read at an intersection**, without rotation: the pixel the translation is subtracted from. -/
theorem readIntersection_moved {π : Type} (raw : ℤ × ℤ → π) (grid : LineGrid) (dv dh m n : ℤ)
    {h v : LineGrid.Line} (hm : h.position = m) (hn : v.position = n) :
    readIntersection (transformed getRotationMatrix2D warpAffine raw ⟨grid, ((dv : ℝ), (dh : ℝ)), 0⟩) h v =
      raw (n - dv, m - dh) := by
  unfold readIntersection transformed
  simp only [zero_mul, zero_div]
  rw [hrot, identity_mul_translation, hm, hn, truncate_intCast, truncate_intCast]
  apply hwarp π raw _ (by simp) (n - dv, m - dh) (n, m)
  simp [applyAffine]

/-- **The estimated translation is undone** only where the grids moved by `(dv, -dv)`: otherwise the pixel
read for an intersection is not the one its lens is at. -/
theorem lightfieldImage_undoes_iff (fitLine : FitLine) (target : LineGrid) (gridList : List PointGrid)
    (mappers : List GridMapper) (dv dh : ℤ) (hne : gridList ≠ [])
    (hh : target.horizonalLines ≠ []) (hv : target.verticalLines ≠ [])
    (hinth : ∀ l ∈ target.horizonalLines, ∃ m : ℤ, l.position = m)
    (hintv : ∀ l ∈ target.verticalLines, ∃ n : ℤ, l.position = n)
    (hg : ∀ g ∈ gridList, ArrayCalibration.MovedBy fitLine target dv dh g)
    (hlen : mappers.length = gridList.length) (hmap : ∀ m ∈ mappers, ArrayCalibration.IdentityMapper target m) :
    ∃ translation, ArrayCalibration.calibrateTranslation fitLine gridList 0 target mappers = some translation ∧
      ((∀ (π : Type) (raw : ℤ × ℤ → π) (i j : ℕ) (h v : LineGrid.Line) (m n : ℤ), target.horizonalLines[i]? = some h →
          target.verticalLines[j]? = some v → h.subgrid = v.subgrid → h.position = m → v.position = n →
          readIntersection (transformed getRotationMatrix2D warpAffine raw ⟨target, translation, 0⟩) h v =
            raw (n + dh, m + dv)) ↔
        dv + dh = 0 ∨ ∀ h ∈ target.horizonalLines, ∀ v ∈ target.verticalLines, h.subgrid ≠ v.subgrid) := by
  refine ⟨(dv, dh), ArrayCalibration.calibrateTranslation_moved hne hh hv hg hlen hmap, ?_⟩
  constructor
  · intro hall
    by_cases hread : ∀ h ∈ target.horizonalLines, ∀ v ∈ target.verticalLines, h.subgrid ≠ v.subgrid
    · exact Or.inr hread
    · left
      push Not at hread
      obtain ⟨h, hmem, v, vmem, hsub⟩ := hread
      obtain ⟨i, hi⟩ := List.getElem?_of_mem hmem
      obtain ⟨j, hj⟩ := List.getElem?_of_mem vmem
      obtain ⟨m, hm⟩ := hinth h hmem
      obtain ⟨n, hn⟩ := hintv v vmem
      -- an image that shows at every pixel where it is
      have hid := hall (ℤ × ℤ) id i j h v m n hi hj hsub hm hn
      rw [readIntersection_moved hrot hwarp id target dv dh m n hm hn] at hid
      have := (Prod.mk.inj hid).1
      omega
  · rintro (h0 | hno) π raw i j h v m n hi hj hsub hm hn
    · rw [readIntersection_moved hrot hwarp raw target dv dh m n hm hn]
      congr 2 <;> omega
    · exact absurd hsub (hno h (List.mem_of_getElem? hi) v (List.mem_of_getElem? hj))

end Moved

/-! ## An array moved by `(1, 1)` -/

/-- The rotation matrix OpenCV documents, for an angle in degrees. -/
noncomputable def rotationMatrix2D : GetRotationMatrix2D := fun center angle scale =>
  let α := scale * Real.cos (angle * Real.pi / 180)
  let β := scale * Real.sin (angle * Real.pi / 180)
  !![α, β, (1 - α) * center.1 - β * center.2; -β, α, β * center.1 + (1 - α) * center.2]

theorem rotationMatrix2D_zero : rotationMatrix2D (0, 0) 0 1 = !![1, 0, 0; 0, 1, 0] := by
  unfold rotationMatrix2D
  simp

open Classical in
/-- Forward warping of the pixels that hit a pixel. -/
noncomputable def forwardWarp : WarpAffine := fun _ src T q' =>
  if h : ∃ q : ℤ × ℤ, applyAffine T q = ((q'.1 : ℝ), (q'.2 : ℝ)) then src h.choose else src (0, 0)

theorem applyAffine_injective {T : Matrix (Fin 2) (Fin 3) ℝ} (hT : T 0 0 * T 1 1 - T 0 1 * T 1 0 ≠ 0)
    {q q' : ℤ × ℤ} (h : applyAffine T q = applyAffine T q') : q = q' := by
  obtain ⟨h₁, h₂⟩ := Prod.mk.inj h
  have e₁ : (T 0 0 * T 1 1 - T 0 1 * T 1 0) * ((q.1 : ℝ) - q'.1) = 0 := by
    linear_combination T 1 1 * h₁ - T 0 1 * h₂
  have e₂ : (T 0 0 * T 1 1 - T 0 1 * T 1 0) * ((q.2 : ℝ) - q'.2) = 0 := by
    linear_combination T 0 0 * h₂ - T 1 0 * h₁
  have f₁ : (q.1 : ℝ) = q'.1 := sub_eq_zero.mp ((mul_eq_zero.mp e₁).resolve_left hT)
  have f₂ : (q.2 : ℝ) = q'.2 := sub_eq_zero.mp ((mul_eq_zero.mp e₂).resolve_left hT)
  exact Prod.ext (by exact_mod_cast f₁) (by exact_mod_cast f₂)

theorem warpsForward_forwardWarp : WarpsForward forwardWarp := by
  intro π src T hT q q' hq
  have hex : ∃ q : ℤ × ℤ, applyAffine T q = ((q'.1 : ℝ), (q'.2 : ℝ)) := ⟨q, hq⟩
  unfold forwardWarp
  rw [dif_pos hex, applyAffine_injective hT (hex.choose_spec.trans hq.symm)]

open ArrayCalibration (crossingsTarget crossingsMapper chordFit)

/-- The array moved by `(1, 1)`. -/
def movedGrid : PointGrid := ArrayCalibration.imaged fun p => ⟨p.x + 1, p.y + 1⟩

/-- A line holds the points of one row, moved by 1, and the first of them is linked to it. -/
theorem movedGrid_horizontal : movedGrid.linesHorizontal.length = 8 ∧ ∀ e ∈ movedGrid.linesHorizontal.zipIdx,
    let pts := e.1.line.map (PointGrid.position movedGrid.storage)
    (∀ p ∈ pts, p.x = 100 * e.2 + 1) ∧ pts.headD ⟨0, 0⟩ ≠ pts.getLastD ⟨0, 0⟩ ∧
      e.1.line.head?.bind movedGrid.horizontalLineIndex = some e.2 := by
  decide +kernel

theorem movedGrid_vertical : movedGrid.linesVertical.length = 6 ∧ ∀ e ∈ movedGrid.linesVertical.zipIdx,
    let pts := e.1.line.map (PointGrid.position movedGrid.storage)
    (∀ p ∈ pts, p.y = 10 * e.2 + 1) ∧ pts.headD ⟨0, 0⟩ ≠ pts.getLastD ⟨0, 0⟩ ∧
      e.1.line.head?.bind movedGrid.verticalLineIndex = some e.2 := by
  decide +kernel

/-- An entry of a list that is computed from the indices. -/
theorem getElem?_mapRange {α : Type} {f : ℕ → α} {n i : ℕ} {a : α} (h : ((List.range n).map f)[i]? = some a) :
    i < n ∧ a = f i := by
  rw [List.getElem?_map, Option.map_eq_some_iff] at h
  obtain ⟨j, hj, rfl⟩ := h
  obtain ⟨hlt, rfl⟩ := List.getElem?_eq_some_iff.mp hj
  rw [List.length_range] at hlt
  rw [List.getElem_range]
  exact ⟨hlt, rfl⟩

theorem movedGrid_movedBy : ArrayCalibration.MovedBy chordFit crossingsTarget 1 1 movedGrid := by
  obtain ⟨hlenh, hhor⟩ := movedGrid_horizontal
  obtain ⟨hlenv, hver⟩ := movedGrid_vertical
  refine ⟨hlenh, hlenv, ?_, ?_, ?_, ?_, ?_, ?_⟩
  · intro i l t hl ht p hp
    obtain ⟨-, rfl⟩ := getElem?_mapRange ht
    rw [(hhor (l, i) (List.mk_mem_zipIdx_iff_getElem?.mpr hl)).1 _ (List.mem_map_of_mem hp), Int.cast_one]
  · intro j l t hl ht p hp
    obtain ⟨-, rfl⟩ := getElem?_mapRange ht
    rw [(hver (l, j) (List.mk_mem_zipIdx_iff_getElem?.mpr hl)).1 _ (List.mem_map_of_mem hp), Int.cast_one]
  · intro i l hl
    exact Option.bind_eq_some_iff.mp (hhor (l, i) (List.mk_mem_zipIdx_iff_getElem?.mpr hl)).2.2
  · intro j l hl
    exact Option.bind_eq_some_iff.mp (hver (l, j) (List.mk_mem_zipIdx_iff_getElem?.mpr hl)).2.2
  · intro l hl x hx
    obtain ⟨i, hi⟩ := List.getElem?_of_mem hl
    obtain ⟨-, hne, -⟩ := hhor (l, i) (List.mk_mem_zipIdx_iff_getElem?.mpr hi)
    have hfit := ArrayCalibration.chordFit_fitsLine (a := 1) (b := 0) (c := -x) (fun p hp => ?_) hne
    · rwa [Rat.cast_one, Rat.cast_zero, Rat.cast_neg] at hfit
    · obtain ⟨q, hq, rfl⟩ := List.mem_map.mp hp
      rw [hx q hq]
      ring
  · intro l hl y hy
    obtain ⟨j, hj⟩ := List.getElem?_of_mem hl
    obtain ⟨-, hne, -⟩ := hver (l, j) (List.mk_mem_zipIdx_iff_getElem?.mpr hj)
    have hfit := ArrayCalibration.chordFit_fitsLine (a := 0) (b := 1) (c := -y) (fun p hp => ?_) hne
    · rwa [Rat.cast_one, Rat.cast_zero, Rat.cast_neg] at hfit
    · obtain ⟨q, hq, rfl⟩ := List.mem_map.mp hp
      rw [hy q hq]
      ring

theorem identityMapper_crossings : ArrayCalibration.IdentityMapper crossingsTarget crossingsMapper :=
  ⟨by decide, by decide⟩

theorem lightfieldImage_undoes_iff_movedGrid :
    ∃ translation, ArrayCalibration.calibrateTranslation chordFit [movedGrid] 0 crossingsTarget [crossingsMapper] =
        some translation ∧
      ((∀ (π : Type) (raw : ℤ × ℤ → π) (i j : ℕ) (h v : LineGrid.Line) (m n : ℤ),
          crossingsTarget.horizonalLines[i]? = some h → crossingsTarget.verticalLines[j]? = some v →
          h.subgrid = v.subgrid → h.position = m → v.position = n →
          readIntersection (transformed rotationMatrix2D forwardWarp raw ⟨crossingsTarget, translation, 0⟩) h v =
            raw (n + 1, m + 1)) ↔
        (1 : ℤ) + 1 = 0 ∨
          ∀ h ∈ crossingsTarget.horizonalLines, ∀ v ∈ crossingsTarget.verticalLines, h.subgrid ≠ v.subgrid) :=
  lightfieldImage_undoes_iff rotationMatrix2D_zero warpsForward_forwardWarp chordFit crossingsTarget [movedGrid]
    [crossingsMapper] 1 1 (by simp) (by decide) (by decide)
    (by
      intro l hl
      obtain ⟨i, -, rfl⟩ := List.mem_map.mp hl
      exact ⟨(100 * i : ℕ), by push_cast; rfl⟩)
    (by
      intro l hl
      obtain ⟨j, -, rfl⟩ := List.mem_map.mp hl
      exact ⟨(10 * j : ℕ), by push_cast; rfl⟩)
    (by rw [List.forall_mem_singleton]; exact movedGrid_movedBy) rfl
    (by rw [List.forall_mem_singleton]; exact identityMapper_crossings)

/-- The lens at row 1 and column 1 is looked for at row -1 and column -1. -/
theorem movedGrid_not_undone :
    ∃ translation, ArrayCalibration.calibrateTranslation chordFit [movedGrid] 0 crossingsTarget [crossingsMapper] =
        some translation ∧
      ⟨.subgridA, 0⟩ ∈ crossingsTarget.horizonalLines ∧ ⟨.subgridA, 0⟩ ∈ crossingsTarget.verticalLines ∧
      readIntersection (transformed rotationMatrix2D forwardWarp id ⟨crossingsTarget, translation, 0⟩)
        ⟨.subgridA, 0⟩ ⟨.subgridA, 0⟩ ≠ (1, 1) := by
  have hmoved : ∀ g ∈ [movedGrid], ArrayCalibration.MovedBy chordFit crossingsTarget 1 1 g := by
    rw [List.forall_mem_singleton]
    exact movedGrid_movedBy
  have hmap : ∀ m ∈ [crossingsMapper], ArrayCalibration.IdentityMapper crossingsTarget m := by
    rw [List.forall_mem_singleton]
    exact identityMapper_crossings
  refine ⟨((1 : ℤ), (1 : ℤ)), ArrayCalibration.calibrateTranslation_moved (by simp) (by decide) (by decide) hmoved rfl
    hmap, by decide +kernel, by decide +kernel, ?_⟩
  rw [readIntersection_moved rotationMatrix2D_zero warpsForward_forwardWarp id crossingsTarget 1 1 0 0 rfl rfl]
  decide

end LightfieldImage

end Lyli.Image
