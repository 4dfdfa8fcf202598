import Mathlib
import Lyli.Calibration.GridMathClusters
import Lyli.Image.LightfieldImage

/-!
# What the light-field image is filled with

Vertical line `y` writes into column `y / 2`, at the horizontal lines with its
label.  A pixel is written once iff the two lines of its column have different
labels; a last line without a partner writes beyond the last column.

    FillsOnce grid  ↔  no horizontal lines, or the lines of each column differ and
                       no horizontal line has the label of an unpaired last line       (fillsOnce_iff)
-/

namespace Lyli.Image.LightfieldImage

open Lyli.Calibration

/-- The pixels the double loop addresses, in order. -/
def writes (grid : LineGrid) : List (ℕ × ℕ) := (intersections (fun _ => ()) grid).map Prod.fst

/-- Every pixel is assigned exactly once and no pixel outside is addressed. -/
structure FillsOnce (grid : LineGrid) : Prop where
  inside : ∀ w ∈ writes grid, w.1 < grid.verticalLines.length / 2 ∧ w.2 < grid.horizonalLines.length
  once : ∀ x < grid.verticalLines.length / 2, ∀ y < grid.horizonalLines.length, (writes grid).count (x, y) = 1

/-- The two lines of every column have different labels, and no horizontal line has the label of a
vertical line without a partner. -/
structure ColumnsPaired (grid : LineGrid) : Prop where
  differ : ∀ (x : ℕ) (a b : LineGrid.Line), grid.verticalLines[2 * x]? = some a → grid.verticalLines[2 * x + 1]? = some b →
    a.subgrid ≠ b.subgrid
  unpaired : ∀ (x : ℕ) (a : LineGrid.Line), grid.verticalLines[2 * x]? = some a → grid.verticalLines.length = 2 * x + 1 →
    ∀ h ∈ grid.horizonalLines, h.subgrid ≠ a.subgrid

/-! ## The writes of one line -/

/-- The writes of the vertical line `v` with index `i`. -/
def lineWrites (horizonalLines : List LineGrid.Line) (v : LineGrid.Line × ℕ) : List (ℕ × ℕ) :=
  horizonalLines.zipIdx.filterMap fun h => if h.1.subgrid = v.1.subgrid then some (v.2 / 2, h.2) else none

/-- The pixels do not depend on the image that is read. -/
theorem intersections_writes {π : Type} (tmp : ℤ × ℤ → π) (grid : LineGrid) :
    (intersections tmp grid).map Prod.fst = grid.verticalLines.zipIdx.flatMap (lineWrites grid.horizonalLines) := by
  unfold intersections lineWrites
  rw [List.map_flatMap]
  refine congrArg (fun f => grid.verticalLines.zipIdx.flatMap f) (funext fun v => ?_)
  rw [List.map_filterMap]
  refine congrArg (fun f => grid.horizonalLines.zipIdx.filterMap f) (funext fun h => ?_)
  split
  · rfl
  · rfl

theorem writes_eq (grid : LineGrid) :
    writes grid = grid.verticalLines.zipIdx.flatMap (lineWrites grid.horizonalLines) := intersections_writes _ grid

section Line

variable {hs : List LineGrid.Line} {v : LineGrid.Line × ℕ} {x y : ℕ}

theorem mem_lineWrites : (x, y) ∈ lineWrites hs v ↔ v.2 / 2 = x ∧ ∃ h, hs[y]? = some h ∧ h.subgrid = v.1.subgrid := by
  unfold lineWrites
  rw [List.mem_filterMap]
  constructor
  · rintro ⟨⟨h, j⟩, hmem, hw⟩
    split at hw
    · next hsub =>
      obtain ⟨rfl, rfl⟩ := Prod.mk.inj (Option.some.inj hw)
      exact ⟨rfl, h, List.mk_mem_zipIdx_iff_getElem?.mp hmem, hsub⟩
    · cases hw
  · rintro ⟨rfl, h, hget, hsub⟩
    exact ⟨(h, y), List.mk_mem_zipIdx_iff_getElem?.mpr hget, if_pos hsub⟩

/-- One line writes no pixel twice. -/
theorem lineWrites_nodup (hs : List LineGrid.Line) (v : LineGrid.Line × ℕ) : (lineWrites hs v).Nodup := by
  unfold lineWrites
  refine List.pairwise_filterMap.mpr ((zipIdx_pairwise_lt hs 0).imp fun {a b} hlt w hw w' hw' heq => ?_)
  split at hw
  · split at hw'
    · rw [← Option.some.inj hw, ← Option.some.inj hw'] at heq
      exact hlt.ne (Prod.mk.inj heq).2
    · cases hw'
  · cases hw

theorem count_lineWrites {h : LineGrid.Line} (hy : hs[y]? = some h) :
    (lineWrites hs v).count (x, y) = if v.2 / 2 = x ∧ h.subgrid = v.1.subgrid then 1 else 0 := by
  split
  · next hw => exact List.count_eq_one_of_mem (lineWrites_nodup hs v) (mem_lineWrites.mpr ⟨hw.1, h, hy, hw.2⟩)
  · next hw =>
    refine List.count_eq_zero.mpr fun hmem => hw ?_
    obtain ⟨hx, h', hy', hsub⟩ := mem_lineWrites.mp hmem
    obtain rfl := Option.some.inj (hy.symm.trans hy')
    exact ⟨hx, hsub⟩

end Line

/-! ## The writes of all lines -/

section Grid

variable {grid : LineGrid} {x y : ℕ}

theorem mem_writes : (x, y) ∈ writes grid ↔ ∃ i v h, grid.verticalLines[i]? = some v ∧ i / 2 = x ∧
    grid.horizonalLines[y]? = some h ∧ h.subgrid = v.subgrid := by
  rw [writes_eq, List.mem_flatMap]
  constructor
  · rintro ⟨⟨v, i⟩, hmem, hw⟩
    obtain ⟨hx, h, hy, hsub⟩ := mem_lineWrites.mp hw
    exact ⟨i, v, h, List.mk_mem_zipIdx_iff_getElem?.mp hmem, hx, hy, hsub⟩
  · rintro ⟨i, v, h, hv, hx, hy, hsub⟩
    exact ⟨(v, i), List.mk_mem_zipIdx_iff_getElem?.mpr hv, mem_lineWrites.mpr ⟨hx, h, hy, hsub⟩⟩

/-- Lines of other columns do not write the pixel. -/
theorem count_of_other {hs : List LineGrid.Line} {l : List (LineGrid.Line × ℕ)} (h : ∀ v ∈ l, v.2 / 2 ≠ x) :
    (l.flatMap (lineWrites hs)).count (x, y) = 0 := by
  apply List.count_eq_zero.mpr
  intro hmem
  obtain ⟨v, hv, hw⟩ := List.mem_flatMap.mp hmem
  exact h v hv (mem_lineWrites.mp hw).1

/-- **A pixel is written by the lines of its column** that have the label of its row. -/
theorem count_writes {a b h : LineGrid.Line} (ha : grid.verticalLines[2 * x]? = some a)
    (hb : grid.verticalLines[2 * x + 1]? = some b) (hy : grid.horizonalLines[y]? = some h) :
    (writes grid).count (x, y) = (if h.subgrid = a.subgrid then 1 else 0) + if h.subgrid = b.subgrid then 1 else 0 := by
  obtain ⟨hlta, hgeta⟩ := List.getElem?_eq_some_iff.mp ha
  obtain ⟨hltb, hgetb⟩ := List.getElem?_eq_some_iff.mp hb
  have hsplit : grid.verticalLines = grid.verticalLines.take (2 * x) ++ a :: b :: grid.verticalLines.drop (2 * x + 2) := by
    conv_lhs => rw [← List.take_append_drop (2 * x) grid.verticalLines]
    rw [List.drop_eq_getElem_cons hlta, List.drop_eq_getElem_cons hltb, hgeta, hgetb]
  have hlen : (grid.verticalLines.take (2 * x)).length = 2 * x := List.length_take_of_le hlta.le
  rw [writes_eq, hsplit, List.zipIdx_append, hlen, List.zipIdx_cons, List.zipIdx_cons, List.flatMap_append,
    List.flatMap_cons, List.flatMap_cons, List.count_append, List.count_append, List.count_append,
    count_lineWrites hy, count_lineWrites hy, count_of_other, count_of_other]
  · have h₁ : (0 + 2 * x) / 2 = x := by omega
    have h₂ : (0 + 2 * x + 1) / 2 = x := by omega
    simp only [h₁, h₂, true_and]
    omega
  · rintro ⟨v, i⟩ hv
    have := List.le_snd_of_mem_zipIdx hv
    show i / 2 ≠ x
    omega
  · rintro ⟨v, i⟩ hv
    have := List.snd_lt_of_mem_zipIdx hv
    show i / 2 ≠ x
    rw [hlen] at this
    omega

/-- Of two labels a third is exactly one iff they differ. -/
theorem one_label_iff (s a b : SubGrid) :
    ((if s = a then 1 else 0) + (if s = b then 1 else 0) = 1) ↔ a ≠ b := by
  cases s <;> cases a <;> cases b <;> decide

/-- **The condition under which the image is filled.** -/
theorem fillsOnce_iff : FillsOnce grid ↔ grid.horizonalLines = [] ∨ ColumnsPaired grid := by
  constructor
  · intro hf
    by_cases hnil : grid.horizonalLines = []
    · exact Or.inl hnil
    · refine Or.inr ⟨fun x a b ha hb => ?_, fun x a ha hlen h hh hsub => ?_⟩
      · obtain ⟨h, hs, hcons⟩ := List.exists_cons_of_ne_nil hnil
        have hy : grid.horizonalLines[0]? = some h := by rw [hcons]; rfl
        have hx : x < grid.verticalLines.length / 2 := by
          have := (List.getElem?_eq_some_iff.mp hb).1
          omega
        have hone := hf.once x hx 0 (List.length_pos_iff.mpr hnil)
        rwa [count_writes ha hb hy, one_label_iff] at hone
      · obtain ⟨y, hy⟩ := List.getElem?_of_mem hh
        have hw := (hf.inside (x, y) (mem_writes.mpr ⟨2 * x, a, h, ha, by omega, hy, hsub⟩)).1
        have : x < grid.verticalLines.length / 2 := hw
        omega
  · rintro (hnil | hp)
    · refine ⟨?_, fun x _ y hy => ?_⟩
      · rintro ⟨x, y⟩ hw
        obtain ⟨i, v, h, -, -, hy, -⟩ := mem_writes.mp hw
        rw [hnil] at hy
        cases hy
      · rw [hnil] at hy
        exact absurd hy (Nat.not_lt_zero y)
    · refine ⟨?_, fun x hx y hy => ?_⟩
      · rintro ⟨x, y⟩ hw
        obtain ⟨i, v, h, hv, rfl, hy, hsub⟩ := mem_writes.mp hw
        have hi := (List.getElem?_eq_some_iff.mp hv).1
        refine ⟨?_, (List.getElem?_eq_some_iff.mp hy).1⟩
        show i / 2 < _
        by_contra hout
        -- only a last line without a partner is beyond the columns
        have hlast : 2 * (i / 2) = i := by omega
        exact hp.unpaired (i / 2) v (by rwa [hlast]) (by omega) h (List.mem_of_getElem? hy) hsub
      · have hlta : 2 * x < grid.verticalLines.length := by omega
        have hltb : 2 * x + 1 < grid.verticalLines.length := by omega
        have ha := List.getElem?_eq_getElem hlta
        have hb := List.getElem?_eq_getElem hltb
        rw [count_writes ha hb (List.getElem?_eq_getElem hy), one_label_iff]
        exact hp.differ x _ _ ha hb

end Grid

/-! ## The image -/

section Image

variable {π : Type} {rows cols : ℕ}

/-- A run of writes is defined iff all of them are inside, and then a pixel that is written has a value. -/
theorem foldlM_store (image : ℕ × ℕ → Option π) (ws : List ((ℕ × ℕ) × π))
    (hin : ∀ w ∈ ws.map Prod.fst, w.1 < cols ∧ w.2 < rows) :
    ∃ image', ws.foldlM (store rows cols) image = some image' ∧
      ∀ w, w ∈ ws.map Prod.fst ∨ (image w).isSome → (image' w).isSome := by
  induction ws generalizing image with
  | nil => exact ⟨image, rfl, fun w hw => hw.elim (fun h => absurd h List.not_mem_nil) id⟩
  | cons w ws ih =>
    rw [List.map_cons] at hin
    obtain ⟨image', hrun, hset⟩ := ih (Function.update image w.1 (some w.2)) fun w' hw' =>
      hin w' (List.mem_cons_of_mem _ hw')
    refine ⟨image', foldlM_cons_some.mpr ⟨_, if_pos (hin w.1 List.mem_cons_self), hrun⟩, fun q hq => hset q ?_⟩
    rw [List.map_cons, List.mem_cons] at hq
    by_cases heq : q = w.1
    · apply Or.inr
      rw [heq, Function.update_self]
      rfl
    · rw [Function.update_of_ne heq]
      rcases hq with (h | h) | h
      · exact absurd h heq
      · exact Or.inl h
      · exact Or.inr h

theorem inside_of_foldlM_store {image image' : ℕ × ℕ → Option π} {ws : List ((ℕ × ℕ) × π)}
    (h : ws.foldlM (store rows cols) image = some image') : ∀ w ∈ ws.map Prod.fst, w.1 < cols ∧ w.2 < rows := by
  rintro w hw
  obtain ⟨a, ha, rfl⟩ := List.mem_map.mp hw
  obtain ⟨s, s', -, hs⟩ := foldlM_ran (fun _ => True) trivial (fun _ _ _ _ _ => trivial) h ha
  unfold store at hs
  split at hs
  · assumption
  · cases hs

/-- **The constructor** is defined iff no write is outside; on a grid that is filled once it gives every pixel a
value. -/
theorem lightfieldImage_defined_iff (getRotationMatrix2D : GetRotationMatrix2D) (warpAffine : WarpAffine)
    (raw : ℤ × ℤ → π) (array : ArrayParameters) :
    (∃ image, lightfieldImage getRotationMatrix2D warpAffine raw array = some image) ↔
      ∀ w ∈ writes array.grid, w.1 < array.grid.verticalLines.length / 2 ∧ w.2 < array.grid.horizonalLines.length := by
  have hw := intersections_writes (transformed getRotationMatrix2D warpAffine raw array) array.grid
  rw [← writes_eq] at hw
  unfold lightfieldImage
  rw [← hw]
  constructor
  · rintro ⟨image, h⟩
    exact inside_of_foldlM_store h
  · intro hin
    obtain ⟨image, h, -⟩ := foldlM_store (fun _ => none) _ hin
    exact ⟨image, h⟩

theorem lightfieldImage_filled (getRotationMatrix2D : GetRotationMatrix2D) (warpAffine : WarpAffine)
    (raw : ℤ × ℤ → π) (array : ArrayParameters) (hf : FillsOnce array.grid) :
    ∃ image, lightfieldImage getRotationMatrix2D warpAffine raw array = some image ∧
      ∀ x < array.grid.verticalLines.length / 2, ∀ y < array.grid.horizonalLines.length, (image (x, y)).isSome := by
  have hw := intersections_writes (transformed getRotationMatrix2D warpAffine raw array) array.grid
  rw [← writes_eq] at hw
  obtain ⟨image, h, hset⟩ := foldlM_store (fun _ => none)
    (intersections (transformed getRotationMatrix2D warpAffine raw array) array.grid) (by rw [hw]; exact hf.inside)
  refine ⟨image, h, fun x hx y hy => hset (x, y) (Or.inl ?_)⟩
  rw [hw]
  exact List.count_pos_iff.mp (by rw [hf.once x hx y hy]; exact Nat.one_pos)

end Image

/-! ## Target grids -/

/-- **The target grids of `averageGrids`** fill the image once exactly under the condition. -/
theorem averageGrids_fillsOnce_iff {R : Rounding} (front : LineGrid) (rest : List LineGrid) (hh : front.horizonalLines ≠ [])
    (hv : front.verticalLines ≠ []) :
    ∃ target mappers, GridMath.averageGrids (front :: rest) = some (target, mappers) ∧
      (FillsOnce target ↔ target.horizonalLines = [] ∨ ColumnsPaired target) := by
  obtain ⟨hor, vert, target, mappers, -, havg, -, -⟩ :=
    GridMath.averageGrids_result front rest (GridMath.started_of_ne_nil hh _) (GridMath.started_of_ne_nil hv _)
  exact ⟨target, mappers, havg, fillsOnce_iff⟩

/-- A grid of three vertical lines. -/
def threeVertical : LineGrid :=
  ⟨[⟨.subgridA, 0⟩, ⟨.subgridB, 20⟩], [⟨.subgridA, 0⟩, ⟨.subgridB, 10⟩, ⟨.subgridA, 20⟩]⟩

section Floats

attribute [local instance] Rounding.ieee

theorem averageGrids_fillsOnce_iff_threeVertical :
    ∃ target mappers, GridMath.averageGrids [threeVertical, threeVertical] = some (target, mappers) ∧
      (FillsOnce target ↔ target.horizonalLines = [] ∨ ColumnsPaired target) :=
  averageGrids_fillsOnce_iff threeVertical [threeVertical] (by decide) (by decide)

/-- The third vertical line writes into column 1 of an image of one column. -/
theorem threeVertical_overruns :
    (threeVertical.horizonalLines ≠ [] ∧ threeVertical.verticalLines ≠ [] ∧
      GridMath.Alternating threeVertical.horizonalLines ∧ GridMath.Alternating threeVertical.verticalLines) ∧
    ∃ target mappers, GridMath.averageGrids [threeVertical] = some (target, mappers) ∧ ¬ FillsOnce target := by
  refine ⟨⟨by decide, by decide, GridMath.alternating_pair _ _, fun i line hi => ?_⟩, ?_⟩
  · match i with
    | 0 | 1 | 2 =>
      obtain rfl := Option.some.inj hi
      rfl
    | i + 3 => cases hi
  · have hrun : (GridMath.averageGrids [threeVertical]).map Prod.fst = some threeVertical := by decide +kernel
    obtain ⟨⟨target, mappers⟩, havg, rfl⟩ := Option.map_eq_some_iff.mp hrun
    refine ⟨_, mappers, havg, fun hf => ?_⟩
    have hmem : (1, 0) ∈ writes threeVertical :=
      mem_writes.mpr ⟨2, ⟨.subgridA, 20⟩, ⟨.subgridA, 0⟩, rfl, rfl, rfl, rfl⟩
    exact absurd (hf.inside _ hmem).1 (by decide)

end Floats

end Lyli.Image.LightfieldImage
