import Mathlib
import Lyli.Base.FoldM
import Lyli.Base.MeanCluster
import Lyli.Calibration.GridMath
import Lyli.Calibration.PointGridLinks

/-!
# Positions of the lines of a `LineGrid`

The constructor averages the middle third of every line, `[size / 3, 2 * size / 3)`
in integer division, for a vertical line every other point from an even start.
The average of a window is between two of its values (`window_between`), and the
window of a line is empty iff the line has fewer than two points:

    RealAverage (horizontalPosition g l) …  ↔  2 ≤ l.length      (horizontalPosition_real_iff)
    RealAverage (verticalPosition g l) …    ↔  2 ≤ l.length      (verticalPosition_real_iff)

`finalize` leaves lines of one point (and none), whose position is `0 / 0`.
-/

namespace Lyli.Calibration.LineGrid

attribute [local instance] Rounding.exact

open MeanCluster

/-- A position that is defined and lies between the least and the greatest coordinate. -/
def RealAverage (position : Option ℚ) (coords : List ℚ) : Prop :=
  ∃ a, position = some a ∧ (∃ lo ∈ coords, lo ≤ a) ∧ ∃ hi ∈ coords, a ≤ hi

/-! ## Windows -/

theorem average_eq_mean {values : List ℚ} (h : values ≠ []) : average values = some (mean (fun v : ℚ => v) values) := by
  unfold average mean
  rw [if_neg (by simpa using h)]
  simp

theorem average_between {values : List ℚ} (h : values ≠ []) : RealAverage (average values) values := by
  refine ⟨mean (fun v : ℚ => v) values, average_eq_mean h, ?_, ?_⟩
  · by_contra hno
    push Not at hno
    exact lt_irrefl _ (lt_mean h hno)
  · by_contra hno
    push Not at hno
    exact lt_irrefl _ (mean_lt h hno)

section Window

variable {coord : PointGrid.Ptr → ℚ} {l : List PointGrid.Ptr} {window : List ℕ}

/-- **The average over a window** of a line lies between coordinates of the line. -/
theorem window_between (hin : ∀ i ∈ window, i < l.length) (hne : window ≠ []) :
    RealAverage (average (window.filterMap fun i => l[i]?.map coord)) (l.map coord) := by
  have hvalues : window.filterMap (fun i => l[i]?.map coord) ≠ [] := by
    obtain ⟨i, hi⟩ := List.exists_mem_of_ne_nil _ hne
    apply List.ne_nil_of_mem (a := coord (l.get ⟨i, hin i hi⟩))
    rw [List.mem_filterMap]
    refine ⟨i, hi, ?_⟩
    rw [List.getElem?_eq_getElem (hin i hi)]
    rfl
  have hsub : ∀ v ∈ window.filterMap (fun i => l[i]?.map coord), v ∈ l.map coord := by
    intro v hv
    obtain ⟨i, -, hi⟩ := List.mem_filterMap.mp hv
    obtain ⟨p, hp, rfl⟩ := Option.map_eq_some_iff.mp hi
    exact List.mem_map.mpr ⟨p, List.mem_of_getElem? hp, rfl⟩
  obtain ⟨a, ha, ⟨lo, hlo, hle⟩, hi, hhi, hge⟩ := average_between hvalues
  exact ⟨a, ha, ⟨lo, hsub lo hlo, hle⟩, hi, hsub hi hhi, hge⟩

end Window

/-! ## Positions -/

/-- The middle third of two points and more is not empty. -/
theorem third_lt {n : ℕ} (h : 2 ≤ n) : n / 3 < 2 * n / 3 := by
  apply (Nat.le_div_iff_mul_le (by omega)).mpr
  show (n / 3 + 1) * 3 ≤ 2 * n
  omega

section Positions

variable (g : PointGrid) {l : List PointGrid.Ptr}

theorem horizontalPosition_none (h : l.length < 2) : horizontalPosition g l = none := by
  unfold horizontalPosition
  have hnone : 2 * l.length / 3 - l.length / 3 = 0 := by omega
  rw [hnone]
  rfl

theorem horizontalPosition_between (h : 2 ≤ l.length) :
    RealAverage (horizontalPosition g l) (l.map fun p => (PointGrid.position g.storage p).x) := by
  have hthird := third_lt h
  apply window_between
  · intro i hi
    rw [List.mem_range'_1] at hi
    omega
  · intro hnil
    rw [List.range'_eq_nil_iff] at hnil
    omega

theorem verticalPosition_none (h : l.length < 2) : verticalPosition g l = none := by
  unfold verticalPosition
  have hzero : l.length / 3 = 0 := by omega
  have hnone : 2 * l.length / 3 = 0 := by omega
  rw [hzero, hnone]
  rfl

theorem verticalPosition_between (h : 2 ≤ l.length) :
    RealAverage (verticalPosition g l) (l.map fun p => (PointGrid.position g.storage p).y) := by
  unfold verticalPosition
  have hthird := third_lt h
  -- the start is a third, less one where that is odd
  generalize hstart : (if l.length / 3 &&& 1 = 0 then l.length / 3 else l.length / 3 - 1) = start
  have hle : start ≤ l.length / 3 := by
    split_ifs at hstart
    · omega
    · omega
  apply window_between
  · intro i hi
    obtain ⟨k, hk, rfl⟩ := List.mem_range'.mp hi
    omega
  · intro hnil
    rw [List.range'_eq_nil_iff] at hnil
    omega

/-- **A horizontal line** has a position iff it has two points. -/
theorem horizontalPosition_real_iff :
    RealAverage (horizontalPosition g l) (l.map fun p => (PointGrid.position g.storage p).x) ↔ 2 ≤ l.length := by
  constructor
  · rintro ⟨a, ha, -⟩
    by_contra hlt
    rw [horizontalPosition_none g (by omega)] at ha
    cases ha
  · exact horizontalPosition_between g

/-- **A vertical line** has a position iff it has two points. -/
theorem verticalPosition_real_iff :
    RealAverage (verticalPosition g l) (l.map fun p => (PointGrid.position g.storage p).y) ↔ 2 ≤ l.length := by
  constructor
  · rintro ⟨a, ha, -⟩
    by_contra hlt
    rw [verticalPosition_none g (by omega)] at ha
    cases ha
  · exact verticalPosition_between g

end Positions

/-- Every line's position is an average of coordinates of its points. -/
structure RealAverages (g : PointGrid) : Prop where
  horizontal : ∀ l ∈ g.linesHorizontal,
    RealAverage (horizontalPosition g l.line) (l.line.map fun p => (PointGrid.position g.storage p).x)
  vertical : ∀ l ∈ g.linesVertical,
    RealAverage (verticalPosition g l.line) (l.line.map fun p => (PointGrid.position g.storage p).y)

/-- **The positions are averages** iff every line has two points. -/
theorem realAverages_iff (g : PointGrid) :
    RealAverages g ↔ ∀ l ∈ g.linesHorizontal ++ g.linesVertical, 2 ≤ l.line.length := by
  rw [List.forall_mem_append]
  constructor
  · intro h
    constructor
    · intro l hl
      exact (horizontalPosition_real_iff g).mp (h.horizontal l hl)
    · intro l hl
      exact (verticalPosition_real_iff g).mp (h.vertical l hl)
  · rintro ⟨hh, hv⟩
    constructor
    · intro l hl
      exact (horizontalPosition_real_iff g).mpr (hh l hl)
    · intro l hl
      exact (verticalPosition_real_iff g).mpr (hv l hl)

/-- `finalize` leaves seven horizontal lines of one point. -/
theorem squareGrid_not_realAverages :
    ∃ g, (PointGrid.addPoints PointGrid.squareGrid).finalize .insertion = some g ∧ ¬ RealAverages g := by
  have hrun : ((PointGrid.addPoints PointGrid.squareGrid).finalize .insertion).any (fun g =>
      (g.linesHorizontal[1]?).any fun l => l.line.length == 1) = true := by decide +kernel
  obtain ⟨g, hg, h⟩ := (Option.any_eq_true _ _).mp hrun
  obtain ⟨l, hl, hlen⟩ := (Option.any_eq_true _ _).mp h
  rw [beq_iff_eq] at hlen
  refine ⟨g, hg, fun hreal => ?_⟩
  have := (horizontalPosition_real_iff g).mp (hreal.horizontal l (List.mem_of_getElem? hl))
  omega

theorem line_defined_iff {position : Option ℚ} {coords : List ℚ} {n : ℕ} (subgrid : SubGrid)
    (hnone : n < 2 → position = none) (hreal : 2 ≤ n → RealAverage position coords) :
    (∃ line, (do let a ← position; return Line.mk subgrid a) = some line) ↔ 2 ≤ n := by
  constructor
  · rintro ⟨line, h⟩
    obtain ⟨a, ha, -⟩ := Option.bind_eq_some_iff.mp h
    by_contra hlt
    rw [hnone (by omega)] at ha
    cases ha
  · intro hlen
    obtain ⟨a, ha, -⟩ := hreal hlen
    exact ⟨Line.mk subgrid a, Option.bind_eq_some_iff.mpr ⟨a, ha, rfl⟩⟩

/-- **The constructor** divides no zero by zero iff every line has two points. -/
theorem ofPointGrid_defined_iff (g : PointGrid) :
    (∃ grid, ofPointGrid g = some grid) ↔ ∀ l ∈ g.linesHorizontal ++ g.linesVertical, 2 ≤ l.line.length := by
  have hsplit : (∃ grid, ofPointGrid g = some grid) ↔
      (∃ rows, g.linesHorizontal.mapM (fun line => do
        let position ← horizontalPosition g line.line
        return Line.mk line.subgrid position) = some rows) ∧
      ∃ columns, g.linesVertical.mapM (fun line => do
        let position ← verticalPosition g line.line
        return Line.mk line.subgrid position) = some columns := by
    constructor
    · rintro ⟨grid, h⟩
      obtain ⟨rows, hrows, h⟩ := Option.bind_eq_some_iff.mp h
      obtain ⟨columns, hcolumns, -⟩ := Option.bind_eq_some_iff.mp h
      exact ⟨⟨rows, hrows⟩, columns, hcolumns⟩
    · rintro ⟨⟨rows, hrows⟩, columns, hcolumns⟩
      exact ⟨_, Option.bind_eq_some_iff.mpr ⟨rows, hrows, Option.bind_eq_some_iff.mpr ⟨columns, hcolumns, rfl⟩⟩⟩
  rw [hsplit, mapM_defined_iff, mapM_defined_iff, List.forall_mem_append]
  apply and_congr
  · apply forall₂_congr
    intro l _
    exact line_defined_iff l.subgrid (horizontalPosition_none g) (horizontalPosition_between g)
  · apply forall₂_congr
    intro l _
    exact line_defined_iff l.subgrid (verticalPosition_none g) (verticalPosition_between g)

end Lyli.Calibration.LineGrid
