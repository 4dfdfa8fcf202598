import Mathlib
import Lyli.Calibration.Calibrator
import Lyli.Calibration.PointGridShift

/-!
# The target of shifted images

Positions of lines are averages of coordinates, and `averageGrids` compares and
averages positions.  So grids moved by `v` have their target moved by `v`, over
the same mappers:

    ofPointGrid of the moved grid = the moved line grid                          (ofPointGrid_shift)
    averageGrids (grids.map (·.shift v)) = (target.shift v, mappers)              (averageGrids_shift)
    images all moved by v  →  the same with the target of the calibrator          (target_shift)

Sums are exact here: a rounded one depends on where the array lies.
-/

namespace Lyli.Calibration

open Rounding (absDiff)

attribute [local instance] Rounding.exact

open PointGrid GridMath

/-! ## Line grids -/

namespace LineGrid

def Line.shift (l : Line) (d : ℚ) : Line := { l with position := l.position + d }

def shift (grid : LineGrid) (v : Point2f) : LineGrid where
  horizonalLines := grid.horizonalLines.map (·.shift v.x)
  verticalLines := grid.verticalLines.map (·.shift v.y)

theorem average_shift (values : List ℚ) (d : ℚ) : average (values.map (· + d)) = (average values).map (· + d) := by
  unfold average
  rw [List.length_map]
  by_cases h : values.length = 0
  · rw [if_pos h, if_pos h]
    rfl
  · have hlen : (values.length : ℚ) ≠ 0 := Nat.cast_ne_zero.mpr h
    have hsum : (values.map (· + d)).sum = values.sum + values.length * d := by
      rw [List.sum_map_add, List.map_id', List.map_const', List.sum_replicate, nsmul_eq_mul]
    rw [if_neg h, if_neg h, hsum, add_div, mul_div_cancel_left₀ d hlen]
    rfl

section Positions

variable {g g' : PointGrid} {v : Point2f} (hg : ShiftedBy v g g')

/-- The values of a window, each `d` higher. -/
theorem window_shift {coord coord' : Ptr → ℚ} {d : ℚ} {l : List Ptr} (h : ∀ p ∈ l, coord' p = coord p + d)
    (window : List ℕ) : (window.filterMap fun i => l[i]?.map coord') =
      (window.filterMap fun i => l[i]?.map coord).map (· + d) := by
  rw [List.map_filterMap]
  refine congrArg (fun f => List.filterMap f window) (funext fun i => ?_)
  cases hi : l[i]? with
  | none => rfl
  | some p => exact congrArg some (h p (List.mem_of_getElem? hi))

include hg

theorem position_shiftedBy {p : Ptr} (hp : p ∈ g.storage) :
    position g'.storage p = (position g.storage p).shift v := by
  obtain ⟨point, hpoint⟩ := Option.isSome_iff_exists.mp (AList.lookup_isSome.mpr hp)
  have hpoint' := hg.storage p
  rw [hpoint] at hpoint'
  unfold position
  rw [hpoint, hpoint']
  rfl

variable {l : List Ptr} (hl : ∀ p ∈ l, p ∈ g.storage)

include hl

theorem horizontalPosition_shift : horizontalPosition g' l = (horizontalPosition g l).map (· + v.x) := by
  unfold horizontalPosition
  rw [window_shift fun p hp => ?_, average_shift]
  rw [position_shiftedBy hg (hl p hp)]
  rfl

theorem verticalPosition_shift : verticalPosition g' l = (verticalPosition g l).map (· + v.y) := by
  unfold verticalPosition
  dsimp only
  rw [window_shift fun p hp => ?_, average_shift]
  rw [position_shiftedBy hg (hl p hp)]
  rfl

end Positions

/-- The lines of one direction, each with its position. -/
theorem lines_shift (position : PointGrid.Line → Option ℚ) {position' : PointGrid.Line → Option ℚ} {d : ℚ}
    {lines : List PointGrid.Line} (h : ∀ line ∈ lines, position' line = (position line).map (· + d)) :
    (lines.mapM fun line => do let q ← position' line; return Line.mk line.subgrid q) =
      (lines.mapM fun line => do let q ← position line; return Line.mk line.subgrid q).map
        (List.map fun l : Line => l.shift d) := by
  have hhom := mapM_hom (t := id) (l := lines) (h := fun l : Line => l.shift d)
    (f := fun line => do let q ← position line; return Line.mk line.subgrid q)
    (g := fun line => do let q ← position' line; return Line.mk line.subgrid q) fun line hline => by
      rw [id, h line hline]
      cases position line with
      | none => rfl
      | some q => rfl
  rwa [List.map_id] at hhom

/-- **The line grid** of a moved grid is the moved line grid. -/
theorem ofPointGrid_shift {g g' : PointGrid} {v : Point2f} (hg : ShiftedBy v g g')
    (hh : ∀ p ∈ linePoints g.linesHorizontal, p ∈ g.storage) (hv : ∀ p ∈ linePoints g.linesVertical, p ∈ g.storage) :
    ofPointGrid g' = (ofPointGrid g).map (·.shift v) := by
  unfold ofPointGrid
  rw [hg.linesHorizontal, hg.linesVertical,
    lines_shift (fun line => horizontalPosition g line.line) fun line hline =>
      horizontalPosition_shift hg fun p hp => hh p (mem_linePoints.mpr ⟨line, hline, hp⟩),
    lines_shift (fun line => verticalPosition g line.line) fun line hline =>
      verticalPosition_shift hg fun p hp => hv p (mem_linePoints.mpr ⟨line, hline, hp⟩)]
  generalize (g.linesHorizontal.mapM fun line => do
    let q ← horizontalPosition g line.line; return Line.mk line.subgrid q) = hor
  generalize (g.linesVertical.mapM fun line => do
    let q ← verticalPosition g line.line; return Line.mk line.subgrid q) = ver
  cases hor with
  | none => rfl
  | some hor =>
    cases ver with
    | none => rfl
    | some ver => rfl

end LineGrid

/-! ## `averageGrids` -/

namespace GridMath

def LineEntry.shift (d : ℚ) (entry : LineEntry) : LineEntry := { entry with line := entry.line.shift d }

/-- The line map with its keys and the positions of its lines `d` higher. -/
def shiftMap (d : ℚ) (m : LineMap) : LineMap := m.shift d (LineEntry.shift d)

variable {d : ℚ}

theorem nextPosition_shift (n : ℕ) (p q : ℚ) : nextPosition n (p + d) (q + d) = nextPosition n p q + d := by
  have hcount : (n : ℚ) + 1 ≠ 0 := by positivity
  show (n : ℚ) * (1 / ((n : ℚ) + 1)) * (p + d) + (q + d) * (1 / ((n : ℚ) + 1)) =
    (n : ℚ) * (1 / ((n : ℚ) + 1)) * p + q * (1 / ((n : ℚ) + 1)) + d
  field_simp
  ring

theorem LineEntry.average_shift (entry : LineEntry) (line : LineGrid.Line) (referee : Referee) :
    (entry.shift d).average (line.shift d) referee = (entry.average line referee).shift d := by
  unfold LineEntry.average LineEntry.shift LineGrid.Line.shift
  simp only [nextPosition_shift]

theorem insertLine_shift (map : LineMap) (line : LineGrid.Line) (referee : Referee) (limit : ℚ) :
    insertLine (shiftMap d map) (line.shift d) referee limit =
      (insertLine map line referee limit).map (shiftMap d) := by
  unfold insertLine
  have hnear : (shiftMap d map).nearest? absDiff (line.shift d).position = _ :=
    map.nearest?_shift PointGrid.absDiff_shift line.position
  rw [hnear]
  cases map.nearest? absDiff line.position with
  | none => rfl
  | some e =>
    show (if absDiff (e.1 + d) (line.position + d) < limit then _ else _) =
      Option.map (shiftMap d) (if absDiff e.1 line.position < limit then _ else _)
    rw [PointGrid.absDiff_shift]
    by_cases hlt : absDiff e.1 line.position < limit
    · rw [if_pos hlt, if_pos hlt, Option.map_some]
      refine congrArg some ?_
      show (shiftMap d map).move (e.1 + d) ((e.2.shift d).average (line.shift d) referee).line.position
        ((e.2.shift d).average (line.shift d) referee) = _
      rw [LineEntry.average_shift]
      exact map.move_shift e.1 (e.2.average line referee).line.position (e.2.average line referee)
    · rw [if_neg hlt, if_neg hlt, Option.map_some]
      exact congrArg some (map.emplace_shift line.position (.ofLine line referee))

theorem zipIdx_shift (lines : List LineGrid.Line) :
    (lines.map (·.shift d)).zipIdx = lines.zipIdx.map fun l => (l.1.shift d, l.2) := List.zipIdx_map

theorem initialMap_shift (lines : List LineGrid.Line) :
    initialMap (lines.map (·.shift d)) = shiftMap d (initialMap lines) := by
  unfold initialMap
  rw [zipIdx_shift, List.foldl_map]
  generalize lines.zipIdx = ls
  have hgo : ∀ m : LineMap, ls.foldl (fun map l => map.emplace (l.1.shift d).position (.ofLine (l.1.shift d) (0, l.2)))
      (shiftMap d m) = shiftMap d (ls.foldl (fun map l => map.emplace l.1.position (.ofLine l.1 (0, l.2))) m) := by
    induction ls with
    | nil => intro m; rfl
    | cons l ls ih =>
      intro m
      have hnew : (shiftMap d m).emplace (l.1.shift d).position (.ofLine (l.1.shift d) (0, l.2)) = shiftMap d _ :=
        m.emplace_shift l.1.position (.ofLine l.1 (0, l.2))
      rw [List.foldl_cons, List.foldl_cons, hnew]
      exact ih (m.emplace l.1.position (.ofLine l.1 (0, l.2)))
  exact hgo .empty

theorem insertLines_shift (limit : ℚ) (map : LineMap) (lines : List LineGrid.Line) (gridIndex : ℕ) :
    insertLines limit (shiftMap d map) (lines.map (·.shift d)) gridIndex =
      (insertLines limit map lines gridIndex).map (shiftMap d) := by
  unfold insertLines
  rw [zipIdx_shift]
  exact foldlM_hom (fun m l _ => insertLine_shift m l.1 (gridIndex, l.2) limit) map

theorem lineMaps_shift (grids : List LineGrid) (v : Point2f) :
    lineMaps (grids.map (·.shift v)) = (lineMaps grids).map fun m => (shiftMap v.x m.1, shiftMap v.y m.2) := by
  cases grids with
  | nil => rfl
  | cons front rest =>
    have hzip : (rest.map (·.shift v)).zipIdx 1 = (rest.zipIdx 1).map fun it => (it.1.shift v, it.2) := List.zipIdx_map
    have hfirst : (initialMap (front.shift v).horizonalLines, initialMap (front.shift v).verticalLines) =
        (shiftMap v.x (initialMap front.horizonalLines), shiftMap v.y (initialMap front.verticalLines)) :=
      Prod.ext (initialMap_shift _) (initialMap_shift _)
    rw [List.map_cons]
    unfold lineMaps
    dsimp only
    rw [hzip, hfirst]
    refine foldlM_hom (h := fun m : LineMap × LineMap => (shiftMap v.x m.1, shiftMap v.y m.2)) (fun maps it _ => ?_)
      (initialMap front.horizonalLines, initialMap front.verticalLines)
    show (insertLines limitHorizontal (shiftMap v.x maps.1) (it.1.horizonalLines.map (·.shift v.x)) it.2).bind _ = _
    rw [insertLines_shift]
    cases insertLines limitHorizontal maps.1 it.1.horizonalLines it.2 with
    | none => rfl
    | some hor =>
      show (insertLines limitVertical (shiftMap v.y maps.2) (it.1.verticalLines.map (·.shift v.y)) it.2).bind _ = _
      rw [insertLines_shift]
      show _ = Option.map _ ((insertLines limitVertical maps.2 it.1.verticalLines it.2).bind _)
      cases insertLines limitVertical maps.2 it.1.verticalLines it.2 with
      | none => rfl
      | some ver => rfl

theorem storeLines_shift (set : ℕ → ℕ → GridMapper → Option GridMapper) (size : ℕ) (entries : List (ℚ × LineEntry))
    (lineIndex : ℕ) (mappers : List GridMapper) :
    storeLines set size (entries.map (OrdMap.shifted d (LineEntry.shift d))) lineIndex mappers =
      (storeLines set size entries lineIndex mappers).map fun r => (r.1.map (·.shift d), r.2) := by
  induction entries generalizing lineIndex mappers with
  | nil => rfl
  | cons e rest ih =>
    rw [List.map_cons]
    unfold storeLines
    show (if e.2.counter > size / 2 then _ else _) = Option.map _ (if e.2.counter > size / 2 then _ else _)
    by_cases hmany : e.2.counter > size / 2
    · rw [if_pos hmany, if_pos hmany]
      show (storeMapping set lineIndex e.2.referees mappers).bind _ =
        Option.map _ ((storeMapping set lineIndex e.2.referees mappers).bind _)
      cases storeMapping set lineIndex e.2.referees mappers with
      | none => rfl
      | some mappers₁ =>
        show (storeLines set size (rest.map _) (lineIndex + 1) mappers₁).bind _ =
          Option.map _ ((storeLines set size rest (lineIndex + 1) mappers₁).bind _)
        rw [ih]
        cases storeLines set size rest (lineIndex + 1) mappers₁ with
        | none => rfl
        | some r => rfl
    · rw [if_neg hmany, if_neg hmany]
      exact ih lineIndex mappers

/-- **The target of moved grids** is the moved target, and the mappers are the same. -/
theorem averageGrids_shift (grids : List LineGrid) (v : Point2f) :
    averageGrids (grids.map (·.shift v)) = (averageGrids grids).map fun t => (t.1.shift v, t.2) := by
  unfold averageGrids
  rw [lineMaps_shift]
  cases lineMaps grids with
  | none => rfl
  | some maps =>
    have hsizes : (grids.map (·.shift v)).map
          (fun grid => GridMapper.ofSizes grid.horizonalLines.length grid.verticalLines.length) =
        grids.map fun grid => GridMapper.ofSizes grid.horizonalLines.length grid.verticalLines.length := by
      rw [List.map_map]
      refine List.map_congr_left fun grid _ => ?_
      show GridMapper.ofSizes (grid.horizonalLines.map _).length (grid.verticalLines.map _).length = _
      rw [List.length_map, List.length_map]
    rw [List.length_map, hsizes]
    generalize grids.map (fun grid => GridMapper.ofSizes grid.horizonalLines.length grid.verticalLines.length) = mappers
    show (storeLines GridMapper.setHorizontal grids.length (maps.1.entries.map _) 0 mappers).bind _ =
      Option.map _ ((storeLines GridMapper.setHorizontal grids.length maps.1.entries 0 mappers).bind _)
    rw [storeLines_shift]
    cases storeLines GridMapper.setHorizontal grids.length maps.1.entries 0 mappers with
    | none => rfl
    | some hor =>
      show (storeLines GridMapper.setVertical grids.length (maps.2.entries.map _) 0 hor.2).bind _ =
        Option.map _ ((storeLines GridMapper.setVertical grids.length maps.2.entries 0 hor.2).bind _)
      rw [storeLines_shift]
      cases storeLines GridMapper.setVertical grids.length maps.2.entries 0 hor.2 with
      | none => rfl
      | some ver => rfl

end GridMath

/-! ## The target -/

namespace Calibrator

/-- What `finalize` makes of images, image by image. -/
def finalizeAll (S : StdSort) (images : List (List Point2f)) : Option (List PointGrid) :=
  images.mapM fun pts => (addPoints pts).finalize S

/-- The line grid of a moved image is the moved line grid. -/
theorem lineGrid_shift {S : StdSort} (hS : S.Local) (pts : List Point2f) (v : Point2f) :
    ((addPoints (pts.map (·.shift v))).finalize S).bind LineGrid.ofPointGrid =
      (((addPoints pts).finalize S).bind LineGrid.ofPointGrid).map (·.shift v) := by
  cases h : (addPoints pts).finalize S with
  | none =>
    rw [finalize_shift_none hS v h]
    rfl
  | some g =>
    obtain ⟨g', hg', hshift⟩ := finalize_shift_some hS v h
    rw [hg']
    exact LineGrid.ofPointGrid_shift hshift (fun p => (finalize_linePoints h p).1.mp)
      fun p => (finalize_linePoints h p).2.mp

/-- **Calibration does not depend on where the array lies on the sensor**: from images moved by `v` the target
is the target moved by `v`, over the same mappers, and it is undefined iff it is without the move. -/
theorem target_shift (S : StdSort) (hS : S.Local) (serial : String) (clusterMap : List (Lens × List ℕ))
    (images : List (List Point2f)) (v : Point2f) :
    ((finalizeAll S (images.map fun pts => pts.map (·.shift v))).bind fun grids =>
        target ⟨serial, grids, clusterMap⟩) =
      ((finalizeAll S images).bind fun grids => target ⟨serial, grids, clusterMap⟩).map fun t =>
        (t.1.shift v, t.2) := by
  have htarget : ∀ grids : Option (List PointGrid), (grids.bind fun grids => target ⟨serial, grids, clusterMap⟩) =
      (grids.bind (·.mapM LineGrid.ofPointGrid)).bind averageGrids := by
    intro grids
    cases grids with
    | none => rfl
    | some grids => rfl
  unfold finalizeAll
  rw [htarget, htarget, mapM_bind, mapM_bind, mapM_hom fun pts _ => lineGrid_shift hS pts v]
  cases images.mapM fun pts => ((addPoints pts).finalize S).bind LineGrid.ofPointGrid with
  | none => rfl
  | some grids => exact averageGrids_shift grids v

theorem target_shift_squareGrid :
    ((finalizeAll .insertion ([squareGrid].map fun pts => pts.map (·.shift ⟨5, -7⟩))).bind fun grids =>
        target ⟨"A", grids, []⟩) =
      ((finalizeAll .insertion [squareGrid]).bind fun grids => target ⟨"A", grids, []⟩).map fun t =>
        (t.1.shift ⟨5, -7⟩, t.2) :=
  target_shift .insertion StdSort.insertion_local "A" [] [squareGrid] ⟨5, -7⟩

end Calibrator

end Lyli.Calibration
