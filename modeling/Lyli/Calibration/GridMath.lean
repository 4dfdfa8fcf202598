import Mathlib
import Lyli.Base.OrdMap
import Lyli.Base.Rounding
import Lyli.Calibration.PointGrid

/-!
# `LineGrid`, `GridMapper` and `averageGrids` (`calibration/linegrid.cpp`, `gridmapper.cpp`, `gridmath.cpp`)

`averageGrids` clusters the lines of several grids by position, in a map from
position to `LineEntry`, and keeps the entries that more than half of the grids
have.  The mappers take the index of a line of a grid to that of its entry.

Positions are rationals.  What `averageGrids` computes from them is rounded
(`Rounding`); the constructor of `LineGrid` is exact.  `none` is undefined
behaviour: an index out of range, an end iterator dereferenced, `0 / 0` as a position.
-/

namespace Lyli.Calibration

/-! ## `LineGrid` -/

@[ext] structure LineGrid.Line where
  subgrid : SubGrid := .subgridA
  position : ℚ := 0
deriving DecidableEq

structure LineGrid where
  horizonalLines : List LineGrid.Line
  verticalLines : List LineGrid.Line
deriving DecidableEq

namespace LineGrid

/-- `sum / count` over the given values; no values give `0 / 0`. -/
def average (values : List ℚ) : Option ℚ :=
  if values.length = 0 then none else some (values.sum / values.length)

/-- The x of a horizontal line: the average over its middle third. -/
def horizontalPosition (g : PointGrid) (l : List PointGrid.Ptr) : Option ℚ :=
  average ((List.range' (l.length / 3) (2 * l.length / 3 - l.length / 3)).filterMap fun i =>
    l[i]?.map fun p => (PointGrid.position g.storage p).x)

/-- The y of a vertical line: the average over every other point of its middle third. -/
def verticalPosition (g : PointGrid) (l : List PointGrid.Ptr) : Option ℚ :=
  let start := l.length / 3
  let start := if start &&& 1 = 0 then start else start - 1
  average ((List.range' start ((2 * l.length / 3 - start + 1) / 2) 2).filterMap fun i =>
    l[i]?.map fun p => (PointGrid.position g.storage p).y)

def ofPointGrid (pointGrid : PointGrid) : Option LineGrid := do
  let horizonalLines ← pointGrid.linesHorizontal.mapM fun line => do
    let position ← horizontalPosition pointGrid line.line
    return Line.mk line.subgrid position
  let verticalLines ← pointGrid.linesVertical.mapM fun line => do
    let position ← verticalPosition pointGrid line.line
    return Line.mk line.subgrid position
  return { horizonalLines, verticalLines }

end LineGrid

/-! ## `GridMapper` -/

/-- Maps grid line indices from one grid to another. -/
structure GridMapper where
  horizontalMapping : List ℕ
  verticalMapping : List ℕ
deriving DecidableEq

namespace GridMapper

/-- The look-up tables are filled with 0. -/
def ofSizes (horizontalSize verticalSize : ℕ) : GridMapper :=
  ⟨List.replicate horizontalSize 0, List.replicate verticalSize 0⟩

def mapHorizontal (m : GridMapper) (source : ℕ) : Option ℕ := m.horizontalMapping[source]?

def mapVertical (m : GridMapper) (source : ℕ) : Option ℕ := m.verticalMapping[source]?

def setHorizontal (source target : ℕ) (m : GridMapper) : Option GridMapper :=
  if source < m.horizontalMapping.length then
    some { m with horizontalMapping := m.horizontalMapping.set source target }
  else none

def setVertical (source target : ℕ) (m : GridMapper) : Option GridMapper :=
  if source < m.verticalMapping.length then
    some { m with verticalMapping := m.verticalMapping.set source target }
  else none

end GridMapper

/-! ## `averageGrids` -/

namespace GridMath

/-- Pair of grid index and line index. -/
abbrev Referee := ℕ × ℕ

structure LineEntry where
  line : LineGrid.Line
  /-- count from how many grids the line was constructed -/
  counter : ℕ
  referees : List Referee
deriving DecidableEq

abbrev LineMap := OrdMap ℚ LineEntry

def limitHorizontal : ℚ := 17

def limitVertical : ℚ := 8

def LineEntry.ofLine (line : LineGrid.Line) (referee : Referee) : LineEntry := ⟨line, 1, [referee]⟩

open Rounding (float double absDiff)

variable [Rounding]

/-- `counter*denom*position + next*denom`, computed in `double` and stored as a `float`. -/
def nextPosition (counter : ℕ) (position next : ℚ) : ℚ :=
  let denom := double (1 / double ((counter : ℚ) + 1))
  float (double (double (double (counter * denom) * position) + double (next * denom)))

/-- The entry with one more line averaged in. -/
def LineEntry.average (entry : LineEntry) (line : LineGrid.Line) (referee : Referee) : LineEntry :=
  { line := { entry.line with position := nextPosition entry.counter entry.line.position line.position }
    counter := entry.counter + 1
    referees := entry.referees ++ [referee] }

def insertLine (map : LineMap) (line : LineGrid.Line) (referee : Referee) (limit : ℚ) : Option LineMap :=
  match map.nearest? absDiff line.position with
  | none => none
  | some lineIt =>
    if absDiff lineIt.1 line.position < limit then
      -- replace the line entry with an average
      let entry := lineIt.2.average line referee
      some (map.move lineIt.1 entry.line.position entry)
    else some (map.emplace line.position (.ofLine line referee))

/-- The map of the first grid's lines. -/
def initialMap (lines : List LineGrid.Line) : LineMap :=
  lines.zipIdx.foldl (fun map l => map.emplace l.1.position (.ofLine l.1 (0, l.2))) .empty

/-- Insert the lines of the grid with index `gridIndex`. -/
def insertLines (limit : ℚ) (map : LineMap) (lines : List LineGrid.Line) (gridIndex : ℕ) : Option LineMap :=
  lines.zipIdx.foldlM (fun map l => insertLine map l.1 (gridIndex, l.2) limit) map

/-- The horizontal and the vertical map after all insertions. -/
def lineMaps : List LineGrid → Option (LineMap × LineMap)
  | [] => none
  | front :: rest =>
    (rest.zipIdx 1).foldlM (fun maps it => do
      let horizontal ← insertLines limitHorizontal maps.1 it.1.horizonalLines it.2
      let vertical ← insertLines limitVertical maps.2 it.1.verticalLines it.2
      return (horizontal, vertical))
      (initialMap front.horizonalLines, initialMap front.verticalLines)

/-- `mappers[referee.first].set(referee.second, lineIndex)` for every referee. -/
def storeMapping (set : ℕ → ℕ → GridMapper → Option GridMapper) (lineIndex : ℕ) (referees : List Referee)
    (mappers : List GridMapper) : Option (List GridMapper) :=
  referees.foldlM (fun mappers referee => do
    let mapper ← mappers[referee.1]?
    let mapper ← set referee.2 lineIndex mapper
    return mappers.set referee.1 mapper) mappers

/-- Keep the entries that more than half of `size` grids have, and map their referees to them. -/
def storeLines (set : ℕ → ℕ → GridMapper → Option GridMapper) (size : ℕ) :
    List (ℚ × LineEntry) → ℕ → List GridMapper → Option (List LineGrid.Line × List GridMapper)
  | [], _, mappers => some ([], mappers)
  | line :: rest, lineIndex, mappers =>
    if line.2.counter > size / 2 then do
      let mappers ← storeMapping set lineIndex line.2.referees mappers
      let (lines, mappers) ← storeLines set size rest (lineIndex + 1) mappers
      return (line.2.line :: lines, mappers)
    else storeLines set size rest lineIndex mappers

def averageGrids (grids : List LineGrid) : Option (LineGrid × List GridMapper) := do
  let (horizontal, vertical) ← lineMaps grids
  let mappers := grids.map fun grid => GridMapper.ofSizes grid.horizonalLines.length grid.verticalLines.length
  let (horizonalLines, mappers) ← storeLines GridMapper.setHorizontal grids.length horizontal.entries 0 mappers
  let (verticalLines, mappers) ← storeLines GridMapper.setVertical grids.length vertical.entries 0 mappers
  return ({ horizonalLines, verticalLines }, mappers)

end GridMath

end Lyli.Calibration
