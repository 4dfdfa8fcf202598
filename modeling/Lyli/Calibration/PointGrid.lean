import Mathlib
import Lyli.Base.OrdMap
import Lyli.Base.Rounding
import Lyli.Base.StdSort

/-!
# `PointGrid` (`calibration/pointgrid.cpp`)

Lens centroids joined to lines.  `finalize` sweeps the points three times per
direction (`construct`, forward, reverse after re-keying) over maps whose key is
the coordinate of the point added last, then drops points that miss a line and
links every point to its lines.

A `Point*` is an address (`Ptr`); `storage` maps the live addresses to their
points.  Coordinates are rationals, and what the sweeps compute from them is
rounded (`Rounding`).  `none` is undefined behaviour: an index out of range, an
end iterator or a dangling pointer dereferenced.
-/

namespace Lyli.Calibration

inductive SubGrid
  | subgridA
  | subgridB
deriving DecidableEq

structure Point2f where
  x : ℚ
  y : ℚ
deriving DecidableEq

namespace PointGrid

abbrev Ptr := ℕ

structure Point where
  position : Point2f
  horizontalLine : ℕ
  verticalLine : ℕ
deriving DecidableEq

/-- Line consisting of pointers to the points. -/
structure Line where
  subgrid : SubGrid := .subgridA
  line : List Ptr := []
deriving DecidableEq

abbrev TmpLineMap := OrdMap ℚ Line

abbrev PointStore := AList fun _ : Ptr => Point

/-- The limiting coordinate until which new lines may be constructed. -/
def constructLim : ℚ := 20

/-- Max difference in pixels for constructing new lines. -/
def maxDiff : ℚ := 3

end PointGrid

structure PointGrid where
  accumulator : List PointGrid.Ptr
  storage : PointGrid.PointStore
  linesHorizontal : List PointGrid.Line
  linesVertical : List PointGrid.Line

namespace PointGrid

def empty : PointGrid := ⟨[], ∅, [], []⟩

instance : Inhabited PointGrid := ⟨empty⟩

/-! ## Storage -/

/-- The address `new` returns: one above every address in use. -/
def fresh (storage : PointStore) : Ptr := storage.keys.foldr (fun p n => max (p + 1) n) 0

def storageAdd (storage : PointStore) (point : Point2f) : Ptr × PointStore :=
  (fresh storage, storage.insert (fresh storage) ⟨point, 0, 0⟩)

def addPoint (g : PointGrid) (point : Point2f) : PointGrid :=
  let (stored, storage) := storageAdd g.storage point
  { g with accumulator := g.accumulator ++ [stored], storage }

/-- A fresh grid to which the points of `pts` are added in order. -/
def addPoints (pts : List Point2f) : PointGrid := pts.foldl addPoint empty

/-- `point->getPosition()`.  `finalize` reads positions before it erases any point. -/
def position (storage : PointStore) (p : Ptr) : Point2f :=
  match storage.lookup p with
  | some point => point.position
  | none => ⟨0, 0⟩

/-! ## Line maps -/

open Rounding (float absDiff)

variable [Rounding]

def pushBack (point : Ptr) (l : Line) : Line := { l with line := l.line ++ [point] }

def mapAddConstruct (lineMap : TmpLineMap) (position : ℚ) (point : Ptr) : Option TmpLineMap :=
  -- always create a new line when first point is added
  if lineMap.entries.isEmpty then
    some ((lineMap.emplace position {}).modify position (pushBack point))
  else
    match lineMap.nearest? absDiff position with
    | none => none
    | some lineIt =>
      if absDiff lineIt.1 position > maxDiff then
        some ((lineMap.emplace position {}).modify position (pushBack point))
      else
        some ((lineMap.move lineIt.1 position lineIt.2).modify position (pushBack point))

def mapAdd (lineMap : TmpLineMap) (position : ℚ) (point : Ptr) : Option TmpLineMap :=
  match lineMap.nearest? absDiff position with
  | none => none
  | some lineIt =>
    if absDiff lineIt.1 position < maxDiff then
      some ((lineMap.move lineIt.1 position lineIt.2).modify position (pushBack point))
    else some lineMap

/-- `mapAdd` each point of a range in turn, under its coordinate. -/
def addAll (coord : Ptr → ℚ) (m : TmpLineMap) (ps : List Ptr) : Option TmpLineMap :=
  ps.foldlM (fun m p => mapAdd m (coord p) p) m

/-- `mapAddConstruct` each point of a range in turn, under its coordinate. -/
def constructAll (coord : Ptr → ℚ) (m : TmpLineMap) (ps : List Ptr) : Option TmpLineMap :=
  ps.foldlM (fun m p => mapAddConstruct m (coord p) p) m

/-- Change the keys to those of the first point in each line. -/
def rekey (coord : Ptr → ℚ) (lineMap : TmpLineMap) : Option TmpLineMap :=
  lineMap.entries.foldlM (fun tmp entry => do
    let front ← entry.2.line.head?
    return tmp.emplace (coord front) entry.2) .empty

def sortLine (S : StdSort) (coord : Ptr → ℚ) (l : Line) : Line :=
  { l with line := S.sort (fun a b => decide (coord a < coord b)) l.line }

/-! ## Horizontal lines -/

/-- The points from `i` on that the construct loop handles, and the rest; `none`
when it runs past the end of the accumulator. -/
def constructLoop (pos : Ptr → Point2f) (limit : ℚ) : List Ptr → TmpLineMap → Option (TmpLineMap × List Ptr)
  | [], _ => none
  | point :: rest, m =>
    if (pos point).y < limit then do
      let m ← mapAddConstruct m (pos point).x point
      constructLoop pos limit rest m
    else some (m, point :: rest)

/-- The horizontal map after the construct loop, the forward loop and the change of keys. -/
def horizontalKeyed (g : PointGrid) : Option TmpLineMap := do
  let pos := position g.storage
  let constructStart := g.accumulator.length / 3
  let start ← g.accumulator[constructStart]?
  let construcStartPos := (pos start).y
  let (m, rest) ← constructLoop pos (float (construcStartPos + constructLim)) (g.accumulator.drop constructStart) .empty
  let m ← addAll (fun p => (pos p).x) m rest
  rekey (fun p => (pos p).x) m

/-- The points from the first third back to the first one, in the order of the reverse loop. -/
def preceding (g : PointGrid) : List Ptr := (g.accumulator.take (g.accumulator.length / 3 + 1)).reverse

def horizontalMap (g : PointGrid) : Option TmpLineMap := do
  let m ← g.horizontalKeyed
  addAll (fun p => (position g.storage p).x) m g.preceding

def pushHorizontal (lines : List Line) (l : Line) : List Line :=
  lines ++ [{ l with subgrid := if lines.length &&& 1 = 0 then .subgridA else .subgridB }]

def horizontalLines (S : StdSort) (g : PointGrid) : Option (List Line) := do
  let m ← g.horizontalMap
  return (m.values.map (sortLine S fun p => (position g.storage p).y)).foldl pushHorizontal g.linesHorizontal

/-! ## Vertical lines -/

/-- The values of `i` in `for (int i = start; i != end; i += step)`. -/
def lineRange (start stop : ℤ) : List ℤ :=
  if stop > start then (List.range (stop - start).toNat).map fun k : ℕ => start + k
  else (List.range (start - stop).toNat).map fun k : ℕ => start - k

/-- `linesHorizontal[i]`. -/
def lineAt (lines : List Line) (i : ℤ) : Option Line := if i < 0 then none else lines[i.toNat]?

/-- Feed the points of a range of horizontal lines to the inserter of the line's
parity (`σ` is what the inserters capture). -/
def verticalLineConstructor {σ : Type} (lines : List Line) (start stop : ℤ)
    (inserterOdd inserterEven : σ → Ptr → Option σ) (s : σ) : Option σ :=
  (lineRange start stop).foldlM (fun s i => do
    let tmpline ← lineAt lines i
    if i % 2 = 1 then tmpline.line.foldlM inserterEven s
    else tmpline.line.foldlM inserterOdd s) s

/-- `tmpLineMapOdd` and `tmpLineMapEven`. -/
structure VerticalMaps where
  odd : TmpLineMap
  even : TmpLineMap

def onOdd (f : TmpLineMap → ℚ → Ptr → Option TmpLineMap) (coord : Ptr → ℚ) (s : VerticalMaps) (p : Ptr) :
    Option VerticalMaps := do
  let odd ← f s.odd (coord p) p
  return { s with odd }

def onEven (f : TmpLineMap → ℚ → Ptr → Option TmpLineMap) (coord : Ptr → ℚ) (s : VerticalMaps) (p : Ptr) :
    Option VerticalMaps := do
  let even ← f s.even (coord p) p
  return { s with even }

/-- Both vertical maps after the construct rows, the following rows and the change of keys. -/
def verticalKeyed (coord : Ptr → ℚ) (lines : List Line) : Option VerticalMaps := do
  -- 6 lines in the first third of the image
  let constructStart : ℤ := (lines.length / 3 : ℕ)
  let s ← verticalLineConstructor lines constructStart (constructStart + 6)
    (onOdd mapAddConstruct coord) (onEven mapAddConstruct coord) ⟨.empty, .empty⟩
  let s ← verticalLineConstructor lines (constructStart + 6) lines.length
    (onOdd mapAdd coord) (onEven mapAdd coord) s
  let odd ← rekey coord s.odd
  let even ← rekey coord s.even
  return ⟨odd, even⟩

def verticalMaps (coord : Ptr → ℚ) (lines : List Line) : Option VerticalMaps := do
  let s ← verticalKeyed coord lines
  verticalLineConstructor lines (lines.length / 3 : ℕ) (-1) (onOdd mapAdd coord) (onEven mapAdd coord) s

/-- Merge the two maps by key; a tie takes the even line first. -/
def mergeVertical : List (ℚ × Line) → List (ℚ × Line) → List Line
  | [], even => even.map fun e => { e.2 with subgrid := .subgridB }
  | itOdd :: odd, even => go itOdd (mergeVertical odd) even
where
  go (itOdd : ℚ × Line) (next : List (ℚ × Line) → List Line) : List (ℚ × Line) → List Line
    | [] => { itOdd.2 with subgrid := .subgridA } :: next []
    | itEven :: even =>
      if itOdd.1 < itEven.1 then { itOdd.2 with subgrid := .subgridA } :: next (itEven :: even)
      else { itEven.2 with subgrid := .subgridB } :: go itOdd next even

def verticalLines (S : StdSort) (g : PointGrid) (lines : List Line) : Option (List Line) := do
  let s ← verticalMaps (fun p => (position g.storage p).y) lines
  let sortX := sortLine S fun p => (position g.storage p).x
  return g.linesVertical ++ mergeVertical (s.odd.mapVal sortX).entries (s.even.mapVal sortX).entries

/-! ## Clean-up and links -/

/-- All points of a list of lines (`testPoints`). -/
def linePoints (lines : List Line) : List Ptr := lines.flatMap (·.line)

/-- Remove from storage the points that are not in `testPoints`. -/
def cleanStorage (testPoints : List Ptr) (storage : PointStore) : PointStore :=
  storage.keys.foldl (fun st p => if p ∈ testPoints then st else st.erase p) storage

/-- Remove the points that are not in `testPoints` from a line, and from storage too. -/
def cleanLine (testPoints : List Ptr) : List Ptr → PointStore → List Ptr × PointStore
  | [], st => ([], st)
  | p :: ps, st =>
    if p ∈ testPoints then
      let (ps', st') := cleanLine testPoints ps st
      (p :: ps', st')
    else cleanLine testPoints ps (st.erase p)

def cleanLines (testPoints : List Ptr) : List Line → PointStore → List Line × PointStore
  | [], st => ([], st)
  | l :: ls, st =>
    let (line, st') := cleanLine testPoints l.line st
    let (ls', st'') := cleanLines testPoints ls st'
    ({ l with line } :: ls', st'')

/-- A write through a pointer. -/
def update (f : Point → Point) (storage : PointStore) (p : Ptr) : Option PointStore := do
  let point ← storage.lookup p
  return storage.insert p (f point)

/-- `set i` on every point of the `i`-th line. -/
def linkLines (set : ℕ → Point → Point) : ℕ → List Line → PointStore → Option PointStore
  | _, [], st => some st
  | i, l :: ls, st => do
    let st ← l.line.foldlM (update (set i)) st
    linkLines set (i + 1) ls st

def setVertical (i : ℕ) (p : Point) : Point := { p with verticalLine := i }

def setHorizontal (i : ℕ) (p : Point) : Point := { p with horizontalLine := i }

def finalize (S : StdSort) (g : PointGrid) : Option PointGrid := do
  let linesHorizontal ← g.horizontalLines S
  let linesVertical ← verticalLines S g linesHorizontal
  let storage := cleanStorage (linePoints linesHorizontal) g.storage
  let (linesHorizontal, storage) := cleanLines (linePoints linesVertical) linesHorizontal storage
  let storage ← linkLines setVertical 0 linesVertical storage
  let storage ← linkLines setHorizontal 0 linesHorizontal storage
  return { g with storage, linesHorizontal, linesVertical }

/-- `getHorizontalLineIndex()` of a stored point. -/
def horizontalLineIndex (g : PointGrid) (p : Ptr) : Option ℕ := (g.storage.lookup p).map (·.horizontalLine)

/-- `getVerticalLineIndex()` of a stored point. -/
def verticalLineIndex (g : PointGrid) (p : Ptr) : Option ℕ := (g.storage.lookup p).map (·.verticalLine)

end PointGrid

end Lyli.Calibration
