import Mathlib
import Lyli.Calibration.PointGrid

/-!
# `LensDetector` (`calibration/lensdetector.cpp`)

`detect` scans the mask row by row.  Each `OBJECT` pixel it meets starts a flood
fill (`findCentroid`), which adds pixels to the moments of a lens and marks them
`PROCESSED`; the centroid is refined in the grey image, recorded, and drawn into
the mask.

Each operation on `float`s or `double`s is rounded; the moments of a fill are sums
of `int`s, which a `double` holds.  The guard of the interpolation lets a position
on the last column or row through: the read past the image gives whatever byte is
found there (`past`).  A centroid of no brightness (NaN) is `none`; so is undefined
behaviour.  `Fill.pixels` and `Scan.calls` record which pixels each call has added to
its moments; nothing reads them.
-/

namespace Lyli.Calibration.LensDetector

open Rounding

/-- One above the largest `int`. -/
def intEnd : ℕ := 2 ^ 31

/-- `CV_8UC1`; `value x y` is the pixel in column `x` and row `y`. -/
structure Image8 where
  rows : ℕ
  cols : ℕ
  value : ℕ → ℕ → UInt8

namespace Image8

def load (m : Image8) (x y : ℕ) : Option UInt8 := if x < m.cols ∧ y < m.rows then some (m.value x y) else none

/-- A read that may be past the image. -/
def loadOr (m : Image8) (past : ℕ → ℕ → UInt8) (x y : ℕ) : UInt8 := (m.load x y).getD (past x y)

/-- `data[cols * y + x]`, whose index is an `int`. -/
def loadInt (m : Image8) (x y : ℕ) : Option UInt8 := if m.cols * y + x < intEnd then m.load x y else none

def set (m : Image8) (x y : ℕ) (v : UInt8) : Image8 :=
  { m with value := fun x' y' => if x' = x ∧ y' = y then v else m.value x' y' }

end Image8

namespace Mask

def empty : UInt8 := 0

def processed : UInt8 := 128

def object : UInt8 := 255

/-- What `detect` draws at a centroid. -/
def debug : UInt8 := 192

end Mask

/-- Limits the search to this many pixels from the start point at most. -/
def maxLensSize : ℕ := 15

/-! ## Flood fill -/

/-- The moments, the mask, and the pixels added to the moments so far. -/
structure Fill where
  mask : Image8
  m01 : ℕ := 0
  m10 : ℕ := 0
  sum : ℕ := 0
  pixels : List (ℕ × ℕ) := []

/-- Add a pixel to the moments and mark it.  The products with a coordinate are `int`s. -/
def accumulate (image : Image8) (x y : ℕ) (f : Fill) : Option Fill := do
  let v ← image.loadInt x y
  if y * v.toNat < intEnd ∧ x * v.toNat < intEnd then
    return {
      m10 := f.m10 + y * v.toNat
      m01 := f.m01 + x * v.toNat
      sum := f.sum + v.toNat
      mask := f.mask.set x y Mask.processed
      pixels := f.pixels ++ [(x, y)] }
  else none

/-- Fill to the left of `startx`, at most `n` pixels; the new `startx`. -/
def fillLeft (image : Image8) (y : ℕ) : ℕ → ℕ → Fill → Option (ℕ × Fill)
  | 0, startx, f => some (startx, f)
  | n + 1, startx, f => do
    if (← f.mask.loadInt (startx - 1) y) = Mask.object then
      let f ← accumulate image (startx - 1) y f
      fillLeft image y n (startx - 1) f
    else some (startx, f)

/-- Fill to the right from `x` on, at most `n` pixels; where the fill stops. -/
def fillRight (image : Image8) (y : ℕ) : ℕ → ℕ → Fill → Option (ℕ × Fill)
  | 0, x, f => some (x, f)
  | n + 1, x, f => do
    if (← f.mask.loadInt x y) = Mask.object then
      let f ← accumulate image x y f
      -- `++tmppos`
      if image.cols * y + x + 1 < intEnd then fillRight image y n (x + 1) f else none
    else some (x, f)

/-- The first object pixel from `startx` on, `n` pixels before `endx`, if there is one up to `endx`. -/
def findStart (mask : Image8) (y : ℕ) : ℕ → ℕ → Option (Option ℕ)
  | n, startx => do
    if (← mask.loadInt startx y) = Mask.object then some (some startx)
    else
      match n with
      | 0 => some none
      | n + 1 => findStart mask y n (startx + 1)

/-- Fill row by row, `n` rows at most. -/
def fillRows (image : Image8) (minx maxx : ℕ) : ℕ → ℕ → ℕ → ℕ → Fill → Option Fill
  | 0, _, _, _, f => some f
  | n + 1, y, startx, endx, f =>
    -- `endpos`
    if intEnd ≤ image.cols * y + endx then none
    else do
      if (← f.mask.loadInt startx y) = Mask.object then
        let (left, f) ← fillLeft image y (startx - minx) startx f
        let (x, f) ← fillRight image y (maxx - startx) startx f
        fillRows image minx maxx n (y + 1) left (x - 1) f
      -- past `endx` the search would not stop there
      else if endx < startx then none
      else
        match ← findStart f.mask y (endx - startx) startx with
        | none => some f
        | some startx => do
          let (x, f) ← fillRight image y (maxx - startx) startx f
          fillRows image minx maxx n (y + 1) startx (x - 1) f

variable [Rounding]

/-- A `Point2f` of two `double`s. -/
def toPoint2f (x y : ℚ) : Point2f := ⟨float x, float y⟩

/-- The centroid, none when it is not a number, and the fill. -/
def findCentroid (image mask : Image8) (start : ℕ × ℕ) : Option (Option Point2f × Fill) := do
  -- skip the objects one pixel from the edge
  if start.1 = image.cols - 1 then some (some ⟨0, 0⟩, { mask })
  else if intEnd ≤ start.1 + maxLensSize ∨ intEnd ≤ start.2 + maxLensSize then none
  else
    let maxy := min (start.2 + maxLensSize) image.rows
    let maxx := min (start.1 + maxLensSize) image.cols
    let minx := start.1 - maxLensSize
    let f ← fillRows image minx maxx (maxy - start.2) start.2 start.1 (start.1 + 1) { mask }
    return (if f.sum = 0 then none else some (toPoint2f (double (f.m01 / f.sum)) (double (f.m10 / f.sum))), f)

/-! ## Refinement -/

/-- A grey value times two weights. -/
def weighted (grey : UInt8) (v w : ℚ) : ℚ := float (float (grey.toNat * v) * w)

/-- Interpolated color at a non-integer position. -/
def getInterpolatedColor (past : ℕ → ℕ → UInt8) (image : Image8) (position : Point2f) : ℚ :=
  -- 0 if the position is out of bounds
  if position.x < 0 ∨ position.x > float (image.cols - 1) ∨ position.y < 0 ∨ position.y > float (image.rows - 1) then 0
  else
    let x0 := ⌊position.x⌋₊
    let x1 := x0 + 1
    let y0 := ⌊position.y⌋₊
    let y1 := y0 + 1
    let f00 := image.loadOr past x0 y0
    let f01 := image.loadOr past x1 y0
    let f10 := image.loadOr past x0 y1
    let f11 := image.loadOr past x1 y1
    let x0dif := float (position.x - x0)
    let x1dif := float (double (1 - x0dif))
    let y0dif := float (position.y - y0)
    let y1dif := float (double (1 - y0dif))
    float (float (float (weighted f00 y1dif x1dif + weighted f10 x0dif y1dif) + weighted f01 x1dif y0dif) +
      weighted f11 x0dif y0dif)

/-- `std::round(std::sqrt(n))`. -/
def roundSqrt (n : ℕ) : ℕ := (Nat.sqrt (4 * n) + 1) / 2

/-- The offsets of a circular neighborhood. -/
def computeMask (radius : ℕ) : List Point2f :=
  (List.range (2 * radius + 1)).flatMap fun i : ℕ =>
    let y : ℤ := radius - i
    let x0 := roundSqrt (radius * radius - y.natAbs * y.natAbs)
    (List.range (2 * x0 + 1)).map fun j : ℕ => ⟨(j : ℚ) - x0, y⟩

/-- The position of an offset around an estimate. -/
def around (estimate o : Point2f) : Point2f := ⟨float (o.x + estimate.x), float (o.y + estimate.y)⟩

/-- Add the color at an offset to `(m01, m10, sum)`. -/
def addOffset (past : ℕ → ℕ → UInt8) (image : Image8) (estimate : Point2f) (m : ℚ × ℚ × ℚ) (point : Point2f) : ℚ × ℚ × ℚ :=
  let pos := around estimate point
  let pixel := getInterpolatedColor past image pos
  (double (m.1 + float (pos.x * pixel)), double (m.2.1 + float (pos.y * pixel)), double (m.2.2 + pixel))

/-- `(m01, m10, sum)` of one neighborhood. -/
def roundMoments (past : ℕ → ℕ → UInt8) (image : Image8) (estimate : Point2f) (radius : ℕ) : ℚ × ℚ × ℚ :=
  (computeMask radius).foldl (addOffset past image estimate) (0, 0, 0)

/-- The centroid of one neighborhood, none when it is not a number. -/
def refineStep (past : ℕ → ℕ → UInt8) (image : Image8) (estimate : Point2f) (radius : ℕ) : Option Point2f :=
  let (m01, m10, sum) := roundMoments past image estimate radius
  if sum = 0 then none else some (toPoint2f (double (m01 / sum)) (double (m10 / sum)))

/-- Refine a centroid from radius 3px on, stopping at 6px. -/
def refineCentroid (past : ℕ → ℕ → UInt8) (image : Image8) (start : Point2f) : Option Point2f :=
  [3, 4, 5, 6].foldlM (refineStep past image) start

/-! ## Scan -/

/-- To the nearest integer. -/
def cvRound (q : ℚ) : ℤ := roundEven q

/-- The pixel at a point, which must be inside the image. -/
def pixelAt (m : Image8) (p : Point2f) : Option (ℕ × ℕ) :=
  let x := cvRound p.x
  let y := cvRound p.y
  if 0 ≤ x ∧ x < m.cols ∧ 0 ≤ y ∧ y < m.rows then some (x.toNat, y.toNat) else none

/-- The mask, the points found, and the pixels each call of `findCentroid` has added to its moments. -/
structure Scan where
  mask : Image8
  pointGrid : PointGrid := .empty
  calls : List (List (ℕ × ℕ)) := []

/-- What the scan does at a pixel. -/
def visit (past : ℕ → ℕ → UInt8) (image : Image8) (s : Scan) (p : ℕ × ℕ) : Option Scan := do
  if (← s.mask.load p.1 p.2) = Mask.object then
    let (centroid, fill) ← findCentroid image s.mask p
    let centroid ← centroid
    let centroid ← refineCentroid past image centroid
    let pointGrid := s.pointGrid.addPoint centroid
    -- DEBUG: store centroid in image
    let (x, y) ← pixelAt fill.mask centroid
    return { mask := fill.mask.set x y Mask.debug, pointGrid, calls := s.calls ++ [fill.pixels] }
  else return s

/-- The pixels in the order of the scan. -/
def raster (m : Image8) : List (ℕ × ℕ) :=
  (List.range m.rows).flatMap fun row => (List.range m.cols).map fun col => (col, row)

/-- The scan of `detect`, over the transposed images. -/
def scan (past : ℕ → ℕ → UInt8) (image mask : Image8) : Option Scan := (raster mask).foldlM (visit past image) { mask }

end Lyli.Calibration.LensDetector
