import Mathlib
import Lyli.Image.RawImage

/-!
# `demosaic` is its reference

What the loads and stores of a pass do to pixels, what one step of each pass
does to the invariant `Filled`, and from it what the four passes and the border
copies do to a whole image.
-/

namespace Lyli.Image

namespace Mat

variable {m m' : Mat} {x y c : ℕ}

/-! ## Indices -/

theorem index_lt (hx : x < m.cols) (hy : y < m.rows) (hc : c < 3) : m.index x y c < m.data.size := by
  have hrow : (y + 1) * m.cols ≤ m.rows * m.cols := Nat.mul_le_mul_right m.cols hy
  rw [m.size_data]
  unfold index
  rw [Nat.add_mul] at hrow
  omega

theorem index_div (hc : c < 3) : m.index x y c / 3 = y * m.cols + x := by
  unfold index
  omega

theorem index_mod (hc : c < 3) : m.index x y c % 3 = c := by
  unfold index
  omega

/-- An index determines the pixel and the channel. -/
theorem index_inj {x' y' c' : ℕ} (hx : x < m.cols) (hx' : x' < m.cols) (hc : c < 3) (hc' : c' < 3)
    (h : m.index x y c = m.index x' y' c') : x = x' ∧ y = y' ∧ c = c' := by
  have hcc : c = c' := by rw [← index_mod (m := m) (x := x) (y := y) hc, h, index_mod hc']
  have hpix : y * m.cols + x = y' * m.cols + x' := by
    rw [← index_div (m := m) (x := x) (y := y) hc, h, index_div hc']
  have hy := congrArg (· / m.cols) hpix
  have hxx := congrArg (· % m.cols) hpix
  have hpos : 0 < m.cols := by omega
  simp only [Nat.mul_comm y, Nat.mul_comm y', Nat.mul_add_div hpos, Nat.div_eq_of_lt hx, Nat.div_eq_of_lt hx',
    Nat.mul_add_mod, Nat.mod_eq_of_lt hx, Nat.mod_eq_of_lt hx', Nat.add_zero] at hy hxx
  exact ⟨hxx, hy, hcc⟩

@[simp] theorem ofPixels_rows (rows cols : ℕ) (f : ℕ → ℕ → ℕ → UInt16) : (ofPixels rows cols f).rows = rows := rfl

@[simp] theorem ofPixels_cols (rows cols : ℕ) (f : ℕ → ℕ → ℕ → UInt16) : (ofPixels rows cols f).cols = cols := rfl

theorem ofPixels_pixel {rows cols : ℕ} (f : ℕ → ℕ → ℕ → UInt16) (hx : x < cols) (hy : y < rows) (hc : c < 3) :
    (ofPixels rows cols f).pixel x y c = f x y c := by
  have hlt : (ofPixels rows cols f).index x y c < rows * cols * 3 := by
    have := (ofPixels rows cols f).index_lt (x := x) (y := y) (c := c) hx hy hc
    rwa [size_data] at this
  have hpos : 0 < cols := by omega
  unfold pixel
  rw [Array.getD_eq_getD_getElem?]
  show (Array.ofFn fun i : Fin (rows * cols * 3) => f (i / 3 % cols) (i / 3 / cols) (i % 3))[_]?.getD 0 = _
  rw [Array.getElem?_ofFn, dif_pos hlt, Option.getD_some]
  simp only [index_div hc, index_mod hc, ofPixels_cols, Nat.mul_comm y, Nat.mul_add_div hpos, Nat.mul_add_mod,
    Nat.div_eq_of_lt hx, Nat.mod_eq_of_lt hx, Nat.add_zero]

/-! ## Loads and stores -/

/-- The image with one channel of one pixel changed. -/
def setPixel (m : Mat) (x y c : ℕ) (v : UInt16) : Mat where
  rows := m.rows
  cols := m.cols
  data := m.data.setIfInBounds (m.index x y c) v
  size_data := by rw [Array.size_setIfInBounds, m.size_data]

@[simp] theorem setPixel_rows (v : UInt16) : (m.setPixel x y c v).rows = m.rows := rfl

@[simp] theorem setPixel_cols (v : UInt16) : (m.setPixel x y c v).cols = m.cols := rfl

theorem setPixel_pixel (hx : x < m.cols) (hy : y < m.rows) (hc : c < 3) (v : UInt16) {x' y' c' : ℕ}
    (hx' : x' < m.cols) (hc' : c' < 3) :
    (m.setPixel x y c v).pixel x' y' c' = if x' = x ∧ y' = y ∧ c' = c then v else m.pixel x' y' c' := by
  unfold pixel
  rw [Array.getD_eq_getD_getElem?, Array.getD_eq_getD_getElem?]
  show (m.data.setIfInBounds (m.index x y c) v)[m.index x' y' c']?.getD 0 = _
  rw [Array.getElem?_setIfInBounds]
  by_cases h : m.index x y c = m.index x' y' c'
  · obtain ⟨rfl, rfl, rfl⟩ := index_inj hx hx' hc hc' h
    rw [if_pos rfl, if_pos (index_lt hx hy hc), if_pos ⟨rfl, rfl, rfl⟩, Option.getD_some]
  · rw [if_neg h, if_neg]
    rintro ⟨rfl, rfl, rfl⟩
    exact h rfl

/-- `i` is the `int` index of channel `c` of pixel `(x, y)`. -/
structure At (m : Mat) (i : ℤ) (x y c : ℕ) : Prop where
  x_lt : x < m.cols
  y_lt : y < m.rows
  c_lt : c < 3
  eq : i = m.index x y c
  lt : i < intEnd

theorem At.setPixel {i : ℤ} (h : m.At i x y c) {x' y' c' : ℕ} (v : UInt16) : (m.setPixel x' y' c' v).At i x y c :=
  ⟨h.x_lt, h.y_lt, h.c_lt, h.eq, h.lt⟩

theorem load_pixel {i : ℤ} (h : m.At i x y c) : m.load i = some (m.pixel x y c) := by
  have hlt := index_lt h.x_lt h.y_lt h.c_lt
  have hi := h.eq
  unfold load pixel
  rw [if_pos ⟨by omega, h.lt⟩, hi, Int.toNat_natCast, Array.getD_eq_getD_getElem?, Array.getElem?_eq_getElem hlt,
    Option.getD_some]

theorem store_pixel {i : ℤ} (h : m.At i x y c) (v : UInt16) : m.store i v = some (m.setPixel x y c v) := by
  have hlt := index_lt h.x_lt h.y_lt h.c_lt
  have hi := h.eq
  unfold store
  rw [if_pos ⟨by omega, h.lt, by omega⟩]
  subst hi
  rfl

/-- A load that is defined had an `int` index. -/
theorem load_some {i : ℤ} {v : UInt16} (h : m.load i = some v) : i < intEnd := by
  unfold load at h
  split_ifs at h with hi
  exact hi.2

theorem store_some {i : ℤ} {v : UInt16} (h : m.store i v = some m') : m'.rows = m.rows ∧ m'.cols = m.cols := by
  unfold store at h
  split_ifs at h
  obtain rfl := Option.some.inj h
  exact ⟨rfl, rfl⟩

end Mat

namespace RawImage

variable {raw : ℕ → ℕ → UInt16} {rows cols : ℕ} {m m' : Mat}

/-! ## Values -/

theorem toUInt16_half (a b : ℕ) : toUInt16 (1 / 2 * (a + b)) = UInt16.ofNat ((a + b) / 2) := by
  unfold toUInt16
  rw [← Nat.floor_div_eq_div (K := ℚ)]
  congr 2
  push_cast
  ring

theorem toUInt16_quarter (a b c d : ℕ) : toUInt16 (1 / 4 * (a + b + c + d)) = UInt16.ofNat ((a + b + c + d) / 4) := by
  unfold toUInt16
  rw [← Nat.floor_div_eq_div (K := ℚ)]
  congr 2
  push_cast
  ring

/-- Both ways of averaging four values agree. -/
theorem bilinear_eq_avg : bilinearInterpolation = avgInterpolation := by
  funext f00 f01 f10 f11
  have h : 1 / 2 * (1 / 2 * (f00 + f10) + 1 / 2 * (f01 + f11)) = 1 / 4 * (f00 + f01 + f10 + f11) := by ring
  show toUInt16 _ = toUInt16 _
  rw [h]

/-! ## The reference at each parity -/

section Reference

variable {x y : ℕ}

theorem getColorIndex_eq (x y : ℕ) :
    getColorIndex x y = if y % 2 = 1 then (if x % 2 = 1 then 0 else 1) else if x % 2 = 1 then 1 else 2 := by
  unfold getColorIndex
  simp only [Nat.and_one_is_mod]
  rcases Nat.mod_two_eq_zero_or_one x with hx | hx <;> rcases Nat.mod_two_eq_zero_or_one y with hy | hy <;>
    simp [hx, hy]

/-! The mosaic: red in the odd columns of the odd rows, blue in the even columns of the even rows, green between. -/

theorem getColorIndex_red (hx : x % 2 = 1) (hy : y % 2 = 1) : getColorIndex x y = 0 := by
  rw [getColorIndex_eq, if_pos hy, if_pos hx]

theorem getColorIndex_redLine (hx : x % 2 = 0) (hy : y % 2 = 1) : getColorIndex x y = 1 := by
  rw [getColorIndex_eq, if_pos hy, if_neg (by omega)]

theorem getColorIndex_blueLine (hx : x % 2 = 1) (hy : y % 2 = 0) : getColorIndex x y = 1 := by
  rw [getColorIndex_eq, if_neg (by omega), if_pos hx]

theorem getColorIndex_blue (hx : x % 2 = 0) (hy : y % 2 = 0) : getColorIndex x y = 2 := by
  rw [getColorIndex_eq, if_neg (by omega), if_neg (by omega)]

/-- The mean of two samples around pixel `(x + 1, y + 1)`, given by their offsets. -/
def mean2 (raw : ℕ → ℕ → UInt16) (a b : ℕ × ℕ) : UInt16 :=
  UInt16.ofNat (((raw a.1 a.2).toNat + (raw b.1 b.2).toNat) / 2)

def mean4 (raw : ℕ → ℕ → UInt16) (a b c d : ℕ × ℕ) : UInt16 :=
  UInt16.ofNat (((raw a.1 a.2).toNat + (raw b.1 b.2).toNat + (raw c.1 c.2).toNat + (raw d.1 d.2).toNat) / 4)

theorem block_succ (x y : ℕ) :
    block (x + 1) (y + 1) = [(x, y), (x + 1, y), (x + 2, y), (x, y + 1), (x + 1, y + 1), (x + 2, y + 1),
      (x, y + 2), (x + 1, y + 2), (x + 2, y + 2)] := rfl

theorem reference_redLine (hx : x % 2 = 1) (hy : y % 2 = 0) :
    reference raw 0 (x + 1) (y + 1) = mean2 raw (x, y + 1) (x + 2, y + 1) ∧
      reference raw 2 (x + 1) (y + 1) = mean2 raw (x + 1, y) (x + 1, y + 2) := by
  have h₁ : (x + 1) % 2 = 0 := by omega
  have h₂ : (y + 1) % 2 = 1 := by omega
  have h₃ : (x + 2) % 2 = 1 := by omega
  have h₄ : (y + 2) % 2 = 0 := by omega
  simp [reference, block_succ, getColorIndex_eq, mean2, h₁, h₂, h₃, h₄, hx, hy]

theorem reference_blueLine (hx : x % 2 = 0) (hy : y % 2 = 1) :
    reference raw 0 (x + 1) (y + 1) = mean2 raw (x + 1, y) (x + 1, y + 2) ∧
      reference raw 2 (x + 1) (y + 1) = mean2 raw (x, y + 1) (x + 2, y + 1) := by
  have h₁ : (x + 1) % 2 = 1 := by omega
  have h₂ : (y + 1) % 2 = 0 := by omega
  have h₃ : (x + 2) % 2 = 0 := by omega
  have h₄ : (y + 2) % 2 = 1 := by omega
  simp [reference, block_succ, getColorIndex_eq, mean2, h₁, h₂, h₃, h₄, hx, hy]

theorem reference_redMiddle (hx : x % 2 = 1) (hy : y % 2 = 1) :
    reference raw 0 (x + 1) (y + 1) = mean4 raw (x, y + 2) (x, y) (x + 2, y + 2) (x + 2, y) ∧
      reference raw 1 (x + 1) (y + 1) = mean4 raw (x, y + 1) (x + 2, y + 1) (x + 1, y) (x + 1, y + 2) := by
  have h₁ : (x + 1) % 2 = 0 := by omega
  have h₂ : (y + 1) % 2 = 0 := by omega
  have h₃ : (x + 2) % 2 = 1 := by omega
  have h₄ : (y + 2) % 2 = 1 := by omega
  constructor
  · simp [reference, block_succ, getColorIndex_eq, mean4, h₁, h₂, h₃, h₄, hx, hy]
    congr 2
    omega
  · simp [reference, block_succ, getColorIndex_eq, mean4, h₁, h₂, h₃, h₄, hx, hy]
    congr 2
    omega

theorem reference_blueMiddle (hx : x % 2 = 0) (hy : y % 2 = 0) :
    reference raw 2 (x + 1) (y + 1) = mean4 raw (x, y + 2) (x, y) (x + 2, y + 2) (x + 2, y) ∧
      reference raw 1 (x + 1) (y + 1) = mean4 raw (x, y + 1) (x + 2, y + 1) (x + 1, y) (x + 1, y + 2) := by
  have h₁ : (x + 1) % 2 = 1 := by omega
  have h₂ : (y + 1) % 2 = 1 := by omega
  have h₃ : (x + 2) % 2 = 0 := by omega
  have h₄ : (y + 2) % 2 = 0 := by omega
  constructor
  · simp [reference, block_succ, getColorIndex_eq, mean4, h₁, h₂, h₃, h₄, hx, hy]
    congr 2
    omega
  · simp [reference, block_succ, getColorIndex_eq, mean4, h₁, h₂, h₃, h₄, hx, hy]
    congr 2
    omega

end Reference

/-! ## One store of a pass -/

/-- The samples stand where they were. -/
structure Native (raw : ℕ → ℕ → UInt16) (rows cols : ℕ) (m : Mat) : Prop where
  rows_eq : m.rows = rows
  cols_eq : m.cols = cols
  native : ∀ x < cols, ∀ y < rows, m.pixel x y (getColorIndex x y) = raw x y

theorem getColorIndex_lt (x y : ℕ) : getColorIndex x y < 3 := by
  rw [getColorIndex_eq]
  split_ifs <;> omega

theorem Native.setPixel (h : Native raw rows cols m) {i : ℤ} {x y c : ℕ} (hi : m.At i x y c)
    (hc : c ≠ getColorIndex x y) (v : UInt16) : Native raw rows cols (m.setPixel x y c v) := by
  refine ⟨h.rows_eq, h.cols_eq, fun x' hx' y' hy' => ?_⟩
  rw [Mat.setPixel_pixel hi.x_lt hi.y_lt hi.c_lt v (h.cols_eq ▸ hx') (getColorIndex_lt x' y'), if_neg]
  · exact h.native x' hx' y' hy'
  · rintro ⟨rfl, rfl, hcc⟩
    exact hc hcc.symm

/-- A load of a sample. -/
theorem Native.load (h : Native raw rows cols m) {i : ℤ} {x y : ℕ} (hi : m.At i x y (getColorIndex x y)) :
    m.load i = some (raw x y) := by
  rw [Mat.load_pixel hi, h.native x (h.cols_eq ▸ hi.x_lt) y (h.rows_eq ▸ hi.y_lt)]

theorem half_native (h : Native raw rows cols m) {t a b : ℤ} {x y c : ℕ} {pa pb : ℕ × ℕ} (ht : m.At t x y c)
    (ha : m.At a pa.1 pa.2 (getColorIndex pa.1 pa.2)) (hb : m.At b pb.1 pb.2 (getColorIndex pb.1 pb.2)) :
    half m t a b = some (m.setPixel x y c (mean2 raw pa pb)) := by
  unfold half mean2
  rw [h.load ha, h.load hb, ← toUInt16_half]
  exact Mat.store_pixel ht _

theorem quarter_native {f : ℚ → ℚ → ℚ → ℚ → UInt16} (hf : f = avgInterpolation) (h : Native raw rows cols m)
    {t a b c d : ℤ} {x y k : ℕ} {pa pb pc pd : ℕ × ℕ} (ht : m.At t x y k)
    (ha : m.At a pa.1 pa.2 (getColorIndex pa.1 pa.2)) (hb : m.At b pb.1 pb.2 (getColorIndex pb.1 pb.2))
    (hc : m.At c pc.1 pc.2 (getColorIndex pc.1 pc.2)) (hd : m.At d pd.1 pd.2 (getColorIndex pd.1 pd.2)) :
    quarter f m t a b c d = some (m.setPixel x y k (mean4 raw pa pb pc pd)) := by
  subst hf
  unfold quarter mean4
  rw [h.load ha, h.load hb, h.load hc, h.load hd, ← toUInt16_quarter]
  exact Mat.store_pixel ht _

/-! ## One step of a pass -/

/-- The samples stand where they were, and the pixels of `D` are done. -/
structure Filled (raw : ℕ → ℕ → UInt16) (rows cols : ℕ) (D : ℕ → ℕ → Prop) (m : Mat) : Prop
    extends Native raw rows cols m where
  done : ∀ x < cols, ∀ y < rows, D x y → ∀ c < 3, m.pixel x y c = reference raw c x y

/-- **A step** writes the two channels of a pixel that have no sample. -/
theorem Filled.step {D : ℕ → ℕ → Prop} (h : Filled raw rows cols D m) {i j : ℤ} {x y c₁ c₂ : ℕ} (hi : m.At i x y c₁)
    (hj : m.At j x y c₂) (h₁ : c₁ ≠ getColorIndex x y) (h₂ : c₂ ≠ getColorIndex x y) (h₁₂ : c₁ ≠ c₂) :
    Filled raw rows cols (fun x' y' => D x' y' ∨ (x' = x ∧ y' = y))
      ((m.setPixel x y c₁ (reference raw c₁ x y)).setPixel x y c₂ (reference raw c₂ x y)) := by
  have hn₁ := h.toNative.setPixel hi h₁ (reference raw c₁ x y)
  refine ⟨hn₁.setPixel (hj.setPixel _) h₂ _, fun x' hx' y' hy' hD c hc => ?_⟩
  rw [← h.cols_eq] at hx'
  rw [Mat.setPixel_pixel (m := m.setPixel x y c₁ _) hj.x_lt hj.y_lt hj.c_lt _ hx' hc,
    Mat.setPixel_pixel hi.x_lt hi.y_lt hi.c_lt _ hx' hc]
  by_cases hxy : x' = x ∧ y' = y
  · obtain ⟨rfl, rfl⟩ := hxy
    have hlt₁ := hi.c_lt
    have hlt₂ := hj.c_lt
    have hnat := getColorIndex_lt x' y'
    by_cases hc₂ : c = c₂
    · rw [if_pos ⟨rfl, rfl, hc₂⟩, hc₂]
    · rw [if_neg (fun hh => hc₂ hh.2.2)]
      by_cases hc₁ : c = c₁
      · rw [if_pos ⟨rfl, rfl, hc₁⟩, hc₁]
      · -- the third channel is the sample
        rw [if_neg (fun hh => hc₁ hh.2.2)]
        obtain rfl : c = getColorIndex x' y' := by omega
        rw [h.native x' (h.cols_eq ▸ hx') y' hy', reference, if_pos rfl]
  · rw [if_neg (fun hh => hxy ⟨hh.1, hh.2.1⟩), if_neg (fun hh => hxy ⟨hh.1, hh.2.1⟩)]
    exact h.done x' (h.cols_eq ▸ hx') y' hy' (hD.resolve_right hxy) c hc

/-- The largest index that the step at pixel `(x, y)` uses. -/
def lastIndex (cols x y : ℕ) : ℤ :=
  let below : ℤ := (y * cols + x) * 3 + cols * 3
  if y % 2 = 1 then (if x % 2 = 1 then below + 3 + 2 else below + 2)
  else if x % 2 = 1 then below else below + 3

theorem Native.yOff_eq (h : Native raw rows cols m) : yOff m = cols * 3 := by
  unfold yOff
  rw [h.cols_eq]

section Steps

variable {D : ℕ → ℕ → Prop} {x y : ℕ} {p : ℤ} (hx : x + 2 < cols) (hy : y + 2 < rows)
  (hp : p = ((y + 1 : ℕ) * cols + (x + 1 : ℕ)) * 3)

include hx hy hp

/-- The index of the neighbour at offset `(dx - 1, dy - 1)` of pixel `(x + 1, y + 1)`. -/
theorem Native.at (h : Native raw rows cols m) (dx dy c : ℕ) (hd : dx ≤ 2 ∧ dy ≤ 2 ∧ c < 3) {i : ℤ}
    (hi : i = p + (dx - 1) * xOff + (dy - 1) * (cols * 3) + c) (hlt : i < Mat.intEnd) : m.At i (x + dx) (y + dy) c := by
  refine ⟨by rw [h.cols_eq]; omega, by rw [h.rows_eq]; omega, hd.2.2, ?_, hlt⟩
  rw [hi, hp]
  unfold xOff Mat.index
  rw [h.cols_eq]
  push_cast
  ring

/-- A neighbour that has a sample of channel `c`. -/
theorem Native.sample (h : Native raw rows cols m) (dx dy : ℕ) {c : ℕ} (hc : getColorIndex (x + dx) (y + dy) = c)
    (hd : dx ≤ 2 ∧ dy ≤ 2) {i : ℤ} (hi : i = p + (dx - 1) * xOff + (dy - 1) * (cols * 3) + c)
    (hlt : i < Mat.intEnd) : m.At i (x + dx) (y + dy) (getColorIndex (x + dx) (y + dy)) := by
  refine h.at hx hy hp dx dy _ ⟨hd.1, hd.2, getColorIndex_lt _ _⟩ ?_ hlt
  rw [hc]
  exact hi

/-- A channel from the left and right neighbours. -/
theorem half_beside (h : Native raw rows cols m) {c : ℕ} (hc : c < 3) (hl : getColorIndex x (y + 1) = c)
    (hr : getColorIndex (x + 2) (y + 1) = c) (hfit : p + xOff + c < Mat.intEnd) {t a b : ℤ} (ht : t = p + c)
    (ha : a = p - xOff + c) (hb : b = p + xOff + c) :
    half m t a b = some (m.setPixel (x + 1) (y + 1) c (mean2 raw (x, y + 1) (x + 2, y + 1))) := by
  have hoff : xOff = 3 := rfl
  refine half_native h (h.at hx hy hp 1 1 c ⟨by omega, by omega, hc⟩ ?_ (by omega))
    (h.sample hx hy hp 0 1 hl (by decide) ?_ (by omega)) (h.sample hx hy hp 2 1 hr (by decide) ?_ (by omega))
  · rw [ht]; push_cast; ring
  · rw [ha]; push_cast; ring
  · rw [hb]; push_cast; ring

/-- A channel from the neighbours above and below. -/
theorem half_aboveBelow (h : Native raw rows cols m) {c : ℕ} (hc : c < 3) (hl : getColorIndex (x + 1) y = c)
    (hr : getColorIndex (x + 1) (y + 2) = c) (hfit : p + cols * 3 + c < Mat.intEnd) {t a b : ℤ} (ht : t = p + c)
    (ha : a = p - yOff m + c) (hb : b = p + yOff m + c) :
    half m t a b = some (m.setPixel (x + 1) (y + 1) c (mean2 raw (x + 1, y) (x + 1, y + 2))) := by
  rw [h.yOff_eq] at ha hb
  refine half_native h (h.at hx hy hp 1 1 c ⟨by omega, by omega, hc⟩ ?_ (by omega))
    (h.sample hx hy hp 1 0 hl (by decide) ?_ (by omega)) (h.sample hx hy hp 1 2 hr (by decide) ?_ (by omega))
  · rw [ht]; push_cast; ring
  · rw [ha]; push_cast; ring
  · rw [hb]; push_cast; ring

/-- A channel from the four diagonal neighbours. -/
theorem quarter_diagonal (h : Native raw rows cols m) {c : ℕ} (hc : c < 3) (h₁ : getColorIndex x (y + 2) = c)
    (h₂ : getColorIndex x y = c) (h₃ : getColorIndex (x + 2) (y + 2) = c) (h₄ : getColorIndex (x + 2) y = c)
    (hfit : p + xOff + cols * 3 + c < Mat.intEnd) {t i₁ i₂ i₃ i₄ : ℤ} (ht : t = p + c)
    (e₁ : i₁ = p - xOff + yOff m + c) (e₂ : i₂ = p - xOff - yOff m + c) (e₃ : i₃ = p + xOff + yOff m + c)
    (e₄ : i₄ = p + xOff - yOff m + c) :
    quarter bilinearInterpolation m t i₁ i₂ i₃ i₄ = some (m.setPixel (x + 1) (y + 1) c
      (mean4 raw (x, y + 2) (x, y) (x + 2, y + 2) (x + 2, y))) := by
  have hoff : xOff = 3 := rfl
  rw [h.yOff_eq] at e₁ e₂ e₃ e₄
  refine quarter_native bilinear_eq_avg h (h.at hx hy hp 1 1 c ⟨by omega, by omega, hc⟩ ?_ (by omega))
    (h.sample hx hy hp 0 2 h₁ (by decide) ?_ (by omega)) (h.sample hx hy hp 0 0 h₂ (by decide) ?_ (by omega))
    (h.sample hx hy hp 2 2 h₃ (by decide) ?_ (by omega)) (h.sample hx hy hp 2 0 h₄ (by decide) ?_ (by omega))
  · rw [ht]; push_cast; ring
  · rw [e₁]; push_cast; ring
  · rw [e₂]; push_cast; ring
  · rw [e₃]; push_cast; ring
  · rw [e₄]; push_cast; ring

/-- Green from the four neighbours beside, above and below. -/
theorem quarter_cross (h : Native raw rows cols m) (h₁ : getColorIndex x (y + 1) = 1)
    (h₂ : getColorIndex (x + 2) (y + 1) = 1) (h₃ : getColorIndex (x + 1) y = 1)
    (h₄ : getColorIndex (x + 1) (y + 2) = 1) (hfit : p + cols * 3 + 1 < Mat.intEnd) :
    quarter avgInterpolation m (p + 1) (p - xOff + 1) (p + xOff + 1) (p - yOff m + 1) (p + yOff m + 1) =
      some (m.setPixel (x + 1) (y + 1) 1 (mean4 raw (x, y + 1) (x + 2, y + 1) (x + 1, y) (x + 1, y + 2))) := by
  have hoff : xOff = 3 := rfl
  rw [h.yOff_eq]
  refine quarter_native rfl h (h.at hx hy hp 1 1 1 (by decide) ?_ (by omega))
    (h.sample hx hy hp 0 1 h₁ (by decide) ?_ (by omega)) (h.sample hx hy hp 2 1 h₂ (by decide) ?_ (by omega))
    (h.sample hx hy hp 1 0 h₃ (by decide) ?_ (by omega)) (h.sample hx hy hp 1 2 h₄ (by decide) ?_ (by omega))
  all_goals
    push_cast
    ring

/-- **One step** that writes the references of the two channels without a sample. -/
theorem Filled.body (h : Filled raw rows cols D m) {f g : Mat → Option Mat} {c₁ c₂ : ℕ} (hd₁ : c₁ < 3) (hd₂ : c₂ < 3)
    (hfit : p + 2 < Mat.intEnd) (hc₁ : c₁ ≠ getColorIndex (x + 1) (y + 1)) (hc₂ : c₂ ≠ getColorIndex (x + 1) (y + 1))
    (hne : c₁ ≠ c₂)
    (hf : ∀ m, Native raw rows cols m → f m = some (m.setPixel (x + 1) (y + 1) c₁ (reference raw c₁ (x + 1) (y + 1))))
    (hg : ∀ m, Native raw rows cols m → g m = some (m.setPixel (x + 1) (y + 1) c₂ (reference raw c₂ (x + 1) (y + 1)))) :
    ∃ m', (f m).bind g = some m' ∧ Filled raw rows cols (fun x' y' => D x' y' ∨ (x' = x + 1 ∧ y' = y + 1)) m' := by
  have hat : ∀ c : ℕ, c < 3 → m.At (p + c) (x + 1) (y + 1) c := by
    intro c hc
    refine h.toNative.at hx hy hp 1 1 c ⟨by omega, by omega, hc⟩ ?_ (by omega)
    push_cast
    ring
  have hn := h.toNative.setPixel (hat c₁ hd₁) hc₁ (reference raw c₁ (x + 1) (y + 1))
  exact ⟨_, Option.bind_eq_some_iff.mpr ⟨_, hf m h.toNative, hg _ hn⟩, h.step (hat c₁ hd₁) (hat c₂ hd₂) hc₁ hc₂ hne⟩

end Steps

section Bodies

variable {D : ℕ → ℕ → Prop} {x y : ℕ} (h : Filled raw rows cols D m) (hx : x + 2 < cols) (hy : y + 2 < rows)
  (hfit : lastIndex cols (x + 1) (y + 1) < Mat.intEnd)

include h hx hy hfit

theorem redLineBlueStripe_filled (hxp : x % 2 = 1) (hyp : y % 2 = 0) :
    ∃ m', redLineBlueStripe m (x + 1) (y + 1) = some m' ∧
      Filled raw rows cols (fun x' y' => D x' y' ∨ (x' = x + 1 ∧ y' = y + 1)) m' := by
  have hoff : xOff = 3 := rfl
  have hp : pos m (x + 1) (y + 1) = ((y + 1 : ℕ) * cols + (x + 1 : ℕ)) * 3 := by rw [pos, h.cols_eq]
  unfold lastIndex at hfit
  rw [if_pos (by omega), if_neg (by omega), ← hp] at hfit
  have hcol : getColorIndex (x + 1) (y + 1) = 1 := getColorIndex_redLine (by omega) (by omega)
  obtain ⟨hred, hblue⟩ := @reference_redLine raw x y hxp hyp
  let p := pos m (x + 1) (y + 1)
  refine h.body (f := fun m => half m p (p - xOff) (p + xOff)) (g := fun m => half m (p + 2) (p - yOff m + 2) (p + yOff m + 2))
    hx hy hp (by omega : 0 < 3) (by omega : 2 < 3) (by omega) (by omega) (by omega) (by omega) ?_ ?_
  · intro m hm
    rw [hred]
    refine half_beside hx hy hp hm (by omega) ?_ ?_ (by push_cast; omega) (by simp [p]) (by simp [p]) (by simp [p])
    · exact getColorIndex_red (by omega) (by omega)
    · exact getColorIndex_red (by omega) (by omega)
  · intro m hm
    rw [hblue]
    refine half_aboveBelow hx hy hp hm (by omega) ?_ ?_ (by push_cast; omega) (by simp [p]) (by simp [p]) (by simp [p])
    · exact getColorIndex_blue (by omega) (by omega)
    · exact getColorIndex_blue (by omega) (by omega)

theorem redStripeBlueLine_filled (hxp : x % 2 = 0) (hyp : y % 2 = 1) :
    ∃ m', redStripeBlueLine m (x + 1) (y + 1) = some m' ∧
      Filled raw rows cols (fun x' y' => D x' y' ∨ (x' = x + 1 ∧ y' = y + 1)) m' := by
  have hoff : xOff = 3 := rfl
  have hp : pos m (x + 1) (y + 1) = ((y + 1 : ℕ) * cols + (x + 1 : ℕ)) * 3 := by rw [pos, h.cols_eq]
  unfold lastIndex at hfit
  rw [if_neg (by omega), if_pos (by omega), ← hp] at hfit
  have hcol : getColorIndex (x + 1) (y + 1) = 1 := getColorIndex_blueLine (by omega) (by omega)
  obtain ⟨hred, hblue⟩ := @reference_blueLine raw x y hxp hyp
  let p := pos m (x + 1) (y + 1)
  refine h.body (f := fun m => half m p (p - yOff m) (p + yOff m)) (g := fun m => half m (p + 2) (p - xOff + 2) (p + xOff + 2))
    hx hy hp (by omega : 0 < 3) (by omega : 2 < 3) (by omega) (by omega) (by omega) (by omega) ?_ ?_
  · intro m hm
    rw [hred]
    refine half_aboveBelow hx hy hp hm (by omega) ?_ ?_ (by push_cast; omega) (by simp [p]) (by simp [p]) (by simp [p])
    · exact getColorIndex_red (by omega) (by omega)
    · exact getColorIndex_red (by omega) (by omega)
  · intro m hm
    rw [hblue]
    refine half_beside hx hy hp hm (by omega) ?_ ?_ (by push_cast; omega) (by simp [p]) (by simp [p]) (by simp [p])
    · exact getColorIndex_blue (by omega) (by omega)
    · exact getColorIndex_blue (by omega) (by omega)

theorem redMiddleGreen_filled (hxp : x % 2 = 1) (hyp : y % 2 = 1) :
    ∃ m', redMiddleGreen m (x + 1) (y + 1) = some m' ∧
      Filled raw rows cols (fun x' y' => D x' y' ∨ (x' = x + 1 ∧ y' = y + 1)) m' := by
  have hoff : xOff = 3 := rfl
  have hp : pos m (x + 1) (y + 1) = ((y + 1 : ℕ) * cols + (x + 1 : ℕ)) * 3 := by rw [pos, h.cols_eq]
  unfold lastIndex at hfit
  rw [if_neg (by omega), if_neg (by omega), ← hp] at hfit
  have hcol : getColorIndex (x + 1) (y + 1) = 2 := getColorIndex_blue (by omega) (by omega)
  obtain ⟨hred, hgreen⟩ := @reference_redMiddle raw x y hxp hyp
  let p := pos m (x + 1) (y + 1)
  refine h.body (f := fun m => quarter bilinearInterpolation m p (p - xOff + yOff m) (p - xOff - yOff m)
      (p + xOff + yOff m) (p + xOff - yOff m))
    (g := fun m => quarter avgInterpolation m (p + 1) (p - xOff + 1) (p + xOff + 1) (p - yOff m + 1) (p + yOff m + 1))
    hx hy hp (by omega : 0 < 3) (by omega : 1 < 3) (by omega) (by omega) (by omega) (by omega) ?_ ?_
  · intro m hm
    rw [hred]
    refine quarter_diagonal hx hy hp hm (by omega) ?_ ?_ ?_ ?_ (by push_cast; omega) (by simp [p]) (by simp [p]) (by simp [p])
      (by simp [p]) (by simp [p])
    all_goals exact getColorIndex_red (by omega) (by omega)
  · intro m hm
    rw [hgreen]
    refine quarter_cross hx hy hp hm ?_ ?_ ?_ ?_ (by omega)
    · exact getColorIndex_blueLine (by omega) (by omega)
    · exact getColorIndex_blueLine (by omega) (by omega)
    · exact getColorIndex_redLine (by omega) (by omega)
    · exact getColorIndex_redLine (by omega) (by omega)

theorem blueMiddleGreen_filled (hxp : x % 2 = 0) (hyp : y % 2 = 0) :
    ∃ m', blueMiddleGreen m (x + 1) (y + 1) = some m' ∧
      Filled raw rows cols (fun x' y' => D x' y' ∨ (x' = x + 1 ∧ y' = y + 1)) m' := by
  have hoff : xOff = 3 := rfl
  have hp : pos m (x + 1) (y + 1) = ((y + 1 : ℕ) * cols + (x + 1 : ℕ)) * 3 := by rw [pos, h.cols_eq]
  unfold lastIndex at hfit
  rw [if_pos (by omega), if_pos (by omega), ← hp] at hfit
  have hcol : getColorIndex (x + 1) (y + 1) = 0 := getColorIndex_red (by omega) (by omega)
  obtain ⟨hblue, hgreen⟩ := @reference_blueMiddle raw x y hxp hyp
  let p := pos m (x + 1) (y + 1)
  refine h.body (f := fun m => quarter bilinearInterpolation m (p + 2) (p - xOff + yOff m + 2)
      (p - xOff - yOff m + 2) (p + xOff + yOff m + 2) (p + xOff - yOff m + 2))
    (g := fun m => quarter avgInterpolation m (p + 1) (p - xOff + 1) (p + xOff + 1) (p - yOff m + 1) (p + yOff m + 1))
    hx hy hp (by omega : 2 < 3) (by omega : 1 < 3) (by omega) (by omega) (by omega) (by omega) ?_ ?_
  · intro m hm
    rw [hblue]
    refine quarter_diagonal hx hy hp hm (by omega) ?_ ?_ ?_ ?_ (by push_cast; omega) (by simp [p]) (by simp [p]) (by simp [p])
      (by simp [p]) (by simp [p])
    all_goals exact getColorIndex_blue (by omega) (by omega)
  · intro m hm
    rw [hgreen]
    refine quarter_cross hx hy hp hm ?_ ?_ ?_ ?_ (by omega)
    · exact getColorIndex_redLine (by omega) (by omega)
    · exact getColorIndex_redLine (by omega) (by omega)
    · exact getColorIndex_blueLine (by omega) (by omega)
    · exact getColorIndex_blueLine (by omega) (by omega)

end Bodies

/-! ## One pass -/

theorem mem_steps {start stop v : ℕ} : v ∈ steps start stop ↔ start ≤ v ∧ v < stop ∧ v % 2 = start % 2 := by
  unfold steps
  simp only [List.mem_map, List.mem_range]
  constructor
  · rintro ⟨k, hk, rfl⟩
    omega
  · rintro ⟨h₁, h₂, h₃⟩
    exact ⟨(v - start) / 2, by omega, by omega⟩

theorem Filled.mono {D D' : ℕ → ℕ → Prop} (h : Filled raw rows cols D m) (hD : ∀ x y, D' x y → D x y) :
    Filled raw rows cols D' m :=
  ⟨h.toNative, fun x hx y hy hd => h.done x hx y hy (hD x y hd)⟩

/-- **A pass** is defined and does every pixel it visits, if each step does. -/
theorem pass_filled (x₀ y₀ : ℕ) (body : Mat → ℕ → ℕ → Option Mat) {D : ℕ → ℕ → Prop}
    (hbody : ∀ (D : ℕ → ℕ → Prop) (m : Mat) (x y : ℕ), Filled raw rows cols D m → x ∈ steps x₀ (cols - 1) →
      y ∈ steps y₀ (rows - 1) →
      ∃ m', body m x y = some m' ∧ Filled raw rows cols (fun x' y' => D x' y' ∨ (x' = x ∧ y' = y)) m')
    (h : Filled raw rows cols D m) :
    ∃ m', pass x₀ y₀ body m = some m' ∧
      Filled raw rows cols (fun x y => D x y ∨ (x ∈ steps x₀ (cols - 1) ∧ y ∈ steps y₀ (rows - 1))) m' := by
  unfold pass
  rw [h.rows_eq]
  refine foldlM_total (fun ys s => Filled raw rows cols (fun x y => D x y ∨ (x ∈ steps x₀ (cols - 1) ∧ y ∈ ys)) s)
    (h.mono fun x y hd => hd.resolve_right fun hh => by simp at hh) ?_
  intro ys y _ s hys hs
  have hy : y ∈ steps y₀ (rows - 1) := hys ▸ by simp
  rw [hs.cols_eq]
  -- along one row
  obtain ⟨s', hs', hrow⟩ := foldlM_total (f := fun m x => body m x y) (l := steps x₀ (cols - 1)) (b := s)
    (fun xs s => Filled raw rows cols
      (fun x' y' => (D x' y' ∨ (x' ∈ steps x₀ (cols - 1) ∧ y' ∈ ys)) ∨ (x' ∈ xs ∧ y' = y)) s)
    (hs.mono fun x y hd => hd.resolve_right fun hh => by simp at hh) <| by
      intro xs x _ t hxs ht
      obtain ⟨t', ht', hfill⟩ := hbody _ t x y ht (hxs ▸ by simp) hy
      refine ⟨t', ht', hfill.mono ?_⟩
      rintro x' y' (hd | ⟨hx', rfl⟩)
      · exact Or.inl (Or.inl hd)
      · rcases List.mem_append.mp hx' with hx' | hx'
        · exact Or.inl (Or.inr ⟨hx', rfl⟩)
        · exact Or.inr ⟨List.mem_singleton.mp hx', rfl⟩
  refine ⟨s', hs', hrow.mono ?_⟩
  rintro x' y' (hd | ⟨hx', hy'⟩)
  · exact Or.inl (Or.inl hd)
  · rcases List.mem_append.mp hy' with hy' | hy'
    · exact Or.inl (Or.inr ⟨hx', hy'⟩)
    · exact Or.inr ⟨hx', List.mem_singleton.mp hy'⟩

/-! ## Overflow -/

/-- Every index that a step at an interior pixel uses fits an `int`. -/
def IndicesFit (rows cols : ℕ) : Prop :=
  ∀ x y, 1 ≤ x → x < cols - 1 → 1 ≤ y → y < rows - 1 → lastIndex cols x y < Mat.intEnd

/-- Indices fit where the buffer has at most `2 ^ 31` values … -/
theorem indicesFit_of_size (h : rows * cols * 3 ≤ 2 ^ 31) : IndicesFit rows cols := by
  intro x y hx hx' hy hy'
  have hrow : (y + 2) * cols ≤ rows * cols := Nat.mul_le_mul_right cols (by omega)
  rw [Nat.add_mul] at hrow
  unfold lastIndex Mat.intEnd
  split_ifs <;> push_cast <;> omega

/-- … and no longer where it has 6 more. -/
theorem size_of_indicesFit (hrows : 3 ≤ rows) (hcols : 3 ≤ cols) (h : IndicesFit rows cols) :
    rows * cols * 3 < 2 ^ 31 + 6 := by
  have hlast := h (cols - 2) (rows - 2) (by omega) (by omega) (by omega) (by omega)
  have hrow : (rows - 2) * cols + 2 * cols = rows * cols := by
    rw [← Nat.add_mul]
    congr 1
    omega
  unfold lastIndex Mat.intEnd at hlast
  push_cast at hlast
  split_ifs at hlast <;> omega

/-- Same size. -/
def SameSize (m m' : Mat) : Prop := m'.rows = m.rows ∧ m'.cols = m.cols

theorem half_some {t a b : ℤ} (h : half m t a b = some m') : SameSize m m' ∧ b < Mat.intEnd := by
  obtain ⟨va, -, h⟩ := Option.bind_eq_some_iff.mp h
  obtain ⟨vb, hb, h⟩ := Option.bind_eq_some_iff.mp h
  exact ⟨Mat.store_some h, Mat.load_some hb⟩

theorem quarter_some {f : ℚ → ℚ → ℚ → ℚ → UInt16} {t a b c d : ℤ} (h : quarter f m t a b c d = some m') :
    SameSize m m' ∧ c < Mat.intEnd := by
  obtain ⟨va, -, h⟩ := Option.bind_eq_some_iff.mp h
  obtain ⟨vb, -, h⟩ := Option.bind_eq_some_iff.mp h
  obtain ⟨vc, hc, h⟩ := Option.bind_eq_some_iff.mp h
  obtain ⟨vd, -, h⟩ := Option.bind_eq_some_iff.mp h
  exact ⟨Mat.store_some h, Mat.load_some hc⟩

theorem redLineBlueStripe_some {x y : ℕ} (h : redLineBlueStripe m x y = some m') :
    SameSize m m' ∧ pos m x y + yOff m + 2 < Mat.intEnd := by
  obtain ⟨m₁, h₁, h₂⟩ := Option.bind_eq_some_iff.mp h
  obtain ⟨⟨hr, hc⟩, -⟩ := half_some h₁
  obtain ⟨⟨hr', hc'⟩, hlt⟩ := half_some h₂
  unfold yOff at hlt
  rw [hc] at hlt
  exact ⟨⟨hr'.trans hr, hc'.trans hc⟩, hlt⟩

theorem redStripeBlueLine_some {x y : ℕ} (h : redStripeBlueLine m x y = some m') :
    SameSize m m' ∧ pos m x y + yOff m < Mat.intEnd := by
  obtain ⟨m₁, h₁, h₂⟩ := Option.bind_eq_some_iff.mp h
  obtain ⟨⟨hr, hc⟩, hlt⟩ := half_some h₁
  obtain ⟨⟨hr', hc'⟩, -⟩ := half_some h₂
  exact ⟨⟨hr'.trans hr, hc'.trans hc⟩, hlt⟩

theorem redMiddleGreen_some {x y : ℕ} (h : redMiddleGreen m x y = some m') :
    SameSize m m' ∧ pos m x y + xOff + yOff m < Mat.intEnd := by
  obtain ⟨m₁, h₁, h₂⟩ := Option.bind_eq_some_iff.mp h
  obtain ⟨⟨hr, hc⟩, hlt⟩ := quarter_some h₁
  obtain ⟨⟨hr', hc'⟩, -⟩ := quarter_some h₂
  exact ⟨⟨hr'.trans hr, hc'.trans hc⟩, hlt⟩

theorem blueMiddleGreen_some {x y : ℕ} (h : blueMiddleGreen m x y = some m') :
    SameSize m m' ∧ pos m x y + xOff + yOff m + 2 < Mat.intEnd := by
  obtain ⟨m₁, h₁, h₂⟩ := Option.bind_eq_some_iff.mp h
  obtain ⟨⟨hr, hc⟩, hlt⟩ := quarter_some h₁
  obtain ⟨⟨hr', hc'⟩, -⟩ := quarter_some h₂
  exact ⟨⟨hr'.trans hr, hc'.trans hc⟩, hlt⟩

section Pass

variable {x₀ y₀ : ℕ} {body : Mat → ℕ → ℕ → Option Mat}
  (hbody : ∀ m m' x y, body m x y = some m' → SameSize m m')

include hbody

theorem row_sameSize {xs : List ℕ} {y : ℕ} (h : xs.foldlM (fun m x => body m x y) m = some m') : SameSize m m' :=
  foldlM_inv (fun _ s => SameSize m s) ⟨rfl, rfl⟩ (fun _ x _ s s' _ hs hx =>
    ⟨(hbody s s' x y hx).1.trans hs.1, (hbody s s' x y hx).2.trans hs.2⟩) h

theorem pass_sameSize (h : pass x₀ y₀ body m = some m') : SameSize m m' :=
  foldlM_inv (fun _ s => SameSize m s) ⟨rfl, rfl⟩ (fun _ _ _ _ _ _ hs hx =>
    ⟨(row_sameSize hbody hx).1.trans hs.1, (row_sameSize hbody hx).2.trans hs.2⟩) h

/-- A pass that is defined ran its body on every pixel it visits. -/
theorem pass_ran (h : pass x₀ y₀ body m = some m') {x y : ℕ} (hx : x ∈ steps x₀ (m.cols - 1))
    (hy : y ∈ steps y₀ (m.rows - 1)) : ∃ s s', SameSize m s ∧ body s x y = some s' := by
  obtain ⟨s, s', hs, hrow⟩ := foldlM_ran (SameSize m) ⟨rfl, rfl⟩ (fun _ _ _ hs hr =>
    ⟨(row_sameSize hbody hr).1.trans hs.1, (row_sameSize hbody hr).2.trans hs.2⟩) h hy
  exact foldlM_ran (SameSize m) hs (fun t a t' ht hb =>
    ⟨(hbody t t' a y hb).1.trans ht.1, (hbody t t' a y hb).2.trans ht.2⟩) hrow (hs.2 ▸ hx)

end Pass

/-- **Indices fit** in a run that is defined. -/
theorem indicesFit_of_demosaic (h : demosaic m = some m') : IndicesFit m.rows m.cols := by
  obtain ⟨m₁, h₁, h⟩ := Option.bind_eq_some_iff.mp h
  obtain ⟨m₂, h₂, h⟩ := Option.bind_eq_some_iff.mp h
  obtain ⟨m₃, h₃, h⟩ := Option.bind_eq_some_iff.mp h
  obtain ⟨m₄, h₄, -⟩ := Option.bind_eq_some_iff.mp h
  have hb₁ := fun m m' x y h => (@redLineBlueStripe_some m m' x y h).1
  have hb₂ := fun m m' x y h => (@redStripeBlueLine_some m m' x y h).1
  have hb₃ := fun m m' x y h => (@redMiddleGreen_some m m' x y h).1
  have hb₄ := fun m m' x y h => (@blueMiddleGreen_some m m' x y h).1
  obtain ⟨r₁, c₁⟩ := pass_sameSize hb₁ h₁
  obtain ⟨r₂, c₂⟩ := pass_sameSize hb₂ h₂
  obtain ⟨r₃, c₃⟩ := pass_sameSize hb₃ h₃
  rw [r₁] at r₂
  rw [c₁] at c₂
  rw [r₂] at r₃
  rw [c₂] at c₃
  intro x y hx hx' hy hy'
  -- the pass that visits the pixel
  unfold lastIndex
  rcases Nat.mod_two_eq_zero_or_one x with hxp | hxp
  · rcases Nat.mod_two_eq_zero_or_one y with hyp | hyp
    · obtain ⟨s, s', ⟨-, hs⟩, hran⟩ := pass_ran hb₃ h₃ (x := x) (y := y) (mem_steps.mpr (by omega))
        (mem_steps.mpr (by omega))
      have := (redMiddleGreen_some hran).2
      unfold pos yOff xOff at this
      rw [hs, c₂] at this
      rw [if_neg (by omega), if_neg (by omega)]
      omega
    · obtain ⟨s, s', ⟨-, hs⟩, hran⟩ := pass_ran hb₁ h₁ (x := x) (y := y) (mem_steps.mpr (by omega))
        (mem_steps.mpr (by omega))
      have := (redLineBlueStripe_some hran).2
      unfold pos yOff at this
      rw [hs] at this
      rw [if_pos hyp, if_neg (by omega)]
      omega
  · rcases Nat.mod_two_eq_zero_or_one y with hyp | hyp
    · obtain ⟨s, s', ⟨-, hs⟩, hran⟩ := pass_ran hb₂ h₂ (x := x) (y := y) (mem_steps.mpr (by omega))
        (mem_steps.mpr (by omega))
      have := (redStripeBlueLine_some hran).2
      unfold pos yOff at this
      rw [hs, c₁] at this
      rw [if_neg (by omega), if_pos hxp]
      omega
    · obtain ⟨s, s', ⟨-, hs⟩, hran⟩ := pass_ran hb₄ h₄ (x := x) (y := y) (mem_steps.mpr (by omega))
        (mem_steps.mpr (by omega))
      have := (blueMiddleGreen_some hran).2
      unfold pos yOff xOff at this
      rw [hs, c₃] at this
      rw [if_pos hyp, if_pos hxp]
      omega

/-! ## The whole image -/

/-- The four passes do every interior pixel. -/
theorem passes_filled (h : Native raw rows cols m) (hfit : IndicesFit rows cols) :
    ∃ m', (do
        let m ← pass 2 1 redLineBlueStripe m
        let m ← pass 1 2 redStripeBlueLine m
        let m ← pass 2 2 redMiddleGreen m
        pass 1 1 blueMiddleGreen m) = some m' ∧
      Filled raw rows cols (fun x y => 1 ≤ x ∧ x < cols - 1 ∧ 1 ≤ y ∧ y < rows - 1) m' := by
  have h₀ : Filled raw rows cols (fun _ _ => False) m := ⟨h, fun _ _ _ _ hf => absurd hf id⟩
  -- a pixel a pass visits is interior, and has the parity of the first one
  have hpix : ∀ {x₀ y₀ x y : ℕ}, 1 ≤ x₀ → 1 ≤ y₀ → x ∈ steps x₀ (cols - 1) → y ∈ steps y₀ (rows - 1) →
      ∃ a b, x = a + 1 ∧ y = b + 1 ∧ a + 2 < cols ∧ b + 2 < rows ∧ (a + 1) % 2 = x₀ % 2 ∧ (b + 1) % 2 = y₀ % 2 ∧
        lastIndex cols (a + 1) (b + 1) < Mat.intEnd := by
    intro x₀ y₀ x y h₁ h₂ hx hy
    rw [mem_steps] at hx hy
    refine ⟨x - 1, y - 1, by omega, by omega, by omega, by omega, by omega, by omega, hfit _ _ ?_ ?_ ?_ ?_⟩ <;> omega
  obtain ⟨m₁, e₁, h₁⟩ := pass_filled 2 1 redLineBlueStripe (fun D m x y hm hx hy => by
    obtain ⟨a, b, rfl, rfl, ha, hb, hap, hbp, hlast⟩ := hpix (by omega) (by omega) hx hy
    exact redLineBlueStripe_filled hm ha hb hlast (by omega) (by omega)) h₀
  obtain ⟨m₂, e₂, h₂⟩ := pass_filled 1 2 redStripeBlueLine (fun D m x y hm hx hy => by
    obtain ⟨a, b, rfl, rfl, ha, hb, hap, hbp, hlast⟩ := hpix (by omega) (by omega) hx hy
    exact redStripeBlueLine_filled hm ha hb hlast (by omega) (by omega)) h₁
  obtain ⟨m₃, e₃, h₃⟩ := pass_filled 2 2 redMiddleGreen (fun D m x y hm hx hy => by
    obtain ⟨a, b, rfl, rfl, ha, hb, hap, hbp, hlast⟩ := hpix (by omega) (by omega) hx hy
    exact redMiddleGreen_filled hm ha hb hlast (by omega) (by omega)) h₂
  obtain ⟨m₄, e₄, h₄⟩ := pass_filled 1 1 blueMiddleGreen (fun D m x y hm hx hy => by
    obtain ⟨a, b, rfl, rfl, ha, hb, hap, hbp, hlast⟩ := hpix (by omega) (by omega) hx hy
    exact blueMiddleGreen_filled hm ha hb hlast (by omega) (by omega)) h₃
  refine ⟨m₄, ?_, h₄.mono ?_⟩
  · exact Option.bind_eq_some_iff.mpr ⟨m₁, e₁, Option.bind_eq_some_iff.mpr ⟨m₂, e₂,
      Option.bind_eq_some_iff.mpr ⟨m₃, e₃, e₄⟩⟩⟩
  · -- each parity has its pass
    rintro x y ⟨hx, hx', hy, hy'⟩
    simp only [mem_steps]
    omega

/-- What the border copies do: every pixel is that of the nearest interior one. -/
theorem borders_pixel (hrows : 3 ≤ m.rows) (hcols : 3 ≤ m.cols) :
    ∃ m', borders m = some m' ∧ SameSize m m' ∧ ∀ x < m.cols, ∀ y < m.rows, ∀ c < 3,
      m'.pixel x y c = m.pixel (clamp x 1 (m.cols - 2)) (clamp y 1 (m.rows - 2)) c := by
  let m₁ := Mat.ofPixels m.rows m.cols fun x y c => m.pixel x (if y = 0 then 1 else y) c
  let m₂ := Mat.ofPixels m.rows m.cols fun x y c => m₁.pixel x (if y = m.rows - 1 then m.rows - 1 - 1 else y) c
  let m₃ := Mat.ofPixels m.rows m.cols fun x y c => m₂.pixel (if x = 0 then 1 else x) y c
  let m₄ := Mat.ofPixels m.rows m.cols fun x y c => m₃.pixel (if x = m.cols - 1 then m.cols - 1 - 1 else x) y c
  have e₁ : m.copyRow 1 0 = some m₁ := if_pos (by omega)
  have e₂ : m₁.copyRow (m.rows - 1 - 1) (m.rows - 1) = some m₂ :=
    if_pos (show m.rows - 1 - 1 < m.rows ∧ m.rows - 1 < m.rows by omega)
  have e₃ : m₂.copyCol 1 0 = some m₃ := if_pos (show 1 < m.cols ∧ 0 < m.cols by omega)
  have e₄ : m₃.copyCol (m.cols - 1 - 1) (m.cols - 1) = some m₄ :=
    if_pos (show m.cols - 1 - 1 < m.cols ∧ m.cols - 1 < m.cols by omega)
  refine ⟨m₄, ?_, ⟨rfl, rfl⟩, fun x hx y hy c hc => ?_⟩
  · exact Option.bind_eq_some_iff.mpr ⟨m₁, e₁, Option.bind_eq_some_iff.mpr ⟨m₂, e₂,
      Option.bind_eq_some_iff.mpr ⟨m₃, e₃, e₄⟩⟩⟩
  · have hx₁ : (if x = m.cols - 1 then m.cols - 1 - 1 else x) < m.cols := by split_ifs <;> omega
    have hx₂ : (if (if x = m.cols - 1 then m.cols - 1 - 1 else x) = 0 then 1
        else if x = m.cols - 1 then m.cols - 1 - 1 else x) = clamp x 1 (m.cols - 2) := by
      unfold clamp
      split_ifs <;> omega
    have hy₁ : (if y = m.rows - 1 then m.rows - 1 - 1 else y) < m.rows := by split_ifs <;> omega
    have hy₂ : (if (if y = m.rows - 1 then m.rows - 1 - 1 else y) = 0 then 1
        else if y = m.rows - 1 then m.rows - 1 - 1 else y) = clamp y 1 (m.rows - 2) := by
      unfold clamp
      split_ifs <;> omega
    have hx₃ : clamp x 1 (m.cols - 2) < m.cols := by unfold clamp; omega
    rw [Mat.ofPixels_pixel _ hx hy hc, Mat.ofPixels_pixel _ hx₁ hy hc, hx₂, Mat.ofPixels_pixel _ hx₃ hy hc,
      Mat.ofPixels_pixel _ hx₃ hy₁ hc, hy₂]

/-- Every channel of every pixel is the reference at the nearest interior pixel. -/
structure Demosaiced (raw : ℕ → ℕ → UInt16) (m m' : Mat) : Prop where
  size : SameSize m m'
  pixel : ∀ x < m.cols, ∀ y < m.rows, ∀ c < 3,
    m'.pixel x y c = reference raw c (clamp x 1 (m.cols - 2)) (clamp y 1 (m.rows - 2))

/-- **Demosaicing equals its reference**, whatever the other channels held before, for exactly the
sizes whose indices fit an `int`. -/
theorem demosaic_spec_iff (raw : ℕ → ℕ → UInt16) (m : Mat) (hrows : 3 ≤ m.rows) (hcols : 3 ≤ m.cols)
    (hraw : ∀ x < m.cols, ∀ y < m.rows, m.pixel x y (getColorIndex x y) = raw x y) :
    (∃ m', demosaic m = some m' ∧ Demosaiced raw m m') ↔ IndicesFit m.rows m.cols := by
  constructor
  · rintro ⟨m', h, -⟩
    exact indicesFit_of_demosaic h
  · intro hfit
    obtain ⟨m₄, hpasses, hfill⟩ := passes_filled ⟨rfl, rfl, hraw⟩ hfit
    obtain ⟨m₁, h₁, h⟩ := Option.bind_eq_some_iff.mp hpasses
    obtain ⟨m₂, h₂, h⟩ := Option.bind_eq_some_iff.mp h
    obtain ⟨m₃, h₃, h₄⟩ := Option.bind_eq_some_iff.mp h
    obtain ⟨m', hm', ⟨hr, hc⟩, hpix⟩ := borders_pixel (hfill.rows_eq ▸ hrows) (hfill.cols_eq ▸ hcols)
    refine ⟨m', ?_, ⟨hr.trans hfill.rows_eq, hc.trans hfill.cols_eq⟩, fun x hx y hy c hcc => ?_⟩
    · exact Option.bind_eq_some_iff.mpr ⟨m₁, h₁, Option.bind_eq_some_iff.mpr ⟨m₂, h₂,
        Option.bind_eq_some_iff.mpr ⟨m₃, h₃, Option.bind_eq_some_iff.mpr ⟨m₄, h₄, hm'⟩⟩⟩⟩
    · rw [hpix x (hfill.cols_eq ▸ hx) y (hfill.rows_eq ▸ hy) c hcc, hfill.rows_eq, hfill.cols_eq]
      refine hfill.done _ ?_ _ ?_ ⟨?_, ?_, ?_, ?_⟩ c hcc <;> unfold clamp <;> omega

/-- A 4 by 5 image whose other channels hold 9. -/
def smallImage : Mat := .ofPixels 4 5 fun x y c => if c = getColorIndex x y then UInt16.ofNat (10 * x + y) else 9

theorem demosaic_spec_iff_smallImage :
    (∃ m', demosaic smallImage = some m' ∧ Demosaiced (fun x y => UInt16.ofNat (10 * x + y)) smallImage m') ↔
      IndicesFit smallImage.rows smallImage.cols :=
  demosaic_spec_iff (fun x y => UInt16.ofNat (10 * x + y)) smallImage (by decide) (by decide) fun x hx y hy =>
    (Mat.ofPixels_pixel _ hx hy (getColorIndex_lt x y)).trans (if_pos rfl)

/-- A blank image of 26756 by 26756 pixels. -/
def hugeImage : Mat := .ofPixels 26756 26756 fun _ _ _ => 0

/-- The index of a neighbour of the last interior pixel overflows. -/
theorem hugeImage_not_demosaiced : ¬ ∃ m', demosaic hugeImage = some m' ∧ Demosaiced (fun _ _ => 0) hugeImage m' := by
  rintro ⟨m', h, -⟩
  have hlast := indicesFit_of_demosaic h 26754 26754 (by norm_num) (by norm_num [hugeImage]) (by norm_num)
    (by norm_num [hugeImage])
  norm_num [lastIndex, Mat.intEnd, hugeImage] at hlast

end RawImage

end Lyli.Image
