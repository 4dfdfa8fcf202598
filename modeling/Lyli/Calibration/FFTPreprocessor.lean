import Mathlib
import Lyli.Base.HighPass
import Lyli.Calibration.LensDetector
import Lyli.Calibration.LensRefinement

/-!
# `FFTPreprocessor` (`calibration/fftpreprocessor.cpp`)

The mask of a grey image: its low frequencies are removed, the rest is stretched
to 8 bits, cut above its mean, and freed of short spurs.  Floats are exact.  The
transforms are those of the library on an image of real numbers; `none` is a
threshold that is no `uint8_t`.

    the filtered image is real, without the low frequencies and with all others         (filtered_spec)
    gray' = a * gray + a slow image  →  the mask of gray' is the mask of gray       (preprocess_illumination)
-/

namespace Lyli.Calibration.FFTPreprocessor

open LensDetector HighPass

/-- `cv::idft` with `DFT_SCALE | DFT_REAL_OUTPUT`, which takes spectra of real images. -/
structure RealIdft where
  idft : ∀ {rows cols : ℕ} [NeZero rows] [NeZero cols], (ZMod rows → ZMod cols → ℂ) → ZMod rows → ZMod cols → ℝ
  eq_inverse : ∀ {rows cols : ℕ} [NeZero rows] [NeZero cols] (G : ZMod rows → ZMod cols → ℂ), Hermitian G →
    ∀ y x, (idft G y x : ℂ) = dft2.symm G y x

/-! ## Model -/

/-- Radius where frequencies are cut off. -/
def highpassCutoff : ℕ := 10

def highpassCutoff2 : ℕ := 100

section Planes

variable {rows cols : ℕ}

/-- `BORDER_WRAP` -/
def borderInterpolate (p : ℤ) (len : ℕ) : ZMod len := p

/-- The pixels that are zeroed, in this order. -/
def lowFrequencies (rows cols : ℕ) : List (ZMod rows × ZMod cols) :=
  (List.range (2 * highpassCutoff + 1)).flatMap fun i : ℕ =>
    let y : ℤ := highpassCutoff - i
    let realy := borderInterpolate y rows
    let x0 := roundSqrt (highpassCutoff2 - y.natAbs * y.natAbs)
    (List.range (2 * x0 + 1)).map fun j : ℕ => (realy, borderInterpolate ((j : ℤ) - x0) cols)

/-- Remove all low frequencies from a plane. -/
def removeLow (plane : ZMod rows → ZMod cols → ℝ) : ZMod rows → ZMod cols → ℝ :=
  (lowFrequencies rows cols).foldl
    (fun plane p => Function.update plane p.1 (Function.update (plane p.1) p.2 0)) plane

def merge (re im : ZMod rows → ZMod cols → ℝ) : ZMod rows → ZMod cols → ℂ := fun y x => ⟨re y x, im y x⟩

/-- `DBL_EPSILON` -/
noncomputable def dblEpsilon : ℝ := ((1 / 2) ^ 52 : ℚ)

noncomputable def minimum (src : ZMod rows → ZMod cols → ℝ) : ℝ := ⨅ p : ZMod rows × ZMod cols, src p.1 p.2

noncomputable def maximum (src : ZMod rows → ZMod cols → ℝ) : ℝ := ⨆ p : ZMod rows × ZMod cols, src p.1 p.2

/-- `cv::normalize` with `NORM_MINMAX`, to the values from 0 to 1. -/
noncomputable def normalize (src : ZMod rows → ZMod cols → ℝ) : ZMod rows → ZMod cols → ℝ :=
  if dblEpsilon < maximum src - minimum src then fun y x => (src y x - minimum src) / (maximum src - minimum src)
  else 0

end Planes

/-- To the nearest number of 8 bits, halves to the even one. -/
noncomputable def saturateCast (v : ℝ) : UInt8 :=
  let r :=
    if v - ⌊v⌋ < ⌊v⌋ + 1 - v then ⌊v⌋
    else if v - ⌊v⌋ > ⌊v⌋ + 1 - v then ⌊v⌋ + 1
    else if ⌊v⌋ % 2 = 0 then ⌊v⌋ else ⌊v⌋ + 1
  UInt8.ofNat (min (max r 0) 255).toNat

/-- `cv::mean` -/
def mean (m : Image8) : ℚ := ((raster m).map fun p => (m.value p.1 p.2).toNat).sum / (m.rows * m.cols : ℕ)

/-- `cv::threshold` with `THRESH_BINARY`. -/
def binary (m : Image8) (threshold : UInt8) : Image8 :=
  { m with value := fun x y => if threshold < m.value x y then 255 else 0 }

/-- The pixels of the image in the square of 3 pixels around one. -/
def square (m : Image8) (x y : ℕ) : List (ℕ × ℕ) :=
  (raster m).filter fun p => p.1 ≤ x + 1 ∧ x ≤ p.1 + 1 ∧ p.2 ≤ y + 1 ∧ y ≤ p.2 + 1

/-- The darkest of each square; what is outside of the image does not count. -/
def erode (m : Image8) : Image8 :=
  { m with value := fun x y => ((square m x y).map fun p => m.value p.1 p.2).foldl min 255 }

def dilate (m : Image8) : Image8 :=
  { m with value := fun x y => ((square m x y).map fun p => m.value p.1 p.2).foldl max 0 }

section Preprocess

variable (I : RealIdft) (gray : Image8) [NeZero gray.rows] [NeZero gray.cols]

def plane : ZMod gray.rows → ZMod gray.cols → ℝ := fun y x => (gray.value x.val y.val).toNat

/-- `invDFT`: the image without its low frequencies. -/
noncomputable def filtered : ZMod gray.rows → ZMod gray.cols → ℝ :=
  let complexI := dft2 (merge (plane gray) 0)
  I.idft (merge (removeLow fun u v => (complexI u v).re) (removeLow fun u v => (complexI u v).im))

/-- `outMask` before the threshold. -/
noncomputable def stretched : Image8 :=
  { gray with value := fun x y => saturateCast (normalize (filtered I gray) y x * 255) }

/-- The lens mask of an image that has pixels. -/
noncomputable def lensMask : Option Image8 :=
  let outMask := stretched I gray
  let threshold := mean outMask + 20
  -- the conversion to `uint8_t`
  if threshold < 256 then
    -- remove short spurs
    some (dilate (erode (binary outMask (UInt8.ofNat ⌊threshold⌋₊))))
  else none

end Preprocess

/-- The transform of an empty image is an error. -/
noncomputable def preprocess (I : RealIdft) (gray : Image8) : Option Image8 :=
  if h : gray.rows ≠ 0 ∧ gray.cols ≠ 0 then
    have := NeZero.mk h.1
    have := NeZero.mk h.2
    lensMask I gray
  else none

/-! ## The filter -/

section Filter

variable {rows cols : ℕ}

/-- The frequencies that are removed. -/
def low (rows cols : ℕ) : Set (ZMod rows × ZMod cols) := {p | p ∈ lowFrequencies rows cols}

/-- The disc, which wraps around the borders. -/
theorem mem_low {p : ZMod rows × ZMod cols} :
    p ∈ low rows cols ↔ ∃ y x : ℤ, y.natAbs ≤ highpassCutoff ∧
      x.natAbs ≤ roundSqrt (highpassCutoff2 - y.natAbs * y.natAbs) ∧ p = ((y : ZMod rows), (x : ZMod cols)) := by
  show p ∈ lowFrequencies rows cols ↔ _
  unfold lowFrequencies borderInterpolate
  simp only [List.mem_flatMap, List.mem_map, List.mem_range]
  constructor
  · rintro ⟨i, hi, j, hj, rfl⟩
    exact ⟨highpassCutoff - i, _, by omega, by omega, rfl⟩
  · rintro ⟨y, x, hy, hx, rfl⟩
    have hyi : (highpassCutoff : ℤ) - ((highpassCutoff - y).toNat : ℕ) = y := by omega
    refine ⟨(highpassCutoff - y).toNat, by omega, ?_⟩
    rw [hyi]
    refine ⟨(x + roundSqrt (highpassCutoff2 - y.natAbs * y.natAbs)).toNat, by omega, ?_⟩
    rw [Int.toNat_of_nonneg (by omega), add_sub_cancel_right]

/-- A frequency is removed with its opposite. -/
theorem symmetric_low : Symmetric (low rows cols) := by
  intro u v h
  obtain ⟨y, x, hy, hx, heq⟩ := mem_low.mp h
  obtain ⟨rfl, rfl⟩ := Prod.ext_iff.mp heq
  refine mem_low.mpr ⟨-y, -x, by rwa [Int.natAbs_neg], by rwa [Int.natAbs_neg, Int.natAbs_neg], ?_⟩
  rw [Int.cast_neg, Int.cast_neg]

theorem zero_mem_low : ((0, 0) : ZMod rows × ZMod cols) ∈ low rows cols := by
  refine mem_low.mpr ⟨0, 0, Nat.zero_le _, Nat.zero_le _, ?_⟩
  rw [Int.cast_zero, Int.cast_zero]

/-- What the loop leaves of a plane. -/
theorem foldl_update (l : List (ZMod rows × ZMod cols)) (plane : ZMod rows → ZMod cols → ℝ) (u : ZMod rows)
    (v : ZMod cols) :
    l.foldl (fun plane p => Function.update plane p.1 (Function.update (plane p.1) p.2 0)) plane u v =
      if (u, v) ∈ l then 0 else plane u v := by
  induction l generalizing plane with
  | nil => rw [if_neg List.not_mem_nil, List.foldl_nil]
  | cons p l ih =>
    rw [List.foldl_cons, ih]
    by_cases hl : (u, v) ∈ l
    · rw [if_pos hl, if_pos (List.mem_cons_of_mem p hl)]
    · rw [if_neg hl]
      by_cases hp : (u, v) = p
      · subst hp
        rw [if_pos List.mem_cons_self, Function.update_self, Function.update_self]
      · rw [if_neg fun h => (List.mem_cons.mp h).elim hp hl]
        by_cases hu : u = p.1
        · subst hu
          have hv : v ≠ p.2 := fun hv => hp (Prod.ext rfl hv)
          rw [Function.update_self, Function.update_of_ne hv]
        · rw [Function.update_of_ne hu]

/-- Removing from both planes clears the complex image. -/
theorem merge_removeLow (G : ZMod rows → ZMod cols → ℂ) :
    merge (removeLow fun u v => (G u v).re) (removeLow fun u v => (G u v).im) = clear (low rows cols) G := by
  ext u v
  unfold merge removeLow
  rw [foldl_update, foldl_update]
  by_cases h : (u, v) ∈ lowFrequencies rows cols
  · rw [if_pos h, if_pos h, clear_of_mem h]
    rfl
  · rw [if_neg h, if_neg h, clear_of_notMem h]

end Filter

section Filtered

variable (I : RealIdft) (gray : Image8) [NeZero gray.rows] [NeZero gray.cols]

/-- The grey image as one of complex numbers. -/
noncomputable def complexPlane : ZMod gray.rows → ZMod gray.cols → ℂ := fun y x => (plane gray y x : ℂ)

omit [NeZero gray.rows] [NeZero gray.cols] in
theorem isReal_complexPlane : IsReal (complexPlane gray) := fun _ _ => Complex.conj_ofReal _

/-- The filtered image is the high pass of the grey image. -/
theorem filtered_eq (y : ZMod gray.rows) (x : ZMod gray.cols) :
    (filtered I gray y x : ℂ) = highPass (low gray.rows gray.cols) (complexPlane gray) y x := by
  have hmerge : merge (plane gray) 0 = complexPlane gray := rfl
  unfold filtered
  rw [merge_removeLow, hmerge, I.eq_inverse _ (symmetric_low.hermitian_clear
    (hermitian_dft2.mpr (isReal_complexPlane gray)))]
  rfl

end Filtered

/-- **Low frequencies are removed, and nothing else.**  The spectrum of the filtered image is that of the grey image
outside of the disc, and zero in it. -/
theorem filtered_spec (I : RealIdft) (gray : Image8) [NeZero gray.rows] [NeZero gray.cols] (u : ZMod gray.rows)
    (v : ZMod gray.cols) :
    dft2 (fun y x => (filtered I gray y x : ℂ)) u v =
      if (u, v) ∈ lowFrequencies gray.rows gray.cols then 0 else dft2 (complexPlane gray) u v := by
  have hfiltered : (fun y x => (filtered I gray y x : ℂ)) = highPass (low gray.rows gray.cols) (complexPlane gray) := by
    ext y x
    exact filtered_eq I gray y x
  rw [hfiltered, dft2_highPass]
  by_cases h : (u, v) ∈ lowFrequencies gray.rows gray.cols
  · rw [if_pos h]
    exact clear_of_mem h
  · rw [if_neg h]
    exact clear_of_notMem h

/-! ## Illumination -/

theorem preprocess_eq (I : RealIdft) (gray : Image8) [NeZero gray.rows] [NeZero gray.cols] :
    preprocess I gray = lensMask I gray := dif_pos ⟨NeZero.ne _, NeZero.ne _⟩

section Normalize

variable {rows cols : ℕ}

theorem minimum_smul {a : ℝ} (ha : 0 ≤ a) (src : ZMod rows → ZMod cols → ℝ) :
    minimum (fun y x => a * src y x) = a * minimum src :=
  (Real.mul_iInf_of_nonneg ha _).symm

theorem maximum_smul {a : ℝ} (ha : 0 ≤ a) (src : ZMod rows → ZMod cols → ℝ) :
    maximum (fun y x => a * src y x) = a * maximum src :=
  (Real.mul_iSup_of_nonneg ha _).symm

/-- Stretching takes the contrast away. -/
theorem normalize_smul {a : ℝ} (ha : 0 < a) {src : ZMod rows → ZMod cols → ℝ}
    (hspread : dblEpsilon < maximum src - minimum src) (hspread' : dblEpsilon < a * (maximum src - minimum src)) :
    normalize (fun y x => a * src y x) = normalize src := by
  unfold normalize
  rw [minimum_smul ha.le, maximum_smul ha.le, ← mul_sub, if_pos hspread, if_pos hspread']
  ext y x
  rw [← mul_sub, mul_div_mul_left _ _ ha.ne']

end Normalize

section Illumination

variable (I : RealIdft) (gray : Image8) [NeZero gray.rows] [NeZero gray.cols] {a : ℝ}
  {shade : ZMod gray.rows → ZMod gray.cols → ℝ} {value' : ℕ → ℕ → UInt8}

/-- The filter drops what is slow, and keeps the contrast. -/
theorem filtered_illuminated (hshade : (fun y x => (shade y x : ℂ)) ∈ slow (low gray.rows gray.cols))
    (h : ∀ y x, plane { gray with value := value' } y x = a * plane gray y x + shade y x) :
    filtered I { gray with value := value' } = fun y x => a * filtered I gray y x := by
  have hplane : complexPlane { gray with value := value' } =
      (a : ℂ) • complexPlane gray + fun y x => (shade y x : ℂ) := by
    ext y x
    show (plane { gray with value := value' } y x : ℂ) = a * (plane gray y x : ℂ) + shade y x
    rw [h y x]
    push_cast
    rfl
  ext y x
  have hhigh := filtered_eq I { gray with value := value' } y x
  rw [hplane] at hhigh
  change _ = highPass (low gray.rows gray.cols) _ y x at hhigh
  rw [highPass_add_slow _ _ hshade, Pi.smul_apply, Pi.smul_apply, ← filtered_eq I gray y x, smul_eq_mul] at hhigh
  exact_mod_cast hhigh

end Illumination

/-- The range of the filtered image. -/
noncomputable def spread (I : RealIdft) (gray : Image8) [NeZero gray.rows] [NeZero gray.cols] : ℝ :=
  maximum (filtered I gray) - minimum (filtered I gray)

/-- **Illumination does not matter.**  With another contrast, and with any shade made of low frequencies over it, an
image that is not flat has the same lens mask. -/
theorem preprocess_illumination (I : RealIdft) (gray : Image8) [NeZero gray.rows] [NeZero gray.cols]
    (value' : ℕ → ℕ → UInt8) (a : ℝ) (ha : 0 < a) (shade : ZMod gray.rows → ZMod gray.cols → ℝ)
    (hshade : (fun y x => (shade y x : ℂ)) ∈ slow (low gray.rows gray.cols))
    (h : ∀ y x, plane { gray with value := value' } y x = a * plane gray y x + shade y x)
    (hspread : dblEpsilon < spread I gray) (hspread' : dblEpsilon < a * spread I gray) :
    preprocess I { gray with value := value' } = preprocess I gray := by
  have hstretched : stretched I { gray with value := value' } = stretched I gray := by
    unfold stretched
    rw [filtered_illuminated I gray hshade h, normalize_smul ha hspread hspread']
  rw [preprocess_eq, preprocess_eq]
  unfold lensMask
  rw [hstretched]

/-- The real part of the inverse. -/
noncomputable def RealIdft.ofRe : RealIdft where
  idft G y x := (dft2.symm G y x).re
  eq_inverse G hG y x := by
    have hreal : IsReal (dft2.symm G) := by
      rw [← hermitian_dft2, LinearEquiv.apply_symm_apply]
      exact hG
    exact Complex.conj_eq_iff_re.mp (hreal y x)

/-- Stripes of one pixel. -/
def stripes (bright dark : UInt8) : Image8 := ⟨1660, 1664, fun x _ => if x % 2 = 0 then bright else dark⟩

section Stripes

variable (I : RealIdft) (bright dark : UInt8)

instance : NeZero (stripes bright dark).rows := inferInstanceAs (NeZero 1660)

instance : NeZero (stripes bright dark).cols := inferInstanceAs (NeZero 1664)

theorem stdAddChar_half (x : ZMod 1664) : ZMod.stdAddChar (x * 832) = (-1 : ℂ) ^ x.val := by
  have hcast : x * 832 = ((x.val * 832 : ℤ) : ZMod 1664) := by
    push_cast
    rw [ZMod.natCast_zmod_val]
  have hangle : 2 * Real.pi * Complex.I * ((x.val * 832 : ℤ) : ℂ) / ((1664 : ℕ) : ℂ) = x.val * (Real.pi * Complex.I) := by
    push_cast
    ring
  rw [hcast, ZMod.stdAddChar_coe, hangle, Complex.exp_nat_mul, Complex.exp_pi_mul_I]

theorem half_notMem_low : ((0, 832) : ZMod 1660 × ZMod 1664) ∉ low 1660 1664 := by
  intro h
  obtain ⟨y, x, hy, hx, heq⟩ := mem_low.mp h
  have hle : roundSqrt (highpassCutoff2 - y.natAbs * y.natAbs) ≤ 10 := roundSqrt_le (Nat.sub_le _ _)
  have hcast : ((832 : ℤ) : ZMod 1664) = (x : ZMod 1664) := (Prod.ext_iff.mp heq).2
  rw [ZMod.intCast_eq_intCast_iff_dvd_sub] at hcast
  omega

/-- Stripes are a wave about their mean, which the filter drops. -/
theorem highPass_stripes (bright dark : ℝ) :
    highPass (low 1660 1664) (fun _ x => ((if x.val % 2 = 0 then bright else dark : ℝ) : ℂ)) =
      (((bright - dark) / 2 : ℝ) : ℂ) • wave 0 832 := by
  have hwaves : (fun (_ : ZMod 1660) (x : ZMod 1664) => ((if x.val % 2 = 0 then bright else dark : ℝ) : ℂ)) =
      (((bright - dark) / 2 : ℝ) : ℂ) • wave 0 832 + fun _ _ => (((bright + dark) / 2 : ℝ) : ℂ) := by
    ext y x
    show _ = _ * (ZMod.stdAddChar (y * 0) * ZMod.stdAddChar (x * 832)) + _
    rw [mul_zero, AddChar.map_zero_eq_one, one_mul, stdAddChar_half]
    by_cases heven : x.val % 2 = 0
    · rw [if_pos heven, (Nat.even_iff.mpr heven).neg_one_pow]
      push_cast
      ring
    · rw [if_neg heven, (Nat.not_even_iff_odd.mp (mt Nat.even_iff.mp heven)).neg_one_pow]
      push_cast
      ring
  rw [hwaves, highPass_add_slow _ _ (const_mem_slow zero_mem_low _), highPass_wave_of_notMem half_notMem_low]

theorem filtered_stripes (y : ZMod 1660) (x : ZMod 1664) :
    filtered I (stripes bright dark) y x = ((bright.toNat : ℝ) - dark.toNat) / 2 * (-1) ^ x.val := by
  have hplane : complexPlane (stripes bright dark) = fun _ x =>
      ((if ZMod.val (n := 1664) x % 2 = 0 then (bright.toNat : ℝ) else dark.toNat : ℝ) : ℂ) := by
    ext y x
    show (((if ZMod.val (n := 1664) x % 2 = 0 then bright else dark).toNat : ℝ) : ℂ) = _
    split_ifs
    · rfl
    · rfl
  have hfiltered := filtered_eq I (stripes bright dark) y x
  rw [hplane] at hfiltered
  have hhigh := congrFun (congrFun (highPass_stripes bright.toNat dark.toNat) y) x
  have heq := hfiltered.trans hhigh
  change _ = _ * (ZMod.stdAddChar (y * 0) * ZMod.stdAddChar (x * 832)) at heq
  rw [mul_zero, AddChar.map_zero_eq_one, one_mul, stdAddChar_half] at heq
  exact_mod_cast heq

theorem le_spread_stripes : (bright.toNat : ℝ) - dark.toNat ≤ spread I (stripes bright dark) := by
  have hmax : filtered I (stripes bright dark) (0 : ZMod 1660) (0 : ZMod 1664) ≤ maximum (filtered I (stripes bright dark)) :=
    le_ciSup (f := fun p : ZMod (stripes bright dark).rows × ZMod (stripes bright dark).cols =>
      filtered I (stripes bright dark) p.1 p.2) (Set.finite_range _).bddAbove ((0 : ZMod 1660), (0 : ZMod 1664))
  have hmin : minimum (filtered I (stripes bright dark)) ≤ filtered I (stripes bright dark) (0 : ZMod 1660) (1 : ZMod 1664) :=
    ciInf_le (f := fun p : ZMod (stripes bright dark).rows × ZMod (stripes bright dark).cols =>
      filtered I (stripes bright dark) p.1 p.2) (Set.finite_range _).bddBelow ((0 : ZMod 1660), (1 : ZMod 1664))
  rw [filtered_stripes] at hmax hmin
  have h0 : (0 : ZMod 1664).val = 0 := rfl
  have h1 : (1 : ZMod 1664).val = 1 := rfl
  rw [h0] at hmax
  rw [h1] at hmin
  unfold spread
  linarith

end Stripes

theorem dblEpsilon_lt_one : dblEpsilon < 1 := by
  have hlt : ((1 / 2) ^ 52 : ℚ) < 1 := pow_lt_one₀ (by norm_num) (by norm_num) (by norm_num)
  unfold dblEpsilon
  exact_mod_cast hlt

/-- The stripes of the examples. -/
theorem spread_stripes (I : RealIdft) : 100 ≤ spread I (stripes 150 50) := by
  have hspread : ((150 : ℕ) : ℝ) - ((50 : ℕ) : ℝ) ≤ spread I (stripes 150 50) := le_spread_stripes I 150 50
  norm_num at hspread
  linarith

theorem filtered_spec_stripes :
    dft2 (fun y x => (filtered .ofRe (stripes 150 50) y x : ℂ)) (0 : ZMod 1660) (832 : ZMod 1664) =
      dft2 (complexPlane (stripes 150 50)) (0 : ZMod 1660) (832 : ZMod 1664) :=
  (filtered_spec .ofRe (stripes 150 50) (0 : ZMod 1660) (832 : ZMod 1664)).trans (if_neg half_notMem_low)

/-- At half the contrast, in a light of 30. -/
theorem preprocess_illumination_stripes :
    preprocess .ofRe (stripes 105 55) = preprocess .ofRe (stripes 150 50) := by
  have hspread := spread_stripes .ofRe
  have hsmall := dblEpsilon_lt_one
  refine preprocess_illumination .ofRe (stripes 150 50) (stripes 105 55).value (1 / 2) (by norm_num) (fun _ _ => 30)
    (const_mem_slow zero_mem_low _) (fun y x => ?_) (by linarith) (by linarith)
  show ((if ZMod.val (n := 1664) x % 2 = 0 then (105 : UInt8) else 55).toNat : ℝ) =
    1 / 2 * ((if ZMod.val (n := 1664) x % 2 = 0 then (150 : UInt8) else 50).toNat : ℝ) + 30
  split_ifs
  · show ((105 : ℕ) : ℝ) = 1 / 2 * ((150 : ℕ) : ℝ) + 30
    norm_num
  · show ((55 : ℕ) : ℝ) = 1 / 2 * ((50 : ℕ) : ℝ) + 30
    norm_num

end Lyli.Calibration.FFTPreprocessor
