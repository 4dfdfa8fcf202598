import Mathlib
import Lyli.Base.OrdMap

/-!
# Rounded arithmetic

Numbers are rationals, and an operation on `float`s or `double`s is the exact one,
rounded.  What is proved of a program for every `Rounding` holds for exact
arithmetic (`Rounding.exact`) and for the two formats of the machine
(`Rounding.ieee`): binary32 and binary64, to the nearest, halves to the even one.
Numbers that are too large for a format are left as they are.

    x ≤ y → roundBits p emin x ≤ roundBits p emin y                            (roundBits_mono)
    roundBits p' emin' (roundBits p emin x) = roundBits p emin x   for p ≤ p', emin' ≤ emin      (roundBits_roundBits)

Rounding keeps the order, so the rounded distance to a number grows on either side
of it (`absDiff_grows`), which is what the lookup in a map of numbers needs.
-/

namespace Lyli

/-- How the results of `float` and `double` operations are rounded. -/
class Rounding where
  float : ℚ → ℚ
  double : ℚ → ℚ
  /-- how far off a `float` is, relatively, and what is added to that near 0 -/
  floatUnit : ℚ
  floatTiny : ℚ
  doubleUnit : ℚ
  float_mono : Monotone float
  double_mono : Monotone double
  float_natCast : ∀ n : ℕ, n ≤ 2 ^ 24 → float n = n
  float_float : ∀ x, float (float x) = float x
  /-- every `float` is a `double` -/
  double_float : ∀ x, double (float x) = float x
  double_double : ∀ x, double (double x) = double x
  float_near : ∀ x, |float x - x| ≤ floatUnit * |x| + floatTiny
  /-- sums need nothing added near 0 -/
  double_add_near : ∀ a b, double a = a → double b = b → |double (a + b) - (a + b)| ≤ doubleUnit * |a + b|
  doubleUnit_nonneg : 0 ≤ doubleUnit
  doubleUnit_le_one : doubleUnit ≤ 1

namespace Rounding

attribute [simp] float_float double_float double_double

/-- No rounding. -/
@[reducible] def exact : Rounding where
  float := id
  double := id
  floatUnit := 0
  floatTiny := 0
  doubleUnit := 0
  float_mono := monotone_id
  double_mono := monotone_id
  float_natCast _ _ := rfl
  float_float _ := rfl
  double_float _ := rfl
  double_double _ := rfl
  float_near x := by rw [id, sub_self, abs_zero, zero_mul, add_zero]
  double_add_near a b _ _ := by rw [id, sub_self, abs_zero, zero_mul]
  doubleUnit_nonneg := le_rfl
  doubleUnit_le_one := zero_le_one

section Integers

variable [Rounding]

theorem double_natCast {n : ℕ} (h : n ≤ 2 ^ 24) : double (n : ℚ) = n := by
  rw [← float_natCast n h, double_float]

@[simp] theorem float_zero : float 0 = 0 := by exact_mod_cast float_natCast 0 (by norm_num)

@[simp] theorem float_one : float 1 = 1 := by exact_mod_cast float_natCast 1 (by norm_num)

@[simp] theorem double_zero : double 0 = 0 := by exact_mod_cast double_natCast (n := 0) (by norm_num)

end Integers

/-! ## Distances -/

section Distance

variable [Rounding]

/-- `std::abs(a - b)` -/
def absDiff (a b : ℚ) : ℚ := |float (a - b)|

theorem absDiff_self (a : ℚ) : absDiff a a = 0 := by
  unfold absDiff
  rw [sub_self, float_zero, abs_zero]

theorem float_nonneg {x : ℚ} (h : 0 ≤ x) : 0 ≤ float x := by
  rw [← float_zero]
  exact float_mono h

theorem float_nonpos {x : ℚ} (h : x ≤ 0) : float x ≤ 0 := by
  rw [← float_zero]
  exact float_mono h

theorem double_nonneg {x : ℚ} (h : 0 ≤ x) : 0 ≤ double x := by
  rw [← double_zero]
  exact double_mono h

/-- The rounded distance grows on either side of a number. -/
theorem absDiff_grows : OrdMap.Grows absDiff where
  above hqa hab := by
    unfold absDiff
    rw [abs_of_nonneg (float_nonneg (sub_nonneg.mpr hqa)), abs_of_nonneg (float_nonneg (sub_nonneg.mpr (hqa.trans hab)))]
    exact float_mono (sub_le_sub_right hab _)
  below hba haq := by
    unfold absDiff
    rw [abs_of_nonpos (float_nonpos (sub_nonpos.mpr haq)), abs_of_nonpos (float_nonpos (sub_nonpos.mpr (hba.trans haq)))]
    exact neg_le_neg (float_mono (sub_le_sub_right hba _))

end Distance

/-- Without rounding the distance is the exact one. -/
theorem absDiff_exact (a b : ℚ) : @absDiff exact a b = |a - b| := rfl

end Rounding

/-! ## To the nearest -/

/-- The nearest integer, of two the even one. -/
def roundEven (q : ℚ) : ℤ :=
  if q - ⌊q⌋ < 1 / 2 then ⌊q⌋
  else if q - ⌊q⌋ > 1 / 2 then ⌊q⌋ + 1
  else if ⌊q⌋ % 2 = 0 then ⌊q⌋ else ⌊q⌋ + 1

/-- The exponent of the last of `p` binary digits of `x`, at least `emin`. -/
def unitExp (p : ℕ) (emin : ℤ) (x : ℚ) : ℤ := max (Int.log 2 |x| + 1 - p) emin

/-- `x` to `p` binary digits. -/
def roundBits (p : ℕ) (emin : ℤ) (x : ℚ) : ℚ := roundEven (x / 2 ^ unitExp p emin x) * 2 ^ unitExp p emin x

theorem roundEven_intCast (n : ℤ) : roundEven n = n := by
  unfold roundEven
  rw [Int.floor_intCast, sub_self, if_pos (by norm_num)]

theorem floor_le_roundEven (q : ℚ) : ⌊q⌋ ≤ roundEven q ∧ roundEven q ≤ ⌊q⌋ + 1 := by
  unfold roundEven
  split_ifs <;> omega

theorem roundEven_mono : Monotone roundEven := by
  intro x y hxy
  rcases (Int.floor_le_floor hxy).lt_or_eq with hlt | heq
  · have hx := (floor_le_roundEven x).2
    have hy := (floor_le_roundEven y).1
    omega
  · -- between the same two integers
    have hfrac : x - ⌊x⌋ ≤ y - ⌊y⌋ := by
      rw [heq]
      linarith
    unfold roundEven
    rw [heq] at hfrac ⊢
    split_ifs
    all_goals first
      | omega
      | exfalso; linarith

theorem roundEven_neg (q : ℚ) : roundEven (-q) = -roundEven q := by
  by_cases hint : (⌊q⌋ : ℚ) = q
  · rw [← hint, ← Int.cast_neg, roundEven_intCast, roundEven_intCast]
  · have hlt : (⌊q⌋ : ℚ) < q := lt_of_le_of_ne (Int.floor_le q) hint
    have hfloor : ⌊-q⌋ = -⌊q⌋ - 1 := by
      rw [Int.floor_eq_iff]
      push_cast
      constructor
      · linarith [Int.lt_floor_add_one q]
      · linarith
    unfold roundEven
    rw [hfloor]
    push_cast
    split_ifs
    all_goals first
      | omega
      | exfalso; linarith

/-! ## To a number of digits -/

section Digits

variable {p : ℕ} {emin : ℤ}

theorem two_zpow_pos (e : ℤ) : (0 : ℚ) < 2 ^ e := zpow_pos (by norm_num) e

/-- A multiple of the unit stays. -/
theorem roundEven_multiple {n e k : ℤ} (h : e ≤ k) : (roundEven (n * 2 ^ k / 2 ^ e) * 2 ^ e : ℚ) = n * 2 ^ k := by
  obtain ⟨d, rfl⟩ := Int.le.dest h
  have hne : (2 : ℚ) ^ e ≠ 0 := (two_zpow_pos e).ne'
  have hint : (n * 2 ^ (e + d) / 2 ^ e : ℚ) = ((n * 2 ^ d : ℤ) : ℚ) := by
    rw [zpow_add₀ (by norm_num), zpow_natCast]
    push_cast
    field_simp
  rw [hint, roundEven_intCast, zpow_add₀ (by norm_num), zpow_natCast]
  push_cast
  ring

theorem roundBits_zero (p : ℕ) (emin : ℤ) : roundBits p emin 0 = 0 := by
  have hzero : roundEven 0 = 0 := by
    have := roundEven_intCast 0
    simpa using this
  unfold roundBits
  rw [zero_div, hzero, Int.cast_zero, zero_mul]

theorem unitExp_neg (x : ℚ) : unitExp p emin (-x) = unitExp p emin x := by
  unfold unitExp
  rw [abs_neg]

theorem roundBits_neg (x : ℚ) : roundBits p emin (-x) = -roundBits p emin x := by
  unfold roundBits
  rw [unitExp_neg, neg_div, roundEven_neg, Int.cast_neg, neg_mul]

/-- What has the unit in common is rounded in order. -/
theorem roundUnit_mono (e : ℤ) {x y : ℚ} (h : x ≤ y) :
    (roundEven (x / 2 ^ e) * 2 ^ e : ℚ) ≤ roundEven (y / 2 ^ e) * 2 ^ e := by
  refine mul_le_mul_of_nonneg_right ?_ (two_zpow_pos e).le
  exact_mod_cast roundEven_mono (div_le_div_of_nonneg_right h (two_zpow_pos e).le)

theorem roundBits_nonneg {x : ℚ} (h : 0 ≤ x) : 0 ≤ roundBits p emin x := by
  have := roundUnit_mono (unitExp p emin x) h
  rw [zero_div, ← Int.cast_zero, roundEven_intCast, Int.cast_zero, zero_mul] at this
  exact this

theorem roundBits_mono_pos (hp : 0 < p) {x y : ℚ} (hx : 0 < x) (hxy : x ≤ y) :
    roundBits p emin x ≤ roundBits p emin y := by
  have hy : 0 < y := hx.trans_le hxy
  have hlog : Int.log 2 |x| ≤ Int.log 2 |y| := by
    rw [abs_of_pos hx, abs_of_pos hy]
    exact Int.log_mono_right hx hxy
  have hle : unitExp p emin x ≤ unitExp p emin y := max_le_max (by omega) le_rfl
  rcases hle.lt_or_eq with hlt | heq
  · -- the power of two that `y` begins with is between them, and a multiple of both units
    have hemin : emin ≤ unitExp p emin x := le_max_right _ _
    have hux : Int.log 2 |x| + 1 - p ≤ unitExp p emin x := le_max_left _ _
    have huy : unitExp p emin y = Int.log 2 |y| + 1 - p := by
      unfold unitExp at hlt hemin ⊢
      omega
    have hxb : x ≤ 1 * 2 ^ Int.log 2 |y| := by
      rw [one_mul]
      have hself : |x| < 2 ^ (Int.log 2 |x| + 1) := by
        exact_mod_cast Int.lt_zpow_succ_log_self (b := 2) (by norm_num) |x|
      refine (le_abs_self x).trans (hself.le.trans (zpow_le_zpow_right₀ (by norm_num) ?_))
      omega
    have hby : (1 * 2 ^ Int.log 2 |y| : ℚ) ≤ y := by
      rw [one_mul]
      have hself : ((2 : ℕ) : ℚ) ^ Int.log 2 |y| ≤ |y| := Int.zpow_log_le_self (by norm_num) (abs_pos.mpr hy.ne')
      rw [abs_of_pos hy] at hself ⊢
      exact_mod_cast hself
    calc roundBits p emin x
        ≤ roundEven (((1 : ℤ) : ℚ) * 2 ^ Int.log 2 |y| / 2 ^ unitExp p emin x) * 2 ^ unitExp p emin x := by
          rw [Int.cast_one]
          exact roundUnit_mono _ hxb
      _ = ((1 : ℤ) : ℚ) * 2 ^ Int.log 2 |y| := roundEven_multiple (by omega)
      _ = roundEven (((1 : ℤ) : ℚ) * 2 ^ Int.log 2 |y| / 2 ^ unitExp p emin y) * 2 ^ unitExp p emin y :=
          (roundEven_multiple (by omega)).symm
      _ ≤ roundBits p emin y := by
          rw [Int.cast_one]
          exact roundUnit_mono _ hby
  · unfold roundBits
    rw [heq]
    exact roundUnit_mono _ hxy

/-- **Rounding keeps the order.** -/
theorem roundBits_mono (hp : 0 < p) : Monotone (roundBits p emin) := by
  intro x y hxy
  rcases lt_trichotomy x 0 with hx | rfl | hx
  · rcases lt_or_ge y 0 with hy | hy
    · have h : roundBits p emin _ ≤ roundBits p emin _ := roundBits_mono_pos hp (neg_pos.mpr hy) (neg_le_neg hxy)
      rw [roundBits_neg, roundBits_neg] at h
      exact neg_le_neg_iff.mp h
    · have hneg : roundBits p emin x ≤ 0 := by
        have h : 0 ≤ roundBits p emin _ := roundBits_nonneg (neg_nonneg.mpr hx.le)
        rw [roundBits_neg] at h
        exact neg_nonneg.mp h
      exact hneg.trans (roundBits_nonneg hy)
  · rw [roundBits_zero]
    exact roundBits_nonneg hxy
  · exact roundBits_mono_pos hp hx hxy

/-- A rounded number is an integer of `p` digits times the unit. -/
theorem roundBits_digits (p : ℕ) (emin : ℤ) (x : ℚ) : ∃ n e : ℤ, roundBits p emin x = n * 2 ^ e ∧ |n| ≤ 2 ^ p ∧ emin ≤ e := by
  refine ⟨roundEven (x / 2 ^ unitExp p emin x), unitExp p emin x, rfl, ?_, le_max_right _ _⟩
  have hlt : |x / 2 ^ unitExp p emin x| ≤ ((2 ^ p : ℤ) : ℚ) := by
    rw [abs_div, abs_of_pos (two_zpow_pos _), div_le_iff₀ (two_zpow_pos _)]
    have hself : |x| < 2 ^ (Int.log 2 |x| + 1) := by
      exact_mod_cast Int.lt_zpow_succ_log_self (b := 2) (by norm_num) |x|
    refine hself.le.trans ?_
    push_cast
    rw [← zpow_natCast, ← zpow_add₀ (by norm_num)]
    refine zpow_le_zpow_right₀ (by norm_num) ?_
    have : Int.log 2 |x| + 1 - p ≤ unitExp p emin x := le_max_left _ _
    omega
  obtain ⟨hlo, hhi⟩ := abs_le.mp hlt
  have hhi' := roundEven_mono hhi
  have hlo' := roundEven_mono hlo
  rw [roundEven_intCast] at hhi'
  rw [← Int.cast_neg, roundEven_intCast] at hlo'
  exact abs_le.mpr ⟨hlo', hhi'⟩

/-- Such a number is not changed by rounding to as many digits or more. -/
theorem roundBits_of_digits (hp : 0 < p) {n e : ℤ} (hn : |n| ≤ 2 ^ p) (he : emin ≤ e) :
    roundBits p emin (n * 2 ^ e) = n * 2 ^ e := by
  by_cases hzero : n = 0
  · rw [hzero, Int.cast_zero, zero_mul, roundBits_zero]
  have habs : |(n * 2 ^ e : ℚ)| = |n| * 2 ^ e := by
    rw [abs_mul, abs_of_pos (two_zpow_pos e)]
    push_cast
    rfl
  have hpos : (0 : ℚ) < |(n * 2 ^ e : ℚ)| := by
    rw [habs]
    exact mul_pos (by exact_mod_cast abs_pos.mpr hzero) (two_zpow_pos e)
  rcases hn.lt_or_eq with hlt | heq
  · refine roundEven_multiple (max_le ?_ he)
    have hlog : Int.log 2 |(n * 2 ^ e : ℚ)| < p + e := by
      rw [← Int.lt_zpow_iff_log_lt (by norm_num) hpos, habs]
      push_cast
      rw [zpow_add₀ (by norm_num), zpow_natCast]
      refine mul_lt_mul_of_pos_right ?_ (two_zpow_pos e)
      exact_mod_cast hlt
    omega
  · -- the power of two above is a multiple of the next unit
    obtain ⟨m, hm⟩ : ∃ m : ℤ, n = m * 2 := by
      obtain ⟨q, rfl⟩ := Nat.exists_eq_succ_of_ne_zero hp.ne'
      rw [pow_succ] at heq
      rcases abs_choice n with h | h
      · exact ⟨2 ^ q, by rw [← heq, h]⟩
      · exact ⟨-2 ^ q, by rw [neg_mul, ← heq, h, neg_neg]⟩
    have hnext : (n * 2 ^ e : ℚ) = (m : ℚ) * 2 ^ (e + 1) := by
      rw [hm, zpow_add₀ (by norm_num)]
      push_cast
      ring
    rw [hnext]
    refine roundEven_multiple (max_le ?_ (by omega))
    rw [← hnext]
    have hlog : Int.log 2 |(n * 2 ^ e : ℚ)| < p + e + 1 := by
      rw [← Int.lt_zpow_iff_log_lt (by norm_num) hpos, habs, heq]
      push_cast
      rw [add_assoc, zpow_add₀ (by norm_num), zpow_natCast]
      refine mul_lt_mul_of_pos_left (zpow_lt_zpow_right₀ (by norm_num) (by omega)) (by positivity)
    omega

theorem roundBits_natCast (hp : 0 < p) (hemin : emin ≤ 0) {n : ℕ} (h : n ≤ 2 ^ p) : roundBits p emin n = n := by
  have hdigits := roundBits_of_digits (n := n) hp (by rw [Nat.abs_cast]; exact_mod_cast h) hemin
  rwa [Int.cast_natCast, zpow_zero, mul_one] at hdigits

theorem roundBits_roundBits {p' : ℕ} {emin' : ℤ} (hp : 0 < p') (hle : p ≤ p') (hemin : emin' ≤ emin) (x : ℚ) :
    roundBits p' emin' (roundBits p emin x) = roundBits p emin x := by
  obtain ⟨n, e, hx, hn, he⟩ := roundBits_digits p emin x
  rw [hx]
  exact roundBits_of_digits hp (hn.trans (pow_le_pow_right₀ (by norm_num) hle)) (hemin.trans he)

/-! How far off a rounded number is. -/

theorem roundEven_near (q : ℚ) : |roundEven q - q| ≤ 1 / 2 := by
  have hlo := Int.floor_le q
  have hhi := Int.lt_floor_add_one q
  unfold roundEven
  rw [abs_le]
  split_ifs
  all_goals
    push_cast
    constructor <;> linarith

theorem roundBits_near (x : ℚ) : |roundBits p emin x - x| ≤ 2 ^ unitExp p emin x / 2 := by
  have hpos := two_zpow_pos (unitExp p emin x)
  have hx : x = x / 2 ^ unitExp p emin x * 2 ^ unitExp p emin x := (div_mul_cancel₀ x hpos.ne').symm
  have hdiff : roundBits p emin x - x =
      (roundEven (x / 2 ^ unitExp p emin x) - x / 2 ^ unitExp p emin x) * 2 ^ unitExp p emin x := by
    rw [sub_mul, ← hx]
    rfl
  rw [hdiff, abs_mul, abs_of_pos hpos]
  calc _ ≤ 1 / 2 * (2 : ℚ) ^ unitExp p emin x := mul_le_mul_of_nonneg_right (roundEven_near _) hpos.le
    _ = _ := by ring

/-- Off the smallest unit, the error is relative. -/
theorem roundBits_near_of_lt {x : ℚ} (hx : x ≠ 0) (h : emin < unitExp p emin x) :
    |roundBits p emin x - x| ≤ 1 / 2 ^ p * |x| := by
  have hunit : unitExp p emin x = Int.log 2 |x| + 1 - p := by
    unfold unitExp at h ⊢
    omega
  have hself : ((2 : ℕ) : ℚ) ^ Int.log 2 |x| ≤ |x| := Int.zpow_log_le_self (by norm_num) (abs_pos.mpr hx)
  calc |roundBits p emin x - x| ≤ 2 ^ unitExp p emin x / 2 := roundBits_near x
    _ = 1 / 2 ^ p * ((2 : ℕ) : ℚ) ^ Int.log 2 |x| := by
      rw [hunit, zpow_sub₀ (by norm_num), zpow_add₀ (by norm_num), zpow_natCast]
      push_cast
      ring
    _ ≤ 1 / 2 ^ p * |x| := mul_le_mul_of_nonneg_left hself (by positivity)

/-- What is not changed by rounding is a multiple of the smallest unit. -/
theorem exists_multiple {x : ℚ} (h : roundBits p emin x = x) : ∃ n : ℤ, x = n * 2 ^ emin := by
  obtain ⟨n, e, hx, -, he⟩ := roundBits_digits p emin x
  obtain ⟨d, rfl⟩ := Int.le.dest he
  refine ⟨n * 2 ^ d, ?_⟩
  rw [← h, hx, zpow_add₀ (by norm_num), zpow_natCast]
  push_cast
  ring

theorem unitExp_eq_or_lt (p : ℕ) (emin : ℤ) (x : ℚ) : unitExp p emin x = emin ∨ emin < unitExp p emin x :=
  (le_max_right _ _ : emin ≤ unitExp p emin x).eq_or_lt.imp Eq.symm id

/-- How far off a rounded number is, near 0 too. -/
theorem roundBits_error (x : ℚ) : |roundBits p emin x - x| ≤ 1 / 2 ^ p * |x| + 2 ^ emin / 2 := by
  have hemin := two_zpow_pos emin
  by_cases hx : x = 0
  · rw [hx, roundBits_zero, sub_zero, abs_zero, mul_zero, zero_add]
    positivity
  rcases unitExp_eq_or_lt p emin x with heq | hlt
  · have hnear : |roundBits p emin x - x| ≤ 2 ^ unitExp p emin x / 2 := roundBits_near x
    rw [heq] at hnear
    exact hnear.trans (le_add_of_nonneg_left (by positivity))
  · exact (roundBits_near_of_lt hx hlt).trans (le_add_of_nonneg_right (by positivity))

theorem roundBits_add_near {a b : ℚ} (ha : roundBits p emin a = a) (hb : roundBits p emin b = b) :
    |roundBits p emin (a + b) - (a + b)| ≤ 1 / 2 ^ p * |a + b| := by
  by_cases h0 : a + b = 0
  · rw [h0, roundBits_zero, sub_zero, abs_zero]
    positivity
  rcases unitExp_eq_or_lt p emin (a + b) with heq | hlt
  · -- a multiple of the smallest unit
    obtain ⟨m, hm⟩ := exists_multiple ha
    obtain ⟨n, hn⟩ := exists_multiple hb
    have hsum : a + b = ((m + n : ℤ) : ℚ) * 2 ^ emin := by
      rw [hm, hn]
      push_cast
      ring
    have hexact : roundBits p emin (a + b) = a + b := by
      unfold roundBits
      rw [heq, hsum]
      exact roundEven_multiple le_rfl
    rw [hexact, sub_self, abs_zero]
    positivity
  · exact roundBits_near_of_lt h0 hlt

end Digits

/-- binary32 and binary64 -/
@[reducible] def Rounding.ieee : Rounding where
  float := roundBits 24 (-149)
  double := roundBits 53 (-1074)
  floatUnit := 1 / 2 ^ 24
  floatTiny := 2 ^ (-149 : ℤ) / 2
  doubleUnit := 1 / 2 ^ 53
  float_mono := roundBits_mono (by norm_num)
  double_mono := roundBits_mono (by norm_num)
  float_natCast _ h := roundBits_natCast (by norm_num) (by norm_num) h
  float_float := roundBits_roundBits (by norm_num) le_rfl le_rfl
  double_float := roundBits_roundBits (by norm_num) (by norm_num) (by norm_num)
  double_double := roundBits_roundBits (by norm_num) le_rfl le_rfl
  float_near := roundBits_error
  double_add_near _ _ := roundBits_add_near
  doubleUnit_nonneg := by norm_num
  doubleUnit_le_one := by norm_num

/-- `3.2f - 0.2f` is `3.0f`, while the exact difference is above 3. -/
example : Rounding.ieee.float (13421773 / 4194304 - 13421773 / 67108864) = 3 ∧
    (3 : ℚ) < 13421773 / 4194304 - 13421773 / 67108864 := by decide +kernel

end Lyli
