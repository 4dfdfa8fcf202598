import Mathlib
import Lyli.Base.FoldM
import Lyli.Calibration.LensRefinement

/-!
# Lens pixels are accounted for

A fill adds to its moments only pixels that are still `OBJECT`, each once, and
marks them; the pixel it starts at is one of them (`findCentroid_fills`).  So a
pixel that is `OBJECT` when the scan gets to it is accounted for then.  It can
only be lost before, to the mark drawn at the centroid of another lens:

    MarksClear past image (start) (raster mask)  ↔  scan … = some s  ∧  Accounted mask s     (scan_accounts_iff)

That is so for every rounding of the centroid, and whatever byte is read past the image.
-/

namespace Lyli.Calibration.LensDetector

variable {image mask : Image8}

/-! ## Pixels -/

namespace Image8

variable {m : Image8} {x y : ℕ} {v : UInt8}

theorem load_some (h : m.load x y = some v) : x < m.cols ∧ y < m.rows ∧ m.value x y = v := by
  unfold load at h
  split_ifs at h with hin
  exact ⟨hin.1, hin.2, Option.some.inj h⟩

theorem loadInt_some (h : m.loadInt x y = some v) : x < m.cols ∧ y < m.rows ∧ m.value x y = v := by
  unfold loadInt at h
  split_ifs at h
  exact load_some h

theorem load_eq (hx : x < m.cols) (hy : y < m.rows) : m.load x y = some (m.value x y) := if_pos ⟨hx, hy⟩

theorem loadInt_eq (hfit : m.cols * y + x < intEnd) (hx : x < m.cols) (hy : y < m.rows) :
    m.loadInt x y = some (m.value x y) := by
  unfold loadInt
  rw [if_pos hfit, load_eq hx hy]

@[simp] theorem set_rows (v : UInt8) : (m.set x y v).rows = m.rows := rfl

@[simp] theorem set_cols (v : UInt8) : (m.set x y v).cols = m.cols := rfl

@[simp] theorem set_value (v : UInt8) (x' y' : ℕ) :
    (m.set x y v).value x' y' = if x' = x ∧ y' = y then v else m.value x' y' := rfl

end Image8

/-! ## What a fill does -/

/-- The pixels of a fill of `mask` were objects, and are marked now; nothing else has changed. -/
structure Fills (mask : Image8) (f : Fill) : Prop where
  rows_eq : f.mask.rows = mask.rows
  cols_eq : f.mask.cols = mask.cols
  nodup : f.pixels.Nodup
  object : ∀ q ∈ f.pixels, mask.value q.1 q.2 = Mask.object
  value : ∀ x y, f.mask.value x y = if (x, y) ∈ f.pixels then Mask.processed else mask.value x y

theorem fills_start (mask : Image8) : Fills mask { mask } :=
  ⟨rfl, rfl, .nil, by simp, by simp⟩

/-- A pixel that is an object during the fill is not one of its pixels. -/
theorem Fills.notMem {f : Fill} (h : Fills mask f) {x y : ℕ} (hv : f.mask.value x y = Mask.object) :
    (x, y) ∉ f.pixels ∧ mask.value x y = Mask.object := by
  have hval := h.value x y
  rw [hv] at hval
  by_cases hmem : (x, y) ∈ f.pixels
  · rw [if_pos hmem] at hval
    exact absurd hval (by decide)
  · rw [if_neg hmem] at hval
    exact ⟨hmem, hval.symm⟩

/-- **One pixel.** -/
theorem accumulate_fills {f f' : Fill} (h : Fills mask f) {x y : ℕ} (hv : f.mask.value x y = Mask.object)
    (hf : accumulate image x y f = some f') : Fills mask f' ∧ f'.pixels = f.pixels ++ [(x, y)] := by
  obtain ⟨v, -, hf⟩ := Option.bind_eq_some_iff.mp hf
  split_ifs at hf
  obtain rfl := Option.some.inj hf
  obtain ⟨hnot, hobj⟩ := h.notMem hv
  refine ⟨⟨h.rows_eq, h.cols_eq, ?_, ?_, ?_⟩, rfl⟩
  · rw [List.nodup_append]
    refine ⟨h.nodup, List.nodup_singleton _, fun a ha b hb heq => ?_⟩
    rw [List.mem_singleton.mp hb] at heq
    exact hnot (heq ▸ ha)
  · intro q hq
    rcases List.mem_append.mp hq with hq | hq
    · exact h.object q hq
    · rw [List.mem_singleton.mp hq]
      exact hobj
  · intro x' y'
    show (if x' = x ∧ y' = y then Mask.processed else f.mask.value x' y') =
      if (x', y') ∈ f.pixels ++ [(x, y)] then Mask.processed else mask.value x' y'
    by_cases hxy : x' = x ∧ y' = y
    · obtain ⟨rfl, rfl⟩ := hxy
      rw [if_pos ⟨rfl, rfl⟩, if_pos (by simp)]
    · have hmem : (x', y') ∈ f.pixels ++ [(x, y)] ↔ (x', y') ∈ f.pixels := by
        simp [hxy]
      rw [if_neg hxy, h.value]
      simp only [hmem]

/-- **One pixel of a fill to the right.** -/
theorem fillRight_succ {y n x : ℕ} {f : Fill} {r : ℕ × Fill} :
    fillRight image y (n + 1) x f = some r ↔
      (f.mask.loadInt x y = some Mask.object ∧ image.cols * y + x + 1 < intEnd ∧
        ∃ f₁, accumulate image x y f = some f₁ ∧ fillRight image y n (x + 1) f₁ = some r) ∨
      (∃ v, f.mask.loadInt x y = some v ∧ v ≠ Mask.object) ∧ r = (x, f) := by
  constructor
  · intro h
    obtain ⟨v, hv, h⟩ := Option.bind_eq_some_iff.mp h
    by_cases hobj : v = Mask.object
    · rw [if_pos hobj] at h
      obtain ⟨f₁, h₁, h⟩ := Option.bind_eq_some_iff.mp h
      by_cases hfit : image.cols * y + x + 1 < intEnd
      · rw [if_pos hfit] at h
        exact Or.inl ⟨hobj ▸ hv, hfit, f₁, h₁, h⟩
      · rw [if_neg hfit] at h
        cases h
    · rw [if_neg hobj] at h
      exact Or.inr ⟨⟨v, hv, hobj⟩, (Option.some.inj h).symm⟩
  · rintro (⟨hv, hfit, f₁, h₁, h⟩ | ⟨⟨v, hv, hobj⟩, rfl⟩)
    · refine Option.bind_eq_some_iff.mpr ⟨_, hv, ?_⟩
      rw [if_pos rfl]
      refine Option.bind_eq_some_iff.mpr ⟨f₁, h₁, ?_⟩
      rw [if_pos hfit]
      exact h
    · refine Option.bind_eq_some_iff.mpr ⟨v, hv, ?_⟩
      rw [if_neg hobj]

/-- **One row of a fill.** -/
theorem fillRows_succ {minx maxx n y startx endx : ℕ} {f f' : Fill} :
    fillRows image minx maxx (n + 1) y startx endx f = some f' ↔ image.cols * y + endx < intEnd ∧
      ((f.mask.loadInt startx y = some Mask.object ∧ ∃ left f₁ x f₂,
          fillLeft image y (startx - minx) startx f = some (left, f₁) ∧
          fillRight image y (maxx - startx) startx f₁ = some (x, f₂) ∧
          fillRows image minx maxx n (y + 1) left (x - 1) f₂ = some f') ∨
        ((∃ v, f.mask.loadInt startx y = some v ∧ v ≠ Mask.object) ∧ startx ≤ endx ∧
          ((findStart f.mask y (endx - startx) startx = some none ∧ f' = f) ∨
            ∃ s x f₂, findStart f.mask y (endx - startx) startx = some (some s) ∧
              fillRight image y (maxx - s) s f = some (x, f₂) ∧
              fillRows image minx maxx n (y + 1) s (x - 1) f₂ = some f'))) := by
  constructor
  · intro h
    unfold fillRows at h
    by_cases hpos : intEnd ≤ image.cols * y + endx
    · rw [if_pos hpos] at h
      cases h
    · rw [if_neg hpos] at h
      refine ⟨not_le.mp hpos, ?_⟩
      obtain ⟨v, hv, h⟩ := Option.bind_eq_some_iff.mp h
      by_cases hobj : v = Mask.object
      · rw [if_pos hobj] at h
        obtain ⟨⟨left, f₁⟩, h₁, h⟩ := Option.bind_eq_some_iff.mp h
        obtain ⟨⟨x, f₂⟩, h₂, h⟩ := Option.bind_eq_some_iff.mp h
        exact Or.inl ⟨hobj ▸ hv, left, f₁, x, f₂, h₁, h₂, h⟩
      · rw [if_neg hobj] at h
        by_cases hend : endx < startx
        · rw [if_pos hend] at h
          cases h
        · rw [if_neg hend] at h
          refine Or.inr ⟨⟨v, hv, hobj⟩, not_lt.mp hend, ?_⟩
          obtain ⟨found, hfound, h⟩ := Option.bind_eq_some_iff.mp h
          rcases hcase : found with - | s
          · rw [hcase] at hfound h
            exact Or.inl ⟨hfound, (Option.some.inj h).symm⟩
          · rw [hcase] at hfound h
            obtain ⟨⟨x, f₂⟩, h₂, h⟩ := Option.bind_eq_some_iff.mp h
            exact Or.inr ⟨s, x, f₂, hfound, h₂, h⟩
  · rintro ⟨hpos, ⟨hv, left, f₁, x, f₂, h₁, h₂, h⟩ | ⟨⟨v, hv, hobj⟩, hend, h⟩⟩
    · unfold fillRows
      rw [if_neg (not_le.mpr hpos)]
      refine Option.bind_eq_some_iff.mpr ⟨_, hv, ?_⟩
      rw [if_pos rfl]
      exact Option.bind_eq_some_iff.mpr ⟨(left, f₁), h₁, Option.bind_eq_some_iff.mpr ⟨(x, f₂), h₂, h⟩⟩
    · unfold fillRows
      rw [if_neg (not_le.mpr hpos)]
      refine Option.bind_eq_some_iff.mpr ⟨v, hv, ?_⟩
      rw [if_neg hobj, if_neg (not_lt.mpr hend)]
      rcases h with ⟨hfound, rfl⟩ | ⟨s, x, f₂, hfound, h₂, h⟩
      · exact Option.bind_eq_some_iff.mpr ⟨none, hfound, rfl⟩
      · exact Option.bind_eq_some_iff.mpr ⟨some s, hfound, Option.bind_eq_some_iff.mpr ⟨(x, f₂), h₂, h⟩⟩

/-! The rule of a fill: what adding one object pixel keeps, the whole fill keeps. -/

section Rule

variable {P : Fill → Prop}
  (hP : ∀ x y f f', P f → f.mask.value x y = Mask.object → accumulate image x y f = some f' → P f')

include hP

theorem fillLeft_inv {y n startx left : ℕ} {f f' : Fill} (h : P f)
    (hf : fillLeft image y n startx f = some (left, f')) : P f' := by
  induction n generalizing startx f with
  | zero =>
    obtain ⟨-, rfl⟩ := Prod.mk.inj (Option.some.inj hf)
    exact h
  | succ n ih =>
    obtain ⟨v, hv, hf⟩ := Option.bind_eq_some_iff.mp hf
    split_ifs at hf with hobj
    · obtain ⟨f₁, h₁, hf⟩ := Option.bind_eq_some_iff.mp hf
      exact ih (hP _ _ _ _ h ((Image8.loadInt_some hv).2.2.trans hobj) h₁) hf
    · obtain ⟨-, rfl⟩ := Prod.mk.inj (Option.some.inj hf)
      exact h

theorem fillRight_inv {y n x stop : ℕ} {f f' : Fill} (h : P f)
    (hf : fillRight image y n x f = some (stop, f')) : P f' := by
  induction n generalizing x f with
  | zero =>
    obtain ⟨-, rfl⟩ := Prod.mk.inj (Option.some.inj hf)
    exact h
  | succ n ih =>
    rcases fillRight_succ.mp hf with ⟨hv, -, f₁, h₁, hf⟩ | ⟨-, heq⟩
    · exact ih (hP _ _ _ _ h (Image8.loadInt_some hv).2.2 h₁) hf
    · obtain ⟨-, rfl⟩ := Prod.mk.inj heq
      exact h

theorem fillRows_inv {minx maxx n y startx endx : ℕ} {f f' : Fill} (h : P f)
    (hf : fillRows image minx maxx n y startx endx f = some f') : P f' := by
  induction n generalizing y startx endx f with
  | zero =>
    obtain rfl := Option.some.inj hf
    exact h
  | succ n ih =>
    obtain ⟨-, ⟨-, left, f₁, x, f₂, h₁, h₂, hf⟩ | ⟨-, -, ⟨-, rfl⟩ | ⟨s, x, f₂, -, h₂, hf⟩⟩⟩ := fillRows_succ.mp hf
    · exact ih (fillRight_inv hP (fillLeft_inv hP h h₁) h₂) hf
    · exact h
    · exact ih (fillRight_inv hP h h₂) hf

/-- **A call of `findCentroid`.** -/
theorem findCentroid_inv {R : Rounding} {start : ℕ × ℕ} {centroid : Option Point2f} {f : Fill} (h : P { mask })
    (hf : findCentroid image mask start = some (centroid, f)) : P f := by
  unfold findCentroid at hf
  split_ifs at hf
  · obtain ⟨-, rfl⟩ := Prod.mk.inj (Option.some.inj hf)
    exact h
  · obtain ⟨f₀, h₀, hf⟩ := Option.bind_eq_some_iff.mp hf
    obtain ⟨-, rfl⟩ := Prod.mk.inj (Option.some.inj hf)
    exact fillRows_inv hP h h₀

end Rule

/-- A fill that goes on from `f` to `f'`. -/
def Extends (mask : Image8) (f f' : Fill) : Prop := Fills mask f' ∧ ∀ q ∈ f.pixels, q ∈ f'.pixels

theorem Extends.refl {f : Fill} (h : Fills mask f) : Extends mask f f := ⟨h, fun _ hq => hq⟩

theorem accumulate_extends (f : Fill) (x y : ℕ) (f₁ f₂ : Fill) (h : Extends mask f f₁)
    (hv : f₁.mask.value x y = Mask.object) (h₁ : accumulate image x y f₁ = some f₂) : Extends mask f f₂ := by
  obtain ⟨hfill, hpix⟩ := accumulate_fills h.1 hv h₁
  refine ⟨hfill, fun q hq => ?_⟩
  rw [hpix]
  exact List.mem_append_left _ (h.2 q hq)

theorem fillLeft_fills {y n startx left : ℕ} {f f' : Fill} (h : Fills mask f)
    (hf : fillLeft image y n startx f = some (left, f')) : Extends mask f f' :=
  fillLeft_inv (accumulate_extends f) (.refl h) hf

theorem fillRight_fills {y n x stop : ℕ} {f f' : Fill} (h : Fills mask f)
    (hf : fillRight image y n x f = some (stop, f')) : Extends mask f f' :=
  fillRight_inv (accumulate_extends f) (.refl h) hf

theorem fillRows_fills {minx maxx n y startx endx : ℕ} {f f' : Fill} (h : Fills mask f)
    (hf : fillRows image minx maxx n y startx endx f = some f') : Extends mask f f' :=
  fillRows_inv (accumulate_extends f) (.refl h) hf

/-- The pixel a fill to the right starts at is one of its pixels, if it was an object to begin with. -/
theorem fillRight_start {y n x stop : ℕ} {f f' : Fill} (h : Fills mask f) (hn : 0 < n)
    (hobj : mask.value x y = Mask.object) (hf : fillRight image y n x f = some (stop, f')) : (x, y) ∈ f'.pixels := by
  cases n with
  | zero => omega
  | succ n =>
    have hext := fillRight_fills h hf
    rcases fillRight_succ.mp hf with ⟨hv, -, f₁, h₁, hf⟩ | ⟨⟨v, hv, hv'⟩, -⟩
    · obtain ⟨hfill, hpix⟩ := accumulate_fills h (Image8.loadInt_some hv).2.2 h₁
      exact (fillRight_fills hfill hf).2 _ (by rw [hpix]; simp)
    · -- it is no object any more: it has been filled before
      have hval := (Image8.loadInt_some hv).2.2
      rw [h.value] at hval
      by_cases hmem : (x, y) ∈ f.pixels
      · exact hext.2 _ hmem
      · rw [if_neg hmem, hobj] at hval
        exact absurd hval.symm hv'

/-- **A call of `findCentroid`** fills object pixels, the one it starts at among them unless that is
in the last column. -/
theorem findCentroid_fills {R : Rounding} {start : ℕ × ℕ} {centroid : Option Point2f} {f : Fill}
    (h : findCentroid image mask start = some (centroid, f)) :
    Fills mask f ∧ (start.1 ≠ image.cols - 1 → start.1 < image.cols → start.2 < image.rows →
      mask.value start.1 start.2 = Mask.object → start ∈ f.pixels) := by
  unfold findCentroid at h
  split_ifs at h with hlast hfit
  · obtain ⟨-, rfl⟩ := Prod.mk.inj (Option.some.inj h)
    exact ⟨fills_start mask, fun hne => absurd hlast hne⟩
  · obtain ⟨f₀, h₀, h⟩ := Option.bind_eq_some_iff.mp h
    obtain ⟨-, rfl⟩ := Prod.mk.inj (Option.some.inj h)
    refine ⟨(fillRows_fills (fills_start mask) h₀).1, fun _ hx hy hobj => ?_⟩
    -- the first row starts with the pixel itself
    have hrows : min (start.2 + maxLensSize) image.rows - start.2 = min (start.2 + maxLensSize) image.rows - start.2 - 1 + 1 := by
      unfold maxLensSize
      omega
    rw [hrows] at h₀
    obtain ⟨-, ⟨-, left, f₁, x, f₂, h₁, h₂, hf⟩ | ⟨⟨v, hv, hne⟩, -⟩⟩ := fillRows_succ.mp h₀
    · obtain ⟨hfill₁, -⟩ := fillLeft_fills (fills_start mask) h₁
      have hmem := fillRight_start hfill₁ (by unfold maxLensSize; omega) hobj h₂
      exact (fillRows_fills (fillRight_fills hfill₁ h₂).1 hf).2 _ hmem
    · exact absurd ((Image8.loadInt_some hv).2.2.symm.trans hobj) hne

/-! ## A fill stays inside the image -/

/-- Every position in the image, and every product of a coordinate with a grey value, is an `int`. -/
structure IntsFit (mask : Image8) : Prop where
  size : mask.rows * mask.cols < intEnd
  rows : mask.rows * 255 ≤ intEnd
  cols : mask.cols * 255 ≤ intEnd

theorem IntsFit.position (h : IntsFit mask) {x y : ℕ} (hx : x < mask.cols) (hy : y < mask.rows) :
    mask.cols * y + x + 1 < intEnd := by
  have hrow : (y + 1) * mask.cols ≤ mask.rows * mask.cols := Nat.mul_le_mul_right mask.cols hy
  rw [Nat.add_mul, Nat.mul_comm y] at hrow
  have := h.size
  omega

theorem mul_grey_lt {n k : ℕ} (hn : n * 255 ≤ intEnd) (hk : k < n) (v : UInt8) : k * v.toNat < intEnd := by
  have hv : v.toNat ≤ 255 := Nat.lt_succ_iff.mp v.toNat_lt
  have hle : k * v.toNat ≤ k * 255 := Nat.mul_le_mul_left k hv
  omega

section Defined

variable (hrows : image.rows = mask.rows) (hcols : image.cols = mask.cols) (hfit : IntsFit mask)

include hfit in
theorem Fills.load {f : Fill} (h : Fills mask f) {x y : ℕ} (hx : x < mask.cols) (hy : y < mask.rows) :
    f.mask.loadInt x y = some (f.mask.value x y) := by
  refine Image8.loadInt_eq ?_ (h.cols_eq ▸ hx) (h.rows_eq ▸ hy)
  rw [h.cols_eq]
  exact Nat.lt_of_succ_lt (hfit.position hx hy)

include hrows hcols hfit

theorem accumulate_defined (f : Fill) {x y : ℕ} (hx : x < mask.cols) (hy : y < mask.rows) :
    ∃ f', accumulate image x y f = some f' ∧ f'.mask = f.mask.set x y Mask.processed := by
  have hload : image.loadInt x y = some (image.value x y) :=
    Image8.loadInt_eq (hcols ▸ Nat.lt_of_succ_lt (hfit.position hx hy)) (hcols ▸ hx) (hrows ▸ hy)
  exact ⟨_, Option.bind_eq_some_iff.mpr
    ⟨_, hload, if_pos ⟨mul_grey_lt hfit.rows hy _, mul_grey_lt hfit.cols hx _⟩⟩, rfl⟩

/-- A fill to the left changes nothing from `startx` on. -/
theorem fillLeft_defined (y n startx : ℕ) {f : Fill} (h : Fills mask f) (hy : y < mask.rows) (hn : n ≤ startx)
    (hx : startx ≤ mask.cols) : ∃ left f', fillLeft image y n startx f = some (left, f') ∧ left ≤ startx ∧
      ∀ x, startx ≤ x → f'.mask.value x y = f.mask.value x y := by
  induction n generalizing startx f with
  | zero => exact ⟨startx, f, rfl, le_rfl, fun _ _ => rfl⟩
  | succ n ih =>
    have hload := h.load hfit (x := startx - 1) (by omega) hy
    by_cases hobj : f.mask.value (startx - 1) y = Mask.object
    · obtain ⟨f₁, h₁, hmask⟩ := accumulate_defined hrows hcols hfit f (x := startx - 1) (by omega) hy
      obtain ⟨left, f', hf', hle, hkeep⟩ := ih (startx - 1) (accumulate_fills h hobj h₁).1 (by omega) (by omega)
      refine ⟨left, f', ?_, by omega, fun x hxs => ?_⟩
      · refine Option.bind_eq_some_iff.mpr ⟨_, hload, ?_⟩
        rw [if_pos hobj]
        exact Option.bind_eq_some_iff.mpr ⟨f₁, h₁, hf'⟩
      · rw [hkeep x (by omega), hmask, Image8.set_value, if_neg (by omega)]
    · refine ⟨startx, f, ?_, le_rfl, fun _ _ => rfl⟩
      refine Option.bind_eq_some_iff.mpr ⟨_, hload, ?_⟩
      rw [if_neg hobj]

theorem fillRight_defined (y n x : ℕ) {f : Fill} (h : Fills mask f) (hy : y < mask.rows) (hx : x + n ≤ mask.cols) :
    ∃ stop f', fillRight image y n x f = some (stop, f') ∧ x ≤ stop ∧ stop ≤ x + n ∧
      (0 < n → f.mask.value x y = Mask.object → x < stop) := by
  induction n generalizing x f with
  | zero => exact ⟨x, f, rfl, le_rfl, le_rfl, fun hn => absurd hn (lt_irrefl 0)⟩
  | succ n ih =>
    have hload := h.load hfit (x := x) (by omega) hy
    by_cases hobj : f.mask.value x y = Mask.object
    · obtain ⟨f₁, h₁, -⟩ := accumulate_defined hrows hcols hfit f (x := x) (by omega) hy
      obtain ⟨stop, f', hf', hle, hstop, -⟩ := ih (x + 1) (accumulate_fills h hobj h₁).1 (by omega)
      refine ⟨stop, f', fillRight_succ.mpr (Or.inl ⟨hobj ▸ hload, ?_, f₁, h₁, hf'⟩), by omega, by omega,
        fun _ _ => by omega⟩
      rw [hcols]
      exact hfit.position (by omega) hy
    · exact ⟨x, f, fillRight_succ.mpr (Or.inr ⟨⟨_, hload, hobj⟩, rfl⟩), le_rfl, by omega, fun _ ho => absurd ho hobj⟩

omit hrows hcols in
theorem findStart_defined (y n startx : ℕ) {f : Fill} (h : Fills mask f) (hy : y < mask.rows)
    (hx : startx + n < mask.cols) : ∃ found, findStart f.mask y n startx = some found ∧
      ∀ s, found = some s → startx ≤ s ∧ s ≤ startx + n ∧ f.mask.value s y = Mask.object := by
  induction n generalizing startx with
  | zero =>
    have hload := h.load hfit (x := startx) (by omega) hy
    unfold findStart
    by_cases hobj : f.mask.value startx y = Mask.object
    · refine ⟨some startx, Option.bind_eq_some_iff.mpr ⟨_, hload, if_pos hobj⟩, ?_⟩
      rintro s ⟨⟩
      exact ⟨le_rfl, le_rfl, hobj⟩
    · exact ⟨none, Option.bind_eq_some_iff.mpr ⟨_, hload, if_neg hobj⟩, fun s hs => by cases hs⟩
  | succ n ih =>
    have hload := h.load hfit (x := startx) (by omega) hy
    unfold findStart
    by_cases hobj : f.mask.value startx y = Mask.object
    · refine ⟨some startx, Option.bind_eq_some_iff.mpr ⟨_, hload, if_pos hobj⟩, ?_⟩
      rintro s ⟨⟩
      exact ⟨le_rfl, by omega, hobj⟩
    · obtain ⟨found, hfound, hs⟩ := ih (startx + 1) (by omega)
      refine ⟨found, Option.bind_eq_some_iff.mpr ⟨_, hload, ?_⟩, fun s hs' => ?_⟩
      · rw [if_neg hobj]
        exact hfound
      · have := hs s hs'
        exact ⟨by omega, by omega, this.2.2⟩

/-- `startx ≤ endx < maxx` in every row, so each search ends at `endx` or before. -/
theorem fillRows_defined (minx maxx n y startx endx : ℕ) {f : Fill} (h : Fills mask f) (hmax : maxx ≤ mask.cols)
    (hy : y + n ≤ mask.rows) (hstart : startx ≤ endx) (hend : endx < maxx) :
    ∃ f', fillRows image minx maxx n y startx endx f = some f' := by
  induction n generalizing y startx endx f with
  | zero => exact ⟨f, rfl⟩
  | succ n ih =>
    have hload := h.load hfit (x := startx) (y := y) (by omega) (by omega)
    have hendpos : image.cols * y + endx < intEnd := by
      rw [hcols]
      exact Nat.lt_of_succ_lt (hfit.position (by omega) (by omega))
    by_cases hobj : f.mask.value startx y = Mask.object
    · obtain ⟨left, f₁, h₁, hleft, hkeep⟩ := fillLeft_defined hrows hcols hfit y (startx - minx) startx h
        (by omega) (by omega) (by omega)
      have hfill₁ := (fillLeft_fills h h₁).1
      obtain ⟨stop, f₂, h₂, -, hstop, hlt⟩ := fillRight_defined hrows hcols hfit y (maxx - startx) startx
        hfill₁ (by omega) (by omega)
      have hlt := hlt (by omega) ((hkeep startx le_rfl).trans hobj)
      obtain ⟨f', hf'⟩ := ih (y + 1) left (stop - 1) (fillRight_fills hfill₁ h₂).1 (by omega)
        (by omega) (by omega)
      exact ⟨f', fillRows_succ.mpr ⟨hendpos, Or.inl ⟨hobj ▸ hload, left, f₁, stop, f₂, h₁, h₂, hf'⟩⟩⟩
    · obtain ⟨found, hfound, hs⟩ := findStart_defined hfit y (endx - startx) startx h (by omega)
        (by omega)
      cases found with
      | none => exact ⟨f, fillRows_succ.mpr ⟨hendpos, Or.inr ⟨⟨_, hload, hobj⟩, hstart, Or.inl ⟨hfound, rfl⟩⟩⟩⟩
      | some s =>
        obtain ⟨hge, hle, hsobj⟩ := hs s rfl
        obtain ⟨stop, f₂, h₂, -, hstop, hlt⟩ := fillRight_defined hrows hcols hfit y (maxx - s) s h
          (by omega) (by omega)
        have hlt := hlt (by omega) hsobj
        obtain ⟨f', hf'⟩ := ih (y + 1) s (stop - 1) (fillRight_fills h h₂).1 (by omega)
          (by omega) (by omega)
        exact ⟨f', fillRows_succ.mpr
          ⟨hendpos, Or.inr ⟨⟨_, hload, hobj⟩, hstart, Or.inr ⟨s, stop, f₂, hfound, h₂, hf'⟩⟩⟩⟩

/-- **`findCentroid` never leaves the image.** -/
theorem findCentroid_defined {R : Rounding} {start : ℕ × ℕ} (hx : start.1 < mask.cols) (hy : start.2 < mask.rows) :
    ∃ centroid f, findCentroid image mask start = some (centroid, f) := by
  unfold findCentroid
  have hr := hfit.rows
  have hc := hfit.cols
  split_ifs with hlast hover
  · exact ⟨_, _, rfl⟩
  · unfold maxLensSize intEnd at hover
    unfold intEnd at hr hc
    omega
  · obtain ⟨f, hf⟩ := fillRows_defined hrows hcols hfit (start.1 - maxLensSize)
      (min (start.1 + maxLensSize) image.cols) (min (start.2 + maxLensSize) image.rows - start.2) start.2 start.1
      (start.1 + 1) (fills_start mask) (by omega) (by omega) (by omega)
      (by unfold maxLensSize; omega)
    exact ⟨_, f, Option.bind_eq_some_iff.mpr ⟨f, hf, rfl⟩⟩

end Defined

/-! ## One pixel of the scan -/

theorem mem_raster {m : Image8} {p : ℕ × ℕ} : p ∈ raster m ↔ p.1 < m.cols ∧ p.2 < m.rows := by
  obtain ⟨x, y⟩ := p
  unfold raster
  simp only [List.mem_flatMap, List.mem_map, List.mem_range, Prod.mk.injEq]
  constructor
  · rintro ⟨row, hrow, col, hcol, rfl, rfl⟩
    exact ⟨hcol, hrow⟩
  · rintro ⟨hx, hy⟩
    exact ⟨y, hy, x, hx, rfl, rfl⟩

/-- The scan gets to `p` before it gets to `q`. -/
def Before (p q : ℕ × ℕ) : Prop := p.2 < q.2 ∨ (p.2 = q.2 ∧ p.1 < q.1)

/-- The scan goes row by row, and along each row. -/
theorem raster_pairwise (m : Image8) : (raster m).Pairwise Before := by
  unfold raster
  rw [List.pairwise_flatMap]
  constructor
  · intro row _
    rw [List.pairwise_map]
    exact List.pairwise_lt_range.imp fun h => Or.inr ⟨rfl, h⟩
  · refine List.pairwise_lt_range.imp fun h p hp q hq => ?_
    obtain ⟨x, -, rfl⟩ := List.mem_map.mp hp
    obtain ⟨y, -, rfl⟩ := List.mem_map.mp hq
    exact Or.inl h

/-- The pixels before and after one of them. -/
theorem raster_split {m : Image8} {p : ℕ × ℕ} (h : p ∈ raster m) : ∃ before after,
    raster m = before ++ p :: after ∧ (∀ q ∈ before, Before q p) ∧ (∀ q ∈ after, Before p q) := by
  obtain ⟨before, after, hsplit⟩ := List.append_of_mem h
  have hord := raster_pairwise m
  rw [hsplit, List.pairwise_append, List.pairwise_cons] at hord
  exact ⟨before, after, hsplit, fun q hq => hord.2.2 q hq p List.mem_cons_self, hord.2.1.1⟩

theorem pixelAt_some {m : Image8} {r : Point2f} {q : ℕ × ℕ} (h : pixelAt m r = some q) : q.1 < m.cols ∧ q.2 < m.rows := by
  unfold pixelAt at h
  simp only at h
  split_ifs at h with hin
  obtain rfl := Option.some.inj h
  exact ⟨by omega, by omega⟩

theorem pixelAt_congr {m m' : Image8} (hrows : m.rows = m'.rows) (hcols : m.cols = m'.cols) (r : Point2f) :
    pixelAt m r = pixelAt m' r := by
  unfold pixelAt
  rw [hrows, hcols]

/-- The lens found at `p`: its pixels, its refined centroid, and the pixel drawn there. -/
structure LensAt [Rounding] (past : ℕ → ℕ → UInt8) (image : Image8) (s : Scan) (p : ℕ × ℕ) (f : Fill) (r : Point2f)
    (q : ℕ × ℕ) : Prop where
  object : s.mask.load p.1 p.2 = some Mask.object
  centroid : ∃ c, findCentroid image s.mask p = some (some c, f) ∧ refineCentroid past image c = some r
  drawn : pixelAt f.mask r = some q

section Scan

variable {R : Rounding} {past : ℕ → ℕ → UInt8} {s s' : Scan} {p : ℕ × ℕ}

/-- The state after a lens. -/
def record [Rounding] (s : Scan) (f : Fill) (r : Point2f) (q : ℕ × ℕ) : Scan where
  mask := f.mask.set q.1 q.2 Mask.debug
  pointGrid := s.pointGrid.addPoint r
  calls := s.calls ++ [f.pixels]

theorem LensAt.visit {f : Fill} {r : Point2f} {q : ℕ × ℕ} (h : LensAt past image s p f r q) :
    visit past image s p = some (record s f r q) := by
  obtain ⟨c, hc, hr⟩ := h.centroid
  refine Option.bind_eq_some_iff.mpr ⟨_, h.object, ?_⟩
  rw [if_pos rfl]
  refine Option.bind_eq_some_iff.mpr ⟨_, hc, Option.bind_eq_some_iff.mpr ⟨c, rfl, ?_⟩⟩
  exact Option.bind_eq_some_iff.mpr ⟨r, hr, Option.bind_eq_some_iff.mpr ⟨q, h.drawn, rfl⟩⟩

/-- **One pixel of the scan**: nothing happens, or a lens is recorded. -/
theorem visit_cases (h : visit past image s p = some s') :
    (s' = s ∧ s.mask.value p.1 p.2 ≠ Mask.object) ∨ ∃ f r q, LensAt past image s p f r q ∧ s' = record s f r q := by
  obtain ⟨v, hv, h⟩ := Option.bind_eq_some_iff.mp h
  split_ifs at h with hobj
  · obtain ⟨⟨centroid, f⟩, hfind, h⟩ := Option.bind_eq_some_iff.mp h
    cases centroid with
    | none => cases h
    | some c =>
      have h : (refineCentroid past image c).bind _ = some s' := h
      obtain ⟨r, hr, h⟩ := Option.bind_eq_some_iff.mp h
      obtain ⟨q, hq, h⟩ := Option.bind_eq_some_iff.mp h
      exact Or.inr ⟨f, r, q, ⟨hobj ▸ hv, ⟨c, hfind, hr⟩, hq⟩, (Option.some.inj h).symm⟩
  · obtain rfl := Option.some.inj h
    exact Or.inl ⟨rfl, fun hval => hobj ((Image8.load_some hv).2.2.symm.trans hval)⟩

theorem LensAt.fills {f : Fill} {r : Point2f} {q : ℕ × ℕ} (h : LensAt past image s p f r q) : Fills s.mask f := by
  obtain ⟨c, hc, -⟩ := h.centroid
  exact (findCentroid_fills hc).1

@[simp] theorem record_value (f : Fill) (r : Point2f) (q : ℕ × ℕ) (x y : ℕ) :
    (record s f r q).mask.value x y = if x = q.1 ∧ y = q.2 then Mask.debug else f.mask.value x y := rfl

theorem mem_record_calls {f : Fill} {r : Point2f} {q a : ℕ × ℕ} :
    a ∈ (record s f r q).calls.flatten ↔ a ∈ s.calls.flatten ∨ a ∈ f.pixels := by
  show a ∈ (s.calls ++ [f.pixels]).flatten ↔ _
  rw [List.flatten_append, List.mem_append, List.flatten_singleton]

/-- A pixel that is an object after a lens was one before, and is not of the lens. -/
theorem LensAt.object_of_record {f : Fill} {r : Point2f} {q : ℕ × ℕ} (h : LensAt past image s p f r q) {x y : ℕ}
    (hv : (record s f r q).mask.value x y = Mask.object) :
    s.mask.value x y = Mask.object ∧ (x, y) ∉ f.pixels ∧ ¬ (x = q.1 ∧ y = q.2) := by
  rw [record_value] at hv
  by_cases hq : x = q.1 ∧ y = q.2
  · rw [if_pos hq] at hv
    exact absurd hv (by decide)
  · rw [if_neg hq] at hv
    exact ⟨(h.fills.notMem hv).2, (h.fills.notMem hv).1, hq⟩

/-! ## Pending and lost pixels -/

/-- A pixel that is still an object was one from the start, and no call has added it to its moments. -/
structure Pending (mask : Image8) (s : Scan) : Prop where
  rows_eq : s.mask.rows = mask.rows
  cols_eq : s.mask.cols = mask.cols
  object : ∀ x y, s.mask.value x y = Mask.object → mask.value x y = Mask.object ∧ (x, y) ∉ s.calls.flatten

theorem pending_start (mask : Image8) : Pending mask { mask } :=
  ⟨rfl, rfl, fun x y h => ⟨h, by simp⟩⟩

theorem pending_visit (h : Pending mask s) (hs : visit past image s p = some s') : Pending mask s' := by
  rcases visit_cases hs with ⟨rfl, -⟩ | ⟨f, r, q, hlens, rfl⟩
  · exact h
  · refine ⟨hlens.fills.rows_eq.trans h.rows_eq, hlens.fills.cols_eq.trans h.cols_eq, fun x y hv => ?_⟩
    obtain ⟨hobj, hnot, -⟩ := hlens.object_of_record hv
    obtain ⟨hmask, hcalls⟩ := h.object x y hobj
    exact ⟨hmask, fun hmem => (mem_record_calls.mp hmem).elim hcalls hnot⟩

/-- Neither to be processed nor added to the moments of any call. -/
def Lost (s : Scan) (q : ℕ × ℕ) : Prop := s.mask.value q.1 q.2 ≠ Mask.object ∧ q ∉ s.calls.flatten

theorem lost_visit {q : ℕ × ℕ} (h : Lost s q) (hs : visit past image s p = some s') : Lost s' q := by
  rcases visit_cases hs with ⟨rfl, -⟩ | ⟨f, r, q', hlens, rfl⟩
  · exact h
  · refine ⟨fun hv => h.1 (hlens.object_of_record hv).1, fun hmem => ?_⟩
    rcases mem_record_calls.mp hmem with hmem | hmem
    · exact h.2 hmem
    · exact h.1 (hlens.fills.object q hmem)

/-- **A lost pixel stays lost.** -/
theorem lost_run {q : ℕ × ℕ} {ps : List (ℕ × ℕ)} (h : Lost s q) (hs : ps.foldlM (visit past image) s = some s') :
    Lost s' q :=
  foldlM_inv (fun _ s => Lost s q) h (fun _ _ _ _ _ _ hl hv => lost_visit hl hv) hs

/-- The pixel drawn is lost if it was still to be processed. -/
theorem LensAt.lost {f : Fill} {r : Point2f} {q : ℕ × ℕ} (h : LensAt past image s p f r q) (hp : Pending mask s)
    (hq : f.mask.value q.1 q.2 = Mask.object) : mask.value q.1 q.2 = Mask.object ∧ Lost (record s f r q) q := by
  obtain ⟨hnot, hobj⟩ := h.fills.notMem hq
  obtain ⟨hmask, hcalls⟩ := hp.object q.1 q.2 hobj
  refine ⟨hmask, ?_, fun hmem => (mem_record_calls.mp hmem).elim hcalls hnot⟩
  rw [record_value, if_pos ⟨rfl, rfl⟩]
  decide

/-! ## The whole scan -/

/-- If `p` is an object, its lens is found, and the pixel drawn is not one still to be processed,
except in the last column. -/
def MarkClear [Rounding] (past : ℕ → ℕ → UInt8) (image : Image8) (s : Scan) (p : ℕ × ℕ) : Prop :=
  s.mask.load p.1 p.2 = some Mask.object → ∃ f r q, LensAt past image s p f r q ∧
    (f.mask.value q.1 q.2 = Mask.object → q.1 = s.mask.cols - 1)

/-- The marks of a run are clear. -/
def MarksClear [Rounding] (past : ℕ → ℕ → UInt8) (image : Image8) : Scan → List (ℕ × ℕ) → Prop
  | _, [] => True
  | s, p :: ps => MarkClear past image s p ∧ ∀ s', visit past image s p = some s' → MarksClear past image s' ps

/-- Every object pixel outside the last column is added to the moments of exactly one call, once. -/
def Accounted (mask : Image8) (s : Scan) : Prop :=
  ∀ x < mask.cols, ∀ y < mask.rows, mask.value x y = Mask.object → x ≠ mask.cols - 1 →
    s.calls.flatten.count (x, y) = 1

/-- What holds after the pixels `done` if the marks so far were clear. -/
structure Accounting (mask : Image8) (done : List (ℕ × ℕ)) (s : Scan) : Prop extends Pending mask s where
  nodup : s.calls.flatten.Nodup
  kept : ∀ x y, mask.value x y = Mask.object → x ≠ mask.cols - 1 →
    s.mask.value x y = Mask.object ∨ (x, y) ∈ s.calls.flatten
  seen : ∀ p ∈ done, p.1 ≠ mask.cols - 1 → s.mask.value p.1 p.2 ≠ Mask.object

/-- A pixel that is no object. -/
theorem visit_clear (h : Pending mask s) (hp : p ∈ raster mask) (hne : s.mask.value p.1 p.2 ≠ Mask.object) :
    visit past image s p = some s := by
  obtain ⟨hx, hy⟩ := mem_raster.mp hp
  refine Option.bind_eq_some_iff.mpr ⟨_, Image8.load_eq (h.cols_eq ▸ hx) (h.rows_eq ▸ hy), ?_⟩
  rw [if_neg hne]
  rfl

/-- **One pixel with a clear mark.** -/
theorem accounting_visit (hrows : image.rows = mask.rows) (hcols : image.cols = mask.cols) {done : List (ℕ × ℕ)}
    (h : Accounting mask done s) (hp : p ∈ raster mask) (hclear : MarkClear past image s p) :
    ∃ s', visit past image s p = some s' ∧ Accounting mask (done ++ [p]) s' := by
  obtain ⟨hx, hy⟩ := mem_raster.mp hp
  have hload : s.mask.load p.1 p.2 = some (s.mask.value p.1 p.2) :=
    Image8.load_eq (h.cols_eq ▸ hx) (h.rows_eq ▸ hy)
  by_cases hobj : s.mask.value p.1 p.2 = Mask.object
  · obtain ⟨f, r, q, hlens, hq⟩ := hclear (hobj ▸ hload)
    have hfill := hlens.fills
    refine ⟨_, hlens.visit, pending_visit h.toPending hlens.visit, ?_, ?_, ?_⟩
    · show (s.calls ++ [f.pixels]).flatten.Nodup
      rw [List.flatten_append, List.flatten_singleton, List.nodup_append]
      refine ⟨h.nodup, hfill.nodup, fun a ha b hb heq => ?_⟩
      exact (h.object b.1 b.2 (hfill.object b hb)).2 (heq ▸ ha)
    · intro x y hm hlast
      rw [mem_record_calls]
      rcases h.kept x y hm hlast with hv | hmem
      · by_cases hpix : (x, y) ∈ f.pixels
        · exact Or.inr (Or.inr hpix)
        · have hval : f.mask.value x y = Mask.object := by rw [hfill.value, if_neg hpix, hv]
          apply Or.inl
          rw [record_value, if_neg]
          · exact hval
          · rintro ⟨rfl, rfl⟩
            exact hlast (h.cols_eq ▸ hq hval)
      · exact Or.inr (Or.inl hmem)
    · intro a ha hlast hv
      obtain ⟨hva, hnot, -⟩ := hlens.object_of_record hv
      rcases List.mem_append.mp ha with ha | ha
      · exact h.seen a ha hlast hva
      · -- the pixel itself is filled
        obtain rfl := List.mem_singleton.mp ha
        obtain ⟨c, hc, -⟩ := hlens.centroid
        exact hnot ((findCentroid_fills hc).2 (hcols ▸ hlast) (hcols ▸ hx) (hrows ▸ hy) hobj)
  · refine ⟨s, visit_clear h.toPending hp hobj, h.toPending, h.nodup, h.kept, fun a ha hlast => ?_⟩
    rcases List.mem_append.mp ha with ha | ha
    · exact h.seen a ha hlast
    · rw [List.mem_singleton.mp ha]
      exact hobj

theorem accounting_run (hrows : image.rows = mask.rows) (hcols : image.cols = mask.cols) {done ps : List (ℕ × ℕ)}
    (h : Accounting mask done s) (hps : ∀ p ∈ ps, p ∈ raster mask) (hclear : MarksClear past image s ps) :
    ∃ s', ps.foldlM (visit past image) s = some s' ∧ Accounting mask (done ++ ps) s' := by
  induction ps generalizing done s with
  | nil => exact ⟨s, rfl, by rwa [List.append_nil]⟩
  | cons p ps ih =>
    obtain ⟨s₁, h₁, hacc⟩ := accounting_visit hrows hcols h (hps p List.mem_cons_self) hclear.1
    obtain ⟨s', hs', hacc'⟩ := ih hacc (fun a ha => hps a (List.mem_cons_of_mem _ ha)) (hclear.2 s₁ h₁)
    exact ⟨s', foldlM_cons_some.mpr ⟨s₁, h₁, hs'⟩, by simpa using hacc'⟩

/-- A run that accounts for every pixel drew no mark on one still to be processed. -/
theorem marksClear_of_accounted {ps : List (ℕ × ℕ)} (h : Pending mask s) (hs : ps.foldlM (visit past image) s = some s')
    (hacc : Accounted mask s') : MarksClear past image s ps := by
  induction ps generalizing s with
  | nil => trivial
  | cons p ps ih =>
    obtain ⟨s₁, h₁, hrest⟩ := foldlM_cons_some.mp hs
    refine ⟨fun hobj => ?_, fun s₂ h₂ => ?_⟩
    · rcases visit_cases h₁ with ⟨-, hne⟩ | ⟨f, r, q, hlens, rfl⟩
      · exact absurd (Image8.load_some hobj).2.2 hne
      · refine ⟨f, r, q, hlens, fun hq => ?_⟩
        by_contra hlast
        obtain ⟨hmask, hlost⟩ := hlens.lost h hq
        obtain ⟨hqx, hqy⟩ := pixelAt_some hlens.drawn
        rw [hlens.fills.cols_eq, h.cols_eq] at hqx
        rw [hlens.fills.rows_eq, h.rows_eq] at hqy
        have hcount := hacc q.1 hqx q.2 hqy hmask (h.cols_eq ▸ hlast)
        have hmem : q ∈ s'.calls.flatten := List.count_pos_iff.mp (by rw [hcount]; exact Nat.one_pos)
        exact (lost_run hlost hrest).2 hmem
    · obtain rfl : s₁ = s₂ := Option.some.inj (h₁.symm.trans h₂)
      exact ih (pending_visit h h₁) hrest

/-- **Lens pixel accounting**, for the scans whose marks are clear. -/
theorem scan_accounts_iff {R : Rounding} (past : ℕ → ℕ → UInt8) (image mask : Image8)
    (hrows : image.rows = mask.rows) (hcols : image.cols = mask.cols) :
    (∃ s, scan past image mask = some s ∧ Accounted mask s) ↔ MarksClear past image { mask } (raster mask) := by
  constructor
  · rintro ⟨s, hs, hacc⟩
    exact marksClear_of_accounted (pending_start mask) hs hacc
  · intro hclear
    have hstart : Accounting mask [] { mask } := ⟨pending_start mask, by simp, fun x y h _ => Or.inl h, by simp⟩
    obtain ⟨s, hs, hacc⟩ := accounting_run hrows hcols hstart (fun _ h => h) hclear
    refine ⟨s, hs, fun x hx y hy hobj hlast => ?_⟩
    have hmem : (x, y) ∈ raster mask := mem_raster.mpr ⟨hx, hy⟩
    have hseen := hacc.seen (x, y) (by simpa using hmem) hlast
    have hin := (hacc.kept x y hobj hlast).resolve_left hseen
    exact List.count_eq_one_of_mem hacc.nodup hin

/-- A run over pixels that are no objects does nothing. -/
theorem run_no_object {ps : List (ℕ × ℕ)} (hps : ∀ p ∈ ps, s.mask.value p.1 p.2 ≠ Mask.object)
    (hs : ps.foldlM (visit past image) s = some s') : s' = s := by
  refine foldlM_inv (fun _ t => t = s) rfl ?_ hs
  rintro done p rest t t' hl rfl hv
  rcases visit_cases hv with ⟨rfl, -⟩ | ⟨f, r, q, hlens, -⟩
  · rfl
  · exact absurd (Image8.load_some hlens.object).2.2 (hps p (hl ▸ by simp))

end Scan

/-- The pixels of a mask drawn by a condition. -/
theorem Mask.drawn {P : Prop} [Decidable P] (h : (if P then Mask.object else Mask.empty) = Mask.object) : P := by
  by_contra hP
  rw [if_neg hP] at h
  exact absurd h (by decide)

/-- A faint lens at `(4, 4)` next to a brighter one at `(6, 4)` and `(7, 4)`; the rest is dark, up to
a bright corner. -/
def faintGrey : Image8 where
  rows := 1660
  cols := 1660
  value x y :=
    if y = 4 then (if x = 4 then 1 else if x = 6 then 3 else if x = 7 then 2 else 0)
    else if 1600 ≤ x ∧ 1600 ≤ y then 100 else 0

def faintMask : Image8 where
  rows := 1660
  cols := 1660
  value x y := if y = 4 ∧ (x = 4 ∨ x = 6 ∨ x = 7) then Mask.object else Mask.empty

section Floats

attribute [local instance] Rounding.ieee

theorem scan_accounts_iff_faint :
    (∃ s, scan zeros faintGrey faintMask = some s ∧ Accounted faintMask s) ↔
      MarksClear zeros faintGrey { mask := faintMask } (raster faintMask) :=
  scan_accounts_iff zeros faintGrey faintMask rfl rfl

theorem refineCentroid_faint : refineCentroid zeros faintGrey ⟨4, 4⟩ = some ⟨6, 4⟩ := by
  have h3 : refineStep zeros faintGrey ⟨4, 4⟩ 3 = some ⟨6, 4⟩ := by
    refine (refineStep_eq [⟨-1, 0⟩, ⟨0, 0⟩, ⟨1, 0⟩, ⟨2, 0⟩, ⟨3, 0⟩, ⟨-1, -1⟩, ⟨0, -1⟩, ⟨1, -1⟩, ⟨2, -1⟩, ⟨3, -1⟩]
      (36, 24, 6) ?_ ?_ (by decide)).trans ?_
    all_goals decide +kernel
  have hrest : ∀ radius ∈ [4, 5, 6], refineStep zeros faintGrey ⟨6, 4⟩ radius = some ⟨6, 4⟩ := by
    intro radius hradius
    refine (refineStep_eq [⟨-3, 0⟩, ⟨-2, 0⟩, ⟨-1, 0⟩, ⟨0, 0⟩, ⟨1, 0⟩, ⟨-3, -1⟩, ⟨-2, -1⟩, ⟨-1, -1⟩, ⟨0, -1⟩, ⟨1, -1⟩]
      (36, 24, 6) ?_ ?_ (by decide)).trans ?_
    · fin_cases hradius <;> decide +kernel
    all_goals decide +kernel
  have hfrom : [4, 5, 6].foldlM (refineStep zeros faintGrey) ⟨6, 4⟩ = some ⟨6, 4⟩ := foldlM_fixed hrest
  exact foldlM_cons_some.mpr ⟨_, h3, hfrom⟩

/-- The refined centroid of the faint lens is `(6, 4)`: the mark removes that pixel of the brighter lens. -/
theorem faint_not_accounted : ¬ ∃ s, scan zeros faintGrey faintMask = some s ∧ Accounted faintMask s := by
  rintro ⟨s, hs, hacc⟩
  obtain ⟨before, after, hsplit, hbefore, -⟩ := raster_split (m := faintMask) (p := (4, 4)) (mem_raster.mpr (by decide))
  -- no object comes before the faint lens
  have hnone : ∀ p ∈ before, faintMask.value p.1 p.2 ≠ Mask.object := by
    intro p hp hobj
    have hlt := hbefore p hp
    have hmem : p.2 = 4 ∧ (p.1 = 4 ∨ p.1 = 6 ∨ p.1 = 7) := Mask.drawn hobj
    unfold Before at hlt
    omega
  unfold scan at hs
  rw [hsplit, foldlM_append_some] at hs
  obtain ⟨s₀, h₀, hs⟩ := hs
  obtain ⟨s₁, h₁, hrest⟩ := foldlM_cons_some.mp hs
  obtain rfl := run_no_object hnone h₀
  rcases visit_cases h₁ with ⟨-, hne⟩ | ⟨f, r, q, hlens, rfl⟩
  · exact hne (by decide)
  obtain ⟨c, hc, hr⟩ := hlens.centroid
  have hfind : (findCentroid faintGrey faintMask (4, 4)).map (fun r => (r.1, r.2.pixels)) =
      some (some ⟨4, 4⟩, [(4, 4)]) := by decide +kernel
  rw [hc] at hfind
  obtain ⟨hc', hpixels⟩ := Prod.mk.inj (Option.some.inj hfind)
  obtain rfl := Option.some.inj hc'
  rw [refineCentroid_faint] at hr
  obtain rfl := Option.some.inj hr
  obtain rfl : (6, 4) = q := by
    have hpixel : pixelAt faintMask ⟨6, 4⟩ = some (6, 4) := by decide +kernel
    rw [← pixelAt_congr hlens.fills.rows_eq hlens.fills.cols_eq, hlens.drawn] at hpixel
    exact (Option.some.inj hpixel).symm
  have hlost : Lost (record { mask := faintMask } f ⟨6, 4⟩ (6, 4)) (6, 4) := by
    refine ⟨?_, fun hmem => ?_⟩
    · rw [record_value, if_pos ⟨rfl, rfl⟩]
      decide
    · rcases mem_record_calls.mp hmem with hmem | hmem
      · exact absurd hmem (by decide)
      · rw [hpixels] at hmem
        exact absurd hmem (by decide)
  have hcount := hacc 6 (by decide) 4 (by decide) (by decide) (by decide)
  exact (lost_run hlost hrest).2 (List.count_pos_iff.mp (by rw [hcount]; exact Nat.one_pos))

end Floats

end Lyli.Calibration.LensDetector
