import Mathlib
import Lyli.Calibration.LensFill

/-!
# A fill consumes one object

An object is a 4-connected component of `OBJECT` pixels (`Component`).  If every
row meets it in one interval, consecutive rows overlap, so the runs that a fill
follows from its first pixel on are its rows:

    Lens image mask start ps → (q ∈ ps ↔ q ∈ C)                                       (LensObject.mem_lens)
    the object is marked, and its mean returned  ↔  every int fits                    (findCentroid_consumes_iff)

What is added to the moments is then the object and nothing else.  Positions in
the image are `int`s, so for the largest images this is undefined.  The mean is
taken in exact arithmetic.
-/

namespace Lyli.Calibration.LensDetector

/-! ## Objects -/

/-- Neighbours in a row or in a column. -/
def Adjacent (p q : ℕ × ℕ) : Prop :=
  (p.2 = q.2 ∧ (p.1 + 1 = q.1 ∨ q.1 + 1 = p.1)) ∨ (p.1 = q.1 ∧ (p.2 + 1 = q.2 ∨ q.2 + 1 = p.2))

def IsObject (m : Image8) (q : ℕ × ℕ) : Prop := q.1 < m.cols ∧ q.2 < m.rows ∧ m.value q.1 q.2 = Mask.object

/-- A 4-connected component of object pixels. -/
structure Component (m : Image8) (C : Finset (ℕ × ℕ)) : Prop where
  object : ∀ q ∈ C, IsObject m q
  connected : ∀ p ∈ C, ∀ q ∈ C, Relation.ReflTransGen (fun a b => Adjacent a b ∧ IsObject m b) p q
  closed : ∀ p ∈ C, ∀ q, Adjacent p q → IsObject m q → q ∈ C

/-- A component with one interval a row, within reach of the search from its first pixel, and not dark. -/
structure LensObject (image mask : Image8) (C : Finset (ℕ × ℕ)) (start : ℕ × ℕ) : Prop extends Component mask C where
  interval : ∀ y a x b, (a, y) ∈ C → (b, y) ∈ C → a ≤ x → x ≤ b → (x, y) ∈ C
  start_mem : start ∈ C
  first : ∀ q ∈ C, start.2 < q.2 ∨ (start.2 = q.2 ∧ start.1 ≤ q.1)
  inner : start.1 ≠ image.cols - 1
  height : ∀ q ∈ C, q.2 < start.2 + maxLensSize
  width : ∀ q ∈ C, start.1 ≤ q.1 + maxLensSize ∧ q.1 < start.1 + maxLensSize
  bright : 0 < ∑ q ∈ C, (image.value q.1 q.2).toNat

section Objects

variable {image mask : Image8} {C : Finset (ℕ × ℕ)} {start : ℕ × ℕ}

/-- **A component crosses every row it goes past** at one column. -/
theorem Component.crossing (hC : Component mask C) {y : ℕ} {p q : ℕ × ℕ} (hp : p ∈ C) (hq : q ∈ C) (hpy : p.2 ≤ y)
    (hqy : y < q.2) : ∃ x, (x, y) ∈ C ∧ (x, y + 1) ∈ C := by
  have hpath := hC.connected p hp q hq
  induction hpath using Relation.ReflTransGen.head_induction_on with
  | refl => omega
  | @head a c hac _ ih =>
    obtain ⟨hadj, hobj⟩ := hac
    have hc : c ∈ C := hC.closed a hp c hadj hobj
    by_cases hcy : c.2 ≤ y
    · exact ih hc hcy
    · -- the step down from row `y`
      obtain ⟨ax, ay⟩ := a
      obtain ⟨cx, cy⟩ := c
      unfold Adjacent at hadj
      simp only at hadj hpy hcy
      obtain rfl : ax = cx := by omega
      obtain rfl : ay = y := by omega
      obtain rfl : cy = ay + 1 := by omega
      exact ⟨ax, hp, hc⟩

theorem Component.below (hC : Component mask C) {x y : ℕ} (h : (x, y) ∈ C) (hy : y + 1 < mask.rows)
    (hobj : mask.value x (y + 1) = Mask.object) : (x, y + 1) ∈ C := by
  apply hC.closed (x, y) h
  · exact Or.inr ⟨rfl, Or.inl rfl⟩
  · exact ⟨(hC.object _ h).1, hy, hobj⟩

/-- The pixels of a row are those from a first to a last column. -/
theorem LensObject.exists_row (hL : LensObject image mask C start) {y : ℕ} (h : ∃ x, (x, y) ∈ C) :
    ∃ a b, a ≤ b ∧ ∀ x, (x, y) ∈ C ↔ a ≤ x ∧ x ≤ b := by
  have hne : (C.filter fun q => q.2 = y).Nonempty := by
    obtain ⟨x, hx⟩ := h
    exact ⟨(x, y), Finset.mem_filter.mpr ⟨hx, rfl⟩⟩
  obtain ⟨⟨a, ya⟩, ha, hmin⟩ := Finset.exists_min_image _ Prod.fst hne
  obtain ⟨⟨b, yb⟩, hb, hmax⟩ := Finset.exists_max_image _ Prod.fst hne
  obtain ⟨haC, rfl⟩ := Finset.mem_filter.mp ha
  obtain ⟨hbC, rfl⟩ := Finset.mem_filter.mp hb
  refine ⟨a, b, hmin _ hb, fun x => ?_⟩
  constructor
  · intro hx
    have hx' : (x, yb) ∈ C.filter fun q => q.2 = yb := Finset.mem_filter.mpr ⟨hx, rfl⟩
    exact ⟨hmin _ hx', hmax _ hx'⟩
  · rintro ⟨h₁, h₂⟩
    exact hL.interval yb a x b haC hbC h₁ h₂

/-- The columns the search is limited to. -/
theorem LensObject.toInterval (hL : LensObject image mask C start) (hcols : image.cols = mask.cols) {y a b : ℕ}
    (hle : a ≤ b)
    (hrow : ∀ x, (x, y) ∈ C ↔ a ≤ x ∧ x ≤ b) :
    Interval mask (start.1 - maxLensSize) (min (start.1 + maxLensSize) image.cols) y a b := by
  have ha : (a, y) ∈ C := (hrow a).mpr ⟨le_rfl, hle⟩
  have hb : (b, y) ∈ C := (hrow b).mpr ⟨hle, le_rfl⟩
  have hwa : start.1 ≤ a + maxLensSize := (hL.width _ ha).1
  have hwb : b < start.1 + maxLensSize := (hL.width _ hb).2
  have hbc : b < mask.cols := (hL.object _ hb).1
  have hy : y < mask.rows := (hL.object _ hb).2.1
  refine ⟨hle, by omega, by omega, ?_, ?_, ?_⟩
  · intro x h₁ h₂
    exact (hL.object _ ((hrow x).mpr ⟨h₁, h₂⟩)).2.2
  · intro hmin hobj
    have hleft : (a - 1, y) ∈ C := by
      apply hL.closed _ ha
      · exact Or.inl ⟨rfl, Or.inr (by show a - 1 + 1 = a; omega)⟩
      · exact ⟨by show a - 1 < mask.cols; omega, hy, hobj⟩
    have := (hrow _).mp hleft
    omega
  · intro hmax hobj
    have hright : (b + 1, y) ∈ C := by
      apply hL.closed _ hb
      · exact Or.inl ⟨rfl, Or.inl rfl⟩
      · exact ⟨by show b + 1 < mask.cols; omega, hy, hobj⟩
    have := (hrow _).mp hright
    omega

/-! ## The rows of a fill -/

/-- A run that has a pixel of the object is its row. -/
theorem LensObject.row_of_mem (hL : LensObject image mask C start) (hcols : image.cols = mask.cols) {x y a b : ℕ}
    (hI : Interval mask (start.1 - maxLensSize) (min (start.1 + maxLensSize) image.cols) y a b) (hax : a ≤ x)
    (hxb : x ≤ b) (hx : (x, y) ∈ C) (x' : ℕ) : (x', y) ∈ C ↔ a ≤ x' ∧ x' ≤ b := by
  obtain ⟨a', b', hle, hrow⟩ := hL.exists_row ⟨x, hx⟩
  obtain ⟨hax', hxb'⟩ := (hrow x).mp hx
  -- both are maximal, and hold column `x`
  obtain ⟨rfl, rfl⟩ := hI.unique (hL.toInterval hcols hle hrow) hxb hxb' (fun _ h₁ h₂ => by omega)
    (fun _ h₁ h₂ => by omega)
  exact hrow x'

/-- The pixels of a row and of the rows below it. -/
theorem mem_rowPixels_append {ps : List (ℕ × ℕ)} {y a b : ℕ} (hrow : ∀ x, (x, y) ∈ C ↔ a ≤ x ∧ x ≤ b)
    (hps : ∀ q, q ∈ ps ↔ q ∈ C ∧ y < q.2) (q : ℕ × ℕ) : q ∈ rowPixels y a b ++ ps ↔ q ∈ C ∧ y ≤ q.2 := by
  obtain ⟨qx, qy⟩ := q
  rw [List.mem_append, mem_rowPixels, hps]
  constructor
  · rintro (⟨rfl, h⟩ | ⟨hq, hlt⟩)
    · exact ⟨(hrow qx).mpr h, le_rfl⟩
    · exact ⟨hq, hlt.le⟩
  · rintro ⟨hq, hle⟩
    rcases Nat.eq_or_lt_of_le hle with heq | hlt
    · obtain rfl : y = qy := heq
      exact Or.inl ⟨rfl, (hrow qx).mp hq⟩
    · exact Or.inr ⟨hq, hlt⟩

/-- **The runs below a row** of the object are the object's rows below it. -/
theorem LensObject.mem_runs (hL : LensObject image mask C start) (hrows : image.rows = mask.rows)
    (hcols : image.cols = mask.cols) {y y' a₀ b₀ : ℕ} {ps : List (ℕ × ℕ)} (hy' : y' = y + 1) (h₀ : a₀ ≤ b₀)
    (hrow₀ : ∀ x, (x, y) ∈ C ↔ a₀ ≤ x ∧ x ≤ b₀)
    (h : Runs mask (start.1 - maxLensSize) (min (start.1 + maxLensSize) image.cols)
      (min (start.2 + maxLensSize) image.rows) y' a₀ b₀ ps) (q : ℕ × ℕ) : q ∈ ps ↔ q ∈ C ∧ y < q.2 := by
  have ha₀ : (a₀, y) ∈ C := (hrow₀ a₀).mpr ⟨le_rfl, h₀⟩
  induction h generalizing y q with
  | limit =>
    -- the object ends above the limit
    simp only [List.not_mem_nil, false_iff, not_and]
    intro hq
    have h₁ := hL.height q hq
    have h₂ := (hL.object q hq).2.1
    omega
  | stop _ hnot =>
    subst hy'
    simp only [List.not_mem_nil, false_iff, not_and]
    intro hq hlt
    obtain ⟨x, hx, hx'⟩ := hL.crossing ha₀ hq le_rfl hlt
    obtain ⟨h₁, h₂⟩ := (hrow₀ x).mp hx
    exact hnot x h₁ h₂ (hL.object _ hx').2.2
  | @row _ a₀ b₀ a b ps hlt hI ha hb _ _ ih =>
    subst hy'
    -- the first column that the run shares with the row above
    have hle := hI.le
    have hobj := hI.object (max a a₀) (le_max_left _ _) (by omega)
    have hx : (max a a₀, y + 1) ∈ C := hL.below ((hrow₀ _).mpr ⟨le_max_right _ _, by omega⟩) (by omega) hobj
    have hrow := hL.row_of_mem hcols hI (le_max_left _ _) (by omega) hx
    exact mem_rowPixels_append hrow (fun q => ih rfl hle hrow q ((hrow a).mpr ⟨le_rfl, hle⟩)) q

/-- **The lens** that starts at the first pixel of the object is the object. -/
theorem LensObject.mem_lens (hL : LensObject image mask C start) (hrows : image.rows = mask.rows)
    (hcols : image.cols = mask.cols) {ps : List (ℕ × ℕ)} (h : Lens image mask start ps) (q : ℕ × ℕ) :
    q ∈ ps ↔ q ∈ C := by
  obtain ⟨-, hy, hobj⟩ := hL.object _ hL.start_mem
  unfold Lens at h
  generalize hmaxy : min (start.2 + maxLensSize) image.rows = maxy at h
  generalize hend : start.1 + 1 = b₀ at h
  cases h with
  | limit =>
    unfold maxLensSize at hmaxy
    omega
  | stop _ hnot => exact absurd hobj (hnot start.1 le_rfl (by omega))
  | @row _ _ _ a b ps _ hI ha _ hnot hruns =>
    have hle : a ≤ start.1 := by
      by_contra hlt
      exact hnot start.1 le_rfl (by omega) hobj
    have hrow := hL.row_of_mem hcols hI hle ha hL.start_mem
    rw [← hmaxy] at hruns
    rw [mem_rowPixels_append hrow (hL.mem_runs hrows hcols rfl hI.le hrow hruns)]
    apply and_iff_left_of_imp
    intro hq
    have := hL.first q hq
    omega

attribute [local instance] Rounding.exact

/-- `findCentroid` returns the mean of the object, and marks the object's pixels and no other. -/
def Consumes (image mask : Image8) (C : Finset (ℕ × ℕ)) (start : ℕ × ℕ) : Prop :=
  ∃ f, findCentroid image mask start = some (some (centroidOf image C), f) ∧
    f.mask.rows = mask.rows ∧ f.mask.cols = mask.cols ∧
    ∀ x y, f.mask.value x y = if (x, y) ∈ C then Mask.processed else mask.value x y

/-- The limits of the search, every position it looks at and every product are `int`s. -/
structure ObjectFits (image : Image8) (C : Finset (ℕ × ℕ)) (start : ℕ × ℕ) : Prop where
  maxx : start.1 + maxLensSize < intEnd
  maxy : start.2 + maxLensSize < intEnd
  pixel : ∀ q ∈ C, PixelFits image q
  /-- the last position of the search below a pixel, if the search gets there -/
  endpos : ∀ q ∈ C, q.2 + 1 < min (start.2 + maxLensSize) image.rows → image.cols * (q.2 + 1) + q.1 < intEnd

/-- The `int`s of the runs from the start on are those of the lens. -/
theorem runsFit_iff_objectFits {ps : List (ℕ × ℕ)} (hstart : start ∈ ps) :
    (start.1 + maxLensSize < intEnd ∧ start.2 + maxLensSize < intEnd ∧
        RunsFit image (min (start.2 + maxLensSize) image.rows) start.2 (start.1 + 1) ps) ↔
      ObjectFits image ps.toFinset start := by
  constructor
  · rintro ⟨h₁, h₂, hfit⟩
    exact ⟨h₁, h₂, fun q hq => hfit.pixel q (List.mem_toFinset.mp hq),
      fun q hq => hfit.endpos q (List.mem_toFinset.mp hq)⟩
  · intro h
    refine ⟨h.maxx, h.maxy, fun _ => ?_, fun q hq => h.pixel q (List.mem_toFinset.mpr hq),
      fun q hq => h.endpos q (List.mem_toFinset.mpr hq)⟩
    -- the first search ends beside the start
    exact (h.pixel start (List.mem_toFinset.mpr hstart)).next

/-- **`findCentroid` consumes exactly one object** iff every `int` of the fill fits. -/
theorem findCentroid_consumes_iff (image mask : Image8) (hrows : image.rows = mask.rows)
    (hcols : image.cols = mask.cols) (C : Finset (ℕ × ℕ)) (start : ℕ × ℕ) (hL : LensObject image mask C start) :
    Consumes image mask C start ↔ ObjectFits image C start := by
  obtain ⟨hx, hy, hobj⟩ := hL.object _ hL.start_mem
  obtain ⟨ps, qs, hlens, hperm, hiff⟩ := findCentroid_runs_iff hrows hcols hx hy hobj hL.inner
  have hps := hL.mem_lens hrows hcols hlens
  have hqs : ∀ q, q ∈ qs ↔ q ∈ C := fun q => hperm.mem_iff.trans (hps q)
  have hC : ∀ {l : List (ℕ × ℕ)}, (∀ q, q ∈ l ↔ q ∈ C) → l.toFinset = C := by
    intro l hl
    ext q
    rw [List.mem_toFinset, hl]
  obtain ⟨hmean, hsum⟩ := addAll_centroid image mask (hperm.nodup_iff.mpr hlens.nodup)
  rw [hC hqs] at hmean hsum
  have hpos : (addAll image { mask } qs).sum ≠ 0 := by
    have := hL.bright
    omega
  rw [← hC hps, ← runsFit_iff_objectFits ((hps start).mpr hL.start_mem)]
  constructor
  · rintro ⟨f, hf, -⟩
    exact ((hiff _ f).mp hf).1
  · intro hfits
    refine ⟨addAll image { mask } qs, (hiff _ _).mpr ⟨hfits, rfl, ?_⟩, addAll_dims.1, addAll_dims.2, fun x y => ?_⟩
    · rw [if_neg hpos, hmean, hC hps]
      rfl
    · rw [addAll_value]
      simp only [hqs, List.mem_toFinset, hps]

/-- A mask with the objects `C` and nothing else. -/
def objectMask (rows cols : ℕ) (C : Finset (ℕ × ℕ)) : Image8 where
  rows := rows
  cols := cols
  value x y := if (x, y) ∈ C then Mask.object else Mask.empty

/-- Pixels that are all reached from one of them, and reach it, are one component. -/
theorem objectMask_component (start : ℕ × ℕ) {rows cols : ℕ} (hin : ∀ q ∈ C, q.1 < cols ∧ q.2 < rows)
    (hto : ∀ q ∈ C, Relation.ReflTransGen (fun a b => Adjacent a b ∧ b ∈ C) start q)
    (hfrom : ∀ q ∈ C, Relation.ReflTransGen (fun a b => Adjacent a b ∧ b ∈ C) q start) :
    Component (objectMask rows cols C) C := by
  have hobject : ∀ q ∈ C, IsObject (objectMask rows cols C) q := fun q hq =>
    ⟨(hin q hq).1, (hin q hq).2, if_pos hq⟩
  refine ⟨hobject, fun p hp q hq => ?_, fun p _ q _ hobj => ?_⟩
  · have hpath := (hfrom p hp).trans (hto q hq)
    exact Relation.ReflTransGen.mono (fun a b h => ⟨h.1, hobject b h.2⟩) p q hpath
  · exact Mask.drawn hobj.2.2

/-- Two pixels in a row, and one below the second. -/
def stair : Finset (ℕ × ℕ) := {(1, 1), (2, 1), (2, 2)}

def stairGrey : Image8 where
  rows := 4
  cols := 6
  value x _ := if x = 2 then 3 else 1

theorem stair_lensObject : LensObject stairGrey (objectMask 4 6 stair) stair (1, 1) := by
  have hstep : ∀ a ∈ stair, ∀ b ∈ stair, Adjacent a b →
      Relation.ReflTransGen (fun a b => Adjacent a b ∧ b ∈ stair) a b := fun a _ b hb h =>
    Relation.ReflTransGen.single ⟨h, hb⟩
  have h₁ := hstep (1, 1) (by decide) (2, 1) (by decide) (by simp [Adjacent])
  have h₂ := hstep (2, 1) (by decide) (2, 2) (by decide) (by simp [Adjacent])
  have h₃ := hstep (2, 2) (by decide) (2, 1) (by decide) (by simp [Adjacent])
  have h₄ := hstep (2, 1) (by decide) (1, 1) (by decide) (by simp [Adjacent])
  have hmem : ∀ q ∈ stair, q = (1, 1) ∨ q = (2, 1) ∨ q = (2, 2) := by decide
  refine ⟨objectMask_component (1, 1) (by decide) ?_ ?_, ?_, by decide, by decide, by decide, by decide,
    by decide, by decide⟩
  · intro q hq
    rcases hmem q hq with rfl | rfl | rfl
    · exact .refl
    · exact h₁
    · exact h₁.trans h₂
  · intro q hq
    rcases hmem q hq with rfl | rfl | rfl
    · exact .refl
    · exact h₄
    · exact h₃.trans h₄
  · intro y a x b ha hb h₁ h₂
    have ha' := hmem _ ha
    have hb' := hmem _ hb
    simp only [Prod.mk.injEq] at ha' hb'
    unfold stair
    simp only [Finset.mem_insert, Finset.mem_singleton, Prod.mk.injEq]
    omega

theorem findCentroid_consumes_iff_stair :
    Consumes stairGrey (objectMask 4 6 stair) stair (1, 1) ↔ ObjectFits stairGrey stair (1, 1) :=
  findCentroid_consumes_iff stairGrey (objectMask 4 6 stair) rfl rfl stair (1, 1) stair_lensObject

/-- 2^32 pixels. -/
def hugeGrey : Image8 where
  rows := 65536
  cols := 65536
  value _ _ := 1

/-- A lens of one pixel, whose position is not an `int`. -/
theorem hugeGrey_not_consumed :
    LensObject hugeGrey (objectMask 65536 65536 {(0, 40000)}) {(0, 40000)} (0, 40000) ∧
      ¬ Consumes hugeGrey (objectMask 65536 65536 {(0, 40000)}) {(0, 40000)} (0, 40000) := by
  constructor
  · have hmem : ∀ q ∈ ({(0, 40000)} : Finset (ℕ × ℕ)), q = (0, 40000) := fun q hq => Finset.mem_singleton.mp hq
    refine ⟨objectMask_component (0, 40000) ?_ ?_ ?_, ?_, ?_, ?_, ?_, ?_, ?_, ?_⟩
    · intro q hq
      rw [hmem q hq]
      decide
    · intro q hq
      rw [hmem q hq]
    · intro q hq
      rw [hmem q hq]
    · intro y a x b ha hb h₁ h₂
      have ha' := hmem _ ha
      have hb' := hmem _ hb
      simp only [Prod.mk.injEq] at ha' hb'
      rw [Finset.mem_singleton, Prod.mk.injEq]
      omega
    · exact Finset.mem_singleton_self _
    · intro q hq
      rw [hmem q hq]
      decide
    · show (0 : ℕ) ≠ 65536 - 1
      decide
    · intro q hq
      rw [hmem q hq]
      decide
    · intro q hq
      rw [hmem q hq]
      decide
    · rw [Finset.sum_singleton]
      decide
  · rintro ⟨f, hf, -⟩
    have hnone : (findCentroid hugeGrey (objectMask 65536 65536 {(0, 40000)}) (0, 40000)).isSome = false := by
      decide +kernel
    rw [hf] at hnone
    cases hnone

end Objects

end Lyli.Calibration.LensDetector
