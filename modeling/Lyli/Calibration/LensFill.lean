import Mathlib
import Lyli.Calibration.LensAccounting

/-!
# The runs a fill takes

A fill takes one run of objects a row, the leftmost that meets the run above
(`Runs`), whether it gets there from the start of that run or by the search:

    fillLeft … = some r   ↔  every int fits  ∧  r is the fill of the run to the left     (fillLeft_iff)
    fillRight … = some r  ↔  every int fits  ∧  r is the fill of the run to the right    (fillRight_iff)
    findCentroid … = some (c, f)  ↔  every int fits  ∧  f is the fill of the runs        (findCentroid_runs_iff)

The fill of a list of pixels is `addAll`: their moments are sums, and they are
marked in the mask.
-/

namespace Lyli.Calibration.LensDetector

/-! ## Adding pixels -/

/-- The fill after the pixel `q`. -/
def add (image : Image8) (f : Fill) (q : ℕ × ℕ) : Fill where
  m10 := f.m10 + q.2 * (image.value q.1 q.2).toNat
  m01 := f.m01 + q.1 * (image.value q.1 q.2).toNat
  sum := f.sum + (image.value q.1 q.2).toNat
  mask := f.mask.set q.1 q.2 Mask.processed
  pixels := f.pixels ++ [q]

/-- The fill after the pixels `ps`. -/
def addAll (image : Image8) (f : Fill) (ps : List (ℕ × ℕ)) : Fill := ps.foldl (add image) f

/-- The products of a pixel, and the position after it, are `int`s. -/
structure PixelFits (image : Image8) (q : ℕ × ℕ) : Prop where
  next : image.cols * q.2 + q.1 + 1 < intEnd
  m10 : q.2 * (image.value q.1 q.2).toNat < intEnd
  m01 : q.1 * (image.value q.1 q.2).toNat < intEnd

section Add

variable {image mask : Image8} {f f' : Fill} {ps : List (ℕ × ℕ)}

theorem addAll_cons (q : ℕ × ℕ) : addAll image f (q :: ps) = addAll image (add image f q) ps := rfl

theorem addAll_append (qs : List (ℕ × ℕ)) : addAll image f (ps ++ qs) = addAll image (addAll image f ps) qs :=
  List.foldl_append

theorem addAll_dims : (addAll image f ps).mask.rows = f.mask.rows ∧ (addAll image f ps).mask.cols = f.mask.cols := by
  induction ps generalizing f with
  | nil => exact ⟨rfl, rfl⟩
  | cons q ps ih =>
    rw [addAll_cons, ih.1, ih.2]
    exact ⟨rfl, rfl⟩

/-- The pixels added are marked, the others are as before. -/
theorem addAll_value (x y : ℕ) :
    (addAll image f ps).mask.value x y = if (x, y) ∈ ps then Mask.processed else f.mask.value x y := by
  induction ps generalizing f with
  | nil => simp [addAll]
  | cons q ps ih =>
    rw [addAll_cons, ih]
    by_cases hmem : (x, y) ∈ ps
    · rw [if_pos hmem, if_pos (List.mem_cons_of_mem q hmem)]
    · rw [if_neg hmem]
      show (if x = q.1 ∧ y = q.2 then Mask.processed else f.mask.value x y) = _
      by_cases hq : x = q.1 ∧ y = q.2
      · rw [if_pos hq, if_pos (by simp [hq.1, hq.2])]
      · have hne : (x, y) ≠ q := fun h => hq ⟨congrArg Prod.fst h, congrArg Prod.snd h⟩
        rw [if_neg hq, if_neg (by simp [hne, hmem])]

/-- **The moments** are sums over the pixels added. -/
theorem addAll_moments (image : Image8) (f : Fill) (ps : List (ℕ × ℕ)) :
    (addAll image f ps).m10 = f.m10 + (ps.map fun q => q.2 * (image.value q.1 q.2).toNat).sum ∧
    (addAll image f ps).m01 = f.m01 + (ps.map fun q => q.1 * (image.value q.1 q.2).toNat).sum ∧
    (addAll image f ps).sum = f.sum + (ps.map fun q => (image.value q.1 q.2).toNat).sum := by
  induction ps generalizing f with
  | nil => exact ⟨rfl, rfl, rfl⟩
  | cons q ps ih =>
    obtain ⟨h10, h01, hsum⟩ := ih (add image f q)
    rw [addAll_cons, h10, h01, hsum]
    simp only [List.map_cons, List.sum_cons, add]
    omega

theorem addAll_pixels : (addAll image f ps).pixels = f.pixels ++ ps := by
  induction ps generalizing f with
  | nil => exact (List.append_nil _).symm
  | cons q ps ih =>
    rw [addAll_cons, ih]
    show f.pixels ++ [q] ++ ps = _
    simp

/-- The grey-weighted mean of some pixels. -/
def centroidOf (image : Image8) (C : Finset (ℕ × ℕ)) : Point2f where
  x := (∑ q ∈ C, (q.1 : ℚ) * (image.value q.1 q.2).toNat) / ∑ q ∈ C, ((image.value q.1 q.2).toNat : ℚ)
  y := (∑ q ∈ C, (q.2 : ℚ) * (image.value q.1 q.2).toNat) / ∑ q ∈ C, ((image.value q.1 q.2).toNat : ℚ)

/-- The mean as the code computes it: the quotients are `double`s, and a `Point2f` is returned. -/
def roundedCentroid [Rounding] (image : Image8) (C : Finset (ℕ × ℕ)) : Point2f :=
  toPoint2f (Rounding.double (centroidOf image C).x) (Rounding.double (centroidOf image C).y)

/-- **The centroid** of a fill is the mean of its pixels. -/
theorem addAll_centroid {R : Rounding} (image mask : Image8) (hnd : ps.Nodup) :
    toPoint2f (Rounding.double ((addAll image { mask } ps).m01 / (addAll image { mask } ps).sum))
      (Rounding.double ((addAll image { mask } ps).m10 / (addAll image { mask } ps).sum)) =
        roundedCentroid image ps.toFinset ∧
    (addAll image { mask } ps).sum = ∑ q ∈ ps.toFinset, (image.value q.1 q.2).toNat := by
  obtain ⟨h10, h01, hsum⟩ := addAll_moments image { mask } ps
  simp only [Nat.zero_add] at h10 h01 hsum
  rw [← List.sum_toFinset _ hnd] at h10 h01 hsum
  refine ⟨?_, hsum⟩
  rw [h10, h01, hsum]
  unfold roundedCentroid centroidOf
  push_cast
  rfl

/-- **One pixel**, for a pixel inside the image. -/
theorem accumulate_iff {x y : ℕ} (hx : x < image.cols) (hy : y < image.rows) :
    accumulate image x y f = some f' ↔
      (image.cols * y + x < intEnd ∧ y * (image.value x y).toNat < intEnd ∧ x * (image.value x y).toNat < intEnd) ∧
      f' = add image f (x, y) := by
  unfold accumulate
  by_cases hpos : image.cols * y + x < intEnd
  · rw [Image8.loadInt_eq hpos hx hy]
    show (if _ then some (add image f (x, y)) else none) = some f' ↔ _
    by_cases hfit : y * (image.value x y).toNat < intEnd ∧ x * (image.value x y).toNat < intEnd
    · rw [if_pos hfit]
      simp [hpos, hfit, eq_comm]
    · rw [if_neg hfit]
      simp [hpos, hfit]
  · have hnone : image.loadInt x y = none := if_neg hpos
    rw [hnone]
    simp [hpos]

end Add

/-! ## One row -/

/-- The pixels of row `y` in the columns from `a` up to `b`, in order. -/
def rowPixels (y a b : ℕ) : List (ℕ × ℕ) := (List.range' a (b + 1 - a)).map fun x => (x, y)

theorem mem_map_range' {y a n : ℕ} {q : ℕ × ℕ} :
    q ∈ (List.range' a n).map (fun x => (x, y)) ↔ q.2 = y ∧ a ≤ q.1 ∧ q.1 < a + n := by
  obtain ⟨x, y'⟩ := q
  simp only [List.mem_map, List.mem_range'_1, Prod.mk.injEq]
  constructor
  · rintro ⟨x', hx', rfl, rfl⟩
    exact ⟨rfl, hx'⟩
  · rintro ⟨rfl, h⟩
    exact ⟨x, h, rfl, rfl⟩

theorem nodup_map_range' (y a n : ℕ) : ((List.range' a n).map fun x => (x, y)).Nodup := by
  apply List.Nodup.map
  · intro x x' h
    exact (Prod.mk.inj h).1
  · exact List.nodup_range'

theorem mem_rowPixels {y a b : ℕ} {q : ℕ × ℕ} : q ∈ rowPixels y a b ↔ q.2 = y ∧ a ≤ q.1 ∧ q.1 ≤ b := by
  unfold rowPixels
  rw [mem_map_range']
  omega

theorem rowPixels_nodup (y a b : ℕ) : (rowPixels y a b).Nodup := nodup_map_range' y a _

theorem rowPixels_empty (y b : ℕ) : rowPixels y (b + 1) b = [] := by
  unfold rowPixels
  rw [Nat.sub_self]
  rfl

theorem rowPixels_succ {y a b : ℕ} (h : a ≤ b) : rowPixels y a b = (a, y) :: rowPixels y (a + 1) b := by
  unfold rowPixels
  have hlen : b + 1 - a = b + 1 - (a + 1) + 1 := by omega
  rw [hlen, List.range'_succ, List.map_cons]

section Row

variable {image : Image8} {f : Fill} {y : ℕ}

theorem load_row (hcols : f.mask.cols = image.cols) (hrows : f.mask.rows = image.rows) {x : ℕ}
    (hpos : image.cols * y + x < intEnd) (hx : x < image.cols) (hy : y < image.rows) :
    f.mask.loadInt x y = some (f.mask.value x y) := by
  refine Image8.loadInt_eq ?_ (hcols ▸ hx) (hrows ▸ hy)
  rw [hcols]
  exact hpos

/-- **One object** of a fill to the right. -/
theorem fillRight_object {n x : ℕ} {r : ℕ × Fill} (hcols : f.mask.cols = image.cols) (hrows : f.mask.rows = image.rows)
    (hx : x < image.cols) (hy : y < image.rows) (hpos : image.cols * y + x < intEnd)
    (hobj : f.mask.value x y = Mask.object) : fillRight image y (n + 1) x f = some r ↔
      PixelFits image (x, y) ∧ fillRight image y n (x + 1) (add image f (x, y)) = some r := by
  rw [fillRight_succ, load_row hcols hrows hpos hx hy, hobj]
  constructor
  · rintro (⟨-, hnext, f₁, h₁, h⟩ | ⟨⟨v, hv, hne⟩, -⟩)
    · obtain ⟨⟨-, hm10, hm01⟩, rfl⟩ := (accumulate_iff hx hy).mp h₁
      exact ⟨⟨hnext, hm10, hm01⟩, h⟩
    · exact absurd (Option.some.inj hv).symm hne
  · rintro ⟨hfit, h⟩
    exact Or.inl ⟨rfl, hfit.next, _, (accumulate_iff hx hy).mpr ⟨⟨hpos, hfit.m10, hfit.m01⟩, rfl⟩, h⟩

/-- A fill to the right stops at another value. -/
theorem fillRight_stop {n x : ℕ} {r : ℕ × Fill} (hcols : f.mask.cols = image.cols) (hrows : f.mask.rows = image.rows)
    (hx : x < image.cols) (hy : y < image.rows) (hpos : image.cols * y + x < intEnd)
    (hne : f.mask.value x y ≠ Mask.object) : fillRight image y (n + 1) x f = some r ↔ r = (x, f) := by
  rw [fillRight_succ, load_row hcols hrows hpos hx hy]
  constructor
  · rintro (⟨hv, -⟩ | ⟨-, h⟩)
    · exact absurd (Option.some.inj hv) hne
    · exact h
  · intro h
    exact Or.inr ⟨⟨_, rfl, hne⟩, h⟩

/-- **A fill to the right** from `x` over objects up to `b`, where it meets another value or its limit. -/
theorem fillRight_iff {n x b : ℕ} {r : ℕ × Fill} (hcols : f.mask.cols = image.cols) (hrows : f.mask.rows = image.rows)
    (hy : y < image.rows) (hlimit : x + n ≤ image.cols) (hx : x ≤ b + 1) (hb : b < x + n)
    (hobj : ∀ x', x ≤ x' → x' ≤ b → f.mask.value x' y = Mask.object)
    (hstop : b + 1 < x + n → f.mask.value (b + 1) y ≠ Mask.object) (hpos : image.cols * y + x < intEnd) :
    fillRight image y n x f = some r ↔
      (∀ x', x ≤ x' → x' ≤ b → PixelFits image (x', y)) ∧ r = (b + 1, addAll image f (rowPixels y x b)) := by
  induction n generalizing x f with
  | zero =>
    obtain rfl : x = b + 1 := by omega
    rw [rowPixels_empty]
    show some (b + 1, f) = some r ↔ _ ∧ r = (b + 1, f)
    rw [Option.some.injEq, eq_comm, iff_and_self]
    intro _ x' h₁ h₂
    omega
  | succ n ih =>
    by_cases hend : x = b + 1
    · subst hend
      rw [fillRight_stop hcols hrows (by omega) hy hpos (hstop (by omega)), rowPixels_empty]
      show r = (b + 1, f) ↔ _ ∧ r = (b + 1, f)
      rw [iff_and_self]
      intro _ x' h₁ h₂
      omega
    · rw [fillRight_object hcols hrows (by omega) hy hpos (hobj x le_rfl (by omega)), rowPixels_succ (by omega),
        addAll_cons]
      -- what the rest of the row does after this pixel
      have hrest : image.cols * y + x + 1 < intEnd → (fillRight image y n (x + 1) (add image f (x, y)) = some r ↔
          (∀ x', x + 1 ≤ x' → x' ≤ b → PixelFits image (x', y)) ∧
            r = (b + 1, addAll image (add image f (x, y)) (rowPixels y (x + 1) b))) := by
        intro hnext
        have hkeep : ∀ x', x < x' → (add image f (x, y)).mask.value x' y = f.mask.value x' y := by
          intro x' hx'
          show (if x' = x ∧ y = y then Mask.processed else f.mask.value x' y) = _
          rw [if_neg (by omega)]
        apply ih
        · exact hcols
        · exact hrows
        · omega
        · omega
        · omega
        · intro x' h₁ h₂
          rw [hkeep x' (by omega)]
          exact hobj x' (by omega) h₂
        · intro h
          rw [hkeep (b + 1) (by omega)]
          exact hstop (by omega)
        · omega
      constructor
      · rintro ⟨hfit, h⟩
        obtain ⟨hfits, hr⟩ := (hrest hfit.next).mp h
        refine ⟨fun x' h₁ h₂ => ?_, hr⟩
        by_cases heq : x' = x
        · rw [heq]
          exact hfit
        · exact hfits x' (by omega) h₂
      · rintro ⟨hfits, hr⟩
        have hfit := hfits x le_rfl (by omega)
        exact ⟨hfit, (hrest hfit.next).mpr ⟨fun x' h₁ h₂ => hfits x' (by omega) h₂, hr⟩⟩

theorem fillLeft_succ {n s : ℕ} : fillLeft image y (n + 1) s f = (f.mask.loadInt (s - 1) y).bind fun v =>
    if v = Mask.object then (accumulate image (s - 1) y f).bind fun f => fillLeft image y n (s - 1) f
    else some (s, f) := rfl

/-- **One object** of a fill to the left. -/
theorem fillLeft_object {n s : ℕ} {r : ℕ × Fill} (hcols : f.mask.cols = image.cols) (hrows : f.mask.rows = image.rows)
    (hs : 0 < s) (hs' : s ≤ image.cols) (hy : y < image.rows) (hpos : image.cols * y + s < intEnd)
    (hobj : f.mask.value (s - 1) y = Mask.object) : fillLeft image y (n + 1) s f = some r ↔
      PixelFits image (s - 1, y) ∧ fillLeft image y n (s - 1) (add image f (s - 1, y)) = some r := by
  rw [fillLeft_succ, load_row hcols hrows (by omega) (by omega) hy]
  show (if f.mask.value (s - 1) y = Mask.object then _ else _) = some r ↔ _
  rw [if_pos hobj, Option.bind_eq_some_iff]
  constructor
  · rintro ⟨f₁, h₁, h⟩
    obtain ⟨⟨-, hm10, hm01⟩, rfl⟩ := (accumulate_iff (by omega) hy).mp h₁
    have hnext : image.cols * y + (s - 1) + 1 < intEnd := by omega
    exact ⟨⟨hnext, hm10, hm01⟩, h⟩
  · rintro ⟨hfit, h⟩
    exact ⟨_, (accumulate_iff (by omega) hy).mpr ⟨⟨by omega, hfit.m10, hfit.m01⟩, rfl⟩, h⟩

/-- A fill to the left stops at another value. -/
theorem fillLeft_stop {n s : ℕ} {r : ℕ × Fill} (hcols : f.mask.cols = image.cols) (hrows : f.mask.rows = image.rows)
    (hs : 0 < s) (hs' : s ≤ image.cols) (hy : y < image.rows) (hpos : image.cols * y + s < intEnd)
    (hne : f.mask.value (s - 1) y ≠ Mask.object) : fillLeft image y (n + 1) s f = some r ↔ r = (s, f) := by
  rw [fillLeft_succ, load_row hcols hrows (by omega) (by omega) hy]
  show (if f.mask.value (s - 1) y = Mask.object then _ else some (s, f)) = some r ↔ _
  rw [if_neg hne, Option.some.injEq, eq_comm]

/-- **A fill to the left** of `s` over objects down to `a`, where it meets another value or its limit. -/
theorem fillLeft_iff {n s a : ℕ} {r : ℕ × Fill} (hcols : f.mask.cols = image.cols) (hrows : f.mask.rows = image.rows)
    (hy : y < image.rows) (hs : s ≤ image.cols) (ha : a ≤ s) (hn : n ≤ s) (hlimit : s ≤ a + n)
    (hobj : ∀ x', a ≤ x' → x' < s → f.mask.value x' y = Mask.object)
    (hstop : s < a + n → f.mask.value (a - 1) y ≠ Mask.object) (hpos : image.cols * y + s < intEnd) :
    fillLeft image y n s f = some r ↔
      (∀ x', a ≤ x' → x' < s → PixelFits image (x', y)) ∧
        r = (a, addAll image f (((List.range' a (s - a)).map fun x => (x, y)).reverse)) := by
  induction n generalizing s f with
  | zero =>
    obtain rfl : s = a := by omega
    rw [Nat.sub_self]
    show some (s, f) = some r ↔ _ ∧ r = (s, f)
    rw [Option.some.injEq, eq_comm, iff_and_self]
    intro _ x' h₁ h₂
    omega
  | succ n ih =>
    by_cases hend : s = a
    · subst hend
      rw [fillLeft_stop hcols hrows (by omega) hs hy hpos (hstop (by omega)), Nat.sub_self]
      show r = (s, f) ↔ _ ∧ r = (s, f)
      rw [iff_and_self]
      intro _ x' h₁ h₂
      omega
    · have hlist : ((List.range' a (s - a)).map fun x => (x, y)).reverse =
          (s - 1, y) :: ((List.range' a (s - 1 - a)).map fun x => (x, y)).reverse := by
        have hlen : s - a = s - 1 - a + 1 := by omega
        rw [hlen, List.range'_concat, List.map_append, List.reverse_append]
        have hlast : a + 1 * (s - 1 - a) = s - 1 := by omega
        rw [hlast]
        rfl
      rw [fillLeft_object hcols hrows (by omega) hs hy hpos (hobj (s - 1) (by omega) (by omega)), hlist, addAll_cons]
      have hrest : fillLeft image y n (s - 1) (add image f (s - 1, y)) = some r ↔
          (∀ x', a ≤ x' → x' < s - 1 → PixelFits image (x', y)) ∧ r = (a, addAll image (add image f (s - 1, y))
            (((List.range' a (s - 1 - a)).map fun x => (x, y)).reverse)) := by
        have hkeep : ∀ x', x' < s - 1 → (add image f (s - 1, y)).mask.value x' y = f.mask.value x' y := by
          intro x' hx'
          show (if x' = s - 1 ∧ y = y then Mask.processed else f.mask.value x' y) = _
          rw [if_neg (by omega)]
        apply ih
        · exact hcols
        · exact hrows
        · omega
        · omega
        · omega
        · omega
        · intro x' h₁ h₂
          rw [hkeep x' h₂]
          exact hobj x' h₁ (by omega)
        · intro h
          rw [hkeep (a - 1) (by omega)]
          exact hstop (by omega)
        · omega
      rw [hrest]
      constructor
      · rintro ⟨hfit, hfits, hr⟩
        refine ⟨fun x' h₁ h₂ => ?_, hr⟩
        by_cases heq : x' = s - 1
        · rw [heq]
          exact hfit
        · exact hfits x' h₁ (by omega)
      · rintro ⟨hfits, hr⟩
        exact ⟨hfits (s - 1) (by omega) (by omega), fun x' h₁ h₂ => hfits x' h₁ (by omega), hr⟩

/-- **The search** for the first object from `s` on. -/
theorem findStart_some {m : Image8} {n s a : ℕ} (hpos : m.cols * y + a < intEnd) (ha : a < m.cols) (hy : y < m.rows)
    (hs : s ≤ a) (hn : a ≤ s + n) (hnot : ∀ x, s ≤ x → x < a → m.value x y ≠ Mask.object)
    (hobj : m.value a y = Mask.object) : findStart m y n s = some (some a) := by
  induction n generalizing s with
  | zero =>
    obtain rfl : s = a := by omega
    unfold findStart
    rw [Image8.loadInt_eq hpos ha hy]
    exact if_pos hobj
  | succ n ih =>
    unfold findStart
    rw [Image8.loadInt_eq (by omega) (by omega) hy]
    by_cases hend : s = a
    · subst hend
      exact if_pos hobj
    · show (if m.value s y = Mask.object then _ else findStart m y n (s + 1)) = _
      rw [if_neg (hnot s le_rfl (by omega))]
      exact ih (by omega) (by omega) fun x h₁ h₂ => hnot x (by omega) h₂

/-- **No object** up to the end of the search. -/
theorem findStart_none {m : Image8} {n s : ℕ} (hpos : m.cols * y + (s + n) < intEnd) (hx : s + n < m.cols)
    (hy : y < m.rows) (hnot : ∀ x, s ≤ x → x ≤ s + n → m.value x y ≠ Mask.object) :
    findStart m y n s = some none := by
  induction n generalizing s with
  | zero =>
    unfold findStart
    rw [Image8.loadInt_eq (by omega) (by omega) hy]
    exact if_neg (hnot s le_rfl (by omega))
  | succ n ih =>
    unfold findStart
    rw [Image8.loadInt_eq (by omega) (by omega) hy]
    show (if m.value s y = Mask.object then _ else findStart m y n (s + 1)) = _
    rw [if_neg (hnot s le_rfl (by omega))]
    exact ih (by omega) (by omega) fun x h₁ h₂ => hnot x (by omega) (by omega)

/-- Row `y` of a mask holds the objects of the columns from `a` up to `b`, which nothing next to them extends. -/
structure Interval (m : Image8) (minx maxx y a b : ℕ) : Prop where
  le : a ≤ b
  lower : minx ≤ a
  upper : b < maxx
  object : ∀ x, a ≤ x → x ≤ b → m.value x y = Mask.object
  left : minx < a → m.value (a - 1) y ≠ Mask.object
  right : b + 1 < maxx → m.value (b + 1) y ≠ Mask.object

theorem Interval.congr {m m' : Image8} {minx maxx a b : ℕ} (h : Interval m minx maxx y a b)
    (hsame : ∀ x, m'.value x y = m.value x y) : Interval m' minx maxx y a b := by
  refine ⟨h.le, h.lower, h.upper, ?_, ?_, ?_⟩
  · intro x h₁ h₂
    rw [hsame]
    exact h.object x h₁ h₂
  · rw [hsame]
    exact h.left
  · rw [hsame]
    exact h.right

/-- The fill to the right from column `s` of an interval. -/
theorem Interval.right_iff {minx maxx a b s : ℕ} {r : ℕ × Fill} (hI : Interval f.mask minx maxx y a b)
    (hcols : f.mask.cols = image.cols) (hrows : f.mask.rows = image.rows) (hy : y < image.rows)
    (hmax : maxx ≤ image.cols) (hs : a ≤ s) (hs' : s ≤ b) (hpos : image.cols * y + s < intEnd) :
    fillRight image y (maxx - s) s f = some r ↔
      (∀ x, s ≤ x → x ≤ b → PixelFits image (x, y)) ∧ r = (b + 1, addAll image f (rowPixels y s b)) := by
  have hupper := hI.upper
  apply fillRight_iff hcols hrows hy
  · omega
  · omega
  · omega
  · intro x h₁ h₂
    exact hI.object x (by omega) h₂
  · intro h
    exact hI.right (by omega)
  · exact hpos

/-- The fill to the left of column `s` of an interval. -/
theorem Interval.left_iff {minx maxx a b s : ℕ} {r : ℕ × Fill} (hI : Interval f.mask minx maxx y a b)
    (hcols : f.mask.cols = image.cols) (hrows : f.mask.rows = image.rows) (hy : y < image.rows)
    (hmax : maxx ≤ image.cols) (hs : a ≤ s) (hs' : s ≤ b) (hpos : image.cols * y + s < intEnd) :
    fillLeft image y (s - minx) s f = some r ↔ (∀ x, a ≤ x → x < s → PixelFits image (x, y)) ∧
      r = (a, addAll image f (((List.range' a (s - a)).map fun x => (x, y)).reverse)) := by
  have hlower := hI.lower
  have hupper := hI.upper
  apply fillLeft_iff hcols hrows hy
  · omega
  · omega
  · omega
  · omega
  · intro x h₁ h₂
    exact hI.object x h₁ (by omega)
  · intro h
    exact hI.left (by omega)
  · exact hpos

/-- The start of the row above is inside the interval: both sides are filled. -/
theorem Interval.inside_iff {minx maxx n a₀ b₀ a b : ℕ} (hI : Interval f.mask minx maxx y a b)
    (hcols : f.mask.cols = image.cols) (hrows : f.mask.rows = image.rows) (hy : y < image.rows)
    (hmax : maxx ≤ image.cols) (h₀ : a₀ ≤ b₀) (ha : a ≤ a₀) (hb : a₀ ≤ b) :
    ∃ ps : List (ℕ × ℕ), (∀ q, q ∈ ps ↔ q.2 = y ∧ a ≤ q.1 ∧ q.1 ≤ b) ∧ ps.Nodup ∧
      ∀ f', fillRows image minx maxx (n + 1) y a₀ b₀ f = some f' ↔ image.cols * y + b₀ < intEnd ∧
        (∀ x, a ≤ x → x ≤ b → PixelFits image (x, y)) ∧
        fillRows image minx maxx n (y + 1) a b (addAll image f ps) = some f' := by
  let ls : List (ℕ × ℕ) := ((List.range' a (a₀ - a)).map fun x => (x, y)).reverse
  have hls : ∀ q, q ∈ ls ↔ q.2 = y ∧ a ≤ q.1 ∧ q.1 < a₀ := by
    intro q
    show q ∈ ((List.range' a (a₀ - a)).map fun x => (x, y)).reverse ↔ _
    rw [List.mem_reverse, mem_map_range']
    omega
  have hkeep : ∀ x, a₀ ≤ x → (addAll image f ls).mask.value x y = f.mask.value x y := by
    intro x hx
    rw [addAll_value, if_neg]
    rw [hls]
    omega
  -- the fill to the right meets the rest of the interval
  have hrest : Interval (addAll image f ls).mask a₀ maxx y a₀ b := by
    refine ⟨hb, le_rfl, hI.upper, ?_, ?_, ?_⟩
    · intro x h₁ h₂
      rw [hkeep x h₁]
      exact hI.object x (by omega) h₂
    · intro h
      exact absurd h (lt_irrefl a₀)
    · rw [hkeep (b + 1) (by omega)]
      exact hI.right
  refine ⟨ls ++ rowPixels y a₀ b, ?_, ?_, fun f' => ?_⟩
  · intro q
    rw [List.mem_append, hls, mem_rowPixels]
    omega
  · rw [List.nodup_append]
    refine ⟨List.nodup_reverse.mpr (nodup_map_range' y a _), rowPixels_nodup y a₀ b, ?_⟩
    rintro q hq _ hq' rfl
    rw [hls] at hq
    rw [mem_rowPixels] at hq'
    omega
  · have hupper := hI.upper
    have hobj : f.mask.value a₀ y = Mask.object := hI.object a₀ ha hb
    rw [fillRows_succ, addAll_append]
    apply and_congr_right
    intro hpos
    have hleft := fun r => hI.left_iff (r := r) hcols hrows hy hmax ha hb (by omega)
    have hright := fun r => hrest.right_iff (r := r) (addAll_dims.2.trans hcols) (addAll_dims.1.trans hrows) hy hmax
      le_rfl hb (by omega)
    have hload := load_row hcols hrows (y := y) (x := a₀) (by omega) (by omega) hy
    rw [hload, hobj]
    constructor
    · rintro (⟨-, left, f₁, x, f₂, h₁, h₂, h⟩ | ⟨⟨v, hv, hne⟩, -⟩)
      · obtain ⟨hfl, hr₁⟩ := (hleft _).mp h₁
        obtain ⟨rfl, rfl⟩ := Prod.mk.inj hr₁
        obtain ⟨hfr, hr₂⟩ := (hright _).mp h₂
        obtain ⟨rfl, rfl⟩ := Prod.mk.inj hr₂
        refine ⟨fun x' h₁ h₂ => ?_, h⟩
        rcases Nat.lt_or_ge x' a₀ with hlt | hge
        · exact hfl x' h₁ hlt
        · exact hfr x' hge h₂
      · exact absurd (Option.some.inj hv).symm hne
    · rintro ⟨hfits, h⟩
      refine Or.inl ⟨rfl, a, addAll image f ls, b + 1, _, (hleft _).mpr ⟨?_, rfl⟩, (hright _).mpr ⟨?_, rfl⟩, h⟩
      · intro x' h₁ h₂
        exact hfits x' h₁ (by omega)
      · intro x' h₁ h₂
        exact hfits x' (by omega) h₂

/-- It is left of the interval: the search finds its first pixel, and the fill goes to the right. -/
theorem Interval.search_iff {minx maxx n a₀ b₀ a b : ℕ} (hI : Interval f.mask minx maxx y a b)
    (hcols : f.mask.cols = image.cols) (hrows : f.mask.rows = image.rows) (hy : y < image.rows)
    (hmax : maxx ≤ image.cols) (h₀ : a₀ < a) (hfirst : a ≤ b₀)
    (hnot : ∀ x, a₀ ≤ x → x < a → f.mask.value x y ≠ Mask.object) (f' : Fill) :
    fillRows image minx maxx (n + 1) y a₀ b₀ f = some f' ↔ image.cols * y + b₀ < intEnd ∧
      (∀ x, a ≤ x → x ≤ b → PixelFits image (x, y)) ∧
      fillRows image minx maxx n (y + 1) a b (addAll image f (rowPixels y a b)) = some f' := by
  have hle := hI.le
  have hupper := hI.upper
  rw [fillRows_succ]
  apply and_congr_right
  intro hpos
  have hright := fun r => hI.right_iff (r := r) hcols hrows hy hmax le_rfl hle (by omega)
  have hload := load_row hcols hrows (y := y) (x := a₀) (by omega) (by omega) hy
  have hne : f.mask.value a₀ y ≠ Mask.object := hnot a₀ le_rfl h₀
  have hfound : findStart f.mask y (b₀ - a₀) a₀ = some (some a) := by
    apply findStart_some
    · rw [hcols]
      omega
    · omega
    · omega
    · omega
    · omega
    · exact hnot
    · exact hI.object a le_rfl hle
  rw [hload, hfound]
  constructor
  · rintro (⟨hv, -⟩ | ⟨-, -, ⟨hnone, -⟩ | ⟨s, x, f₂, hs, h₂, h⟩⟩)
    · exact absurd (Option.some.inj hv) hne
    · cases hnone
    · obtain rfl : a = s := Option.some.inj (Option.some.inj hs)
      obtain ⟨hfr, hr₂⟩ := (hright _).mp h₂
      obtain ⟨rfl, rfl⟩ := Prod.mk.inj hr₂
      exact ⟨hfr, h⟩
  · rintro ⟨hfits, h⟩
    exact Or.inr ⟨⟨_, rfl, hne⟩, by omega, Or.inr ⟨a, b + 1, _, rfl, (hright _).mpr ⟨hfits, rfl⟩, h⟩⟩

/-- **One row of a fill**: from the interval of the row above, the one of this row is filled. -/
theorem fillRows_row {minx maxx n a₀ b₀ a b : ℕ} (hcols : f.mask.cols = image.cols) (hrows : f.mask.rows = image.rows)
    (hy : y < image.rows) (hmax : maxx ≤ image.cols) (hI : Interval f.mask minx maxx y a b) (h₀ : a₀ ≤ b₀)
    (hlast : a₀ ≤ b) (hfirst : a ≤ b₀) (hnot : ∀ x, a₀ ≤ x → x < a → f.mask.value x y ≠ Mask.object) :
    ∃ ps : List (ℕ × ℕ), (∀ q, q ∈ ps ↔ q.2 = y ∧ a ≤ q.1 ∧ q.1 ≤ b) ∧ ps.Nodup ∧
      ∀ f', fillRows image minx maxx (n + 1) y a₀ b₀ f = some f' ↔ image.cols * y + b₀ < intEnd ∧
        (∀ x, a ≤ x → x ≤ b → PixelFits image (x, y)) ∧
        fillRows image minx maxx n (y + 1) a b (addAll image f ps) = some f' := by
  rcases Nat.lt_or_ge a₀ a with hlt | hge
  · exact ⟨rowPixels y a b, fun q => mem_rowPixels, rowPixels_nodup y a b,
      hI.search_iff hcols hrows hy hmax hlt hfirst hnot⟩
  · exact hI.inside_iff hcols hrows hy hmax h₀ hge hlast

/-- **The last row**: nothing below the interval is an object. -/
theorem fillRows_end (minx maxx : ℕ) {n a₀ b₀ : ℕ} (hcols : f.mask.cols = image.cols) (hrows : f.mask.rows = image.rows)
    (hy : y < image.rows) (h₀ : a₀ ≤ b₀) (hb₀ : b₀ < image.cols)
    (hnot : ∀ x, a₀ ≤ x → x ≤ b₀ → f.mask.value x y ≠ Mask.object) (f' : Fill) :
    fillRows image minx maxx (n + 1) y a₀ b₀ f = some f' ↔ image.cols * y + b₀ < intEnd ∧ f' = f := by
  rw [fillRows_succ]
  apply and_congr_right
  intro hpos
  have hload := load_row hcols hrows (y := y) (x := a₀) (by omega) (by omega) hy
  have hne : f.mask.value a₀ y ≠ Mask.object := hnot a₀ le_rfl h₀
  have hfound : findStart f.mask y (b₀ - a₀) a₀ = some none := by
    apply findStart_none
    · rw [hcols]
      omega
    · omega
    · omega
    · intro x h₁ h₂
      exact hnot x h₁ (by omega)
  rw [hload, hfound]
  constructor
  · rintro (⟨hv, -⟩ | ⟨-, -, ⟨-, h⟩ | ⟨s, x, f₂, hs, -⟩⟩)
    · exact absurd (Option.some.inj hv) hne
    · exact h
    · cases hs
  · intro h
    exact Or.inr ⟨⟨_, rfl, hne⟩, h₀, Or.inl ⟨rfl, h⟩⟩

end Row

/-! ## Runs -/

/-- An object lies in one run, within the limits. -/
theorem exists_interval {m : Image8} (minx maxx : ℕ) {x y : ℕ} (hmin : minx ≤ x) (hmax : x < maxx)
    (hobj : m.value x y = Mask.object) : ∃ a b, a ≤ x ∧ x ≤ b ∧ Interval m minx maxx y a b := by
  classical
  have hstart : ∃ a, minx ≤ a ∧ ∀ x', a ≤ x' → x' ≤ x → m.value x' y = Mask.object := by
    refine ⟨x, hmin, fun x' h₁ h₂ => ?_⟩
    rw [Nat.le_antisymm h₂ h₁]
    exact hobj
  have hend : ∃ k, maxx ≤ x + k + 1 ∨ m.value (x + k + 1) y ≠ Mask.object := ⟨maxx, Or.inl (by omega)⟩
  obtain ⟨ha, hleft⟩ := Nat.find_spec hstart
  have hb := Nat.find_spec hend
  have hax : Nat.find hstart ≤ x := Nat.find_min' hstart ⟨hmin, fun x' h₁ h₂ => by
    rw [Nat.le_antisymm h₂ h₁]
    exact hobj⟩
  -- before the end the columns are within the limit, and objects
  have hbefore : ∀ j < Nat.find hend, x + j + 1 < maxx ∧ m.value (x + j + 1) y = Mask.object := by
    intro j hj
    have := Nat.find_min hend hj
    push Not at this
    exact this
  refine ⟨Nat.find hstart, x + Nat.find hend, hax, Nat.le_add_right _ _, by omega, ha, ?_, ?_, ?_, ?_⟩
  · cases hk : Nat.find hend with
    | zero => omega
    | succ k =>
      have := (hbefore k (by omega)).1
      omega
  · intro x' h₁ h₂
    rcases Nat.lt_or_ge x x' with hlt | hge
    · have hx' := (hbefore (x' - x - 1) (by omega)).2
      have heq : x + (x' - x - 1) + 1 = x' := by omega
      rwa [heq] at hx'
    · exact hleft x' h₁ hge
  · intro hlt hprev
    -- a longer run to the left would be found first
    apply Nat.find_min hstart (m := Nat.find hstart - 1) (by omega)
    refine ⟨by omega, fun x' h₁ h₂ => ?_⟩
    by_cases heq : x' = Nat.find hstart - 1
    · rw [heq]
      exact hprev
    · exact hleft x' (by omega) h₂
  · intro hlt
    rcases hb with h | h
    · omega
    · exact h

/-- The runs of objects from row `y` down to `maxy`: each is the leftmost that meets the run above,
from `a₀` to `b₀` in the beginning. -/
inductive Runs (m : Image8) (minx maxx maxy : ℕ) : ℕ → ℕ → ℕ → List (ℕ × ℕ) → Prop
  | limit {a₀ b₀ : ℕ} : Runs m minx maxx maxy maxy a₀ b₀ []
  | stop {y a₀ b₀ : ℕ} : y < maxy → (∀ x, a₀ ≤ x → x ≤ b₀ → m.value x y ≠ Mask.object) →
      Runs m minx maxx maxy y a₀ b₀ []
  | row {y a₀ b₀ a b : ℕ} {ps : List (ℕ × ℕ)} : y < maxy → Interval m minx maxx y a b → a₀ ≤ b → a ≤ b₀ →
      (∀ x, a₀ ≤ x → x < a → m.value x y ≠ Mask.object) → Runs m minx maxx maxy (y + 1) a b ps →
      Runs m minx maxx maxy y a₀ b₀ (rowPixels y a b ++ ps)

/-- The pixels of the lens that starts at `start`. -/
def Lens (image m : Image8) (start : ℕ × ℕ) (ps : List (ℕ × ℕ)) : Prop :=
  Runs m (start.1 - maxLensSize) (min (start.1 + maxLensSize) image.cols) (min (start.2 + maxLensSize) image.rows)
    start.2 start.1 (start.1 + 1) ps

section Runs

variable {m : Image8} {minx maxx maxy : ℕ}

/-- The first object at or after `a₀` begins in at most one run. -/
theorem Interval.unique {y a₀ a b a' b' : ℕ} (h : Interval m minx maxx y a b) (h' : Interval m minx maxx y a' b')
    (h₀ : a₀ ≤ b) (h₀' : a₀ ≤ b')
    (hnot : ∀ x, a₀ ≤ x → x < a → m.value x y ≠ Mask.object)
    (hnot' : ∀ x, a₀ ≤ x → x < a' → m.value x y ≠ Mask.object) : a = a' ∧ b = b' := by
  have hle := h.le
  have hle' := h'.le
  -- both runs hold the first object from `a₀` on
  have hmeet : max a a₀ = max a' a₀ := by
    rcases lt_trichotomy (max a a₀) (max a' a₀) with hlt | heq | hgt
    · exact absurd (h.object (max a a₀) (le_max_left _ _) (by omega)) (hnot' _ (le_max_right _ _) (by omega))
    · exact heq
    · exact absurd (h'.object (max a' a₀) (le_max_left _ _) (by omega)) (hnot _ (le_max_right _ _) (by omega))
  constructor
  · rcases Nat.lt_trichotomy a a' with hlt | heq | hgt
    · have := h'.left (lt_of_le_of_lt h.lower hlt)
      exact absurd (h.object (a' - 1) (by omega) (by omega)) this
    · exact heq
    · have := h.left (lt_of_le_of_lt h'.lower hgt)
      exact absurd (h'.object (a - 1) (by omega) (by omega)) this
  · rcases Nat.lt_trichotomy b b' with hlt | heq | hgt
    · have := h.right (lt_of_le_of_lt hlt h'.upper)
      exact absurd (h'.object (b + 1) (by omega) hlt) this
    · exact heq
    · have := h'.right (lt_of_le_of_lt hgt h.upper)
      exact absurd (h.object (b' + 1) (by omega) hgt) this

/-- A run that meets the columns from `a₀` to `b₀` has an object there. -/
theorem Interval.meets {y a₀ b₀ a b : ℕ} (h : Interval m minx maxx y a b) (h₀ : a₀ ≤ b₀) (ha : a₀ ≤ b) (hb : a ≤ b₀) :
    ∃ x, a₀ ≤ x ∧ x ≤ b₀ ∧ m.value x y = Mask.object := by
  have hle := h.le
  exact ⟨max a a₀, le_max_right _ _, by omega, h.object _ (le_max_left _ _) (by omega)⟩

/-- **The runs are determined** by the mask. -/
theorem Runs.unique {y a₀ b₀ : ℕ} {ps ps' : List (ℕ × ℕ)} (h₀ : a₀ ≤ b₀)
    (h : Runs m minx maxx maxy y a₀ b₀ ps) (h' : Runs m minx maxx maxy y a₀ b₀ ps') : ps = ps' := by
  induction h generalizing ps' with
  | limit =>
    cases h' with
    | limit => rfl
    | stop => rfl
    | row hy => exact absurd hy (lt_irrefl _)
  | stop hy hnot =>
    cases h' with
    | limit => rfl
    | stop => rfl
    | row _ hI ha hb =>
      obtain ⟨x, h₁, h₂, hobj⟩ := hI.meets h₀ ha hb
      exact absurd hobj (hnot x h₁ h₂)
  | row hy hI ha hb hnot _ ih =>
    cases h' with
    | limit => exact absurd hy (lt_irrefl _)
    | stop _ hnone =>
      obtain ⟨x, h₁, h₂, hobj⟩ := hI.meets h₀ ha hb
      exact absurd hobj (hnone x h₁ h₂)
    | row _ hI' ha' hb' hnot' hrest =>
      obtain ⟨rfl, rfl⟩ := hI.unique hI' ha ha' hnot hnot'
      rw [ih hI.le hrest]

/-- A run lies in its row, within the limits. -/
theorem Runs.bounds {y a₀ b₀ : ℕ} {ps : List (ℕ × ℕ)} (h : Runs m minx maxx maxy y a₀ b₀ ps) :
    ∀ q ∈ ps, y ≤ q.2 ∧ q.2 < maxy ∧ minx ≤ q.1 ∧ q.1 < maxx ∧ m.value q.1 q.2 = Mask.object := by
  induction h with
  | limit => simp
  | stop => simp
  | row hy hI _ _ _ _ ih =>
    rintro ⟨qx, qy⟩ hq
    have hlower := hI.lower
    have hupper := hI.upper
    rcases List.mem_append.mp hq with hq | hq
    · obtain ⟨rfl, h₁, h₂⟩ := mem_rowPixels.mp hq
      exact ⟨le_rfl, hy, by show minx ≤ qx; omega, by show qx < maxx; omega, hI.object qx h₁ h₂⟩
    · obtain ⟨h₁, hrest⟩ := ih _ hq
      exact ⟨by omega, hrest⟩

theorem Runs.nodup {y a₀ b₀ : ℕ} {ps : List (ℕ × ℕ)} (h : Runs m minx maxx maxy y a₀ b₀ ps) : ps.Nodup := by
  induction h with
  | limit => exact List.nodup_nil
  | stop => exact List.nodup_nil
  | row _ _ _ _ _ hrest ih =>
    rw [List.nodup_append]
    refine ⟨rowPixels_nodup _ _ _, ih, ?_⟩
    rintro q hq _ hq' rfl
    have h₁ := (mem_rowPixels.mp hq).1
    have h₂ := (hrest.bounds q hq').1
    omega

end Runs

section Fill

variable {image mask : Image8}

/-- The `int`s of the rows of runs from row `y` on: where the search of each row ends, and those of the pixels. -/
structure RunsFit (image : Image8) (maxy y b₀ : ℕ) (ps : List (ℕ × ℕ)) : Prop where
  here : y < maxy → image.cols * y + b₀ < intEnd
  pixel : ∀ q ∈ ps, PixelFits image q
  endpos : ∀ q ∈ ps, q.2 + 1 < maxy → image.cols * (q.2 + 1) + q.1 < intEnd

/-- The `int`s of a row, and those of the rows below it. -/
theorem runsFit_append {maxy y a b b₀ : ℕ} {ps : List (ℕ × ℕ)} (hy : y < maxy) (hab : a ≤ b) :
    RunsFit image maxy y b₀ (rowPixels y a b ++ ps) ↔ image.cols * y + b₀ < intEnd ∧
      (∀ x, a ≤ x → x ≤ b → PixelFits image (x, y)) ∧ RunsFit image maxy (y + 1) b ps := by
  constructor
  · intro h
    refine ⟨h.here hy, fun x h₁ h₂ => h.pixel _ ?_, ⟨fun hlt => ?_, fun q hq => ?_, fun q hq => ?_⟩⟩
    · exact List.mem_append_left _ (mem_rowPixels.mpr ⟨rfl, h₁, h₂⟩)
    · exact h.endpos (b, y) (List.mem_append_left _ (mem_rowPixels.mpr ⟨rfl, hab, le_rfl⟩)) hlt
    · exact h.pixel q (List.mem_append_right _ hq)
    · exact h.endpos q (List.mem_append_right _ hq)
  · rintro ⟨hhere, hpixel, hrest⟩
    refine ⟨fun _ => hhere, ?_, ?_⟩
    · rintro ⟨qx, qy⟩ hq
      rcases List.mem_append.mp hq with hq | hq
      · obtain ⟨rfl, h₁, h₂⟩ := mem_rowPixels.mp hq
        exact hpixel qx h₁ h₂
      · exact hrest.pixel _ hq
    · rintro ⟨qx, qy⟩ hq hlt
      rcases List.mem_append.mp hq with hq | hq
      · obtain ⟨hqy, h₁, h₂⟩ := mem_rowPixels.mp hq
        obtain rfl : qy = y := hqy
        change qx ≤ b at h₂
        have := hrest.here hlt
        show image.cols * (qy + 1) + qx < intEnd
        omega
      · exact hrest.endpos _ hq hlt

/-- **The rows of a fill are runs**, and it is defined iff their `int`s fit. -/
theorem fillRows_runs_iff {m : Image8} {minx maxx maxy n y a₀ b₀ : ℕ} {f : Fill} (hcols : f.mask.cols = image.cols)
    (hrows : f.mask.rows = image.rows) (hmaxx : maxx ≤ image.cols) (hmaxy : maxy ≤ image.rows) (hn : y + n = maxy)
    (h₀ : a₀ ≤ b₀) (hmin : minx ≤ a₀) (hmax : a₀ < maxx)
    (hstart : b₀ < maxx ∨ (0 < n ∧ m.value a₀ y = Mask.object))
    (hkeep : ∀ x y', y ≤ y' → f.mask.value x y' = m.value x y') :
    ∃ ps qs, Runs m minx maxx maxy y a₀ b₀ ps ∧ List.Perm qs ps ∧
      ∀ f', fillRows image minx maxx n y a₀ b₀ f = some f' ↔
        RunsFit image maxy y b₀ ps ∧ f' = addAll image f qs := by
  induction n generalizing y a₀ b₀ f with
  | zero =>
    obtain rfl : y = maxy := by omega
    refine ⟨[], [], .limit, .refl _, fun f' => ?_⟩
    show some f = some f' ↔ _ ∧ f' = f
    rw [Option.some.injEq, eq_comm, iff_and_self]
    intro _
    exact ⟨fun h => absurd h (lt_irrefl y), by simp, by simp⟩
  | succ n ih =>
    have hy : y < maxy := by omega
    have hsame : ∀ x, f.mask.value x y = m.value x y := fun x => hkeep x y le_rfl
    by_cases hnone : ∀ x, a₀ ≤ x → x ≤ b₀ → m.value x y ≠ Mask.object
    · have hb₀ : b₀ < maxx := hstart.resolve_right fun hs => hnone a₀ le_rfl h₀ hs.2
      refine ⟨[], [], .stop hy hnone, .refl _, fun f' => ?_⟩
      rw [fillRows_end minx maxx hcols hrows (n := n) (y := y) (by omega) h₀ (by omega) (by
        intro x h₁ h₂
        rw [hsame]
        exact hnone x h₁ h₂) f']
      show _ ∧ f' = f ↔ _ ∧ f' = f
      apply and_congr_left
      intro _
      exact ⟨fun h => ⟨fun _ => h, by simp, by simp⟩, fun h => h.here hy⟩
    · -- the first object from `a₀` on, and its run
      have hex : ∃ x, a₀ ≤ x ∧ x ≤ b₀ ∧ x < maxx ∧ m.value x y = Mask.object := by
        rcases hstart with hb₀ | ⟨-, hobj⟩
        · push Not at hnone
          obtain ⟨x, h₁, h₂, hobj⟩ := hnone
          exact ⟨x, h₁, h₂, by omega, hobj⟩
        · exact ⟨a₀, le_rfl, h₀, hmax, hobj⟩
      classical
      obtain ⟨h₁, h₂, hlt, hobj⟩ := Nat.find_spec hex
      obtain ⟨a, b, hax, hxb, hI⟩ := exists_interval minx maxx (by omega) hlt hobj
      have hbefore : ∀ x, a₀ ≤ x → x < a → m.value x y ≠ Mask.object := by
        intro x hx hxa hxobj
        exact Nat.find_min hex (m := x) (by omega) ⟨hx, by omega, by omega, hxobj⟩
      obtain ⟨ps₁, hps₁, hnd₁, hstep⟩ := fillRows_row (n := n) hcols hrows (show y < image.rows by omega) hmaxx
        (hI.congr hsame) h₀ (by omega) (by omega) (by
          intro x hx hxa
          rw [hsame]
          exact hbefore x hx hxa)
      have hle := hI.le
      have hupper := hI.upper
      obtain ⟨ps, qs, hruns, hperm, hrest⟩ := ih (y := y + 1) (f := addAll image f ps₁) (addAll_dims.2.trans hcols)
        (addAll_dims.1.trans hrows) (by omega) hle hI.lower (by omega) (Or.inl hupper) (by
          intro x y' hlt
          rw [addAll_value, if_neg]
          · exact hkeep x y' (by omega)
          · rw [hps₁]
            omega)
      refine ⟨rowPixels y a b ++ ps, ps₁ ++ qs, .row hy hI (by omega) (by omega) hbefore hruns, ?_, fun f' => ?_⟩
      · apply List.Perm.append _ hperm
        rw [List.perm_ext_iff_of_nodup hnd₁ (rowPixels_nodup y a b)]
        intro q
        rw [hps₁, mem_rowPixels]
      · rw [hstep, hrest, runsFit_append hy hle, addAll_append, and_assoc, and_assoc]

/-- **A call of `findCentroid`** off the last column adds the lens at its start, if the `int`s of its runs fit. -/
theorem findCentroid_runs_iff {R : Rounding} (hrows : image.rows = mask.rows) (hcols : image.cols = mask.cols)
    {start : ℕ × ℕ}
    (hx : start.1 < mask.cols) (hy : start.2 < mask.rows) (hobj : mask.value start.1 start.2 = Mask.object)
    (hinner : start.1 ≠ image.cols - 1) :
    ∃ ps qs, Lens image mask start ps ∧ List.Perm qs ps ∧
      ∀ centroid f, findCentroid image mask start = some (centroid, f) ↔
        (start.1 + maxLensSize < intEnd ∧ start.2 + maxLensSize < intEnd ∧
          RunsFit image (min (start.2 + maxLensSize) image.rows) start.2 (start.1 + 1) ps) ∧
        f = addAll image { mask } qs ∧
        centroid = if f.sum = 0 then none else
          some (toPoint2f (Rounding.double (f.m01 / f.sum)) (Rounding.double (f.m10 / f.sum))) := by
  have hn : start.2 + (min (start.2 + maxLensSize) image.rows - start.2) = min (start.2 + maxLensSize) image.rows := by
    unfold maxLensSize
    omega
  have hmin : start.1 - maxLensSize ≤ start.1 := Nat.sub_le _ _
  have hmax : start.1 < min (start.1 + maxLensSize) image.cols := by
    unfold maxLensSize
    omega
  have hrow : 0 < min (start.2 + maxLensSize) image.rows - start.2 := by
    unfold maxLensSize
    omega
  obtain ⟨ps, qs, hruns, hperm, hiff⟩ := fillRows_runs_iff (m := mask) (f := { mask }) hcols.symm hrows.symm
    (min_le_right _ _) (min_le_right _ _) hn (Nat.le_succ _) hmin hmax (Or.inr ⟨hrow, hobj⟩) (fun _ _ _ => rfl)
  refine ⟨ps, qs, hruns, hperm, fun centroid f => ?_⟩
  unfold findCentroid
  rw [if_neg hinner]
  by_cases hover : intEnd ≤ start.1 + maxLensSize ∨ intEnd ≤ start.2 + maxLensSize
  · rw [if_pos hover]
    constructor
    · intro h
      cases h
    · rintro ⟨⟨h₁, h₂, -⟩, -⟩
      omega
  · rw [if_neg hover]
    constructor
    · intro h
      obtain ⟨f₀, hf₀, h⟩ := Option.bind_eq_some_iff.mp h
      obtain ⟨rfl, rfl⟩ := Prod.mk.inj (Option.some.inj h)
      obtain ⟨hfit, hf⟩ := (hiff f₀).mp hf₀
      exact ⟨⟨by omega, by omega, hfit⟩, hf, rfl⟩
    · rintro ⟨⟨-, -, hfit⟩, hf, rfl⟩
      exact Option.bind_eq_some_iff.mpr ⟨f, (hiff f).mpr ⟨hfit, hf⟩, rfl⟩

/-- What a call returns is the mean of its lens. -/
theorem findCentroid_lens {R : Rounding} (hrows : image.rows = mask.rows) (hcols : image.cols = mask.cols) {start : ℕ × ℕ}
    {centroid : Option Point2f} {f : Fill} (hx : start.1 < mask.cols) (hy : start.2 < mask.rows)
    (hobj : mask.value start.1 start.2 = Mask.object) (hinner : start.1 ≠ image.cols - 1)
    (h : findCentroid image mask start = some (centroid, f)) :
    ∃ ps, Lens image mask start ps ∧ List.Perm f.pixels ps ∧
      ∀ c, centroid = some c →
        c = roundedCentroid image ps.toFinset ∧ 0 < ∑ q ∈ ps.toFinset, (image.value q.1 q.2).toNat := by
  obtain ⟨ps, qs, hruns, hperm, hiff⟩ := findCentroid_runs_iff hrows hcols hx hy hobj hinner
  obtain ⟨-, rfl, hcentroid⟩ := (hiff centroid f).mp h
  have hnd : qs.Nodup := hperm.nodup_iff.mpr hruns.nodup
  refine ⟨ps, hruns, ?_, fun c hc => ?_⟩
  · rw [addAll_pixels]
    exact hperm
  · obtain ⟨hmean, hsum⟩ := addAll_centroid image mask hnd
    rw [hcentroid] at hc
    split_ifs at hc with hdark
    rw [List.toFinset_eq_of_perm qs ps hperm] at hmean hsum
    exact ⟨by rw [← Option.some.inj hc, hmean], by omega⟩

/-- A lens has its start pixel. -/
theorem Lens.start_mem {start : ℕ × ℕ} {ps : List (ℕ × ℕ)} (h : Lens image mask start ps)
    (hy : start.2 < image.rows) (hobj : mask.value start.1 start.2 = Mask.object) : start ∈ ps := by
  unfold Lens at h
  generalize hmaxy : min (start.2 + maxLensSize) image.rows = maxy at h
  generalize hend : start.1 + 1 = b₀ at h
  cases h with
  | limit =>
    unfold maxLensSize at hmaxy
    omega
  | stop _ hnot => exact absurd hobj (hnot start.1 le_rfl (by omega))
  | @row _ _ _ a b _ _ hI ha _ hnot _ =>
    apply List.mem_append_left
    apply mem_rowPixels.mpr
    refine ⟨rfl, ?_, ha⟩
    by_contra hlt
    exact hnot start.1 le_rfl (by omega) hobj

theorem Lens.unique {start : ℕ × ℕ} {ps ps' : List (ℕ × ℕ)} (h : Lens image mask start ps)
    (h' : Lens image mask start ps') : ps = ps' := Runs.unique (Nat.le_succ _) h h'

end Fill

end Lyli.Calibration.LensDetector
