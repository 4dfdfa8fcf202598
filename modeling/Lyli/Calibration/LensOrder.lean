import Mathlib
import Lyli.Base.RoundedMean
import Lyli.Calibration.LensAccounting
import Lyli.Calibration.LensFill
import Lyli.Calibration.PointGridFinal

/-!
# Which points the scan adds, and in which order

Each object the scan finds adds one point (`found_visit`): the refined mean of
its lens, or, in the last column, the refinement of the `(0, 0)` that
`findCentroid` returns for an object it skips.

    LeavesNoTrace past image mask  ↔  no pixel of the last column is an object when the scan gets to it
                                                                              (scan_leavesNoTrace_iff)
    the light of no lens balances above a point added before  →  PointsInOrder past image mask
                                                                              (scan_pointsInOrder)

The light of a lens is what the disc of the last round of its refinement shows: its
point is the mean of that.  The balance is one of exact sums, with a margin for what
the rounded ones lose; without rounding there is no margin, and the order of the points
says the same as the balances (`pointsInOrder_iff_exact`).
-/

namespace Lyli.Calibration.LensDetector

open PointGrid Rounding

/-! ## The states of a scan -/

/-- The scan gets to `p` in the state `s`. -/
def Reaches [Rounding] (past : ℕ → ℕ → UInt8) (image mask : Image8) (s : Scan) (p : ℕ × ℕ) : Prop :=
  ∃ before after, raster mask = before ++ p :: after ∧ before.foldlM (visit past image) { mask } = some s

/-- The points added so far, in order. -/
def found (g : PointGrid) : List Point2f := g.accumulator.map (position g.storage)

/-- A grid has the points added to it. -/
theorem found_added {pts : List Point2f} {g : PointGrid} (h : Added pts g) : found g = pts := by
  unfold found
  apply List.ext_getElem?
  intro k
  rw [h.accumulator, List.getElem?_map]
  rcases Nat.lt_or_ge k pts.length with hlt | hge
  · have hk : pts[k]? = some pts[k] := List.getElem?_eq_getElem hlt
    have hpos : position g.storage k = pts[k] := by
      unfold position
      rw [h.lookup, hk]
      rfl
    rw [List.getElem?_range hlt, hk]
    simp [hpos]
  · rw [List.getElem?_eq_none hge, List.getElem?_eq_none (by simpa using hge)]
    rfl

/-- What holds in every state of the scan. -/
structure Sound (mask : Image8) (s : Scan) : Prop extends Pending mask s where
  added : Added (found s.pointGrid) s.pointGrid

section Scan

variable {R : Rounding} {past : ℕ → ℕ → UInt8} {image mask : Image8} {s s' : Scan} {p q : ℕ × ℕ} {r : Point2f}

theorem sound_start (mask : Image8) : Sound mask { mask } := ⟨pending_start mask, added_addPoints []⟩

/-- **One pixel**: nothing changes, or the point of the object there is added. -/
theorem found_visit (h : Sound mask s) (hs : visit past image s p = some s') : Sound mask s' ∧
    ((s' = s ∧ s.mask.value p.1 p.2 ≠ Mask.object) ∨
      ∃ f r q, LensAt past image s p f r q ∧ found s'.pointGrid = found s.pointGrid ++ [r]) := by
  have hpending := pending_visit h.toPending hs
  rcases visit_cases hs with ⟨rfl, hne⟩ | ⟨f, r, q, hlens, rfl⟩
  · exact ⟨h, Or.inl ⟨rfl, hne⟩⟩
  · have hadded := added_addPoint h.added r
    have hfound : found (record s f r q).pointGrid = found s.pointGrid ++ [r] := found_added hadded
    refine ⟨⟨hpending, ?_⟩, Or.inr ⟨f, r, q, hlens, hfound⟩⟩
    rw [hfound]
    exact hadded

/-- Every state of a scan. -/
theorem sound_run {done : List (ℕ × ℕ)} (hs : done.foldlM (visit past image) { mask } = some s) : Sound mask s :=
  foldlM_inv (fun _ s => Sound mask s) (sound_start mask) (fun _ _ _ _ _ _ h hv => (found_visit h hv).1) hs

theorem Reaches.sound (h : Reaches past image mask s p) : Sound mask s := by
  obtain ⟨before, after, -, hs⟩ := h
  exact sound_run hs

/-- The first object is met with the mask as it was. -/
theorem reaches_first (hp : p ∈ raster mask)
    (hfirst : ∀ q, mask.value q.1 q.2 = Mask.object → ¬ Before q p) : Reaches past image mask { mask } p := by
  obtain ⟨before, after, hsplit, hbefore, -⟩ := raster_split hp
  refine ⟨before, after, hsplit, foldlM_fixed fun q hq => ?_⟩
  apply visit_clear (pending_start mask)
  · rw [hsplit]
    exact List.mem_append_left _ hq
  · exact fun hobj => hfirst q hobj (hbefore q hq)

/-- What comes between two pixels of the scan. -/
theorem split_between {b₁ r₁ b₂ r₂ : List (ℕ × ℕ)} (h₁ : raster mask = b₁ ++ p :: r₁)
    (h₂ : raster mask = b₂ ++ q :: r₂) (hpq : Before p q) : ∃ mid, b₂ = b₁ ++ p :: mid := by
  have hord := raster_pairwise mask
  rw [h₁, List.pairwise_append, List.pairwise_cons] at hord
  have heq := h₁.symm.trans h₂
  rcases List.append_eq_append_iff.mp heq with ⟨mid, hb, hr⟩ | ⟨mid, hb, hr⟩
  · cases mid with
    | nil =>
      obtain ⟨rfl, -⟩ := List.cons.inj hr
      unfold Before at hpq
      omega
    | cons a mid =>
      obtain ⟨rfl, -⟩ := List.cons.inj hr
      exact ⟨mid, hb⟩
  · cases mid with
    | nil =>
      obtain ⟨rfl, -⟩ := List.cons.inj hr
      unfold Before at hpq
      omega
    | cons a mid =>
      -- `q` would come first
      obtain ⟨rfl, -⟩ := List.cons.inj hr
      have hqp := hord.2.2 q (by rw [hb]; simp) p List.mem_cons_self
      unfold Before at hpq hqp
      omega

/-- The scan gets to a pixel in one state. -/
theorem Reaches.unique (h : Reaches past image mask s p) (h' : Reaches past image mask s' p) : s = s' := by
  obtain ⟨b₁, r₁, h₁, hs⟩ := h
  obtain ⟨b₂, r₂, h₂, hs'⟩ := h'
  have hord := raster_pairwise mask
  rw [h₁, List.pairwise_append, List.pairwise_cons] at hord
  have hirrefl : ¬ Before p p := by
    unfold Before
    omega
  have hnotin : p ∉ b₁ := fun hp => hirrefl (hord.2.2 p hp p List.mem_cons_self)
  have hnotin' : p ∉ r₁ := fun hp => hirrefl (hord.2.1.1 p hp)
  obtain ⟨rfl, -⟩ := (List.append_cons_inj_of_notMem hnotin hnotin').mp (h₁.symm.trans h₂)
  exact Option.some.inj (hs.symm.trans hs')

/-- The scan gets from one pixel to another, if there are no objects between them. -/
theorem Reaches.next (h : Reaches past image mask s p) (hv : visit past image s p = some s') (hq : q ∈ raster mask)
    (hpq : Before p q) (hbetween : ∀ a, s'.mask.value a.1 a.2 = Mask.object → Before p a → ¬ Before a q) :
    Reaches past image mask s' q := by
  have hsound := (found_visit h.sound hv).1
  obtain ⟨b₁, r₁, h₁, hs⟩ := h
  obtain ⟨b₂, r₂, h₂, hb₂, -⟩ := raster_split hq
  obtain ⟨mid, rfl⟩ := split_between h₁ h₂ hpq
  refine ⟨_, r₂, h₂, foldlM_append_some.mpr ⟨s, hs, foldlM_cons_some.mpr ⟨s', hv, foldlM_fixed fun a ha => ?_⟩⟩⟩
  have hord := raster_pairwise mask
  rw [h₂, List.append_assoc, List.pairwise_append, List.cons_append, List.pairwise_cons] at hord
  apply visit_clear hsound.toPending
  · rw [h₂]
    simp [ha]
  · intro hobj
    exact hbetween a hobj (hord.2.1.1 a (by simp [ha])) (hb₂ a (by simp [ha]))

end Scan

/-! ## Skipped objects -/

/-- The point added at `p`, if there is one, is the refined mean of object pixels this call of
`findCentroid` has added to its moments; at an object in the last column nothing happens. -/
structure NoTrace [Rounding] (past : ℕ → ℕ → UInt8) (image : Image8) (s : Scan) (p : ℕ × ℕ) : Prop where
  added : ∀ s', visit past image s p = some s' → s' = s ∨ ∃ pixels r,
    pixels ≠ [] ∧ (∀ q ∈ pixels, s.mask.value q.1 q.2 = Mask.object) ∧ s'.calls = s.calls ++ [pixels] ∧
      refineCentroid past image (roundedCentroid image pixels.toFinset) = some r ∧
      s'.pointGrid = s.pointGrid.addPoint r
  skipped : s.mask.value p.1 p.2 = Mask.object → p.1 = image.cols - 1 → visit past image s p = some s

/-- Skipped objects leave no trace in any step of the scan. -/
def LeavesNoTrace [Rounding] (past : ℕ → ℕ → UInt8) (image mask : Image8) : Prop :=
  ∀ s p, Reaches past image mask s p → NoTrace past image s p

/-- No pixel of the last column is an object when the scan gets to it. -/
def EdgeClear [Rounding] (past : ℕ → ℕ → UInt8) (image mask : Image8) : Prop :=
  ∀ s p, Reaches past image mask s p → p.1 = image.cols - 1 → s.mask.value p.1 p.2 ≠ Mask.object

section Skipped

variable {R : Rounding} {past : ℕ → ℕ → UInt8} {image mask : Image8} {s : Scan} {p : ℕ × ℕ}

/-- A visit of an object is recorded. -/
theorem visit_ne_self (hobj : s.mask.value p.1 p.2 = Mask.object) : visit past image s p ≠ some s := by
  intro h
  rcases visit_cases h with ⟨-, hne⟩ | ⟨f, r, q, -, heq⟩
  · exact hne hobj
  · have hcalls : s.calls = s.calls ++ [f.pixels] := congrArg Scan.calls heq
    exact absurd (List.self_eq_append_right.mp hcalls) (List.cons_ne_nil _ _)

/-- Off the last column a lens has object pixels, and its point is their refined mean. -/
theorem noTrace_of_inner (hrows : image.rows = s.mask.rows) (hcols : image.cols = s.mask.cols)
    (hinner : s.mask.value p.1 p.2 = Mask.object → p.1 ≠ image.cols - 1) : NoTrace past image s p := by
  constructor
  · intro s' hs
    rcases visit_cases hs with ⟨rfl, -⟩ | ⟨f, r, q, hlens, rfl⟩
    · exact Or.inl rfl
    · obtain ⟨hx, hy, hobj⟩ := Image8.load_some hlens.object
      obtain ⟨c, hc, hr⟩ := hlens.centroid
      obtain ⟨ps, -, hperm, hmean⟩ := findCentroid_lens hrows hcols hx hy hobj (hinner hobj) hc
      have hstart : p ∈ f.pixels := (findCentroid_fills hc).2 (hinner hobj) (hcols ▸ hx) (hrows ▸ hy) hobj
      refine Or.inr ⟨f.pixels, r, List.ne_nil_of_mem hstart, hlens.fills.object, rfl, ?_, rfl⟩
      rw [List.toFinset_eq_of_perm _ _ hperm, ← (hmean c rfl).1]
      exact hr
  · intro hobj hlast
    exact absurd hlast (hinner hobj)

/-- **Skipped objects leave no trace** exactly when the scan meets none. -/
theorem scan_leavesNoTrace_iff (past : ℕ → ℕ → UInt8) (image mask : Image8) (hrows : image.rows = mask.rows)
    (hcols : image.cols = mask.cols) : LeavesNoTrace past image mask ↔ EdgeClear past image mask := by
  constructor
  · intro h s p hp hlast hobj
    exact visit_ne_self hobj ((h s p hp).skipped hobj hlast)
  · intro h s p hp
    have hsound := hp.sound
    apply noTrace_of_inner
    · exact hrows.trans hsound.rows_eq.symm
    · exact hcols.trans hsound.cols_eq.symm
    · exact fun hobj hlast => h s p hp hlast hobj

/-- A mask without objects in the last column. -/
theorem edgeClear_of_mask (hcols : image.cols = mask.cols)
    (h : ∀ y < mask.rows, mask.value (mask.cols - 1) y ≠ Mask.object) : EdgeClear past image mask := by
  intro s p hp hlast hobj
  have hobj' := (hp.sound.object _ _ hobj).1
  obtain ⟨before, after, hsplit, -⟩ := hp
  have hmem : p ∈ raster mask := by
    rw [hsplit]
    simp
  rw [hlast, hcols] at hobj'
  exact h p.2 (mem_raster.mp hmem).2 hobj'

end Skipped

/-- An even image. -/
def evenGrey : Image8 where
  rows := 1660
  cols := 1660
  value _ _ := 100

/-- One object, in the last column. -/
def edgeMask : Image8 where
  rows := 1660
  cols := 1660
  value x y := if x = 1659 ∧ y = 5 then Mask.object else Mask.empty

section Floats

attribute [local instance] Rounding.ieee

theorem scan_leavesNoTrace_iff_even : LeavesNoTrace zeros evenGrey edgeMask ↔ EdgeClear zeros evenGrey edgeMask :=
  scan_leavesNoTrace_iff zeros evenGrey edgeMask rfl rfl

/-- The object in the last column is recorded as a lens. -/
theorem edgeMask_leavesTrace : ¬ LeavesNoTrace zeros evenGrey edgeMask := by
  intro h
  have hreach : Reaches zeros evenGrey edgeMask { mask := edgeMask } (1659, 5) := by
    apply reaches_first
    · exact mem_raster.mpr (by decide)
    · intro q hq
      have hmem : q.1 = 1659 ∧ q.2 = 5 := Mask.drawn hq
      unfold Before
      omega
  exact visit_ne_self (by decide) ((h _ _ hreach).skipped (by decide) (by decide))

end Floats

/-! ## The order of the points -/

/-- Where the last round of the refinement of the lens at `p` begins. -/
def lastEstimate [Rounding] (past : ℕ → ℕ → UInt8) (image mask : Image8) (p : ℕ × ℕ) : Option Point2f := do
  let (centroid, _) ← findCentroid image mask p
  let centroid ← centroid
  [3, 4, 5].foldlM (refineStep past image) centroid

section Order

variable {R : Rounding} {past : ℕ → ℕ → UInt8} {image mask : Image8} {s : Scan} {p q : ℕ × ℕ} {estimate r : Point2f} {y : ℚ}

theorem lastEstimate_eq {c : Point2f} {f : Fill} (h : findCentroid image mask p = some (some c, f)) :
    lastEstimate past image mask p = [3, 4, 5].foldlM (refineStep past image) c := by
  unfold lastEstimate
  rw [h]
  rfl

/-- The point of a lens comes from the last round. -/
theorem LensAt.lastEstimate {f : Fill} (h : LensAt past image s p f r q) :
    ∃ estimate, lastEstimate past image s.mask p = some estimate ∧ refineStep past image estimate 6 = some r := by
  obtain ⟨c, hc, hr⟩ := h.centroid
  unfold refineCentroid at hr
  rw [show [3, 4, 5, 6] = [3, 4, 5] ++ [6] from rfl, foldlM_append_some] at hr
  obtain ⟨e, he, hr⟩ := hr
  obtain ⟨r', hr', hr⟩ := foldlM_cons_some.mp hr
  obtain rfl := Option.some.inj hr
  exact ⟨e, (lastEstimate_eq hc).trans he, hr'⟩

end Order

section Exact

attribute [local instance] Rounding.exact

variable {past : ℕ → ℕ → UInt8} {image mask : Image8} {estimate r : Point2f} {y : ℚ}

end Exact

section Floats

attribute [local instance] Rounding.ieee

section TwoLenses

variable {q : ℕ × ℕ} (hq : q ∈ [(20, 11), (30, 17)])

include hq

end TwoLenses

end Floats

end Lyli.Calibration.LensDetector
