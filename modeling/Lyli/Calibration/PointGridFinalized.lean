import Mathlib
import Lyli.Calibration.PointGridLinks

/-!
# What a finalised grid holds

The points of the horizontal lines, those of the vertical lines and those in
storage are the same (`finalize_noStray`).  Horizontal lines are labelled by
index, vertical lines by the map they come from, and a row feeds the map of its
parity; as no point is on two rows, the labels agree wherever two lines cross:

    finalize = some g  →  AgreeingSubgrids g          (finalize_agreeingSubgrids)
-/

namespace Lyli.Calibration.PointGrid

/-! ## No stray points -/

/-- Both directions refer to the points in storage, and to all of them. -/
structure NoStray (g : PointGrid) : Prop where
  horizontal : {p | ∃ l ∈ g.linesHorizontal, p ∈ l.line} = {p | p ∈ g.storage}
  vertical : {p | ∃ l ∈ g.linesVertical, p ∈ l.line} = {p | p ∈ g.storage}

theorem mem_linePoints_cleaned {testPoints : List Ptr} {lines : List Line} {p : Ptr} :
    p ∈ linePoints (lines.map (cleaned testPoints)) ↔ p ∈ linePoints lines ∧ p ∈ testPoints := by
  simp only [mem_linePoints, List.mem_map]
  constructor
  · rintro ⟨l, ⟨l₀, hl₀, rfl⟩, hp⟩
    obtain ⟨hp, ht⟩ := List.mem_filter.mp hp
    exact ⟨⟨l₀, hl₀, hp⟩, of_decide_eq_true ht⟩
  · rintro ⟨⟨l, hl, hp⟩, ht⟩
    exact ⟨cleaned testPoints l, ⟨l, hl, rfl⟩, List.mem_filter.mpr ⟨hp, decide_eq_true ht⟩⟩

/-- The points of either direction are those in storage. -/
theorem finalize_linePoints {R : Rounding} {S : StdSort} {pts : List Point2f} {g : PointGrid}
    (h : (addPoints pts).finalize S = some g)
    (p : Ptr) : (p ∈ linePoints g.linesHorizontal ↔ p ∈ g.storage) ∧ (p ∈ linePoints g.linesVertical ↔ p ∈ g.storage) := by
  obtain ⟨hor, vert, m, m', s, s', hs⟩ := finalize_swept h
  constructor
  · rw [hs.finalized.linesHorizontal, mem_linePoints_cleaned, hs.finalized.stored]
    constructor
    · rintro ⟨hh, hv⟩
      exact (hs.finalized.stored p).mp (hs.stored_iff.mpr hv)
    · exact fun hp => hp.2
  · rw [hs.finalized.linesVertical, hs.stored_iff]

/-- **No dangling and no stray points.**  After `finalize` the points of the lines of either direction
are those in storage. -/
theorem finalize_noStray {R : Rounding} (S : StdSort) (pts : List Point2f) (g : PointGrid)
    (h : (addPoints pts).finalize S = some g) :
    NoStray g := by
  constructor
  · ext p
    show (∃ l ∈ g.linesHorizontal, p ∈ l.line) ↔ p ∈ g.storage
    rw [← mem_linePoints, (finalize_linePoints h p).1]
  · ext p
    show (∃ l ∈ g.linesVertical, p ∈ l.line) ↔ p ∈ g.storage
    rw [← mem_linePoints, (finalize_linePoints h p).2]

section Floats

attribute [local instance] Rounding.ieee

/-- Of the first row only the point at `(0, 0)` stays. -/
theorem finalize_noStray_squareGrid :
    ∃ g, (addPoints squareGrid).finalize .insertion = some g ∧ NoStray g := by
  obtain ⟨g, hg⟩ := finalize_squareGrid
  exact ⟨g, hg, finalize_noStray .insertion squareGrid g hg⟩

end Floats

/-! ## Subgrids -/

/-- Horizontal lines are labelled A, B, A, … by index, and a vertical line as every horizontal line it meets. -/
structure AgreeingSubgrids (g : PointGrid) : Prop where
  alternating : Alternating g.linesHorizontal
  agree : ∀ (i j : ℕ) (l l' : Line) (p : Ptr), g.linesHorizontal[i]? = some l → g.linesVertical[j]? = some l' →
    p ∈ l.line → p ∈ l'.line → l.subgrid = l'.subgrid

theorem alternating_cleaned {lines : List Line} (h : Alternating lines) (testPoints : List Ptr) :
    Alternating (lines.map (cleaned testPoints)) := by
  intro i l hl
  rw [List.getElem?_map] at hl
  obtain ⟨l₀, hl₀, rfl⟩ := Option.map_eq_some_iff.mp hl
  exact h i l₀ hl₀

/-- **Subgrids agree** wherever a horizontal and a vertical line share a point. -/
theorem finalize_agreeingSubgrids {R : Rounding} (S : StdSort) (pts : List Point2f) (g : PointGrid)
    (h : (addPoints pts).finalize S = some g) : AgreeingSubgrids g := by
  obtain ⟨hor, vert, m, m', s, s', hs⟩ := finalize_swept h
  obtain ⟨-, -, halt, -⟩ := horizontalLines_some (added_addPoints pts).linesHorizontal hs.finalized.horizontal
  obtain ⟨s₁, hs₁, hperm⟩ := verticalLines_some (added_addPoints pts).linesVertical hs.finalized.vertical
  obtain rfl : s₁ = s' := Option.some.inj (hs₁.symm.trans hs.vertMaps)
  refine ⟨?_, ?_⟩
  · rw [hs.finalized.linesHorizontal]
    exact alternating_cleaned halt _
  · intro i j l l' p hl hl' hp hp'
    rw [hs.finalized.linesHorizontal, List.getElem?_map] at hl
    obtain ⟨row, hrow, rfl⟩ := Option.map_eq_some_iff.mp hl
    have hprow : p ∈ row.line := List.mem_of_mem_filter hp
    have hlabel : (cleaned (linePoints vert) row).subgrid = parityGrid i := halt i row hrow
    -- the map of the vertical line tells the parity of the row
    have hparity : ∀ {range : List ℤ} {c : ℤ}, p ∈ offered hor range c → (i : ℤ) % 2 = c :=
      fun hoff => parity_of_offered (hs.hor_holders_le_one p) hoff hrow hprow
    have hpoints : ∀ {map : TmpLineMap} {e : ℚ × Line} {coord : Ptr → ℚ}, e ∈ map.entries →
        p ∈ (sortLine S coord e.2).line → p ∈ points map := fun he hpe =>
      mem_points.mpr ⟨_, he, (S.mem_sort _ _ _).mp hpe⟩
    have hmem : l' ∈ vert := hs.finalized.linesVertical ▸ List.mem_of_getElem? hl'
    rw [hperm.mem_iff, List.mem_append, List.mem_map, List.mem_map] at hmem
    rw [hlabel]
    unfold parityGrid
    rcases hmem with ⟨e, he, rfl⟩ | ⟨e, he, rfl⟩
    · obtain ⟨range, hoff⟩ := hs.odd_offered (hpoints he hp')
      have := hparity hoff
      rw [if_pos (by omega)]
    · obtain ⟨range, hoff⟩ := hs.even_offered (hpoints he hp')
      have := hparity hoff
      rw [if_neg (by omega)]

section Floats

attribute [local instance] Rounding.ieee

theorem finalize_agreeingSubgrids_squareGrid :
    ∃ g, (addPoints squareGrid).finalize .insertion = some g ∧ AgreeingSubgrids g := by
  obtain ⟨g, hg⟩ := finalize_squareGrid
  exact ⟨g, hg, finalize_agreeingSubgrids .insertion squareGrid g hg⟩

end Floats

end Lyli.Calibration.PointGrid
