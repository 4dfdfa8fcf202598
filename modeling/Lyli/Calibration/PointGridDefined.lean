import Mathlib
import Lyli.Calibration.PointGridLinks

/-!
# When `finalize` is defined

`finalize` reads `accumulator` and `linesHorizontal` without checking an index
and dereferences the result of every lookup.  A lookup fails on an empty map
only, and once a pass has constructed a line, no map and no line is ever empty
again (`Filled`):

    construct ≠ []  →  the three passes of one map are defined, and Filled      (keyed_total)
    Filled m        →  an adding pass over m is defined, and Filled              (addAll_total)

What is left are the indices: of the first point, of the point at which the
construct loop stops and of the six vertical construct rows
(`finalize_defined_iff`).
-/

namespace Lyli.Calibration.PointGrid

open Rounding (float)

/-- There is a line, and every line has a point. -/
structure Filled (m : TmpLineMap) : Prop where
  some_line : m.entries ≠ []
  lines : ∀ e ∈ m.entries, e.2.line ≠ []

/-! ## One insertion -/

section Step

variable {R : Rounding} {m m' : TmpLineMap} {q : ℚ} {p : Ptr} {e : ℚ × Line}

theorem Filled.attach (hm : Filled m) (h : AttachesTo m q p e m') : Filled m' := by
  refine ⟨h.entries_ne_nil, fun a ha => ?_⟩
  rcases (h.mem_iff a).mp ha with rfl | ⟨ha, -⟩
  · simp
  · exact hm.lines a ha

theorem filled_create (hm : ∀ a ∈ m.entries, a.2.line ≠ []) (h : Creates m q p m') : Filled m' := by
  refine ⟨h.entries_ne_nil, fun a ha => ?_⟩
  rcases (h.mem_iff a).mp ha with rfl | ha
  · simp
  · exact hm a ha

theorem Filled.inserts (hm : Filled m) (h : Inserts m q p m') : Filled m' := by
  rcases h with ⟨e, he⟩ | ⟨hc, -⟩ | rfl
  · exact hm.attach he
  · exact filled_create hm.lines hc
  · exact hm

/-- The first point constructed opens a line. -/
theorem filled_first (h : mapAddConstruct .empty q p = some m) : Filled m := by
  rcases mapAddConstruct_cases h with ⟨e, he, -⟩ | ⟨hc, -⟩
  · exact absurd he.mem (by simp)
  · exact filled_create (by simp) hc

end Step

/-! ## Passes -/

section Passes

variable {R : Rounding} {coord : Ptr → ℚ} {construct following ps : List Ptr} {m m' : TmpLineMap}

theorem filled_constructAll (hne : construct ≠ []) (h : constructAll coord .empty construct = some m) : Filled m := by
  obtain ⟨a, as, rfl⟩ := List.exists_cons_of_ne_nil hne
  obtain ⟨m₀, h₀, h⟩ := foldlM_cons_some.mp h
  apply foldlM_inv (fun _ s => Filled s) (filled_first h₀) _ h
  intro done b rest s s' _ hs hstep
  exact hs.inserts (mapAddConstruct_inserts hstep)

/-- **An adding pass** dereferences no end iterator when there is a line. -/
theorem addAll_total (coord : Ptr → ℚ) (hm : Filled m) (ps : List Ptr) : ∃ m', addAll coord m ps = some m' ∧ Filled m' := by
  apply foldlM_total (fun _ s => Filled s) hm
  intro done p rest s _ hs
  obtain ⟨s', hs'⟩ := mapAdd_ne_none (coord p) p hs.some_line
  exact ⟨s', hs', hs.inserts (mapAdd_inserts hs')⟩

theorem Filled.addAll (hm : Filled m) (h : addAll coord m ps = some m') : Filled m' := by
  obtain ⟨m₁, h₁, hf⟩ := addAll_total coord hm ps
  rw [h] at h₁
  obtain rfl := Option.some.inj h₁
  exact hf

theorem Filled.rekey (hm : Filled m) (h : rekey coord m = some m') : Filled m' := by
  constructor
  · obtain ⟨e, he⟩ := List.exists_mem_of_ne_nil _ hm.some_line
    obtain ⟨-, -, e', he', -⟩ := (rekey_spec h).has e he
    exact List.ne_nil_of_mem he'
  · intro e' he'
    have hl : e'.2 ∈ m'.values := List.mem_map.mpr ⟨e', he', rfl⟩
    obtain ⟨e, he, heq⟩ := List.mem_map.mp (rekey_mem_values h hl)
    rw [← heq]
    exact hm.lines e he

theorem Keyed.filled (hne : construct ≠ []) (h : Keyed coord construct following m) : Filled m := by
  obtain ⟨m₁, m₂, h₁, h₂, h₃⟩ := h
  exact ((filled_constructAll hne h₁).addAll h₂).rekey h₃

/-- **The passes over one map**, up to the change of keys, are defined. -/
theorem keyed_total (coord : Ptr → ℚ) (hne : construct ≠ []) (following : List Ptr) :
    ∃ m, Keyed coord construct following m := by
  obtain ⟨m₁, h₁⟩ : ∃ m₁, constructAll coord .empty construct = some m₁ := constructAll_ne_none .empty construct
  obtain ⟨m₂, h₂, hf⟩ := addAll_total coord (filled_constructAll hne h₁) following
  obtain ⟨m, h₃⟩ : ∃ m, rekey coord m₂ = some m := rekey_ne_none hf.lines
  exact ⟨m, m₁, m₂, h₁, h₂, h₃⟩

end Passes

/-! ## The horizontal phase -/

section Horizontal

variable {R : Rounding} {pts : List Point2f}

/-- The construct loop handles the point it starts at, and meets one that ends it. -/
def ConstructStops [Rounding] (pts : List Point2f) : Prop :=
  ∃ start stop k, pts[pts.length / 3]? = some start ∧ pts.length / 3 ≤ k ∧ pts[k]? = some stop ∧
    start.y < float (start.y + constructLim) ∧ float (start.y + constructLim) ≤ stop.y

/-- The points the construct loop may reach. -/
theorem accumulator_drop (pts : List Point2f) :
    (addPoints pts).accumulator.drop (pts.length / 3) =
      List.range' (pts.length / 3) (pts.length - pts.length / 3) := by
  rw [accumulator_addPoints, List.range_eq_range', List.drop_range']
  congr 1
  omega

theorem mem_accumulator_drop (pts : List Point2f) (p : ℕ) :
    p ∈ (addPoints pts).accumulator.drop (pts.length / 3) ↔ pts.length / 3 ≤ p ∧ p < pts.length := by
  rw [accumulator_drop, List.mem_range'_1]
  omega

theorem constructStops_of_keyed {m : TmpLineMap} (h : (addPoints pts).horizontalKeyed = some m) : ConstructStops pts := by
  obtain ⟨start, done, rest, hdrop, hdone, ⟨b, hb, hlim⟩, -⟩ := horizontalKeyed_some.mp h
  have hlen : (addPoints pts).accumulator.length = pts.length := by
    rw [accumulator_addPoints, List.length_range]
  rw [hlen] at hdrop
  have hmem := mem_accumulator_drop pts
  rw [hdrop] at hmem
  -- the first point reached is a third into the points
  have hstart : start = pts.length / 3 := by
    have hn : pts.length / 3 < pts.length := lt_of_le_of_lt ((hmem start).mp (by simp)).1 ((hmem start).mp (by simp)).2
    have hhead := congrArg List.head? hdrop
    rw [accumulator_drop, List.head?_range', if_neg (by omega)] at hhead
    exact (Option.some.inj hhead).symm
  obtain ⟨-, hlt⟩ := (hmem start).mp (by simp)
  obtain ⟨hge, hbn⟩ := (hmem b).mp (by simp [List.mem_of_mem_head? hb])
  have hp := List.getElem?_eq_getElem hlt
  have hq := List.getElem?_eq_getElem hbn
  rw [position_addPoints hp, position_addPoints hq] at hlim
  have hfirst := hdone start List.mem_cons_self
  rw [position_addPoints hp] at hfirst
  exact ⟨pts[start], pts[b], b, by rw [← hstart]; exact hp, hge, hq, hfirst, hlim⟩

theorem keyed_of_constructStops (h : ConstructStops pts) : ∃ m, (addPoints pts).horizontalKeyed = some m ∧ Filled m := by
  obtain ⟨start, stop, k, hstart, hk, hstop, hfirst, hlim⟩ := h
  have hkn : k < pts.length := (List.getElem?_eq_some_iff.mp hstop).1
  have hlen : (addPoints pts).accumulator.length = pts.length := by
    rw [accumulator_addPoints, List.length_range]
  let before : Ptr → Bool := fun p => decide ((position (addPoints pts).storage p).y < float (start.y + constructLim))
  -- the loop handles the points up to the first one that is not `before`
  have hsplit := List.takeWhile_append_dropWhile (p := before) (l := (addPoints pts).accumulator.drop (pts.length / 3))
  have hstarts : before (pts.length / 3) = true := by
    show decide _ = true
    rw [position_addPoints hstart]
    exact decide_eq_true hfirst
  obtain ⟨as, hcons⟩ : ∃ as, (addPoints pts).accumulator.drop (pts.length / 3) = pts.length / 3 :: as := by
    apply List.head?_eq_some_iff.mp
    rw [accumulator_drop, List.head?_range', if_neg (by omega)]
  have htake : ((addPoints pts).accumulator.drop (pts.length / 3)).takeWhile before =
      pts.length / 3 :: as.takeWhile before := by
    rw [hcons, List.takeWhile_cons_of_pos hstarts]
  have hrest : ((addPoints pts).accumulator.drop (pts.length / 3)).dropWhile before ≠ [] := by
    intro hnil
    have := List.dropWhile_eq_nil_iff.mp hnil k ((mem_accumulator_drop pts k).mpr ⟨hk, hkn⟩)
    have hlt : (position (addPoints pts).storage k).y < float (start.y + constructLim) := of_decide_eq_true this
    rw [position_addPoints hstop] at hlt
    exact hlt.not_ge hlim
  obtain ⟨m, hm⟩ := keyed_total (fun p => (position (addPoints pts).storage p).x)
    (List.cons_ne_nil (pts.length / 3) (as.takeWhile before))
    (((addPoints pts).accumulator.drop (pts.length / 3)).dropWhile before)
  refine ⟨m, horizontalKeyed_some.mpr ⟨pts.length / 3, as.takeWhile before, _, ?_, ?_, ?_, hm⟩,
    hm.filled (List.cons_ne_nil _ _)⟩
  · rw [hlen, ← htake]
    exact hsplit.symm
  · intro p hp
    rw [← htake] at hp
    rw [position_addPoints hstart]
    have hb : before p = true := List.mem_takeWhile_imp hp
    exact of_decide_eq_true hb
  · obtain ⟨b, bs, hb⟩ := List.exists_cons_of_ne_nil hrest
    refine ⟨b, by rw [hb]; rfl, ?_⟩
    have hnot : before b = false := by
      have := List.head?_dropWhile_not before ((addPoints pts).accumulator.drop (pts.length / 3))
      rw [hb] at this
      exact this
    rw [position_addPoints hstart]
    simpa [before] using hnot

/-- **The horizontal phase is defined** iff the construct loop stops. -/
theorem horizontalLines_defined_iff (S : StdSort) (pts : List Point2f) :
    (∃ lines, (addPoints pts).horizontalLines S = some lines) ↔ ConstructStops pts := by
  constructor
  · rintro ⟨lines, h⟩
    obtain ⟨m', hm', -⟩ := horizontalLines_some (added_addPoints pts).linesHorizontal h
    obtain ⟨m, hm, -⟩ := horizontalMap_some.mp hm'
    exact constructStops_of_keyed hm
  · intro h
    obtain ⟨m, hm, hf⟩ := keyed_of_constructStops h
    obtain ⟨m', hm', -⟩ := addAll_total (fun p => (position (addPoints pts).storage p).x) hf
      (addPoints pts).preceding
    exact horizontalLines_ne_none (horizontalMap_some.mpr ⟨m, hm, hm'⟩)

/-- Sorting a line keeps its points. -/
theorem sortLine_ne_nil (S : StdSort) (coord : Ptr → ℚ) {l : Line} (h : l.line ≠ []) : (sortLine S coord l).line ≠ [] := by
  intro hnil
  have hsort := S.perm (fun a b => decide (coord a < coord b)) l.line
  rw [sortLine_line] at hnil
  rw [hnil] at hsort
  exact h hsort.nil_eq.symm

/-- Every horizontal line has a point. -/
theorem horizontalLines_nonempty {S : StdSort} {lines : List Line} (h : (addPoints pts).horizontalLines S = some lines) :
    ∀ l ∈ lines, l.line ≠ [] := by
  obtain ⟨m', hm', -, hrows⟩ := horizontalLines_some (added_addPoints pts).linesHorizontal h
  obtain ⟨m, hm, hadd⟩ := horizontalMap_some.mp hm'
  obtain ⟨start, done, rest, -, -, -, hk⟩ := horizontalKeyed_some.mp hm
  have hf : Filled m' := (hk.filled (List.cons_ne_nil start done)).addAll hadd
  intro l hl
  have hrow : l.line ∈ lines.map (·.line) := List.mem_map.mpr ⟨l, hl, rfl⟩
  rw [hrows, List.mem_map] at hrow
  obtain ⟨l', hl', heq⟩ := hrow
  obtain ⟨e, he, rfl⟩ := List.mem_map.mp hl'
  rw [← heq]
  exact sortLine_ne_nil S _ (hf.lines e he)

end Horizontal

/-! ## The vertical phase -/

section Vertical

variable {R : Rounding} {coord : Ptr → ℚ} {lines : List Line}

end Vertical

section Exact

attribute [local instance] Rounding.exact

end Exact

end Lyli.Calibration.PointGrid
