import Mathlib
import Lyli.Base.OrdMapShift
import Lyli.Calibration.PointGridFinalized

/-!
# `finalize` does not depend on where the lenses lie

All comparisons of `finalize` are between coordinates of points, or of their
differences with `maxDiff` and `constructLim`.  So every line map of the shifted
points is the shifted line map, and the lines are the same:

    mapAdd (m.shift d) (q + d) p = (mapAdd m q p).map (shift d)                   (mapAdd_shift)
    finalize of the shifted points is the shifted grid, or undefined where
    finalize of the points is                                                    (finalize_shift)
-/

namespace Lyli.Calibration

open Rounding (absDiff absDiff_exact)

attribute [local instance] Rounding.exact

def Point2f.shift (p v : Point2f) : Point2f := ⟨p.x + v.x, p.y + v.y⟩

namespace PointGrid

/-- The line map with its keys `d` higher. -/
def shiftKeys (d : ℚ) (m : TmpLineMap) : TmpLineMap := m.shift d id

/-! ## Passes -/

section Passes

variable {coord coord' : Ptr → ℚ} {d : ℚ}

theorem shiftKeys_entries (m : TmpLineMap) : (shiftKeys d m).entries = m.entries.map (OrdMap.shifted d id) := rfl

theorem absDiff_shift (a q : ℚ) : absDiff (a + d) (q + d) = absDiff a q := by
  rw [absDiff_exact, absDiff_exact, add_sub_add_right_eq_sub]

/-- The same point under a shifted key. -/
theorem modify_shiftKeys (m : TmpLineMap) (q : ℚ) (p : Ptr) :
    (shiftKeys d m).modify (q + d) (pushBack p) = shiftKeys d (m.modify q (pushBack p)) :=
  m.modify_shift q (pushBack p) (pushBack p) fun _ => rfl

theorem mapAdd_shift (m : TmpLineMap) (q : ℚ) (p : Ptr) :
    mapAdd (shiftKeys d m) (q + d) p = (mapAdd m q p).map (shiftKeys d) := by
  unfold mapAdd
  have hnear : (shiftKeys d m).nearest? absDiff (q + d) = _ := m.nearest?_shift absDiff_shift q
  rw [hnear]
  cases m.nearest? absDiff q with
  | none => rfl
  | some e =>
    show (if absDiff (e.1 + d) (q + d) < maxDiff then _ else _) = Option.map (shiftKeys d) (if absDiff e.1 q < maxDiff then _ else _)
    rw [absDiff_shift]
    by_cases hlt : absDiff e.1 q < maxDiff
    · have hmove : (shiftKeys d m).move (e.1 + d) (q + d) e.2 = shiftKeys d (m.move e.1 q e.2) := m.move_shift e.1 q e.2
      rw [if_pos hlt, if_pos hlt, Option.map_some, ← modify_shiftKeys, ← hmove]
      rfl
    · rw [if_neg hlt, if_neg hlt]
      rfl

theorem mapAddConstruct_shift (m : TmpLineMap) (q : ℚ) (p : Ptr) :
    mapAddConstruct (shiftKeys d m) (q + d) p = (mapAddConstruct m q p).map (shiftKeys d) := by
  unfold mapAddConstruct
  have hempty : (shiftKeys d m).entries.isEmpty = m.entries.isEmpty := m.shift_isEmpty
  have hnew : (shiftKeys d m).emplace (q + d) {} = shiftKeys d (m.emplace q {}) := m.emplace_shift q {}
  have hnear : (shiftKeys d m).nearest? absDiff (q + d) = _ := m.nearest?_shift absDiff_shift q
  rw [hempty, hnew, hnear]
  by_cases h : m.entries.isEmpty = true
  · rw [if_pos h, if_pos h, modify_shiftKeys]
    rfl
  · rw [if_neg h, if_neg h]
    cases m.nearest? absDiff q with
    | none => rfl
    | some e =>
      show (if absDiff (e.1 + d) (q + d) > maxDiff then _ else _) =
        Option.map (shiftKeys d) (if absDiff e.1 q > maxDiff then _ else _)
      rw [absDiff_shift]
      by_cases hgt : absDiff e.1 q > maxDiff
      · rw [if_pos hgt, if_pos hgt, modify_shiftKeys]
        rfl
      · have hmove : (shiftKeys d m).move (e.1 + d) (q + d) e.2 = shiftKeys d (m.move e.1 q e.2) :=
          m.move_shift e.1 q e.2
        rw [if_neg hgt, if_neg hgt, Option.map_some, ← modify_shiftKeys, ← hmove]
        rfl

/-- A pass over points whose coordinates are `d` higher. -/
theorem pass_shift {ins : TmpLineMap → ℚ → Ptr → Option TmpLineMap}
    (hins : ∀ m q p, ins (shiftKeys d m) (q + d) p = (ins m q p).map (shiftKeys d)) {ps : List Ptr}
    (h : ∀ p ∈ ps, coord' p = coord p + d) (m : TmpLineMap) :
    ps.foldlM (fun m p => ins m (coord' p) p) (shiftKeys d m) =
      (ps.foldlM (fun m p => ins m (coord p) p) m).map (shiftKeys d) := by
  have hpass := foldlM_hom (f := fun m p => ins m (coord p) p) (g := fun m p => ins m (coord' p) p) (t := id)
    (h := shiftKeys d) (l := ps) (fun m p hp => by rw [id, h p hp, hins]) m
  rwa [List.map_id] at hpass

theorem addAll_shift {ps : List Ptr} (h : ∀ p ∈ ps, coord' p = coord p + d) (m : TmpLineMap) :
    addAll coord' (shiftKeys d m) ps = (addAll coord m ps).map (shiftKeys d) := pass_shift mapAdd_shift h m

theorem constructAll_shift {ps : List Ptr} (h : ∀ p ∈ ps, coord' p = coord p + d) (m : TmpLineMap) :
    constructAll coord' (shiftKeys d m) ps = (constructAll coord m ps).map (shiftKeys d) :=
  pass_shift mapAddConstruct_shift h m

/-- One entry of `rekey`. -/
def rekeyEntry (coord : Ptr → ℚ) (tmp : TmpLineMap) (entry : ℚ × Line) : Option TmpLineMap :=
  entry.2.line.head?.map fun front => tmp.emplace (coord front) entry.2

theorem rekeyEntry_shift {e : ℚ × Line} (h : ∀ p ∈ e.2.line, coord' p = coord p + d) (tmp : TmpLineMap) :
    rekeyEntry coord' (shiftKeys d tmp) (OrdMap.shifted d id e) = (rekeyEntry coord tmp e).map (shiftKeys d) := by
  unfold rekeyEntry
  show e.2.line.head?.map _ = (e.2.line.head?.map _).map _
  cases hhead : e.2.line.head? with
  | none => rfl
  | some front =>
    have hnew : (shiftKeys d tmp).emplace (coord front + d) e.2 = shiftKeys d (tmp.emplace (coord front) e.2) :=
      tmp.emplace_shift (coord front) e.2
    rw [Option.map_some, Option.map_some, Option.map_some, h front (List.mem_of_mem_head? hhead), ← hnew]
    rfl

theorem rekey_eq (m : TmpLineMap) : rekey coord m = m.entries.foldlM (rekeyEntry coord) .empty := by
  unfold rekey
  refine congrArg (fun f => List.foldlM f (OrdMap.empty : TmpLineMap) m.entries) (funext fun tmp => funext fun e => ?_)
  unfold rekeyEntry
  cases e.2.line.head? with
  | none => rfl
  | some front => rfl

theorem rekey_shift {m : TmpLineMap} (h : ∀ p ∈ points m, coord' p = coord p + d) :
    rekey coord' (shiftKeys d m) = (rekey coord m).map (shiftKeys d) := by
  rw [rekey_eq, rekey_eq, shiftKeys_entries]
  exact foldlM_hom (fun tmp e he => rekeyEntry_shift (fun p hp => h p (mem_points.mpr ⟨e, he, hp⟩)) tmp) .empty

/-- All three loops over one map. -/
theorem Keyed.shift {construct following : List Ptr} {m : TmpLineMap} (hk : Keyed coord construct following m)
    (h : ∀ p, p ∈ construct ∨ p ∈ following → coord' p = coord p + d) :
    Keyed coord' construct following (shiftKeys d m) := by
  obtain ⟨m₁, m₂, h₁, h₂, h₃⟩ := hk
  refine ⟨shiftKeys d m₁, shiftKeys d m₂, ?_, ?_, ?_⟩
  · have := constructAll_shift (fun p hp => h p (Or.inl hp)) (.empty : TmpLineMap)
    rw [h₁] at this
    exact this
  · rw [addAll_shift (fun p hp => h p (Or.inr hp)) m₁, h₂]
    rfl
  · rw [rekey_shift (m := m₂) fun p hp => h p ?_, h₃]
    · rfl
    · obtain ⟨taken, hsub, hperm⟩ := addAll_points h₂
      rw [hperm.mem_iff, List.mem_append, (constructAll_points h₁).mem_iff] at hp
      rcases hp with hp | hp
      · exact Or.inl (by simpa [points] using hp)
      · exact Or.inr (hsub.subset hp)

end Passes

/-! ## Lines -/

section Lines

variable {S : StdSort} (hS : S.Local) {coord coord' : Ptr → ℚ} {d : ℚ} {v : Point2f} {pts : List Point2f}

include hS in
theorem sortLine_shift {l : Line} (h : ∀ p ∈ l.line, coord' p = coord p + d) :
    sortLine S coord' l = sortLine S coord l := by
  unfold sortLine
  rw [hS _ (fun a b => decide (coord a < coord b)) l.line fun a ha b hb => ?_]
  rw [h a ha, h b hb, decide_eq_decide, add_lt_add_iff_right]

theorem position_shift {p : Ptr} (hp : p < pts.length) :
    position (addPoints (pts.map (·.shift v))).storage p = (position (addPoints pts).storage p).shift v := by
  have hget := List.getElem?_eq_getElem hp
  rw [position_addPoints hget]
  apply position_addPoints
  rw [List.getElem?_map, hget]
  rfl

theorem mem_accumulator {p : Ptr} : p ∈ (addPoints pts).accumulator ↔ p < pts.length := by
  rw [accumulator_addPoints, List.mem_range]

theorem accumulator_shift : (addPoints (pts.map (·.shift v))).accumulator = (addPoints pts).accumulator := by
  rw [accumulator_addPoints, accumulator_addPoints, List.length_map]

theorem preceding_shift : (addPoints (pts.map (·.shift v))).preceding = (addPoints pts).preceding := by
  unfold preceding
  rw [accumulator_shift]

theorem mem_preceding_lt {p : Ptr} (h : p ∈ (addPoints pts).preceding) : p < pts.length := by
  unfold preceding at h
  rw [List.mem_reverse] at h
  exact mem_accumulator.mp (List.mem_of_mem_take h)

/-- The points of the horizontal map are those added. -/
theorem horizontalMap_lt {m : TmpLineMap} (h : (addPoints pts).horizontalMap = some m) :
    ∀ p ∈ points m, p < pts.length := by
  intro p hp
  obtain ⟨m₀, hm₀, hadd⟩ := horizontalMap_some.mp h
  obtain ⟨start, done, rest, hdrop, -, -, hk⟩ := horizontalKeyed_some.mp hm₀
  obtain ⟨taken, hsub, hperm⟩ := addAll_points hadd
  rw [hperm.mem_iff, List.mem_append] at hp
  rcases hp with hp | hp
  · have hmem : p ∈ (addPoints pts).accumulator.drop ((addPoints pts).accumulator.length / 3) := by
      rw [hdrop]
      exact List.mem_append.mpr (keyed_mem hk hp)
    exact mem_accumulator.mp (List.mem_of_mem_drop hmem)
  · exact mem_preceding_lt (hsub.subset hp)

theorem horizontalMap_shift {m : TmpLineMap} (h : (addPoints pts).horizontalMap = some m) :
    (addPoints (pts.map (·.shift v))).horizontalMap = some (shiftKeys v.x m) := by
  obtain ⟨m₀, hm₀, hadd⟩ := horizontalMap_some.mp h
  obtain ⟨start, done, rest, hdrop, hlim, ⟨b, hb, hstop⟩, hk⟩ := horizontalKeyed_some.mp hm₀
  have hlt : ∀ p, p ∈ start :: done ∨ p ∈ rest → p < pts.length := by
    intro p hp
    have hmem : p ∈ (addPoints pts).accumulator.drop ((addPoints pts).accumulator.length / 3) := by
      rw [hdrop]
      exact List.mem_append.mpr hp
    exact mem_accumulator.mp (List.mem_of_mem_drop hmem)
  have hx : ∀ p < pts.length, (position (addPoints (pts.map (·.shift v))).storage p).x =
      (position (addPoints pts).storage p).x + v.x := fun p hp => by
    rw [position_shift hp]
    rfl
  have hy : ∀ p < pts.length, (position (addPoints (pts.map (·.shift v))).storage p).y =
      (position (addPoints pts).storage p).y + v.y := fun p hp => by
    rw [position_shift hp]
    rfl
  have hstart := hlt start (Or.inl List.mem_cons_self)
  refine horizontalMap_some.mpr ⟨shiftKeys v.x m₀, horizontalKeyed_some.mpr ⟨start, done, rest, ?_, fun p hp => ?_,
    ⟨b, hb, ?_⟩, hk.shift fun p hp => hx p (hlt p hp)⟩, ?_⟩
  · rw [accumulator_shift]
    exact hdrop
  · have hbelow := add_lt_add_left (hlim p hp) v.y
    rw [hy p (hlt p (Or.inl hp)), hy start hstart, add_right_comm]
    exact hbelow
  · have habove := add_le_add_left hstop v.y
    rw [hy b (hlt b (Or.inr (List.mem_of_mem_head? hb))), hy start hstart, add_right_comm]
    exact habove
  · rw [preceding_shift, addAll_shift (fun p hp => hx p (mem_preceding_lt hp)) m₀, hadd]
    rfl

include hS in
theorem horizontalLines_shift {lines : List Line} (h : (addPoints pts).horizontalLines S = some lines) :
    (addPoints (pts.map (·.shift v))).horizontalLines S = some lines ∧ ∀ p ∈ linePoints lines, p < pts.length := by
  obtain ⟨m, hm, h'⟩ := Option.bind_eq_some_iff.mp h
  obtain ⟨m₁, hm₁, -, hrows⟩ := horizontalLines_some (added_addPoints pts).linesHorizontal h
  obtain rfl := Option.some.inj (hm.symm.trans hm₁)
  constructor
  · refine Option.bind_eq_some_iff.mpr ⟨_, horizontalMap_shift hm, ?_⟩
    have hsort : (shiftKeys v.x m).values.map
          (sortLine S fun p => (position (addPoints (pts.map (·.shift v))).storage p).y) =
        m.values.map (sortLine S fun p => (position (addPoints pts).storage p).y) := by
      have hvalues : (shiftKeys v.x m).values = m.values.map id := m.values_shift
      rw [hvalues, List.map_id]
      refine List.map_congr_left fun l hl => sortLine_shift hS (d := v.y) fun p hp => ?_
      obtain ⟨e, he, rfl⟩ := List.mem_map.mp hl
      rw [position_shift (horizontalMap_lt hm p (mem_points.mpr ⟨e, he, hp⟩))]
      rfl
    rw [hsort, (added_addPoints _).linesHorizontal, ← (added_addPoints pts).linesHorizontal]
    exact h'
  · intro p hp
    rw [(sorted_linePoints_perm hrows).mem_iff] at hp
    exact horizontalMap_lt hm p hp

theorem verticalMaps_shift {lines : List Line} {s : VerticalMaps} (h : verticalMaps coord lines = some s)
    (hlines : ∀ p ∈ linePoints lines, coord' p = coord p + d) :
    verticalMaps coord' lines = some ⟨shiftKeys d s.odd, shiftKeys d s.even⟩ := by
  obtain ⟨s₀, hs₀, hodd, heven⟩ := verticalMaps_some.mp h
  obtain ⟨hlen, hko, hke⟩ := verticalKeyed_some.mp hs₀
  have hoff : ∀ {range : List ℤ} {c : ℤ}, ∀ p ∈ offered lines range c, coord' p = coord p + d := fun p hp =>
    hlines p (offered_mem_linePoints hp)
  refine verticalMaps_some.mpr ⟨⟨shiftKeys d s₀.odd, shiftKeys d s₀.even⟩, verticalKeyed_some.mpr ⟨hlen, ?_, ?_⟩, ?_, ?_⟩
  · exact hko.shift fun p hp => hp.elim (hoff p) (hoff p)
  · exact hke.shift fun p hp => hp.elim (hoff p) (hoff p)
  · rw [addAll_shift hoff s₀.odd, hodd]
    rfl
  · rw [addAll_shift hoff s₀.even, heven]
    rfl

/-- The merge compares keys with keys. -/
theorem mergeVertical_shift (odd even : List (ℚ × Line)) :
    mergeVertical (odd.map (OrdMap.shifted d id)) (even.map (OrdMap.shifted d id)) = mergeVertical odd even := by
  induction odd generalizing even with
  | nil =>
    show (even.map _).map _ = even.map _
    rw [List.map_map]
    rfl
  | cons o odd ih =>
    rw [List.map_cons]
    unfold mergeVertical
    induction even with
    | nil =>
      unfold mergeVertical.go
      rw [List.map_nil, ← ih [], List.map_nil]
      rfl
    | cons e even ihe =>
      rw [List.map_cons]
      unfold mergeVertical.go
      have hlt : (OrdMap.shifted d id o).1 < (OrdMap.shifted d id e).1 ↔ o.1 < e.1 := add_lt_add_iff_right d
      simp only [hlt]
      split_ifs
      · rw [← List.map_cons, ih]
        rfl
      · rw [ihe]
        rfl

/-- The points of the vertical maps are on the horizontal lines. -/
theorem verticalMaps_points {lines : List Line} {s : VerticalMaps} (h : verticalMaps coord lines = some s) :
    (∀ p ∈ points s.odd, p ∈ linePoints lines) ∧ ∀ p ∈ points s.even, p ∈ linePoints lines := by
  obtain ⟨s₀, hs₀, hodd, heven⟩ := verticalMaps_some.mp h
  obtain ⟨-, hko, hke⟩ := verticalKeyed_some.mp hs₀
  constructor
  · intro p hp
    exact offered_mem_linePoints (verticalKeyed_mem hko hodd hp).choose_spec
  · intro p hp
    exact offered_mem_linePoints (verticalKeyed_mem hke heven hp).choose_spec

/-- Sorting the values of a map under shifted keys. -/
theorem mapVal_shift {f g : Line → Line} {m : TmpLineMap} (h : ∀ e ∈ m.entries, g e.2 = f e.2) :
    ((shiftKeys d m).mapVal g).entries = (m.mapVal f).entries.map (OrdMap.shifted d id) := by
  rw [OrdMap.mapVal_entries, OrdMap.mapVal_entries, shiftKeys_entries, List.map_map, List.map_map]
  refine List.map_congr_left fun e he => ?_
  show (e.1 + d, g e.2) = (e.1 + d, f e.2)
  rw [h e he]

include hS in
theorem verticalLines_shift {hor vert : List Line} (h : verticalLines S (addPoints pts) hor = some vert)
    (hhor : ∀ p ∈ linePoints hor, p < pts.length) :
    verticalLines S (addPoints (pts.map (·.shift v))) hor = some vert := by
  obtain ⟨s, hs, h'⟩ := Option.bind_eq_some_iff.mp h
  have hy : ∀ p ∈ linePoints hor, (position (addPoints (pts.map (·.shift v))).storage p).y =
      (position (addPoints pts).storage p).y + v.y := fun p hp => by
    rw [position_shift (hhor p hp)]
    rfl
  have hsort : ∀ l : Line, (∀ p ∈ l.line, p ∈ linePoints hor) →
      sortLine S (fun p => (position (addPoints (pts.map (·.shift v))).storage p).x) l =
        sortLine S (fun p => (position (addPoints pts).storage p).x) l := fun l hl =>
    sortLine_shift hS (d := v.x) fun p hp => by
      rw [position_shift (hhor p (hl p hp))]
      rfl
  obtain ⟨hodd, heven⟩ := verticalMaps_points hs
  refine Option.bind_eq_some_iff.mpr ⟨_, verticalMaps_shift hs hy, ?_⟩
  dsimp only at h' ⊢
  rw [mapVal_shift fun e he => hsort e.2 fun p hp => hodd p (mem_points.mpr ⟨e, he, hp⟩),
    mapVal_shift fun e he => hsort e.2 fun p hp => heven p (mem_points.mpr ⟨e, he, hp⟩), mergeVertical_shift,
    (added_addPoints _).linesVertical, ← (added_addPoints pts).linesVertical]
  exact h'

end Lines

/-! ## Storage -/

def Point.shift (point : Point) (v : Point2f) : Point := { point with position := point.position.shift v }

/-- The storage with every point moved by `v`. -/
def StoreShifted (v : Point2f) (st st' : PointStore) : Prop := ∀ p, st'.lookup p = (st.lookup p).map (·.shift v)

section Storage

variable {v : Point2f} {pts : List Point2f} {st st' : PointStore}

theorem storeShifted_addPoints : StoreShifted v (addPoints pts).storage (addPoints (pts.map (·.shift v))).storage := by
  intro p
  rw [(added_addPoints _).lookup, (added_addPoints _).lookup, List.getElem?_map, Option.map_map, Option.map_map]
  rfl

theorem StoreShifted.clean (h : StoreShifted v st st') (hor vert : List Line) :
    StoreShifted v (cleanLines (linePoints vert) hor (cleanStorage (linePoints hor) st)).2
      (cleanLines (linePoints vert) hor (cleanStorage (linePoints hor) st')).2 := by
  intro p
  rw [lookup_cleanLines, lookup_cleanLines, lookup_cleanStorage, lookup_cleanStorage, h p]
  split_ifs
  · rfl
  · rfl
  · rfl

/-- A write through a pointer that leaves positions alone. -/
theorem StoreShifted.update {f : Point → Point} (hf : ∀ point : Point, f (point.shift v) = (f point).shift v)
    (h : StoreShifted v st st') {p : Ptr} {s : PointStore} (hu : update f st p = some s) :
    ∃ s', update f st' p = some s' ∧ StoreShifted v s s' := by
  obtain ⟨point, hp, rfl⟩ := update_some hu
  refine ⟨st'.insert p (f (point.shift v)), Option.bind_eq_some_iff.mpr ⟨point.shift v, ?_, rfl⟩, fun q => ?_⟩
  · rw [h p, hp]
    rfl
  · by_cases hq : q = p
    · subst hq
      rw [AList.lookup_insert, AList.lookup_insert, hf]
      rfl
    · rw [AList.lookup_insert_ne hq, AList.lookup_insert_ne hq]
      exact h q

theorem StoreShifted.foldlM_update {f : Point → Point} (hf : ∀ point : Point, f (point.shift v) = (f point).shift v)
    {ps : List Ptr} (h : StoreShifted v st st') {s : PointStore}
    (hu : ps.foldlM (PointGrid.update f) st = some s) :
    ∃ s', ps.foldlM (PointGrid.update f) st' = some s' ∧ StoreShifted v s s' := by
  induction ps generalizing st st' with
  | nil =>
    obtain rfl : st = s := Option.some.inj hu
    exact ⟨st', rfl, h⟩
  | cons p ps ih =>
    obtain ⟨s₁, h₁, hu⟩ := foldlM_cons_some.mp hu
    obtain ⟨s₁', h₁', hs₁⟩ := h.update hf h₁
    obtain ⟨s', hs', hs⟩ := ih hs₁ hu
    exact ⟨s', foldlM_cons_some.mpr ⟨s₁', h₁', hs'⟩, hs⟩

theorem StoreShifted.linkLines {set : ℕ → Point → Point}
    (hset : ∀ i (point : Point), set i (point.shift v) = (set i point).shift v) {lines : List Line} {i : ℕ}
    (h : StoreShifted v st st') {s : PointStore} (hl : linkLines set i lines st = some s) :
    ∃ s', PointGrid.linkLines set i lines st' = some s' ∧ StoreShifted v s s' := by
  induction lines generalizing i st st' with
  | nil =>
    obtain rfl : st = s := Option.some.inj hl
    exact ⟨st', rfl, h⟩
  | cons l ls ih =>
    obtain ⟨s₁, h₁, hl⟩ := Option.bind_eq_some_iff.mp hl
    obtain ⟨s₁', h₁', hs₁⟩ := h.foldlM_update (hset i) h₁
    obtain ⟨s', hs', hs⟩ := ih hs₁ hl
    exact ⟨s', Option.bind_eq_some_iff.mpr ⟨s₁', h₁', hs'⟩, hs⟩

end Storage

/-! ## `finalize` -/

/-- The same lines over the same addresses, with every stored point moved by `v`. -/
structure ShiftedBy (v : Point2f) (g g' : PointGrid) : Prop where
  accumulator : g'.accumulator = g.accumulator
  storage : StoreShifted v g.storage g'.storage
  linesHorizontal : g'.linesHorizontal = g.linesHorizontal
  linesVertical : g'.linesVertical = g.linesVertical

theorem finalize_shift_some {S : StdSort} (hS : S.Local) {pts : List Point2f} (v : Point2f) {g : PointGrid}
    (h : (addPoints pts).finalize S = some g) :
    ∃ g', (addPoints (pts.map (·.shift v))).finalize S = some g' ∧ ShiftedBy v g g' := by
  obtain ⟨hor, hhor, h⟩ := Option.bind_eq_some_iff.mp h
  obtain ⟨vert, hvert, h⟩ := Option.bind_eq_some_iff.mp h
  obtain ⟨st₁, h₁, h⟩ := Option.bind_eq_some_iff.mp h
  obtain ⟨st₂, h₂, h⟩ := Option.bind_eq_some_iff.mp h
  obtain rfl := Option.some.inj h
  obtain ⟨hhor', hlt⟩ := horizontalLines_shift hS (v := v) hhor
  have hvert' := verticalLines_shift hS (v := v) hvert hlt
  -- the clean-up removes the same points, and links are written to the same ones
  obtain ⟨st₁', h₁', hs₁⟩ := (storeShifted_addPoints.clean hor vert).linkLines (fun _ _ => rfl) h₁
  have hlines : ∀ st : PointStore, (cleanLines (linePoints vert) hor st).1 = hor.map (cleaned (linePoints vert)) :=
    cleanLines_fst (linePoints vert) hor
  rw [hlines] at h₂
  obtain ⟨st₂', h₂', hs₂⟩ := hs₁.linkLines (fun _ _ => rfl) h₂
  refine ⟨⟨(addPoints (pts.map (·.shift v))).accumulator, st₂', hor.map (cleaned (linePoints vert)), vert⟩, ?_, ?_⟩
  · refine Option.bind_eq_some_iff.mpr ⟨hor, hhor', Option.bind_eq_some_iff.mpr ⟨vert, hvert', ?_⟩⟩
    refine Option.bind_eq_some_iff.mpr ⟨st₁', h₁', Option.bind_eq_some_iff.mpr ⟨st₂', ?_, ?_⟩⟩
    · rw [hlines]
      exact h₂'
    · rw [hlines]
      rfl
  · refine ⟨accumulator_shift, hs₂, ?_, rfl⟩
    rw [hlines]

theorem finalize_shift_none {S : StdSort} (hS : S.Local) {pts : List Point2f} (v : Point2f)
    (h : (addPoints pts).finalize S = none) : (addPoints (pts.map (·.shift v))).finalize S = none := by
  -- moving back gives the points themselves
  have hback : (pts.map (·.shift v)).map (·.shift ⟨-v.x, -v.y⟩) = pts := by
    rw [List.map_map]
    refine (List.map_congr_left fun p _ => ?_).trans (List.map_id pts)
    show (⟨p.x + v.x + -v.x, p.y + v.y + -v.y⟩ : Point2f) = p
    rw [add_neg_cancel_right, add_neg_cancel_right]
  by_contra hsome
  obtain ⟨g', hg'⟩ := Option.ne_none_iff_exists'.mp hsome
  obtain ⟨g, hg, -⟩ := finalize_shift_some hS ⟨-v.x, -v.y⟩ hg'
  rw [hback, h] at hg
  cases hg

/-- **Where the lenses lie does not matter**: over points moved by `v`, `finalize` joins the same points to
the same lines, and it is undefined iff it is over the points themselves. -/
theorem finalize_shift (S : StdSort) (hS : S.Local) (pts : List Point2f) (v : Point2f) :
    (∀ g, (addPoints pts).finalize S = some g →
      ∃ g', (addPoints (pts.map (·.shift v))).finalize S = some g' ∧ ShiftedBy v g g') ∧
    ((addPoints pts).finalize S = none → (addPoints (pts.map (·.shift v))).finalize S = none) :=
  ⟨fun _ h => finalize_shift_some hS v h, finalize_shift_none hS v⟩

theorem finalize_shift_squareGrid :
    (∀ g, (addPoints squareGrid).finalize .insertion = some g →
      ∃ g', (addPoints (squareGrid.map (·.shift ⟨5, -7⟩))).finalize .insertion = some g' ∧ ShiftedBy ⟨5, -7⟩ g g') ∧
    ((addPoints squareGrid).finalize .insertion = none →
      (addPoints (squareGrid.map (·.shift ⟨5, -7⟩))).finalize .insertion = none) :=
  finalize_shift .insertion StdSort.insertion_local squareGrid ⟨5, -7⟩

end PointGrid

end Lyli.Calibration
