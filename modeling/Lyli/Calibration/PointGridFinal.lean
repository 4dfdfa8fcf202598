import Mathlib
import Lyli.Calibration.PointGridPhases

/-!
# What `finalize` returns

The finished lines in terms of the swept maps (`horizontalLines_some`,
`verticalLines_some`), the points that stay in storage and the links
(`finalize_some`).  A point stays iff some horizontal and some vertical line
holds it; its link is the index of the last line that holds it.
-/

namespace Lyli.Calibration.PointGrid

variable {R : Rounding}

open scoped List

/-! ## Adding points -/

theorem lt_foldr_max {keys : List Ptr} {p : Ptr} (h : p ∈ keys) : p < keys.foldr (fun p n => max (p + 1) n) 0 := by
  induction keys with
  | nil => cases h
  | cons a l ih =>
    rw [List.foldr_cons]
    rcases List.mem_cons.mp h with rfl | h
    · exact lt_max_of_lt_left (Nat.lt_succ_self p)
    · exact lt_max_of_lt_right (ih h)

theorem mem_keys_lt_fresh {st : PointStore} {p : Ptr} (h : p ∈ st.keys) : p < fresh st := lt_foldr_max h

theorem fresh_le {st : PointStore} {n : ℕ} (h : ∀ p ∈ st.keys, p < n) : fresh st ≤ n := by
  unfold fresh
  generalize st.keys = keys at h
  induction keys with
  | nil => exact Nat.zero_le n
  | cons a l ih =>
    rw [List.foldr_cons]
    exact max_le (h a List.mem_cons_self) (ih fun p hp => h p (List.mem_cons_of_mem _ hp))

/-- The `k`-th point added lives at address `k`. -/
structure Added (pts : List Point2f) (g : PointGrid) : Prop where
  accumulator : g.accumulator = List.range pts.length
  lookup : ∀ p : Ptr, g.storage.lookup p = pts[p]?.map fun pt => ⟨pt, 0, 0⟩
  linesHorizontal : g.linesHorizontal = []
  linesVertical : g.linesVertical = []

theorem added_addPoint {pts : List Point2f} {g : PointGrid} (h : Added pts g) (pt : Point2f) :
    Added (pts ++ [pt]) (g.addPoint pt) := by
  have hkey : ∀ p, p ∈ g.storage.keys ↔ p < pts.length := by
    intro p
    rw [← AList.mem_keys, ← AList.lookup_isSome, h.lookup]
    simp
  have hfresh : fresh g.storage = pts.length := by
    apply le_antisymm (fresh_le fun p hp => (hkey p).mp hp)
    cases hn : pts.length with
    | zero => exact Nat.zero_le _
    | succ n => exact mem_keys_lt_fresh ((hkey n).mpr (hn ▸ Nat.lt_succ_self n))
  refine ⟨?_, ?_, h.linesHorizontal, h.linesVertical⟩
  · show g.accumulator ++ [fresh g.storage] = _
    rw [h.accumulator, hfresh, List.length_append, List.length_singleton, List.range_succ]
  · intro p
    show (g.storage.insert (fresh g.storage) ⟨pt, 0, 0⟩).lookup p = _
    rw [hfresh]
    by_cases hp : p = pts.length
    · subst hp
      rw [AList.lookup_insert]
      simp
    · rw [AList.lookup_insert_ne hp, h.lookup]
      rcases Nat.lt_or_ge p pts.length with hlt | hge
      · rw [List.getElem?_append_left hlt]
      · have hgt : pts.length + 1 ≤ p := lt_of_le_of_ne hge (Ne.symm hp)
        rw [List.getElem?_eq_none hge, List.getElem?_eq_none (by simpa using hgt)]

theorem added_addPoints (pts : List Point2f) : Added pts (addPoints pts) := by
  induction pts using List.reverseRecOn with
  | nil => exact ⟨rfl, fun p => by simp [addPoints, empty], rfl, rfl⟩
  | append_singleton pts pt ih =>
    have : addPoints (pts ++ [pt]) = (addPoints pts).addPoint pt := by
      unfold addPoints
      rw [List.foldl_append]
      rfl
    rw [this]
    exact added_addPoint ih pt

theorem position_addPoints {pts : List Point2f} {p : Ptr} {pt : Point2f} (h : pts[p]? = some pt) :
    position (addPoints pts).storage p = pt := by
  unfold position
  rw [(added_addPoints pts).lookup, h]
  rfl

/-! ## Finished lines -/

/-- Number of lines that hold `x`. -/
def lineHolders (lines : List Line) (x : Ptr) : ℕ := lines.countP fun l => x ∈ l.line

theorem linePoints_perm {ls ls' : List Line} (h : ls.Perm ls') : (linePoints ls).Perm (linePoints ls') :=
  h.flatMap_right _

@[simp] theorem linePoints_append (ls ls' : List Line) : linePoints (ls ++ ls') = linePoints ls ++ linePoints ls' := by
  simp [linePoints]

theorem mem_linePoints {ls : List Line} {x : Ptr} : x ∈ linePoints ls ↔ ∃ l ∈ ls, x ∈ l.line := by
  simp [linePoints]

theorem lineHolders_pos {ls : List Line} {x : Ptr} : 0 < lineHolders ls x ↔ x ∈ linePoints ls := by
  unfold lineHolders
  rw [List.countP_pos_iff, mem_linePoints]
  simp

def parityGrid (i : ℕ) : SubGrid := if i % 2 = 0 then .subgridA else .subgridB

theorem foldl_pushHorizontal_line (ls acc : List Line) :
    (ls.foldl pushHorizontal acc).map (·.line) = acc.map (·.line) ++ ls.map (·.line) := by
  induction ls generalizing acc with
  | nil => simp
  | cons l ls ih =>
    rw [List.foldl_cons, ih]
    simp [pushHorizontal]

/-- Lines are labelled A, B, A, … by index. -/
def Alternating (lines : List Line) : Prop := ∀ i l, lines[i]? = some l → l.subgrid = parityGrid i

theorem alternating_foldl (ls acc : List Line) (h : Alternating acc) : Alternating (ls.foldl pushHorizontal acc) := by
  induction ls generalizing acc with
  | nil => exact h
  | cons l ls ih =>
    rw [List.foldl_cons]
    apply ih _
    intro i l' hl'
    unfold pushHorizontal at hl'
    rcases Nat.lt_trichotomy i acc.length with hi | rfl | hi
    · rw [List.getElem?_append_left hi] at hl'
      exact h i l' hl'
    · rw [List.getElem?_concat_length] at hl'
      obtain rfl := Option.some.inj hl'
      simp only [Nat.and_one_is_mod, parityGrid]
    · rw [List.getElem?_eq_none (by simp; omega)] at hl'
      cases hl'

@[simp] theorem sortLine_line (S : StdSort) (coord : Ptr → ℚ) (l : Line) :
    (sortLine S coord l).line = S.sort (fun a b => decide (coord a < coord b)) l.line := rfl

/-- **The horizontal lines** are the swept lines, sorted by `y` and labelled alternately. -/
theorem horizontalLines_some {S : StdSort} {g : PointGrid} (hg : g.linesHorizontal = []) {lines : List Line}
    (h : g.horizontalLines S = some lines) :
    ∃ m, g.horizontalMap = some m ∧ Alternating lines ∧
      lines.map (·.line) =
        m.values.map fun l => (sortLine S (fun p => (position g.storage p).y) l).line := by
  obtain ⟨m, hm, h⟩ := Option.bind_eq_some_iff.mp h
  obtain rfl := Option.some.inj h
  refine ⟨m, hm, alternating_foldl _ _ ?_, ?_⟩
  · rw [hg]
    intro i l hl
    cases hl
  · rw [foldl_pushHorizontal_line, hg, List.map_map]
    rfl

theorem horizontalLines_ne_none {S : StdSort} {g : PointGrid} {m : TmpLineMap} (h : g.horizontalMap = some m) :
    ∃ lines, g.horizontalLines S = some lines :=
  ⟨_, Option.bind_eq_some_iff.mpr ⟨m, h, rfl⟩⟩

/-- Points and holders of lines depend only on the points of each line. -/
theorem linePoints_eq_flatten (ls : List Line) : linePoints ls = (ls.map (·.line)).flatten := by
  unfold linePoints
  rw [List.flatMap_def]

theorem lineHolders_eq_countP (ls : List Line) (x : Ptr) :
    lineHolders ls x = (ls.map (·.line)).countP fun row => x ∈ row := by
  unfold lineHolders
  rw [List.countP_map]
  rfl

section Horizontal

variable {S : StdSort} {coord : Ptr → ℚ} {m : TmpLineMap} {lines : List Line}
  (h : lines.map (·.line) = m.values.map fun l => (sortLine S coord l).line)

include h

theorem sorted_linePoints_perm : (linePoints lines).Perm (points m) := by
  rw [linePoints_eq_flatten, h, ← List.flatMap_def, points_eq_values]
  exact List.Perm.flatMap_left _ fun l _ => S.perm _ l.line

theorem sorted_lineHolders (x : Ptr) : lineHolders lines x = holders m x := by
  rw [lineHolders_eq_countP, h, List.countP_map, holders_eq_values]
  exact List.countP_congr fun l _ => by simp

theorem sorted_rows : ∀ row ∈ lines.map (·.line), row.Pairwise fun a b => coord a ≤ coord b := by
  rw [h]
  intro row hrow
  obtain ⟨l, -, rfl⟩ := List.mem_map.mp hrow
  exact S.sort_key_pairwise coord l.line

end Horizontal

/-! ## Merge of the vertical maps -/

def labelled (s : SubGrid) (e : ℚ × Line) : Line := { e.2 with subgrid := s }

theorem mergeVertical_perm (odd even : List (ℚ × Line)) :
    (mergeVertical odd even).Perm (odd.map (labelled .subgridA) ++ even.map (labelled .subgridB)) := by
  induction odd generalizing even with
  | nil => exact List.Perm.refl _
  | cons o odd ih =>
    unfold mergeVertical
    induction even with
    | nil => exact (ih []).cons (labelled .subgridA o)
    | cons e even ihe =>
      unfold mergeVertical.go
      split_ifs with hlt
      · exact (ih (e :: even)).cons (labelled .subgridA o)
      · refine (ihe.cons (labelled .subgridB e)).trans ?_
        rw [List.map_cons, List.map_cons]
        exact (List.perm_middle : ((labelled .subgridA o :: odd.map (labelled .subgridA)) ++
          labelled .subgridB e :: even.map (labelled .subgridB)).Perm _).symm

/-- **The vertical lines** are the swept lines of both maps, sorted by `x` and labelled by map. -/
theorem verticalLines_some {S : StdSort} {g : PointGrid} (hg : g.linesVertical = []) {lines vert : List Line}
    (h : verticalLines S g lines = some vert) :
    ∃ s, verticalMaps (fun p => (position g.storage p).y) lines = some s ∧
      vert.Perm ((s.odd.entries.map fun e =>
          { sortLine S (fun p => (position g.storage p).x) e.2 with subgrid := .subgridA }) ++
        s.even.entries.map fun e =>
          { sortLine S (fun p => (position g.storage p).x) e.2 with subgrid := .subgridB }) := by
  obtain ⟨s, hs, h⟩ := Option.bind_eq_some_iff.mp h
  obtain rfl := Option.some.inj h
  refine ⟨s, hs, ?_⟩
  have hp := mergeVertical_perm (s.odd.mapVal (sortLine S fun p => (position g.storage p).x)).entries
    (s.even.mapVal (sortLine S fun p => (position g.storage p).x)).entries
  rw [hg, List.nil_append]
  simpa only [OrdMap.mapVal_entries, List.map_map, Function.comp_def, labelled] using hp

theorem verticalLines_ne_none {S : StdSort} {g : PointGrid} {lines : List Line} {s : VerticalMaps}
    (h : verticalMaps (fun p => (position g.storage p).y) lines = some s) :
    ∃ vert, verticalLines S g lines = some vert :=
  ⟨_, Option.bind_eq_some_iff.mpr ⟨s, h, rfl⟩⟩

section Vertical

variable {S : StdSort} {coord : Ptr → ℚ} {s : VerticalMaps} {vert : List Line}
  (h : vert.Perm ((s.odd.entries.map fun e => { sortLine S coord e.2 with subgrid := .subgridA }) ++
        s.even.entries.map fun e => { sortLine S coord e.2 with subgrid := .subgridB }))

include h

theorem vertical_linePoints_perm : (linePoints vert).Perm (points s.odd ++ points s.even) := by
  refine (linePoints_perm h).trans ?_
  rw [linePoints_append]
  have hpoints : ∀ (m : TmpLineMap) (g : SubGrid),
      (linePoints (m.entries.map fun e => { sortLine S coord e.2 with subgrid := g })).Perm (points m) := by
    intro m g
    unfold linePoints points
    rw [List.flatMap_map]
    exact List.Perm.flatMap_left _ fun e _ => S.perm _ e.2.line
  exact (hpoints _ _).append (hpoints _ _)

theorem vertical_lineHolders (x : Ptr) : lineHolders vert x = holders s.odd x + holders s.even x := by
  have hcount : ∀ (m : TmpLineMap) (g : SubGrid),
      lineHolders (m.entries.map fun e => { sortLine S coord e.2 with subgrid := g }) x = holders m x := by
    intro m g
    unfold lineHolders holders
    rw [List.countP_map]
    exact List.countP_congr fun e _ => by simp
  have hp : lineHolders vert x = lineHolders _ x := h.countP_eq _
  rw [hp, ← hcount s.odd .subgridA, ← hcount s.even .subgridB]
  unfold lineHolders
  rw [List.countP_append]

end Vertical

/-! ## Clean-up -/

theorem lookup_cleanStorage (testPoints : List Ptr) (st : PointStore) (p : Ptr) :
    (cleanStorage testPoints st).lookup p = if p ∈ testPoints then st.lookup p else none := by
  -- after the keys `done`, exactly those of them outside `testPoints` are gone
  have go : ∀ (keys : List Ptr) (s : PointStore),
      (keys.foldl (fun st p => if p ∈ testPoints then st else st.erase p) s).lookup p =
        if p ∈ keys ∧ p ∉ testPoints then none else s.lookup p := by
    intro keys
    induction keys with
    | nil => intro s; simp
    | cons k keys ih =>
      intro s
      rw [List.foldl_cons, ih]
      by_cases hpk : p = k
      · subst hpk
        by_cases hp : p ∈ testPoints
        · simp [hp]
        · simp [hp, AList.lookup_erase]
      · have hlook : (if k ∈ testPoints then s else s.erase k).lookup p = s.lookup p := by
          split_ifs
          · rfl
          · exact AList.lookup_erase_ne hpk
        rw [hlook]
        simp [hpk]
  unfold cleanStorage
  rw [go]
  by_cases hp : p ∈ testPoints
  · simp [hp]
  · by_cases hk : p ∈ st.keys
    · simp [hp, hk]
    · have hn : st.lookup p = none := AList.lookup_eq_none.mpr hk
      simp [hp, hn]

theorem cleanLine_fst (testPoints ps : List Ptr) (st : PointStore) :
    (cleanLine testPoints ps st).1 = ps.filter (· ∈ testPoints) := by
  induction ps generalizing st with
  | nil => rfl
  | cons p ps ih =>
    unfold cleanLine
    by_cases hp : p ∈ testPoints
    · simp [hp, ih]
    · simp [hp, ih]

theorem lookup_cleanLine (testPoints ps : List Ptr) (st : PointStore) (p : Ptr) :
    (cleanLine testPoints ps st).2.lookup p = if p ∈ ps ∧ p ∉ testPoints then none else st.lookup p := by
  induction ps generalizing st with
  | nil => simp [cleanLine]
  | cons k ps ih =>
    unfold cleanLine
    by_cases hk : k ∈ testPoints
    · rw [if_pos hk, ih]
      by_cases hpk : p = k
      · subst hpk
        simp [hk]
      · simp [hpk]
    · rw [if_neg hk, ih]
      by_cases hpk : p = k
      · subst hpk
        simp [hk, AList.lookup_erase]
      · rw [AList.lookup_erase_ne hpk]
        simp [hpk]

/-- A horizontal line without the points that no vertical line holds. -/
def cleaned (testPoints : List Ptr) (l : Line) : Line := { l with line := l.line.filter (· ∈ testPoints) }

theorem cleanLines_fst (testPoints : List Ptr) (lines : List Line) (st : PointStore) :
    (cleanLines testPoints lines st).1 = lines.map (cleaned testPoints) := by
  induction lines generalizing st with
  | nil => rfl
  | cons l ls ih =>
    unfold cleanLines
    simp only [List.map_cons, ih, cleaned, cleanLine_fst]

theorem lookup_cleanLines (testPoints : List Ptr) (lines : List Line) (st : PointStore) (p : Ptr) :
    (cleanLines testPoints lines st).2.lookup p =
      if p ∈ linePoints lines ∧ p ∉ testPoints then none else st.lookup p := by
  induction lines generalizing st with
  | nil => simp [cleanLines, linePoints]
  | cons l ls ih =>
    unfold cleanLines
    simp only [ih, lookup_cleanLine]
    have hmem : p ∈ linePoints (l :: ls) ↔ p ∈ l.line ∨ p ∈ linePoints ls := by simp [linePoints]
    simp only [hmem]
    by_cases h₁ : p ∈ linePoints ls
    · by_cases hp : p ∈ testPoints
      · simp [hp]
      · simp [h₁, hp]
    · simp [h₁]

/-! ## Links -/

section Links

variable {α : Type} {set : ℕ → Point → Point}

theorem update_some {f : Point → Point} {st st' : PointStore} {p : Ptr} (h : update f st p = some st') :
    ∃ point, st.lookup p = some point ∧ st' = st.insert p (f point) := by
  obtain ⟨point, hp, h⟩ := Option.bind_eq_some_iff.mp h
  exact ⟨point, hp, (Option.some.inj h).symm⟩

/-- A part of the points that an update leaves alone. -/
theorem lookup_update_keep {f : Point → Point} {get : Point → α} (hget : ∀ pt, get (f pt) = get pt)
    {st st' : PointStore} {p : Ptr} (h : update f st p = some st') (x : Ptr) :
    (st'.lookup x).map get = (st.lookup x).map get := by
  obtain ⟨point, hp, rfl⟩ := update_some h
  by_cases hx : x = p
  · subst hx
    rw [AList.lookup_insert, hp]
    simp [hget]
  · rw [AList.lookup_insert_ne hx]

theorem lookup_update_ne {f : Point → Point} {st st' : PointStore} {p x : Ptr} (h : update f st p = some st')
    (hx : x ≠ p) : st'.lookup x = st.lookup x := by
  obtain ⟨point, -, rfl⟩ := update_some h
  exact AList.lookup_insert_ne hx

/-- What every update of a point of the lines preserves. -/
theorem linkLines_inv {P : PointStore → Prop} {lines : List Line} {i : ℕ} {st st' : PointStore}
    (h : linkLines set i lines st = some st') (hst : P st)
    (hstep : ∀ i, ∀ p ∈ linePoints lines, ∀ s s', P s → update (set i) s p = some s' → P s') : P st' := by
  induction lines generalizing i st with
  | nil =>
    obtain rfl : st = st' := Option.some.inj h
    exact hst
  | cons l ls ih =>
    obtain ⟨st₁, h₁, h⟩ := Option.bind_eq_some_iff.mp h
    apply ih h
    · refine foldlM_inv (fun _ s => P s) hst ?_ h₁
      intro done p rest s s' hl hs hu
      exact hstep i p (by simp [linePoints, hl]) s s' hs hu
    · intro i p hp
      have hmem : p ∈ linePoints (l :: ls) := by
        simp only [linePoints, List.flatMap_cons, List.mem_append] at hp ⊢
        exact Or.inr hp
      exact hstep i p hmem

theorem lookup_linkLines_keep {lines : List Line} {i : ℕ} {st st' : PointStore}
    (h : linkLines set i lines st = some st') (get : Point → α) (hget : ∀ i pt, get (set i pt) = get pt) (x : Ptr) :
    (st'.lookup x).map get = (st.lookup x).map get := by
  refine linkLines_inv (P := fun s => (s.lookup x).map get = (st.lookup x).map get) h rfl ?_
  intro i p _ s s' hs hu
  exact (lookup_update_keep (hget i) hu x).trans hs

theorem lookup_linkLines_notMem {lines : List Line} {i : ℕ} {st st' : PointStore}
    (h : linkLines set i lines st = some st') {x : Ptr} (hx : x ∉ linePoints lines) :
    st'.lookup x = st.lookup x := by
  refine linkLines_inv (P := fun s => s.lookup x = st.lookup x) h rfl ?_
  intro i p hp s s' hs hu
  have hne : x ≠ p := by
    rintro rfl
    exact hx hp
  rw [lookup_update_ne hu hne, hs]

/-- The link written is the index of the line, for a point on one line only. -/
theorem lookup_linkLines_self {lines : List Line} {i : ℕ} {st st' : PointStore}
    (h : linkLines set i lines st = some st') (get : Point → ℕ) (hget : ∀ i pt, get (set i pt) = i) {x : Ptr}
    (hone : lineHolders lines x ≤ 1) {j : ℕ} {l : Line} (hl : lines[j]? = some l) (hx : x ∈ l.line) :
    (st'.lookup x).map get = some (i + j) := by
  induction lines generalizing i st j with
  | nil => cases hl
  | cons a ls ih =>
    obtain ⟨st₁, h₁, h⟩ := Option.bind_eq_some_iff.mp h
    have hcount : lineHolders (a :: ls) x = lineHolders ls x + if x ∈ a.line then 1 else 0 := by
      simp [lineHolders, List.countP_cons]
    cases j with
    | zero =>
      obtain rfl := Option.some.inj hl
      rw [hcount, if_pos hx] at hone
      have hnot : x ∉ linePoints ls := fun hmem => by
        have := lineHolders_pos.mpr hmem
        omega
      rw [lookup_linkLines_notMem h hnot, Nat.add_zero]
      refine foldlM_inv (fun done s => x ∈ done → (s.lookup x).map get = some i) (by simp) ?_ h₁ hx
      intro done b rest s s' _ hs hu hxb
      obtain ⟨point, hp, rfl⟩ := update_some hu
      by_cases hxa : x = b
      · subst hxa
        rw [AList.lookup_insert]
        simp [hget]
      · rw [AList.lookup_insert_ne hxa]
        rcases List.mem_append.mp hxb with hxb | hxb
        · exact hs hxb
        · exact absurd (List.mem_singleton.mp hxb) hxa
    | succ j =>
      have hpos : 0 < lineHolders ls x :=
        lineHolders_pos.mpr (mem_linePoints.mpr ⟨l, List.mem_of_getElem? hl, hx⟩)
      rw [ih h (by omega) hl]
      congr 1
      omega

theorem mem_linkLines {lines : List Line} {i : ℕ} {st st' : PointStore}
    (h : linkLines set i lines st = some st') (x : Ptr) : x ∈ st' ↔ x ∈ st := by
  have hk := lookup_linkLines_keep h (fun _ => ()) (fun _ _ => rfl) x
  rw [← AList.lookup_isSome, ← AList.lookup_isSome, ← Option.isSome_map (f := fun _ : Point => ()), hk, Option.isSome_map]

/-- Links can be written when every point is still stored. -/
theorem linkLines_ne_none (set : ℕ → Point → Point) (i : ℕ) {lines : List Line} {st : PointStore}
    (h : ∀ x ∈ linePoints lines, x ∈ st) : ∃ st', linkLines set i lines st = some st' := by
  induction lines generalizing i st with
  | nil => exact ⟨st, rfl⟩
  | cons l ls ih =>
    have hl : ∀ x ∈ l.line, x ∈ st := fun x hx => h x (by simp [linePoints, hx])
    obtain ⟨st₁, h₁, hmem⟩ := foldlM_total (f := update (set i)) (l := l.line) (b := st)
      (fun _ s => ∀ x, x ∈ s ↔ x ∈ st) (fun _ => Iff.rfl) fun done a rest s hsplit hs => by
        have ha : a ∈ s := (hs a).mpr (hl a (hsplit ▸ by simp))
        obtain ⟨point, hp⟩ := Option.isSome_iff_exists.mp (AList.lookup_isSome.mpr ha)
        refine ⟨s.insert a (set i point), Option.bind_eq_some_iff.mpr ⟨point, hp, rfl⟩, fun x => ?_⟩
        rw [AList.mem_insert, hs]
        constructor
        · rintro (rfl | hx)
          · exact (hs x).mp ha
          · exact hx
        · exact Or.inr
    have hrest : ∀ x ∈ linePoints ls, x ∈ st₁ := by
      intro x hx
      obtain ⟨l', hl', hx⟩ := mem_linePoints.mp hx
      exact (hmem x).mpr (h x (mem_linePoints.mpr ⟨l', List.mem_cons_of_mem _ hl', hx⟩))
    obtain ⟨st', h'⟩ : ∃ st', linkLines set (i + 1) ls st₁ = some st' := ih (i + 1) hrest
    exact ⟨st', Option.bind_eq_some_iff.mpr ⟨st₁, h₁, h'⟩⟩

end Links

/-! ## `finalize` -/

/-- What `finalize` makes of a grid: `hor` and `vert` are the lines before the clean-up. -/
structure Finalized [Rounding] (S : StdSort) (g g' : PointGrid) (hor vert : List Line) : Prop where
  horizontal : g.horizontalLines S = some hor
  vertical : verticalLines S g hor = some vert
  linesHorizontal : g'.linesHorizontal = hor.map (cleaned (linePoints vert))
  linesVertical : g'.linesVertical = vert
  /-- a point stays iff it is on a horizontal and on a vertical line -/
  stored : ∀ x, x ∈ g'.storage ↔ x ∈ g.storage ∧ x ∈ linePoints hor ∧ x ∈ linePoints vert
  position : ∀ x ∈ g'.storage, position g'.storage x = position g.storage x
  horizontalLink : ∀ x i l, lineHolders g'.linesHorizontal x ≤ 1 → g'.linesHorizontal[i]? = some l → x ∈ l.line →
    g'.horizontalLineIndex x = some i
  verticalLink : ∀ x j l, lineHolders g'.linesVertical x ≤ 1 → g'.linesVertical[j]? = some l → x ∈ l.line →
    g'.verticalLineIndex x = some j

theorem finalize_some {S : StdSort} {g g' : PointGrid} (h : g.finalize S = some g') :
    ∃ hor vert, Finalized S g g' hor vert := by
  obtain ⟨hor, hhor, h⟩ := Option.bind_eq_some_iff.mp h
  obtain ⟨vert, hvert, h⟩ := Option.bind_eq_some_iff.mp h
  obtain ⟨st₁, h₁, h⟩ := Option.bind_eq_some_iff.mp h
  obtain ⟨st₂, h₂, h⟩ := Option.bind_eq_some_iff.mp h
  obtain rfl := Option.some.inj h
  have hlines := cleanLines_fst (linePoints vert) hor (cleanStorage (linePoints hor) g.storage)
  have hclean : ∀ x, (cleanLines (linePoints vert) hor (cleanStorage (linePoints hor) g.storage)).2.lookup x =
      if x ∈ linePoints hor ∧ x ∈ linePoints vert then g.storage.lookup x else none := by
    intro x
    rw [lookup_cleanLines, lookup_cleanStorage]
    by_cases hx : x ∈ linePoints hor
    · by_cases hv : x ∈ linePoints vert
      · simp [hx, hv]
      · simp [hx, hv]
    · simp [hx]
  refine ⟨hor, vert, hhor, hvert, hlines, rfl, ?_, ?_, ?_, ?_⟩
  · intro x
    show x ∈ st₂ ↔ _
    rw [mem_linkLines h₂, mem_linkLines h₁, ← AList.lookup_isSome, hclean, ← AList.lookup_isSome]
    by_cases hx : x ∈ linePoints hor ∧ x ∈ linePoints vert
    · simp [hx]
    · simp [hx]
  · intro x hx
    have hpos : ∀ st : PointStore, position st x = ((st.lookup x).map (·.position)).getD ⟨0, 0⟩ := by
      intro st
      unfold position
      cases st.lookup x <;> rfl
    have hin : x ∈ linePoints hor ∧ x ∈ linePoints vert := by
      have hx₂ : x ∈ st₂ := hx
      rw [mem_linkLines h₂, mem_linkLines h₁, ← AList.lookup_isSome, hclean] at hx₂
      by_contra hn
      rw [if_neg hn] at hx₂
      cases hx₂
    rw [hpos, hpos, lookup_linkLines_keep h₂ (·.position) (fun _ _ => rfl),
      lookup_linkLines_keep h₁ (·.position) (fun _ _ => rfl), hclean, if_pos hin]
  · intro x i l hone hl hx
    have := lookup_linkLines_self h₂ (·.horizontalLine) (fun _ _ => rfl) hone hl hx
    rwa [Nat.zero_add] at this
  · intro x j l hone hl hx
    show (st₂.lookup x).map (·.verticalLine) = some j
    rw [lookup_linkLines_keep h₂ (·.verticalLine) (fun _ _ => rfl),
      lookup_linkLines_self h₁ (·.verticalLine) (fun _ _ => rfl) hone hl hx, Nat.zero_add]

/-- `finalize` is defined as soon as both line lists are and no line holds a point that is not stored. -/
theorem finalize_ne_none {S : StdSort} {g : PointGrid} {hor vert : List Line} (hhor : g.horizontalLines S = some hor)
    (hvert : verticalLines S g hor = some vert)
    (hstored : ∀ x ∈ linePoints vert, x ∈ linePoints hor ∧ x ∈ g.storage) : ∃ g', g.finalize S = some g' := by
  let cleanedLines := cleanLines (linePoints vert) hor (cleanStorage (linePoints hor) g.storage)
  have hkept : ∀ x ∈ linePoints vert, x ∈ cleanedLines.2 := by
    intro x hx
    obtain ⟨hh, hs⟩ := hstored x hx
    rw [← AList.lookup_isSome, lookup_cleanLines, if_neg (fun h => h.2 hx), lookup_cleanStorage, if_pos hh,
      AList.lookup_isSome]
    exact hs
  obtain ⟨st₁, h₁⟩ := linkLines_ne_none setVertical 0 hkept
  obtain ⟨st₂, h₂⟩ := linkLines_ne_none setHorizontal 0 <| show ∀ x ∈ linePoints cleanedLines.1, x ∈ st₁ by
    intro x hx
    rw [mem_linkLines h₁]
    obtain ⟨l, hl, hxl⟩ := mem_linePoints.mp hx
    rw [cleanLines_fst] at hl
    obtain ⟨l₀, -, rfl⟩ := List.mem_map.mp hl
    exact hkept x (by simpa using List.of_mem_filter hxl)
  refine ⟨{ g with storage := st₂, linesHorizontal := cleanedLines.1, linesVertical := vert }, ?_⟩
  refine Option.bind_eq_some_iff.mpr ⟨hor, hhor, Option.bind_eq_some_iff.mpr ⟨vert, hvert, ?_⟩⟩
  exact Option.bind_eq_some_iff.mpr ⟨st₁, h₁, Option.bind_eq_some_iff.mpr ⟨st₂, h₂, rfl⟩⟩

end Lyli.Calibration.PointGrid
