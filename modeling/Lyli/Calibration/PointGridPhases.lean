import Mathlib
import Lyli.Calibration.PointGridSweep

/-!
# The phases of `finalize`

Each phase of `finalize` is brought to passes over three maps: the horizontal
one, and the odd and even vertical ones, which never meet
(`verticalLineConstructor_some`).  `offered lines range c` lists the points that
a range of horizontal lines offers to the map of parity `c`.

    horizontalKeyed g = some m  →  construct pass, adding pass and rekey of m     (horizontalKeyed_some)
    verticalKeyed coord lines = some s  →  the same for s.odd and for s.even      (verticalKeyed_some)
-/

namespace Lyli.Calibration.PointGrid

open Rounding (absDiff absDiff_self absDiff_grows float)

variable {R : Rounding}

open scoped List

variable {coord : Ptr → ℚ}

/-! ## Change of keys -/

theorem points_eq_values (m : TmpLineMap) : points m = m.values.flatMap (·.line) := by
  unfold points OrdMap.values
  rw [List.flatMap_map]

theorem holders_eq_values (m : TmpLineMap) (x : Ptr) :
    holders m x = m.values.countP fun l => decide (x ∈ l.line) := by
  unfold holders OrdMap.values
  rw [List.countP_map]
  rfl

/-- What `rekey` has built from the entries `done`. -/
structure Rekeyed (coord : Ptr → ℚ) (done : List (ℚ × Line)) (tmp : TmpLineMap) : Prop where
  /-- a line is kept as it was, or lost -/
  kept : ∃ kept : List (ℚ × Line), kept.Sublist done ∧ tmp.values.Perm (kept.map (·.2))
  /-- every key is the coordinate of its line's first point -/
  key : ∀ e ∈ tmp.entries, ∃ front, e.2.line.head? = some front ∧ e.1 = coord front
  /-- every line's first coordinate is a key -/
  has : ∀ e ∈ done, ∃ front, e.2.line.head? = some front ∧ ∃ e' ∈ tmp.entries, e'.1 = coord front

theorem Rekeyed.step {done : List (ℚ × Line)} {s : TmpLineMap} (h : Rekeyed coord done s) {a : ℚ × Line} {front : Ptr}
    (hfront : a.2.line.head? = some front) : Rekeyed coord (done ++ [a]) (s.emplace (coord front) a.2) := by
  obtain ⟨⟨kept, hsub, hperm⟩, hkey, hhas⟩ := h
  by_cases htaken : ∃ e ∈ s.entries, e.1 = coord front
  · -- the key is taken: the line is lost
    rw [s.emplace_of_mem _ _ htaken]
    refine ⟨⟨kept, hsub.trans (List.sublist_append_left done [a]), hperm⟩, hkey, ?_⟩
    intro e he
    rcases List.mem_append.mp he with he | he
    · exact hhas e he
    · rw [List.mem_singleton.mp he]
      exact ⟨front, hfront, htaken⟩
  · obtain ⟨l₁, l₂, hs₁, hs₂⟩ := s.emplace_entries (coord front) a.2 fun e he heq => htaken ⟨e, he, heq⟩
    have hmem : ∀ e, e ∈ (s.emplace (coord front) a.2).entries ↔ e = (coord front, a.2) ∨ e ∈ s.entries := by
      intro e
      rw [hs₁, hs₂]
      simp only [List.mem_append, List.mem_cons]
      tauto
    refine ⟨⟨kept ++ [a], hsub.append_right [a], ?_⟩, ?_, ?_⟩
    · have hins : (s.emplace (coord front) a.2).values ~ a.2 :: s.values := by
        unfold OrdMap.values
        rw [hs₁, hs₂, List.map_append, List.map_append, List.map_cons]
        exact List.perm_middle
      rw [List.map_append]
      exact hins.trans ((hperm.cons a.2).trans (List.perm_append_singleton a.2 _).symm)
    · intro e he
      rcases (hmem e).mp he with rfl | he
      · exact ⟨front, hfront, rfl⟩
      · exact hkey e he
    · intro e he
      rcases List.mem_append.mp he with he | he
      · obtain ⟨f, hf, e', he', hk⟩ := hhas e he
        exact ⟨f, hf, e', (hmem e').mpr (Or.inr he'), hk⟩
      · rw [List.mem_singleton.mp he]
        exact ⟨front, hfront, (coord front, a.2), (hmem _).mpr (Or.inl rfl), rfl⟩

theorem rekeyed_nil : Rekeyed coord [] .empty :=
  ⟨⟨[], .slnil, by simp [OrdMap.values]⟩, by simp, by simp⟩

theorem rekey_spec {m m' : TmpLineMap} (h : rekey coord m = some m') : Rekeyed coord m.entries m' := by
  refine foldlM_inv (Rekeyed coord) rekeyed_nil ?_ h
  intro done a rest s s' _ hdone hs
  obtain ⟨front, hfront, hs⟩ := Option.bind_eq_some_iff.mp hs
  obtain rfl := Option.some.inj hs
  exact hdone.step hfront

theorem rekey_ne_none {m : TmpLineMap} (h : ∀ e ∈ m.entries, e.2.line ≠ []) : ∃ m', rekey coord m = some m' := by
  obtain ⟨m', hm', -⟩ := foldlM_total (l := m.entries) (b := (OrdMap.empty : TmpLineMap))
    (f := fun tmp entry => do
      let front ← entry.2.line.head?
      return tmp.emplace (coord front) entry.2) (fun _ _ => True) trivial fun done a rest s hl _ => by
    obtain ⟨front, hfront⟩ := Option.ne_none_iff_exists'.mp
      (mt List.head?_eq_none_iff.mp (h a (hl ▸ by simp)))
    exact ⟨_, Option.bind_eq_some_iff.mpr ⟨front, hfront, rfl⟩, trivial⟩
  exact ⟨m', hm'⟩

theorem rekey_count_le {m m' : TmpLineMap} (h : rekey coord m = some m') (x : Ptr) :
    (points m').count x ≤ (points m).count x := by
  obtain ⟨kept, hsub, hperm⟩ := (rekey_spec h).kept
  rw [points_eq_values, points_eq_values, (hperm.flatMap_right (·.line)).count_eq]
  exact ((hsub.map fun e : ℚ × Line => e.2).flatMap (·.line)).count_le x

theorem rekey_holders_le {m m' : TmpLineMap} (h : rekey coord m = some m') (x : Ptr) :
    holders m' x ≤ holders m x := by
  obtain ⟨kept, hsub, hperm⟩ := (rekey_spec h).kept
  rw [holders_eq_values, holders_eq_values, hperm.countP_eq]
  exact (hsub.map fun e : ℚ × Line => e.2).countP_le

/-- Every line of the new map is a line of the old one. -/
theorem rekey_mem_values {m m' : TmpLineMap} (h : rekey coord m = some m') {l : Line} (hl : l ∈ m'.values) :
    l ∈ m.values := by
  obtain ⟨kept, hsub, hperm⟩ := (rekey_spec h).kept
  exact (hsub.map fun e : ℚ × Line => e.2).subset (hperm.mem_iff.mp hl)

/-! ## A sorted row never tears a point -/

/-- A point of `rem` the map holds already stands under its own coordinate, and nothing
still to come has a smaller one. -/
def RowInv [Rounding] (coord : Ptr → ℚ) (m : TmpLineMap) (rem : List Ptr) : Prop :=
  ∀ x ∈ rem, x ∈ points m → (∀ z ∈ rem, coord x ≤ coord z) ∧ ∀ e ∈ m.entries, x ∈ e.2.line → e.1 = coord x

theorem inserts_mem_points {m m' : TmpLineMap} {q : ℚ} {p x : Ptr} (h : Inserts m q p m') (hx : x ∈ points m') :
    x = p ∨ x ∈ points m := by
  rcases h with ⟨e, he⟩ | ⟨hc, -⟩ | rfl
  · rwa [he.points_perm.mem_iff, List.mem_cons] at hx
  · rwa [hc.points_perm.mem_iff, List.mem_cons] at hx
  · exact Or.inr hx

/-- An insertion leaves the other entries alone. -/
theorem inserts_mem_entries {m m' : TmpLineMap} {q : ℚ} {p : Ptr} {a : ℚ × Line} (h : Inserts m q p m')
    (ha : a ∈ m'.entries) : a.1 = q ∨ a ∈ m.entries := by
  rcases h with ⟨e, he⟩ | ⟨hc, -⟩ | rfl
  · rcases (he.mem_iff a).mp ha with rfl | ⟨ha, -⟩
    · exact Or.inl rfl
    · exact Or.inr ha
  · rcases (hc.mem_iff a).mp ha with rfl | ha
    · exact Or.inl rfl
    · exact Or.inr ha
  · exact Or.inr ha

theorem rowInv_inserts {m m' : TmpLineMap} {p : Ptr} {ps : List Ptr} (hsort : ∀ z ∈ ps, coord p ≤ coord z)
    (hinv : RowInv coord m (p :: ps)) (h : Inserts m (coord p) p m') : RowInv coord m' ps := by
  intro x hxps hxm
  by_cases hxp : x = p
  · subst hxp
    refine ⟨hsort, fun a ha hxa => ?_⟩
    rcases inserts_mem_entries h ha with hkey | ha
    · exact hkey
    · exact (hinv x List.mem_cons_self (mem_points.mpr ⟨a, ha, hxa⟩)).2 a ha hxa
  · -- `x` was held before: its coordinate is that of `p`
    have hxm' : x ∈ points m := (inserts_mem_points h hxm).resolve_left hxp
    obtain ⟨hmin, hkey⟩ := hinv x (List.mem_cons_of_mem _ hxps) hxm'
    have hpx : coord p = coord x := le_antisymm (hsort x hxps) (hmin p List.mem_cons_self)
    refine ⟨fun z hz => hmin z (List.mem_cons_of_mem _ hz), fun a ha hxa => ?_⟩
    rcases inserts_mem_entries h ha with hap | ha
    · exact hap.trans hpx
    · exact hkey a ha hxa

/-- If the map holds `p`, the entry under `coord p` does, and it is the nearest. -/
theorem holders_inserts_le_one {m m' : TmpLineMap} {p : Ptr} {ps : List Ptr} (hinv : RowInv coord m (p :: ps))
    (h : Inserts m (coord p) p m') (hx : ∀ x, holders m x ≤ 1) : ∀ x, holders m' x ≤ 1 := by
  have hheld : p ∈ points m → ∃ l, (coord p, l) ∈ m.entries ∧ p ∈ l.line := by
    intro hp
    obtain ⟨e, he, hpe⟩ := mem_points.mp hp
    have hk := (hinv p List.mem_cons_self hp).2 e he hpe
    exact ⟨e.2, by rw [← hk]; exact he, hpe⟩
  have hzero : p ∉ points m → holders m p = 0 := by
    intro hp
    have := mt holders_pos.mp hp
    omega
  intro x
  rcases h with ⟨e, he⟩ | ⟨hc, hfree⟩ | rfl
  · by_cases hxp : x = p
    · subst hxp
      rw [he.holders_self]
      by_cases hp : x ∈ points m
      · obtain ⟨l, hl, hpl⟩ := hheld hp
        have hn := m.nearest?_of_mem absDiff_grows _ l hl
        rw [he.1] at hn
        obtain rfl := Option.some.inj hn
        rw [if_pos hpl]
        exact hx x
      · have := hzero hp
        split_ifs <;> omega
    · rw [he.holders_ne hxp]
      exact hx x
  · by_cases hxp : x = p
    · subst hxp
      have hnot : x ∉ points m := by
        intro hp
        obtain ⟨l, hl, -⟩ := hheld hp
        exact hfree _ hl rfl
      rw [hc.holders_self, hzero hnot]
    · rw [hc.holders_ne hxp]
      exact hx x
  · exact hx x

section Rows

variable {ins : TmpLineMap → ℚ → Ptr → Option TmpLineMap}
  (hins : ∀ {m m' q p}, ins m q p = some m' → Inserts m q p m')

include hins

theorem pass_mem_points {m m' : TmpLineMap} {ps : List Ptr}
    (h : ps.foldlM (fun m p => ins m (coord p) p) m = some m') {x : Ptr} (hx : x ∈ points m') :
    x ∈ points m ∨ x ∈ ps := by
  revert hx
  refine foldlM_inv (fun done s => x ∈ points s → x ∈ points m ∨ x ∈ done) Or.inl ?_ h
  intro done a rest s s' _ ih hs hx
  rcases inserts_mem_points (hins hs) hx with rfl | hx
  · exact Or.inr (by simp)
  · exact (ih hx).imp id fun h => List.mem_append_left [a] h

/-- A row sorted by its coordinate, none of whose points the map holds, tears no point. -/
theorem row_holders {m m' : TmpLineMap} {row : List Ptr} (hsort : row.Pairwise fun a b => coord a ≤ coord b)
    (hfresh : ∀ x ∈ row, x ∉ points m) (hx : ∀ x, holders m x ≤ 1)
    (h : row.foldlM (fun m p => ins m (coord p) p) m = some m') : ∀ x, holders m' x ≤ 1 := by
  have hinv : RowInv coord m row := fun x hxr hxm => absurd hxm (hfresh x hxr)
  clear hfresh
  induction row generalizing m with
  | nil =>
    obtain rfl : m = m' := Option.some.inj h
    exact hx
  | cons p ps ih =>
    obtain ⟨m₁, hm₁, hrest⟩ := foldlM_cons_some.mp h
    obtain ⟨hmin, hsort⟩ := List.pairwise_cons.mp hsort
    have hx₁ := holders_inserts_le_one hinv (hins hm₁) hx
    exact ih hsort hx₁ hrest (rowInv_inserts hmin hinv (hins hm₁))

/-- Sorted rows without a common point tear no point. -/
theorem rows_holders {m m' : TmpLineMap} {rows : List (List Ptr)}
    (hsort : ∀ row ∈ rows, row.Pairwise fun a b => coord a ≤ coord b) (hdisj : rows.Pairwise List.Disjoint)
    (hfresh : ∀ row ∈ rows, ∀ x ∈ row, x ∉ points m) (hx : ∀ x, holders m x ≤ 1)
    (h : rows.flatten.foldlM (fun m p => ins m (coord p) p) m = some m') : ∀ x, holders m' x ≤ 1 := by
  induction rows generalizing m with
  | nil =>
    obtain rfl : m = m' := Option.some.inj h
    exact hx
  | cons row rows ih =>
    rw [List.flatten_cons] at h
    obtain ⟨m₁, hm₁, hrest⟩ := foldlM_append_some.mp h
    obtain ⟨hd, hdisj⟩ := List.pairwise_cons.mp hdisj
    have hx₁ := row_holders hins (hsort row List.mem_cons_self) (hfresh row List.mem_cons_self) hx hm₁
    refine ih (fun r hr => hsort r (List.mem_cons_of_mem _ hr)) hdisj ?_ hx₁ hrest
    intro r hr x hxr hxm
    rcases pass_mem_points hins hm₁ hxm with hxm | hxm
    · exact hfresh r (List.mem_cons_of_mem _ hr) x hxr hxm
    · exact hd r hr hxm hxr

end Rows

/-! ## Rows offered to the vertical maps -/

/-- The points of the lines of parity `c` in a range, line by line. -/
def rowsOf (lines : List Line) (range : List ℤ) (c : ℤ) : List (List Ptr) :=
  range.filterMap fun i => if i % 2 = c then (lineAt lines i).map (·.line) else none

/-- The points a range of lines offers to the map of parity `c`. -/
def offered (lines : List Line) (range : List ℤ) (c : ℤ) : List Ptr := (rowsOf lines range c).flatten

theorem foldlM_onOdd {f : TmpLineMap → ℚ → Ptr → Option TmpLineMap} {ps : List Ptr} {s s' : VerticalMaps} :
    ps.foldlM (onOdd f coord) s = some s' ↔
      ps.foldlM (fun m p => f m (coord p) p) s.odd = some s'.odd ∧ s.even = s'.even := by
  induction ps generalizing s with
  | nil =>
    constructor
    · intro h; obtain rfl := Option.some.inj h; exact ⟨rfl, rfl⟩
    · rintro ⟨ho, he⟩
      obtain ⟨o, e⟩ := s
      obtain ⟨o', e'⟩ := s'
      obtain rfl : o = o' := Option.some.inj ho
      obtain rfl : e = e' := he
      rfl
  | cons p ps ih =>
    rw [foldlM_cons_some, foldlM_cons_some]
    constructor
    · rintro ⟨s₁, h₁, h⟩
      obtain ⟨o, ho, h₁⟩ := Option.bind_eq_some_iff.mp h₁
      obtain rfl := Option.some.inj h₁
      obtain ⟨h, he⟩ := ih.mp h
      exact ⟨⟨o, ho, h⟩, he⟩
    · rintro ⟨⟨o, ho, h⟩, he⟩
      refine ⟨{ s with odd := o }, ?_, ih.mpr ⟨h, he⟩⟩
      exact Option.bind_eq_some_iff.mpr ⟨o, ho, rfl⟩

theorem foldlM_onEven {f : TmpLineMap → ℚ → Ptr → Option TmpLineMap} {ps : List Ptr} {s s' : VerticalMaps} :
    ps.foldlM (onEven f coord) s = some s' ↔
      ps.foldlM (fun m p => f m (coord p) p) s.even = some s'.even ∧ s.odd = s'.odd := by
  induction ps generalizing s with
  | nil =>
    constructor
    · intro h; obtain rfl := Option.some.inj h; exact ⟨rfl, rfl⟩
    · rintro ⟨he, ho⟩
      obtain ⟨o, e⟩ := s
      obtain ⟨o', e'⟩ := s'
      obtain rfl : e = e' := Option.some.inj he
      obtain rfl : o = o' := ho
      rfl
  | cons p ps ih =>
    rw [foldlM_cons_some, foldlM_cons_some]
    constructor
    · rintro ⟨s₁, h₁, h⟩
      obtain ⟨e, he, h₁⟩ := Option.bind_eq_some_iff.mp h₁
      obtain rfl := Option.some.inj h₁
      obtain ⟨h, ho⟩ := ih.mp h
      exact ⟨⟨e, he, h⟩, ho⟩
    · rintro ⟨⟨e, he, h⟩, ho⟩
      refine ⟨{ s with even := e }, ?_, ih.mpr ⟨h, ho⟩⟩
      exact Option.bind_eq_some_iff.mpr ⟨e, he, rfl⟩

/-- **The two vertical maps never meet.**  A run over a range of lines is one pass
over each map, with the points of the lines of its parity. -/
theorem verticalLineConstructor_some {f : TmpLineMap → ℚ → Ptr → Option TmpLineMap} {lines : List Line}
    {start stop : ℤ} {s s' : VerticalMaps} :
    verticalLineConstructor lines start stop (onOdd f coord) (onEven f coord) s = some s' ↔
      (∀ i ∈ lineRange start stop, ∃ l, lineAt lines i = some l) ∧
      (offered lines (lineRange start stop) 0).foldlM (fun m p => f m (coord p) p) s.odd = some s'.odd ∧
      (offered lines (lineRange start stop) 1).foldlM (fun m p => f m (coord p) p) s.even = some s'.even := by
  unfold verticalLineConstructor offered rowsOf
  induction lineRange start stop generalizing s with
  | nil =>
    obtain ⟨o, e⟩ := s
    obtain ⟨o', e'⟩ := s'
    simp [pure]
  | cons i range ih =>
    rw [foldlM_cons_some]
    have hpar : i % 2 = 0 ∨ i % 2 = 1 := by omega
    constructor
    · rintro ⟨s₁, h₁, h⟩
      obtain ⟨l, hl, h₁⟩ := Option.bind_eq_some_iff.mp h₁
      obtain ⟨hall, ho, he⟩ := ih.mp h
      refine ⟨fun j hj => ?_, ?_, ?_⟩
      · rcases List.mem_cons.mp hj with rfl | hj
        · exact ⟨l, hl⟩
        · exact hall j hj
      · rcases hpar with hi | hi
        · rw [if_neg (by omega), foldlM_onOdd] at h₁
          rw [List.filterMap_cons_some (by rw [if_pos hi, hl]; rfl), List.flatten_cons, foldlM_append_some]
          exact ⟨s₁.odd, h₁.1, ho⟩
        · rw [if_pos hi, foldlM_onEven] at h₁
          rw [List.filterMap_cons_none (by rw [if_neg (by omega)]), h₁.2]
          exact ho
      · rcases hpar with hi | hi
        · rw [if_neg (by omega), foldlM_onOdd] at h₁
          rw [List.filterMap_cons_none (by rw [if_neg (by omega)]), h₁.2]
          exact he
        · rw [if_pos hi, foldlM_onEven] at h₁
          rw [List.filterMap_cons_some (by rw [if_pos hi, hl]; rfl), List.flatten_cons, foldlM_append_some]
          exact ⟨s₁.even, h₁.1, he⟩
    · rintro ⟨hall, ho, he⟩
      obtain ⟨l, hl⟩ := hall i List.mem_cons_self
      have hall' : ∀ j ∈ range, ∃ l, lineAt lines j = some l := fun j hj => hall j (List.mem_cons_of_mem _ hj)
      rcases hpar with hi | hi
      · rw [List.filterMap_cons_some (by rw [if_pos hi, hl]; rfl), List.flatten_cons, foldlM_append_some] at ho
        rw [List.filterMap_cons_none (by rw [if_neg (by omega)])] at he
        obtain ⟨o, ho₁, ho⟩ := ho
        refine ⟨⟨o, s.even⟩, ?_, ih.mpr ⟨hall', ho, he⟩⟩
        refine Option.bind_eq_some_iff.mpr ⟨l, hl, ?_⟩
        rw [if_neg (by omega), foldlM_onOdd]
        exact ⟨ho₁, rfl⟩
      · rw [List.filterMap_cons_none (by rw [if_neg (by omega)])] at ho
        rw [List.filterMap_cons_some (by rw [if_pos hi, hl]; rfl), List.flatten_cons, foldlM_append_some] at he
        obtain ⟨e, he₁, he⟩ := he
        refine ⟨⟨s.odd, e⟩, ?_, ih.mpr ⟨hall', ho, he⟩⟩
        refine Option.bind_eq_some_iff.mpr ⟨l, hl, ?_⟩
        rw [if_pos hi, foldlM_onEven]
        exact ⟨he₁, rfl⟩

/-! ## Ranges of lines -/

/-- Rows used to construct the vertical lines. -/
def constructRange (lines : List Line) : List ℤ := lineRange (lines.length / 3 : ℕ) ((lines.length / 3 : ℕ) + 6)

/-- Rows after those. -/
def followingRange (lines : List Line) : List ℤ := lineRange ((lines.length / 3 : ℕ) + 6) lines.length

/-- Rows from the first construct row back to row 0. -/
def precedingRange (lines : List Line) : List ℤ := lineRange (lines.length / 3 : ℕ) (-1)

theorem lineRange_up {a b : ℤ} (h : a ≤ b) :
    lineRange a b = (List.range (b - a).toNat).map fun k : ℕ => a + (k : ℤ) := by
  unfold lineRange
  split_ifs with hab
  · rfl
  · have h₁ : (a - b).toNat = 0 := by omega
    have h₂ : (b - a).toNat = 0 := by omega
    rw [h₁, h₂]
    rfl

theorem lineRange_append {a b c : ℤ} (hab : a ≤ b) (hbc : b ≤ c) :
    lineRange a b ++ lineRange b c = lineRange a c := by
  rw [lineRange_up hab, lineRange_up hbc, lineRange_up (hab.trans hbc)]
  have hlen : (c - a).toNat = (b - a).toNat + (c - b).toNat := by omega
  rw [hlen, List.range_add, List.map_append, List.map_map]
  congr 1
  apply List.map_congr_left
  intro k _
  simp only [Function.comp_apply]
  omega

theorem mem_lineRange_up {a b i : ℤ} (h : a ≤ b) : i ∈ lineRange a b ↔ a ≤ i ∧ i < b := by
  rw [lineRange_up h]
  simp only [List.mem_map, List.mem_range]
  constructor
  · rintro ⟨k, hk, rfl⟩; omega
  · rintro ⟨h₁, h₂⟩; exact ⟨(i - a).toNat, by omega, by omega⟩

theorem mem_lineRange_down {a b i : ℤ} (h : b ≤ a) : i ∈ lineRange a b ↔ b < i ∧ i ≤ a := by
  unfold lineRange
  rw [if_neg (by omega)]
  simp only [List.mem_map, List.mem_range]
  constructor
  · rintro ⟨k, hk, rfl⟩; omega
  · rintro ⟨h₁, h₂⟩; exact ⟨(a - i).toNat, by omega, by omega⟩

theorem lineAt_some_iff {lines : List Line} {i : ℤ} :
    (∃ l, lineAt lines i = some l) ↔ 0 ≤ i ∧ i < lines.length := by
  unfold lineAt
  split_ifs with hi
  · constructor
    · rintro ⟨l, hl⟩; cases hl
    · intro h; omega
  · constructor
    · rintro ⟨l, hl⟩
      obtain ⟨hlt, -⟩ := List.getElem?_eq_some_iff.mp hl
      omega
    · intro h
      exact ⟨_, List.getElem?_eq_getElem (by omega)⟩

theorem lineAt_natCast (lines : List Line) (k : ℕ) : lineAt lines k = lines[k]? := by
  unfold lineAt
  rw [if_neg (by omega), Int.toNat_natCast]

theorem lineAt_mem {lines : List Line} {i : ℤ} {l : Line} (h : lineAt lines i = some l) : l ∈ lines := by
  unfold lineAt at h
  split_ifs at h
  exact List.mem_of_getElem? h

/-- The vertical construct rows exist iff there are enough lines. -/
theorem ranges_some_iff {lines : List Line} :
    ((∀ i ∈ constructRange lines, ∃ l, lineAt lines i = some l) ∧
      ∀ i ∈ followingRange lines, ∃ l, lineAt lines i = some l) ↔ lines.length / 3 + 6 ≤ lines.length := by
  unfold constructRange followingRange
  simp only [lineAt_some_iff]
  constructor
  · rintro ⟨h, -⟩
    have := h ((lines.length / 3 : ℕ) + 5) ((mem_lineRange_up (by omega)).mpr (by omega))
    omega
  · intro h
    constructor
    · intro i hi
      rw [mem_lineRange_up (by omega)] at hi
      omega
    · intro i hi
      rw [mem_lineRange_up (by omega)] at hi
      omega

theorem preceding_some {lines : List Line} (h : lines ≠ []) :
    ∀ i ∈ precedingRange lines, ∃ l, lineAt lines i = some l := by
  have hpos := List.length_pos_iff.mpr h
  intro i hi
  unfold precedingRange at hi
  rw [mem_lineRange_down (by omega)] at hi
  rw [lineAt_some_iff]
  omega

theorem mem_offered {lines : List Line} {range : List ℤ} {c : ℤ} {x : Ptr} :
    x ∈ offered lines range c ↔ ∃ i ∈ range, i % 2 = c ∧ ∃ l, lineAt lines i = some l ∧ x ∈ l.line := by
  unfold offered rowsOf
  simp only [List.mem_flatten, List.mem_filterMap]
  constructor
  · rintro ⟨row, ⟨i, hi, hrow⟩, hx⟩
    split_ifs at hrow with hc
    obtain ⟨l, hl, rfl⟩ := Option.map_eq_some_iff.mp hrow
    exact ⟨i, hi, hc, l, hl, hx⟩
  · rintro ⟨i, hi, hc, l, hl, hx⟩
    exact ⟨l.line, ⟨i, hi, by rw [if_pos hc, hl]; rfl⟩, hx⟩

theorem offered_mem_linePoints {lines : List Line} {range : List ℤ} {c : ℤ} {x : Ptr}
    (h : x ∈ offered lines range c) : x ∈ linePoints lines := by
  obtain ⟨i, -, -, l, hl, hx⟩ := mem_offered.mp h
  exact List.mem_flatMap.mpr ⟨l, lineAt_mem hl, hx⟩

theorem filterMap_range_getElem? {α : Type} (l : List α) :
    (List.range l.length).filterMap (fun k => l[k]?) = l := by
  induction l with
  | nil => rfl
  | cons a l ih =>
    rw [List.length_cons, List.range_succ_eq_map, List.filterMap_cons_some (by rfl), List.filterMap_map]
    congr 1

/-- The rows handled going up are, in order, some of the lines, each once. -/
theorem rowsOf_sublist {lines : List Line} (h : lines.length / 3 + 6 ≤ lines.length) (c : ℤ) :
    (rowsOf lines (constructRange lines) c ++ rowsOf lines (followingRange lines) c).Sublist (lines.map (·.line)) := by
  have hrows : rowsOf lines (constructRange lines) c ++ rowsOf lines (followingRange lines) c <+
      rowsOf lines (lineRange 0 lines.length) c := by
    have e₁ : constructRange lines ++ followingRange lines = lineRange (lines.length / 3 : ℕ) lines.length :=
      lineRange_append (by omega) (by omega)
    have e₂ : lineRange 0 (lines.length / 3 : ℕ) ++ lineRange (lines.length / 3 : ℕ) lines.length =
        lineRange 0 lines.length := lineRange_append (by omega) (by omega)
    unfold rowsOf
    rw [← List.filterMap_append, e₁, ← e₂, List.filterMap_append]
    exact List.sublist_append_right _ _
  have hall : (lineRange 0 lines.length).filterMap (fun i => (lineAt lines i).map (·.line)) =
      lines.map (·.line) := by
    conv_rhs => rw [← filterMap_range_getElem? lines]
    rw [lineRange_up (by omega), List.filterMap_map, List.map_filterMap]
    simp only [Function.comp_def, zero_add, lineAt_natCast, sub_zero, Int.toNat_natCast]
  apply hrows.trans
  rw [← hall]
  unfold rowsOf
  generalize lineRange 0 (lines.length : ℤ) = range
  induction range with
  | nil => exact .slnil
  | cons i range ih =>
    rw [List.filterMap_cons, List.filterMap_cons]
    by_cases hi : i % 2 = c
    · rw [if_pos hi]
      cases (lineAt lines i).map (·.line) with
      | none => exact ih
      | some row => exact ih.cons_cons row
    · rw [if_neg hi]
      cases (lineAt lines i).map (·.line) with
      | none => exact ih
      | some row => exact ih.cons row

/-! ## The vertical phases -/

/-- Construct pass and adding pass of one map. -/
def Built [Rounding] (coord : Ptr → ℚ) (construct following : List Ptr) (m : TmpLineMap) : Prop :=
  ∃ m₁, constructAll coord .empty construct = some m₁ ∧ addAll coord m₁ following = some m

/-- Construct pass, adding pass and change of keys of one map. -/
def Keyed [Rounding] (coord : Ptr → ℚ) (construct following : List Ptr) (m : TmpLineMap) : Prop :=
  ∃ m₁ m₂, constructAll coord .empty construct = some m₁ ∧ addAll coord m₁ following = some m₂ ∧
    rekey coord m₂ = some m

theorem keyed_iff {construct following : List Ptr} {m : TmpLineMap} :
    Keyed coord construct following m ↔ ∃ m₂, Built coord construct following m₂ ∧ rekey coord m₂ = some m := by
  constructor
  · rintro ⟨m₁, m₂, h₁, h₂, h₃⟩
    exact ⟨m₂, ⟨m₁, h₁, h₂⟩, h₃⟩
  · rintro ⟨m₂, ⟨m₁, h₁, h₂⟩, h₃⟩
    exact ⟨m₁, m₂, h₁, h₂, h₃⟩

/-- Both vertical maps after the construct rows and the following rows, under the keys of the last points. -/
def verticalBuilt [Rounding] (coord : Ptr → ℚ) (lines : List Line) : Option VerticalMaps := do
  let constructStart : ℤ := (lines.length / 3 : ℕ)
  let s ← verticalLineConstructor lines constructStart (constructStart + 6)
    (onOdd mapAddConstruct coord) (onEven mapAddConstruct coord) ⟨.empty, .empty⟩
  verticalLineConstructor lines (constructStart + 6) lines.length (onOdd mapAdd coord) (onEven mapAdd coord) s

/-- **The vertical maps before the change of keys.** -/
theorem verticalBuilt_some {lines : List Line} {s : VerticalMaps} :
    verticalBuilt coord lines = some s ↔ lines.length / 3 + 6 ≤ lines.length ∧
      Built coord (offered lines (constructRange lines) 0) (offered lines (followingRange lines) 0) s.odd ∧
      Built coord (offered lines (constructRange lines) 1) (offered lines (followingRange lines) 1) s.even := by
  unfold verticalBuilt
  constructor
  · intro h
    obtain ⟨s₁, h₁, h₂⟩ := Option.bind_eq_some_iff.mp h
    obtain ⟨r₁, o₁, e₁⟩ := verticalLineConstructor_some.mp h₁
    obtain ⟨r₂, o₂, e₂⟩ := verticalLineConstructor_some.mp h₂
    exact ⟨ranges_some_iff.mp ⟨r₁, r₂⟩, ⟨s₁.odd, o₁, o₂⟩, ⟨s₁.even, e₁, e₂⟩⟩
  · rintro ⟨hlen, ⟨o₁, ho₁, ho₂⟩, ⟨e₁, he₁, he₂⟩⟩
    obtain ⟨r₁, r₂⟩ := ranges_some_iff.mpr hlen
    exact Option.bind_eq_some_iff.mpr ⟨⟨o₁, e₁⟩, verticalLineConstructor_some.mpr ⟨r₁, ho₁, he₁⟩,
      verticalLineConstructor_some.mpr ⟨r₂, ho₂, he₂⟩⟩

theorem verticalKeyed_rekey {lines : List Line} {s : VerticalMaps} :
    verticalKeyed coord lines = some s ↔ ∃ s₂, verticalBuilt coord lines = some s₂ ∧
      rekey coord s₂.odd = some s.odd ∧ rekey coord s₂.even = some s.even := by
  unfold verticalKeyed verticalBuilt
  constructor
  · intro h
    obtain ⟨s₁, h₁, h⟩ := Option.bind_eq_some_iff.mp h
    obtain ⟨s₂, h₂, h⟩ := Option.bind_eq_some_iff.mp h
    obtain ⟨o, ho, h⟩ := Option.bind_eq_some_iff.mp h
    obtain ⟨e, he, h⟩ := Option.bind_eq_some_iff.mp h
    obtain rfl := Option.some.inj h
    exact ⟨s₂, Option.bind_eq_some_iff.mpr ⟨s₁, h₁, h₂⟩, ho, he⟩
  · rintro ⟨s₂, h, ho, he⟩
    obtain ⟨s₁, h₁, h₂⟩ := Option.bind_eq_some_iff.mp h
    refine Option.bind_eq_some_iff.mpr ⟨s₁, h₁, Option.bind_eq_some_iff.mpr ⟨s₂, h₂, ?_⟩⟩
    exact Option.bind_eq_some_iff.mpr ⟨s.odd, ho, Option.bind_eq_some_iff.mpr ⟨s.even, he, rfl⟩⟩

/-- **The vertical maps before the reverse pass.** -/
theorem verticalKeyed_some {lines : List Line} {s : VerticalMaps} :
    verticalKeyed coord lines = some s ↔ lines.length / 3 + 6 ≤ lines.length ∧
      Keyed coord (offered lines (constructRange lines) 0) (offered lines (followingRange lines) 0) s.odd ∧
      Keyed coord (offered lines (constructRange lines) 1) (offered lines (followingRange lines) 1) s.even := by
  rw [verticalKeyed_rekey, keyed_iff, keyed_iff]
  constructor
  · rintro ⟨s₂, h, ho, he⟩
    obtain ⟨hlen, hbo, hbe⟩ := verticalBuilt_some.mp h
    exact ⟨hlen, ⟨s₂.odd, hbo, ho⟩, ⟨s₂.even, hbe, he⟩⟩
  · rintro ⟨hlen, ⟨o, hbo, ho⟩, ⟨e, hbe, he⟩⟩
    exact ⟨⟨o, e⟩, verticalBuilt_some.mpr ⟨hlen, hbo, hbe⟩, ho, he⟩

/-- **The vertical maps after the reverse pass.** -/
theorem verticalMaps_some {lines : List Line} {s' : VerticalMaps} :
    verticalMaps coord lines = some s' ↔ ∃ s, verticalKeyed coord lines = some s ∧
      addAll coord s.odd (offered lines (precedingRange lines) 0) = some s'.odd ∧
      addAll coord s.even (offered lines (precedingRange lines) 1) = some s'.even := by
  unfold verticalMaps
  constructor
  · intro h
    obtain ⟨s, hs, h⟩ := Option.bind_eq_some_iff.mp h
    obtain ⟨-, ho, he⟩ := verticalLineConstructor_some.mp h
    exact ⟨s, hs, ho, he⟩
  · rintro ⟨s, hs, ho, he⟩
    have hlen := (verticalKeyed_some.mp hs).1
    have hne : lines ≠ [] := by
      rintro rfl
      simp at hlen
    exact Option.bind_eq_some_iff.mpr
      ⟨s, hs, verticalLineConstructor_some.mpr ⟨preceding_some hne, ho, he⟩⟩

/-! ## The horizontal phases -/

theorem constructAll_ne_none (m : TmpLineMap) (ps : List Ptr) : ∃ m', constructAll coord m ps = some m' := by
  obtain ⟨m', h, -⟩ := foldlM_total (f := fun m p => mapAddConstruct m (coord p) p) (l := ps) (b := m)
    (fun _ _ => True) trivial fun _ a _ s _ _ => by
      obtain ⟨s', hs'⟩ := mapAddConstruct_ne_none s (coord a) a
      exact ⟨s', hs', trivial⟩
  exact ⟨m', h⟩

/-- **The construct loop** handles the points up to the first one at the limit, which must exist. -/
theorem constructLoop_some {pos : Ptr → Point2f} {limit : ℚ} {ps rest : List Ptr} {m m' : TmpLineMap} :
    constructLoop pos limit ps m = some (m', rest) ↔
      ∃ done, ps = done ++ rest ∧ (∀ p ∈ done, (pos p).y < limit) ∧
        (∃ b, rest.head? = some b ∧ limit ≤ (pos b).y) ∧
        constructAll (fun p => (pos p).x) m done = some m' := by
  induction ps generalizing m with
  | nil =>
    constructor
    · intro h; cases h
    · rintro ⟨done, hps, -, ⟨b, hb, -⟩, -⟩
      obtain ⟨rfl, rfl⟩ := List.append_eq_nil_iff.mp hps.symm
      cases hb
  | cons p ps ih =>
    unfold constructLoop
    by_cases hp : (pos p).y < limit
    · rw [if_pos hp]
      constructor
      · intro h
        obtain ⟨m₁, hm₁, h⟩ := Option.bind_eq_some_iff.mp h
        obtain ⟨done, rfl, hdone, hb, hc⟩ := ih.mp h
        refine ⟨p :: done, rfl, fun x hx => ?_, hb, foldlM_cons_some.mpr ⟨m₁, hm₁, hc⟩⟩
        rcases List.mem_cons.mp hx with rfl | hx
        · exact hp
        · exact hdone x hx
      · rintro ⟨done, hps, hdone, hb, hc⟩
        cases done with
        | nil =>
          obtain ⟨b, hb, hlim⟩ := hb
          obtain rfl : rest = p :: ps := hps.symm
          obtain rfl := Option.some.inj hb
          exact absurd hp hlim.not_gt
        | cons a done =>
          obtain ⟨rfl, rfl⟩ := List.cons.inj hps
          obtain ⟨m₁, hm₁, hc⟩ := foldlM_cons_some.mp hc
          exact Option.bind_eq_some_iff.mpr
            ⟨m₁, hm₁, ih.mpr ⟨done, rfl, fun x hx => hdone x (List.mem_cons_of_mem _ hx), hb, hc⟩⟩
    · rw [if_neg hp]
      constructor
      · intro h
        obtain ⟨rfl, rfl⟩ := Prod.mk.inj (Option.some.inj h)
        exact ⟨[], rfl, by simp, ⟨p, rfl, not_lt.mp hp⟩, rfl⟩
      · rintro ⟨done, hps, hdone, -, hc⟩
        cases done with
        | nil =>
          obtain rfl : rest = p :: ps := hps.symm
          obtain rfl : m = m' := Option.some.inj hc
          rfl
        | cons a done =>
          obtain ⟨rfl, rfl⟩ := List.cons.inj hps
          exact absurd (hdone p List.mem_cons_self) hp

/-- With no line there is none nearest to a point. -/
theorem addAll_empty (p : Ptr) (ps : List Ptr) : addAll coord .empty (p :: ps) ≠ some m := by
  have hnone : mapAdd .empty (coord p) p = none := by
    unfold mapAdd
    rw [(OrdMap.nearest?_eq_none _ _).mpr OrdMap.empty_entries]
  unfold addAll
  rw [List.foldlM_cons, hnone]
  exact nofun

/-- The horizontal map after the construct loop and the forward loop, under the keys of the last points. -/
def horizontalBuilt [Rounding] (g : PointGrid) : Option TmpLineMap := do
  let pos := position g.storage
  let constructStart := g.accumulator.length / 3
  let start ← g.accumulator[constructStart]?
  let construcStartPos := (pos start).y
  let (m, rest) ← constructLoop pos (float (construcStartPos + constructLim)) (g.accumulator.drop constructStart) .empty
  addAll (fun p => (pos p).x) m rest

/-- **The horizontal map before the change of keys.** -/
theorem horizontalBuilt_some {g : PointGrid} {m : TmpLineMap} :
    g.horizontalBuilt = some m ↔ ∃ start done rest,
      g.accumulator.drop (g.accumulator.length / 3) = start :: done ++ rest ∧
      (∀ p ∈ start :: done, (position g.storage p).y < float ((position g.storage start).y + constructLim)) ∧
      (∃ b, rest.head? = some b ∧ float ((position g.storage start).y + constructLim) ≤ (position g.storage b).y) ∧
      Built (fun p => (position g.storage p).x) (start :: done) rest m := by
  have hfirst : ∀ (l : List Ptr) (a : Ptr), l[l.length / 3]? = some a ↔ (l.drop (l.length / 3)).head? = some a := by
    intro l a
    rw [List.head?_drop]
  unfold horizontalBuilt
  constructor
  · intro h
    obtain ⟨start, hstart, h⟩ := Option.bind_eq_some_iff.mp h
    obtain ⟨⟨m₁, rest⟩, h₁, h₂⟩ := Option.bind_eq_some_iff.mp h
    obtain ⟨done, hdrop, hlim, hb, hc⟩ := constructLoop_some.mp h₁
    rw [hfirst, hdrop] at hstart
    cases done with
    | nil =>
      -- the forward loop would begin with no line
      obtain ⟨b, hb, -⟩ := hb
      obtain ⟨t, rfl⟩ := List.head?_eq_some_iff.mp hb
      obtain rfl : m₁ = .empty := (Option.some.inj hc).symm
      exact absurd h₂ (addAll_empty b t)
    | cons a done =>
      obtain rfl := Option.some.inj hstart
      exact ⟨a, done, rest, hdrop, hlim, hb, m₁, hc, h₂⟩
  · rintro ⟨start, done, rest, hdrop, hlim, hb, m₁, hc, h₂⟩
    refine Option.bind_eq_some_iff.mpr ⟨start, ?_, ?_⟩
    · rw [hfirst, hdrop]
      rfl
    · refine Option.bind_eq_some_iff.mpr ⟨(m₁, rest), ?_, h₂⟩
      exact constructLoop_some.mpr ⟨start :: done, hdrop, hlim, hb, hc⟩

theorem horizontalKeyed_rekey (g : PointGrid) :
    g.horizontalKeyed = g.horizontalBuilt.bind (rekey fun p => (position g.storage p).x) := by
  unfold horizontalKeyed horizontalBuilt
  simp only [Option.bind_eq_bind, Option.bind_assoc]

/-- **The horizontal map before the reverse pass.** -/
theorem horizontalKeyed_some {g : PointGrid} {m : TmpLineMap} :
    g.horizontalKeyed = some m ↔ ∃ start done rest,
      g.accumulator.drop (g.accumulator.length / 3) = start :: done ++ rest ∧
      (∀ p ∈ start :: done, (position g.storage p).y < float ((position g.storage start).y + constructLim)) ∧
      (∃ b, rest.head? = some b ∧ float ((position g.storage start).y + constructLim) ≤ (position g.storage b).y) ∧
      Keyed (fun p => (position g.storage p).x) (start :: done) rest m := by
  rw [horizontalKeyed_rekey, Option.bind_eq_some_iff]
  constructor
  · rintro ⟨m₂, hm₂, hkey⟩
    obtain ⟨start, done, rest, hdrop, hlim, hb, hbuilt⟩ := horizontalBuilt_some.mp hm₂
    exact ⟨start, done, rest, hdrop, hlim, hb, keyed_iff.mpr ⟨m₂, hbuilt, hkey⟩⟩
  · rintro ⟨start, done, rest, hdrop, hlim, hb, hk⟩
    obtain ⟨m₂, hbuilt, hkey⟩ := keyed_iff.mp hk
    exact ⟨m₂, horizontalBuilt_some.mpr ⟨start, done, rest, hdrop, hlim, hb, hbuilt⟩, hkey⟩

theorem horizontalMap_some {g : PointGrid} {m' : TmpLineMap} :
    g.horizontalMap = some m' ↔ ∃ m, g.horizontalKeyed = some m ∧
      addAll (fun p => (position g.storage p).x) m g.preceding = some m' :=
  Option.bind_eq_some_iff

end Lyli.Calibration.PointGrid
