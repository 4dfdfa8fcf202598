import Mathlib
import Lyli.Calibration.GridMathMapper

/-!
# Mappers keep the order of the lines

While the lines of one grid are inserted in increasing position, the entries
that took one stay `Behind` the lines to come: any later line is at least as
near to them as to the entries before them.  So a later line is taken by the
same entry or one after it, and the entries keep their places ever after:

    Ordered map → Behind limit g map line.position → insertLine … = some map'  →  Ordered map'    (ordered_insertLine)
    every grid increasing  →  i < j  →  mapper_g i ≤ mapper_g j                              (averageGrids_orderKept)
-/

namespace Lyli.Calibration.GridMath

attribute [local instance] Rounding.exact

open scoped List

open Rounding (absDiff absDiff_grows)

/-! ## The nearest entry -/

section Nearest

variable {α : Type} {m : OrdMap ℚ α} {q : ℚ} {e b : ℚ × α}

/-- An entry below the nearest is not beyond its mirror image. -/
theorem nearest_below (h : m.nearest? absDiff q = some e) (hb : b ∈ m.entries) (hlt : b.1 < e.1) : e.1 + b.1 ≤ 2 * q := by
  have hle := (m.nearest?_le absDiff_grows q h).2 b hb
  by_contra hgt
  rw [not_le] at hgt
  -- the mirror image of `b` is below `e`
  have hcloser : |b.1 - q| < e.1 - q := abs_lt.mpr ⟨by linarith, by linarith⟩
  exact ((le_abs_self _).trans hle).not_gt hcloser

/-- An entry above the nearest is strictly beyond: a tie takes the upper one. -/
theorem nearest_above (h : m.nearest? absDiff q = some e) (hb : b ∈ m.entries) (hlt : e.1 < b.1) : 2 * q < e.1 + b.1 := by
  have hle := (m.nearest?_le absDiff_grows q h).2 b hb
  by_contra hge
  rw [not_lt] at hge
  refine absurd (m.nearest?_tie q h hb (le_antisymm hle ?_)) hlt.not_ge
  rw [abs_of_nonpos (by linarith : e.1 - q ≤ 0)]
  exact abs_le.mpr ⟨by linarith, by linarith⟩

end Nearest

/-! ## One insertion -/

/-- The entries are in the order of the lines of every grid. -/
def Ordered (map : LineMap) : Prop :=
  map.entries.Pairwise fun a b => ∀ g i j, (g, i) ∈ a.2.referees → (g, j) ∈ b.2.referees → i < j

/-- An entry with a line of grid `g` is less than the limit beyond `q`, and as near to `q` as any entry
before it. -/
def Behind (limit : ℚ) (g : ℕ) (map : LineMap) (q : ℚ) : Prop :=
  ∀ a ∈ map.entries, ∀ i, (g, i) ∈ a.2.referees →
    a.1 < q + limit ∧ ∀ b ∈ map.entries, b.1 < a.1 → a.1 + b.1 ≤ 2 * q

theorem Behind.mono {limit : ℚ} {g : ℕ} {map : LineMap} {q q' : ℚ} (h : Behind limit g map q) (hq : q ≤ q') :
    Behind limit g map q' := by
  intro a ha i hi
  obtain ⟨h₁, h₂⟩ := h a ha i hi
  refine ⟨by linarith, fun b hb hlt => ?_⟩
  have := h₂ b hb hlt
  linarith

section Insert

variable {limit : ℚ} {map map' : LineMap} {line : LineGrid.Line} {g j : ℕ} {l₁ l₂ : List (ℚ × LineEntry)}
  {n : ℚ × LineEntry}

/-- An entry `n` with the new line, between entries that keep the order. -/
theorem ordered_split (ho : (l₁ ++ l₂).Pairwise fun a b => ∀ g i j, (g, i) ∈ a.2.referees → (g, j) ∈ b.2.referees → i < j)
    (hm' : map'.entries = l₁ ++ n :: l₂)
    (hbefore : ∀ a ∈ l₁, ∀ g i k, (g, i) ∈ a.2.referees → (g, k) ∈ n.2.referees → i < k)
    (hafter : ∀ b ∈ l₂, ∀ g i k, (g, i) ∈ n.2.referees → (g, k) ∈ b.2.referees → i < k) : Ordered map' := by
  obtain ⟨h₁, h₂, h₁₂⟩ := List.pairwise_append.mp ho
  unfold Ordered
  rw [hm']
  refine List.pairwise_append.mpr ⟨h₁, List.pairwise_cons.mpr ⟨hafter, h₂⟩, fun a ha b hb => ?_⟩
  rcases List.mem_cons.mp hb with rfl | hb
  · exact hbefore a ha
  · exact h₁₂ a ha b hb

/-- Behind `n` everything is as before, and no entry after `n` has a line of the grid. -/
theorem behind_split (hb : Behind limit g map line.position) (hm' : map'.entries = l₁ ++ n :: l₂)
    (hsub : ∀ a ∈ l₁, a ∈ map.entries) (hnone : ∀ b ∈ l₂, ∀ i, (g, i) ∉ b.2.referees)
    (hn : n.1 < line.position + limit) (hmirror : ∀ b ∈ l₁, n.1 + b.1 ≤ 2 * line.position) :
    Behind limit g map' line.position := by
  obtain ⟨hlow, hhigh⟩ := map'.sorted_split hm'
  have hcases : ∀ a, a ∈ map'.entries ↔ a ∈ l₁ ∨ a = n ∨ a ∈ l₂ := fun a => by
    rw [hm', List.mem_append, List.mem_cons]
  intro a ha i hi
  rcases (hcases a).mp ha with ha | rfl | ha
  · obtain ⟨h₁, h₂⟩ := hb a (hsub a ha) i hi
    refine ⟨h₁, fun b hbm hlt => ?_⟩
    rcases (hcases b).mp hbm with hbm | rfl | hbm
    · exact h₂ b (hsub b hbm) hlt
    · exact absurd hlt (hlow a ha).le.not_gt
    · exact absurd hlt ((hlow a ha).trans (hhigh b hbm)).le.not_gt
  · refine ⟨hn, fun b hbm hlt => ?_⟩
    rcases (hcases b).mp hbm with hbm | rfl | hbm
    · exact hmirror b hbm
    · exact absurd hlt (lt_irrefl _)
    · exact absurd hlt (hhigh b hbm).le.not_gt
  · exact absurd hi (hnone a ha i)

/-- **One insertion keeps the order.** -/
theorem ordered_insertLine (hlim : 0 < limit) (hkey : ∀ e ∈ map.entries, e.1 = e.2.line.position) (ho : Ordered map)
    (hb : Behind limit g map line.position) (hlt : ∀ e ∈ map.entries, ∀ i, (g, i) ∈ e.2.referees → i < j)
    (hi : insertLine map line (g, j) limit = some map') : Ordered map' ∧ Behind limit g map' line.position := by
  rcases insertLine_places hkey hlim hi with ⟨e, ⟨hnear, l₁, l₂, hm, hm'⟩, hclose⟩ | ⟨⟨l₁, l₂, hm, hm'⟩, hfar⟩
  · -- the line is averaged into `e`
    have hsub : ∀ a, a ∈ l₁ ∨ a = e ∨ a ∈ l₂ → a ∈ map.entries := fun a ha => by
      rw [hm, List.mem_append, List.mem_cons]
      exact ha
    obtain ⟨hlow, hhigh⟩ := map.sorted_split hm
    have hnone : ∀ b ∈ l₂, ∀ i, (g, i) ∉ b.2.referees := fun b hbm i hib => by
      have h₁ := (hb b (hsub b (Or.inr (Or.inr hbm))) i hib).2 e (hsub e (Or.inr (Or.inl rfl))) (hhigh b hbm)
      have h₂ := nearest_above hnear (hsub b (Or.inr (Or.inr hbm))) (hhigh b hbm)
      linarith
    have hbetween := average_mem_uIcc e.2 line (g, j)
    rw [← hkey e (hsub e (Or.inr (Or.inl rfl))), Set.mem_uIcc] at hbetween
    have href : ∀ g' i, (g', i) ∈ (e.2.average line (g, j)).referees ↔ (g', i) ∈ e.2.referees ∨ (g', i) = (g, j) :=
      fun g' i => List.mem_append.trans (or_congr Iff.rfl List.mem_singleton)
    unfold Ordered at ho
    rw [hm, List.pairwise_append, List.pairwise_cons] at ho
    obtain ⟨ho₁, ⟨hoe, ho₂⟩, ho₁₂⟩ := ho
    refine ⟨ordered_split (List.pairwise_append.mpr ⟨ho₁, ho₂, fun a ha b hbm => ho₁₂ a ha b (List.mem_cons_of_mem _ hbm)⟩)
      hm' ?_ ?_, behind_split hb hm' (fun a ha => hsub a (Or.inl ha)) hnone ?_ fun b hbm => ?_⟩
    · intro a ha g' i k hia hk
      rcases (href g' k).mp hk with hk | hk
      · exact ho₁₂ a ha e List.mem_cons_self g' i k hia hk
      · obtain ⟨rfl, rfl⟩ := Prod.mk.inj hk
        exact hlt a (hsub a (Or.inl ha)) i hia
    · intro b hbm g' i k hie hk
      rcases (href g' i).mp hie with hie | hie
      · exact hoe b hbm g' i k hie hk
      · obtain ⟨rfl, rfl⟩ := Prod.mk.inj hie
        exact absurd hk (hnone b hbm k)
    · obtain ⟨h₁, h₂⟩ := abs_lt.mp hclose
      show (e.2.average line (g, j)).line.position < _
      rcases hbetween with h | h <;> linarith [h.1, h.2]
    · have hbelow := nearest_below hnear (hsub b (Or.inl hbm)) (hlow b hbm)
      have hb' := hlow b hbm
      show (e.2.average line (g, j)).line.position + b.1 ≤ _
      rcases hbetween with h | h <;> linarith [h.1, h.2]
  · -- the line opens an entry
    have hsub : ∀ a, a ∈ l₁ ∨ a ∈ l₂ → a ∈ map.entries := fun a ha => by
      rw [hm, List.mem_append]
      exact ha
    obtain ⟨hlow, hhigh⟩ := map'.sorted_split hm'
    have hnone : ∀ b ∈ l₂, ∀ i, (g, i) ∉ b.2.referees := fun b hbm i hib => by
      have h₁ := (hb b (hsub b (Or.inr hbm)) i hib).1
      have h₂ := hfar b (hsub b (Or.inr hbm))
      have h₃ : line.position < b.1 := hhigh b hbm
      rw [abs_of_pos (by linarith)] at h₂
      linarith
    unfold Ordered at ho
    rw [hm] at ho
    refine ⟨ordered_split ho hm' ?_ ?_, behind_split hb hm' (fun a ha => hsub a (Or.inl ha)) hnone ?_ fun b hbm => ?_⟩
    · intro a ha g' i k hia hk
      obtain ⟨rfl, rfl⟩ := Prod.mk.inj (List.mem_singleton.mp hk)
      exact hlt a (hsub a (Or.inl ha)) i hia
    · intro b hbm g' i k hin hk
      obtain ⟨rfl, rfl⟩ := Prod.mk.inj (List.mem_singleton.mp hin)
      exact absurd hk (hnone b hbm k)
    · exact lt_add_of_pos_right _ hlim
    · have : b.1 < line.position := hlow b hbm
      show line.position + b.1 ≤ 2 * line.position
      linarith

end Insert

/-! ## All insertions -/

/-- Strictly increasing positions. -/
def Increasing (lines : List LineGrid.Line) : Prop := lines.Pairwise fun a b => a.position < b.position

section Insertions

variable {limit : ℚ} {front : List LineGrid.Line} {rest : List (List LineGrid.Line)}

theorem Increasing.lt_of_position {lines : List LineGrid.Line} (h : Increasing lines) {i j : ℕ} {a b : LineGrid.Line}
    (ha : lines[i]? = some a) (hb : lines[j]? = some b) (hlt : a.position < b.position) : i < j := by
  obtain ⟨hi, rfl⟩ := List.getElem?_eq_some_iff.mp ha
  obtain ⟨hj, rfl⟩ := List.getElem?_eq_some_iff.mp hb
  by_contra hle
  rcases (not_lt.mp hle).lt_or_eq with hji | rfl
  · exact lt_asymm hlt (List.pairwise_iff_getElem.mp h j i hj hi hji)
  · exact lt_irrefl _ hlt

/-- The lines handled before a line lie before it, and have the smaller indices. -/
theorem zipIdx_before {lines : List LineGrid.Line} (h : Increasing lines) {handled others : List (LineGrid.Line × ℕ)}
    {l : LineGrid.Line × ℕ} (hsplit : lines.zipIdx = handled ++ l :: others) :
    ∀ l' ∈ handled, l'.1.position < l.1.position ∧ l'.2 < l.2 := by
  have hpos := zipIdx_pairwise_fst h 0
  have hidx := zipIdx_pairwise_lt lines 0
  rw [hsplit] at hpos hidx
  intro l' hl'
  exact ⟨(List.pairwise_append.mp hpos).2.2 l' hl' l List.mem_cons_self,
    (List.pairwise_append.mp hidx).2.2 l' hl' l List.mem_cons_self⟩

/-- **The lines of one more grid** keep the order. -/
theorem ordered_insertLines {lineOf : Referee → Option LineGrid.Line} {done : List Referee} {map map' : LineMap}
    {lines : List LineGrid.Line} {g : ℕ} (hlim : 0 < limit) (hinc : Increasing lines) (h : Averaged lineOf done map)
    (hnew : ∀ i, (g, i) ∉ done) (hl : ∀ (i : ℕ) (line : LineGrid.Line), lines[i]? = some line → lineOf (g, i) = some line)
    (ho : Ordered map) (hi : insertLines limit map lines g = some map') : Ordered map' := by
  refine (insertLines_inv (P := fun handled s => Ordered s ∧ ∀ q, (∀ l ∈ handled, l.1.position ≤ q) → Behind limit g s q)
    hlim h hl ⟨ho, fun q _ a ha i hai => ?_⟩ ?_ hi).2.1
  · exact absurd (h.referees.subset (List.mem_flatMap.mpr ⟨a, ha, hai⟩)) (hnew i)
  · rintro handled ⟨line, i⟩ others s s' hsplit ha hline ⟨ho, hb⟩ hs
    have hbefore := zipIdx_before hinc hsplit
    have hlt : ∀ e ∈ s.entries, ∀ k, (g, k) ∈ e.2.referees → k < i := by
      intro e he k hk
      rcases List.mem_append.mp (ha.referees.subset (List.mem_flatMap.mpr ⟨e, he, hk⟩)) with hk | hk
      · exact absurd hk (hnew k)
      · obtain ⟨l, hlmem, hlk⟩ := List.mem_map.mp hk
        rw [← (Prod.mk.inj hlk).2]
        exact (hbefore l hlmem).2
    obtain ⟨ho', hb'⟩ := ordered_insertLine hlim (fun e he => (ha.entry e he).key) ho
      (hb line.position fun l hl => (hbefore l hl).1.le) hlt hs
    exact ⟨ho', fun q hq => hb'.mono (hq (line, i) (by simp))⟩

theorem ordered_initialMap (hinc : Increasing front) : Ordered (initialMap front) := by
  unfold Ordered
  refine (initialMap front).sorted.imp_of_mem fun {a b} ha hb hlt g i j hia hjb => ?_
  obtain ⟨i', la, hi', rfl⟩ := initialMap_entry ha
  obtain ⟨j', lb, hj', rfl⟩ := initialMap_entry hb
  obtain ⟨-, rfl⟩ := Prod.mk.inj (List.mem_singleton.mp hia)
  obtain ⟨-, rfl⟩ := Prod.mk.inj (List.mem_singleton.mp hjb)
  exact hinc.lt_of_position hi' hj' hlt

/-- **The entries of one direction** are in the order of the lines of every grid. -/
theorem ordered_directionMap {map : LineMap} (hlim : 0 < limit) (hfront : Increasing front)
    (hrest : ∀ lines ∈ rest, Increasing lines) (h : directionMap limit front rest = some map) : Ordered map := by
  obtain ⟨-, -, -, ho⟩ := directionMap_inv (P := fun _ s => Ordered s) hlim (ordered_initialMap hfront) (by
    intro handled it done s s' hit ha hnew hline ho hs
    have hmem : it.1 ∈ rest := List.mem_of_getElem? (List.mem_zipIdx_iff_le_and_getElem?_sub.mp hit).2
    exact ordered_insertLines hlim (hrest it.1 hmem) ha hnew hline ho hs) h
  exact ho

end Insertions

/-! ## The mappers -/

/-- The lines of a grid that are referees of retained entries are mapped in their order. -/
def OrderKept (size : ℕ) (map : LineMap) (get : GridMapper → ℕ → Option ℕ) (mappers : List GridMapper) : Prop :=
  ∀ g i j, i < j → (∃ e ∈ retained size map.entries, (g, i) ∈ e.2.referees) →
    (∃ e ∈ retained size map.entries, (g, j) ∈ e.2.referees) →
    ∃ t t', lookup get mappers (g, i) = some t ∧ lookup get mappers (g, j) = some t' ∧ t ≤ t'

theorem orderKept_of_ordered {size : ℕ} {map : LineMap} {lines : List LineGrid.Line} {get : GridMapper → ℕ → Option ℕ}
    {mappers : List GridMapper} (ho : Ordered map) (hm : MappedTo size map lines get mappers) :
    OrderKept size map get mappers := by
  rintro g i j hij ⟨e, he, hi⟩ ⟨e', he', hj⟩
  obtain ⟨t, ht⟩ := List.getElem?_of_mem he
  obtain ⟨t', ht'⟩ := List.getElem?_of_mem he'
  refine ⟨t, t', hm.mapped t e ht g i hi, hm.mapped t' e' ht' g j hj, ?_⟩
  by_contra hlt
  rw [not_le] at hlt
  obtain ⟨htl, rfl⟩ := List.getElem?_eq_some_iff.mp ht
  obtain ⟨htl', rfl⟩ := List.getElem?_eq_some_iff.mp ht'
  have hret : (retained size map.entries).Pairwise
      fun a b => ∀ g i j, (g, i) ∈ a.2.referees → (g, j) ∈ b.2.referees → i < j := List.Pairwise.filter _ ho
  have hji := List.pairwise_iff_getElem.mp hret t' t htl' htl hlt g j i hj hi
  omega

/-- **Mapping preserves the order of the lines**, in each direction in which every grid is increasing. -/
theorem averageGrids_orderKept (front : LineGrid) (rest : List LineGrid)
    (hh : Started front.horizonalLines (rest.map (·.horizonalLines)))
    (hv : Started front.verticalLines (rest.map (·.verticalLines))) :
    ∃ horizontal vertical target mappers, lineMaps (front :: rest) = some (horizontal, vertical) ∧
      averageGrids (front :: rest) = some (target, mappers) ∧
      ((∀ grid ∈ front :: rest, Increasing grid.horizonalLines) →
        OrderKept (front :: rest).length horizontal GridMapper.mapHorizontal mappers) ∧
      ((∀ grid ∈ front :: rest, Increasing grid.verticalLines) →
        OrderKept (front :: rest).length vertical GridMapper.mapVertical mappers) := by
  obtain ⟨hor, vert, target, mappers, hmaps, havg, hrh, hrv⟩ := averageGrids_result front rest hh hv
  obtain ⟨hhor, hvert⟩ := lineMaps_some.mp hmaps
  have h₁ := hrh.mappedTo
  have h₂ := hrv.mappedTo
  rw [List.length_map] at h₁ h₂
  refine ⟨hor, vert, target, mappers, hmaps, havg, fun hinc => ?_, fun hinc => ?_⟩
  · refine orderKept_of_ordered (ordered_directionMap limitHorizontal_pos (hinc front List.mem_cons_self) ?_ hhor) h₁
    rintro lines hl
    obtain ⟨grid, hgrid, rfl⟩ := List.mem_map.mp hl
    exact hinc grid (List.mem_cons_of_mem _ hgrid)
  · refine orderKept_of_ordered (ordered_directionMap limitVertical_pos (hinc front List.mem_cons_self) ?_ hvert) h₂
    rintro lines hl
    obtain ⟨grid, hgrid, rfl⟩ := List.mem_map.mp hl
    exact hinc grid (List.mem_cons_of_mem _ hgrid)

/-- A grid of two horizontal lines. -/
def twoLines (x₀ x₁ : ℚ) : LineGrid := ⟨[⟨.subgridA, x₀⟩, ⟨.subgridB, x₁⟩], [⟨.subgridA, 0⟩]⟩

theorem averageGrids_orderKept_two : ∃ horizontal vertical target mappers,
    lineMaps [twoLines 0 40, twoLines 1 39] = some (horizontal, vertical) ∧
    averageGrids [twoLines 0 40, twoLines 1 39] = some (target, mappers) ∧
    ((∀ grid ∈ [twoLines 0 40, twoLines 1 39], Increasing grid.horizonalLines) →
      OrderKept 2 horizontal GridMapper.mapHorizontal mappers) ∧
    ((∀ grid ∈ [twoLines 0 40, twoLines 1 39], Increasing grid.verticalLines) →
      OrderKept 2 vertical GridMapper.mapVertical mappers) :=
  averageGrids_orderKept (twoLines 0 40) [twoLines 1 39] (started_of_ne_nil (by decide) _)
    (started_of_ne_nil (by decide) _)

end Lyli.Calibration.GridMath
