import Mathlib
import Lyli.Calibration.GridMathMapper

/-!
# Grids of one lens array

Where every grid has the lines of one common grid, each within `δ` of its
centre, and the centres are more than `4 δ` apart, a line is always averaged
into the entry of its index: all partial means stay within `δ` of the centre
(`byClass_directionMap`).  So the target is the common grid:

    Common limit grids m P δ  →  target.length = m,  target[i] = mean of the i-th lines,
                                 and every mapper maps i to i                              (averageGrids_common)

Means are exact.
-/

namespace Lyli.Calibration.GridMath

attribute [local instance] Rounding.exact

open scoped List

/-- The `i`-th lines of all grids are within `δ` of the centre `P i`. -/
structure Common (limit : ℚ) (grids : List (List LineGrid.Line)) (m : ℕ) (P : ℕ → ℚ) (δ : ℚ) : Prop where
  nonneg : 0 ≤ δ
  width : 2 * δ < limit
  centres : ∀ i, i + 1 < m → 4 * δ < P (i + 1) - P i ∧ 0 < P (i + 1) - P i
  near : ∀ lines ∈ grids, ∀ (i : ℕ) (line : LineGrid.Line), lines[i]? = some line → |line.position - P i| ≤ δ

/-- The target has the means of the lines, and the mappers are the identity. -/
structure Recovered (grids : List (List LineGrid.Line)) (m : ℕ) (lines : List LineGrid.Line)
    (get : GridMapper → ℕ → Option ℕ) (mappers : List GridMapper) : Prop where
  length : lines.length = m
  mean : ∀ i < m, lines[i]?.map (·.position) =
    some ((grids.map fun l => (l[i]?.getD {}).position).sum / (grids.length : ℚ))
  identity : ∀ g < grids.length, ∀ i < m, lookup get mappers (g, i) = some i

section Direction

variable {limit δ : ℚ} {front : List LineGrid.Line} {rest : List (List LineGrid.Line)} {m : ℕ} {P : ℕ → ℚ}

theorem Common.centres_lt {grids : List (List LineGrid.Line)} (hc : Common limit grids m P δ) {i j : ℕ} (hij : i < j)
    (hj : j < m) : 4 * δ < P j - P i := by
  have hd : 0 ≤ 4 * δ := mul_nonneg (by norm_num) hc.nonneg
  have hgap : ∀ j, j + 1 < m → P j + 4 * δ < P (j + 1) := fun j hj => by linarith [(hc.centres j hj).1]
  have := MeanCluster.lt_of_gaps hd (P := (· < m)) (fun _ h => by omega) hgap hij hj
  linarith

/-- The lines of different indices are apart. -/
theorem Common.apart {grids : List (List LineGrid.Line)} (hc : Common limit grids m P δ) {i j : ℕ} (hij : i ≠ j)
    (hi : i < m) (hj : j < m) : 4 * δ < |P j - P i| := by
  rcases Nat.lt_or_gt_of_ne hij with h | h
  · exact (hc.centres_lt h hj).trans_le (le_abs_self _)
  · rw [abs_sub_comm]
    exact (hc.centres_lt h hi).trans_le (le_abs_self _)

/-- A referee with a line has an index below `m`, and its line is near the centre. -/
theorem refLine_near (hc : Common limit (front :: rest) m P δ) (hsize : ∀ lines ∈ front :: rest, lines.length = m)
    {r : Referee} (hr : ∃ line, lineRef (front :: rest) r = some line) :
    r.1 < rest.length + 1 ∧ r.2 < m ∧ |(refLine (lineRef (front :: rest)) r).position - P r.2| ≤ δ := by
  obtain ⟨line, hl⟩ := hr
  obtain ⟨lines, hg, hi⟩ := Option.bind_eq_some_iff.mp hl
  have hmem := List.mem_of_getElem? hg
  refine ⟨(List.getElem?_eq_some_iff.mp hg).1, ?_, ?_⟩
  · rw [← hsize lines hmem]
    exact (List.getElem?_eq_some_iff.mp hi).1
  · rw [refLine_eq hl]
    exact hc.near lines hmem r.2 line hi

theorem lineRef_of_size (hsize : ∀ lines ∈ front :: rest, lines.length = m) {g i : ℕ} (hg : g < rest.length + 1)
    (hi : i < m) : ∃ line, lineRef (front :: rest) (g, i) = some line := by
  have hlt : g < (front :: rest).length := hg
  have hlen : i < (front :: rest)[g].length := by
    rw [hsize _ (List.getElem_mem hlt)]
    exact hi
  refine ⟨(front :: rest)[g][i], ?_⟩
  exact Option.bind_eq_some_iff.mpr ⟨_, List.getElem?_eq_getElem hlt, List.getElem?_eq_getElem hlen⟩

theorem started_of_length (hsize : ∀ lines ∈ front :: rest, lines.length = m) : Started front rest := by
  intro hnil lines hl
  have h₁ := hsize front List.mem_cons_self
  have h₂ := hsize lines (List.mem_cons_of_mem _ hl)
  rw [hnil] at h₁
  exact List.length_eq_zero_iff.mp (h₂.trans h₁.symm)

/-- The lines are separated by their index. -/
theorem separated_of_common (hc : Common limit (front :: rest) m P δ) (hsize : ∀ lines ∈ front :: rest, lines.length = m)
    {L : List Referee} (hL : ∀ r ∈ L, ∃ line, lineRef (front :: rest) r = some line) :
    MeanCluster.Separated (fun r => (refLine (lineRef (front :: rest)) r).position) limit Prod.snd L := by
  have hclose : ∀ a ∈ L, ∀ b ∈ L, b.2 = a.2 →
      |(refLine (lineRef (front :: rest)) b).position - (refLine (lineRef (front :: rest)) a).position| ≤ 2 * δ := by
    intro a ha b hb hab
    obtain ⟨-, -, h₁⟩ := refLine_near hc hsize (hL a ha)
    obtain ⟨-, -, h₂⟩ := refLine_near hc hsize (hL b hb)
    rw [hab] at h₂
    rw [abs_le] at h₁ h₂ ⊢
    constructor <;> linarith [h₁.1, h₁.2, h₂.1, h₂.2]
  refine ⟨fun a ha b hb hab => (hclose a ha b hb hab.symm).trans_lt hc.width, fun a ha b hb c hcL hba hca => ?_⟩
  obtain ⟨-, hai, h₁⟩ := refLine_near hc hsize (hL a ha)
  obtain ⟨-, hci, h₂⟩ := refLine_near hc hsize (hL c hcL)
  refine (hclose a ha b hb hba).trans_lt ?_
  have hP := hc.apart (Ne.symm hca) hai hci
  rw [abs_le] at h₁ h₂
  rcases lt_abs.mp hP with h | h
  · exact (by linarith [h₁.2, h₂.1] : 2 * δ < _ - _).trans_le (le_abs_self _)
  · exact (by linarith [h₁.1, h₂.2] : 2 * δ < -(_ - _)).trans_le (neg_le_abs _)

/-- The first grid has no two lines at one position. -/
theorem front_distinct (hc : Common limit (front :: rest) m P δ) (hsize : ∀ lines ∈ front :: rest, lines.length = m)
    (i j : ℕ) (line l : LineGrid.Line) (hi : front[i]? = some line) (hj : j < i) (hl : front[j]? = some l) :
    l.position ≠ line.position := by
  have him : i < m := by
    rw [← hsize front List.mem_cons_self]
    exact (List.getElem?_eq_some_iff.mp hi).1
  have h₁ := abs_le.mp (hc.near front List.mem_cons_self i line hi)
  have h₂ := abs_le.mp (hc.near front List.mem_cons_self j l hl)
  have hP := hc.centres_lt hj him
  have h0 := hc.nonneg
  intro heq
  linarith [h₁.1, h₂.2]

/-- **Every line is averaged into the entry of its index.** -/
theorem byClass_directionMap (hlim : 0 < limit) (hc : Common limit (front :: rest) m P δ)
    (hsize : ∀ lines ∈ front :: rest, lines.length = m) {map : LineMap} (h : directionMap limit front rest = some map) :
    MeanCluster.ByClass Prod.snd (refClusters map) := by
  have hcl := clustered_of_directionMap hlim h
  have hline : ∀ r ∈ openers front ++ laterRefs rest, ∃ line, lineRef (front :: rest) r = some line := fun r hr =>
    ((hcl.mem_iff r).mp (hcl.referees_perm.mem_iff.mpr hr)).imp fun _ h => h.1
  have hflat : ((openers front).map fun r => [r]).flatten = openers front := by
    rw [← List.flatMap_def, List.flatMap_singleton']
  refine MeanCluster.run_byClass (separated_of_common hc hsize hline) (fun a ha => List.mem_append_right _ ha)
    (fun b hb => List.mem_append_left _ (hflat ▸ hb)) (fun a ha => Or.inl ⟨(0, a.2), ?_, rfl⟩) ?_ hcl.mean_run
  · -- the first grid has a line of every index
    obtain ⟨-, hi, -⟩ := refLine_near hc hsize (hline a (List.mem_append_right _ ha))
    rw [← hsize front List.mem_cons_self] at hi
    rw [hflat]
    refine mem_openers.mpr ⟨rfl, front[a.2], List.getElem?_eq_getElem hi, fun j l hj hl => ?_⟩
    exact front_distinct hc hsize a.2 j _ l (List.getElem?_eq_getElem hi) hj hl
  · refine ⟨?_, ?_, List.pairwise_map.mpr ?_⟩
    · intro c hcmem
      obtain ⟨r, -, rfl⟩ := List.mem_map.mp hcmem
      simp
    · intro c hcmem a ha b hb
      obtain ⟨r, -, rfl⟩ := List.mem_map.mp hcmem
      rw [List.mem_singleton.mp ha, List.mem_singleton.mp hb]
    · refine List.Pairwise.imp_of_mem (fun {a b} ha hb hne => ?_) (openers_nodup front)
      rintro a' ha' b' hb' heq
      rw [List.mem_singleton.mp ha', List.mem_singleton.mp hb'] at heq
      exact hne (Prod.ext ((mem_openers.mp ha).1.trans (mem_openers.mp hb).1.symm) heq)

/-- An entry has the `i`-th line of every grid. -/
theorem entry_of_common (hlim : 0 < limit) (hc : Common limit (front :: rest) m P δ)
    (hsize : ∀ lines ∈ front :: rest, lines.length = m) {map : LineMap} (h : directionMap limit front rest = some map)
    {e : ℚ × LineEntry} (he : e ∈ map.entries) :
    ∃ i < m, e.2.referees ~ (List.range (rest.length + 1)).map (·, i) := by
  have hcl := clustered_of_directionMap hlim h
  have hby := byClass_directionMap hlim hc hsize h
  have hcmem : e.2.referees ∈ refClusters map := List.mem_map.mpr ⟨e, he, rfl⟩
  obtain ⟨r, hr⟩ := List.exists_mem_of_ne_nil _ (hby.nonempty _ hcmem)
  have hvalid := (hcl.entry e he).valid
  refine ⟨r.2, (refLine_near hc hsize (hvalid r hr)).2.1, ?_⟩
  have hnd := hcl.nodup
  unfold GridMath.referees at hnd
  refine (MeanCluster.byClass_perm_filter hby (List.Perm.refl _) hcmem hr).trans ?_
  refine (List.perm_ext_iff_of_nodup (hnd.filter _) (List.nodup_range.map fun a b hab => (Prod.mk.inj hab).1)).mpr ?_
  rintro ⟨g, i⟩
  rw [List.mem_filter, decide_eq_true_iff, List.mem_map]
  constructor
  · rintro ⟨hmem, rfl⟩
    obtain ⟨line, hl, -⟩ := (hcl.mem_iff (g, _)).mp hmem
    exact ⟨g, List.mem_range.mpr (refLine_near hc hsize ⟨line, hl⟩).1, rfl⟩
  · rintro ⟨g', hg', heq⟩
    obtain ⟨rfl, rfl⟩ := Prod.mk.inj heq
    obtain ⟨line, hl⟩ := lineRef_of_size hsize (List.mem_range.mp hg') (refLine_near hc hsize (hvalid r hr)).2.1
    refine ⟨(hcl.mem_iff (g', r.2)).mpr ⟨line, hl, fun h0 j l hj hl' => ?_⟩, rfl⟩
    obtain rfl : g' = 0 := h0
    exact front_distinct hc hsize r.2 j line l hl hj hl'

/-- The index an entry stands for. -/
theorem index_of_perm {refs : List Referee} {n i : ℕ} (h : refs ~ (List.range (n + 1)).map (·, i)) :
    (refs.headD (0, 0)).2 = i := by
  cases refs with
  | nil =>
    have := h.length_eq
    rw [List.length_map, List.length_range] at this
    cases this
  | cons r rs =>
    obtain ⟨g, -, rfl⟩ := List.mem_map.mp (h.mem_iff.mp List.mem_cons_self)
    rfl

/-- The key of an entry is near the centre of its lines. -/
theorem key_of_common (hlim : 0 < limit) (hc : Common limit (front :: rest) m P δ)
    (hsize : ∀ lines ∈ front :: rest, lines.length = m) {map : LineMap} (h : directionMap limit front rest = some map)
    {e : ℚ × LineEntry} (he : e ∈ map.entries) {i : ℕ}
    (hi : e.2.referees ~ (List.range (rest.length + 1)).map (·, i)) : |e.1 - P i| ≤ δ := by
  have hcl := clustered_of_directionMap hlim h
  have hne : e.2.referees ≠ [] := by
    intro hnil
    rw [hnil] at hi
    have := hi.length_eq
    simp at this
  obtain ⟨r, hr, hle⟩ : ∃ r ∈ e.2.referees, |e.1 - P i| ≤ |(refLine (lineRef (front :: rest)) r).position - P i| := by
    rw [← (hcl.entry e he).refMean]
    exact MeanCluster.exists_mean_le hne (P i)
  obtain ⟨g, -, rfl⟩ := List.mem_map.mp (hi.mem_iff.mp hr)
  exact hle.trans (refLine_near hc hsize ((hcl.entry e he).valid _ hr)).2.2

/-- **The entries are those of the common grid**, in its order. -/
theorem entries_of_common (hlim : 0 < limit) (hc : Common limit (front :: rest) m P δ)
    (hsize : ∀ lines ∈ front :: rest, lines.length = m) {map : LineMap} (h : directionMap limit front rest = some map) :
    map.entries.length = m ∧ ∀ i < m, ∃ e, map.entries[i]? = some e ∧
      e.2.referees ~ (List.range (rest.length + 1)).map (·, i) := by
  have hcl := clustered_of_directionMap hlim h
  have hentry := fun e (he : e ∈ map.entries) => entry_of_common hlim hc hsize h he
  have hsorted : (map.entries.map fun e => (e.2.referees.headD (0, 0)).2).Pairwise (· < ·) := by
    refine List.pairwise_map.mpr (map.sorted.imp_of_mem fun {a b} ha hb hlt => ?_)
    obtain ⟨i, hi, hia⟩ := hentry a ha
    obtain ⟨j, hj, hjb⟩ := hentry b hb
    rw [index_of_perm hia, index_of_perm hjb]
    rcases Nat.lt_trichotomy i j with hij | rfl | hij
    · exact hij
    · -- equal lines have equal means
      have hmean : a.1 = b.1 := by
        rw [← (hcl.entry a ha).refMean, ← (hcl.entry b hb).refMean]
        exact MeanCluster.mean_perm (hia.trans hjb.symm)
      exact absurd hmean hlt.ne
    · have h₁ := abs_le.mp (key_of_common hlim hc hsize h ha hia)
      have h₂ := abs_le.mp (key_of_common hlim hc hsize h hb hjb)
      have hP := hc.centres_lt hij hi
      have h0 := hc.nonneg
      linarith [h₁.1, h₂.2]
  have hrange : (map.entries.map fun e => (e.2.referees.headD (0, 0)).2) = List.range m := by
    apply List.Perm.eq_of_pairwise (fun a b _ _ h₁ h₂ => absurd h₁ h₂.asymm) hsorted List.pairwise_lt_range
    refine (List.perm_ext_iff_of_nodup (hsorted.imp fun h => h.ne) List.nodup_range).mpr fun i => ?_
    rw [List.mem_range]
    constructor
    · intro hi
      obtain ⟨e, he, rfl⟩ := List.mem_map.mp hi
      obtain ⟨j, hj, hje⟩ := hentry e he
      rw [index_of_perm hje]
      exact hj
    · intro hi
      obtain ⟨line, hl⟩ := lineRef_of_size hsize (Nat.succ_pos rest.length) hi
      obtain ⟨e, he, hr⟩ := List.mem_flatMap.mp ((hcl.mem_iff (0, i)).mpr ⟨line, hl, fun _ j l hj hl' =>
        front_distinct hc hsize i j line l hl hj hl'⟩)
      obtain ⟨j, hj, hje⟩ := hentry e he
      obtain ⟨g, -, hg⟩ := List.mem_map.mp (hje.mem_iff.mp hr)
      refine List.mem_map.mpr ⟨e, he, ?_⟩
      rw [index_of_perm hje]
      exact (Prod.mk.inj hg).2
  have hlen : map.entries.length = m := by
    rw [← List.length_range (n := m), ← hrange, List.length_map]
  refine ⟨hlen, fun i hi => ?_⟩
  have hget : map.entries[i]? = some map.entries[i] := List.getElem?_eq_getElem (by rwa [hlen])
  have hmem := List.mem_of_getElem? hget
  obtain ⟨j, hj, hje⟩ := hentry _ hmem
  have hidx : (map.entries.map fun e => (e.2.referees.headD (0, 0)).2)[i]? = some i := by
    rw [hrange]
    exact List.getElem?_range hi
  rw [List.getElem?_map, hget, Option.map_some, index_of_perm hje] at hidx
  obtain rfl := Option.some.inj hidx
  exact ⟨_, hget, hje⟩

/-- One direction of the recovery theorem. -/
theorem recovered_of_common (hlim : 0 < limit) (hc : Common limit (front :: rest) m P δ)
    (hsize : ∀ lines ∈ front :: rest, lines.length = m) {map : LineMap} (h : directionMap limit front rest = some map)
    {lines : List LineGrid.Line} {get : GridMapper → ℕ → Option ℕ} {mappers : List GridMapper}
    (hm : MappedTo (rest.length + 1) map lines get mappers) : Recovered (front :: rest) m lines get mappers := by
  have hcl := clustered_of_directionMap hlim h
  obtain ⟨hlen, hentries⟩ := entries_of_common hlim hc hsize h
  -- every entry has a line of every grid, so a majority
  have hall : retained (rest.length + 1) map.entries = map.entries := by
    apply List.filter_eq_self.mpr
    intro e he
    obtain ⟨i, -, hi⟩ := entry_of_common hlim hc hsize h he
    have hcount := hi.length_eq
    rw [← (hcl.entry e he).counter, List.length_map, List.length_range] at hcount
    rw [hcount]
    exact decide_eq_true (by omega)
  refine ⟨?_, fun i hi => ?_, fun g hg i hi => ?_⟩
  · rw [hm.retains, hall, List.length_map]
    exact hlen
  · obtain ⟨e, he, href⟩ := hentries i hi
    have hmem := List.mem_of_getElem? he
    have hmean := (hcl.entry e hmem).refMean
    rw [MeanCluster.mean_perm href] at hmean
    have hlines : ((List.range (rest.length + 1)).map (·, i)).map (fun r => (refLine (lineRef (front :: rest)) r).position) =
        (front :: rest).map fun l => (l[i]?.getD {}).position := by
      apply List.ext_getElem (by simp)
      intro g hg hg'
      rw [List.getElem_map, List.getElem_map, List.getElem_map, List.getElem_range]
      rw [List.length_map] at hg'
      unfold refLine lineRef
      rw [List.getElem?_eq_getElem hg']
      rfl
    unfold MeanCluster.mean at hmean
    rw [hlines, List.length_map, List.length_range] at hmean
    rw [hm.retains, hall, List.getElem?_map, he]
    show some e.2.line.position = _
    rw [← (hcl.entry e hmem).key, ← hmean]
    rfl
  · obtain ⟨e, he, href⟩ := hentries i hi
    refine hm.mapped i e (by rw [hall]; exact he) g i (href.mem_iff.mpr ?_)
    exact List.mem_map.mpr ⟨g, List.mem_range.mpr hg, rfl⟩

end Direction

/-- **`averageGrids` recovers a common grid**, in each direction that has one. -/
theorem averageGrids_common (grids : List LineGrid) (hne : grids ≠ []) (m k : ℕ)
    (hm : ∀ grid ∈ grids, grid.horizonalLines.length = m) (hk : ∀ grid ∈ grids, grid.verticalLines.length = k) :
    ∃ target mappers, averageGrids grids = some (target, mappers) ∧
      (∀ P δ, Common limitHorizontal (grids.map (·.horizonalLines)) m P δ →
        Recovered (grids.map (·.horizonalLines)) m target.horizonalLines GridMapper.mapHorizontal mappers) ∧
      (∀ P δ, Common limitVertical (grids.map (·.verticalLines)) k P δ →
        Recovered (grids.map (·.verticalLines)) k target.verticalLines GridMapper.mapVertical mappers) := by
  obtain ⟨front, rest, rfl⟩ := List.exists_cons_of_ne_nil hne
  have hm' : ∀ lines ∈ (front :: rest).map (·.horizonalLines), lines.length = m := by
    intro lines hl
    obtain ⟨grid, hgrid, rfl⟩ := List.mem_map.mp hl
    exact hm grid hgrid
  have hk' : ∀ lines ∈ (front :: rest).map (·.verticalLines), lines.length = k := by
    intro lines hl
    obtain ⟨grid, hgrid, rfl⟩ := List.mem_map.mp hl
    exact hk grid hgrid
  obtain ⟨hor, vert, target, mappers, hmaps, havg, hrh, hrv⟩ :=
    averageGrids_result front rest (started_of_length hm') (started_of_length hk')
  obtain ⟨hhor, hvert⟩ := lineMaps_some.mp hmaps
  exact ⟨target, mappers, havg, fun P δ hc => recovered_of_common limitHorizontal_pos hc hm' hhor hrh.mappedTo,
    fun P δ hc => recovered_of_common limitVertical_pos hc hk' hvert hrv.mappedTo⟩

/-- Three lines around the centre `c`. -/
theorem common_three {limit c : ℚ} (hlim : 2 < limit) :
    Common limit [[⟨.subgridA, c - 1⟩], [⟨.subgridA, c⟩], [⟨.subgridA, c + 1⟩]] 1 (fun _ => c) 1 where
  nonneg := zero_le_one
  width := by rwa [mul_one]
  centres i hi := by omega
  near lines hl i line hi := by
    have hmem := List.mem_of_getElem? hi
    simp only [List.mem_cons, List.not_mem_nil, or_false] at hl
    rcases hl with rfl | rfl | rfl <;> rw [List.mem_singleton.mp hmem] <;> norm_num

theorem averageGrids_common_three : ∃ target mappers,
    averageGrids [oneLine (4 - 1) (2 - 1), oneLine 4 2, oneLine (4 + 1) (2 + 1)] = some (target, mappers) ∧
    Recovered [[⟨.subgridA, 4 - 1⟩], [⟨.subgridA, 4⟩], [⟨.subgridA, 4 + 1⟩]] 1 target.horizonalLines
      GridMapper.mapHorizontal mappers ∧
    Recovered [[⟨.subgridA, 2 - 1⟩], [⟨.subgridA, 2⟩], [⟨.subgridA, 2 + 1⟩]] 1 target.verticalLines
      GridMapper.mapVertical mappers := by
  obtain ⟨target, mappers, havg, hh, hv⟩ := averageGrids_common
    [oneLine (4 - 1) (2 - 1), oneLine 4 2, oneLine (4 + 1) (2 + 1)] (by decide) 1 1 (by decide) (by decide)
  refine ⟨target, mappers, havg, hh _ _ (common_three ?_), hv _ _ (common_three ?_)⟩
  · unfold limitHorizontal
    norm_num
  · unfold limitVertical
    norm_num

end Lyli.Calibration.GridMath
