import Mathlib
import Lyli.Calibration.GridMathOrder

/-!
# What the entries are made of

The entries of a map are the clusters of the lines by their running means, in the
order of the grids (`Clustered.clusters`).  `insertLine` looks at positions only: it
neither asks whether an entry has a line of the grid already, so `counter` counts
lines and not grids, nor whether the labels agree.

    no line is averaged into an entry with a line of its grid
      → every target line is backed by more than half of the grids      (averageGrids_majority)
    every target line has the label of its first line; of all its lines
      ↔ no cluster with a majority mixes the labels                 (averageGrids_label)
-/

namespace Lyli.Calibration.GridMath

open scoped List

open Rounding (absDiff absDiff_exact)

/-! ## Grids behind a line -/

section Direction

variable {R : Rounding} {limit : ℚ} {front : List LineGrid.Line} {rest : List (List LineGrid.Line)} {map : LineMap}

/-- Every line of the target has lines of more than half of the grids. -/
def Supported (size : ℕ) (map : LineMap) : Prop :=
  ∀ e ∈ retained size map.entries, size < 2 * (e.2.referees.map Prod.fst).toFinset.card

/-- No line is averaged into an entry that has a line of its grid. -/
def OncePerGrid [Rounding] (limit : ℚ) (front : List LineGrid.Line) (rest : List (List LineGrid.Line)) : Prop :=
  (rule (lineRef (front :: rest)) limit).EachMerge (fun r c _ => ∀ r' ∈ c, r'.1 ≠ r.1)
    ((openers front).map fun r => [r]) (laterRefs rest)

/-- **Lines of different grids** are counted as grids. -/
theorem supported_of_oncePerGrid (hlim : 0 < limit) (h : directionMap limit front rest = some map)
    (honce : OncePerGrid limit front rest) : Supported (rest.length + 1) map := by
  have hc := clustered_of_directionMap hlim h
  have hnd : ∀ c ∈ refClusters map, (c.map Prod.fst).Nodup := by
    refine Cluster.run_forall (fun _ => List.nodup_singleton _) ?_ honce ?_ hc.clusters
    · intro r c _ hnew hnd
      rw [List.map_append, List.nodup_append]
      refine ⟨hnd, List.nodup_singleton _, ?_⟩
      rintro g hg g' hg' rfl
      obtain ⟨r', hr', hrr⟩ := List.mem_map.mp hg
      exact hnew r' hr' (hrr.trans (List.mem_singleton.mp hg'))
    · intro c hcm
      obtain ⟨r, -, rfl⟩ := List.mem_map.mp hcm
      exact List.nodup_singleton _
  intro e he
  obtain ⟨hmem, hmaj⟩ := mem_retained.mp he
  rw [(hc.entry e hmem).counter] at hmaj
  rw [List.toFinset_card_of_nodup (hnd _ (List.mem_map.mpr ⟨e, hmem, rfl⟩)), List.length_map]
  omega

/-! ## Grids of lines that are apart -/

/-- Whatever entry takes the line at `p`, its new mean is computed at least `limit` away from `q`. -/
def Apart [Rounding] (limit p q : ℚ) : Prop :=
  ∀ (n : ℕ) (k : ℚ), absDiff k p < limit → limit ≤ absDiff (nextPosition n k p) q

/-- No two lines are near the same mean. -/
def AllApart [Rounding] (limit : ℚ) (lines : List LineGrid.Line) : Prop :=
  lines.Pairwise fun a b => Apart limit a.position b.position ∧ limit ≤ absDiff a.position b.position

theorem refCentre_append {lineOf : Referee → Option LineGrid.Line} {c : List Referee} (hc : c ≠ []) (r : Referee) :
    refCentre lineOf (c ++ [r]) = nextPosition c.length (refCentre lineOf c) (refLine lineOf r).position := by
  unfold refCentre
  rw [List.map_append, List.map_singleton, centre_append_singleton (by simpa using hc), List.length_map]

/-- `b` is of a later grid, or of the same one and apart. -/
def LaterApart [Rounding] (lineOf : Referee → Option LineGrid.Line) (limit : ℚ) (a b : Referee) : Prop :=
  a.1 ≤ b.1 ∧ (a.1 = b.1 → Apart limit (refLine lineOf a).position (refLine lineOf b).position ∧
    limit ≤ absDiff (refLine lineOf a).position (refLine lineOf b).position)

theorem laterRefs_apart (hap : ∀ lines ∈ rest, AllApart limit lines) :
    (laterRefs rest).Pairwise (LaterApart (lineRef (front :: rest)) limit) := by
  unfold laterRefs
  rw [List.pairwise_flatMap]
  constructor
  · intro it hit
    have hlines := hap it.1 (List.mem_of_getElem? (List.mem_zipIdx_iff_le_and_getElem?_sub.mp hit).2)
    unfold gridRefs
    rw [List.pairwise_map]
    refine List.pairwise_lt_range.imp_of_mem fun {i j} hi hj hij => ⟨le_rfl, fun _ => ?_⟩
    have hi := List.getElem?_eq_getElem (List.mem_range.mp hi)
    have hj := List.getElem?_eq_getElem (List.mem_range.mp hj)
    rw [refLine_eq (lineRef_rest hit hi), refLine_eq (lineRef_rest hit hj)]
    exact List.pairwise_iff_getElem.mp hlines i j _ _ hij
  · refine (zipIdx_pairwise_lt rest 1).imp fun {a b} hab r hr r' hr' => ?_
    obtain ⟨i, -, rfl⟩ := List.mem_map.mp hr
    obtain ⟨j, -, rfl⟩ := List.mem_map.mp hr'
    exact ⟨hab.le, fun heq => absurd heq hab.ne⟩

/-- **Grids of lines that are apart** lend an entry one line each. -/
theorem oncePerGrid_of_allApart (hap : ∀ lines ∈ rest, AllApart limit lines) : OncePerGrid limit front rest := by
  -- a cluster with a line of some grid is `limit` away from the lines of that grid to come
  refine Cluster.eachMerge_of_inv (I := fun cs later =>
      later.Pairwise (LaterApart (lineRef (front :: rest)) limit) ∧
      ∀ c ∈ cs, c ≠ [] ∧ ∀ r ∈ c, ∀ b ∈ later, r.1 ≤ b.1 ∧
        (r.1 = b.1 → limit ≤ absDiff (refCentre (lineRef (front :: rest)) c) (refLine (lineRef (front :: rest)) b).position))
    ?_ ?_ ⟨laterRefs_apart hap, fun c hc => ?_⟩
  · rintro cs a as c others ⟨-, hclear⟩ ht r hr heq
    exact (((hclear c (ht.split.mem_iff.mpr List.mem_cons_self)).2 r hr a List.mem_cons_self).2 heq).not_gt ht.near
  · rintro cs a as cs' ⟨hpair, hclear⟩ hj
    obtain ⟨hfirst, hpair⟩ := List.pairwise_cons.mp hpair
    refine ⟨hpair, ?_⟩
    have hkeep : ∀ c ∈ cs, c ≠ [] ∧ ∀ r ∈ c, ∀ b ∈ as, r.1 ≤ b.1 ∧ (r.1 = b.1 →
        limit ≤ absDiff (refCentre (lineRef (front :: rest)) c) (refLine (lineRef (front :: rest)) b).position) :=
      fun c hc => ⟨(hclear c hc).1, fun r hr b hb => (hclear c hc).2 r hr b (List.mem_cons_of_mem _ hb)⟩
    cases hj with
    | @merge others c ht _ =>
      have hold : ∀ d ∈ c :: others, d ∈ cs := fun d hd => ht.split.mem_iff.mpr hd
      refine List.forall_mem_cons.mpr ⟨⟨by simp, fun r hr b hb => ?_⟩, fun d hd => hkeep d (hold d (List.mem_cons_of_mem _ hd))⟩
      obtain ⟨hne, hc⟩ := hclear c (hold c List.mem_cons_self)
      rw [refCentre_append hne]
      rcases List.mem_append.mp hr with hr | hr
      · -- an older line of the grid would have kept the cluster away
        refine ⟨(hkeep c (hold c List.mem_cons_self)).2 r hr b hb |>.1, fun heq => ?_⟩
        have hra := hc r hr a List.mem_cons_self
        have hab := (hfirst b hb).1
        exact absurd ht.near (hra.2 (by omega)).not_gt
      · rw [List.mem_singleton.mp hr]
        exact ⟨(hfirst b hb).1, fun heq => ((hfirst b hb).2 heq).1 c.length _ ht.near⟩
    | lose ht _ => exact fun d hd => hkeep d (ht.split.mem_iff.mpr (List.mem_cons_of_mem _ hd))
    | create =>
      refine List.forall_mem_cons.mpr ⟨⟨by simp, fun r hr b hb => ?_⟩, hkeep⟩
      rw [List.mem_singleton.mp hr]
      exact ⟨(hfirst b hb).1, fun heq => ((hfirst b hb).2 heq).2⟩
  · obtain ⟨r, hr, rfl⟩ := List.mem_map.mp hc
    refine ⟨by simp, fun r' hr' b hb => ?_⟩
    have h0 := (mem_openers.mp hr).1
    have hb := ((mem_laterRefs front).mp hb).1
    rw [List.mem_singleton.mp hr']
    exact ⟨by omega, fun heq => absurd (heq.symm.trans h0) hb⟩

end Direction

section Exact

attribute [local instance] Rounding.exact

/-- Without rounding, lines are apart that are `2 * limit` apart. -/
theorem apart_of_spaced {limit p q : ℚ} (h : 2 * limit ≤ |p - q|) : Apart limit p q := by
  intro n k hk
  have hbetween := average_mem_uIcc ⟨⟨.subgridA, k⟩, n, []⟩ ⟨.subgridA, p⟩ (0, 0)
  rw [Set.uIcc_comm] at hbetween
  have hnear : |nextPosition n k p - p| < limit := (Set.abs_sub_left_of_mem_uIcc hbetween).trans_lt hk
  have htri := abs_sub_le p (nextPosition n k p) q
  rw [abs_sub_comm] at hnear
  rw [absDiff_exact]
  linarith

end Exact

section Direction

variable {R : Rounding} {limit : ℚ} {front : List LineGrid.Line} {rest : List (List LineGrid.Line)} {map : LineMap}

/-! ## Labels -/

/-- A line of the target has the label of the first line that was averaged into it. -/
def LabelOfFirst (size : ℕ) (grids : List (List LineGrid.Line)) (map : LineMap) (lines : List LineGrid.Line) : Prop :=
  ∀ (t : ℕ) (line : LineGrid.Line), lines[t]? = some line → ∃ e r rs first, (retained size map.entries)[t]? = some e ∧
    e.2.referees = r :: rs ∧ lineRef grids r = some first ∧ line.subgrid = first.subgrid

/-- A line of the target has the label of every line that was averaged into it. -/
def LabelOfAll (size : ℕ) (grids : List (List LineGrid.Line)) (map : LineMap) (lines : List LineGrid.Line) : Prop :=
  ∀ (t : ℕ) (line : LineGrid.Line), lines[t]? = some line → ∃ e, (retained size map.entries)[t]? = some e ∧
    ∀ r ∈ e.2.referees, ∃ l, lineRef grids r = some l ∧ line.subgrid = l.subgrid

/-- A cluster with a majority has lines of one label. -/
def NoMixing [Rounding] (limit : ℚ) (front : List LineGrid.Line) (rest : List (List LineGrid.Line)) : Prop :=
  ∀ cs, ClustersTo limit front rest cs → ∀ c ∈ cs, (rest.length + 1) / 2 < c.length →
    ∀ r ∈ c, ∀ r' ∈ c, (refLine (lineRef (front :: rest)) r).subgrid = (refLine (lineRef (front :: rest)) r').subgrid

theorem EntryInv.first_referee {lineOf : Referee → Option LineGrid.Line} {e : ℚ × LineEntry} (h : EntryInv lineOf e) :
    ∃ r rs first, e.2.referees = r :: rs ∧ lineOf r = some first ∧ e.2.line.subgrid = first.subgrid := by
  obtain ⟨first, hfirst, hsub⟩ := h.first
  rw [members_eq_map h.valid] at hfirst
  cases hrs : e.2.referees with
  | nil =>
    rw [hrs] at hfirst
    cases hfirst
  | cons r rs =>
    rw [hrs] at hfirst
    obtain ⟨line, hl⟩ := h.valid r (by rw [hrs]; exact List.mem_cons_self)
    obtain rfl := Option.some.inj hfirst
    rw [refLine_eq hl] at hsub
    exact ⟨r, rs, line, rfl, hl, hsub⟩

theorem labelOfFirst_of_mappedTo (hlim : 0 < limit) (h : directionMap limit front rest = some map)
    {lines : List LineGrid.Line} {get : GridMapper → ℕ → Option ℕ} {mappers : List GridMapper} {size : ℕ}
    (hm : MappedTo size map lines get mappers) : LabelOfFirst size (front :: rest) map lines := by
  intro t line hline
  rw [hm.retains, List.getElem?_map, Option.map_eq_some_iff] at hline
  obtain ⟨e, he, rfl⟩ := hline
  have hmem := (mem_retained.mp (List.mem_of_getElem? he)).1
  obtain ⟨r, rs, first, hrs, hl, hsub⟩ := ((clustered_of_directionMap hlim h).entry e hmem).first_referee
  exact ⟨e, r, rs, first, he, hrs, hl, hsub⟩

theorem labelOfAll_iff (hlim : 0 < limit) (h : directionMap limit front rest = some map)
    {lines : List LineGrid.Line} {get : GridMapper → ℕ → Option ℕ} {mappers : List GridMapper}
    (hm : MappedTo (rest.length + 1) map lines get mappers) :
    LabelOfAll (rest.length + 1) (front :: rest) map lines ↔ NoMixing limit front rest := by
  have hentry := (clustered_of_directionMap hlim h).entry
  unfold NoMixing
  rw [(clustered_of_directionMap hlim h).forall_iff]
  constructor
  · intro hall e he hmaj r hr r' hr'
    rw [← (hentry e he).counter] at hmaj
    obtain ⟨t, ht⟩ := List.getElem?_of_mem (mem_retained.mpr ⟨he, hmaj⟩)
    obtain ⟨e', he', hlabel⟩ := hall t e.2.line (by rw [hm.retains, List.getElem?_map, ht]; rfl)
    obtain rfl := Option.some.inj (ht.symm.trans he')
    obtain ⟨l, hl, hsub⟩ := hlabel r hr
    obtain ⟨l', hl', hsub'⟩ := hlabel r' hr'
    rw [refLine_eq hl, refLine_eq hl', ← hsub, hsub']
  · intro hmix t line hline
    rw [hm.retains, List.getElem?_map, Option.map_eq_some_iff] at hline
    obtain ⟨e, he, rfl⟩ := hline
    obtain ⟨hmem, hmaj⟩ := mem_retained.mp (List.mem_of_getElem? he)
    rw [(hentry e hmem).counter] at hmaj
    obtain ⟨r₀, rs, first, hrs, hl₀, hsub⟩ := (hentry e hmem).first_referee
    refine ⟨e, he, fun r hr => ?_⟩
    obtain ⟨l, hl⟩ := (hentry e hmem).valid r hr
    have hone := hmix e hmem hmaj r₀ (by rw [hrs]; exact List.mem_cons_self) r hr
    rw [refLine_eq hl₀, refLine_eq hl] at hone
    exact ⟨l, hl, hsub.trans hone⟩

end Direction

/-! ## Both directions -/

/-- **Majority support.**  The lines of the target have a majority of the grids when no line is averaged into
an entry with a line of its grid. -/
theorem averageGrids_majority {R : Rounding} (front : LineGrid) (rest : List LineGrid) (hh : front.horizonalLines ≠ [])
    (hv : front.verticalLines ≠ [])
    (honceH : OncePerGrid limitHorizontal front.horizonalLines (rest.map (·.horizonalLines)))
    (honceV : OncePerGrid limitVertical front.verticalLines (rest.map (·.verticalLines))) :
    ∃ horizontal vertical target mappers, lineMaps (front :: rest) = some (horizontal, vertical) ∧
      averageGrids (front :: rest) = some (target, mappers) ∧
      target.horizonalLines = (retained (front :: rest).length horizontal.entries).map (·.2.line) ∧
      target.verticalLines = (retained (front :: rest).length vertical.entries).map (·.2.line) ∧
      Supported (front :: rest).length horizontal ∧ Supported (front :: rest).length vertical := by
  obtain ⟨hor, vert, target, mappers, hmaps, havg, hrh, hrv⟩ :=
    averageGrids_result front rest (started_of_ne_nil hh _) (started_of_ne_nil hv _)
  obtain ⟨hhor, hvert⟩ := lineMaps_some.mp hmaps
  have h₁ := supported_of_oncePerGrid limitHorizontal_pos hhor honceH
  have h₂ := supported_of_oncePerGrid limitVertical_pos hvert honceV
  have hr₁ := hrh.mappedTo.retains
  have hr₂ := hrv.mappedTo.retains
  rw [List.length_map] at h₁ h₂ hr₁ hr₂
  exact ⟨hor, vert, target, mappers, hmaps, havg, hr₁, hr₂, h₁, h₂⟩

section Floats

attribute [local instance] Rounding.ieee

theorem averageGrids_majority_two : ∃ horizontal vertical target mappers,
    lineMaps [oneLine 0 0, oneLine 1 1] = some (horizontal, vertical) ∧
    averageGrids [oneLine 0 0, oneLine 1 1] = some (target, mappers) ∧
    target.horizonalLines = (retained 2 horizontal.entries).map (·.2.line) ∧
    target.verticalLines = (retained 2 vertical.entries).map (·.2.line) ∧
    Supported 2 horizontal ∧ Supported 2 vertical :=
  averageGrids_majority (oneLine 0 0) [oneLine 1 1] (by decide) (by decide)
    (oncePerGrid_of_allApart (by simp [AllApart, oneLine])) (oncePerGrid_of_allApart (by simp [AllApart, oneLine]))

/-- Two lines of the second grid are one line of the target, which the first grid has no part in. -/
theorem pair_not_supported : ∃ horizontal vertical target mappers,
    lineMaps [oneLine 1000 0, twoLines 0 10] = some (horizontal, vertical) ∧
    averageGrids [oneLine 1000 0, twoLines 0 10] = some (target, mappers) ∧
    target.horizonalLines = (retained 2 horizontal.entries).map (·.2.line) ∧ ¬ Supported 2 horizontal := by
  obtain ⟨hor, vert, target, mappers, hmaps, havg, hrh, -⟩ := averageGrids_result (oneLine 1000 0) [twoLines 0 10]
    (started_of_ne_nil (by decide) _) (started_of_ne_nil (by decide) _)
  have hrun : (lineMaps [oneLine 1000 0, twoLines 0 10]).any (fun m =>
      (retained 2 m.1.entries).any fun e => e.2.referees == [(1, 0), (1, 1)]) = true := by decide +kernel
  rw [hmaps] at hrun
  obtain ⟨e, he, hrefs⟩ := List.any_eq_true.mp hrun
  refine ⟨hor, vert, target, mappers, hmaps, havg, hrh.mappedTo.retains, fun hs => ?_⟩
  have hcard := hs e he
  rw [beq_iff_eq.mp hrefs] at hcard
  exact absurd hcard (by decide)

end Floats

/-- Labels alternating `A`, `B`, `A`, … by line index. -/
def Alternating (lines : List LineGrid.Line) : Prop :=
  ∀ (i : ℕ) (line : LineGrid.Line), lines[i]? = some line →
    line.subgrid = if i % 2 = 0 then .subgridA else .subgridB

theorem alternating_singleton (q : ℚ) : Alternating [⟨.subgridA, q⟩] := by
  intro i line hi
  cases i with
  | zero =>
    obtain rfl := Option.some.inj hi
    rfl
  | succ i => cases hi

theorem alternating_pair (p q : ℚ) : Alternating [⟨.subgridA, p⟩, ⟨.subgridB, q⟩] := by
  intro i line hi
  match i with
  | 0 | 1 =>
    obtain rfl := Option.some.inj hi
    rfl
  | i + 2 => cases hi

/-- **Labels are averaged away.**  A line of the target has the label of the first line averaged into it,
and of all of them iff no cluster with a majority mixes the labels. -/
theorem averageGrids_label {R : Rounding} (front : LineGrid) (rest : List LineGrid) (hh : front.horizonalLines ≠ [])
    (hv : front.verticalLines ≠ []) :
    ∃ horizontal vertical target mappers, lineMaps (front :: rest) = some (horizontal, vertical) ∧
      averageGrids (front :: rest) = some (target, mappers) ∧
      LabelOfFirst (front :: rest).length ((front :: rest).map (·.horizonalLines)) horizontal target.horizonalLines ∧
      LabelOfFirst (front :: rest).length ((front :: rest).map (·.verticalLines)) vertical target.verticalLines ∧
      (LabelOfAll (front :: rest).length ((front :: rest).map (·.horizonalLines)) horizontal target.horizonalLines ↔
        NoMixing limitHorizontal front.horizonalLines (rest.map (·.horizonalLines))) ∧
      (LabelOfAll (front :: rest).length ((front :: rest).map (·.verticalLines)) vertical target.verticalLines ↔
        NoMixing limitVertical front.verticalLines (rest.map (·.verticalLines))) := by
  obtain ⟨hor, vert, target, mappers, hmaps, havg, hrh, hrv⟩ :=
    averageGrids_result front rest (started_of_ne_nil hh _) (started_of_ne_nil hv _)
  obtain ⟨hhor, hvert⟩ := lineMaps_some.mp hmaps
  have h₁ := labelOfFirst_of_mappedTo limitHorizontal_pos hhor hrh.mappedTo
  have h₂ := labelOfFirst_of_mappedTo limitVertical_pos hvert hrv.mappedTo
  have h₃ := labelOfAll_iff limitHorizontal_pos hhor hrh.mappedTo
  have h₄ := labelOfAll_iff limitVertical_pos hvert hrv.mappedTo
  rw [List.length_map] at h₁ h₂ h₃ h₄
  exact ⟨hor, vert, target, mappers, hmaps, havg, h₁, h₂, h₃, h₄⟩

section Floats

attribute [local instance] Rounding.ieee

theorem averageGrids_label_two : ∃ horizontal vertical target mappers,
    lineMaps [oneLine 0 0, oneLine 1 1] = some (horizontal, vertical) ∧
    averageGrids [oneLine 0 0, oneLine 1 1] = some (target, mappers) ∧
    LabelOfFirst 2 [[⟨.subgridA, 0⟩], [⟨.subgridA, 1⟩]] horizontal target.horizonalLines ∧
    LabelOfFirst 2 [[⟨.subgridA, 0⟩], [⟨.subgridA, 1⟩]] vertical target.verticalLines ∧
    (LabelOfAll 2 [[⟨.subgridA, 0⟩], [⟨.subgridA, 1⟩]] horizontal target.horizonalLines ↔
      NoMixing limitHorizontal [⟨.subgridA, 0⟩] [[⟨.subgridA, 1⟩]]) ∧
    (LabelOfAll 2 [[⟨.subgridA, 0⟩], [⟨.subgridA, 1⟩]] vertical target.verticalLines ↔
      NoMixing limitVertical [⟨.subgridA, 0⟩] [[⟨.subgridA, 1⟩]]) :=
  averageGrids_label (oneLine 0 0) [oneLine 1 1] (by decide) (by decide)

/-- The second grid missed the first line, and its `A` is averaged into a `B`. -/
theorem missed_line_mixes :
    (∀ grid ∈ [twoLines 0 10, oneLine 10 0], Increasing grid.horizonalLines ∧ Increasing grid.verticalLines ∧
      Alternating grid.horizonalLines ∧ Alternating grid.verticalLines) ∧
    ∃ horizontal vertical target mappers, lineMaps [twoLines 0 10, oneLine 10 0] = some (horizontal, vertical) ∧
      averageGrids [twoLines 0 10, oneLine 10 0] = some (target, mappers) ∧
      ¬ LabelOfAll 2 [[⟨.subgridA, 0⟩, ⟨.subgridB, 10⟩], [⟨.subgridA, 10⟩]] horizontal target.horizonalLines := by
  constructor
  · intro grid hgrid
    simp only [List.mem_cons, List.not_mem_nil, or_false] at hgrid
    rcases hgrid with rfl | rfl
    · exact ⟨by simp [Increasing, twoLines], by simp [Increasing, twoLines], alternating_pair _ _, alternating_singleton _⟩
    · exact ⟨by simp [Increasing, oneLine], by simp [Increasing, oneLine], alternating_singleton _, alternating_singleton _⟩
  · obtain ⟨hor, vert, target, mappers, hmaps, havg, hrh, -⟩ := averageGrids_result (twoLines 0 10) [oneLine 10 0]
      (started_of_ne_nil (by decide) _) (started_of_ne_nil (by decide) _)
    refine ⟨hor, vert, target, mappers, hmaps, havg, fun hall => ?_⟩
    have hrun : (lineMaps [twoLines 0 10, oneLine 10 0]).any (fun m =>
        (retained 2 m.1.entries)[0]?.any fun e => e.2.line.subgrid == .subgridB && e.2.referees.contains (1, 0)) = true := by
      decide +kernel
    rw [hmaps, Option.any_some, Option.any_eq_true] at hrun
    obtain ⟨e, he, hrefs⟩ := hrun
    rw [Bool.and_eq_true, beq_iff_eq, List.contains_iff_mem] at hrefs
    have hline : target.horizonalLines[0]? = some e.2.line := by
      rw [hrh.mappedTo.retains, List.getElem?_map]
      exact congrArg (Option.map _) he
    obtain ⟨e', he', hlabel⟩ := hall 0 _ hline
    obtain rfl := Option.some.inj (he.symm.trans he')
    obtain ⟨l, hl, hsub⟩ := hlabel (1, 0) hrefs.2
    obtain rfl := Option.some.inj hl
    rw [hrefs.1] at hsub
    cases hsub

end Floats

end Lyli.Calibration.GridMath
