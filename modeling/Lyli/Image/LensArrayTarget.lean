import Mathlib
import Lyli.Calibration.CalibrateLoop
import Lyli.Calibration.GridMathClusters
import Lyli.Calibration.GridMathCommon
import Lyli.Calibration.LensArray
import Lyli.Image.LightfieldFill

/-!
# Calibration from images of one lens array

Every image gives a line grid near the array (`images_lineGrid`), so line `i` of
all images is averaged into one line, and whatever order the parallel loop adds
the images in, the target is the mean of their grids:

    every call has an image of A  →  in every complete run  target = A.meanGrid  ∧  mappers are the identity
                                                                                     (calibrate_recovers)
    A.Near grid  →  (the light-field image is filled once  ↔  A has an even number of columns)

Arithmetic is exact.
-/

namespace Lyli.Calibration.LensArray

attribute [local instance] Rounding.exact

open PointGrid GridMath Calibrator
open scoped List

variable {A : LensArray}

/-- The positions of one direction, averaged line by line. -/
def meanLines (n : ℕ) (lists : List (List LineGrid.Line)) : List LineGrid.Line :=
  (List.range n).map fun i =>
    ⟨parityGrid i, (lists.map fun l => (l[i]?.getD {}).position).sum / (lists.length : ℚ)⟩

def meanGrid (A : LensArray) (grids : List LineGrid) : LineGrid where
  horizonalLines := meanLines A.rows (grids.map (·.horizonalLines))
  verticalLines := meanLines A.columns (grids.map (·.verticalLines))

/-- `g` is what `finalize` makes of an image of the array. -/
def Images (A : LensArray) (S : StdSort) (g : PointGrid) : Prop :=
  ∃ pts row col stop, A.Shows pts row col stop ∧ A.Populated pts row col ∧ (addPoints pts).finalize S = some g

theorem images_lineGrid {S : StdSort} {g : PointGrid} (hR : 8 ≤ A.rows) (h : A.Images S g) :
    ∃ grid, LineGrid.ofPointGrid g = some grid ∧ A.Near grid := by
  obtain ⟨pts, row, col, stop, hA, hpop, hg⟩ := h
  obtain ⟨g', hg', hdet⟩ := finalize_detects hA S hR
  obtain rfl := Option.some.inj (hg.symm.trans hg')
  exact ofPointGrid_near hA hpop hdet

/-! ## One direction -/

section Direction

variable {n : ℕ} {centre : ℕ → ℚ} {lists : List (List LineGrid.Line)}

theorem meanLines_perm {lists' : List (List LineGrid.Line)} (h : lists ~ lists') :
    meanLines n lists = meanLines n lists' := by
  unfold meanLines
  refine congrArg (fun f => (List.range n).map f) (funext fun i => ?_)
  rw [(h.map _).sum_eq, h.length_eq]

/-- The means are near the centres too. -/
theorem meanLines_near (hne : lists ≠ []) (hnear : ∀ lines ∈ lists, LinesNear n centre lines) :
    LinesNear n centre (meanLines n lists) := by
  refine ⟨by unfold meanLines; rw [List.length_map, List.length_range], fun i line hi => ?_⟩
  unfold meanLines at hi
  rw [List.getElem?_map] at hi
  obtain ⟨k, hk, rfl⟩ := Option.map_eq_some_iff.mp hi
  obtain ⟨hlt, hk⟩ := List.getElem?_eq_some_iff.mp hk
  rw [List.length_range] at hlt
  rw [List.getElem_range] at hk
  subst hk
  refine ⟨rfl, ?_⟩
  -- some image is at least as far from the centre as the mean
  obtain ⟨lines, hl, hle⟩ : ∃ lines ∈ lists,
      |(lists.map fun l => (l[i]?.getD {}).position).sum / (lists.length : ℚ) - centre i| ≤
        |(lines[i]?.getD {}).position - centre i| := MeanCluster.exists_mean_le hne (centre i)
  obtain ⟨hlen, hlines⟩ := hnear lines hl
  have hget := List.getElem?_eq_getElem (show i < lines.length by omega)
  rw [hget] at hle
  exact hle.trans_lt (hlines i _ hget).2

/-- Lines near common centres are common lines. -/
theorem common_of_near {limit : ℚ} (hlimit : 3 < limit) (hgap : ∀ i, i + 1 < n → centre i + 6 < centre (i + 1))
    (hnear : ∀ lines ∈ lists, LinesNear n centre lines) : Common limit lists n centre (3 / 2) where
  nonneg := by norm_num
  width := by linarith
  centres i hi := by
    have := hgap i hi
    constructor
    · linarith
    · linarith
  near lines hl i line hi := ((hnear lines hl).line i line hi).2.le

/-- **One direction of the target**: the lines are the means, and every mapper is the identity. -/
theorem recovered_meanLines {limit : ℚ} (hlimit : 3 < limit) {front : List LineGrid.Line}
    {rest : List (List LineGrid.Line)} (hgap : ∀ i, i + 1 < n → centre i + 6 < centre (i + 1))
    (hnear : ∀ lines ∈ front :: rest, LinesNear n centre lines) {map : LineMap}
    (h : directionMap limit front rest = some map) {lines : List LineGrid.Line} {get : GridMapper → ℕ → Option ℕ}
    {mappers : List GridMapper} (hm : MappedTo (rest.length + 1) map lines get mappers) :
    lines = meanLines n (front :: rest) ∧ ∀ g < rest.length + 1, ∀ i < n, lookup get mappers (g, i) = some i := by
  have hlim : 0 < limit := by linarith
  have hrec := recovered_of_common hlim (common_of_near hlimit hgap hnear) (fun l hl => (hnear l hl).length) h hm
  refine ⟨?_, hrec.identity⟩
  apply List.ext_getElem?
  intro i
  by_cases hi : i < n
  · have hlt : i < lines.length := by rwa [hrec.length]
    have hmean := hrec.mean i hi
    rw [List.getElem?_eq_getElem hlt] at hmean ⊢
    -- the label is that of the first line averaged, which is line `i` of its grid
    obtain ⟨e, r, rs, first, he, hrs, hfirst, hsub⟩ :=
      labelOfFirst_of_mappedTo hlim h hm i lines[i] (List.getElem?_eq_getElem hlt)
    obtain ⟨grid, hgrid, hline⟩ := Option.bind_eq_some_iff.mp hfirst
    have hlabel := ((hnear grid (List.mem_of_getElem? hgrid)).line r.2 first hline).1
    have hr₁ : r.1 < rest.length + 1 := (List.getElem?_eq_some_iff.mp hgrid).1
    have hr₂ : r.2 < n := by
      rw [← (hnear grid (List.mem_of_getElem? hgrid)).length]
      exact (List.getElem?_eq_some_iff.mp hline).1
    have hindex := hm.mapped i e he r.1 r.2 (by rw [hrs]; exact List.mem_cons_self)
    rw [hrec.identity r.1 hr₁ r.2 hr₂] at hindex
    rw [Option.some.inj hindex, ← hsub] at hlabel
    unfold meanLines
    rw [List.getElem?_map, List.getElem?_range hi, Option.map_some]
    exact congrArg some (LineGrid.Line.ext hlabel (Option.some.inj hmean))
  · unfold meanLines
    rw [List.getElem?_eq_none (by rw [hrec.length]; omega), List.getElem?_eq_none]
    rw [List.length_map, List.length_range]
    omega

end Direction

/-! ## The target -/

theorem meanGrid_perm {grids grids' : List LineGrid} (h : grids ~ grids') : A.meanGrid grids = A.meanGrid grids' := by
  unfold meanGrid
  rw [meanLines_perm (h.map _), meanLines_perm (h.map _)]

theorem meanGrid_near {grids : List LineGrid} (hne : grids ≠ []) (h : ∀ grid ∈ grids, A.Near grid) :
    A.Near (A.meanGrid grids) where
  rows := meanLines_near (by simpa using hne) fun lines hl => by
    obtain ⟨grid, hgrid, rfl⟩ := List.mem_map.mp hl
    exact (h grid hgrid).rows
  columns := meanLines_near (by simpa using hne) fun lines hl => by
    obtain ⟨grid, hgrid, rfl⟩ := List.mem_map.mp hl
    exact (h grid hgrid).columns

/-- Every mapper takes the lines of its grid to the lines of the array. -/
def IdentityMappers (A : LensArray) (size : ℕ) (mappers : List GridMapper) : Prop :=
  ∀ g < size, (∀ i < A.rows, lookup GridMapper.mapHorizontal mappers (g, i) = some i) ∧
    ∀ j < A.columns, lookup GridMapper.mapVertical mappers (g, j) = some j

/-- **The average of grids near one array** is their mean. -/
theorem averageGrids_near {grids : List LineGrid} (hne : grids ≠ []) (h : ∀ grid ∈ grids, A.Near grid) :
    ∃ mappers, averageGrids grids = some (A.meanGrid grids, mappers) ∧ A.IdentityMappers grids.length mappers := by
  obtain ⟨front, rest, rfl⟩ := List.exists_cons_of_ne_nil hne
  have hrows : ∀ lines ∈ front.horizonalLines :: rest.map (·.horizonalLines), LinesNear A.rows A.rowCentre lines := by
    rw [← List.map_cons (f := fun g : LineGrid => g.horizonalLines)]
    intro lines hl
    obtain ⟨grid, hgrid, rfl⟩ := List.mem_map.mp hl
    exact (h grid hgrid).rows
  have hcolumns : ∀ lines ∈ front.verticalLines :: rest.map (·.verticalLines),
      LinesNear A.columns A.columnCentre lines := by
    rw [← List.map_cons (f := fun g : LineGrid => g.verticalLines)]
    intro lines hl
    obtain ⟨grid, hgrid, rfl⟩ := List.mem_map.mp hl
    exact (h grid hgrid).columns
  obtain ⟨hor, vert, target, mappers, hmaps, havg, hh, hv⟩ := averageGrids_result front rest
    (started_of_length fun l hl => (hrows l hl).length) (started_of_length fun l hl => (hcolumns l hl).length)
  obtain ⟨hhor, hvert⟩ := lineMaps_some.mp hmaps
  obtain ⟨hlh, hih⟩ := recovered_meanLines (by unfold limitHorizontal; norm_num) A.rowGap hrows hhor hh.mappedTo
  obtain ⟨hlv, hiv⟩ := recovered_meanLines (by unfold limitVertical; norm_num) A.columnGap hcolumns hvert hv.mappedTo
  have htarget : target = A.meanGrid (front :: rest) := by
    obtain ⟨lh, lv⟩ := target
    obtain rfl : lh = _ := hlh
    obtain rfl : lv = _ := hlv
    rfl
  rw [← htarget]
  refine ⟨mappers, havg, fun g hg => ⟨fun i hi => hih g ?_ i hi, fun j hj => hiv g ?_ j hj⟩⟩
  · rwa [List.length_map, ← List.length_cons (a := front)]
  · rwa [List.length_map, ← List.length_cons (a := front)]

/-- **The light-field image** is filled once iff the columns come in pairs. -/
theorem Near.fillsOnce_iff {grid : LineGrid} (hR : 0 < A.rows) (h : A.Near grid) :
    Image.LightfieldImage.FillsOnce grid ↔ A.columns % 2 = 0 := by
  have hlen : 0 < grid.horizonalLines.length := by
    rw [h.rows.length]
    exact hR
  have hfirst := List.getElem?_eq_getElem hlen
  rw [Image.LightfieldImage.fillsOnce_iff]
  constructor
  · rintro (hnil | hpaired)
    · rw [hnil] at hlen
      cases hlen
    · by_contra hodd
      -- the last line is of class A, as the first row is
      have hlast : 2 * (A.columns / 2) < grid.verticalLines.length := by
        rw [h.columns.length]
        omega
      refine hpaired.unpaired (A.columns / 2) _ (List.getElem?_eq_getElem hlast) ?_ _ (List.getElem_mem hlen) ?_
      · rw [h.columns.length]
        omega
      · rw [(h.rows.line 0 _ hfirst).1, (h.columns.line _ _ (List.getElem?_eq_getElem hlast)).1]
        unfold parityGrid
        rw [if_pos (Nat.zero_mod 2), if_pos (Nat.mul_mod_right 2 _)]
  · intro heven
    refine Or.inr ⟨fun x a b ha hb => ?_, fun x a ha hx => ?_⟩
    · rw [(h.columns.line _ a ha).1, (h.columns.line _ b hb).1]
      unfold parityGrid
      rw [if_pos (Nat.mul_mod_right 2 _), if_neg (by omega)]
      nofun
    · rw [h.columns.length] at hx
      omega

/-! ## The whole calibration -/

/-- **Calibration recovers the array**, whatever order the parallel loop adds the images in: the target of
every complete run is the mean of the line grids, near the array, and all mappers are the identity.  The
light-field image is then filled once iff the array has an even number of columns. -/
theorem calibrate_recovers (S : StdSort) (A : LensArray) (hR : 8 ≤ A.rows) (calls : List (PointGrid × Metadata))
    (hne : calls ≠ []) (himages : ∀ call ∈ calls, A.Images S call.1) :
    ∃ grids, (calls.map (·.1)).mapM LineGrid.ofPointGrid = some grids ∧ A.Near (A.meanGrid grids) ∧
      (∀ s, Reachable calls s → Complete calls s → ∃ mappers,
        s.calibrator.target = some (A.meanGrid grids, mappers) ∧ A.IdentityMappers calls.length mappers) ∧
      (Image.LightfieldImage.FillsOnce (A.meanGrid grids) ↔ A.columns % 2 = 0) := by
  have hgrid : ∀ g ∈ calls.map (·.1), ∃ grid, LineGrid.ofPointGrid g = some grid ∧ A.Near grid := by
    intro g hg
    obtain ⟨call, hcall, rfl⟩ := List.mem_map.mp hg
    exact images_lineGrid hR (himages call hcall)
  obtain ⟨grids, hgrids⟩ := mapM_defined_iff.mpr fun g hg => (hgrid g hg).imp fun _ h => h.1
  have hlen : grids.length = calls.length := by rw [mapM_length hgrids, List.length_map]
  have hnear : ∀ grid ∈ grids, A.Near grid := by
    intro grid hmem
    obtain ⟨k, hk⟩ := List.getElem?_of_mem hmem
    have hlt : k < (calls.map (·.1)).length := by
      rw [← mapM_length hgrids]
      exact (List.getElem?_eq_some_iff.mp hk).1
    obtain ⟨b, hb, hk'⟩ := mapM_getElem? hgrids (List.getElem?_eq_getElem hlt)
    obtain rfl := Option.some.inj (hk.symm.trans hk')
    obtain ⟨b', hb', hnear⟩ := hgrid _ (List.getElem_mem hlt)
    obtain rfl := Option.some.inj (hb.symm.trans hb')
    exact hnear
  have hgrids_ne : grids ≠ [] := by
    apply List.ne_nil_of_length_pos
    rw [hlen]
    exact List.length_pos_iff.mpr hne
  have htarget := meanGrid_near hgrids_ne hnear
  refine ⟨grids, hgrids, htarget, fun s hs hc => ?_, htarget.fillsOnce_iff (by omega)⟩
  have hinv := loopInv_reachable hs
  have hperm := hinv.perm hc (returned_lt hs)
  -- the line grids of the stored images are the same in another order
  obtain ⟨grids', hgrids', hperm'⟩ := mapM_perm (hperm.symm.map (·.1)) hgrids
  obtain ⟨mappers, havg, hid⟩ := averageGrids_near (fun hnil => hgrids_ne (by
    rw [hnil] at hperm'
    exact hperm'.eq_nil)) fun grid hgrid => hnear grid (hperm'.mem_iff.mpr hgrid)
  rw [← meanGrid_perm hperm'] at havg
  rw [← hperm'.length_eq, hlen] at hid
  refine ⟨mappers, Option.bind_eq_some_iff.mpr ⟨grids', ?_, havg⟩, hid⟩
  rw [hinv.calibrator, storeGrids_pointGridList]
  exact hgrids'

theorem images_sixColumns {d : ℚ} (hd : |d| < 3 / 2) : ∃ g, sixColumns.Images .insertion g := by
  obtain ⟨g, hg, -⟩ := finalize_detects (sixColumns_shows hd) .insertion (by decide)
  exact ⟨g, sixColumnsPoints d, sixColumnsRow, sixColumnsCol, 16, sixColumns_shows hd, sixColumns_populated d, hg⟩

/-- Two images of one camera, a pixel apart. -/
theorem calibrate_recovers_sixColumns :
    ∃ g g' grids, [g, g'].mapM LineGrid.ofPointGrid = some grids ∧ sixColumns.Near (sixColumns.meanGrid grids) ∧
      (∀ s, Reachable [(g, (imageOf "A").2), (g', (imageOf "A").2)] s →
        Complete [(g, (imageOf "A").2), (g', (imageOf "A").2)] s → ∃ mappers,
          s.calibrator.target = some (sixColumns.meanGrid grids, mappers) ∧ sixColumns.IdentityMappers 2 mappers) ∧
      (Image.LightfieldImage.FillsOnce (sixColumns.meanGrid grids) ↔ sixColumns.columns % 2 = 0) := by
  obtain ⟨g, hg⟩ := images_sixColumns (show |(0 : ℚ)| < 3 / 2 by norm_num)
  obtain ⟨g', hg'⟩ := images_sixColumns (show |(1 : ℚ)| < 3 / 2 by norm_num)
  refine ⟨g, g', calibrate_recovers .insertion sixColumns (by decide)
    [(g, (imageOf "A").2), (g', (imageOf "A").2)] (List.cons_ne_nil _ _) fun call hcall => ?_⟩
  rcases List.mem_pair.mp hcall with rfl | rfl
  · exact hg
  · exact hg'

end Lyli.Calibration.LensArray
