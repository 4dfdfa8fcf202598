import Mathlib
import Lyli.Calibration.Calibrator

/-!
# The order of the images

Nearest-mean clustering depends on the order of the images, and so does the
focal length kept for a zoom and focus step.  The result does not where the
lines fall into separated classes (`Grouped`) and equal steps have equal focal
lengths: the target lines are then the means of the classes with a majority
(`mem_retained_iff`), each line is mapped to its class (`lookup_grouped`), and

    adds.Perm adds' → LinesGrouped … → FocalByStep adds → both orders calibrate alike    (calibrate_order_independent)
-/

namespace Lyli.Calibration.Calibrator

attribute [local instance] Rounding.exact

open scoped List

/-! ## The target grid -/

open GridMath in
/-- The lines of one direction fall into classes, given by position, that the clustering cannot mix up. -/
structure Grouped (limit : ℚ) (cls : ℚ → ℕ) (grids : List (List LineGrid.Line)) : Prop where
  /-- an image has at most one line of a class -/
  inGrid : ∀ lines ∈ grids, (lines.map fun l => cls l.position).Nodup
  subgrid : ∀ a ∈ grids.flatten, ∀ b ∈ grids.flatten, cls a.position = cls b.position → a.subgrid = b.subgrid
  /-- lines of a class are less than the limit apart, and nearer to each other than to any other class -/
  separated : MeanCluster.Separated (·.position) limit (fun l => cls l.position) grids.flatten
  /-- a class has a line in every image, or keeps the limit from all others -/
  present : ∀ a ∈ grids.flatten, (∀ lines ∈ grids, ∃ b ∈ lines, cls b.position = cls a.position) ∨
    ∀ b ∈ grids.flatten, cls b.position ≠ cls a.position → limit ≤ |b.position - a.position|

section Target

open GridMath

variable {limit : ℚ} {cls : ℚ → ℕ}

theorem grouped_perm {grids grids' : List (List LineGrid.Line)} (h : Grouped limit cls grids) (hp : grids ~ grids') :
    Grouped limit cls grids' := by
  have hflat : ∀ l, l ∈ grids'.flatten ↔ l ∈ grids.flatten := fun l => hp.flatten.symm.mem_iff
  refine ⟨fun lines hl => h.inGrid lines (hp.mem_iff.mpr hl), ?_, ⟨?_, ?_⟩, ?_⟩
  · intro a ha b hb
    exact h.subgrid a ((hflat a).mp ha) b ((hflat b).mp hb)
  · intro a ha b hb
    exact h.separated.width a ((hflat a).mp ha) b ((hflat b).mp hb)
  · intro a ha b hb c hc
    exact h.separated.gap a ((hflat a).mp ha) b ((hflat b).mp hb) c ((hflat c).mp hc)
  · intro a ha
    rcases h.present a ((hflat a).mp ha) with hall | hfar
    · exact Or.inl fun lines hl => hall lines (hp.mem_iff.mpr hl)
    · exact Or.inr fun b hb => hfar b ((hflat b).mp hb)

theorem grouped_front_nodup {front : List LineGrid.Line} {rest : List (List LineGrid.Line)}
    (h : Grouped limit cls (front :: rest)) : (front.map (·.position)).Nodup := by
  apply List.Nodup.of_map cls
  rw [List.map_map]
  exact h.inGrid front List.mem_cons_self

/-- The lines of one class. -/
def classOf (cls : ℚ → ℕ) (a : LineGrid.Line) (lines : List LineGrid.Line) : List LineGrid.Line :=
  lines.filter fun b => cls b.position = cls a.position

/-- **The clusters are the classes.** -/
theorem members_perm_classOf {front : List LineGrid.Line} {rest : List (List LineGrid.Line)} {map : LineMap}
    (hc : Clustered limit front rest map) (h : Grouped limit cls (front :: rest)) :
    (clusters (lineRef (front :: rest)) map).flatten ~ (front :: rest).flatten ∧
      ∀ e ∈ map.entries, ∀ a ∈ members (lineRef (front :: rest)) e.2,
        members (lineRef (front :: rest)) e.2 ~ classOf cls a (front :: rest).flatten := by
  have hrun := hc.run (grouped_front_nodup h)
  have hsingle : (front.map fun l => [l]).flatten = front := by
    rw [← List.flatMap_def]
    exact List.flatMap_singleton' front
  have hflat : (clusters (lineRef (front :: rest)) map).flatten ~ (front :: rest).flatten := by
    have := MeanCluster.run_flatten hrun
    rwa [hsingle] at this
  have hby : MeanCluster.ByClass (fun l : LineGrid.Line => cls l.position) (clusters (lineRef (front :: rest)) map) := by
    refine MeanCluster.run_byClass h.separated ?_ ?_ ?_ ?_ hrun
    · intro a ha
      exact List.mem_append_right _ ha
    · intro b hb
      rw [hsingle] at hb
      exact List.mem_append_left _ hb
    · intro a ha
      rcases h.present a (List.mem_append_right _ ha) with hall | hfar
      · left
        rw [hsingle]
        exact hall front List.mem_cons_self
      · exact Or.inr hfar
    · refine ⟨by simp, ?_, ?_⟩
      · intro c hcmem a ha b hb
        obtain ⟨l, -, rfl⟩ := List.mem_map.mp hcmem
        rw [List.mem_singleton.mp ha, List.mem_singleton.mp hb]
      · rw [List.pairwise_map]
        have := h.inGrid front List.mem_cons_self
        rw [List.nodup_iff_pairwise_ne, List.pairwise_map] at this
        apply this.imp
        intro l l' hne a ha b hb
        rwa [List.mem_singleton.mp ha, List.mem_singleton.mp hb]
  exact ⟨hflat, fun e he a ha => MeanCluster.byClass_perm_filter hby hflat (List.mem_map.mpr ⟨e, he, rfl⟩) ha⟩

/-- **The target lines** are the means of the classes with a majority. -/
theorem mem_retained_iff {front : List LineGrid.Line} {rest : List (List LineGrid.Line)} {map : LineMap}
    (hc : Clustered limit front rest map) (h : Grouped limit cls (front :: rest)) (line : LineGrid.Line) (size : ℕ) :
    line ∈ (retained size map.entries).map (·.2.line) ↔ ∃ a ∈ (front :: rest).flatten,
      (classOf cls a (front :: rest).flatten).length > size / 2 ∧
      line.position = MeanCluster.mean (·.position) (classOf cls a (front :: rest).flatten) ∧ line.subgrid = a.subgrid := by
  obtain ⟨hflat, hclass⟩ := members_perm_classOf hc h
  have hcount : ∀ e ∈ map.entries, (members (lineRef (front :: rest)) e.2).length = e.2.counter := fun e he => by
    rw [members_length (hc.entry e he).valid, (hc.entry e he).counter]
  constructor
  · intro hline
    obtain ⟨e, he, rfl⟩ := List.mem_map.mp hline
    obtain ⟨hmem, hmaj⟩ := List.mem_filter.mp he
    obtain ⟨a, ha, hsub⟩ := (hc.entry e hmem).first
    have hain := List.mem_of_mem_head? ha
    refine ⟨a, hflat.mem_iff.mp (List.mem_flatten.mpr ⟨_, List.mem_map.mpr ⟨e, hmem, rfl⟩, hain⟩), ?_, ?_, hsub⟩
    · rw [← (hclass e hmem a hain).length_eq, hcount e hmem]
      simpa using hmaj
    · rw [← MeanCluster.mean_perm (hclass e hmem a hain)]
      exact (hc.entry e hmem).mean
  · rintro ⟨a, ha, hmaj, hpos, hsub⟩
    obtain ⟨c, hcmem, hac⟩ := List.mem_flatten.mp (hflat.mem_iff.mpr ha)
    obtain ⟨e, hmem, rfl⟩ := List.mem_map.mp hcmem
    rw [← (hclass e hmem a hac).length_eq, hcount e hmem] at hmaj
    refine List.mem_map.mpr ⟨e, List.mem_filter.mpr ⟨hmem, by simpa using hmaj⟩, ?_⟩
    -- the entry has the position and the subgrid of the class
    obtain ⟨first, hfirst, hsubFirst⟩ := (hc.entry e hmem).first
    have hin : ∀ b ∈ members (lineRef (front :: rest)) e.2, b ∈ (front :: rest).flatten := fun b hb =>
      hflat.mem_iff.mp (List.mem_flatten.mpr ⟨_, hcmem, hb⟩)
    have hfirstMem := List.mem_of_mem_head? hfirst
    have hsame := h.subgrid first (hin first hfirstMem) a ha
      (by simpa [classOf] using (List.mem_filter.mp ((hclass e hmem a hac).mem_iff.mp hfirstMem)).2)
    have e₁ : e.2.line.position = line.position := by
      rw [hpos, (hc.entry e hmem).mean, MeanCluster.mean_perm (hclass e hmem a hac)]
    have e₂ : e.2.line.subgrid = line.subgrid := by
      rw [hsubFirst, hsame, hsub]
    exact LineGrid.Line.ext e₂ e₁

theorem retained_eq {front front' : List LineGrid.Line} {rest rest' : List (List LineGrid.Line)} {map map' : LineMap}
    (hp : front :: rest ~ front' :: rest') (h : Grouped limit cls (front :: rest))
    (hc : Clustered limit front rest map) (hc' : Clustered limit front' rest' map') (size : ℕ) :
    (retained size map.entries).map (·.2.line) = (retained size map'.entries).map (·.2.line) := by
  have hflat := hp.flatten
  have hmem : ∀ line, line ∈ (retained size map.entries).map (·.2.line) ↔
      line ∈ (retained size map'.entries).map (·.2.line) := by
    intro line
    rw [mem_retained_iff hc h, mem_retained_iff hc' (grouped_perm h hp)]
    have hclass : ∀ a, classOf cls a (front :: rest).flatten ~ classOf cls a (front' :: rest').flatten :=
      fun a => hflat.filter _
    simp only [hflat.mem_iff, (hclass _).length_eq, MeanCluster.mean_perm (hclass _)]
  have hsorted : ∀ map : LineMap, (∀ e ∈ map.entries, e.1 = e.2.line.position) →
      ((retained size map.entries).map (·.2.line)).Pairwise fun a b => a.position < b.position := fun map hkey =>
    List.pairwise_map.mp (retained_increasing hkey size)
  have hirr : Std.Irrefl fun a b : LineGrid.Line => a.position < b.position := ⟨fun a => lt_irrefl a.position⟩
  have hanti : Std.Antisymm fun a b : LineGrid.Line => a.position < b.position :=
    ⟨fun a b h₁ h₂ => absurd h₁ h₂.not_gt⟩
  exact (hsorted map fun e he => (hc.entry e he).key).eq_of_mem_iff (hsorted map' fun e he => (hc'.entry e he).key) hmem

/-- The target line that a line goes to: the one at the mean of its class, else the 0 of the look-up table. -/
def targetIndex (cls : ℚ → ℕ) (all target : List LineGrid.Line) (line : LineGrid.Line) : ℕ :=
  (target.findIdx? fun t => t.position = MeanCluster.mean (·.position) (classOf cls line all)).getD 0

theorem targetIndex_perm {all all' : List LineGrid.Line} (hp : all ~ all') (target : List LineGrid.Line) :
    targetIndex cls all target = targetIndex cls all' target := by
  funext line
  have hclass : classOf cls line all ~ classOf cls line all' := hp.filter _
  unfold targetIndex
  rw [MeanCluster.mean_perm hclass]

/-- **Each line is mapped to the target line of its class.** -/
theorem lookup_grouped {front : List LineGrid.Line} {rest : List (List LineGrid.Line)} {map : LineMap}
    {lines : List LineGrid.Line} {get : GridMapper → ℕ → Option ℕ} {mappers : List GridMapper}
    (hr : Result limit front rest map lines get mappers) (h : Grouped limit cls (front :: rest)) (r : Referee) :
    lookup get mappers r =
      (lineRef (front :: rest) r).map (targetIndex cls (front :: rest).flatten lines) := by
  obtain ⟨hc, hm, hun⟩ := hr
  cases hline : lineRef (front :: rest) r with
  | none =>
    -- a referee is a line of some grid
    refine (hun r fun e he hre => ?_).trans (by rw [hline]; rfl)
    obtain ⟨line, hl⟩ := (hc.entry e (List.mem_of_mem_filter he)).valid r hre
    rw [hline] at hl
    cases hl
  | some line =>
    have hin : r ∈ referees map := (hc.mem_iff r).mpr ⟨line, hline, fun h0 j l hj hl => by
      obtain ⟨g, i⟩ := r
      obtain rfl : g = 0 := h0
      exact nodup_positions_iff.mp (grouped_front_nodup h) i j line l hline hj hl⟩
    obtain ⟨e, he, hre⟩ := List.mem_flatMap.mp hin
    have hmean : e.1 = MeanCluster.mean (·.position) (classOf cls line (front :: rest).flatten) := by
      have hmem : line ∈ members (lineRef (front :: rest)) e.2 := List.mem_filterMap.mpr ⟨r, hre, hline⟩
      rw [(hc.entry e he).key, (hc.entry e he).mean, MeanCluster.mean_perm ((members_perm_classOf hc h).2 e he line hmem)]
    -- a retained entry is the one of the line iff it has its key
    have hkey : ∀ e' ∈ retained (rest.length + 1) map.entries, e'.2.line.position = e.1 ↔ e' = e := fun e' he' => by
      have he'' := List.mem_of_mem_filter he'
      rw [← (hc.entry e' he'').key]
      exact ⟨map.eq_of_key he'' he, fun heq => by rw [heq]⟩
    rw [Option.map_some]
    unfold targetIndex
    rw [← hmean, hm.retains]
    by_cases hret : e ∈ retained (rest.length + 1) map.entries
    · obtain ⟨t, ht⟩ := List.getElem?_of_mem hret
      rw [hm.mapped t e ht r.1 r.2 hre]
      have hlt := (List.getElem?_eq_some_iff.mp ht).1
      have hidx : ((retained (rest.length + 1) map.entries).map (·.2.line)).findIdx? (fun t => t.position = e.1) =
          some t := by
        rw [List.findIdx?_map, List.findIdx?_eq_some_iff_getElem]
        have htarget := (List.getElem?_eq_some_iff.mp ht).2
        refine ⟨hlt, ?_, fun j hj => ?_⟩
        · simpa [htarget] using (hkey e hret).mpr rfl
        · have hsorted : (retained (rest.length + 1) map.entries).Pairwise fun a b => a.1 < b.1 := map.sorted.filter _
          have hbelow := List.pairwise_iff_getElem.mp hsorted j t (hj.trans hlt) hlt hj
          rw [htarget] at hbelow
          have hne := mt (hkey _ (List.getElem_mem (hj.trans hlt))).mp fun heq => hbelow.ne (by rw [heq])
          simpa using hne
      rw [hidx]
      rfl
    · rw [hun r fun e' he' hre' => hret (by
        rwa [eq_of_referee hc.nodup he (List.mem_of_mem_filter he') hre hre']), hline]
      have hidx : ((retained (rest.length + 1) map.entries).map (·.2.line)).findIdx? (fun t => t.position = e.1) =
          none := by
        rw [List.findIdx?_map, List.findIdx?_eq_none_iff]
        intro e' he'
        have hne := mt (hkey e' he').mp fun heq => hret (heq ▸ he')
        simpa using hne
      rw [hidx]
      rfl

/-- Every grid has a line in each direction, and the lines of each direction are grouped. -/
structure LinesGrouped (grids : List LineGrid) : Prop where
  horizontal_ne_nil : ∀ g ∈ grids, g.horizonalLines ≠ []
  vertical_ne_nil : ∀ g ∈ grids, g.verticalLines ≠ []
  horizontal : ∃ cls, Grouped limitHorizontal cls (grids.map (·.horizonalLines))
  vertical : ∃ cls, Grouped limitVertical cls (grids.map (·.verticalLines))

/-- The mapper that takes the lines of a grid to target lines by their positions. -/
def mapperOf (horizontal vertical : LineGrid.Line → ℕ) (g : LineGrid) : GridMapper :=
  ⟨g.horizonalLines.map horizontal, g.verticalLines.map vertical⟩

/-- A mapper is known by what it says of each line. -/
theorem mapper_of_lookup {grids : List LineGrid} {mappers : List GridMapper} {horizontal vertical : LineGrid.Line → ℕ}
    (hh : ∀ r, lookup GridMapper.mapHorizontal mappers r = (lineRef (grids.map (·.horizonalLines)) r).map horizontal)
    (hv : ∀ r, lookup GridMapper.mapVertical mappers r = (lineRef (grids.map (·.verticalLines)) r).map vertical)
    {k : ℕ} {g : LineGrid} (hg : grids[k]? = some g) (hne : g.horizonalLines ≠ []) :
    mappers[k]? = some (mapperOf horizontal vertical g) := by
  have hhor : ∀ i, lineRef (grids.map (·.horizonalLines)) (k, i) = g.horizonalLines[i]? := fun i => by
    unfold lineRef
    rw [List.getElem?_map, hg]
    rfl
  have hvert : ∀ i, lineRef (grids.map (·.verticalLines)) (k, i) = g.verticalLines[i]? := fun i => by
    unfold lineRef
    rw [List.getElem?_map, hg]
    rfl
  -- the first line has a mapper
  obtain ⟨m, hm⟩ : ∃ m, mappers[k]? = some m := by
    have hlt := List.length_pos_iff.mpr hne
    have h0 := hh (k, 0)
    rw [hhor, List.getElem?_eq_getElem hlt] at h0
    obtain ⟨m, hm, -⟩ := Option.bind_eq_some_iff.mp h0
    exact ⟨m, hm⟩
  obtain ⟨tableH, tableV⟩ := m
  have hlook : ∀ (get : GridMapper → ℕ → Option ℕ) i, lookup get mappers (k, i) = get ⟨tableH, tableV⟩ i := fun get i => by
    unfold lookup
    rw [hm]
    rfl
  have hH : tableH = g.horizonalLines.map horizontal := List.ext_getElem? fun i => by
    rw [List.getElem?_map, ← hhor, ← hh, hlook]
    rfl
  have hV : tableV = g.verticalLines.map vertical := List.ext_getElem? fun i => by
    rw [List.getElem?_map, ← hvert, ← hv, hlook]
    rfl
  rw [hm, hH, hV]
  rfl

/-- **The target of grouped lines**, and each grid's mapper, do not depend on the order of the grids. -/
theorem averageGrids_perm {grids grids' : List LineGrid} (hp : grids ~ grids') (h : LinesGrouped grids)
    (hne : grids ≠ []) :
    ∃ target mappers mappers' horizontal vertical, averageGrids grids = some (target, mappers) ∧
      averageGrids grids' = some (target, mappers') ∧
      (∀ (k : ℕ) g, grids[k]? = some g → mappers[k]? = some (mapperOf horizontal vertical g)) ∧
      ∀ (k : ℕ) g, grids'[k]? = some g → mappers'[k]? = some (mapperOf horizontal vertical g) := by
  obtain ⟨front, rest, rfl⟩ := List.exists_cons_of_ne_nil hne
  have hne' : grids' ≠ [] := fun hnil => hne (hnil ▸ hp).eq_nil
  obtain ⟨front', rest', rfl⟩ := List.exists_cons_of_ne_nil hne'
  have hmem : ∀ g ∈ front' :: rest', g ∈ front :: rest := fun g hg => hp.mem_iff.mpr hg
  obtain ⟨hor, vert, target, mappers, -, havg, hh, hv⟩ := averageGrids_result front rest
    (started_of_ne_nil (h.horizontal_ne_nil front List.mem_cons_self) _)
    (started_of_ne_nil (h.vertical_ne_nil front List.mem_cons_self) _)
  obtain ⟨hor', vert', target', mappers', -, havg', hh', hv'⟩ := averageGrids_result front' rest'
    (started_of_ne_nil (h.horizontal_ne_nil front' (hmem front' List.mem_cons_self)) _)
    (started_of_ne_nil (h.vertical_ne_nil front' (hmem front' List.mem_cons_self)) _)
  obtain ⟨cls, hcls⟩ := h.horizontal
  obtain ⟨cls', hcls'⟩ := h.vertical
  have hpH := hp.map (·.horizonalLines)
  have hpV := hp.map (·.verticalLines)
  have hlen : rest.length = rest'.length := by simpa using hp.length_eq
  have e₁ : target.horizonalLines = target'.horizonalLines := by
    rw [hh.mappedTo.retains, hh'.mappedTo.retains, List.length_map, List.length_map, hlen]
    exact retained_eq hpH hcls hh.clustered hh'.clustered _
  have e₂ : target.verticalLines = target'.verticalLines := by
    rw [hv.mappedTo.retains, hv'.mappedTo.retains, List.length_map, List.length_map, hlen]
    exact retained_eq hpV hcls' hv.clustered hv'.clustered _
  obtain ⟨lh, lv⟩ := target
  obtain ⟨lh', lv'⟩ := target'
  obtain rfl : lh = lh' := e₁
  obtain rfl : lv = lv' := e₂
  have hlookH := lookup_grouped hh' (grouped_perm hcls hpH)
  have hlookV := lookup_grouped hv' (grouped_perm hcls' hpV)
  simp only [← List.map_cons (f := fun g : LineGrid => g.horizonalLines), targetIndex_perm hpH.symm.flatten] at hlookH
  simp only [← List.map_cons (f := fun g : LineGrid => g.verticalLines), targetIndex_perm hpV.symm.flatten] at hlookV
  refine ⟨_, mappers, mappers', targetIndex cls ((front :: rest).map (·.horizonalLines)).flatten lh,
    targetIndex cls' ((front :: rest).map (·.verticalLines)).flatten lv, havg, havg', fun k g hg => ?_, fun k g hg => ?_⟩
  · exact mapper_of_lookup (lookup_grouped hh hcls) (lookup_grouped hv hcls') hg
      (h.horizontal_ne_nil g (List.mem_of_getElem? hg))
  · exact mapper_of_lookup hlookH hlookV hg (h.horizontal_ne_nil g (hmem g (List.mem_of_getElem? hg)))

end Target

/-- **The result** does not depend on the order of the grids. -/
theorem calibrate_perm {c c' : Calibrator} (hp : c.pointGridList ~ c'.pointGridList)
    (h : ∀ grids, c.pointGridList.mapM LineGrid.ofPointGrid = some grids → LinesGrouped grids)
    (hserial : c.serial = c'.serial) {S S' : StdSort} {H H' : HashOrder} (hlens : c.lensCalib S H = c'.lensCalib S' H')
    (fitLine : FitLine) :
    c.target.map (·.1) = c'.target.map (·.1) ∧ calibrate S H fitLine c = calibrate S' H' fitLine c' := by
  unfold calibrate target
  rw [hserial, hlens]
  cases hg : c.pointGridList.mapM LineGrid.ofPointGrid with
  | none =>
    have hg' : c'.pointGridList.mapM LineGrid.ofPointGrid = none := by
      cases hg' : c'.pointGridList.mapM LineGrid.ofPointGrid with
      | none => rfl
      | some grids' =>
        obtain ⟨r, hr, -⟩ := mapM_perm hp.symm hg'
        rw [hg] at hr
        cases hr
    rw [hg']
    exact ⟨rfl, rfl⟩
  | some grids =>
    obtain ⟨grids', hg', hperm⟩ := mapM_perm hp hg
    rw [hg']
    by_cases hne : grids = []
    · subst hne
      obtain rfl := hperm.nil_eq
      exact ⟨rfl, rfl⟩
    · obtain ⟨target, mappers, mappers', horizontal, vertical, havg, havg', hm, hm'⟩ :=
        averageGrids_perm hperm (h grids hg) hne
      -- the mapper of an image, by its line grid
      let mapper (g : PointGrid) : GridMapper := mapperOf horizontal vertical ((LineGrid.ofPointGrid g).getD ⟨[], []⟩)
      have hmapper : ∀ {gs : List PointGrid} {lgs : List LineGrid} {ms : List GridMapper},
          gs.mapM LineGrid.ofPointGrid = some lgs →
          (∀ (k : ℕ) g, lgs[k]? = some g → ms[k]? = some (mapperOf horizontal vertical g)) →
          ∀ (k : ℕ) g, gs[k]? = some g → ms[k]? = some (mapper g) := by
        intro gs lgs ms hgs hms k g hk
        obtain ⟨lg, hlg, hk'⟩ := mapM_getElem? hgs hk
        rw [hms k lg hk']
        show _ = some (mapperOf horizontal vertical ((LineGrid.ofPointGrid g).getD ⟨[], []⟩))
        rw [hlg]
        rfl
      have htrans : ∀ angle, ArrayCalibration.calibrateTranslation fitLine _ angle target mappers =
          ArrayCalibration.calibrateTranslation fitLine _ angle target mappers' := fun angle =>
        ArrayCalibration.calibrateTranslation_perm hp (hmapper hg hm) (hmapper hg' hm') angle target
      show (GridMath.averageGrids grids).map _ = (GridMath.averageGrids grids').map _ ∧
        (GridMath.averageGrids grids).bind _ = (GridMath.averageGrids grids').bind _
      rw [havg, havg', Option.bind_some, Option.bind_some]
      refine ⟨rfl, ?_⟩
      simp only [ArrayCalibration.calibrateRotation_perm hp, htrans]

/-- **Calibration does not depend on the order of the images** where their lines are grouped and equal
zoom and focus steps have equal focal lengths. -/
theorem calibrate_order_independent (S S' : StdSort) (H H' : HashOrder) (fitLine : FitLine) (serial : String)
    (adds adds' : List (PointGrid × Metadata)) (hp : adds.Perm adds') (hserial : ∀ a ∈ adds, a.2.serialnumber = serial)
    (hgroup : ∀ grids, (adds.map (·.1)).mapM LineGrid.ofPointGrid = some grids → LinesGrouped grids)
    (hfocal : FocalByStep adds) :
    ∃ c c', addGrids adds = .ok c ∧ addGrids adds' = .ok c' ∧ c.target.map (·.1) = c'.target.map (·.1) ∧
      c.lensCalib S H = c'.lensCalib S' H' ∧
      ∀ r r', calibrate S H fitLine c = some r → calibrate S' H' fitLine c' = some r' →
        r.array.grid = r'.array.grid ∧ r.lens = r'.lens := by
  obtain ⟨c, hc, hh⟩ := holds_addGrids hserial
  obtain ⟨c', hc', hh'⟩ := holds_addGrids fun a ha => hserial a (hp.mem_iff.mpr ha)
  have hlens := lensCalib_eq hp hfocal hh.keys hh'.keys S S' H H'
  have hgrids : c.pointGridList ~ c'.pointGridList := by
    rw [hh.grids, hh'.grids]
    exact hp.map _
  have hsame : c.serial = c'.serial := by
    rcases hh.serial with hs | ⟨rfl, hs⟩
    · rcases hh'.serial with hs' | ⟨rfl, hs'⟩
      · rw [hs, hs']
      · obtain rfl := hp.eq_nil
        obtain rfl : c = c' := Except.ok.inj (hc.symm.trans hc')
        rfl
    · obtain rfl := hp.nil_eq
      obtain rfl : c = c' := Except.ok.inj (hc.symm.trans hc')
      rfl
  obtain ⟨htarget, hresult⟩ := calibrate_perm hgrids (by rw [hh.grids]; exact hgroup) hsame hlens fitLine
  refine ⟨c, c', hc, hc', htarget, hlens, fun r r' hr hr' => ?_⟩
  obtain rfl : r = r' := Option.some.inj (hr.symm.trans (hresult.trans hr'))
  exact ⟨rfl, rfl⟩

/-! ## Three images -/

/-- The image of an array whose first row is at `x` and whose first column is at 0. -/
def imageAt (x focallength : ℚ) : PointGrid × Metadata :=
  (ArrayCalibration.imaged fun p => ⟨p.x + x, p.y⟩, ⟨"A", ⟨0, 0, focallength⟩⟩)

/-- A hash map iterated in insertion order. -/
def insertionOrder : HashOrder := ⟨id, fun l => List.Perm.refl l⟩

/-- The lines of the array, the rows `d` further on. -/
def rowsAt (d : ℚ) : LineGrid :=
  { ArrayCalibration.crossingsTarget with
    horizonalLines := ArrayCalibration.crossingsTarget.horizonalLines.map fun l => ⟨l.subgrid, l.position + d⟩ }

theorem imageAt_lineGrids : ([imageAt 0 1, imageAt 1 1].map (·.1)).mapM LineGrid.ofPointGrid =
    some [rowsAt 0, rowsAt 1] := by decide +kernel

theorem linesGrouped_two : LinesGrouped [rowsAt 0, rowsAt 1] := by
  refine ⟨by decide +kernel, by decide +kernel, ⟨fun q => (q / 100).floor.toNat, ?_⟩, ⟨fun q => (q / 10).floor.toNat, ?_⟩⟩
  · refine ⟨by decide +kernel, by decide +kernel, ⟨by decide +kernel, by decide +kernel⟩, by decide +kernel⟩
  · refine ⟨by decide +kernel, by decide +kernel, ⟨by decide +kernel, by decide +kernel⟩, by decide +kernel⟩

theorem calibrate_order_independent_two :
    ∃ c c', addGrids [imageAt 0 1, imageAt 1 1] = .ok c ∧ addGrids [imageAt 1 1, imageAt 0 1] = .ok c' ∧
      c.target.map (·.1) = c'.target.map (·.1) ∧
      c.lensCalib .insertion insertionOrder = c'.lensCalib .insertion insertionOrder ∧
      ∀ r r', calibrate .insertion insertionOrder ArrayCalibration.chordFit c = some r →
        calibrate .insertion insertionOrder ArrayCalibration.chordFit c' = some r' →
        r.array.grid = r'.array.grid ∧ r.lens = r'.lens := by
  refine calibrate_order_independent .insertion .insertion insertionOrder insertionOrder
    ArrayCalibration.chordFit "A" [imageAt 0 1, imageAt 1 1] [imageAt 1 1, imageAt 0 1] (.swap _ _ _)
    (by simp [imageAt]) (fun grids hg => ?_) (by simp [FocalByStep, imageAt])
  obtain rfl := Option.some.inj (imageAt_lineGrids.symm.trans hg)
  exact linesGrouped_two

/-- Lines at 0, 16 and 30: the first two are averaged when they come in this order, the last two in the
other.  The focal length kept is that of the image that came first. -/
theorem order_dependent_three :
    ∃ c c', addGrids [imageAt 0 1, imageAt 16 2, imageAt 30 3] = .ok c ∧
      addGrids [imageAt 30 3, imageAt 16 2, imageAt 0 1] = .ok c' ∧
      c.target.map (·.1) ≠ c'.target.map (·.1) ∧
      c.lensCalib .insertion insertionOrder ≠ c'.lensCalib .insertion insertionOrder := by
  obtain ⟨c, hc, -⟩ := holds_addGrids (by simp [imageAt] : ∀ a ∈ [imageAt 0 1, imageAt 16 2, imageAt 30 3], a.2.serialnumber = "A")
  obtain ⟨c', hc', -⟩ := holds_addGrids (by simp [imageAt] : ∀ a ∈ [imageAt 30 3, imageAt 16 2, imageAt 0 1], a.2.serialnumber = "A")
  have hrun : (match addGrids [imageAt 0 1, imageAt 16 2, imageAt 30 3],
      addGrids [imageAt 30 3, imageAt 16 2, imageAt 0 1] with
    | .ok c, .ok c' => decide (c.target.map (·.1) ≠ c'.target.map (·.1) ∧
        c.lensCalib .insertion insertionOrder ≠ c'.lensCalib .insertion insertionOrder)
    | _, _ => false) = true := by decide +kernel
  rw [hc, hc'] at hrun
  exact ⟨c, c', hc, hc', of_decide_eq_true hrun⟩

end Lyli.Calibration.Calibrator
