import Mathlib
import Lyli.Calibration.GridMathMean

/-!
# The target grid and the mappers

`storeLines` keeps the entries with a majority, in order, and writes the index
of an entry into the mapper of each of its referees (`storeLines_spec`); what it
does not write stays 0.

    averageGrids_spec                  the averaging invariant and what the target and the mappers hold,
                                       in exact arithmetic
    averageGrids_sound_iff             every mapping is right ↔ all first positions distinct, no cluster
                                       lost, and every cluster of lines has a majority
-/

namespace Lyli.Calibration.GridMath

open scoped List

/-! ## Look-up tables -/

/-- `set` writes the table that `get` reads, and leaves the one `other` reads. -/
structure Lut (set : ℕ → ℕ → GridMapper → Option GridMapper) (get other : GridMapper → ℕ → Option ℕ) : Prop where
  set_some : ∀ (m : GridMapper) (i t : ℕ), (get m i).isSome → ∃ m', set i t m = some m'
  get_set : ∀ (m m' : GridMapper) (i t j : ℕ), set i t m = some m' → get m' j = if j = i then some t else get m j
  other_set : ∀ (m m' : GridMapper) (i t j : ℕ), set i t m = some m' → other m' j = other m j

theorem getElem?_set_lt {l : List ℕ} {i : ℕ} (hi : i < l.length) (t j : ℕ) :
    (l.set i t)[j]? = if j = i then some t else l[j]? := by
  rw [List.getElem?_set]
  by_cases hj : j = i
  · subst hj
    simp [hi]
  · rw [if_neg (Ne.symm hj), if_neg hj]

theorem lut_horizontal : Lut GridMapper.setHorizontal GridMapper.mapHorizontal GridMapper.mapVertical where
  set_some m i t hi := by
    obtain ⟨v, hv⟩ := Option.isSome_iff_exists.mp hi
    exact ⟨_, if_pos (List.getElem?_eq_some_iff.mp hv).1⟩
  get_set m m' i t j h := by
    unfold GridMapper.setHorizontal at h
    split_ifs at h with hi
    obtain rfl := Option.some.inj h
    exact getElem?_set_lt hi t j
  other_set m m' i t j h := by
    unfold GridMapper.setHorizontal at h
    split_ifs at h
    obtain rfl := Option.some.inj h
    rfl

theorem lut_vertical : Lut GridMapper.setVertical GridMapper.mapVertical GridMapper.mapHorizontal where
  set_some m i t hi := by
    obtain ⟨v, hv⟩ := Option.isSome_iff_exists.mp hi
    exact ⟨_, if_pos (List.getElem?_eq_some_iff.mp hv).1⟩
  get_set m m' i t j h := by
    unfold GridMapper.setVertical at h
    split_ifs at h with hi
    obtain rfl := Option.some.inj h
    exact getElem?_set_lt hi t j
  other_set m m' i t j h := by
    unfold GridMapper.setVertical at h
    split_ifs at h
    obtain rfl := Option.some.inj h
    rfl

/-- What the mapper of a referee's grid says of its line. -/
def lookup (get : GridMapper → ℕ → Option ℕ) (mappers : List GridMapper) (r : Referee) : Option ℕ :=
  mappers[r.1]?.bind fun m => get m r.2

section Store

variable {set : ℕ → ℕ → GridMapper → Option GridMapper} {get other : GridMapper → ℕ → Option ℕ} (hlut : Lut set get other)

include hlut

/-- **Storing one entry** maps its referees to it and nothing else. -/
theorem storeMapping_spec (t : ℕ) (rs : List Referee) (mappers : List GridMapper)
    (hin : ∀ r ∈ rs, (lookup get mappers r).isSome) :
    ∃ mappers', storeMapping set t rs mappers = some mappers' ∧
      (∀ r, lookup get mappers' r = if r ∈ rs then some t else lookup get mappers r) ∧
      ∀ r, lookup other mappers' r = lookup other mappers r := by
  unfold storeMapping
  induction rs generalizing mappers with
  | nil => exact ⟨mappers, rfl, by simp, fun _ => rfl⟩
  | cons r rs ih =>
    obtain ⟨v, hv⟩ := Option.isSome_iff_exists.mp (hin r List.mem_cons_self)
    obtain ⟨m, hm, hget⟩ := Option.bind_eq_some_iff.mp hv
    obtain ⟨m', hm'⟩ := hlut.set_some m r.2 t (by rw [hget]; rfl)
    have hlt := (List.getElem?_eq_some_iff.mp hm).1
    -- one write changes one look-up
    have hone : ∀ r', lookup get (mappers.set r.1 m') r' = if r' = r then some t else lookup get mappers r' := by
      intro r'
      unfold lookup
      rw [List.getElem?_set]
      by_cases hg : r.1 = r'.1
      · rw [if_pos hg, if_pos hlt, ← hg, hm]
        show get m' r'.2 = if r' = r then some t else get m r'.2
        rw [hlut.get_set m m' r.2 t r'.2 hm']
        by_cases hi : r'.2 = r.2
        · rw [if_pos hi, if_pos (Prod.ext hg.symm hi)]
        · rw [if_neg hi, if_neg fun h => hi (by rw [h])]
      · rw [if_neg hg, if_neg fun h => hg (by rw [h])]
    have hother : ∀ r', lookup other (mappers.set r.1 m') r' = lookup other mappers r' := by
      intro r'
      unfold lookup
      rw [List.getElem?_set]
      by_cases hg : r.1 = r'.1
      · rw [if_pos hg, if_pos hlt, ← hg, hm]
        exact hlut.other_set m m' r.2 t r'.2 hm'
      · rw [if_neg hg]
    obtain ⟨mappers', hs, hl, ho⟩ := ih (mappers.set r.1 m') fun r' hr' => by
      rw [hone]
      split_ifs
      · rfl
      · exact hin r' (List.mem_cons_of_mem _ hr')
    refine ⟨mappers', ?_, fun r' => ?_, fun r' => (ho r').trans (hother r')⟩
    · refine foldlM_cons_some.mpr ⟨mappers.set r.1 m', ?_, hs⟩
      exact Option.bind_eq_some_iff.mpr ⟨m, hm, Option.bind_eq_some_iff.mpr ⟨m', hm', rfl⟩⟩
    · rw [hl, hone]
      by_cases hr' : r' ∈ rs
      · rw [if_pos hr', if_pos (List.mem_cons_of_mem _ hr')]
      · by_cases hrr : r' = r
        · rw [if_neg hr', if_pos hrr, if_pos (by rw [hrr]; exact List.mem_cons_self)]
        · rw [if_neg hr', if_neg hrr, if_neg (by simp [hrr, hr'])]

omit hlut in
/-- The entries more than half of `size` grids have. -/
def retained (size : ℕ) (entries : List (ℚ × LineEntry)) : List (ℚ × LineEntry) :=
  entries.filter fun e => e.2.counter > size / 2

omit hlut in
theorem mem_retained {size : ℕ} {e : ℚ × LineEntry} {entries : List (ℚ × LineEntry)} :
    e ∈ retained size entries ↔ e ∈ entries ∧ size / 2 < e.2.counter := by
  unfold retained
  rw [List.mem_filter, decide_eq_true_iff]

/-- **Storing the entries** keeps those with a majority and maps their referees to their index. -/
theorem storeLines_spec (size : ℕ) (entries : List (ℚ × LineEntry)) (t₀ : ℕ) (mappers : List GridMapper)
    (hin : ∀ e ∈ entries, ∀ r ∈ e.2.referees, (lookup get mappers r).isSome)
    (hnd : (entries.flatMap fun e => e.2.referees).Nodup) :
    ∃ mappers', storeLines set size entries t₀ mappers = some ((retained size entries).map (·.2.line), mappers') ∧
      (∀ (t : ℕ) (e : ℚ × LineEntry), (retained size entries)[t]? = some e → ∀ r ∈ e.2.referees,
        lookup get mappers' r = some (t₀ + t)) ∧
      (∀ r, (∀ e ∈ retained size entries, r ∉ e.2.referees) → lookup get mappers' r = lookup get mappers r) ∧
      ∀ r, lookup other mappers' r = lookup other mappers r := by
  induction entries generalizing t₀ mappers with
  | nil => exact ⟨mappers, rfl, by simp [retained], fun _ _ => rfl, fun _ => rfl⟩
  | cons a entries ih =>
    rw [List.flatMap_cons, List.nodup_append] at hnd
    obtain ⟨-, hndRest, hdisj⟩ := hnd
    have hinRest : ∀ e ∈ entries, ∀ r ∈ e.2.referees, (lookup get mappers r).isSome :=
      fun e he => hin e (List.mem_cons_of_mem _ he)
    unfold storeLines
    by_cases hmaj : a.2.counter > size / 2
    · have hret : retained size (a :: entries) = a :: retained size entries := by
        unfold retained
        rw [List.filter_cons_of_pos (by simpa using hmaj)]
      obtain ⟨m₁, h₁, hl₁, ho₁⟩ := storeMapping_spec hlut t₀ a.2.referees mappers (hin a List.mem_cons_self)
      obtain ⟨m₂, h₂, hl₂, hkeep₂, ho₂⟩ := ih (t₀ + 1) m₁ (fun e he r hr => by
        rw [hl₁]
        split_ifs
        · rfl
        · exact hinRest e he r hr) hndRest
      refine ⟨m₂, ?_, ?_, ?_, fun r => (ho₂ r).trans (ho₁ r)⟩
      · rw [if_pos hmaj, hret, List.map_cons]
        exact Option.bind_eq_some_iff.mpr ⟨m₁, h₁, Option.bind_eq_some_iff.mpr ⟨_, h₂, rfl⟩⟩
      · intro t e he r hr
        rw [hret] at he
        cases t with
        | zero =>
          obtain rfl : a = e := Option.some.inj he
          -- no later entry has the referee
          rw [hkeep₂ r fun e' he' hr' => hdisj r hr r (List.mem_flatMap.mpr
            ⟨e', List.mem_of_mem_filter he', hr'⟩) rfl, hl₁, if_pos hr]
          rfl
        | succ t =>
          rw [hl₂ t e he r hr]
          congr 1
          omega
      · intro r hno
        rw [hret] at hno
        rw [hkeep₂ r fun e he => hno e (List.mem_cons_of_mem _ he), hl₁, if_neg (hno a List.mem_cons_self)]
    · have hret : retained size (a :: entries) = retained size entries := by
        unfold retained
        rw [List.filter_cons_of_neg (by simpa using hmaj)]
      rw [if_neg hmaj, hret]
      exact ih t₀ mappers hinRest hndRest

end Store

/-! ## One direction of the result -/

/-- The averaging invariant of the map of one direction. -/
structure AveragingInvariant (grids : List (List LineGrid.Line)) (map : LineMap) : Prop where
  /-- keys are strictly increasing and equal the positions -/
  sorted : map.keys.Pairwise (· < ·)
  key : ∀ e ∈ map.entries, e.1 = e.2.line.position
  /-- the position is the mean of the referees' positions -/
  mean : ∀ e ∈ map.entries, ∃ lines, e.2.referees.map (lineRef grids) = lines.map some ∧ lines ≠ [] ∧
    e.2.line.position = (lines.map (·.position)).sum / (lines.length : ℚ)
  counter : ∀ e ∈ map.entries, e.2.counter = e.2.referees.length
  /-- no line is a referee of two entries or twice of one -/
  once : (map.entries.flatMap fun e => e.2.referees).Nodup
  /-- every line of the later grids is a referee -/
  covers : ∀ (g i : ℕ) (line : LineGrid.Line), 1 ≤ g → lineRef grids (g, i) = some line →
    ∃ e ∈ map.entries, (g, i) ∈ e.2.referees
  /-- and the first line of the first grid at each of its positions -/
  coversFirst : ∀ (i : ℕ) (line : LineGrid.Line), lineRef grids (0, i) = some line →
    (∀ (j : ℕ) (l : LineGrid.Line), j < i → lineRef grids (0, j) = some l → l.position ≠ line.position) →
    ∃ e ∈ map.entries, (0, i) ∈ e.2.referees

/-- What the target and the mappers hold for one direction. -/
structure MappedTo (size : ℕ) (map : LineMap) (lines : List LineGrid.Line) (get : GridMapper → ℕ → Option ℕ)
    (mappers : List GridMapper) : Prop where
  retains : lines = (retained size map.entries).map (·.2.line)
  increasing : (lines.map (·.position)).Pairwise (· < ·)
  mapped : ∀ (t : ℕ) (e : ℚ × LineEntry), (retained size map.entries)[t]? = some e → ∀ g i, (g, i) ∈ e.2.referees →
    lookup get mappers (g, i) = some t

theorem retained_increasing {map : LineMap} (hkey : ∀ e ∈ map.entries, e.1 = e.2.line.position) (size : ℕ) :
    (((retained size map.entries).map (·.2.line)).map (·.position)).Pairwise (· < ·) := by
  rw [List.map_map, List.pairwise_map]
  refine (map.sorted.filter _).imp_of_mem fun {a b} ha hb hlt => ?_
  show a.2.line.position < b.2.line.position
  rwa [← hkey a (List.mem_of_mem_filter ha), ← hkey b (List.mem_of_mem_filter hb)]

/-- Before anything is stored every line is mapped to 0. -/
theorem lookup_ofSizes (grids : List LineGrid) (r : Referee) :
    lookup GridMapper.mapHorizontal (grids.map fun g => .ofSizes g.horizonalLines.length g.verticalLines.length) r =
      (lineRef (grids.map (·.horizonalLines)) r).map (fun _ => 0) ∧
    lookup GridMapper.mapVertical (grids.map fun g => .ofSizes g.horizonalLines.length g.verticalLines.length) r =
      (lineRef (grids.map (·.verticalLines)) r).map (fun _ => 0) := by
  unfold lookup lineRef
  rw [List.getElem?_map, List.getElem?_map, List.getElem?_map]
  have hzero : ∀ lines : List LineGrid.Line, (List.replicate lines.length 0)[r.2]? = lines[r.2]?.map fun _ => 0 := by
    intro lines
    rw [List.getElem?_replicate]
    split_ifs with hi
    · rw [List.getElem?_eq_getElem hi]
      rfl
    · rw [List.getElem?_eq_none (not_lt.mp hi)]
      rfl
  cases grids[r.1]? with
  | none => exact ⟨rfl, rfl⟩
  | some g => exact ⟨hzero g.horizonalLines, hzero g.verticalLines⟩

/-- All that is known of one direction of the result. -/
structure Result [Rounding] (limit : ℚ) (front : List LineGrid.Line) (rest : List (List LineGrid.Line)) (map : LineMap)
    (lines : List LineGrid.Line) (get : GridMapper → ℕ → Option ℕ) (mappers : List GridMapper) : Prop where
  clustered : Clustered limit front rest map
  mappedTo : MappedTo (rest.length + 1) map lines get mappers
  unmapped : ∀ r, (∀ e ∈ retained (rest.length + 1) map.entries, r ∉ e.2.referees) →
    lookup get mappers r = (lineRef (front :: rest) r).map fun _ => 0

theorem limitHorizontal_pos : 0 < limitHorizontal := by unfold limitHorizontal; norm_num

theorem limitVertical_pos : 0 < limitVertical := by unfold limitVertical; norm_num

theorem averageGrids_result {R : Rounding} (front : LineGrid) (rest : List LineGrid)
    (hh : Started front.horizonalLines (rest.map (·.horizonalLines)))
    (hv : Started front.verticalLines (rest.map (·.verticalLines))) :
    ∃ horizontal vertical target mappers, lineMaps (front :: rest) = some (horizontal, vertical) ∧
      averageGrids (front :: rest) = some (target, mappers) ∧
      Result limitHorizontal front.horizonalLines (rest.map (·.horizonalLines)) horizontal target.horizonalLines
        GridMapper.mapHorizontal mappers ∧
      Result limitVertical front.verticalLines (rest.map (·.verticalLines)) vertical target.verticalLines
        GridMapper.mapVertical mappers := by
  obtain ⟨hor, hhor, hch⟩ := directionMap_spec limitHorizontal_pos hh
  obtain ⟨vert, hvert, hcv⟩ := directionMap_spec limitVertical_pos hv
  have hmaps : lineMaps (front :: rest) = some (hor, vert) := lineMaps_some.mpr ⟨hhor, hvert⟩
  have hinit := lookup_ofSizes (front :: rest)
  obtain ⟨m₁, h₁, hl₁, hkeep₁, ho₁⟩ := storeLines_spec lut_horizontal (front :: rest).length hor.entries 0
    ((front :: rest).map fun g => .ofSizes g.horizonalLines.length g.verticalLines.length) (fun e he r hr => by
      obtain ⟨line, hl⟩ := (hch.entry e he).valid r hr
      rw [(hinit r).1, List.map_cons, hl]
      rfl) hch.nodup
  obtain ⟨m₂, h₂, hl₂, hkeep₂, ho₂⟩ := storeLines_spec lut_vertical (front :: rest).length vert.entries 0 m₁
    (fun e he r hr => by
      obtain ⟨line, hl⟩ := (hcv.entry e he).valid r hr
      rw [ho₁, (hinit r).2, List.map_cons, hl]
      rfl) hcv.nodup
  refine ⟨hor, vert, ⟨(retained (front :: rest).length hor.entries).map (·.2.line),
    (retained (front :: rest).length vert.entries).map (·.2.line)⟩, m₂, hmaps, ?_, ⟨hch, ⟨?_, ?_, ?_⟩, ?_⟩, ⟨hcv, ⟨?_, ?_, ?_⟩, ?_⟩⟩
  · exact Option.bind_eq_some_iff.mpr ⟨_, hmaps, Option.bind_eq_some_iff.mpr ⟨_, h₁,
      Option.bind_eq_some_iff.mpr ⟨_, h₂, rfl⟩⟩⟩
  · rw [List.length_map]
    rfl
  · exact retained_increasing (fun e he => (hch.entry e he).key) _
  · intro t e he g i hr
    rw [List.length_map] at he
    rw [ho₂, hl₁ t e he (g, i) hr, Nat.zero_add]
  · intro r hno
    rw [List.length_map] at hno
    rw [ho₂, hkeep₁ r hno, (hinit r).1, List.map_cons]
  · rw [List.length_map]
    rfl
  · exact retained_increasing (fun e he => (hcv.entry e he).key) _
  · intro t e he g i hr
    rw [List.length_map] at he
    rw [hl₂ t e he (g, i) hr, Nat.zero_add]
  · intro r hno
    rw [List.length_map] at hno
    rw [hkeep₂ r hno, ho₁, (hinit r).2, List.map_cons]

/-- A grid of one line per direction. -/
def oneLine (x y : ℚ) : LineGrid := ⟨[⟨.subgridA, x⟩], [⟨.subgridA, y⟩]⟩

section Exact

attribute [local instance] Rounding.exact

theorem averagingInvariant_of_clustered {limit : ℚ} {front : List LineGrid.Line} {rest : List (List LineGrid.Line)}
    {map : LineMap} (h : Clustered limit front rest map) : AveragingInvariant (front :: rest) map where
  sorted := by
    unfold OrdMap.keys
    exact List.pairwise_map.mpr map.sorted
  key e he := (h.entry e he).key
  mean e he := by
    have hmem : ∀ rs : List Referee, (∀ r ∈ rs, ∃ line, lineRef (front :: rest) r = some line) →
        rs.map (lineRef (front :: rest)) = (rs.filterMap (lineRef (front :: rest))).map some := by
      intro rs
      induction rs with
      | nil => intro _; rfl
      | cons r rs ih =>
        intro hrs
        obtain ⟨line, hl⟩ := hrs r List.mem_cons_self
        rw [List.filterMap_cons_some hl, List.map_cons, List.map_cons, hl,
          ih fun r' hr' => hrs r' (List.mem_cons_of_mem _ hr')]
    obtain ⟨first, hfirst, -⟩ := (h.entry e he).first
    refine ⟨members (lineRef (front :: rest)) e.2, hmem _ (h.entry e he).valid, ?_, (h.entry e he).mean⟩
    intro hnil
    rw [hnil] at hfirst
    cases hfirst
  counter e he := (h.entry e he).counter
  once := h.nodup
  covers g i line hg hl :=
    List.mem_flatMap.mp ((h.mem_iff (g, i)).mpr ⟨line, hl, fun h0 => absurd h0 (by simp; omega)⟩)
  coversFirst i line hl hfirst := List.mem_flatMap.mp ((h.mem_iff (0, i)).mpr ⟨line, hl, fun _ => hfirst⟩)

/-- **Averaging.**  Both maps keep the averaging invariant; the target has the entries with a
majority, in increasing position, and the mappers take their referees to them. -/
theorem averageGrids_spec (front : LineGrid) (rest : List LineGrid) (hh : front.horizonalLines ≠ [])
    (hv : front.verticalLines ≠ []) :
    ∃ horizontal vertical target mappers, lineMaps (front :: rest) = some (horizontal, vertical) ∧
      averageGrids (front :: rest) = some (target, mappers) ∧
      AveragingInvariant ((front :: rest).map (·.horizonalLines)) horizontal ∧
      AveragingInvariant ((front :: rest).map (·.verticalLines)) vertical ∧
      MappedTo (front :: rest).length horizontal target.horizonalLines GridMapper.mapHorizontal mappers ∧
      MappedTo (front :: rest).length vertical target.verticalLines GridMapper.mapVertical mappers := by
  obtain ⟨hor, vert, target, mappers, hmaps, havg, hrh, hrv⟩ :=
    averageGrids_result front rest (started_of_ne_nil hh _) (started_of_ne_nil hv _)
  have h₁ := hrh.mappedTo
  have h₂ := hrv.mappedTo
  rw [List.length_map] at h₁ h₂
  exact ⟨hor, vert, target, mappers, hmaps, havg, averagingInvariant_of_clustered hrh.clustered,
    averagingInvariant_of_clustered hrv.clustered, h₁, h₂⟩

theorem averageGrids_spec_three : ∃ horizontal vertical target mappers,
    lineMaps [oneLine 0 0, oneLine 1 1, oneLine 100 100] = some (horizontal, vertical) ∧
    averageGrids [oneLine 0 0, oneLine 1 1, oneLine 100 100] = some (target, mappers) ∧
    AveragingInvariant ([oneLine 0 0, oneLine 1 1, oneLine 100 100].map (·.horizonalLines)) horizontal ∧
    AveragingInvariant ([oneLine 0 0, oneLine 1 1, oneLine 100 100].map (·.verticalLines)) vertical ∧
    MappedTo 3 horizontal target.horizonalLines GridMapper.mapHorizontal mappers ∧
    MappedTo 3 vertical target.verticalLines GridMapper.mapVertical mappers :=
  averageGrids_spec (oneLine 0 0) [oneLine 1 1, oneLine 100 100] (by decide) (by decide)

end Exact

/-! ## Soundness of the mappers -/

/-- Every mapping leads to a line of the target that the mapped line was averaged into. -/
def SoundMapping (size : ℕ) (map : LineMap) (lines : List LineGrid.Line) (get : GridMapper → ℕ → Option ℕ)
    (mappers : List GridMapper) : Prop :=
  ∀ (g i t : ℕ), lookup get mappers (g, i) = some t → t < lines.length ∧
    ∃ e, (retained size map.entries)[t]? = some e ∧ (g, i) ∈ e.2.referees

/-- No two lines of the first grid are at one position, no running mean becomes the key of another entry,
and clustering leaves no line in a cluster without a majority. -/
structure EveryLineKept [Rounding] (limit : ℚ) (front : List LineGrid.Line) (rest : List (List LineGrid.Line)) : Prop where
  distinct : (front.map (·.position)).Nodup
  kept : (rule (lineRef (front :: rest)) limit).EachMerge (rule (lineRef (front :: rest)) limit).Kept
    ((openers front).map fun r => [r]) (laterRefs rest)
  majority : ∀ cs, ClustersTo limit front rest cs → ∀ c ∈ cs, (rest.length + 1) / 2 < c.length

theorem nodup_positions_iff {front : List LineGrid.Line} : (front.map (·.position)).Nodup ↔
    ∀ (i j : ℕ) (line l : LineGrid.Line), front[i]? = some line → j < i → front[j]? = some l →
      l.position ≠ line.position := by
  rw [List.nodup_iff_getElem?_ne_getElem?]
  constructor
  · intro h i j line l hi hj hl heq
    have hlt := (List.getElem?_eq_some_iff.mp hi).1
    apply h j i hj (by simpa using hlt)
    rw [List.getElem?_map, List.getElem?_map, hi, hl, Option.map_some, Option.map_some, heq]
  · intro h i j hij hj heq
    rw [List.length_map] at hj
    rw [List.getElem?_map, List.getElem?_map, List.getElem?_eq_getElem hj, List.getElem?_eq_getElem (hij.trans hj)] at heq
    exact h j i _ _ (List.getElem?_eq_getElem hj) hij (List.getElem?_eq_getElem _) (Option.some.inj heq)

/-- A referee determines its entry. -/
theorem eq_of_referee {map : LineMap} (hnd : (referees map).Nodup) {e e' : ℚ × LineEntry} (he : e ∈ map.entries)
    (he' : e' ∈ map.entries) {r : Referee} (hr : r ∈ e.2.referees) (hr' : r ∈ e'.2.referees) : e = e' := by
  have hsymm : Std.Symm (Function.onFun List.Disjoint fun e : ℚ × LineEntry => e.2.referees) := ⟨fun _ _ h => h.symm⟩
  by_contra hne
  exact (List.nodup_flatMap.mp hnd).2.forall he he' hne hr hr'

/-- One direction of the soundness theorem. -/
theorem soundMapping_iff {R : Rounding} {limit : ℚ} {front : List LineGrid.Line} {rest : List (List LineGrid.Line)}
    {map : LineMap}
    {lines : List LineGrid.Line} {get : GridMapper → ℕ → Option ℕ} {mappers : List GridMapper}
    (h : Result limit front rest map lines get mappers) :
    SoundMapping (rest.length + 1) map lines get mappers ↔ EveryLineKept limit front rest := by
  obtain ⟨hc, hm, hun⟩ := h
  have hlen : lines.length = (retained (rest.length + 1) map.entries).length := by
    rw [hm.retains, List.length_map]
  -- soundness says that every line is a referee of a retained entry
  have hkept : SoundMapping (rest.length + 1) map lines get mappers ↔
      ∀ r line, lineRef (front :: rest) r = some line → ∃ e ∈ retained (rest.length + 1) map.entries, r ∈ e.2.referees := by
    constructor
    · intro hs r line hl
      by_contra hno
      push Not at hno
      have h0 := hun r hno
      rw [hl] at h0
      obtain ⟨-, e, he, hr⟩ := hs r.1 r.2 0 h0
      exact hno e (List.mem_of_getElem? he) hr
    · intro hall g i t hlook
      by_cases hr : ∃ e ∈ retained (rest.length + 1) map.entries, (g, i) ∈ e.2.referees
      · obtain ⟨e, he, hr⟩ := hr
        obtain ⟨t', ht'⟩ := List.getElem?_of_mem he
        rw [hm.mapped t' e ht' g i hr] at hlook
        obtain rfl := Option.some.inj hlook
        rw [hlen]
        exact ⟨(List.getElem?_eq_some_iff.mp ht').1, e, ht', hr⟩
      · push Not at hr
        rw [hun (g, i) hr] at hlook
        obtain ⟨line, hl, -⟩ := Option.map_eq_some_iff.mp hlook
        obtain ⟨e, he, hr'⟩ := hall (g, i) line hl
        exact absurd hr' (hr e he)
  rw [hkept]
  -- and that is: no line of the first grid is dropped, no entry is lost or fails the test
  have hcount : ∀ e ∈ map.entries, e.2.counter = e.2.referees.length := fun e he => (hc.entry e he).counter
  have hopen : ((openers front).map fun r => [r]).flatten = openers front := by
    rw [← List.flatMap_def, List.flatMap_singleton']
  have hin : ∀ r, r ∈ openers front ++ laterRefs rest → ∃ line, lineRef (front :: rest) r = some line := by
    intro r hr
    rcases List.mem_append.mp hr with hr | hr
    · obtain ⟨h0, line, hl, -⟩ := mem_openers.mp hr
      have hline : lineRef (front :: rest) (0, r.2) = some line := lineRef_front hl
      exact ⟨line, by rw [← hline, ← h0]⟩
    · exact ((mem_laterRefs front).mp hr).2
  constructor
  · intro hall
    refine ⟨?_, ?_, hc.forall_iff.mpr fun e he => ?_⟩
    · rw [nodup_positions_iff]
      intro i j line l hi hj hl
      obtain ⟨e, he, hr⟩ := hall (0, i) line hi
      have hmem := hc.referees.subset (List.mem_flatMap.mpr ⟨e, List.mem_of_mem_filter he, hr⟩)
      rcases List.mem_append.mp hmem with hmem | hmem
      · obtain ⟨-, line', hi', hfirst⟩ := mem_openers.mp hmem
        obtain rfl := Option.some.inj (hi.symm.trans hi')
        exact hfirst j l hj hl
      · exact absurd rfl ((mem_laterRefs front).mp hmem).1
    · rw [← Cluster.run_flatten_iff hc.clusters, hopen, ← referees_eq_flatten]
      refine (List.Subperm.antisymm hc.referees ?_)
      refine List.Nodup.subperm (allRefs_nodup front rest) fun r hr => ?_
      obtain ⟨line, hl⟩ := hin r hr
      obtain ⟨e, he, hr⟩ := hall r line hl
      exact List.mem_flatMap.mpr ⟨e, List.mem_of_mem_filter he, hr⟩
    · -- some referee of the entry is one of a retained entry, which is then this one
      obtain ⟨r, hr⟩ := List.exists_mem_of_ne_nil _ (hc.entry e he).referees_ne_nil
      obtain ⟨line, hl⟩ := (hc.entry e he).valid r hr
      obtain ⟨e', he', hr'⟩ := hall r line hl
      obtain ⟨hmem', hmaj⟩ := mem_retained.mp he'
      rw [← hcount e he, eq_of_referee hc.nodup he hmem' hr hr']
      exact hmaj
  · rintro ⟨hnd, hkept, hmaj⟩ r line hl
    have hflat := (Cluster.run_flatten_iff hc.clusters).mpr hkept
    rw [hopen, ← referees_eq_flatten] at hflat
    have hmem : r ∈ openers front ++ laterRefs rest := by
      rw [List.mem_append, mem_openers, mem_laterRefs front]
      by_cases h0 : r.1 = 0
      · obtain ⟨g, i⟩ := r
        obtain rfl : g = 0 := h0
        exact Or.inl ⟨rfl, line, hl, fun j l hj hl' => nodup_positions_iff.mp hnd i j line l hl hj hl'⟩
      · exact Or.inr ⟨h0, line, hl⟩
    obtain ⟨e, he, hr⟩ := List.mem_flatMap.mp (hflat.mem_iff.mpr hmem)
    have := hc.forall_iff.mp hmaj e he
    rw [← hcount e he] at this
    exact ⟨e, mem_retained.mpr ⟨he, this⟩, hr⟩

/-- **The mappers are sound** iff the clustering keeps every line of every grid: a line without a
mapping reads the 0 the table was filled with. -/
theorem averageGrids_sound_iff {R : Rounding} (front : LineGrid) (rest : List LineGrid) (hh : front.horizonalLines ≠ [])
    (hv : front.verticalLines ≠ []) :
    ∃ horizontal vertical target mappers, lineMaps (front :: rest) = some (horizontal, vertical) ∧
      averageGrids (front :: rest) = some (target, mappers) ∧
      ((SoundMapping (front :: rest).length horizontal target.horizonalLines GridMapper.mapHorizontal mappers ∧
        SoundMapping (front :: rest).length vertical target.verticalLines GridMapper.mapVertical mappers) ↔
        EveryLineKept limitHorizontal front.horizonalLines (rest.map (·.horizonalLines)) ∧
        EveryLineKept limitVertical front.verticalLines (rest.map (·.verticalLines))) := by
  obtain ⟨hor, vert, target, mappers, hmaps, havg, hrh, hrv⟩ :=
    averageGrids_result front rest (started_of_ne_nil hh _) (started_of_ne_nil hv _)
  have h₁ := soundMapping_iff hrh
  have h₂ := soundMapping_iff hrv
  rw [List.length_map] at h₁ h₂
  exact ⟨hor, vert, target, mappers, hmaps, havg, and_congr h₁ h₂⟩

section Floats

attribute [local instance] Rounding.ieee

theorem averageGrids_sound_iff_three : ∃ horizontal vertical target mappers,
    lineMaps [oneLine 0 0, oneLine 1 1, oneLine 100 100] = some (horizontal, vertical) ∧
    averageGrids [oneLine 0 0, oneLine 1 1, oneLine 100 100] = some (target, mappers) ∧
    ((SoundMapping 3 horizontal target.horizonalLines GridMapper.mapHorizontal mappers ∧
      SoundMapping 3 vertical target.verticalLines GridMapper.mapVertical mappers) ↔
      EveryLineKept limitHorizontal [⟨.subgridA, 0⟩] [[⟨.subgridA, 1⟩], [⟨.subgridA, 100⟩]] ∧
      EveryLineKept limitVertical [⟨.subgridA, 0⟩] [[⟨.subgridA, 1⟩], [⟨.subgridA, 100⟩]]) :=
  averageGrids_sound_iff (oneLine 0 0) [oneLine 1 1, oneLine 100 100] (by decide) (by decide)

/-- The line of the third grid fails the majority test, and is mapped to the one line of the target all the same. -/
theorem three_not_sound : ∃ horizontal vertical target mappers,
    lineMaps [oneLine 0 0, oneLine 1 1, oneLine 100 100] = some (horizontal, vertical) ∧
    averageGrids [oneLine 0 0, oneLine 1 1, oneLine 100 100] = some (target, mappers) ∧
    ¬ SoundMapping 3 horizontal target.horizonalLines GridMapper.mapHorizontal mappers := by
  have hrun : (averageGrids [oneLine 0 0, oneLine 1 1, oneLine 100 100]).any (fun r =>
      (lineMaps [oneLine 0 0, oneLine 1 1, oneLine 100 100]).any fun m =>
        lookup GridMapper.mapHorizontal r.2 (2, 0) == some 0 &&
          ((retained 3 m.1.entries)[0]?).any fun e => !e.2.referees.contains (2, 0)) = true := by decide +kernel
  obtain ⟨⟨target, mappers⟩, havg, h⟩ := (Option.any_eq_true _ _).mp hrun
  obtain ⟨⟨hor, vert⟩, hmaps, h⟩ := (Option.any_eq_true _ _).mp h
  rw [Bool.and_eq_true, beq_iff_eq, Option.any_eq_true] at h
  obtain ⟨hlook, e, he, hno⟩ := h
  refine ⟨hor, vert, target, mappers, hmaps, havg, fun hs => ?_⟩
  obtain ⟨-, e', he', hr⟩ := hs 2 0 0 hlook
  obtain rfl := Option.some.inj (he.symm.trans he')
  simp [hr] at hno

end Floats

end Lyli.Calibration.GridMath
