import Mathlib
import Lyli.Base.MeanCluster
import Lyli.Calibration.GridMathAverage

/-!
# Averaging without rounding

In exact arithmetic the running means are the means of the lines, so the lines are
clustered as by `MeanCluster.rule` (`rule_exact`).  No entry is lost: an entry keeps
its place in the map under its new mean (`insertLine_places`), and the entries hold
every line of the later grids and the first line at each position of the first one
(`Clustered.mem_iff`).
-/

namespace Lyli.Calibration.GridMath

open scoped List

open Rounding (absDiff absDiff_grows absDiff_exact)

attribute [local instance] Rounding.exact

/-! ## Means -/

theorem centre_exact (c : List ℚ) : centre c = MeanCluster.mean (fun q => q) c := by
  induction c using List.reverseRecOn with
  | nil => simp [centre, MeanCluster.mean]
  | append_singleton c q ih =>
    by_cases hc : c = []
    · subst hc
      rw [List.nil_append, MeanCluster.mean_singleton]
      rfl
    · rw [centre_append_singleton hc, ih, MeanCluster.mean_append_singleton]
      rfl

section Entries

variable {lineOf : Referee → Option LineGrid.Line} {e : ℚ × LineEntry}

theorem refCentre_exact (rs : List Referee) :
    refCentre lineOf rs = MeanCluster.mean (fun r => (refLine lineOf r).position) rs := by
  unfold refCentre
  rw [centre_exact]
  exact MeanCluster.mean_map (fun _ => rfl) rs

theorem rule_exact (limit : ℚ) :
    rule lineOf limit = MeanCluster.rule (fun r => (refLine lineOf r).position) limit := by
  unfold rule MeanCluster.rule
  rw [funext refCentre_exact]
  rfl

/-- The key of an entry is the mean over its referees. -/
theorem EntryInv.refMean (h : EntryInv lineOf e) :
    MeanCluster.mean (fun r => (refLine lineOf r).position) e.2.referees = e.1 := by
  rw [← refCentre_exact, h.refCentre]

/-- The position of an entry is the mean of its lines. -/
theorem EntryInv.mean (h : EntryInv lineOf e) :
    e.2.line.position = MeanCluster.mean (·.position) (members lineOf e.2) := by
  rw [members_eq_map h.valid, ← h.key, ← h.refMean]
  exact (MeanCluster.mean_map (fun _ => rfl) _).symm

end Entries

/-! ## Places in the map -/

/-- The line is averaged into the entry `e`, which keeps its place under the new mean. -/
def Averages (map : LineMap) (line : LineGrid.Line) (r : Referee) (e : ℚ × LineEntry) (map' : LineMap) : Prop :=
  map.nearest? absDiff line.position = some e ∧ ∃ l₁ l₂, map.entries = l₁ ++ e :: l₂ ∧
    map'.entries = l₁ ++ ((e.2.average line r).line.position, e.2.average line r) :: l₂

/-- The running mean lies between the old mean and the new position. -/
theorem average_mem_uIcc (e : LineEntry) (line : LineGrid.Line) (r : Referee) :
    (e.average line r).line.position ∈ Set.uIcc e.line.position line.position := by
  have hpos : (0 : ℚ) < (e.counter : ℚ) + 1 := by positivity
  rw [← segment_eq_uIcc]
  refine ⟨e.counter * (1 / ((e.counter : ℚ) + 1)), 1 / ((e.counter : ℚ) + 1), by positivity, by positivity, ?_, ?_⟩
  · field_simp
  · show _ = (e.counter : ℚ) * (1 / ((e.counter : ℚ) + 1)) * e.line.position + line.position * (1 / ((e.counter : ℚ) + 1))
    simp only [smul_eq_mul]
    ring

/-- **One `insertLine`** into a map whose keys are the positions, without rounding. -/
theorem insertLine_places {map map' : LineMap} {line : LineGrid.Line} {r : Referee} {limit : ℚ}
    (hkey : ∀ e ∈ map.entries, e.1 = e.2.line.position) (hlim : 0 < limit)
    (h : insertLine map line r limit = some map') :
    (∃ e, Averages map line r e map' ∧ |e.1 - line.position| < limit) ∨
    (Opens map line r map' ∧ ∀ e ∈ map.entries, limit ≤ |e.1 - line.position|) := by
  unfold insertLine at h
  split at h
  · cases h
  · next e he =>
    split at h
    · next hnear =>
      obtain rfl := Option.some.inj h
      have hmem := (map.nearest?_le absDiff_grows _ he).1
      have hbetween := average_mem_uIcc e.2 line r
      rw [← hkey e hmem] at hbetween
      exact Or.inl ⟨e, ⟨he, map.move_entries absDiff_grows _ he _ hbetween _⟩, hnear⟩
    · next hfar =>
      obtain rfl := Option.some.inj h
      have hall : ∀ e' ∈ map.entries, limit ≤ |e'.1 - line.position| := fun e' he' =>
        (not_lt.mp hfar).trans ((map.nearest?_le absDiff_grows _ he).2 e' he')
      refine Or.inr ⟨emplaced_opens fun e' he' heq => ?_, hall⟩
      have := hall e' he'
      rw [heq, sub_self, abs_zero] at this
      exact absurd this hlim.not_ge

/-! ## All grids, one direction -/

/-- The referees of a grid stand for its lines. -/
theorem gridRefs_lines {lineOf : Referee → Option LineGrid.Line} {g : ℕ} {lines : List LineGrid.Line}
    (h : ∀ (i : ℕ) (line : LineGrid.Line), lines[i]? = some line → lineOf (g, i) = some line) :
    (gridRefs g lines.length).map (refLine lineOf) = lines := by
  apply List.ext_getElem?
  intro i
  unfold gridRefs
  rw [List.map_map, List.getElem?_map]
  rcases Nat.lt_or_ge i lines.length with hi | hi
  · have hget : lines[i]? = some lines[i] := List.getElem?_eq_getElem hi
    rw [List.getElem?_range hi, Option.map_some, Function.comp_apply, refLine_eq (h i _ hget)]
    exact hget.symm
  · rw [List.getElem?_eq_none (by simpa using hi)]
    exact (List.getElem?_eq_none hi).symm

section Lines

variable {front : List LineGrid.Line} {rest : List (List LineGrid.Line)}

theorem laterRefs_lines : (laterRefs rest).map (refLine (lineRef (front :: rest))) = rest.flatten := by
  have hgrid : ∀ it ∈ rest.zipIdx 1, (gridRefs it.2 it.1.length).map (refLine (lineRef (front :: rest))) = it.1 :=
    fun it hit => gridRefs_lines fun i line hi => lineRef_rest hit hi
  unfold laterRefs
  rw [List.map_flatMap, List.flatMap_def, List.map_congr_left hgrid, List.zipIdx_map_fst]

/-- Lines at distinct positions all open an entry. -/
theorem openers_eq_gridRefs (hnd : (front.map (·.position)).Nodup) : openers front = gridRefs 0 front.length := by
  unfold openers
  rw [List.filter_eq_self]
  intro r hr
  obtain ⟨i, hi, rfl⟩ := List.mem_map.mp hr
  rw [decide_eq_true_iff]
  intro j hj
  rw [← List.getElem?_map, ← List.getElem?_map]
  exact List.nodup_iff_getElem?_ne_getElem?.mp hnd j i hj (by simpa using hi)

theorem openers_lines (rest : List (List LineGrid.Line)) (hnd : (front.map (·.position)).Nodup) :
    (openers front).map (refLine (lineRef (front :: rest))) = front := by
  rw [openers_eq_gridRefs hnd]
  exact gridRefs_lines fun i line hi => lineRef_front hi

end Lines

namespace Clustered

variable {limit : ℚ} {front : List LineGrid.Line} {rest : List (List LineGrid.Line)} {map : LineMap}
  (h : Clustered limit front rest map)

include h

theorem mean_run : MeanCluster.Run (fun r => (refLine (lineRef (front :: rest)) r).position) limit
    ((openers front).map fun r => [r]) (laterRefs rest) (refClusters map) := by
  have hrun := h.clusters
  unfold ClustersTo at hrun
  rwa [rule_exact] at hrun

theorem referees_perm : GridMath.referees map ~ openers front ++ laterRefs rest := by
  have hflat : ((openers front).map fun r => [r]).flatten = openers front := by
    rw [← List.flatMap_def, List.flatMap_singleton']
  have hp := MeanCluster.run_flatten h.mean_run
  rwa [hflat, ← referees_eq_flatten] at hp

/-- The entries hold all lines, but those of the first grid at a position it had already. -/
theorem mem_iff (r : Referee) : r ∈ GridMath.referees map ↔ ∃ line, lineRef (front :: rest) r = some line ∧
    (r.1 = 0 → ∀ (j : ℕ) (l : LineGrid.Line), j < r.2 → front[j]? = some l → l.position ≠ line.position) := by
  rw [h.referees_perm.mem_iff, List.mem_append, mem_openers, mem_laterRefs front]
  constructor
  · rintro (⟨h0, line, hl, hfirst⟩ | ⟨h0, line, hl⟩)
    · obtain ⟨g, i⟩ := r
      obtain rfl : g = 0 := h0
      exact ⟨line, lineRef_front hl, fun _ => hfirst⟩
    · exact ⟨line, hl, fun hz => absurd hz h0⟩
  · rintro ⟨line, hl, hfirst⟩
    by_cases h0 : r.1 = 0
    · refine Or.inl ⟨h0, line, ?_, hfirst h0⟩
      obtain ⟨g, i⟩ := r
      obtain rfl : g = 0 := h0
      exact hl
    · exact Or.inr ⟨h0, line, hl⟩

/-- **The lines are clustered by their means.** -/
theorem run (hnd : (front.map (·.position)).Nodup) : MeanCluster.Run (fun l : LineGrid.Line => l.position) limit
    (front.map fun l => [l]) rest.flatten (GridMath.clusters (lineRef (front :: rest)) map) := by
  have hrun : MeanCluster.Run (fun l : LineGrid.Line => l.position) limit _ _ _ :=
    MeanCluster.run_map (fun _ => rfl) h.mean_run
  rw [laterRefs_lines, ← clusters_eq_map h.entry] at hrun
  have hopen : ((openers front).map fun r => [r]).map (List.map (refLine (lineRef (front :: rest)))) =
      front.map fun l => [l] := by
    have hlines := congrArg (List.map fun l => [l]) (openers_lines rest hnd)
    rw [List.map_map] at hlines ⊢
    exact hlines
  rwa [hopen] at hrun

end Clustered

end Lyli.Calibration.GridMath
