import Mathlib
import Lyli.Calibration.Calibrator

/-!
# Clusters of images and the lens table

`addGrid` puts the index of every image into the cluster of its zoom and focus
steps.  The clusters are a `std::unordered_map` with a hash and an equality of
its own; the hash agrees with the equality, so a lookup finds the key of equal
steps (`finds_eq`).

    addGrids adds = .ok c  →  the clusters partition 0, …, n - 1 by the steps of the images,
                              and the lens table has one entry for each pair of steps, in order   (addGrids_clusters)
-/

namespace Lyli.Calibration.Calibrator

open scoped List

/-! ## The hash map -/

/-- `ZoomFocusHash`, for the given `std::hash<int>`. -/
def zoomFocusHash (hash : ℤ → UInt64) (lens : Lens) : UInt64 :=
  let zoomhash := hash lens.zoomstep
  let focushash := hash lens.focusstep
  (zoomhash <<< 1) + zoomhash + focushash

/-- The lookup of `lens` stops at this key: its hash is equal, and so are its steps. -/
def finds (hash : ℤ → UInt64) (lens key : Lens) : Bool :=
  zoomFocusHash hash key == zoomFocusHash hash lens && sameSteps key lens

/-- **The hash agrees with the comparator.** -/
theorem finds_eq (hash : ℤ → UInt64) (lens key : Lens) : finds hash lens key = sameSteps key lens := by
  unfold finds
  cases h : sameSteps key lens with
  | false => simp
  | true =>
    obtain ⟨hz, hf⟩ := sameSteps_iff.mp h
    unfold zoomFocusHash
    simp [hz, hf]

/-! ## Clusters -/

theorem addToCluster_indices (lens : Lens) (i : ℕ) (clusters : List (Lens × List ℕ)) :
    (addToCluster lens i clusters).flatMap (·.2) ~ i :: clusters.flatMap (·.2) := by
  induction clusters with
  | nil => exact List.Perm.refl [i]
  | cons cluster rest ih =>
    unfold addToCluster
    split
    · rw [List.flatMap_cons, List.flatMap_cons]
      show (cluster.2 ++ [i]) ++ _ ~ _
      rw [List.append_assoc]
      exact List.perm_middle
    · rw [List.flatMap_cons, List.flatMap_cons]
      exact (ih.append_left cluster.2).trans List.perm_middle

/-- A cluster afterwards is one from before, perhaps with the new index, or that of the new index alone. -/
theorem mem_addToCluster {lens : Lens} {i : ℕ} {clusters : List (Lens × List ℕ)} {cluster : Lens × List ℕ}
    (h : cluster ∈ addToCluster lens i clusters) :
    cluster ∈ clusters ∨ (∃ old ∈ clusters, sameSteps old.1 lens = true ∧ cluster = (old.1, old.2 ++ [i])) ∨
      cluster = (lens, [i]) := by
  induction clusters with
  | nil => exact Or.inr (Or.inr (List.mem_singleton.mp h))
  | cons c rest ih =>
    unfold addToCluster at h
    split at h
    · next hs =>
      rcases List.mem_cons.mp h with rfl | h
      · exact Or.inr (Or.inl ⟨c, List.mem_cons_self, hs, rfl⟩)
      · exact Or.inl (List.mem_cons_of_mem c h)
    · rcases List.mem_cons.mp h with rfl | h
      · exact Or.inl List.mem_cons_self
      · rcases ih h with h | ⟨old, hold, hs, heq⟩ | heq
        · exact Or.inl (List.mem_cons_of_mem c h)
        · exact Or.inr (Or.inl ⟨old, List.mem_cons_of_mem c hold, hs, heq⟩)
        · exact Or.inr (Or.inr heq)

/-- The clusters of the given images. -/
structure ClustersOf (adds : List (PointGrid × Metadata)) (clusters : List (Lens × List ℕ)) : Prop where
  keys : ClusterKeys adds (clusters.map (·.1))
  /-- every index is in exactly one cluster, once -/
  partition : clusters.flatMap (·.2) ~ List.range adds.length
  nonempty : ∀ cluster ∈ clusters, cluster.2 ≠ []
  /-- the images of a cluster have its steps -/
  own : ∀ cluster ∈ clusters, ∀ k ∈ cluster.2, ∃ a, adds[k]? = some a ∧ sameSteps cluster.1 a.2.lens = true

/-- Every image is in the cluster of its steps. -/
theorem ClustersOf.lies {adds : List (PointGrid × Metadata)} {clusters : List (Lens × List ℕ)}
    (h : ClustersOf adds clusters) {k : ℕ} {a : PointGrid × Metadata} (ha : adds[k]? = some a) :
    ∃ cluster ∈ clusters, k ∈ cluster.2 ∧ sameSteps cluster.1 a.2.lens = true := by
  have hk : k ∈ clusters.flatMap (·.2) := by
    rw [h.partition.mem_iff, List.mem_range]
    exact (List.getElem?_eq_some_iff.mp ha).1
  obtain ⟨cluster, hc, hmem⟩ := List.mem_flatMap.mp hk
  obtain ⟨b, hb, hs⟩ := h.own cluster hc k hmem
  obtain rfl := Option.some.inj (ha.symm.trans hb)
  exact ⟨cluster, hc, hmem, hs⟩

/-- **One image.** -/
theorem clustersOf_add {adds : List (PointGrid × Metadata)} {clusters : List (Lens × List ℕ)}
    (h : ClustersOf adds clusters) (a : PointGrid × Metadata) :
    ClustersOf (adds ++ [a]) (addToCluster a.2.lens adds.length clusters) := by
  have hlast : (adds ++ [a])[adds.length]? = some a := List.getElem?_concat_length
  have hold : ∀ {k : ℕ} {b : PointGrid × Metadata}, adds[k]? = some b → (adds ++ [a])[k]? = some b := fun hb => by
    rw [List.getElem?_append_left (List.getElem?_eq_some_iff.mp hb).1, hb]
  refine ⟨clusterKeys_add h.keys a _, ?_, ?_, ?_⟩
  · rw [List.length_append, List.length_singleton, List.range_succ]
    calc (addToCluster a.2.lens adds.length clusters).flatMap (·.2)
        ~ adds.length :: clusters.flatMap (·.2) := addToCluster_indices _ _ _
      _ ~ adds.length :: List.range adds.length := h.partition.cons _
      _ ~ List.range adds.length ++ [adds.length] := (List.perm_append_singleton _ _).symm
  · intro cluster hc
    rcases mem_addToCluster hc with hc | ⟨old, -, -, rfl⟩ | rfl
    · exact h.nonempty cluster hc
    · simp
    · simp
  · intro cluster hc k hk
    rcases mem_addToCluster hc with hc | ⟨old, hold', hs, rfl⟩ | rfl
    · obtain ⟨b, hb, hsame⟩ := h.own cluster hc k hk
      exact ⟨b, hold hb, hsame⟩
    · rcases List.mem_append.mp hk with hk | hk
      · obtain ⟨b, hb, hsame⟩ := h.own old hold' k hk
        exact ⟨b, hold hb, hsame⟩
      · obtain rfl := List.mem_singleton.mp hk
        exact ⟨a, hlast, hs⟩
    · obtain rfl := List.mem_singleton.mp hk
      exact ⟨a, hlast, sameSteps_iff.mpr ⟨rfl, rfl⟩⟩

theorem addGrid_ok {c c' : Calibrator} {pointGrid : PointGrid} {metadata : Metadata}
    (h : addGrid c pointGrid metadata = .ok c') : c'.pointGridList = c.pointGridList ++ [pointGrid] ∧
      c'.clusterMap = addToCluster metadata.lens c.pointGridList.length c.clusterMap := by
  unfold addGrid at h
  by_cases hdiffers : c.serial ≠ "" ∧ c.serial ≠ metadata.serialnumber
  · rw [if_pos hdiffers] at h
    cases h
  rw [if_neg hdiffers] at h
  obtain rfl := Except.ok.inj h
  refine ⟨rfl, ?_⟩
  show addToCluster metadata.lens ((c.pointGridList ++ [pointGrid]).length - 1) c.clusterMap = _
  rw [List.length_append, List.length_singleton, Nat.add_sub_cancel]

/-- **All images.** -/
theorem addGrids_clustersOf {adds : List (PointGrid × Metadata)} {c : Calibrator} (h : addGrids adds = .ok c) :
    c.pointGridList = adds.map (·.1) ∧ ClustersOf adds c.clusterMap := by
  induction adds using List.reverseRecOn generalizing c with
  | nil =>
    obtain rfl := Except.ok.inj h
    exact ⟨rfl, ⟨.nil, by simp [empty], by simp⟩, List.Perm.refl _, by simp [empty], by simp [empty]⟩
  | append_singleton adds a ih =>
    unfold addGrids at h
    rw [List.foldlM_append] at h
    cases hc : adds.foldlM (fun c a => addGrid c a.1 a.2) empty with
    | error e =>
      rw [hc] at h
      cases h
    | ok c₁ =>
      rw [hc] at h
      obtain ⟨hlist, hclusters⟩ := ih hc
      have hadd : addGrid c₁ a.1 a.2 = .ok c := by
        cases hadd : addGrid c₁ a.1 a.2 with
        | error e =>
          simp [bind, Except.bind, hadd] at h
        | ok c₂ =>
          simpa [bind, Except.bind, pure, Except.pure, hadd] using h
      obtain ⟨hlist', hclusters'⟩ := addGrid_ok hadd
      constructor
      · rw [hlist', hlist, List.map_append]
        rfl
      · rw [hclusters', hlist, List.length_map]
        exact clustersOf_add hclusters a

/-! ## The lens table -/

/-- One entry for each pair of steps, in lexicographic order. -/
structure LensTable (adds : List (PointGrid × Metadata)) (lens : List (LensConfiguration × LensParameters)) : Prop where
  sorted : lens.Pairwise fun a b =>
    a.1.zoomStep < b.1.zoomStep ∨ (a.1.zoomStep = b.1.zoomStep ∧ a.1.focusStep < b.1.focusStep)
  entry : ∀ configuration, configuration ∈ lens.map (·.1) ↔
    ∃ a ∈ adds, configuration = ⟨a.2.lens.zoomstep, a.2.lens.focusstep⟩

theorem lensCalib_table {adds : List (PointGrid × Metadata)} {c : Calibrator}
    (h : ClusterKeys adds (c.clusterMap.map (·.1))) (S : StdSort) (H : HashOrder) :
    LensTable adds (c.lensCalib S H) := by
  constructor
  · exact (lensCalib_strict h S H).imp lensLess_iff.mp
  · intro configuration
    rw [((lensCalib_perm c S H).map (·.1)).mem_iff, List.map_map, List.mem_map]
    constructor
    · rintro ⟨lens, hl, rfl⟩
      obtain ⟨a, ha, rfl⟩ := h.key lens hl
      exact ⟨a, ha, rfl⟩
    · rintro ⟨a, ha, rfl⟩
      obtain ⟨lens, hl, hs⟩ := h.has a ha
      obtain ⟨hz, hf⟩ := sameSteps_iff.mp hs
      refine ⟨lens, hl, ?_⟩
      show LensConfiguration.mk lens.zoomstep lens.focusstep = _
      rw [hz, hf]

/-- **Clusters and lens table** of images that were all added, in any order of the hash map. -/
theorem addGrids_clusters (adds : List (PointGrid × Metadata)) (c : Calibrator) (h : addGrids adds = .ok c) :
    ClustersOf adds c.clusterMap ∧
      (∀ k a, adds[k]? = some a → ∃ cluster ∈ c.clusterMap, k ∈ cluster.2 ∧ sameSteps cluster.1 a.2.lens = true) ∧
      (∀ hash lens key, finds hash lens key = sameSteps key lens) ∧
      ∀ (S : StdSort) (H : HashOrder), LensTable adds (c.lensCalib S H) ∧
        ∀ (fitLine : FitLine) (data : CalibrationData), calibrate S H fitLine c = some data → LensTable adds data.lens := by
  obtain ⟨-, hclusters⟩ := addGrids_clustersOf h
  refine ⟨hclusters, fun k a ha => hclusters.lies ha, finds_eq, fun S H => ?_⟩
  have htable := lensCalib_table hclusters.keys S H
  refine ⟨htable, fun fitLine data hdata => ?_⟩
  obtain ⟨⟨grid, mappers⟩, -, hdata⟩ := Option.bind_eq_some_iff.mp hdata
  obtain ⟨rotation, -, hdata⟩ := Option.bind_eq_some_iff.mp hdata
  obtain ⟨translation, -, hdata⟩ := Option.bind_eq_some_iff.mp hdata
  obtain rfl := Option.some.inj hdata
  exact htable

/-- Three images, of which the first and the last have equal steps. -/
def threeImages : List (PointGrid × Metadata) :=
  [(ArrayCalibration.imaged id, ⟨"A", ⟨2, 5, 1⟩⟩), (ArrayCalibration.imaged id, ⟨"A", ⟨1, 7, 1⟩⟩),
    (ArrayCalibration.imaged id, ⟨"A", ⟨2, 5, 1⟩⟩)]

def threeClusters : Calibrator :=
  ⟨"A", List.replicate 3 (ArrayCalibration.imaged id), [(⟨2, 5, 1⟩, [0, 2]), (⟨1, 7, 1⟩, [1])]⟩

theorem addGrids_clusters_three :
    ClustersOf threeImages threeClusters.clusterMap ∧
      (∀ k a, threeImages[k]? = some a →
        ∃ cluster ∈ threeClusters.clusterMap, k ∈ cluster.2 ∧ sameSteps cluster.1 a.2.lens = true) ∧
      (∀ hash lens key, finds hash lens key = sameSteps key lens) ∧
      ∀ (S : StdSort) (H : HashOrder), LensTable threeImages (threeClusters.lensCalib S H) ∧
        ∀ (fitLine : FitLine) (data : CalibrationData), calibrate S H fitLine threeClusters = some data →
          LensTable threeImages data.lens :=
  addGrids_clusters threeImages threeClusters rfl

end Lyli.Calibration.Calibrator
