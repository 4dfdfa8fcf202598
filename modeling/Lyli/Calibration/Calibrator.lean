import Mathlib
import Lyli.Base.StdSort
import Lyli.Calibration.ArrayCalibration
import Lyli.Calibration.GridMathMapper

/-!
# `Calibrator` (`calibration/calibrator.cpp`, `calibrationdata.cpp`)

Images are added one after the other, in an order that the parallel loop of
`main.cpp` leaves open.  The lens table has one entry for each zoom and focus
step among them.  Of the images with equal steps the first gives the focal
length, so the table shows the order unless these have equal focal lengths:

    adds.Perm adds' → FocalByStep adds → c.lensCalib S H = c'.lensCalib S' H'      (lensCalib_eq)

From here on the lines are averaged in exact arithmetic.
-/

namespace Lyli.Calibration

attribute [local instance] Rounding.exact

open scoped List

/-! ## Model -/

/-- The lens data of an image that calibration reads. -/
structure Lens where
  zoomstep : ℤ
  focusstep : ℤ
  focallength : ℚ
deriving DecidableEq

structure Metadata where
  serialnumber : String
  lens : Lens

structure LensConfiguration where
  zoomStep : ℤ
  focusStep : ℤ
deriving DecidableEq

/-- `cv::Mat` of type `CV_64F`. -/
structure Mat where
  rows : ℕ
  cols : ℕ
  data : Matrix (Fin rows) (Fin cols) ℚ
deriving DecidableEq

structure LensParameters where
  cameraMatrix : Mat
  distCoeffs : Mat
deriving DecidableEq

structure CalibrationData where
  serial : String
  array : ArrayParameters
  lens : List (LensConfiguration × LensParameters)

/-- The order in which a `std::unordered_map` with the given insertion order is iterated. -/
structure HashOrder where
  order : {α : Type} → List α → List α
  perm : ∀ {α : Type} (l : List α), (order l).Perm l

structure Calibrator where
  serial : String
  pointGridList : List PointGrid
  /-- the grids of each lens, in the order the lenses came -/
  clusterMap : List (Lens × List ℕ)

namespace Calibrator

/-- Sensor size in metres. -/
def sensorSize : ℚ := 46 / 10000

def estimateCameraMatrix (lens : Lens) : Mat :=
  let focalLengthPx := lens.focallength / sensorSize * 3280
  let center := 3280 / 2
  ⟨3, 3, !![focalLengthPx, 0, center; 0, focalLengthPx, center; 0, 0, 1]⟩

/-- `ZoomFocusComparator`. -/
def sameSteps (a b : Lens) : Bool := a.zoomstep == b.zoomstep && a.focusstep == b.focusstep

/-- `clusterMap[lens].push_back(i)`: the lens that came first stays the key. -/
def addToCluster (lens : Lens) (i : ℕ) : List (Lens × List ℕ) → List (Lens × List ℕ)
  | [] => [(lens, [i])]
  | cluster :: rest =>
    if sameSteps cluster.1 lens then (cluster.1, cluster.2 ++ [i]) :: rest
    else cluster :: addToCluster lens i rest

def empty : Calibrator := ⟨"", [], []⟩

/-- The error is the reason of a `CameraDiffersException`. -/
def addGrid (c : Calibrator) (pointGrid : PointGrid) (metadata : Metadata) : Except String Calibrator :=
  let serial := metadata.serialnumber
  if c.serial ≠ "" ∧ c.serial ≠ serial then
    .error ("Camera serial number differs, expected: " ++ c.serial ++ ", got: " ++ serial ++ "\n")
  else
    let pointGridList := c.pointGridList ++ [pointGrid]
    .ok { serial := if c.serial = "" then serial else c.serial
          pointGridList
          clusterMap := addToCluster metadata.lens (pointGridList.length - 1) c.clusterMap }

/-- The images of the loop, in the order they reach `addGrid`. -/
def addGrids (adds : List (PointGrid × Metadata)) : Except String Calibrator :=
  adds.foldlM (fun c a => addGrid c a.1 a.2) empty

/-- The target line grid, with the mapper of each image. -/
def target (c : Calibrator) : Option (LineGrid × List GridMapper) := do
  let linegrids ← c.pointGridList.mapM LineGrid.ofPointGrid
  GridMath.averageGrids linegrids

/-- Comparator of the lens parameters. -/
def lensLess (a b : LensConfiguration × LensParameters) : Bool :=
  if a.1.zoomStep < b.1.zoomStep then true
  else if a.1.zoomStep = b.1.zoomStep then decide (a.1.focusStep < b.1.focusStep)
  else false

def lensEntry (lens : Lens) : LensConfiguration × LensParameters :=
  (⟨lens.zoomstep, lens.focusstep⟩, ⟨estimateCameraMatrix lens, ⟨8, 1, 0⟩⟩)

/-- The lens calibration, sorted as the constructor of `CalibrationData` does. -/
def lensCalib (S : StdSort) (H : HashOrder) (c : Calibrator) : List (LensConfiguration × LensParameters) :=
  S.sort lensLess ((H.order c.clusterMap).map fun cluster => lensEntry cluster.1)

noncomputable def calibrate (S : StdSort) (H : HashOrder) (fitLine : FitLine) (c : Calibrator) :
    Option CalibrationData := do
  let (grid, mappers) ← c.target
  let rotation ← ArrayCalibration.calibrateRotation fitLine c.pointGridList
  let translation ← ArrayCalibration.calibrateTranslation fitLine c.pointGridList
    (ArrayCalibration.translationAngle rotation) grid mappers
  return ⟨c.serial, ⟨grid, translation, rotation⟩, c.lensCalib S H⟩

/-! ## Added images -/

/-- The keys after `addToCluster`: those before, and the lens where no cluster has its steps. -/
theorem addToCluster_keys (lens : Lens) (i : ℕ) (clusters : List (Lens × List ℕ)) :
    ((∃ cluster ∈ clusters, sameSteps cluster.1 lens = true) ∧
      (addToCluster lens i clusters).map (·.1) = clusters.map (·.1)) ∨
    ((∀ cluster ∈ clusters, sameSteps cluster.1 lens = false) ∧
      (addToCluster lens i clusters).map (·.1) = clusters.map (·.1) ++ [lens]) := by
  induction clusters with
  | nil => exact Or.inr ⟨by simp, rfl⟩
  | cons cluster rest ih =>
    unfold addToCluster
    by_cases hs : sameSteps cluster.1 lens = true
    · rw [if_pos hs]
      exact Or.inl ⟨⟨cluster, List.mem_cons_self, hs⟩, rfl⟩
    · rw [if_neg hs, List.map_cons, List.map_cons]
      rcases ih with ⟨⟨c, hc, hsame⟩, h⟩ | ⟨hno, h⟩
      · exact Or.inl ⟨⟨c, List.mem_cons_of_mem _ hc, hsame⟩, by rw [h]⟩
      · refine Or.inr ⟨fun c hc => ?_, by rw [h]; rfl⟩
        rcases List.mem_cons.mp hc with rfl | hc
        · exact Bool.eq_false_iff.mpr hs
        · exact hno c hc

theorem sameSteps_iff {a b : Lens} : sameSteps a b = true ↔ a.zoomstep = b.zoomstep ∧ a.focusstep = b.focusstep := by
  unfold sameSteps
  rw [Bool.and_eq_true, beq_iff_eq, beq_iff_eq]

/-- The keys of the clusters of the given images. -/
structure ClusterKeys (adds : List (PointGrid × Metadata)) (keys : List Lens) : Prop where
  /-- no two clusters have equal steps -/
  apart : keys.Pairwise fun a b => sameSteps a b = false
  /-- every cluster has the lens of some image as its key -/
  key : ∀ lens ∈ keys, ∃ a ∈ adds, lens = a.2.lens
  /-- every image is in a cluster of its steps -/
  has : ∀ a ∈ adds, ∃ lens ∈ keys, sameSteps lens a.2.lens = true

theorem clusterKeys_add {adds : List (PointGrid × Metadata)} {clusters : List (Lens × List ℕ)}
    (h : ClusterKeys adds (clusters.map (·.1))) (a : PointGrid × Metadata) (i : ℕ) :
    ClusterKeys (adds ++ [a]) ((addToCluster a.2.lens i clusters).map (·.1)) := by
  have hold : ∀ lens ∈ clusters.map (·.1), ∃ b ∈ adds ++ [a], lens = b.2.lens := fun lens hl => by
    obtain ⟨b, hb, heq⟩ := h.key lens hl
    exact ⟨b, List.mem_append_left _ hb, heq⟩
  rcases addToCluster_keys a.2.lens i clusters with ⟨⟨cl, hcl, hsteps⟩, hkeys⟩ | ⟨hno, hkeys⟩
  · rw [hkeys]
    refine ⟨h.apart, hold, fun b hb => ?_⟩
    rcases List.mem_append.mp hb with hb | hb
    · exact h.has b hb
    · rw [List.mem_singleton.mp hb]
      exact ⟨cl.1, List.mem_map.mpr ⟨cl, hcl, rfl⟩, hsteps⟩
  · rw [hkeys]
    refine ⟨List.pairwise_append.mpr ⟨h.apart, List.pairwise_singleton _ _, ?_⟩, ?_, fun b hb => ?_⟩
    · intro lens hl lens' hl'
      obtain ⟨cl, hcl, rfl⟩ := List.mem_map.mp hl
      rw [List.mem_singleton.mp hl']
      exact hno cl hcl
    · intro lens hl
      rcases List.mem_append.mp hl with hl | hl
      · exact hold lens hl
      · exact ⟨a, by simp, List.mem_singleton.mp hl⟩
    · rcases List.mem_append.mp hb with hb | hb
      · obtain ⟨lens, hl, hsame⟩ := h.has b hb
        exact ⟨lens, List.mem_append_left _ hl, hsame⟩
      · rw [List.mem_singleton.mp hb]
        exact ⟨a.2.lens, by simp, sameSteps_iff.mpr ⟨rfl, rfl⟩⟩

/-- What the calibrator holds after images of one camera. -/
structure Holds (serial : String) (adds : List (PointGrid × Metadata)) (c : Calibrator) : Prop where
  serial : c.serial = serial ∨ adds = [] ∧ c.serial = ""
  grids : c.pointGridList = adds.map (·.1)
  keys : ClusterKeys adds (c.clusterMap.map (·.1))

theorem holds_addGrid {serial : String} {adds : List (PointGrid × Metadata)} {c : Calibrator}
    {a : PointGrid × Metadata} (h : Holds serial adds c) (ha : a.2.serialnumber = serial) :
    ∃ c', addGrid c a.1 a.2 = .ok c' ∧ Holds serial (adds ++ [a]) c' := by
  have hsame : ¬ (c.serial ≠ "" ∧ c.serial ≠ a.2.serialnumber) := by
    rw [ha]
    rintro ⟨h₁, h₂⟩
    rcases h.serial with hs | ⟨-, hs⟩
    · exact h₂ hs
    · exact h₁ hs
  refine ⟨_, if_neg hsame, ?_, by rw [List.map_append, ← h.grids]; rfl, clusterKeys_add h.keys a _⟩
  apply Or.inl
  show (if c.serial = "" then a.2.serialnumber else c.serial) = serial
  split_ifs with hs
  · exact ha
  · exact h.serial.resolve_right fun h₀ => hs h₀.2

/-- **Images of one camera** are all accepted. -/
theorem holds_addGrids {serial : String} {adds : List (PointGrid × Metadata)}
    (h : ∀ a ∈ adds, a.2.serialnumber = serial) : ∃ c, addGrids adds = .ok c ∧ Holds serial adds c := by
  induction adds using List.reverseRecOn with
  | nil => exact ⟨empty, rfl, Or.inr ⟨rfl, rfl⟩, rfl, ⟨List.Pairwise.nil, by simp [empty], by simp⟩⟩
  | append_singleton adds a ih =>
    obtain ⟨c, hc, hh⟩ := ih fun b hb => h b (List.mem_append_left _ hb)
    obtain ⟨c', hc', hh'⟩ := holds_addGrid hh (h a (by simp))
    refine ⟨c', ?_, hh'⟩
    unfold addGrids at hc ⊢
    rw [List.foldlM_append, hc]
    show List.foldlM (fun c a => addGrid c a.1 a.2) c [a] = _
    rw [List.foldlM_cons, hc']
    rfl

/-! ## The lens table -/

/-- Equal steps have equal focal lengths. -/
def FocalByStep (adds : List (PointGrid × Metadata)) : Prop :=
  ∀ a ∈ adds, ∀ b ∈ adds, sameSteps a.2.lens b.2.lens = true → a.2.lens.focallength = b.2.lens.focallength

theorem mem_lensEntries {adds : List (PointGrid × Metadata)} {keys : List Lens} (h : ClusterKeys adds keys)
    (hf : FocalByStep adds) (e : LensConfiguration × LensParameters) :
    e ∈ keys.map lensEntry ↔ ∃ a ∈ adds, e = lensEntry a.2.lens := by
  constructor
  · intro he
    obtain ⟨lens, hl, rfl⟩ := List.mem_map.mp he
    obtain ⟨a, ha, rfl⟩ := h.key lens hl
    exact ⟨a, ha, rfl⟩
  · rintro ⟨a, ha, rfl⟩
    obtain ⟨lens, hl, hs⟩ := h.has a ha
    obtain ⟨b, hb, rfl⟩ := h.key lens hl
    refine List.mem_map.mpr ⟨b.2.lens, hl, ?_⟩
    obtain ⟨hz, hfo⟩ := sameSteps_iff.mp hs
    unfold lensEntry estimateCameraMatrix
    rw [hz, hfo, hf b hb a ha hs]

theorem lensLess_iff {a b : LensConfiguration × LensParameters} : lensLess a b = true ↔
    a.1.zoomStep < b.1.zoomStep ∨ (a.1.zoomStep = b.1.zoomStep ∧ a.1.focusStep < b.1.focusStep) := by
  unfold lensLess
  split_ifs with h₁ h₂
  · simp [h₁]
  · simp [h₂]
  · simp [h₁, h₂]

theorem lensLess_strictWeak : StrictWeak lensLess := by
  refine ⟨fun a => ?_, fun a b c => ?_, fun a b c => ?_⟩
  · rw [Bool.eq_false_iff, ne_eq, lensLess_iff]
    omega
  · rw [lensLess_iff, lensLess_iff, lensLess_iff]
    omega
  · rw [lensLess_iff, lensLess_iff, lensLess_iff]
    omega

theorem eq_of_not_lensLess {a b : LensConfiguration × LensParameters} (h₁ : lensLess a b = false)
    (h₂ : lensLess b a = false) : a.1 = b.1 := by
  obtain ⟨⟨z, f⟩, p⟩ := a
  obtain ⟨⟨z', f'⟩, p'⟩ := b
  have hz : z = z' := by
    unfold lensLess at h₁ h₂
    simp only at h₁ h₂
    split_ifs at h₁ h₂ <;> omega
  subst hz
  have hf : f = f' := by
    unfold lensLess at h₁ h₂
    simp only [lt_irrefl, if_false, if_true, decide_eq_false_iff_not] at h₁ h₂
    omega
  rw [hf]

theorem lensCalib_perm (c : Calibrator) (S : StdSort) (H : HashOrder) :
    c.lensCalib S H ~ (c.clusterMap.map (·.1)).map lensEntry := by
  unfold lensCalib
  refine (S.perm _ _).trans (((H.perm c.clusterMap).map fun cluster => lensEntry cluster.1).trans ?_)
  rw [List.map_map]
  rfl

/-- **The lens table is strictly sorted**, as no two clusters have equal steps. -/
theorem lensCalib_strict {adds : List (PointGrid × Metadata)} {c : Calibrator}
    (h : ClusterKeys adds (c.clusterMap.map (·.1))) (S : StdSort) (H : HashOrder) :
    (c.lensCalib S H).Pairwise fun a b => lensLess a b = true := by
  have hconf : ((c.clusterMap.map (·.1)).map lensEntry).Pairwise fun a b => a.1 ≠ b.1 := by
    rw [List.pairwise_map]
    apply h.apart.imp
    intro a b hab heq
    rw [sameSteps_iff.mpr ⟨congrArg (·.zoomStep) heq, congrArg (·.focusStep) heq⟩] at hab
    cases hab
  have hne : (c.lensCalib S H).Pairwise fun a b => a.1 ≠ b.1 :=
    (lensCalib_perm c S H).symm.pairwise hconf fun hab => hab.symm
  refine ((S.sorted lensLess _ lensLess_strictWeak).and hne).imp fun {a b} hab => ?_
  by_contra hno
  exact hab.2 (eq_of_not_lensLess (Bool.eq_false_iff.mpr hno) hab.1)

/-- **The lens table** does not depend on the order of the images, of the hash map or of ties. -/
theorem lensCalib_eq {adds adds' : List (PointGrid × Metadata)} (hp : adds ~ adds') (hf : FocalByStep adds)
    {c c' : Calibrator} (h : ClusterKeys adds (c.clusterMap.map (·.1)))
    (h' : ClusterKeys adds' (c'.clusterMap.map (·.1))) (S S' : StdSort) (H H' : HashOrder) :
    c.lensCalib S H = c'.lensCalib S' H' := by
  have hf' : FocalByStep adds' := fun a ha b hb => hf a (hp.mem_iff.mpr ha) b (hp.mem_iff.mpr hb)
  have hmem : ∀ e, e ∈ c.lensCalib S H ↔ e ∈ c'.lensCalib S' H' := by
    intro e
    rw [(lensCalib_perm c S H).mem_iff, (lensCalib_perm c' S' H').mem_iff, mem_lensEntries h hf, mem_lensEntries h' hf']
    simp only [hp.mem_iff]
  -- entries of equal configuration are one entry, so the order is strict
  have hirr : Std.Irrefl fun a b : LensConfiguration × LensParameters => lensLess a b = true :=
    ⟨fun a h => by rw [lensLess_strictWeak.irrefl] at h; cases h⟩
  have hanti : Std.Antisymm fun a b : LensConfiguration × LensParameters => lensLess a b = true :=
    ⟨fun a b h₁ h₂ => by
      have := lensLess_strictWeak.trans a b a h₁ h₂
      rw [lensLess_strictWeak.irrefl] at this
      cases this⟩
  exact (lensCalib_strict h S H).eq_of_mem_iff (lensCalib_strict h' S' H') hmem

end Calibrator

end Lyli.Calibration
