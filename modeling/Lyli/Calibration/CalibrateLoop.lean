import Mathlib
import Lyli.Calibration.CalibratorClusters
import Lyli.Calibration.CalibratorInterleaved
import Lyli.Calibration.Detect

/-!
# The calibration loop (`calibrate` in `main.cpp`, `CameraCalibrator::preprocess`)

A file without metadata is skipped, and so is an image that is too flat; every
other image is added in the parallel loop.

    images of one camera  →  in every state of every run no call has thrown, the calibrator is that of
                             addGrids on the stored images in the order they were stored,
                             and the run can go on until all are stored               (loop_sequential)
-/

namespace Lyli.Calibration

open scoped List

namespace Calibrator

open LensDetector

/-! ## The loop -/

/-- A `.RAW` file: its metadata, if the `.TXT` file can be read, and its grey image. -/
structure ImageFile where
  metadata : Option Metadata
  gray : Image8

/-- What the loop body does before `addGrid`: the call it makes, or none when it skips the file. -/
def loopBody [Rounding] (S : StdSort) (past : ℕ → ℕ → UInt8) (preprocess : Image8 → Option Image8)
    (file : ImageFile) : Option (Option (PointGrid × Metadata)) :=
  match file.metadata with
  -- missing metadata, skipping
  | none => some none
  | some metadata => do
    let pointGrid ← detect S past preprocess file.gray
    -- image is too flat, skipping
    if pointGrid.isEmpty then some none else some (some (pointGrid, metadata))

/-- The calls of `addGrid` that the files of a directory lead to. -/
def loopCalls [Rounding] (S : StdSort) (past : ℕ → ℕ → UInt8) (preprocess : Image8 → Option Image8)
    (files : List ImageFile) :
    Option (List (PointGrid × Metadata)) := do
  let calls ← files.mapM (loopBody S past preprocess)
  return calls.filterMap id

/-- **The calls** are those of the files with metadata whose image is not flat. -/
theorem mem_loopCalls {R : Rounding} {S : StdSort} {past : ℕ → ℕ → UInt8} {preprocess : Image8 → Option Image8}
    {files : List ImageFile} {calls : List (PointGrid × Metadata)}
    (h : loopCalls S past preprocess files = some calls) (call : PointGrid × Metadata) :
    call ∈ calls ↔ ∃ file ∈ files, file.metadata = some call.2 ∧ detect S past preprocess file.gray = some call.1 ∧
      ¬ Flat file.gray := by
  obtain ⟨bodies, hbodies, h⟩ := Option.bind_eq_some_iff.mp h
  obtain rfl := Option.some.inj h
  -- what the body makes of one file
  have hbody : ∀ {file : ImageFile}, loopBody S past preprocess file = some (some call) ↔
      file.metadata = some call.2 ∧ detect S past preprocess file.gray = some call.1 ∧ ¬ Flat file.gray := by
    intro file
    unfold loopBody
    cases file.metadata with
    | none => simp
    | some metadata =>
      constructor
      · intro hb
        obtain ⟨g, hg, hb⟩ := Option.bind_eq_some_iff.mp hb
        split_ifs at hb with hempty
        · cases hb
        · obtain rfl := Option.some.inj (Option.some.inj hb)
          exact ⟨rfl, hg, mt (detect_isEmpty_iff hg).mpr hempty⟩
      · rintro ⟨hm, hg, hflat⟩
        obtain rfl := Option.some.inj hm
        refine Option.bind_eq_some_iff.mpr ⟨call.1, hg, ?_⟩
        rw [if_neg (mt (detect_isEmpty_iff hg).mp hflat)]
  rw [List.mem_filterMap]
  constructor
  · rintro ⟨b, hb, rfl⟩
    obtain ⟨k, hk⟩ := List.getElem?_of_mem hb
    have hlt : k < files.length := by
      rw [← mapM_length hbodies]
      exact (List.getElem?_eq_some_iff.mp hk).1
    obtain ⟨b', hb', hk'⟩ := mapM_getElem? hbodies (List.getElem?_eq_getElem hlt)
    obtain rfl := Option.some.inj (hk.symm.trans hk')
    exact ⟨_, List.getElem_mem hlt, hbody.mp hb'⟩
  · rintro ⟨file, hfile, hcall⟩
    obtain ⟨k, hk⟩ := List.getElem?_of_mem hfile
    obtain ⟨b, hb, hk'⟩ := mapM_getElem? hbodies hk
    rw [hbody.mpr hcall] at hb
    obtain rfl := Option.some.inj hb
    exact ⟨some call, List.mem_of_getElem? hk', rfl⟩

/-- All calls have returned. -/
def Complete (calls : List (PointGrid × Metadata)) (s : State) : Prop := ∀ i < calls.length, s.phase i = .returned

/-- The calibrator after the given images, one call after the other. -/
def storeGrids (adds : List (PointGrid × Metadata)) : Calibrator :=
  adds.foldl (fun c a => c.storeGrid a.1 a.2) empty

theorem storeGrids_append (adds : List (PointGrid × Metadata)) (a : PointGrid × Metadata) :
    storeGrids (adds ++ [a]) = (storeGrids adds).storeGrid a.1 a.2 := by
  unfold storeGrids
  rw [List.foldl_append]
  rfl

theorem storeGrids_pointGridList (adds : List (PointGrid × Metadata)) :
    (storeGrids adds).pointGridList = adds.map (·.1) := by
  induction adds using List.reverseRecOn with
  | nil => rfl
  | append_singleton adds a ih =>
    rw [storeGrids_append, List.map_append, ← ih]
    rfl

/-- **Sequential calls** for images of one camera. -/
theorem addGrids_eq_storeGrids {adds : List (PointGrid × Metadata)} {serial : String}
    (h : ∀ a ∈ adds, a.2.serialnumber = serial) : addGrids adds = .ok (storeGrids adds) := by
  induction adds using List.reverseRecOn with
  | nil => rfl
  | append_singleton adds a ih =>
    have hinit := ih fun b hb => h b (List.mem_append_left _ hb)
    obtain ⟨c, hc, hh⟩ := holds_addGrids fun b hb => h b (List.mem_append_left [a] hb)
    obtain rfl := Except.ok.inj (hinit.symm.trans hc)
    have hcheck : (storeGrids adds).checkSerial a.2 = .ok () := by
      refine checkSerial_ok ?_
      rcases hh.serial with hs | ⟨-, hs⟩
      · exact Or.inr (hs.trans (h a (by simp)).symm)
      · exact Or.inl hs
    unfold addGrids at hinit ⊢
    rw [List.foldlM_append, hinit, storeGrids_append]
    show List.foldlM (fun c a => addGrid c a.1 a.2) (storeGrids adds) [a] = _
    rw [List.foldlM_cons, addGrid_eq, hcheck]
    rfl

/-- What holds in every state: the stored images are those of the calls that returned, in some order. -/
structure LoopInv (calls : List (PointGrid × Metadata)) (s : State) : Prop where
  calibrator : s.calibrator = storeGrids s.stored
  order : ∃ order : List ℕ, order.Nodup ∧ (∀ i, i ∈ order ↔ s.phase i = .returned) ∧
    s.stored.map some = order.map fun i => calls[i]?

section Runs

variable {calls : List (PointGrid × Metadata)} {s s' : State}

theorem loopInv_init : LoopInv calls .init where
  calibrator := rfl
  order := ⟨[], List.nodup_nil, fun i => ⟨fun h => absurd h List.not_mem_nil, fun h => by cases h⟩, rfl⟩

/-- **One step.** -/
theorem loopInv_step {a : Action} (hinv : LoopInv calls s) (h : step calls s a = some s') : LoopInv calls s' := by
  obtain ⟨order, hnd, hmem, hmap⟩ := hinv.order
  rcases step_cases h with ⟨i, call, rfl, -, hphase, -, rfl⟩ | ⟨i, call, reason, rfl, -, hphase, -, rfl⟩ |
    ⟨i, call, rfl, hcall, hphase, rfl⟩
  · refine ⟨hinv.calibrator, order, hnd, fun j => ?_, hmap⟩
    rw [hmem, update_eq_iff]
    by_cases hj : j = i
    · subst hj
      simp [hphase]
    · simp [hj]
  · refine ⟨hinv.calibrator, order, hnd, fun j => ?_, hmap⟩
    rw [hmem, update_eq_iff]
    by_cases hj : j = i
    · subst hj
      simp [hphase]
    · simp [hj]
  · constructor
    · show s.calibrator.storeGrid call.1 call.2 = _
      rw [storeGrids_append, ← hinv.calibrator]
    · refine ⟨order ++ [i], ?_, fun j => ?_, ?_⟩
      · refine List.nodup_append.mpr ⟨hnd, List.nodup_singleton i, fun j hj k hk heq => ?_⟩
        rw [heq, List.mem_singleton.mp hk, hmem, hphase] at hj
        cases hj
      · rw [List.mem_append, hmem, List.mem_singleton, update_eq_iff]
        by_cases hj : j = i
        · simp [hj]
        · simp [hj]
      · show (s.stored ++ [call]).map some = _
        rw [List.map_append, hmap, List.map_append, List.map_singleton, List.map_singleton, hcall]

theorem loopInv_reachable (h : Reachable calls s) : LoopInv calls s :=
  h.inv loopInv_init fun _ _ _ hinv _ hstep => loopInv_step hinv hstep

/-- The stored images are among the calls. -/
theorem LoopInv.stored_mem (h : LoopInv calls s) {a : PointGrid × Metadata} (ha : a ∈ s.stored) : a ∈ calls := by
  obtain ⟨order, -, -, hmap⟩ := h.order
  have hsome : some a ∈ order.map fun i => calls[i]? := by
    rw [← hmap]
    exact List.mem_map.mpr ⟨a, ha, rfl⟩
  obtain ⟨i, -, hi⟩ := List.mem_map.mp hsome
  exact List.mem_of_getElem? hi

/-- **A complete run** has stored every image once. -/
theorem LoopInv.perm (h : LoopInv calls s) (hc : Complete calls s) (hlt : ∀ i, s.phase i = .returned → i < calls.length) :
    s.stored ~ calls := by
  obtain ⟨order, hnd, hmem, hmap⟩ := h.order
  have horder : order ~ List.range calls.length := by
    refine (List.perm_ext_iff_of_nodup hnd List.nodup_range).mpr fun i => ?_
    rw [hmem, List.mem_range]
    exact ⟨hlt i, hc i⟩
  have hcalls : (List.range calls.length).map (fun i => calls[i]?) = calls.map some := by
    apply List.ext_getElem (by simp)
    intro i hi hi'
    rw [List.length_map] at hi'
    rw [List.getElem_map, List.getElem_map, List.getElem_range, List.getElem?_eq_getElem hi']
  refine (List.map_perm_map_iff (Option.some_injective _)).mp ?_
  rw [hmap, ← hcalls]
  exact horder.map _

/-- Only given calls return. -/
theorem returned_lt (h : Reachable calls s) : ∀ i, s.phase i = .returned → i < calls.length := by
  refine h.inv (P := fun s : State => ∀ i, s.phase i = .returned → i < calls.length)
    (fun i hi => by cases hi) fun t a t' ht _ hstep i hi => ?_
  rcases step_cases hstep with ⟨j, call, -, -, -, -, rfl⟩ | ⟨j, call, reason, -, -, -, -, rfl⟩ |
    ⟨j, call, -, hcall, -, rfl⟩
  · rcases update_eq_iff.mp hi with ⟨-, hp⟩ | ⟨-, hi⟩
    · cases hp
    · exact ht i hi
  · rcases update_eq_iff.mp hi with ⟨-, hp⟩ | ⟨-, hi⟩
    · cases hp
    · exact ht i hi
  · rcases update_eq_iff.mp hi with ⟨rfl, -⟩ | ⟨-, hi⟩
    · exact (List.getElem?_eq_some_iff.mp hcall).1
    · exact ht i hi

/-! ## Images of one camera -/

section OneCamera

variable {serial : String} (hserial : ∀ a ∈ calls, a.2.serialnumber = serial)

include hserial

/-- The calibrator is that of sequential calls. -/
theorem LoopInv.addGrids_eq (h : LoopInv calls s) : addGrids s.stored = .ok s.calibrator := by
  rw [h.calibrator]
  exact addGrids_eq_storeGrids fun a ha => hserial a (h.stored_mem ha)

theorem LoopInv.checkSerial_ok (h : LoopInv calls s) {call : PointGrid × Metadata} (hcall : call ∈ calls) :
    s.calibrator.serial = "" ∨ s.calibrator.serial = call.2.serialnumber := by
  obtain ⟨c, hc, hh⟩ := holds_addGrids fun a ha => hserial a (h.stored_mem ha)
  obtain rfl := Except.ok.inj ((h.addGrids_eq hserial).symm.trans hc)
  rcases hh.serial with hs | ⟨-, hs⟩
  · exact Or.inr (hs.trans (hserial call hcall).symm)
  · exact Or.inl hs

theorem not_threw (h : Reachable calls s) : ∀ i reason, s.phase i ≠ .threw reason := by
  refine (h.inv (P := fun s : State => LoopInv calls s ∧ ∀ i reason, s.phase i ≠ .threw reason)
    ⟨loopInv_init, fun i reason hi => by cases hi⟩ fun t a t' ht _ hstep => ?_).2
  refine ⟨loopInv_step ht.1 hstep, fun i reason hi => ?_⟩
  rcases step_cases hstep with ⟨j, call, -, -, -, -, rfl⟩ | ⟨j, call, reason', -, hcall, -, herr, rfl⟩ |
    ⟨j, call, -, -, -, rfl⟩
  · rcases update_eq_iff.mp hi with ⟨-, hp⟩ | ⟨-, hi⟩
    · cases hp
    · exact ht.2 i reason hi
  · rw [Calibrator.checkSerial_ok (ht.1.checkSerial_ok hserial (List.mem_of_getElem? hcall))] at herr
    cases herr
  · rcases update_eq_iff.mp hi with ⟨-, hp⟩ | ⟨-, hi⟩
    · cases hp
    · exact ht.2 i reason hi

/-- A call can return, whatever the others do. -/
theorem call_returns (h : Reachable calls s) {i : ℕ} (hi : i < calls.length) :
    ∃ t, Reach (step calls) (fun _ _ => True) s t ∧ t.phase i = .returned ∧
      ∀ j, s.phase j = .returned → t.phase j = .returned := by
  have hcall := List.getElem?_eq_getElem hi
  have hkeep : ∀ (phase : ℕ → Phase) (p : Phase) j, phase i ≠ .returned → phase j = .returned →
      Function.update phase i p j = .returned := by
    intro phase p j hne hj
    rw [Function.update_of_ne]
    · exact hj
    · rintro rfl
      exact hne hj
  cases hphase : s.phase i with
  | called =>
    have hcheck := step_check hcall hphase ((loopInv_reachable h).checkSerial_ok hserial (List.getElem_mem hi))
    have hchecked : Function.update s.phase i .checked i = .checked := Function.update_self i _ _
    refine ⟨_, (Reach.single trivial hcheck).tail trivial (step_store hcall hchecked), Function.update_self i _ _,
      fun j hj => hkeep _ _ j (ne_of_eq_of_ne hchecked nofun) (hkeep _ _ j (ne_of_eq_of_ne hphase nofun) hj)⟩
  | checked =>
    exact ⟨_, Reach.single trivial (step_store hcall hphase), Function.update_self i _ _,
      fun j hj => hkeep _ _ j (ne_of_eq_of_ne hphase nofun) hj⟩
  | returned => exact ⟨s, .refl, hphase, fun j hj => hj⟩
  | threw reason => exact absurd hphase (not_threw hserial h i reason)

/-- **No run gets stuck.** -/
theorem run_completes (h : Reachable calls s) : ∃ t, Reach (step calls) (fun _ _ => True) s t ∧ Complete calls t := by
  have hprefix : ∀ k ≤ calls.length, ∃ t, Reach (step calls) (fun _ _ => True) s t ∧
      ∀ i < k, t.phase i = .returned := by
    intro k
    induction k with
    | zero => exact fun _ => ⟨s, .refl, fun i hi => absurd hi (Nat.not_lt_zero i)⟩
    | succ k ih =>
      intro hk
      obtain ⟨t, ht, hret⟩ := ih (by omega)
      obtain ⟨u, hu, hlast, hkeep⟩ := call_returns hserial (Reach.trans h ht) hk
      refine ⟨u, ht.trans hu, fun i hi => ?_⟩
      by_cases hik : i = k
      · rw [hik]
        exact hlast
      · exact hkeep i (hret i (by omega))
  exact hprefix calls.length (le_refl _)

end OneCamera

end Runs

/-! ## The whole loop -/

/-- **The parallel loop** over images of one camera is a sequence of `addGrid` calls: no call throws, the
calibrator is that of the stored images in the order they were stored, every run can go on to its end, and
there every image is stored once and in the cluster of its lens. -/
theorem loop_sequential (calls : List (PointGrid × Metadata))
    (hone : ∀ a ∈ calls, ∀ b ∈ calls, a.2.serialnumber = b.2.serialnumber) (s : State) (hs : Reachable calls s) :
    (∀ i reason, s.phase i ≠ .threw reason) ∧ addGrids s.stored = .ok s.calibrator ∧
      (∃ t, Reach (step calls) (fun _ _ => True) s t ∧ Complete calls t) ∧
      (Complete calls s → s.stored ~ calls ∧ ClustersOf s.stored s.calibrator.clusterMap) := by
  obtain ⟨serial, hserial⟩ : ∃ serial, ∀ a ∈ calls, a.2.serialnumber = serial := by
    by_cases hnil : calls = []
    · exact ⟨"", fun a ha => absurd ha (by rw [hnil]; exact List.not_mem_nil)⟩
    · obtain ⟨b, hb⟩ := List.exists_mem_of_ne_nil _ hnil
      exact ⟨b.2.serialnumber, fun a ha => hone a ha b hb⟩
  have hinv := loopInv_reachable hs
  have hadd := hinv.addGrids_eq hserial
  exact ⟨not_threw hserial hs, hadd, run_completes hserial hs,
    fun hc => ⟨hinv.perm hc (returned_lt hs), (addGrids_clustersOf hadd).2⟩⟩

/-- One call has passed the check, and the other has not begun. -/
def oneChecked : State := ⟨empty, Function.update (fun _ => .called) 0 .checked, []⟩

theorem loop_sequential_oneChecked :
    (∀ i reason, oneChecked.phase i ≠ .threw reason) ∧ addGrids oneChecked.stored = .ok oneChecked.calibrator ∧
      (∃ t, Reach (step [imageOf "A", imageOf "A"]) (fun _ _ => True) oneChecked t ∧
        Complete [imageOf "A", imageOf "A"] t) ∧
      (Complete [imageOf "A", imageOf "A"] oneChecked → oneChecked.stored ~ [imageOf "A", imageOf "A"] ∧
        ClustersOf oneChecked.stored oneChecked.calibrator.clusterMap) :=
  loop_sequential [imageOf "A", imageOf "A"] (by decide) oneChecked
    (Reach.single trivial (@step_check [imageOf "A", imageOf "A"] .init 0 (imageOf "A") rfl rfl (Or.inl rfl)))

end Calibrator

end Lyli.Calibration
