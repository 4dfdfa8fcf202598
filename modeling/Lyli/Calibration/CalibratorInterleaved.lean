import Mathlib
import Lyli.Base.Reach
import Lyli.Calibration.Calibrator

/-!
# Concurrent `addGrid`

`main.cpp` adds the images in a parallel loop.  A call is two atomic steps: the
check of the serial number, before the lock is taken, and the section under
`dataAccessMutex`, which does not check again (`addGrid_eq`).  As long as no
image is stored the check passes for every camera.

    a run keeps one camera as long as a call passes the check with no serial stored
    only while the calls that passed before have its serial      (oneCamera_of_agreed)
    a call that passes otherwise can lead to images of two cameras (twoCameras_of_not_agreed)
-/

namespace Lyli.Calibration.Calibrator

/-! ## Model -/

/-- The first part of `addGrid`. -/
def checkSerial (c : Calibrator) (metadata : Metadata) : Except String Unit :=
  let serial := metadata.serialnumber
  if c.serial ≠ "" ∧ c.serial ≠ serial then
    .error ("Camera serial number differs, expected: " ++ c.serial ++ ", got: " ++ serial ++ "\n")
  else .ok ()

/-- The section under `dataAccessMutex`. -/
def storeGrid (c : Calibrator) (pointGrid : PointGrid) (metadata : Metadata) : Calibrator :=
  let pointGridList := c.pointGridList ++ [pointGrid]
  { serial := if c.serial = "" then metadata.serialnumber else c.serial
    pointGridList
    clusterMap := addToCluster metadata.lens (pointGridList.length - 1) c.clusterMap }

/-- A call without interruption. -/
theorem addGrid_eq (c : Calibrator) (pointGrid : PointGrid) (metadata : Metadata) :
    c.addGrid pointGrid metadata = (c.checkSerial metadata).map fun _ => c.storeGrid pointGrid metadata := by
  unfold addGrid checkSerial
  by_cases h : c.serial ≠ "" ∧ c.serial ≠ metadata.serialnumber
  · simp only [if_pos h]
    rfl
  · simp only [if_neg h]
    rfl

inductive Phase
  | called
  | checked
  | returned
  /-- with the reason of the `CameraDiffersException` -/
  | threw (reason : String)

/-- The calibrator, where each call is, and the calls whose images are stored. -/
structure State where
  calibrator : Calibrator
  phase : ℕ → Phase
  stored : List (PointGrid × Metadata)

inductive Action
  | check (call : ℕ)
  | store (call : ℕ)

def State.init : State := ⟨empty, fun _ => .called, []⟩

/-- One step of one of the calls. -/
def step (calls : List (PointGrid × Metadata)) (s : State) : Action → Option State
  | .check i =>
    match calls[i]?, s.phase i with
    | some call, .called =>
      match s.calibrator.checkSerial call.2 with
      | .ok _ => some { s with phase := Function.update s.phase i .checked }
      | .error reason => some { s with phase := Function.update s.phase i (.threw reason) }
    | _, _ => none
  | .store i =>
    match calls[i]?, s.phase i with
    | some call, .checked =>
      some { calibrator := s.calibrator.storeGrid call.1 call.2
             phase := Function.update s.phase i .returned
             stored := s.stored ++ [call] }
    | _, _ => none

/-- Every interleaving. -/
def Reachable (calls : List (PointGrid × Metadata)) (s : State) : Prop :=
  Reach (step calls) (fun _ _ => True) .init s

/-- All stored grids were added with one serial, that of the calibrator. -/
def OneCamera (s : State) : Prop :=
  s.calibrator.pointGridList = s.stored.map (·.1) ∧ ∀ a ∈ s.stored, a.2.serialnumber = s.calibrator.serial

/-- A call is checked while no serial is stored only if the calls that passed the check have its serial. -/
def Agreed (calls : List (PointGrid × Metadata)) (s : State) : Action → Prop
  | .check i => s.calibrator.serial = "" → ∀ j, s.phase j = .checked →
      calls[j]?.map (·.2.serialnumber) = calls[i]?.map (·.2.serialnumber)
  | .store _ => True

/-! ## What a step does -/

section Steps

variable {calls : List (PointGrid × Metadata)} {s s' : State}

theorem checkSerial_ok {c : Calibrator} {metadata : Metadata} (h : c.serial = "" ∨ c.serial = metadata.serialnumber) :
    c.checkSerial metadata = .ok () := by
  unfold checkSerial
  rw [if_neg]
  rintro ⟨h₁, h₂⟩
  exact h.elim h₁ h₂

theorem of_checkSerial_ok {c : Calibrator} {metadata : Metadata} {u : Unit} (h : c.checkSerial metadata = .ok u) :
    c.serial = "" ∨ c.serial = metadata.serialnumber := by
  unfold checkSerial at h
  by_contra hno
  rw [not_or] at hno
  rw [if_pos hno] at h
  cases h

/-- **One step.** -/
theorem step_cases {a : Action} (h : step calls s a = some s') :
    (∃ i call, a = .check i ∧ calls[i]? = some call ∧ s.phase i = .called ∧
      (s.calibrator.serial = "" ∨ s.calibrator.serial = call.2.serialnumber) ∧
      s' = { s with phase := Function.update s.phase i .checked }) ∨
    (∃ i call reason, a = .check i ∧ calls[i]? = some call ∧ s.phase i = .called ∧
      s.calibrator.checkSerial call.2 = .error reason ∧
      s' = { s with phase := Function.update s.phase i (.threw reason) }) ∨
    (∃ i call, a = .store i ∧ calls[i]? = some call ∧ s.phase i = .checked ∧
      s' = { calibrator := s.calibrator.storeGrid call.1 call.2
             phase := Function.update s.phase i .returned
             stored := s.stored ++ [call] }) := by
  cases a with
  | check i =>
    unfold step at h
    simp only at h
    split at h
    · next call hcall hphase =>
      split at h
      · next hok => exact Or.inl ⟨i, call, rfl, hcall, hphase, of_checkSerial_ok hok, (Option.some.inj h).symm⟩
      · next reason herr => exact Or.inr (Or.inl ⟨i, call, reason, rfl, hcall, hphase, herr, (Option.some.inj h).symm⟩)
    · cases h
  | store i =>
    unfold step at h
    simp only at h
    split at h
    · next call hcall hphase => exact Or.inr (Or.inr ⟨i, call, rfl, hcall, hphase, (Option.some.inj h).symm⟩)
    · cases h

theorem step_check {i : ℕ} {call : PointGrid × Metadata} (hcall : calls[i]? = some call) (hphase : s.phase i = .called)
    (hser : s.calibrator.serial = "" ∨ s.calibrator.serial = call.2.serialnumber) :
    step calls s (.check i) = some { s with phase := Function.update s.phase i .checked } := by
  unfold step
  simp only [hcall, hphase, checkSerial_ok hser]

theorem step_store {i : ℕ} {call : PointGrid × Metadata} (hcall : calls[i]? = some call) (hphase : s.phase i = .checked) :
    step calls s (.store i) = some { calibrator := s.calibrator.storeGrid call.1 call.2
                                     phase := Function.update s.phase i .returned
                                     stored := s.stored ++ [call] } := by
  unfold step
  simp only [hcall, hphase]

/-! ## Runs that meet the condition -/

/-- The stored images are of one camera, and so are the calls that passed the check. -/
structure CameraInv (calls : List (PointGrid × Metadata)) (s : State) : Prop where
  one : OneCamera s
  fresh : s.calibrator.serial = "" → s.stored = []
  pending : s.calibrator.serial = "" → ∀ i j, s.phase i = .checked → s.phase j = .checked →
    calls[i]?.map (·.2.serialnumber) = calls[j]?.map (·.2.serialnumber)
  checked : s.calibrator.serial ≠ "" → ∀ i call, s.phase i = .checked → calls[i]? = some call →
    call.2.serialnumber = s.calibrator.serial

theorem update_eq_iff {phase : ℕ → Phase} {i j : ℕ} {p q : Phase} :
    Function.update phase i p j = q ↔ (j = i ∧ p = q) ∨ (j ≠ i ∧ phase j = q) := by
  by_cases h : j = i
  · subst h
    rw [Function.update_self]
    simp
  · rw [Function.update_of_ne h]
    simp [h]

theorem cameraInv_init : CameraInv calls .init where
  one := ⟨rfl, fun a ha => absurd ha List.not_mem_nil⟩
  fresh _ := rfl
  pending _ i _ hi := by cases hi
  checked h := absurd rfl h

/-- **A step that meets the condition** keeps one camera. -/
theorem cameraInv_step (hne : ∀ call ∈ calls, call.2.serialnumber ≠ "") {a : Action} (hinv : CameraInv calls s)
    (hagreed : Agreed calls s a) (h : step calls s a = some s') : CameraInv calls s' := by
  rcases step_cases h with ⟨i, call, rfl, hcall, -, hser, rfl⟩ | ⟨i, call, reason, rfl, -, -, -, rfl⟩ |
    ⟨i, call, rfl, hcall, hphase, rfl⟩
  · -- the check passes
    refine ⟨hinv.one, hinv.fresh, fun hempty j k hj hk => ?_, fun hserial j c hj hc => ?_⟩
    · have hall : ∀ j, Function.update s.phase i .checked j = .checked →
          calls[j]?.map (·.2.serialnumber) = calls[i]?.map (·.2.serialnumber) := by
        intro j hj
        rcases update_eq_iff.mp hj with ⟨rfl, -⟩ | ⟨-, hj⟩
        · rfl
        · exact hagreed hempty j hj
      exact (hall j hj).trans (hall k hk).symm
    · rcases update_eq_iff.mp hj with ⟨rfl, -⟩ | ⟨-, hj⟩
      · obtain rfl := Option.some.inj (hcall.symm.trans hc)
        exact (hser.resolve_left hserial).symm
      · exact hinv.checked hserial j c hj hc
  · -- the check throws
    have hchecked : ∀ j, Function.update s.phase i (.threw reason) j = .checked → s.phase j = .checked := by
      intro j hj
      rcases update_eq_iff.mp hj with ⟨-, hp⟩ | ⟨-, hj⟩
      · cases hp
      · exact hj
    exact ⟨hinv.one, hinv.fresh, fun hempty j k hj hk => hinv.pending hempty j k (hchecked j hj) (hchecked k hk),
      fun hserial j c hj hc => hinv.checked hserial j c (hchecked j hj) hc⟩
  · -- the image is stored, under the serial of the calls that passed
    have hserial : (s.calibrator.storeGrid call.1 call.2).serial = call.2.serialnumber := by
      show (if s.calibrator.serial = "" then _ else _) = _
      split_ifs with hempty
      · rfl
      · exact (hinv.checked hempty i call hphase hcall).symm
    have hnonempty : call.2.serialnumber ≠ "" := hne call (List.mem_of_getElem? hcall)
    refine ⟨⟨?_, fun a ha => ?_⟩, fun hempty => ?_, fun hempty => ?_, fun _ j c hj hc => ?_⟩
    · show s.calibrator.pointGridList ++ [call.1] = _
      rw [hinv.one.1, List.map_append]
      rfl
    · show a.2.serialnumber = (s.calibrator.storeGrid call.1 call.2).serial
      rw [hserial]
      rcases List.mem_append.mp ha with ha | ha
      · by_cases hempty : s.calibrator.serial = ""
        · rw [hinv.fresh hempty] at ha
          exact absurd ha List.not_mem_nil
        · exact (hinv.one.2 a ha).trans (hinv.checked hempty i call hphase hcall).symm
      · rw [List.mem_singleton.mp ha]
    · exact absurd (hserial.symm.trans hempty) hnonempty
    · exact absurd (hserial.symm.trans hempty) hnonempty
    · show c.2.serialnumber = (s.calibrator.storeGrid call.1 call.2).serial
      rw [hserial]
      rcases update_eq_iff.mp hj with ⟨-, hp⟩ | ⟨-, hj⟩
      · cases hp
      · by_cases hempty : s.calibrator.serial = ""
        · have := hinv.pending hempty j i hj hphase
          rw [hc, hcall] at this
          exact Option.some.inj this
        · exact (hinv.checked hempty j c hj hc).trans (hinv.checked hempty i call hphase hcall).symm

theorem oneCamera_of_agreed (hne : ∀ call ∈ calls, call.2.serialnumber ≠ "")
    (h : Reach (step calls) (Agreed calls) .init s) : OneCamera s :=
  (h.inv cameraInv_init fun _ _ _ hinv hagreed hstep => cameraInv_step hne hinv hagreed hstep).one

/-! ## Runs that do not -/

/-- Only given calls are checked. -/
theorem checked_lt (h : Reachable calls s) : ∀ i, s.phase i = .checked → ∃ call, calls[i]? = some call := by
  refine h.inv (P := fun s : State => ∀ i, s.phase i = .checked → ∃ call, calls[i]? = some call)
    (fun i hi => by cases hi) fun t a t' ht _ hstep i hi => ?_
  rcases step_cases hstep with ⟨j, call, -, hcall, -, -, rfl⟩ | ⟨j, call, reason, -, -, -, -, rfl⟩ |
    ⟨j, call, -, -, -, rfl⟩
  · rcases update_eq_iff.mp hi with ⟨rfl, -⟩ | ⟨-, hi⟩
    · exact ⟨call, hcall⟩
    · exact ht i hi
  · rcases update_eq_iff.mp hi with ⟨-, hp⟩ | ⟨-, hi⟩
    · cases hp
    · exact ht i hi
  · rcases update_eq_iff.mp hi with ⟨-, hp⟩ | ⟨-, hi⟩
    · cases hp
    · exact ht i hi

/-- **A step that does not meet the condition** can be followed by two stores of different cameras. -/
theorem twoCameras_of_not_agreed (hs : Reachable calls s) {a : Action} (h : step calls s a = some s')
    (hnot : ¬ Agreed calls s a) : ∃ t, Reach (step calls) (fun _ _ => True) s' t ∧ ¬ OneCamera t := by
  rcases step_cases h with ⟨i, call, rfl, hcall, hphase, -, rfl⟩ | ⟨i, call, reason, rfl, -, -, herr, rfl⟩ |
    ⟨i, call, rfl, -⟩
  · unfold Agreed at hnot
    push Not at hnot
    obtain ⟨hempty, j, hj, hdiff⟩ := hnot
    obtain ⟨callj, hcallj⟩ := checked_lt hs j hj
    rw [hcall, hcallj, Option.map_some, Option.map_some, ne_eq, Option.some.injEq] at hdiff
    have hij : i ≠ j := fun heq => by
      rw [heq, hj] at hphase
      cases hphase
    -- `i` has been checked: store `j`, then store `i`
    have hstore : step calls { s with phase := Function.update s.phase i .checked } (.store j) = some _ :=
      step_store hcallj (by
        show Function.update s.phase i .checked j = .checked
        rw [Function.update_of_ne hij.symm]
        exact hj)
    have hrun := (Reach.single (C := fun _ _ => True) trivial hstore).tail trivial (step_store hcall (by
      show Function.update (Function.update s.phase i .checked) j .returned i = .checked
      rw [Function.update_of_ne hij, Function.update_self]))
    refine ⟨_, hrun, fun hone => hdiff ?_⟩
    have hcalli := hone.2 call (by simp)
    have hcallj' := hone.2 callj (by simp)
    exact hcallj'.trans hcalli.symm
  · -- with no serial stored the check does not throw
    unfold Agreed at hnot
    push Not at hnot
    rw [checkSerial_ok (Or.inl hnot.1)] at herr
    cases herr
  · exact absurd trivial hnot

theorem agreed_of_equal (hs : Reachable calls s) (heq : ∀ a ∈ calls, ∀ b ∈ calls, a.2.serialnumber = b.2.serialnumber)
    {i : ℕ} {call : PointGrid × Metadata} (hcall : calls[i]? = some call) : Agreed calls s (.check i) := by
  intro _ j hj
  obtain ⟨callj, hcallj⟩ := checked_lt hs j hj
  rw [hcall, hcallj]
  exact congrArg some (heq callj (List.mem_of_getElem? hcallj) call (List.mem_of_getElem? hcall))

/-- **Every interleaving** is safe only where there is nothing to check: the calls have one serial. -/
theorem interleavings_oneCamera_iff (hne : ∀ call ∈ calls, call.2.serialnumber ≠ "") :
    (∀ s, Reachable calls s → OneCamera s) ↔ ∀ a ∈ calls, ∀ b ∈ calls, a.2.serialnumber = b.2.serialnumber := by
  constructor
  · intro hall a ha b hb
    by_contra hdiff
    obtain ⟨i, hi⟩ := List.getElem?_of_mem ha
    obtain ⟨j, hj⟩ := List.getElem?_of_mem hb
    have hij : j ≠ i := fun heq => by
      rw [heq, hi] at hj
      exact hdiff (congrArg (fun c : PointGrid × Metadata => c.2.serialnumber) (Option.some.inj hj))
    -- both calls pass the check before either stores its image
    have h₁ : Reachable calls _ := Reach.single trivial (step_check (s := .init) hi rfl (Or.inl rfl))
    have hcalled : Function.update State.init.phase i .checked j = .called := by
      rw [Function.update_of_ne hij]
      rfl
    have h₂ : step calls { State.init with phase := Function.update State.init.phase i .checked } (.check j) = some _ :=
      step_check hj hcalled (Or.inl rfl)
    obtain ⟨t, ht, htwo⟩ := twoCameras_of_not_agreed h₁ h₂ fun hagreed => hdiff (by
      have := hagreed rfl i (Function.update_self i _ _)
      rw [hi, hj] at this
      exact Option.some.inj this)
    exact htwo (hall t ((h₁.tail trivial h₂).trans ht))
  · intro heq s hs
    apply oneCamera_of_agreed hne
    induction hs with
    | refl => exact .refl
    | @tail t t' a ht _ hstep ih =>
      refine .tail ih ?_ hstep
      rcases step_cases hstep with ⟨i, call, rfl, hcall, -⟩ | ⟨i, call, -, rfl, hcall, -⟩ | ⟨i, call, rfl, -⟩
      · exact agreed_of_equal ht heq hcall
      · exact agreed_of_equal ht heq hcall
      · exact trivial

end Steps

/-- **One camera.**  Every run whose steps meet the condition has images of one camera in every state, and a
step that does not meet it can be followed by a state with images of two. -/
theorem concurrent_oneCamera (calls : List (PointGrid × Metadata)) (hne : ∀ call ∈ calls, call.2.serialnumber ≠ "") :
    (∀ s, Reach (step calls) (Agreed calls) .init s → OneCamera s) ∧
    ∀ s a s', Reachable calls s → step calls s a = some s' → ¬ Agreed calls s a →
      ∃ t, Reach (step calls) (fun _ _ => True) s' t ∧ ¬ OneCamera t :=
  ⟨fun _ h => oneCamera_of_agreed hne h, fun _ _ _ hs h hnot => twoCameras_of_not_agreed hs h hnot⟩

/-- An image of the camera with the given serial number. -/
def imageOf (serialnumber : String) : PointGrid × Metadata := (ArrayCalibration.imaged id, ⟨serialnumber, ⟨0, 0, 0⟩⟩)

theorem concurrent_oneCamera_two :
    (∀ s, Reach (step [imageOf "A", imageOf "B"]) (Agreed [imageOf "A", imageOf "B"]) .init s → OneCamera s) ∧
    ∀ s a s', Reachable [imageOf "A", imageOf "B"] s → step [imageOf "A", imageOf "B"] s a = some s' →
      ¬ Agreed [imageOf "A", imageOf "B"] s a →
        ∃ t, Reach (step [imageOf "A", imageOf "B"]) (fun _ _ => True) s' t ∧ ¬ OneCamera t :=
  concurrent_oneCamera [imageOf "A", imageOf "B"] (by decide)

/-- Both calls pass the check, then both images are stored. -/
theorem two_cameras_stored :
    (∀ call ∈ [imageOf "A", imageOf "B"], call.2.serialnumber ≠ "") ∧
    ∃ s, Reachable [imageOf "A", imageOf "B"] s ∧ s.stored = [imageOf "A", imageOf "B"] ∧ s.calibrator.serial = "A" ∧
      ¬ OneCamera s := by
  refine ⟨by decide, ?_⟩
  have hA : [imageOf "A", imageOf "B"][0]? = some (imageOf "A") := rfl
  have hB : [imageOf "A", imageOf "B"][1]? = some (imageOf "B") := rfl
  have h₁ : Reachable [imageOf "A", imageOf "B"] _ := Reach.single trivial (step_check hA rfl (Or.inl rfl))
  have h₂ := Reach.tail h₁ trivial (step_check hB rfl (Or.inl rfl))
  have h₃ := Reach.tail h₂ trivial (step_store hA rfl)
  have h₄ := Reach.tail h₃ trivial (step_store hB rfl)
  refine ⟨_, h₄, rfl, rfl, fun hone => ?_⟩
  have hserial : (imageOf "B").2.serialnumber = "A" := hone.2 (imageOf "B") (List.mem_cons_of_mem _ List.mem_cons_self)
  exact absurd hserial (by decide)

end Lyli.Calibration.Calibrator
