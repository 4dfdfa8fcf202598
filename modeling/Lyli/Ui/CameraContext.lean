import Mathlib
import Lyli.Base.Reach

/-!
# The cameras of the window (`ui/cameraview/cameracontext.cpp`)

`Context` keeps the list of cameras and the index of the chosen one, and hands
a pointer into the list to whoever listens to `cameraChanged`.  Replacing the
list ends the life of the cameras a pointer was taken from, but neither resets
the index nor announces a camera again:

    the list is replaced only while no camera is chosen
      ↔ the announced camera is alive in every state of the run          (announced_alive)

The window replaces the list each time it is shown (`onInit`); the second time
the choice of the first camera is taken for a repetition.
-/

namespace Lyli.Ui

/-- `std::vector<Camera>`: the cameras, and which of all the vectors that ever held some it is. -/
structure CameraList (Camera : Type) where
  vector : ℕ
  cameras : List Camera

/-- `Camera *`: an element of a vector. -/
structure CameraPtr where
  vector : ℕ
  index : ℕ
deriving DecidableEq

structure Context (Camera : Type) where
  cameraList : CameraList Camera
  current : ℤ
  /-- the argument of the last `cameraChanged` -/
  announced : Option CameraPtr

/-- `size_type` to `int`. -/
def toInt (index : ℕ) : ℤ := Int.bmod index (2 ^ 32)

/-- `int` to `size_type`. -/
def toSize (i : ℤ) : ℕ := (i % 2 ^ 64).toNat

variable {Camera : Type}

/-- `&(cameraList[i])`, undefined past the end. -/
def CameraList.element (l : CameraList Camera) (i : ℤ) : Option CameraPtr :=
  if toSize i < l.cameras.length then some ⟨l.vector, toSize i⟩ else none

namespace Context

def init : Context Camera := ⟨⟨0, []⟩, -1, none⟩

/-- `m_cameraList` takes over the vector that `getCameras` returns. -/
def updateCameraList (s : Context Camera) (cameras : List Camera) : Context Camera :=
  { s with cameraList := ⟨s.cameraList.vector + 1, cameras⟩ }

def getCameraCount (s : Context Camera) : ℕ := s.cameraList.cameras.length

def changeCurrentCamera (s : Context Camera) (index : ℕ) : Option (Context Camera) :=
  if s.current < 0 ∨ (toSize s.current ≠ index ∧ index < s.cameraList.cameras.length) then do
    let current := toInt index
    let camera ← s.cameraList.element current
    return { s with current, announced := some camera }
  else some s

inductive Op (Camera : Type)
  | updateCameraList (cameras : List Camera)
  | changeCurrentCamera (index : ℕ)

/-- A choice is made among the cameras there are. -/
def step (s : Context Camera) : Op Camera → Option (Context Camera)
  | .updateCameraList cameras => some (s.updateCameraList cameras)
  | .changeCurrentCamera index => if index < s.getCameraCount then s.changeCurrentCamera index else none

/-- `CameraForm::onInit`, which runs each time the window is shown. -/
def onInit (s : Context Camera) (cameras : List Camera) : Option (Context Camera) := do
  let s ← s.step (.updateCameraList cameras)
  if s.getCameraCount > 0 then s.step (.changeCurrentCamera 0) else return s

/-! ## The announced camera -/

/-- If a camera is chosen, its index is one of the list, and so is the camera announced last. -/
def Alive (s : Context Camera) : Prop :=
  0 ≤ s.current → s.current < s.cameraList.cameras.length ∧ ∃ p, s.announced = some p ∧
    p.vector = s.cameraList.vector ∧ p.index < s.cameraList.cameras.length

/-- The list is replaced only while no camera is chosen. -/
def NoneChosen (s : Context Camera) : Op Camera → Prop
  | .updateCameraList _ => s.current < 0
  | .changeCurrentCamera _ => True

variable {s s' : Context Camera} {index : ℕ}

theorem element_some {l : CameraList Camera} {i : ℤ} {p : CameraPtr} (h : l.element i = some p) :
    p.vector = l.vector ∧ p.index = toSize i ∧ p.index < l.cameras.length := by
  unfold CameraList.element at h
  split_ifs at h with hlt
  obtain rfl := Option.some.inj h
  exact ⟨rfl, rfl, hlt⟩

theorem toInt_lt (index : ℕ) : toInt index < 2 ^ 64 := by
  have h : Int.bmod index (2 ^ 32) < _ := Int.bmod_lt (Nat.two_pow_pos 32)
  rw [show ((2 ^ 32 : ℕ) : ℤ) = 2 ^ 32 by norm_num] at h
  exact h.trans (by norm_num)

theorem toSize_toInt (h : 0 ≤ toInt index) : (toSize (toInt index) : ℤ) = toInt index := by
  unfold toSize
  rw [Int.toNat_of_nonneg (Int.emod_nonneg _ (by norm_num)), Int.emod_eq_of_lt h (toInt_lt index)]

/-- A choice is ignored, or announces the camera that is chosen. -/
theorem changeCurrentCamera_cases (h : s.changeCurrentCamera index = some s') :
    s' = s ∨ ∃ p, s.cameraList.element (toInt index) = some p ∧
      s' = { s with current := toInt index, announced := some p } := by
  unfold changeCurrentCamera at h
  split_ifs at h
  · obtain ⟨p, hp, h⟩ := Option.bind_eq_some_iff.mp h
    exact Or.inr ⟨p, hp, (Option.some.inj h).symm⟩
  · exact Or.inl (Option.some.inj h).symm

/-- **A choice** keeps the announced camera alive. -/
theorem changeCurrentCamera_alive (hs : Alive s) (h : s.changeCurrentCamera index = some s') : Alive s' := by
  rcases changeCurrentCamera_cases h with rfl | ⟨p, hp, rfl⟩
  · exact hs
  · obtain ⟨hvector, hindex, hlt⟩ := element_some hp
    unfold Alive
    dsimp only
    intro hcur
    have hsize := toSize_toInt hcur
    exact ⟨by omega, p, rfl, hvector, hlt⟩

/-- **A new list** is announced to no one. -/
theorem updateCameraList_alive (hs : Alive s) (cameras : List Camera) :
    Alive (s.updateCameraList cameras) ↔ s.current < 0 := by
  constructor
  · intro halive
    by_contra hcur
    obtain ⟨-, p, hp, hvector, -⟩ := hs (not_lt.mp hcur)
    obtain ⟨-, p', hp', hvector', -⟩ := halive (not_lt.mp hcur)
    obtain rfl : p = p' := Option.some.inj (hp.symm.trans hp')
    change p.vector = s.cameraList.vector + 1 at hvector'
    omega
  · intro hcur hcur'
    exact absurd hcur' (not_le.mpr hcur)

/-- **One step.** -/
theorem step_alive {op : Op Camera} (hs : Alive s) (h : s.step op = some s') : Alive s' ↔ NoneChosen s op := by
  cases op with
  | updateCameraList cameras =>
    obtain rfl := Option.some.inj h
    exact updateCameraList_alive hs cameras
  | changeCurrentCamera index =>
    change (if _ then _ else none) = some s' at h
    split_ifs at h
    exact iff_of_true (changeCurrentCamera_alive hs h) trivial

theorem init_alive : Alive (init : Context Camera) := by
  intro h
  have : (0 : ℤ) ≤ -1 := h
  omega

/-- **The announced camera** is alive in every state of a run that replaces the list only while no camera
is chosen, and the first step that replaces it later ends its life. -/
theorem announced_alive (Camera : Type) :
    (∀ s : Context Camera, Reach step NoneChosen init s → Alive s) ∧
      ∀ (s s' : Context Camera) (op : Op Camera), Reach step NoneChosen init s → step s op = some s' →
        (Alive s' ↔ NoneChosen s op) := by
  have hreach : ∀ s : Context Camera, Reach step NoneChosen init s → Alive s := fun s h =>
    h.inv init_alive fun _ _ _ hs hc hstep => (step_alive hs hstep).mpr hc
  exact ⟨hreach, fun s s' op h hstep => step_alive (hreach s h) hstep⟩

/-- The window is shown once. -/
theorem announced_alive_once : Alive (⟨⟨1, [7]⟩, 0, some ⟨1, 0⟩⟩ : Context ℕ) := by
  have hlist : Reach step NoneChosen init (⟨⟨1, [7]⟩, -1, none⟩ : Context ℕ) :=
    .single (a := .updateCameraList [7]) (show (-1 : ℤ) < 0 by norm_num) rfl
  have hchosen : Reach step NoneChosen init (⟨⟨1, [7]⟩, 0, some ⟨1, 0⟩⟩ : Context ℕ) :=
    hlist.tail (a := .changeCurrentCamera 0) trivial rfl
  exact (announced_alive ℕ).1 _ hchosen

/-- Any run may do so when the window is shown. -/
theorem onInit_reach {C : Context Camera → Op Camera → Prop} (hC : ∀ s op, C s op) {cameras : List Camera}
    (h : s.onInit cameras = some s') : Reach step C s s' := by
  unfold onInit at h
  obtain ⟨t, ht, h⟩ := Option.bind_eq_some_iff.mp h
  have hfirst : Reach step C s t := .single (hC _ _) ht
  split_ifs at h
  · exact hfirst.tail (hC _ _) h
  · rwa [← Option.some.inj h]

/-- The window is shown twice while one camera is connected. -/
theorem shownTwice_not_alive :
    ∃ s : Context ℕ, Reach step (fun _ _ => True) init s ∧ 0 ≤ s.current ∧ ¬ Alive s := by
  -- the first time the camera is announced, the second time its list is replaced
  have hfirst : (init : Context ℕ).onInit [7] = some ⟨⟨1, [7]⟩, 0, some ⟨1, 0⟩⟩ := rfl
  have hsecond : (⟨⟨1, [7]⟩, 0, some ⟨1, 0⟩⟩ : Context ℕ).onInit [7] = some ⟨⟨2, [7]⟩, 0, some ⟨1, 0⟩⟩ := rfl
  refine ⟨⟨⟨2, [7]⟩, 0, some ⟨1, 0⟩⟩, ?_, le_rfl, ?_⟩
  · exact (onInit_reach (fun _ _ => trivial) hfirst).trans (onInit_reach (fun _ _ => trivial) hsecond)
  · intro halive
    obtain ⟨-, p, hp, hvector, -⟩ := halive le_rfl
    obtain rfl := Option.some.inj hp
    exact absurd hvector (by decide)

end Context

end Lyli.Ui
