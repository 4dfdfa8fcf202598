import Mathlib
import Lyli.Base.Reach
import Lyli.Calibration.Serialization

/-!
# Objects of the class `CalibrationData` (`calibration/calibrationdata.cpp`)

A run constructs, copies, moves and reads objects in any order.  The constructor
sorts the lens table, and copying goes through it; `deserialize` appends to the
table whatever the value lists.

    each value read continues the table in order → every table is sorted       (reach_sorted)
    a sorted table without ties → copying leaves it as it is                   (copy_lens)

`std::sort` may swap entries with equal steps, so ties matter to the second.
-/

namespace Lyli.Calibration.CalibrationData

abbrev LensEntries := List (LensConfiguration × LensParameters)

/-- Steps, in lexicographic order. -/
def lensKey (lens : LensConfiguration × LensParameters) : ℤ ×ₗ ℤ := toLex (lens.1.zoomStep, lens.1.focusStep)

/-- The keys are non-decreasing. -/
def TableSorted (lens : LensEntries) : Prop := lens.Pairwise fun a b => lensKey a ≤ lensKey b

/-- Entries with equal steps are equal. -/
def NoTies (lens : LensEntries) : Prop := ∀ a ∈ lens, ∀ b ∈ lens, lensKey a = lensKey b → a = b

/-! ## Operations -/

/-- A variable: not constructed, without its implementation, or with it. -/
inductive Slot
  | unborn
  | movedFrom
  | holds (data : CalibrationData)

abbrev Store := ℕ → Slot

/-- A constructor's variable loses what it held before. -/
inductive Op
  | construct (x : ℕ) (serial : String) (array : ArrayParameters) (lens : LensEntries)
  | constructDefault (x : ℕ)
  | copyConstruct (x other : ℕ)
  | copyAssign (x other : ℕ)
  | moveConstruct (x other : ℕ)
  | moveAssign (x other : ℕ)
  | deserialize (x : ℕ) (value : Json)

/-- `*pimpl`; the pointer of a moved-from object is null. -/
def Slot.impl : Slot → Option CalibrationData
  | .holds data => some data
  | _ => none

def Slot.born : Slot → Bool
  | .unborn => false
  | _ => true

/-- The copy constructor. -/
def copy (S : StdSort) (data : CalibrationData) : CalibrationData := make S data.serial data.array data.lens

/-- One operation; `none` is undefined behaviour or an exception. -/
noncomputable def step (S : StdSort) (realToString : ℝ → String) (s : Store) : Op → Option Store
  | .construct x serial array lens => some (Function.update s x (.holds (make S serial array lens)))
  | .constructDefault x => some (Function.update s x (.holds default))
  | .copyConstruct x other =>
    if x = other then none
    else (s other).impl.map fun data => Function.update s x (.holds (data.copy S))
  | .copyAssign x other =>
    if (s x).born then
      if x = other then some s
      else (s other).impl.map fun data => Function.update s x (.holds (data.copy S))
    else none
  | .moveConstruct x other =>
    if x ≠ other ∧ (s other).born then some (Function.update (Function.update s x (s other)) other .movedFrom)
    else none
  | .moveAssign x other =>
    if (s x).born ∧ (s other).born then
      if x = other then some s
      else some (Function.update (Function.update s x (s other)) other .movedFrom)
    else none
  | .deserialize x value => do
    let data ← (s x).impl
    let data' ← data.deserialize realToString value
    return Function.update s x (.holds data')

/-- Nothing is constructed yet. -/
def Store.init : Store := fun _ => .unborn

/-! ## What a step can leave behind -/

section Steps

variable {S : StdSort} {realToString : ℝ → String} {s s' : Store} {x : ℕ} {data : CalibrationData}

theorem impl_some {slot : Slot} (h : slot.impl = some data) : slot = .holds data := by
  cases slot with
  | unborn => cases h
  | movedFrom => cases h
  | holds data' => rw [← Option.some.inj h]

/-- Where an object comes from: it was there, or the step made it. -/
inductive Origin (S : StdSort) (realToString : ℝ → String) (s : Store) : Op → CalibrationData → Prop
  | old {op : Op} {y : ℕ} {data : CalibrationData} : s y = .holds data → Origin S realToString s op data
  | constructed {y : ℕ} {serial : String} {array : ArrayParameters} {lens : LensEntries} :
      Origin S realToString s (.construct y serial array lens) (make S serial array lens)
  | default {op : Op} : Origin S realToString s op default
  | copied {op : Op} {y : ℕ} {data : CalibrationData} : s y = .holds data →
      Origin S realToString s op (data.copy S)
  | read {y : ℕ} {value : Json} {data data' : CalibrationData} : s y = .holds data →
      data.deserialize realToString value = some data' →
      Origin S realToString s (.deserialize y value) data'

theorem update_holds {y : ℕ} {slot : Slot} (h : Function.update s y slot x = .holds data) :
    slot = .holds data ∨ s x = .holds data := by
  by_cases hx : x = y
  · subst hx
    rw [Function.update_self] at h
    exact Or.inl h
  · rw [Function.update_of_ne hx] at h
    exact Or.inr h

/-- A move leaves no new object. -/
theorem moved_holds {y other : ℕ}
    (h : Function.update (Function.update s y (s other)) other .movedFrom x = .holds data) :
    ∃ z, s z = .holds data := by
  rcases update_holds h with h | h
  · cases h
  · rcases update_holds h with h | h
    · exact ⟨other, h⟩
    · exact ⟨x, h⟩

/-- **One step**: every object after it has an origin. -/
theorem step_origin {op : Op} (h : step S realToString s op = some s') (hx : s' x = .holds data) :
    Origin S realToString s op data := by
  cases op with
  | construct y serial array lens =>
    rw [← Option.some.inj h] at hx
    rcases update_holds hx with hx | hx
    · cases hx
      exact .constructed
    · exact .old hx
  | constructDefault y =>
    rw [← Option.some.inj h] at hx
    rcases update_holds hx with hx | hx
    · cases hx
      exact .default
    · exact .old hx
  | copyConstruct y other =>
    simp only [step] at h
    split_ifs at h with hy
    obtain ⟨d, hd, rfl⟩ := Option.map_eq_some_iff.mp h
    rcases update_holds hx with hx | hx
    · cases hx
      exact .copied (impl_some hd)
    · exact .old hx
  | copyAssign y other =>
    simp only [step] at h
    split_ifs at h with hborn hy
    · rw [← Option.some.inj h] at hx
      exact .old hx
    · obtain ⟨d, hd, rfl⟩ := Option.map_eq_some_iff.mp h
      rcases update_holds hx with hx | hx
      · cases hx
        exact .copied (impl_some hd)
      · exact .old hx
  | moveConstruct y other =>
    simp only [step] at h
    split_ifs at h with hy
    rw [← Option.some.inj h] at hx
    obtain ⟨z, hz⟩ := moved_holds hx
    exact .old hz
  | moveAssign y other =>
    simp only [step] at h
    split_ifs at h with hborn hy
    · rw [← Option.some.inj h] at hx
      exact .old hx
    · rw [← Option.some.inj h] at hx
      obtain ⟨z, hz⟩ := moved_holds hx
      exact .old hz
  | deserialize y value =>
    obtain ⟨d, hd, h⟩ := Option.bind_eq_some_iff.mp h
    obtain ⟨d', hd', h⟩ := Option.bind_eq_some_iff.mp h
    rw [← Option.some.inj h] at hx
    rcases update_holds hx with hx | hx
    · cases hx
      exact .read (impl_some hd) hd'
    · exact .old hx

end Steps

/-! ## Sorted tables -/

/-- The entries a value lists, in its order. -/
noncomputable def listedLens (value : Json) : Option LensEntries := do
  let lens ← value.member "lens"
  lens.mapItems deserializeLens

theorem deserialize_lens {realToString : ℝ → String} {value : Json} {data data' : CalibrationData}
    (h : data.deserialize realToString value = some data') :
    ∃ entries, listedLens value = some entries ∧ data'.lens = data.lens ++ entries := by
  obtain ⟨_, -, h⟩ := Option.bind_eq_some_iff.mp h
  obtain ⟨serial, -, h⟩ := Option.bind_eq_some_iff.mp h
  obtain ⟨_, -, h⟩ := Option.bind_eq_some_iff.mp h
  obtain ⟨array, -, h⟩ := Option.bind_eq_some_iff.mp h
  obtain ⟨lensValue, hvalue, h⟩ := Option.bind_eq_some_iff.mp h
  obtain ⟨entries, hentries, h⟩ := Option.bind_eq_some_iff.mp h
  refine ⟨entries, Option.bind_eq_some_iff.mpr ⟨lensValue, hvalue, hentries⟩, ?_⟩
  rw [← Option.some.inj h]

theorem lensLess_eq_false_iff {a b : LensConfiguration × LensParameters} :
    Calibrator.lensLess b a = false ↔ lensKey a ≤ lensKey b := by
  rw [Bool.eq_false_iff, ne_eq, Calibrator.lensLess_iff, ← not_lt]
  unfold lensKey
  rw [Prod.Lex.toLex_lt_toLex]

theorem tableSorted_sort (S : StdSort) (lens : LensEntries) : TableSorted (S.sort Calibrator.lensLess lens) :=
  (S.sorted _ lens Calibrator.lensLess_strictWeak).imp lensLess_eq_false_iff.mp

/-- **Copying** leaves a sorted table without ties as it is. -/
theorem copy_lens (S : StdSort) {data : CalibrationData} (hsorted : TableSorted data.lens) (hties : NoTies data.lens) :
    (data.copy S).lens = data.lens := by
  have hanti : ∀ a b, a ∈ (data.copy S).lens → b ∈ data.lens → lensKey a ≤ lensKey b → lensKey b ≤ lensKey a →
      a = b := by
    intro a b ha hb hab hba
    exact hties a ((S.mem_sort _ _ _).mp ha) b hb (le_antisymm hab hba)
  exact List.Perm.eq_of_pairwise hanti (tableSorted_sort S data.lens) hsorted (S.perm _ _)

/-- The entries that a step reads continue the table of its object in order. -/
def ReadsInOrder (s : Store) : Op → Prop
  | .deserialize x value => ∀ data entries, s x = .holds data → listedLens value = some entries →
      TableSorted entries ∧ ∀ a ∈ data.lens, ∀ b ∈ entries, lensKey a ≤ lensKey b
  | _ => True

/-- The step brings no two entries with equal steps together. -/
def BringsNoTies (s : Store) : Op → Prop
  | .construct _ _ _ lens => NoTies lens
  | .deserialize x value => ∀ data entries, s x = .holds data → listedLens value = some entries →
      NoTies (data.lens ++ entries)
  | _ => True

def AllSorted (s : Store) : Prop := ∀ x data, s x = .holds data → TableSorted data.lens

def AllNoTies (s : Store) : Prop := ∀ x data, s x = .holds data → NoTies data.lens

section Runs

variable {S : StdSort} {realToString : ℝ → String} {s s' : Store} {op : Op}

theorem step_sorted (hs : AllSorted s) (hop : ReadsInOrder s op) (h : step S realToString s op = some s') :
    AllSorted s' := by
  intro x data hx
  cases step_origin h hx with
  | old hy => exact hs _ _ hy
  | constructed => exact tableSorted_sort S _
  | default => exact List.Pairwise.nil
  | copied hy => exact tableSorted_sort S _
  | read hy hread =>
    obtain ⟨entries, hentries, hlens⟩ := deserialize_lens hread
    obtain ⟨hin, hcross⟩ := hop _ _ hy hentries
    rw [hlens]
    exact List.pairwise_append.mpr ⟨hs _ _ hy, hin, hcross⟩

theorem NoTies.sort {lens : LensEntries} (h : NoTies lens) (S : StdSort) :
    NoTies (S.sort Calibrator.lensLess lens) := by
  intro a ha b hb
  exact h a ((S.mem_sort _ _ _).mp ha) b ((S.mem_sort _ _ _).mp hb)

theorem step_noTies (hs : AllNoTies s) (hop : BringsNoTies s op) (h : step S realToString s op = some s') :
    AllNoTies s' := by
  intro x data hx
  cases step_origin h hx with
  | old hy => exact hs _ _ hy
  | constructed => exact NoTies.sort hop S
  | default =>
    intro a ha
    cases ha
  | copied hy => exact (hs _ _ hy).sort S
  | read hy hread =>
    obtain ⟨entries, hentries, hlens⟩ := deserialize_lens hread
    rw [hlens]
    exact hop _ _ hy hentries

/-- The condition is exact: a step that does not meet it leaves a table unsorted. -/
theorem step_sorted_iff (hs : AllSorted s) (h : step S realToString s op = some s') :
    AllSorted s' ↔ ReadsInOrder s op := by
  refine ⟨fun hs' => ?_, fun hop => step_sorted hs hop h⟩
  cases op with
  | deserialize x value =>
    intro data entries hx hentries
    obtain ⟨d, hd, h⟩ := Option.bind_eq_some_iff.mp h
    obtain ⟨d', hd', h⟩ := Option.bind_eq_some_iff.mp h
    obtain rfl : d = data := by
      have := impl_some hd
      rw [hx] at this
      exact (Slot.holds.inj this).symm
    obtain ⟨entries', hentries', hlens⟩ := deserialize_lens hd'
    obtain rfl : entries' = entries := Option.some.inj (hentries'.symm.trans hentries)
    have hsorted := hs' x d' (by rw [← Option.some.inj h, Function.update_self])
    rw [hlens] at hsorted
    exact (List.pairwise_append.mp hsorted).2
  | _ => trivial

/-- **Runs.**  If every value read continues the table of its object in order, all tables are sorted in
every state reached; if besides no step brings ties, copying leaves every table as it is. -/
theorem reach_sorted (S : StdSort) (realToString : ℝ → String) :
    (∀ s, Reach (step S realToString) ReadsInOrder Store.init s → AllSorted s) ∧
      ∀ s, Reach (step S realToString) (fun s op => ReadsInOrder s op ∧ BringsNoTies s op) Store.init s →
        ∀ x data, s x = .holds data → TableSorted data.lens ∧ (data.copy S).lens = data.lens := by
  have hsorted : ∀ s, Reach (step S realToString) ReadsInOrder Store.init s → AllSorted s := fun s h =>
    h.inv (fun _ _ hx => by cases hx) fun t op t' ht hop hstep => step_sorted ht hop hstep
  refine ⟨hsorted, fun s h x data hx => ?_⟩
  have hall : AllSorted s := hsorted s (h.mono fun _ _ hop => hop.1)
  have hties : AllNoTies s :=
    h.inv (fun _ _ hx => by cases hx) fun t op t' ht hop hstep => step_noTies ht hop.2 hstep
  exact ⟨hall x data hx, copy_lens S (hall x data hx) (hties x data hx)⟩

end Runs

/-! ## An object that is read -/

/-- One default object. -/
def defaultState : Store := Function.update Store.init 0 (.holds default)

/-- The object after `data` was read into it. -/
def readState (data : CalibrationData) : Store := Function.update defaultState 0 (.holds data)

theorem reach_readState (S : StdSort) (realToString : ℝ → String) {C : Store → Op → Prop} {data : CalibrationData}
    (hdata : ∀ lens ∈ data.lens, LensEntry lens) (hdefault : C Store.init (.constructDefault 0))
    (hread : C defaultState (.deserialize 0 data.serialize)) :
    Reach (step S realToString) C Store.init (readState data) := by
  have hfirst : step S realToString Store.init (.constructDefault 0) = some defaultState := rfl
  have hsecond : step S realToString defaultState (.deserialize 0 data.serialize) = some (readState data) := by
    show (default.deserialize realToString data.serialize).bind _ = _
    rw [roundTrip realToString data hdata]
    rfl
  exact (Reach.single hdefault hfirst).trans (.single hread hsecond)

theorem listedLens_serialize {data : CalibrationData} (hdata : ∀ lens ∈ data.lens, LensEntry lens) :
    listedLens data.serialize = some data.lens := by
  obtain ⟨entries, hentries, hlens⟩ := deserialize_lens (roundTrip (fun _ => "0") data hdata)
  rw [hentries, hlens]
  rfl

/-- A lens at zoom step `zoom`. -/
def lensAt (zoom : ℤ) : LensConfiguration × LensParameters := (⟨zoom, 0⟩, ⟨⟨1, 1, !![1]⟩, ⟨1, 1, !![1]⟩⟩)

/-- Two lenses, in the order given. -/
def twoLenses (a b : ℤ) : CalibrationData := { default with lens := [lensAt a, lensAt b] }

theorem twoLenses_entry {a b : ℤ} (ha : Json.IsInt a) (hb : Json.IsInt b) :
    ∀ lens ∈ (twoLenses a b).lens, LensEntry lens := by
  have hzero : Json.IsInt 0 := by decide
  intro lens hlens
  rcases List.mem_pair.mp hlens with rfl | rfl
  · exact ⟨ha, hzero, one_ne_zero, one_ne_zero⟩
  · exact ⟨hb, hzero, one_ne_zero, one_ne_zero⟩

theorem twoLenses_sorted : TableSorted (twoLenses 1 2).lens := by
  show [lensAt 1, lensAt 2].Pairwise _
  rw [List.pairwise_pair]
  decide

theorem twoLenses_noTies : NoTies (twoLenses 1 2).lens := by
  intro a ha b hb hab
  rcases List.mem_pair.mp ha with rfl | rfl <;> rcases List.mem_pair.mp hb with rfl | rfl
  · rfl
  · exact absurd hab (by decide)
  · exact absurd hab (by decide)
  · rfl

theorem reach_sorted_twoLenses :
    TableSorted (twoLenses 1 2).lens ∧ ((twoLenses 1 2).copy .insertion).lens = (twoLenses 1 2).lens := by
  have hentry : ∀ lens ∈ (twoLenses 1 2).lens, LensEntry lens := twoLenses_entry (by decide) (by decide)
  have hread : ReadsInOrder defaultState (.deserialize 0 (twoLenses 1 2).serialize) ∧
      BringsNoTies defaultState (.deserialize 0 (twoLenses 1 2).serialize) := by
    have hlisted : ∀ data entries, defaultState 0 = .holds data → listedLens (twoLenses 1 2).serialize = some entries →
        data.lens = [] ∧ entries = (twoLenses 1 2).lens := by
      intro data entries hdata hentries
      rw [listedLens_serialize hentry] at hentries
      rw [← Slot.holds.inj hdata, ← Option.some.inj hentries]
      exact ⟨rfl, rfl⟩
    refine ⟨fun data entries hdata hentries => ?_, fun data entries hdata hentries => ?_⟩
    · obtain ⟨hnil, rfl⟩ := hlisted data entries hdata hentries
      rw [hnil]
      exact ⟨twoLenses_sorted, by simp⟩
    · obtain ⟨hnil, rfl⟩ := hlisted data entries hdata hentries
      rw [hnil]
      exact twoLenses_noTies
  exact (reach_sorted .insertion fun _ => "0").2 (readState (twoLenses 1 2))
    (reach_readState .insertion (fun _ => "0") hentry ⟨trivial, trivial⟩ hread) 0 _ rfl

/-- A value that lists zoom step 2 before 1: the table is as listed, until it is copied. -/
theorem twoLenses_unsorted :
    ∃ s, Reach (step .insertion fun _ => "0") (fun _ _ => True) Store.init s ∧ s 0 = .holds (twoLenses 2 1) ∧
      ¬ TableSorted (twoLenses 2 1).lens ∧ ((twoLenses 2 1).copy .insertion).lens ≠ (twoLenses 2 1).lens := by
  have hunsorted : ¬ TableSorted (twoLenses 2 1).lens := by
    show ¬ [lensAt 2, lensAt 1].Pairwise _
    rw [List.pairwise_pair]
    decide
  refine ⟨readState (twoLenses 2 1), reach_readState .insertion _ (twoLenses_entry (by decide) (by decide))
    trivial trivial, rfl, hunsorted, fun h => hunsorted ?_⟩
  rw [← h]
  exact tableSorted_sort .insertion _

end Lyli.Calibration.CalibrationData
