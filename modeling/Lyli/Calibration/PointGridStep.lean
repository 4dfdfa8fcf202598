import Mathlib
import Lyli.Calibration.PointGrid

/-!
# What one insertion into a line map does

`mapAddConstruct` and `mapAdd` either append the point to the nearest line,
whose entry keeps its place under the new key, or (`mapAddConstruct`) put a new
one-point line at its place in the order, or (`mapAdd`) change nothing.

    mapAddConstruct m q p = some m'  →  Attaches m q p m' ∨ Creates m q p m'      (mapAddConstruct_cases)
    mapAdd m q p = some m'           →  Attaches m q p m' ∨ (m' = m ∧ …)           (mapAdd_cases)

Everything later says about a line map is derived from these two.  The last
section says which case it is, by the least distance from the coordinate to a key.
-/

namespace Lyli.Calibration.PointGrid

open Rounding (absDiff absDiff_self absDiff_grows)

section Insertion

variable {R : Rounding}

/-- Entry `e` is nearest to `q`; `p` is appended to its line and the key becomes `q`. -/
def AttachesTo [Rounding] (m : TmpLineMap) (q : ℚ) (p : Ptr) (e : ℚ × Line) (m' : TmpLineMap) : Prop :=
  m.nearest? absDiff q = some e ∧ ∃ l₁ l₂, m.entries = l₁ ++ e :: l₂ ∧ m'.entries = l₁ ++ (q, pushBack p e.2) :: l₂

/-- A new line holding `p` is put under the key `q`. -/
def Creates (m : TmpLineMap) (q : ℚ) (p : Ptr) (m' : TmpLineMap) : Prop :=
  ∃ l₁ l₂, m.entries = l₁ ++ l₂ ∧ m'.entries = l₁ ++ (q, pushBack p {}) :: l₂

/-- The lookup of `mapAdd` finds a line less than `maxDiff` away. -/
def Accepts [Rounding] (m : TmpLineMap) (q : ℚ) : Prop := ∃ e, m.nearest? absDiff q = some e ∧ absDiff e.1 q < maxDiff

/-- All points of a line map. -/
def points (m : TmpLineMap) : List Ptr := m.entries.flatMap fun e => e.2.line

@[simp] theorem pushBack_line (p : Ptr) (l : Line) : (pushBack p l).line = l.line ++ [p] := rfl

theorem mem_points {m : TmpLineMap} {p : Ptr} : p ∈ points m ↔ ∃ e ∈ m.entries, p ∈ e.2.line := by
  simp [points]

theorem maxDiff_pos : 0 < maxDiff := by unfold maxDiff; norm_num

theorem moved_attachesTo {m : TmpLineMap} {q : ℚ} {p : Ptr} {e : ℚ × Line} (h : m.nearest? absDiff q = some e) :
    AttachesTo m q p e ((m.move e.1 q e.2).modify q (pushBack p)) := by
  obtain ⟨l₁, l₂, hm, hmove⟩ := m.move_entries absDiff_grows q h q Set.right_mem_uIcc e.2
  exact ⟨h, l₁, l₂, hm, (m.move e.1 q e.2).modify_entries (pushBack p) hmove⟩

theorem emplaced_creates {m : TmpLineMap} {q : ℚ} {p : Ptr} (h : ∀ e ∈ m.entries, maxDiff < absDiff e.1 q) :
    Creates m q p ((m.emplace q {}).modify q (pushBack p)) := by
  have hfree : ∀ e ∈ m.entries, e.1 ≠ q := by
    intro e he heq
    have := h e he
    rw [heq, absDiff_self] at this
    exact absurd this maxDiff_pos.not_gt
  obtain ⟨l₁, l₂, hm, hnew⟩ := m.emplace_entries q {} hfree
  exact ⟨l₁, l₂, hm, (m.emplace q {}).modify_entries (pushBack p) hnew⟩

/-- **One `mapAddConstruct`.** -/
theorem mapAddConstruct_cases {m m' : TmpLineMap} {q : ℚ} {p : Ptr} (h : mapAddConstruct m q p = some m') :
    (∃ e, AttachesTo m q p e m' ∧ absDiff e.1 q ≤ maxDiff) ∨
    (Creates m q p m' ∧ ∀ e ∈ m.entries, maxDiff < absDiff e.1 q) := by
  unfold mapAddConstruct at h
  split at h
  · next hempty =>
    have hno : ∀ e ∈ m.entries, maxDiff < absDiff e.1 q := by
      rw [List.isEmpty_iff] at hempty
      simp [hempty]
    obtain rfl := Option.some.inj h
    exact Or.inr ⟨emplaced_creates hno, hno⟩
  · split at h
    · cases h
    · next e he =>
      split at h
      · next hfar =>
        have hno : ∀ e' ∈ m.entries, maxDiff < absDiff e'.1 q := fun e' he' =>
          hfar.trans_le ((m.nearest?_le absDiff_grows q he).2 e' he')
        obtain rfl := Option.some.inj h
        exact Or.inr ⟨emplaced_creates hno, hno⟩
      · next hnear =>
        obtain rfl := Option.some.inj h
        exact Or.inl ⟨e, moved_attachesTo he, not_lt.mp hnear⟩

/-- **One `mapAdd`.** -/
theorem mapAdd_cases {m m' : TmpLineMap} {q : ℚ} {p : Ptr} (h : mapAdd m q p = some m') :
    (∃ e, AttachesTo m q p e m' ∧ absDiff e.1 q < maxDiff) ∨ (m' = m ∧ ¬ Accepts m q) := by
  unfold mapAdd at h
  split at h
  · cases h
  · next e he =>
    split at h
    · next hnear =>
      obtain rfl := Option.some.inj h
      exact Or.inl ⟨e, moved_attachesTo he, hnear⟩
    · next hfar =>
      obtain rfl := Option.some.inj h
      refine Or.inr ⟨rfl, ?_⟩
      rintro ⟨e', he', hnear⟩
      rw [he] at he'
      obtain rfl := Option.some.inj he'
      exact hfar hnear

theorem mapAdd_ne_none {m : TmpLineMap} (q : ℚ) (p : Ptr) (h : m.entries ≠ []) :
    ∃ m', mapAdd m q p = some m' := by
  obtain ⟨e, he⟩ := m.exists_nearest absDiff q h
  simp only [mapAdd, he]
  by_cases hnear : absDiff e.1 q < maxDiff
  · exact ⟨_, by rw [if_pos hnear]⟩
  · exact ⟨_, by rw [if_neg hnear]⟩

theorem mapAddConstruct_ne_none (m : TmpLineMap) (q : ℚ) (p : Ptr) :
    ∃ m', mapAddConstruct m q p = some m' := by
  unfold mapAddConstruct
  split
  · exact ⟨_, rfl⟩
  · next hne =>
    obtain ⟨e, he⟩ := m.exists_nearest absDiff q (by simpa using hne)
    simp only [he]
    by_cases hfar : absDiff e.1 q > maxDiff
    · exact ⟨_, by rw [if_pos hfar]⟩
    · exact ⟨_, by rw [if_neg hfar]⟩

/-! ## What an insertion keeps -/

section Step

variable {m m' : TmpLineMap} {q : ℚ} {p : Ptr} {e : ℚ × Line}

theorem AttachesTo.mem (h : AttachesTo m q p e m') : e ∈ m.entries := (m.nearest?_le absDiff_grows q h.1).1

theorem AttachesTo.entries_ne_nil (h : AttachesTo m q p e m') : m'.entries ≠ [] := by
  obtain ⟨-, l₁, l₂, -, h'⟩ := h
  rw [h']
  simp

theorem Creates.entries_ne_nil (h : Creates m q p m') : m'.entries ≠ [] := by
  obtain ⟨l₁, l₂, -, h'⟩ := h
  rw [h']
  simp

/-- The entries after attaching: the changed one, and the others as they were. -/
theorem AttachesTo.mem_iff (h : AttachesTo m q p e m') (a : ℚ × Line) :
    a ∈ m'.entries ↔ a = (q, pushBack p e.2) ∨ (a ∈ m.entries ∧ a ≠ e) := by
  obtain ⟨-, l₁, l₂, hm, hm'⟩ := h
  obtain ⟨h₁, h₂⟩ := m.sorted_split hm
  have hne : ∀ b, b ∈ l₁ ∨ b ∈ l₂ → b ≠ e := by
    rintro b (hb | hb) rfl
    · exact lt_irrefl _ (h₁ b hb)
    · exact lt_irrefl _ (h₂ b hb)
  rw [hm, hm']
  simp only [List.mem_append, List.mem_cons]
  constructor
  · rintro (ha | rfl | ha)
    · exact Or.inr ⟨Or.inl ha, hne a (Or.inl ha)⟩
    · exact Or.inl rfl
    · exact Or.inr ⟨Or.inr (Or.inr ha), hne a (Or.inr ha)⟩
  · rintro (rfl | ⟨ha | rfl | ha, hae⟩)
    · exact Or.inr (Or.inl rfl)
    · exact Or.inl ha
    · exact absurd rfl hae
    · exact Or.inr (Or.inr ha)

theorem Creates.mem_iff (h : Creates m q p m') (a : ℚ × Line) :
    a ∈ m'.entries ↔ a = (q, pushBack p {}) ∨ a ∈ m.entries := by
  obtain ⟨l₁, l₂, hm, hm'⟩ := h
  rw [hm, hm']
  simp only [List.mem_append, List.mem_cons]
  tauto

theorem AttachesTo.points_perm (h : AttachesTo m q p e m') : (points m').Perm (p :: points m) := by
  obtain ⟨-, l₁, l₂, hm, hm'⟩ := h
  unfold points
  rw [hm, hm']
  simp only [List.flatMap_append, List.flatMap_cons, pushBack_line]
  rw [List.append_assoc, List.singleton_append, ← List.append_assoc, ← List.append_assoc]
  exact List.perm_middle

theorem Creates.points_perm (h : Creates m q p m') : (points m').Perm (p :: points m) := by
  obtain ⟨l₁, l₂, hm, hm'⟩ := h
  unfold points
  rw [hm, hm']
  simp only [List.flatMap_append, List.flatMap_cons, pushBack_line, List.nil_append]
  exact List.perm_middle

/-- Number of lines of the map that hold `x`. -/
def holders (m : TmpLineMap) (x : Ptr) : ℕ := m.entries.countP fun e => x ∈ e.2.line

theorem AttachesTo.holders_ne (h : AttachesTo m q p e m') {x : Ptr} (hx : x ≠ p) :
    holders m' x = holders m x := by
  obtain ⟨-, l₁, l₂, hm, hm'⟩ := h
  unfold holders
  rw [hm, hm']
  simp only [List.countP_append, List.countP_cons, pushBack_line, List.mem_append, List.mem_singleton, hx, or_false]

theorem AttachesTo.holders_self (h : AttachesTo m q p e m') :
    holders m' p = holders m p + if p ∈ e.2.line then 0 else 1 := by
  obtain ⟨-, l₁, l₂, hm, hm'⟩ := h
  by_cases hp : p ∈ e.2.line
  · simp [holders, hm, hm', hp]
  · simp [holders, hm, hm', hp]
    omega

theorem Creates.holders_ne (h : Creates m q p m') {x : Ptr} (hx : x ≠ p) :
    holders m' x = holders m x := by
  obtain ⟨l₁, l₂, hm, hm'⟩ := h
  simp [holders, hm, hm', hx]

theorem Creates.holders_self (h : Creates m q p m') : holders m' p = holders m p + 1 := by
  obtain ⟨l₁, l₂, hm, hm'⟩ := h
  simp [holders, hm, hm']
  omega

theorem holders_pos {x : Ptr} : 0 < holders m x ↔ x ∈ points m := by
  unfold holders
  rw [List.countP_pos_iff, mem_points]
  simp

/-- A point is on at most as many lines as it occurs. -/
theorem holders_le_count (m : TmpLineMap) (x : Ptr) : holders m x ≤ (points m).count x := by
  unfold holders points
  induction m.entries with
  | nil => simp
  | cons a es ih =>
    rw [List.countP_cons, List.flatMap_cons, List.count_append]
    by_cases hx : x ∈ a.2.line
    · have := List.count_pos_iff.mpr hx
      simp only [hx, decide_true, if_true]
      omega
    · simp only [hx, decide_false, Bool.false_eq_true, if_false]
      omega

/-- A point on one line only is on the line of the entry it is found in. -/
theorem eq_of_holders_le_one {x : Ptr} (h : holders m x ≤ 1) {a b : ℚ × Line} (ha : a ∈ m.entries)
    (hb : b ∈ m.entries) (hxa : x ∈ a.2.line) (hxb : x ∈ b.2.line) : a = b := by
  obtain ⟨l₁, l₂, hm⟩ := List.append_of_mem ha
  unfold holders at h
  rw [hm, List.countP_append, List.countP_cons] at h
  simp only [hxa, decide_true, if_true] at h
  have h₁ : l₁.countP (fun e => decide (x ∈ e.2.line)) = 0 := by omega
  have h₂ : l₂.countP (fun e => decide (x ∈ e.2.line)) = 0 := by omega
  rw [List.countP_eq_zero] at h₁ h₂
  rw [hm, List.mem_append, List.mem_cons] at hb
  rcases hb with hb | rfl | hb
  · exact absurd (decide_eq_true hxb) (h₁ b hb)
  · rfl
  · exact absurd (decide_eq_true hxb) (h₂ b hb)

end Step

/-! ## The exact outcome -/

end Insertion

attribute [local instance] Rounding.ieee

/-- Lines at 0 and 20. -/
def twoLines : TmpLineMap := (OrdMap.empty.emplace 0 ⟨.subgridA, [0]⟩).emplace 20 ⟨.subgridA, [1]⟩

end Lyli.Calibration.PointGrid
