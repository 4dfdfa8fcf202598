import Mathlib
import Lyli.Base.FoldM
import Lyli.Calibration.PointGridStep

/-!
# Sweeps: what whole passes over a line map do

A pass offers a list of points in turn.  `constructAll` takes every point;
`addAll` takes a sublist of them; `rekey` keeps every line or drops it whole.
The map never loses a point inside a pass, and a point offered again is the one
way it can come to stand twice, or on two lines:

    Reattached coord x m ps   the pass takes `x` while the map still holds it
    Torn coord x m ps         … on another line than the one that holds it

    (points m').count x ≤ 1 ↔ ¬ Reattached coord x m ps      (addAll_count_le_one)
    holders m' x ≤ 1 ↔ ¬ Torn coord x m ps                   (addAll_holders_le_one)
-/

namespace Lyli.Calibration.PointGrid

open Rounding (absDiff absDiff_self)

variable {R : Rounding}

open scoped List

variable {coord : Ptr → ℚ}

/-- What one insertion of either kind does. -/
def Inserts [Rounding] (m : TmpLineMap) (q : ℚ) (p : Ptr) (m' : TmpLineMap) : Prop :=
  (∃ e, AttachesTo m q p e m') ∨ (Creates m q p m' ∧ ∀ e ∈ m.entries, e.1 ≠ q) ∨ m' = m

theorem mapAddConstruct_inserts {m m' : TmpLineMap} {q : ℚ} {p : Ptr}
    (h : mapAddConstruct m q p = some m') : Inserts m q p m' := by
  rcases mapAddConstruct_cases h with ⟨e, he, -⟩ | ⟨hc, hfar⟩
  · exact Or.inl ⟨e, he⟩
  · refine Or.inr (Or.inl ⟨hc, ?_⟩)
    intro e he heq
    have := hfar e he
    rw [heq, absDiff_self] at this
    exact absurd this maxDiff_pos.not_gt

theorem mapAdd_inserts {m m' : TmpLineMap} {q : ℚ} {p : Ptr} (h : mapAdd m q p = some m') :
    Inserts m q p m' := by
  rcases mapAdd_cases h with ⟨e, he, -⟩ | ⟨rfl, -⟩
  · exact Or.inl ⟨e, he⟩
  · exact Or.inr (Or.inr rfl)

/-! ## Points of a pass -/

/-- **Construct pass.**  Every point offered is on a line afterwards. -/
theorem constructAll_points {m m' : TmpLineMap} {ps : List Ptr} (h : constructAll coord m ps = some m') :
    (points m').Perm (points m ++ ps) := by
  refine foldlM_inv (fun done s => (points s).Perm (points m ++ done)) (by simp) ?_ h
  intro done a rest s s' _ ih hs
  have hstep : (points s').Perm (a :: points s) := by
    rcases mapAddConstruct_cases hs with ⟨e, he, -⟩ | ⟨hc, -⟩
    · exact he.points_perm
    · exact hc.points_perm
  calc points s' ~ a :: points s := hstep
    _ ~ a :: (points m ++ done) := ih.cons a
    _ ~ points m ++ (done ++ [a]) := by
      rw [← List.append_assoc]
      exact (List.perm_append_singleton a _).symm

/-- **Adding pass.**  Some of the points offered are on a line afterwards, and all that were before. -/
theorem addAll_points {m m' : TmpLineMap} {ps : List Ptr} (h : addAll coord m ps = some m') :
    ∃ taken, taken.Sublist ps ∧ (points m').Perm (points m ++ taken) := by
  refine foldlM_inv (fun done s => ∃ taken, taken.Sublist done ∧ (points s).Perm (points m ++ taken))
    ⟨[], .slnil, by simp⟩ ?_ h
  rintro done a rest s s' - ⟨taken, hsub, ih⟩ hs
  rcases mapAdd_cases hs with ⟨e, he, -⟩ | ⟨rfl, -⟩
  · refine ⟨taken ++ [a], hsub.append_right [a], ?_⟩
    calc points s' ~ a :: points s := he.points_perm
      _ ~ a :: (points m ++ taken) := ih.cons a
      _ ~ points m ++ (taken ++ [a]) := by
        rw [← List.append_assoc]
        exact (List.perm_append_singleton a _).symm
  · exact ⟨taken, hsub.trans (List.sublist_append_left done [a]), ih⟩

theorem addAll_count_le {m m' : TmpLineMap} {ps : List Ptr} (h : addAll coord m ps = some m') (x : Ptr) :
    (points m).count x ≤ (points m').count x := by
  obtain ⟨taken, -, hp⟩ := addAll_points h
  rw [hp.count_eq, List.count_append]
  omega

theorem addAll_cons {m m' : TmpLineMap} {p : Ptr} {ps : List Ptr} :
    addAll coord m (p :: ps) = some m' ↔
      ∃ m₁, mapAdd m (coord p) p = some m₁ ∧ addAll coord m₁ ps = some m' :=
  foldlM_cons_some

/-! ## Lines that hold a point -/

theorem mapAdd_holders_le {m m' : TmpLineMap} {q : ℚ} {p : Ptr} (h : mapAdd m q p = some m') (x : Ptr) :
    holders m x ≤ holders m' x := by
  rcases mapAdd_cases h with ⟨e, he, -⟩ | ⟨rfl, -⟩
  · by_cases hx : x = p
    · subst hx
      rw [he.holders_self]
      omega
    · rw [he.holders_ne hx]
  · exact le_rfl

theorem addAll_holders_le {m m' : TmpLineMap} {ps : List Ptr} (h : addAll coord m ps = some m') (x : Ptr) :
    holders m x ≤ holders m' x :=
  foldlM_inv (fun _ s => holders m x ≤ holders s x) le_rfl
    (fun _ _ _ _ _ _ ih hs => ih.trans (mapAdd_holders_le hs x)) h

/-- The pass takes `x` while the map still holds it. -/
def Reattached [Rounding] (coord : Ptr → ℚ) (x : Ptr) : TmpLineMap → List Ptr → Prop
  | _, [] => False
  | m, p :: ps =>
    (p = x ∧ Accepts m (coord p) ∧ x ∈ points m) ∨
    ∃ m', mapAdd m (coord p) p = some m' ∧ Reattached coord x m' ps

/-- The pass puts `x` on another line than one that holds it. -/
def Torn [Rounding] (coord : Ptr → ℚ) (x : Ptr) : TmpLineMap → List Ptr → Prop
  | _, [] => False
  | m, p :: ps =>
    (p = x ∧ ∃ e, m.nearest? absDiff (coord p) = some e ∧ absDiff e.1 (coord p) < maxDiff ∧ x ∈ points m ∧ x ∉ e.2.line) ∨
    ∃ m', mapAdd m (coord p) p = some m' ∧ Torn coord x m' ps

/-- One step of a pass, for the number of times `x` stands in the map. -/
theorem mapAdd_count {m m' : TmpLineMap} {q : ℚ} {p : Ptr} (h : mapAdd m q p = some m') (x : Ptr) :
    (p = x ∧ Accepts m q ∧ (points m').count x = (points m).count x + 1) ∨
    (¬ (p = x ∧ Accepts m q) ∧ (points m').count x = (points m).count x) := by
  rcases mapAdd_cases h with ⟨e, he, hnear⟩ | ⟨rfl, hno⟩
  · by_cases hx : p = x
    · refine Or.inl ⟨hx, ⟨e, he.1, hnear⟩, ?_⟩
      rw [he.points_perm.count_eq, hx, List.count_cons_self]
    · refine Or.inr ⟨fun h => hx h.1, ?_⟩
      rw [he.points_perm.count_eq, List.count_cons_of_ne hx]
  · exact Or.inr ⟨fun h => hno h.2, rfl⟩

/-- **A point stands once after the pass** iff it does not take the point while the map holds it. -/
theorem addAll_count_le_one {m m' : TmpLineMap} {ps : List Ptr} (h : addAll coord m ps = some m') {x : Ptr}
    (hx : (points m).count x ≤ 1) : (points m').count x ≤ 1 ↔ ¬ Reattached coord x m ps := by
  induction ps generalizing m with
  | nil =>
    obtain rfl : m = m' := Option.some.inj h
    simp [Reattached, hx]
  | cons p ps ih =>
    obtain ⟨m₁, hm₁, hrest⟩ := addAll_cons.mp h
    have hmono := addAll_count_le hrest x
    simp only [Reattached, hm₁, Option.some.injEq, exists_eq_left']
    rcases mapAdd_count hm₁ x with ⟨rfl, hacc, hc⟩ | ⟨hno, hc⟩
    · by_cases hmem : p ∈ points m
      · have hpos := List.count_pos_iff.mpr hmem
        constructor
        · intro hle; omega
        · intro hnot; exact absurd (Or.inl ⟨rfl, hacc, hmem⟩) hnot
      · have hzero : (points m).count p = 0 := List.count_eq_zero.mpr hmem
        rw [ih hrest (by omega)]
        simp [hmem]
    · rw [ih hrest (by omega)]
      constructor
      · rintro hnot (⟨rfl, hacc, -⟩ | hre)
        · exact hno ⟨rfl, hacc⟩
        · exact hnot hre
      · exact fun hnot hre => hnot (Or.inr hre)

/-- One step of a pass, for the number of lines that hold `x`. -/
theorem mapAdd_holders {m m' : TmpLineMap} {q : ℚ} {p : Ptr} (h : mapAdd m q p = some m') (x : Ptr) :
    (p = x ∧ ∃ e, m.nearest? absDiff q = some e ∧ absDiff e.1 q < maxDiff ∧ x ∉ e.2.line ∧ holders m' x = holders m x + 1) ∨
    ((p = x → ∀ e, m.nearest? absDiff q = some e → absDiff e.1 q < maxDiff → x ∈ e.2.line) ∧ holders m' x = holders m x) := by
  rcases mapAdd_cases h with ⟨e, he, hnear⟩ | ⟨rfl, hno⟩
  · by_cases hx : p = x
    · subst hx
      by_cases hp : p ∈ e.2.line
      · refine Or.inr ⟨fun _ e' he' _ => ?_, by rw [he.holders_self, if_pos hp]; rfl⟩
        rw [he.1] at he'
        obtain rfl := Option.some.inj he'
        exact hp
      · exact Or.inl ⟨rfl, e, he.1, hnear, hp, by rw [he.holders_self, if_neg hp]⟩
    · exact Or.inr ⟨fun h => absurd h hx, he.holders_ne (Ne.symm hx)⟩
  · exact Or.inr ⟨fun _ e he hnear => absurd ⟨e, he, hnear⟩ hno, rfl⟩

/-- **A point is on one line after the pass** iff the pass puts it on no other line than the one that holds it. -/
theorem addAll_holders_le_one {m m' : TmpLineMap} {ps : List Ptr} (h : addAll coord m ps = some m') {x : Ptr}
    (hx : holders m x ≤ 1) : holders m' x ≤ 1 ↔ ¬ Torn coord x m ps := by
  induction ps generalizing m with
  | nil =>
    obtain rfl : m = m' := Option.some.inj h
    simp [Torn, hx]
  | cons p ps ih =>
    obtain ⟨m₁, hm₁, hrest⟩ := addAll_cons.mp h
    have hmono := addAll_holders_le hrest x
    simp only [Torn, hm₁, Option.some.injEq, exists_eq_left']
    rcases mapAdd_holders hm₁ x with ⟨rfl, e, he, hnear, hout, hc⟩ | ⟨hin, hc⟩
    · by_cases hmem : p ∈ points m
      · have hpos := holders_pos.mpr hmem
        constructor
        · intro hle; omega
        · intro hnot; exact absurd (Or.inl ⟨rfl, e, he, hnear, hmem, hout⟩) hnot
      · have hzero : holders m p = 0 := by
          have := mt holders_pos.mp hmem
          omega
        rw [ih hrest (by omega)]
        simp [hmem]
    · rw [ih hrest (by omega)]
      constructor
      · rintro hnot (⟨rfl, e, he, hnear, -, hout⟩ | hre)
        · exact hout (hin rfl e he hnear)
        · exact hnot hre
      · exact fun hnot hre => hnot (Or.inr hre)

/-- A torn point is one taken while the map still holds it. -/
theorem reattached_of_torn {m : TmpLineMap} {ps : List Ptr} {x : Ptr} (h : Torn coord x m ps) :
    Reattached coord x m ps := by
  induction ps generalizing m with
  | nil => exact h
  | cons p ps ih =>
    rcases h with ⟨hp, e, he, hnear, hx, -⟩ | ⟨m', hm', h⟩
    · exact Or.inl ⟨hp, ⟨e, he, hnear⟩, hx⟩
    · exact Or.inr ⟨m', hm', ih h⟩

theorem not_reattached_of_notMem {m : TmpLineMap} {ps : List Ptr} {x : Ptr} (hx : x ∉ ps) :
    ¬ Reattached coord x m ps := by
  induction ps generalizing m with
  | nil => exact id
  | cons p ps ih =>
    rintro (⟨rfl, -⟩ | ⟨m', -, h⟩)
    · exact hx List.mem_cons_self
    · exact ih (fun h => hx (List.mem_cons_of_mem _ h)) h

/-- A point the map does not hold is not taken again when it is offered once. -/
theorem not_reattached_of_fresh {m : TmpLineMap} {ps : List Ptr} {x : Ptr} (hx : x ∉ points m)
    (h1 : ps.count x ≤ 1) : ¬ Reattached coord x m ps := by
  induction ps generalizing m with
  | nil => exact id
  | cons p ps ih =>
    rintro (⟨-, -, hmem⟩ | ⟨m', hm', h⟩)
    · exact hx hmem
    · by_cases hp : p = x
      · subst hp
        rw [List.count_cons_self] at h1
        exact not_reattached_of_notMem (List.count_eq_zero.mp (by omega)) h
      · rw [List.count_cons_of_ne hp] at h1
        refine ih ?_ h1 h
        rw [← List.count_eq_zero] at hx ⊢
        rcases mapAdd_count hm' x with ⟨h', -⟩ | ⟨-, hc⟩
        · exact absurd h' hp
        · omega

/-- A point taken in a pass is on a line afterwards. -/
theorem mem_of_reattached {m m' : TmpLineMap} {ps : List Ptr} {x : Ptr} (h : Reattached coord x m ps)
    (hadd : addAll coord m ps = some m') : x ∈ points m' := by
  induction ps generalizing m with
  | nil => exact absurd h id
  | cons p ps ih =>
    obtain ⟨m₁, hm₁, hrest⟩ := addAll_cons.mp hadd
    rcases h with ⟨-, -, hx⟩ | ⟨m₁', hm₁', h⟩
    · have h₁ := List.count_pos_iff.mpr hx
      have h₂ := addAll_count_le hadd x
      exact List.count_pos_iff.mp (by omega)
    · obtain rfl : m₁' = m₁ := Option.some.inj (hm₁'.symm.trans hm₁)
      exact ih h hrest

end Lyli.Calibration.PointGrid
