import Mathlib
import Lyli.Calibration.PointGridFinal

/-!
# Each point once per direction, and the links back to its lines

The reverse passes start with the point (the row) that the construct passes
started with, so these points are offered twice.  Every other point is offered
once to the horizontal map and once to the vertical map of its row's parity.

    OncePerDirection g ↔ no reverse pass takes a point its map still holds    (finalize_oncePerDirection_iff)
    BackLinks g ↔ no vertical reverse pass puts a point on a second line      (finalize_backLinks_iff)

Horizontally the start point always goes back to its own line
(`horizontal_holders_le_one`), so only vertical links can be wrong.
-/

namespace Lyli.Calibration.PointGrid

open Rounding (absDiff absDiff_self absDiff_grows)

open scoped List

/-! ## Keyed maps -/

section Keyed

variable {R : Rounding} {coord : Ptr → ℚ} {construct following : List Ptr} {m : TmpLineMap}

theorem built_count_le (h : Built coord construct following m) (x : Ptr) :
    (points m).count x ≤ (construct ++ following).count x := by
  obtain ⟨m₁, h₁, h₂⟩ := h
  have hc := constructAll_points h₁
  obtain ⟨taken, hsub, ha⟩ := addAll_points h₂
  rw [ha.count_eq, List.count_append, List.count_append]
  have e₁ : (points m₁).count x = construct.count x := hc.count_eq x
  have e₂ := hsub.count_le x
  omega

theorem keyed_count_le (h : Keyed coord construct following m) (x : Ptr) :
    (points m).count x ≤ (construct ++ following).count x := by
  obtain ⟨m₂, hbuilt, hkey⟩ := keyed_iff.mp h
  exact (rekey_count_le hkey x).trans (built_count_le hbuilt x)

theorem keyed_mem (h : Keyed coord construct following m) {x : Ptr} (hx : x ∈ points m) :
    x ∈ construct ∨ x ∈ following := by
  have h₁ := List.count_pos_iff.mpr hx
  have h₂ := keyed_count_le h x
  exact List.mem_append.mp (List.count_pos_iff.mp (by omega))

/-- Some line starts with `a`. -/
def HasFront (m : TmpLineMap) (a : Ptr) : Prop := ∃ e ∈ m.entries, e.2.line.head? = some a

theorem hasFront_step {m m' : TmpLineMap} {q : ℚ} {a p : Ptr} (hf : HasFront m a) (h : Inserts m q p m') :
    HasFront m' a := by
  obtain ⟨b, hb, hhead⟩ := hf
  rcases h with ⟨e, he⟩ | ⟨hc, -⟩ | rfl
  · by_cases hbe : b = e
    · subst hbe
      refine ⟨(q, pushBack p b.2), (he.mem_iff _).mpr (Or.inl rfl), ?_⟩
      rw [pushBack_line, List.head?_append, hhead]
      rfl
    · exact ⟨b, (he.mem_iff b).mpr (Or.inr ⟨hb, hbe⟩), hhead⟩
  · exact ⟨b, (hc.mem_iff b).mpr (Or.inr hb), hhead⟩
  · exact ⟨b, hb, hhead⟩

/-- After the change of keys the first point constructed has its coordinate as a key, and
stands under no other. -/
theorem keyed_first {a : Ptr} (h : Keyed coord (a :: construct) following m)
    (hnd : (a :: construct ++ following).Nodup) :
    (∃ e ∈ m.entries, e.1 = coord a) ∧ ∀ e ∈ m.entries, a ∈ e.2.line → e.1 = coord a := by
  obtain ⟨m₁, m₂, h₁, h₂, h₃⟩ := h
  -- the line that `a` opened keeps it in front
  obtain ⟨m₀, h₀, h₁'⟩ := foldlM_cons_some.mp h₁
  have hfront₀ : HasFront m₀ a := by
    rcases mapAddConstruct_cases h₀ with ⟨e, he, -⟩ | ⟨hc, -⟩
    · exact absurd he.mem (by simp)
    · exact ⟨(coord a, pushBack a {}), (hc.mem_iff _).mpr (Or.inl rfl), rfl⟩
  have hfront₁ : HasFront m₁ a := foldlM_inv (fun _ s => HasFront s a) hfront₀
    (fun _ _ _ _ _ _ hs hstep => hasFront_step hs (mapAddConstruct_inserts hstep)) h₁'
  obtain ⟨b, hb, hhead⟩ : HasFront m₂ a := foldlM_inv (fun _ s => HasFront s a) hfront₁
    (fun _ _ _ _ _ _ hs hstep => hasFront_step hs (mapAdd_inserts hstep)) h₂
  have hkeys := rekey_spec h₃
  constructor
  · obtain ⟨front, hf, e, he, hk⟩ := hkeys.has b hb
    rw [hhead] at hf
    obtain rfl := Option.some.inj hf
    exact ⟨e, he, hk⟩
  · intro e he hae
    obtain ⟨front, hf, hk⟩ := hkeys.key e he
    -- `a` is on one line only before the change of keys
    have hone : holders m₂ a ≤ 1 :=
      (holders_le_count m₂ a).trans ((built_count_le ⟨m₁, h₁, h₂⟩ a).trans (List.nodup_iff_count_le_one.mp hnd a))
    obtain ⟨e₂, he₂, hline⟩ : ∃ e₂ ∈ m₂.entries, e₂.2 = e.2 :=
      List.mem_map.mp (rekey_mem_values h₃ (List.mem_map.mpr ⟨e, he, rfl⟩))
    have hab : a ∈ b.2.line := List.mem_of_mem_head? hhead
    have heq := eq_of_holders_le_one hone he₂ hb (by rw [hline]; exact hae) hab
    rw [← hline, heq, hhead] at hf
    obtain rfl := Option.some.inj hf
    exact hk

end Keyed

/-! ## The horizontal map -/

section Horizontal

variable {R : Rounding} {pts : List Point2f} {m m' : TmpLineMap}

/-- The points in the order they were added. -/
theorem accumulator_addPoints (pts : List Point2f) : (addPoints pts).accumulator = List.range pts.length :=
  (added_addPoints pts).accumulator

theorem preceding_nodup (pts : List Point2f) : (addPoints pts).preceding.Nodup := by
  unfold preceding
  rw [accumulator_addPoints, List.nodup_reverse]
  exact (List.take_sublist _ _).nodup List.nodup_range

theorem horizontalBuilt_count_le_one (h : (addPoints pts).horizontalBuilt = some m) (x : Ptr) :
    (points m).count x ≤ 1 := by
  obtain ⟨start, done, rest, hdrop, -, -, hb⟩ := horizontalBuilt_some.mp h
  have hnd : (start :: done ++ rest).Nodup := by
    rw [← hdrop, accumulator_addPoints]
    exact (List.drop_sublist _ _).nodup List.nodup_range
  exact (built_count_le hb x).trans (List.nodup_iff_count_le_one.mp hnd x)

theorem horizontalKeyed_count_le_one (h : (addPoints pts).horizontalKeyed = some m) (x : Ptr) :
    (points m).count x ≤ 1 := by
  rw [horizontalKeyed_rekey] at h
  obtain ⟨m₂, hm₂, hkey⟩ := Option.bind_eq_some_iff.mp h
  exact (rekey_count_le hkey x).trans (horizontalBuilt_count_le_one hm₂ x)

/-- The points the keyed map can hold, and those the reverse loop offers: they share the start point only. -/
structure StartSplit [Rounding] (pts : List Point2f) (start : Ptr) (m : TmpLineMap) : Prop where
  accumulator : (addPoints pts).accumulator[(addPoints pts).accumulator.length / 3]? = some start
  preceding : (addPoints pts).preceding = start :: (List.range start).reverse
  key : ∃ e ∈ m.entries, e.1 = (position (addPoints pts).storage start).x
  onlyKey : ∀ e ∈ m.entries, start ∈ e.2.line → e.1 = (position (addPoints pts).storage start).x
  le : ∀ x ∈ points m, start ≤ x

theorem horizontalKeyed_startSplit (h : (addPoints pts).horizontalKeyed = some m) :
    ∃ start, StartSplit pts start m := by
  obtain ⟨start, done, rest, hdrop, -, -, hk⟩ := horizontalKeyed_some.mp h
  rw [accumulator_addPoints, List.length_range] at hdrop
  have hnd : (start :: done ++ rest).Nodup := by
    rw [← hdrop]
    exact (List.drop_sublist _ _).nodup List.nodup_range
  have hge : ∀ y ∈ start :: done ++ rest, pts.length / 3 ≤ y := by
    rw [← hdrop]
    intro y hy
    obtain ⟨k, hk, rfl⟩ := List.mem_drop_iff_getElem.mp hy
    rw [List.getElem_range]
    exact Nat.le_add_right _ _
  have hlt : pts.length / 3 < pts.length := by
    by_contra hle
    rw [List.drop_eq_nil_of_le (by simpa using hle)] at hdrop
    cases hdrop
  have hstart : start = pts.length / 3 := by
    have hhead := congrArg List.head? hdrop
    rw [List.head?_drop, List.getElem?_range hlt] at hhead
    exact (Option.some.inj hhead).symm
  obtain ⟨hkey, honly⟩ := keyed_first hk hnd
  refine ⟨start, ?_, ?_, hkey, honly, ?_⟩
  · rw [accumulator_addPoints, List.length_range, List.getElem?_range hlt, hstart]
  · unfold preceding
    rw [accumulator_addPoints, List.length_range, List.take_range, Nat.min_eq_left (by omega),
      List.range_succ, List.reverse_append, hstart]
    rfl
  · intro x hx
    rw [hstart]
    exact hge x (List.mem_append.mpr (keyed_mem hk hx))

/-- What the horizontal map holds was added. -/
theorem horizontalMap_mem_accumulator {g : PointGrid} (h : g.horizontalMap = some m') {x : Ptr} (hx : x ∈ points m') :
    x ∈ g.accumulator := by
  obtain ⟨m, hm, hadd⟩ := horizontalMap_some.mp h
  obtain ⟨start, done, rest, hdrop, -, -, hk⟩ := horizontalKeyed_some.mp hm
  rcases pass_mem_points mapAdd_inserts hadd hx with hx | hx
  · apply List.mem_of_mem_drop
    rw [hdrop]
    exact List.mem_append.mpr (keyed_mem hk hx)
  · exact List.mem_of_mem_take (List.mem_reverse.mp hx)

theorem mem_storage_addPoints {x : Ptr} (hx : x ∈ (addPoints pts).accumulator) : x ∈ (addPoints pts).storage := by
  rw [accumulator_addPoints, List.mem_range] at hx
  rw [← AList.lookup_isSome, (added_addPoints pts).lookup, List.getElem?_eq_getElem hx]
  rfl

/-- **No point is on two horizontal lines.** -/
theorem horizontal_holders_le_one (h : (addPoints pts).horizontalMap = some m') (x : Ptr) :
    holders m' x ≤ 1 := by
  obtain ⟨m, hm, hadd⟩ := horizontalMap_some.mp h
  have hone : holders m x ≤ 1 := (holders_le_count m x).trans (horizontalKeyed_count_le_one hm x)
  obtain ⟨start, hs⟩ := horizontalKeyed_startSplit hm
  refine (addAll_holders_le_one hadd hone).mpr ?_
  by_cases hx : x ∈ points m
  · by_cases hxs : x = start
    · -- the start point is offered again: the line under its coordinate is its own
      subst hxs
      obtain ⟨e, he, hxe⟩ := mem_points.mp hx
      rw [hs.preceding]
      rintro (⟨-, e', he', -, -, hout⟩ | ⟨m₁, -, htorn⟩)
      · have hmem : ((position (addPoints pts).storage x).x, e.2) ∈ m.entries := by
          rw [← hs.onlyKey e he hxe]
          exact he
        rw [m.nearest?_of_mem absDiff_grows _ _ hmem] at he'
        obtain rfl := Option.some.inj he'
        exact hout hxe
      · refine not_reattached_of_notMem ?_ (reattached_of_torn htorn)
        rw [List.mem_reverse, List.mem_range]
        exact lt_irrefl _
    · -- points the map holds come after the start point
      refine fun htorn => not_reattached_of_notMem ?_ (reattached_of_torn htorn)
      rw [hs.preceding, List.mem_cons, List.mem_reverse, List.mem_range]
      rintro (h | h)
      · exact hxs h
      · exact absurd (hs.le x hx) h.not_ge
  · intro htorn
    exact not_reattached_of_fresh hx (List.nodup_iff_count_le_one.mp (preceding_nodup pts) x)
      (reattached_of_torn htorn)

/-- **The reverse loop takes exactly the start point a second time**, if the change of keys kept its line. -/
theorem horizontal_reattached_iff {start : Ptr} (hs : StartSplit pts start m) (x : Ptr) :
    Reattached (fun p => (position (addPoints pts).storage p).x) x m (addPoints pts).preceding ↔
      x = start ∧ start ∈ points m := by
  rw [hs.preceding]
  constructor
  · rintro (⟨rfl, -, hx⟩ | ⟨m₁, hm₁, hre⟩)
    · exact ⟨rfl, hx⟩
    · -- the other points offered come before the start point, each once
      exfalso
      have hlt : x < start := by
        by_contra hge
        refine not_reattached_of_notMem ?_ hre
        rw [List.mem_reverse, List.mem_range]
        exact hge
      have hnot : x ∉ points m₁ := by
        intro hx
        rcases inserts_mem_points (mapAdd_inserts hm₁) hx with rfl | hx
        · exact lt_irrefl _ hlt
        · exact absurd (hs.le x hx) hlt.not_ge
      have hnd : (List.range start).reverse.Nodup := List.nodup_reverse.mpr List.nodup_range
      exact not_reattached_of_fresh hnot (List.nodup_iff_count_le_one.mp hnd x) hre
  · rintro ⟨rfl, hx⟩
    obtain ⟨e, he, hk⟩ := hs.key
    refine Or.inl ⟨rfl, ⟨e, ?_, ?_⟩, hx⟩
    · show m.nearest? absDiff (position (addPoints pts).storage x).x = some e
      rw [← hk]
      exact m.nearest?_of_mem absDiff_grows e.1 e.2 he
    · rw [hk, absDiff_self]
      exact maxDiff_pos

end Horizontal

/-! ## Lines without a common point -/

/-- A point is on at most one line iff all its occurrences are under one index. -/
theorem lineHolders_le_one_iff {lines : List Line} {x : Ptr} :
    lineHolders lines x ≤ 1 ↔ ∀ (i j : ℕ) (l l' : Line), lines[i]? = some l → lines[j]? = some l' →
      x ∈ l.line → x ∈ l'.line → i = j := by
  induction lines with
  | nil => simp [lineHolders]
  | cons a ls ih =>
    have hcount : lineHolders (a :: ls) x = lineHolders ls x + if x ∈ a.line then 1 else 0 := by
      simp [lineHolders, List.countP_cons]
    have hheld : ∀ {j : ℕ} {l : Line}, ls[j]? = some l → x ∈ l.line → 0 < lineHolders ls x := fun hl hx =>
      lineHolders_pos.mpr (mem_linePoints.mpr ⟨_, List.mem_of_getElem? hl, hx⟩)
    rw [hcount]
    constructor
    · intro hone i j l l' hl hl' hx hx'
      cases i with
      | zero =>
        obtain rfl : a = l := Option.some.inj hl
        rw [if_pos hx] at hone
        cases j with
        | zero => rfl
        | succ j =>
          have := hheld hl' hx'
          omega
      | succ i =>
        cases j with
        | zero =>
          obtain rfl : a = l' := Option.some.inj hl'
          rw [if_pos hx'] at hone
          have := hheld hl hx
          omega
        | succ j => rw [ih.mp (by omega) i j l l' hl hl' hx hx']
    · intro hidx
      by_cases hx : x ∈ a.line
      · -- no later line holds `x`, or its index would be that of `a`
        have hno : ¬ 0 < lineHolders ls x := by
          intro hpos
          obtain ⟨l, hl, hxl⟩ := mem_linePoints.mp (lineHolders_pos.mp hpos)
          obtain ⟨j, hj⟩ := List.getElem?_of_mem hl
          exact absurd (hidx 0 (j + 1) a l rfl hj hx hxl) (by omega)
        rw [if_pos hx]
        omega
      · rw [if_neg hx]
        apply ih.mpr
        intro i j l l' hl hl' hxl hxl'
        have := hidx (i + 1) (j + 1) l l' hl hl' hxl hxl'
        omega

theorem pairwise_disjoint_of_lineHolders {lines : List Line} (h : ∀ x, lineHolders lines x ≤ 1) :
    (lines.map (·.line)).Pairwise List.Disjoint := by
  induction lines with
  | nil => exact List.Pairwise.nil
  | cons a ls ih =>
    have hcount : ∀ x, lineHolders (a :: ls) x = lineHolders ls x + if x ∈ a.line then 1 else 0 := fun x => by
      simp [lineHolders, List.countP_cons]
    rw [List.map_cons, List.pairwise_cons]
    constructor
    · intro row hrow x hxa hxrow
      obtain ⟨l, hl, rfl⟩ := List.mem_map.mp hrow
      have hpos : 0 < lineHolders ls x := lineHolders_pos.mpr (mem_linePoints.mpr ⟨l, hl, hxrow⟩)
      have := h x
      rw [hcount, if_pos hxa] at this
      omega
    · apply ih
      intro x
      have := h x
      rw [hcount] at this
      omega

/-- A point on one line is never offered to the map of the other parity. -/
theorem offered_parity {lines : List Line} {x : Ptr} (h : lineHolders lines x ≤ 1) {range range' : List ℤ}
    {c c' : ℤ} (hx : x ∈ offered lines range c) (hx' : x ∈ offered lines range' c') : c = c' := by
  obtain ⟨i, -, hi, l, hl, hxl⟩ := mem_offered.mp hx
  obtain ⟨j, -, hj, l', hl', hxl'⟩ := mem_offered.mp hx'
  have hi0 := lineAt_some_iff.mp ⟨l, hl⟩
  have hj0 := lineAt_some_iff.mp ⟨l', hl'⟩
  obtain ⟨m, rfl⟩ := Int.eq_ofNat_of_zero_le hi0.1
  obtain ⟨n, rfl⟩ := Int.eq_ofNat_of_zero_le hj0.1
  rw [lineAt_natCast] at hl hl'
  have := lineHolders_le_one_iff.mp h m n l l' hl hl' hxl hxl'
  omega

/-- A point offered by rows of parity `c` stands on rows of parity `c` only. -/
theorem parity_of_offered {lines : List Line} {range : List ℤ} {c : ℤ} {p : Ptr} (hone : lineHolders lines p ≤ 1)
    (hp : p ∈ offered lines range c) {i : ℕ} {l : Line} (hl : lines[i]? = some l) (hpl : p ∈ l.line) :
    (i : ℤ) % 2 = c := by
  have hi : p ∈ offered lines [(i : ℤ)] (i % 2) :=
    mem_offered.mpr ⟨i, by simp, rfl, l, by rw [lineAt_natCast, hl], hpl⟩
  exact offered_parity hone hi hp

/-! ## The vertical maps -/

section Vertical

variable {R : Rounding} {coord : Ptr → ℚ} {lines : List Line} {m m' : TmpLineMap} {c : ℤ} {x : Ptr}

/-- Before the reverse pass a point stands on the vertical lines at most as often as on the horizontal ones. -/
theorem verticalKeyed_count_le (hlen : lines.length / 3 + 6 ≤ lines.length)
    (h : Keyed coord (offered lines (constructRange lines) c) (offered lines (followingRange lines) c) m) (x : Ptr) :
    (points m).count x ≤ (linePoints lines).count x := by
  have hsub := (rowsOf_sublist hlen c).flatten.count_le x
  rw [List.flatten_append, ← linePoints_eq_flatten] at hsub
  exact (keyed_count_le h x).trans hsub

/-- **Before the reverse pass no point is on two vertical lines**, since each row is sorted. -/
theorem verticalBuilt_holders (hlen : lines.length / 3 + 6 ≤ lines.length)
    (hone : ∀ x, lineHolders lines x ≤ 1)
    (hsort : ∀ row ∈ lines.map (·.line), row.Pairwise fun a b => coord a ≤ coord b)
    (h : Built coord (offered lines (constructRange lines) c) (offered lines (followingRange lines) c) m) (x : Ptr) :
    holders m x ≤ 1 := by
  obtain ⟨m₁, h₁, h₂⟩ := h
  have hsub := rowsOf_sublist hlen c
  obtain ⟨hd₁, hd₂, hd⟩ := List.pairwise_append.mp ((pairwise_disjoint_of_lineHolders hone).sublist hsub)
  have hs₁ : ∀ row ∈ rowsOf lines (constructRange lines) c, row.Pairwise fun a b => coord a ≤ coord b :=
    fun row hr => hsort row (hsub.subset (List.mem_append_left _ hr))
  have hs₂ : ∀ row ∈ rowsOf lines (followingRange lines) c, row.Pairwise fun a b => coord a ≤ coord b :=
    fun row hr => hsort row (hsub.subset (List.mem_append_right _ hr))
  have hx₁ : ∀ x, holders m₁ x ≤ 1 :=
    rows_holders mapAddConstruct_inserts hs₁ hd₁ (by simp [points]) (by simp [holders]) h₁
  have hfresh : ∀ row ∈ rowsOf lines (followingRange lines) c, ∀ x ∈ row, x ∉ points m₁ := by
    intro row hr x hxr hxm
    rcases pass_mem_points mapAddConstruct_inserts h₁ hxm with hx | hx
    · simp [points] at hx
    · obtain ⟨row', hr', hx'⟩ := List.mem_flatten.mp hx
      exact hd row' hr' row hr hx' hxr
  exact rows_holders mapAdd_inserts hs₂ hd₂ hfresh hx₁ h₂ x

theorem verticalKeyed_holders (hlen : lines.length / 3 + 6 ≤ lines.length)
    (hone : ∀ x, lineHolders lines x ≤ 1)
    (hsort : ∀ row ∈ lines.map (·.line), row.Pairwise fun a b => coord a ≤ coord b)
    (h : Keyed coord (offered lines (constructRange lines) c) (offered lines (followingRange lines) c) m) (x : Ptr) :
    holders m x ≤ 1 := by
  obtain ⟨m₂, hbuilt, hkey⟩ := keyed_iff.mp h
  exact (rekey_holders_le hkey x).trans (verticalBuilt_holders hlen hone hsort hbuilt x)

/-- Every point of a vertical map was offered by a row of the map's parity. -/
theorem verticalKeyed_mem
    (h : Keyed coord (offered lines (constructRange lines) c) (offered lines (followingRange lines) c) m)
    (hadd : addAll coord m (offered lines (precedingRange lines) c) = some m') (hx : x ∈ points m') :
    ∃ range, x ∈ offered lines range c := by
  rcases pass_mem_points mapAdd_inserts hadd hx with hx | hx
  · rcases keyed_mem h hx with hx | hx
    · exact ⟨_, hx⟩
    · exact ⟨_, hx⟩
  · exact ⟨_, hx⟩

end Vertical

/-! ## The maps behind a finalised grid -/

/-- The lines before the clean-up, and the maps they come from: `m` and `s` before the reverse
loops, `m'` and `s'` after. -/
structure Swept [Rounding] (S : StdSort) (pts : List Point2f) (g : PointGrid) (hor vert : List Line) (m m' : TmpLineMap)
    (s s' : VerticalMaps) : Prop where
  finalized : Finalized S (addPoints pts) g hor vert
  keyed : (addPoints pts).horizontalKeyed = some m
  reverse : addAll (fun p => (position (addPoints pts).storage p).x) m (addPoints pts).preceding = some m'
  horPoints : (linePoints hor).Perm (points m')
  horHolders : ∀ x, lineHolders hor x = holders m' x
  horSorted : ∀ row ∈ hor.map (·.line),
    row.Pairwise fun a b => (position (addPoints pts).storage a).y ≤ (position (addPoints pts).storage b).y
  vertKeyed : verticalKeyed (fun p => (position (addPoints pts).storage p).y) hor = some s
  vertMaps : verticalMaps (fun p => (position (addPoints pts).storage p).y) hor = some s'
  vertPoints : (linePoints vert).Perm (points s'.odd ++ points s'.even)
  vertHolders : ∀ x, lineHolders vert x = holders s'.odd x + holders s'.even x

theorem finalize_swept {R : Rounding} {S : StdSort} {pts : List Point2f} {g : PointGrid}
    (h : (addPoints pts).finalize S = some g) :
    ∃ hor vert m m' s s', Swept S pts g hor vert m m' s s' := by
  obtain ⟨hor, vert, hf⟩ := finalize_some h
  obtain ⟨m', hm', -, hrows⟩ := horizontalLines_some (added_addPoints pts).linesHorizontal hf.horizontal
  obtain ⟨m, hm, hadd⟩ := horizontalMap_some.mp hm'
  obtain ⟨s', hs', hvert⟩ := verticalLines_some (added_addPoints pts).linesVertical hf.vertical
  obtain ⟨s, hs, -⟩ := verticalMaps_some.mp hs'
  exact ⟨hor, vert, m, m', s, s', hf, hm, hadd, sorted_linePoints_perm hrows, sorted_lineHolders hrows,
    sorted_rows hrows, hs, hs', vertical_linePoints_perm hvert, vertical_lineHolders hvert⟩

namespace Swept

variable {R : Rounding} {S : StdSort} {pts : List Point2f} {g : PointGrid} {hor vert : List Line} {m m' : TmpLineMap}
  {s s' : VerticalMaps} (h : Swept S pts g hor vert m m' s s')

include h

theorem hor_holders_le_one (x : Ptr) : lineHolders hor x ≤ 1 := by
  rw [h.horHolders]
  exact horizontal_holders_le_one (horizontalMap_some.mpr ⟨m, h.keyed, h.reverse⟩) x

theorem length_le : hor.length / 3 + 6 ≤ hor.length := (verticalKeyed_some.mp h.vertKeyed).1

theorem oddKeyed : Keyed (fun p => (position (addPoints pts).storage p).y) (offered hor (constructRange hor) 0)
    (offered hor (followingRange hor) 0) s.odd := (verticalKeyed_some.mp h.vertKeyed).2.1

theorem evenKeyed : Keyed (fun p => (position (addPoints pts).storage p).y) (offered hor (constructRange hor) 1)
    (offered hor (followingRange hor) 1) s.even := (verticalKeyed_some.mp h.vertKeyed).2.2

theorem reverses :
    addAll (fun p => (position (addPoints pts).storage p).y) s.odd (offered hor (precedingRange hor) 0) = some s'.odd ∧
    addAll (fun p => (position (addPoints pts).storage p).y) s.even (offered hor (precedingRange hor) 1) = some s'.even := by
  obtain ⟨s₁, hs₁, hr⟩ := verticalMaps_some.mp h.vertMaps
  obtain rfl : s₁ = s := Option.some.inj (hs₁.symm.trans h.vertKeyed)
  exact hr

theorem odd_offered {x : Ptr} (hx : x ∈ points s'.odd) : ∃ range, x ∈ offered hor range 0 :=
  verticalKeyed_mem h.oddKeyed h.reverses.1 hx

theorem even_offered {x : Ptr} (hx : x ∈ points s'.even) : ∃ range, x ∈ offered hor range 1 :=
  verticalKeyed_mem h.evenKeyed h.reverses.2 hx

/-- No point is in both vertical maps. -/
theorem notMem_even {x : Ptr} (hx : x ∈ points s'.odd) : x ∉ points s'.even := by
  intro hx'
  obtain ⟨r, hr⟩ := h.odd_offered hx
  obtain ⟨r', hr'⟩ := h.even_offered hx'
  exact absurd (offered_parity (h.hor_holders_le_one x) hr hr') (by omega)

theorem mem_vert_iff {x : Ptr} : x ∈ linePoints vert ↔ x ∈ points s'.odd ∨ x ∈ points s'.even := by
  rw [h.vertPoints.mem_iff, List.mem_append]

/-- The points that stay are those on the vertical lines. -/
theorem stored_iff {x : Ptr} : x ∈ g.storage ↔ x ∈ linePoints vert := by
  rw [h.finalized.stored]
  constructor
  · exact fun hx => hx.2.2
  · intro hx
    have hhor : x ∈ linePoints hor := by
      rcases h.mem_vert_iff.mp hx with hx | hx
      · exact offered_mem_linePoints (h.odd_offered hx).choose_spec
      · exact offered_mem_linePoints (h.even_offered hx).choose_spec
    refine ⟨?_, hhor, hx⟩
    have hm : (addPoints pts).horizontalMap = some m' := horizontalMap_some.mpr ⟨m, h.keyed, h.reverse⟩
    apply mem_storage_addPoints
    exact horizontalMap_mem_accumulator hm (h.horPoints.mem_iff.mp hhor)

theorem count_horizontal {x : Ptr} (hx : x ∈ linePoints vert) :
    (linePoints g.linesHorizontal).count x = (points m').count x := by
  have hclean : ∀ ls : List Line, linePoints (ls.map (cleaned (linePoints vert))) =
      (linePoints ls).filter (· ∈ linePoints vert) := by
    intro ls
    unfold linePoints
    rw [List.flatMap_map, List.filter_flatMap]
    rfl
  rw [h.finalized.linesHorizontal, hclean, List.count_filter (by simpa using hx)]
  exact h.horPoints.count_eq x

theorem count_vertical (x : Ptr) :
    (linePoints g.linesVertical).count x = (points s'.odd).count x + (points s'.even).count x := by
  rw [h.finalized.linesVertical, h.vertPoints.count_eq, List.count_append]

end Swept

/-! ## Once per direction -/

/-- Every stored point occurs once on the horizontal lines and once on the vertical ones. -/
def OncePerDirection (g : PointGrid) : Prop :=
  ∀ p ∈ g.storage, (linePoints g.linesHorizontal).count p = 1 ∧ (linePoints g.linesVertical).count p = 1

/-- The reverse loops take nothing that their map still holds: neither the point at a third of
the accumulator (unless no vertical line takes it) nor a point of the row at a third of the lines. -/
structure ReverseTakesNew [Rounding] (S : StdSort) (g : PointGrid) : Prop where
  start : ∀ start m hor s', g.accumulator[g.accumulator.length / 3]? = some start → g.horizontalKeyed = some m →
    g.horizontalLines S = some hor → verticalMaps (fun p => (position g.storage p).y) hor = some s' →
    start ∈ points m → start ∉ points s'.odd ∧ start ∉ points s'.even
  startRow : ∀ hor s, g.horizontalLines S = some hor → verticalKeyed (fun p => (position g.storage p).y) hor = some s →
    ∀ x, ¬ Reattached (fun p => (position g.storage p).y) x s.odd (offered hor (precedingRange hor) 0) ∧
      ¬ Reattached (fun p => (position g.storage p).y) x s.even (offered hor (precedingRange hor) 1)

/-- **Each point once per direction**, for the runs of `finalize` whose reverse loops take nothing
that is still held, and for no others. -/
theorem finalize_oncePerDirection_iff {R : Rounding} (S : StdSort) (pts : List Point2f) (g : PointGrid)
    (h : (addPoints pts).finalize S = some g) :
    OncePerDirection g ↔ ReverseTakesNew S (addPoints pts) := by
  obtain ⟨hor, vert, m, m', s, s', hs⟩ := finalize_swept h
  obtain ⟨start, hstart⟩ := horizontalKeyed_startSplit hs.keyed
  obtain ⟨hodd, heven⟩ := hs.reverses
  -- horizontally only the start point can stand twice
  have hhor : ∀ x, (points m').count x ≤ 1 ↔ ¬ (x = start ∧ start ∈ points m) := by
    intro x
    rw [addAll_count_le_one hs.reverse (horizontalKeyed_count_le_one hs.keyed x), horizontal_reattached_iff hstart]
  have hkeyed : ∀ x, (linePoints hor).count x ≤ 1 → (points s.odd).count x ≤ 1 ∧ (points s.even).count x ≤ 1 :=
    fun x hx => ⟨(verticalKeyed_count_le hs.length_le hs.oddKeyed x).trans hx,
      (verticalKeyed_count_le hs.length_le hs.evenKeyed x).trans hx⟩
  have hmem : ∀ x, x ∈ g.storage ↔ x ∈ points s'.odd ∨ x ∈ points s'.even :=
    fun x => hs.stored_iff.trans hs.mem_vert_iff
  constructor
  · intro honce
    have hle : ∀ x, x ∈ g.storage → (points m').count x = 1 ∧ (points s'.odd).count x + (points s'.even).count x = 1 := by
      intro x hx
      obtain ⟨h₁, h₂⟩ := honce x hx
      rw [hs.count_horizontal (hs.stored_iff.mp hx)] at h₁
      rw [hs.count_vertical] at h₂
      exact ⟨h₁, h₂⟩
    refine ⟨?_, ?_⟩
    · intro start' m₀ hor₀ s₀ hacc hm₀ hhor₀ hs₀ hheld
      obtain rfl := Option.some.inj (hacc.symm.trans hstart.accumulator)
      obtain rfl := Option.some.inj (hm₀.symm.trans hs.keyed)
      obtain rfl := Option.some.inj (hhor₀.symm.trans hs.finalized.horizontal)
      obtain rfl := Option.some.inj (hs₀.symm.trans hs.vertMaps)
      rw [← not_or, ← hmem]
      intro hin
      exact (hhor start').mp (hle start' hin).1.le ⟨rfl, hheld⟩
    · intro hor₀ s₀ hhor₀ hs₀ x
      obtain rfl := Option.some.inj (hhor₀.symm.trans hs.finalized.horizontal)
      obtain rfl := Option.some.inj (hs₀.symm.trans hs.vertKeyed)
      -- a point taken again is on a vertical line, so it is stored and counted once
      have hcount : ∀ x, x ∈ g.storage → (linePoints hor₀).count x ≤ 1 ∧ (points s'.odd).count x ≤ 1 ∧
          (points s'.even).count x ≤ 1 := by
        intro x hx
        obtain ⟨h₁, h₂⟩ := hle x hx
        rw [hs.horPoints.count_eq]
        omega
      constructor
      · intro hre
        obtain ⟨h₁, h₂, -⟩ := hcount x ((hmem x).mpr (Or.inl (mem_of_reattached hre hodd)))
        exact (addAll_count_le_one hodd (hkeyed x h₁).1).mp h₂ hre
      · intro hre
        obtain ⟨h₁, -, h₂⟩ := hcount x ((hmem x).mpr (Or.inr (mem_of_reattached hre heven)))
        exact (addAll_count_le_one heven (hkeyed x h₁).2).mp h₂ hre
  · rintro ⟨hstartNew, hrowNew⟩ x hx
    have hin := (hmem x).mp hx
    have hvert := hs.stored_iff.mp hx
    have hxhor : x ∈ points m' := hs.horPoints.mem_iff.mp ((hs.finalized.stored x).mp hx).2.1
    have hone : (points m').count x ≤ 1 := by
      rw [hhor]
      rintro ⟨rfl, hheld⟩
      obtain ⟨h₁, h₂⟩ := hstartNew x m hor s' hstart.accumulator hs.keyed hs.finalized.horizontal hs.vertMaps hheld
      exact hin.elim h₁ h₂
    have hpos := List.count_pos_iff.mpr hxhor
    obtain ⟨hko, hke⟩ := hkeyed x (by rw [hs.horPoints.count_eq]; exact hone)
    obtain ⟨hno, hne⟩ := hrowNew hor s hs.finalized.horizontal hs.vertKeyed x
    have ho := (addAll_count_le_one hodd hko).mpr hno
    have he := (addAll_count_le_one heven hke).mpr hne
    rw [hs.count_horizontal hvert, hs.count_vertical]
    refine ⟨by omega, ?_⟩
    -- the two maps share no point
    rcases hin with hxo | hxe
    · have h₀ := List.count_eq_zero.mpr (hs.notMem_even hxo)
      have h₁ := List.count_pos_iff.mpr hxo
      omega
    · have h₀ : (points s'.odd).count x = 0 := List.count_eq_zero.mpr fun hxo => hs.notMem_even hxo hxe
      have h₁ := List.count_pos_iff.mpr hxe
      omega

section Floats

attribute [local instance] Rounding.ieee

/-- Eight rows of a square grid; four points before the start point `(0, 0)`, one after the construct loop. -/
def squareGrid : List Point2f :=
  [⟨0, -50⟩, ⟨0, -45⟩, ⟨0, -40⟩, ⟨0, -35⟩, ⟨0, 0⟩, ⟨10, 0⟩, ⟨20, 0⟩, ⟨30, 0⟩, ⟨40, 0⟩, ⟨50, 0⟩, ⟨60, 0⟩, ⟨70, 0⟩, ⟨0, 20⟩]

theorem finalize_squareGrid : ∃ g, (addPoints squareGrid).finalize .insertion = some g := by
  have hsome : ((addPoints squareGrid).finalize .insertion).isSome = true := by decide +kernel
  exact Option.isSome_iff_exists.mp hsome

theorem finalize_oncePerDirection_iff_squareGrid :
    ∃ g, (addPoints squareGrid).finalize .insertion = some g ∧
      (OncePerDirection g ↔ ReverseTakesNew .insertion (addPoints squareGrid)) := by
  obtain ⟨g, hg⟩ := finalize_squareGrid
  exact ⟨g, hg, finalize_oncePerDirection_iff .insertion squareGrid g hg⟩

/-- The start point stands twice on its horizontal line. -/
theorem squareGrid_not_oncePerDirection :
    ∃ g, (addPoints squareGrid).finalize .insertion = some g ∧ ¬ OncePerDirection g := by
  have hrun : ((addPoints squareGrid).finalize .insertion).any (fun g =>
      (g.storage.lookup 4).isSome && (linePoints g.linesHorizontal).count 4 == 2) = true := by decide +kernel
  obtain ⟨g, hg, h⟩ := (Option.any_eq_true _ _).mp hrun
  simp only [Bool.and_eq_true, beq_iff_eq, AList.lookup_isSome] at h
  refine ⟨g, hg, fun honce => ?_⟩
  have := (honce 4 h.1).1
  omega

end Floats

/-! ## Links back to the lines -/

/-- Every point of a line has the line's index as its link. -/
structure BackLinks (g : PointGrid) : Prop where
  horizontal : ∀ (i : ℕ) (l : Line), g.linesHorizontal[i]? = some l → ∀ p ∈ l.line, g.horizontalLineIndex p = some i
  vertical : ∀ (j : ℕ) (l : Line), g.linesVertical[j]? = some l → ∀ p ∈ l.line, g.verticalLineIndex p = some j

/-- The vertical reverse loops put no point on another line than the one that holds it. -/
def ReverseKeepsLine [Rounding] (S : StdSort) (g : PointGrid) : Prop :=
  ∀ hor s, g.horizontalLines S = some hor → verticalKeyed (fun p => (position g.storage p).y) hor = some s →
    ∀ x, ¬ Torn (fun p => (position g.storage p).y) x s.odd (offered hor (precedingRange hor) 0) ∧
      ¬ Torn (fun p => (position g.storage p).y) x s.even (offered hor (precedingRange hor) 1)

/-- **Links are right** for the runs of `finalize` whose vertical reverse loops tear no point from
its line, and for no others. -/
theorem finalize_backLinks_iff {R : Rounding} (S : StdSort) (pts : List Point2f) (g : PointGrid)
    (h : (addPoints pts).finalize S = some g) :
    BackLinks g ↔ ReverseKeepsLine S (addPoints pts) := by
  obtain ⟨hor, vert, m, m', s, s', hs⟩ := finalize_swept h
  obtain ⟨hodd, heven⟩ := hs.reverses
  have hko := verticalKeyed_holders hs.length_le hs.hor_holders_le_one hs.horSorted hs.oddKeyed
  have hke := verticalKeyed_holders hs.length_le hs.hor_holders_le_one hs.horSorted hs.evenKeyed
  constructor
  · intro hback hor₀ s₀ hhor₀ hs₀ x
    obtain rfl := Option.some.inj (hhor₀.symm.trans hs.finalized.horizontal)
    obtain rfl := Option.some.inj (hs₀.symm.trans hs.vertKeyed)
    -- a point on two lines would have both their indices as its link
    have hone : lineHolders g.linesVertical x ≤ 1 := by
      rw [lineHolders_le_one_iff]
      intro i j l l' hl hl' hx hx'
      exact Option.some.inj ((hback.vertical i l hl x hx).symm.trans (hback.vertical j l' hl' x hx'))
    rw [hs.finalized.linesVertical, hs.vertHolders] at hone
    exact ⟨(addAll_holders_le_one hodd (hko x)).mp (by omega), (addAll_holders_le_one heven (hke x)).mp (by omega)⟩
  · intro hkeep
    constructor
    · intro i l hl p hp
      refine hs.finalized.horizontalLink p i l ?_ hl hp
      -- the clean-up puts a point on no further line
      have hclean : lineHolders g.linesHorizontal p ≤ lineHolders hor p := by
        rw [hs.finalized.linesHorizontal]
        unfold lineHolders
        rw [List.countP_map]
        apply List.countP_mono_left
        intro l _
        simp only [Function.comp_apply, cleaned, List.mem_filter, decide_eq_true_eq]
        exact fun h => h.1
      exact hclean.trans (hs.hor_holders_le_one p)
    · intro j l hl p hp
      refine hs.finalized.verticalLink p j l ?_ hl hp
      obtain ⟨hno, hne⟩ := hkeep hor s hs.finalized.horizontal hs.vertKeyed p
      have ho := (addAll_holders_le_one hodd (hko p)).mpr hno
      have he := (addAll_holders_le_one heven (hke p)).mpr hne
      rw [hs.finalized.linesVertical, hs.vertHolders]
      by_cases hpo : p ∈ points s'.odd
      · have : holders s'.even p = 0 := by
          have := mt holders_pos.mp (hs.notMem_even hpo)
          omega
        omega
      · have : holders s'.odd p = 0 := by
          have := mt holders_pos.mp hpo
          omega
        omega

section Floats

attribute [local instance] Rounding.ieee

/-- A column that leaves its line: the points at `y = 0, 3, 6, 9` of the row `x = 20` share a line,
while those at `y = 4` open another one. -/
def driftingGrid : List Point2f :=
  [⟨0, -50⟩, ⟨0, -45⟩, ⟨0, -40⟩, ⟨0, -35⟩, ⟨0, -30⟩, ⟨0, 0⟩, ⟨10, 0⟩, ⟨20, 0⟩, ⟨30, 0⟩, ⟨50, 0⟩, ⟨70, 0⟩, ⟨20, 3⟩, ⟨40, 4⟩, ⟨60, 4⟩, ⟨20, 6⟩,
   ⟨20, 9⟩, ⟨0, 20⟩]

theorem finalize_backLinks_iff_driftingGrid :
    ∃ g, (addPoints driftingGrid).finalize .insertion = some g ∧
      (BackLinks g ↔ ReverseKeepsLine .insertion (addPoints driftingGrid)) := by
  have hsome : ((addPoints driftingGrid).finalize .insertion).isSome = true := by decide +kernel
  obtain ⟨g, hg⟩ := Option.isSome_iff_exists.mp hsome
  exact ⟨g, hg, finalize_backLinks_iff .insertion driftingGrid g hg⟩

/-- The point at `(20, 3)` is on the vertical lines 1 and 2; its link is 2. -/
theorem driftingGrid_not_backLinks :
    ∃ g, (addPoints driftingGrid).finalize .insertion = some g ∧ ¬ BackLinks g := by
  have hrun : ((addPoints driftingGrid).finalize .insertion).any (fun g =>
      (g.linesVertical[1]?).any (fun l => l.line.contains 11) && g.verticalLineIndex 11 == some 2) = true := by
    decide +kernel
  obtain ⟨g, hg, h⟩ := (Option.any_eq_true _ _).mp hrun
  rw [Bool.and_eq_true, beq_iff_eq, Option.any_eq_true] at h
  obtain ⟨⟨l, hl, hmem⟩, hlink⟩ := h
  refine ⟨g, hg, fun hback => ?_⟩
  have := hback.vertical 1 l hl 11 (by simpa using hmem)
  rw [hlink] at this
  exact absurd this (by decide)

end Floats

end Lyli.Calibration.PointGrid
