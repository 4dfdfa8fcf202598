import Mathlib
import Lyli.Calibration.PointGridDefined

/-!
# Rows in the order of their topmost points

`linesHorizontal` takes the lines in the order of the map's keys.  The passes up
to the change of keys offer points downwards, so a line begins with its topmost
point (`InOrder`), whose coordinate becomes the key.  The reverse pass offers
points upwards, so the point added last is the topmost one and the key follows
it (`TopKeyed`):

    InOrder height m (p :: ps)           →  InOrder height m' ps             (inserts_inOrder)
    TopKeyed m, p above all points of m  →  TopKeyed m'                      (inserts_topKeyed)
    horizontalLines = some lines         →  RowsByPosition … lines           (finalize_rowsByPosition)
-/

namespace Lyli.Calibration.PointGrid

section Passes

variable {R : Rounding} {coord height : Ptr → ℚ} {m m' : TmpLineMap}

/-- Every line goes downwards, and the points still to come are below those of the map. -/
structure InOrder (height : Ptr → ℚ) (m : TmpLineMap) (rem : List Ptr) : Prop where
  lines : ∀ e ∈ m.entries, e.2.line.Pairwise fun p q => height p ≤ height q
  below : ∀ p ∈ points m, ∀ q ∈ rem, height p ≤ height q

/-- Every key is the coordinate of a topmost point of its line. -/
def TopKeyed (coord height : Ptr → ℚ) (m : TmpLineMap) : Prop :=
  ∀ e ∈ m.entries, ∃ p ∈ e.2.line, e.1 = coord p ∧ ∀ q ∈ e.2.line, height p ≤ height q

theorem inOrder_empty (rem : List Ptr) : InOrder height .empty rem := ⟨by simp, by simp [points]⟩

/-- **One insertion on the way down.** -/
theorem inserts_inOrder {q : ℚ} {p : Ptr} {ps : List Ptr} (hm : InOrder height m (p :: ps))
    (hps : ∀ r ∈ ps, height p ≤ height r) (h : Inserts m q p m') : InOrder height m' ps := by
  constructor
  · intro a ha
    -- a line that is not the changed one
    have hold : a ∈ m.entries → a.2.line.Pairwise fun p q => height p ≤ height q := hm.lines a
    rcases h with ⟨e, he⟩ | ⟨hc, -⟩ | rfl
    · rcases (he.mem_iff a).mp ha with rfl | ⟨ha, -⟩
      · show (e.2.line ++ [p]).Pairwise _
        rw [List.pairwise_append]
        refine ⟨hm.lines e he.mem, List.pairwise_singleton _ _, ?_⟩
        intro x hx y hy
        rw [List.mem_singleton.mp hy]
        exact hm.below x (mem_points.mpr ⟨e, he.mem, hx⟩) p List.mem_cons_self
      · exact hold ha
    · rcases (hc.mem_iff a).mp ha with rfl | ha
      · exact List.pairwise_singleton _ _
      · exact hold ha
    · exact hold ha
  · intro x hx r hr
    rcases inserts_mem_points h hx with rfl | hx
    · exact hps r hr
    · exact hm.below x hx r (List.mem_cons_of_mem _ hr)

/-- **One insertion on the way up.** -/
theorem inserts_topKeyed {p : Ptr} (hm : TopKeyed coord height m) (habove : ∀ q ∈ points m, height p ≤ height q)
    (h : Inserts m (coord p) p m') : TopKeyed coord height m' := by
  intro a ha
  rcases h with ⟨e, he⟩ | ⟨hc, -⟩ | rfl
  · rcases (he.mem_iff a).mp ha with rfl | ⟨ha, -⟩
    · refine ⟨p, by simp, rfl, fun q hq => ?_⟩
      rcases List.mem_append.mp hq with hq | hq
      · exact habove q (mem_points.mpr ⟨e, he.mem, hq⟩)
      · rw [List.mem_singleton.mp hq]
    · exact hm a ha
  · rcases (hc.mem_iff a).mp ha with rfl | ha
    · refine ⟨p, by simp, rfl, fun q hq => ?_⟩
      obtain rfl : q = p := by simpa using hq
      exact le_rfl
    · exact hm a ha
  · exact hm a ha

/-- **A pass downwards.** -/
theorem pass_inOrder {ins : TmpLineMap → ℚ → Ptr → Option TmpLineMap}
    (hins : ∀ {m q p m'}, ins m q p = some m' → Inserts m q p m') {ps rest : List Ptr}
    (hps : (ps ++ rest).Pairwise fun p q => height p ≤ height q) (hm : InOrder height m (ps ++ rest))
    (h : ps.foldlM (fun m p => ins m (coord p) p) m = some m') : InOrder height m' rest := by
  induction ps generalizing m with
  | nil =>
    obtain rfl : m = m' := Option.some.inj h
    exact hm
  | cons p ps ih =>
    obtain ⟨m₁, h₁, h⟩ := foldlM_cons_some.mp h
    rw [List.cons_append, List.pairwise_cons] at hps
    exact ih hps.2 (inserts_inOrder hm hps.1 (hins h₁)) h

theorem built_inOrder {construct following : List Ptr}
    (hps : (construct ++ following).Pairwise fun p q => height p ≤ height q) (h : Built coord construct following m) :
    InOrder height m [] := by
  obtain ⟨m₁, h₁, h₂⟩ := h
  have hdown : InOrder height m₁ following := pass_inOrder mapAddConstruct_inserts hps (inOrder_empty _) h₁
  rw [← List.append_nil following] at hdown
  have hrest : (following ++ []).Pairwise fun p q => height p ≤ height q := by
    rw [List.append_nil]
    exact (List.pairwise_append.mp hps).2.1
  exact pass_inOrder mapAdd_inserts hrest hdown h₂

/-- After the change of keys a line is found under the coordinate of its topmost point. -/
theorem rekey_topKeyed (hm : InOrder height m []) (h : rekey coord m = some m') : TopKeyed coord height m' := by
  intro e' he'
  obtain ⟨front, hfront, hkey⟩ := (rekey_spec h).key e' he'
  obtain ⟨e, he, hline⟩ := List.mem_map.mp (rekey_mem_values h (List.mem_map.mpr ⟨e', he', rfl⟩))
  have hdown := hm.lines e he
  rw [hline] at hdown
  obtain ⟨tail, htail⟩ := List.head?_eq_some_iff.mp hfront
  rw [htail, List.pairwise_cons] at hdown
  refine ⟨front, List.mem_of_mem_head? hfront, hkey, fun q hq => ?_⟩
  rw [htail] at hq
  rcases List.mem_cons.mp hq with rfl | hq
  · exact le_rfl
  · exact hdown.1 q hq

/-- **The pass upwards.** -/
theorem addAll_topKeyed {ps : List Ptr} (hps : ps.Pairwise fun p q => height q ≤ height p)
    (habove : ∀ p ∈ ps, ∀ q ∈ points m, height p ≤ height q) (hm : TopKeyed coord height m)
    (h : addAll coord m ps = some m') : TopKeyed coord height m' := by
  induction ps generalizing m with
  | nil =>
    obtain rfl : m = m' := Option.some.inj h
    exact hm
  | cons p ps ih =>
    obtain ⟨m₁, h₁, h⟩ := addAll_cons.mp h
    obtain ⟨hp, hps⟩ := List.pairwise_cons.mp hps
    have hins := mapAdd_inserts h₁
    apply ih hps _ (inserts_topKeyed hm (habove p List.mem_cons_self) hins) h
    intro r hr q hq
    rcases inserts_mem_points hins hq with rfl | hq
    · exact hp r hr
    · exact habove r (List.mem_cons_of_mem _ hr) q hq

end Passes

/-! ## The horizontal lines -/

/-- `p` is a point of the line that no point of the line is above. -/
def Topmost (pos : Ptr → Point2f) (l : Line) (p : Ptr) : Prop := p ∈ l.line ∧ ∀ q ∈ l.line, (pos p).y ≤ (pos q).y

/-- Lines in the order of the `x` of their topmost points, each going downwards. -/
structure RowsByPosition (pos : Ptr → Point2f) (lines : List Line) : Prop where
  order : lines.Pairwise fun l l' => ∀ p p', Topmost pos l p → Topmost pos l' p' → (pos p).x < (pos p').x
  rows : ∀ l ∈ lines, l.line ≠ [] ∧ l.line.Pairwise fun p q => (pos p).y ≤ (pos q).y

section Horizontal

variable {R : Rounding} {pts : List Point2f}

/-- Heights in the order of the addresses. -/
theorem height_lt (hy : pts.Pairwise fun a b => a.y < b.y) {p q : ℕ} (hpq : p < q) (hq : q < pts.length) :
    (position (addPoints pts).storage p).y < (position (addPoints pts).storage q).y := by
  rw [position_addPoints (List.getElem?_eq_getElem (hpq.trans hq)), position_addPoints (List.getElem?_eq_getElem hq)]
  exact List.pairwise_iff_getElem.mp hy p q (hpq.trans hq) hq hpq

theorem height_le (hy : pts.Pairwise fun a b => a.y < b.y) {p q : ℕ} (hpq : p ≤ q) (hq : q < pts.length) :
    (position (addPoints pts).storage p).y ≤ (position (addPoints pts).storage q).y := by
  rcases hpq.eq_or_lt with rfl | hlt
  · exact le_rfl
  · exact (height_lt hy hlt hq).le

theorem eq_of_height (hy : pts.Pairwise fun a b => a.y < b.y) {p q : ℕ} (hp : p < pts.length) (hq : q < pts.length)
    (h : (position (addPoints pts).storage p).y = (position (addPoints pts).storage q).y) : p = q := by
  rcases Nat.lt_trichotomy p q with hlt | heq | hgt
  · exact absurd h (height_lt hy hlt hq).ne
  · exact heq
  · exact absurd h (height_lt hy hgt hp).ne'

/-- **The keys after the reverse pass** are those of the topmost points. -/
theorem horizontalMap_topKeyed (hy : pts.Pairwise fun a b => a.y < b.y) {m' : TmpLineMap}
    (h : (addPoints pts).horizontalMap = some m') :
    TopKeyed (fun p => (position (addPoints pts).storage p).x) (fun p => (position (addPoints pts).storage p).y) m' := by
  obtain ⟨m, hm, hadd⟩ := horizontalMap_some.mp h
  obtain ⟨start, hs⟩ := horizontalKeyed_startSplit hm
  obtain ⟨start', done, rest, hdrop, -, -, hk⟩ := horizontalKeyed_some.mp hm
  obtain ⟨m₂, hbuilt, hrekey⟩ := keyed_iff.mp hk
  have hmem : ∀ x ∈ points m, x < pts.length := by
    intro x hx
    have hin : x ∈ (addPoints pts).accumulator := by
      apply List.mem_of_mem_drop
      rw [hdrop]
      exact List.mem_append.mpr (keyed_mem hk hx)
    rwa [accumulator_addPoints, List.mem_range] at hin
  have hdown : (start' :: done ++ rest).Pairwise fun p q =>
      (position (addPoints pts).storage p).y ≤ (position (addPoints pts).storage q).y := by
    rw [← hdrop, accumulator_addPoints]
    apply List.Pairwise.drop
    exact List.pairwise_lt_range.imp_of_mem fun _ hq hpq => (height_lt hy hpq (List.mem_range.mp hq)).le
  have htop := rekey_topKeyed (built_inOrder hdown hbuilt) hrekey
  have hstart : start < pts.length := by
    have hacc := hs.accumulator
    rw [accumulator_addPoints] at hacc
    exact List.mem_range.mp (List.mem_of_getElem? hacc)
  rw [hs.preceding] at hadd
  have hoffered : ∀ p ∈ start :: (List.range start).reverse, p ≤ start := by
    intro p hp
    rcases List.mem_cons.mp hp with rfl | hp
    · exact le_rfl
    · exact (List.mem_range.mp (List.mem_reverse.mp hp)).le
  refine addAll_topKeyed ?_ ?_ htop hadd
  · rw [List.pairwise_cons, List.pairwise_reverse]
    constructor
    · intro p hp
      exact height_le hy (hoffered p (List.mem_cons_of_mem _ hp)) hstart
    · apply List.pairwise_lt_range.imp_of_mem
      intro p q _ hq hpq
      exact height_le hy hpq.le ((List.mem_range.mp hq).trans hstart)
  · intro p hp q hq
    exact height_le hy ((hoffered p hp).trans (hs.le q hq)) (hmem q hq)

/-- **Rows are numbered by position.**  For points of increasing `y`, the lines are in the order of the
`x` of their topmost points, and every line goes downwards. -/
theorem finalize_rowsByPosition (S : StdSort) (pts : List Point2f) (g : PointGrid)
    (hy : pts.Pairwise fun a b => a.y < b.y) (h : (addPoints pts).finalize S = some g) :
    ∃ lines, (addPoints pts).horizontalLines S = some lines ∧
      RowsByPosition (position (addPoints pts).storage) lines := by
  obtain ⟨lines, vert, hf⟩ := finalize_some h
  obtain ⟨m', hm', -, hrows⟩ := horizontalLines_some (added_addPoints pts).linesHorizontal hf.horizontal
  have htop := horizontalMap_topKeyed hy hm'
  refine ⟨lines, hf.horizontal, ?_, ?_⟩
  · -- the topmost point of a line gives its key
    have hkey : ∀ e ∈ m'.entries, ∀ l : Line, (∀ q, q ∈ l.line ↔ q ∈ e.2.line) → ∀ p,
        Topmost (position (addPoints pts).storage) l p → (position (addPoints pts).storage p).x = e.1 := by
      rintro e he l hl p ⟨hp, hmin⟩
      obtain ⟨p₀, hp₀, hk, hmin₀⟩ := htop e he
      have hstored : ∀ q ∈ e.2.line, q < pts.length := by
        intro q hq
        have hin := horizontalMap_mem_accumulator hm' (mem_points.mpr ⟨e, he, hq⟩)
        rwa [accumulator_addPoints, List.mem_range] at hin
      have hpe := (hl p).mp hp
      obtain rfl : p = p₀ := eq_of_height hy (hstored p hpe) (hstored p₀ hp₀)
        (le_antisymm (hmin p₀ ((hl p₀).mpr hp₀)) (hmin₀ p hpe))
      exact hk.symm
    rw [List.pairwise_iff_getElem]
    intro i j hi hj hij p p' hp hp'
    have hlen : lines.length = m'.entries.length := by
      have := congrArg List.length hrows
      simpa [OrdMap.values] using this
    -- the `i`-th line has the points of the `i`-th entry
    have hline : ∀ k (hk : k < lines.length) (hk' : k < m'.entries.length) q,
        q ∈ lines[k].line ↔ q ∈ m'.entries[k].2.line := by
      intro k hk hk' q
      have hrow : lines[k].line =
          (sortLine S (fun p => (position (addPoints pts).storage p).y) m'.entries[k].2).line := by
        have := congrArg (fun rows => rows[k]?) hrows
        simpa [OrdMap.values, List.getElem?_eq_getElem, hk, hk'] using this
      rw [hrow, sortLine_line, S.mem_sort]
    rw [hkey _ (List.getElem_mem (hlen ▸ hi)) _ (hline i hi (hlen ▸ hi)) p hp,
      hkey _ (List.getElem_mem (hlen ▸ hj)) _ (hline j hj (hlen ▸ hj)) p' hp']
    exact List.pairwise_iff_getElem.mp m'.sorted i j (hlen ▸ hi) (hlen ▸ hj) hij
  · intro l hl
    exact ⟨horizontalLines_nonempty hf.horizontal l hl, sorted_rows hrows l.line (List.mem_map.mpr ⟨l, hl, rfl⟩)⟩

end Horizontal

/-- The square grid, every point a little below the one before. -/
def fallingGrid : List Point2f :=
  [⟨0, -50⟩, ⟨0, -45⟩, ⟨0, -40⟩, ⟨0, -35⟩, ⟨0, 0⟩, ⟨10, 1 / 8⟩, ⟨20, 2 / 8⟩, ⟨30, 3 / 8⟩, ⟨40, 4 / 8⟩, ⟨50, 5 / 8⟩,
   ⟨60, 6 / 8⟩, ⟨70, 7 / 8⟩, ⟨0, 20⟩]

section Floats

attribute [local instance] Rounding.ieee

theorem finalize_rowsByPosition_fallingGrid :
    ∃ lines, (addPoints fallingGrid).horizontalLines .insertion = some lines ∧
      RowsByPosition (position (addPoints fallingGrid).storage) lines := by
  have hsome : ((addPoints fallingGrid).finalize .insertion).isSome = true := by decide +kernel
  obtain ⟨g, hg⟩ := Option.isSome_iff_exists.mp hsome
  exact finalize_rowsByPosition .insertion fallingGrid g (by decide +kernel) hg

end Floats

end Lyli.Calibration.PointGrid
