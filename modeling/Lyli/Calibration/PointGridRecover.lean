import Mathlib
import Lyli.Base.MeanCluster
import Lyli.Calibration.PointGridBands
import Lyli.Calibration.PointGridFinal

/-!
# `finalize` recovers every jittered hexagonal grid

Rows and columns more than 6 pixels apart, points less than 3/2 pixels off: the
points of one row are less than `maxDiff = 3` apart in `x`, those of different
rows more, and the same holds of the columns of one class in `y`.  So rows and
columns are bands, and every pass of `finalize` keeps the lines inside them:

    Jittered pts row col  →  the construct passes meet every row and column
      →  finalize = some g  ∧  the lines of g are the rows and the columns      (finalize_recovers)
-/

namespace Lyli.Calibration

attribute [local instance] Rounding.exact

open PointGrid

/-- Row and column centres.  Even rows hold the columns of class A, odd rows
those of class B; a class may have any number of columns, or go on for ever. -/
structure HexGrid where
  rows : ℕ
  rowCentre : ℕ → ℚ
  rowGap : ∀ i, i + 1 < rows → rowCentre i + 6 < rowCentre (i + 1)
  cols : SubGrid → ℕ∞
  colCentre : SubGrid → ℕ → ℚ
  colGap : ∀ c j, ((j + 1 : ℕ) : ℕ∞) < cols c → colCentre c j + 6 < colCentre c (j + 1)

namespace HexGrid

/-- Point `p` lies less than 3/2 pixels off the crossing of row `row p` and column `col p` of the row's class. -/
structure Jittered (G : HexGrid) (pts : List Point2f) (row col : ℕ → ℕ) : Prop where
  row_lt : ∀ p < pts.length, row p < G.rows
  col_lt : ∀ p < pts.length, (col p : ℕ∞) < G.cols (parityGrid (row p))
  near_row : ∀ p pt, pts[p]? = some pt → |pt.x - G.rowCentre (row p)| < 3 / 2
  near_col : ∀ p pt, pts[p]? = some pt → |pt.y - G.colCentre (parityGrid (row p)) (col p)| < 3 / 2

/-- The construct loop handles the points from a third of the sequence up to `stop`: the first
point at least `constructLim` below the one it starts with. -/
structure ConstructsUpTo (pts : List Point2f) (stop : ℕ) : Prop where
  third_le : pts.length / 3 ≤ stop
  first : ∃ start last, pts[pts.length / 3]? = some start ∧ pts[stop]? = some last ∧
    start.y + constructLim ≤ last.y ∧
    ∀ p pt, pts.length / 3 ≤ p → p < stop → pts[p]? = some pt → pt.y < start.y + constructLim

/-- The construct passes meet every row, and every column that holds a point. -/
structure Met (G : HexGrid) (pts : List Point2f) (row col : ℕ → ℕ) (stop : ℕ) : Prop where
  rowMet : ∀ i < G.rows, ∃ p, pts.length / 3 ≤ p ∧ p < stop ∧ row p = i
  colMet : ∀ p < pts.length, ∃ q < pts.length, row q % 2 = row p % 2 ∧ col q = col p ∧
    G.rows / 3 ≤ row q ∧ row q < G.rows / 3 + 6

/-- The lines are the rows and the columns, and no point is lost. -/
structure Recovered (G : HexGrid) (pts : List Point2f) (row col : ℕ → ℕ) (g : PointGrid) : Prop where
  rows : g.linesHorizontal.length = G.rows
  rowLine : ∀ i l, g.linesHorizontal[i]? = some l →
    (l.subgrid = .subgridA ↔ i % 2 = 0) ∧ ∀ p, p ∈ l.line ↔ p < pts.length ∧ row p = i
  /-- every vertical line is a column that holds a point -/
  colLine : ∀ l ∈ g.linesVertical, ∃ q < pts.length, l.subgrid = parityGrid (row q) ∧
    ∀ p, p ∈ l.line ↔ p < pts.length ∧ row p % 2 = row q % 2 ∧ col p = col q
  /-- and every column that holds a point is one vertical line -/
  once : ∀ p < pts.length, lineHolders g.linesVertical p = 1
  stored : ∀ p, p ∈ g.storage ↔ p < pts.length
  position : ∀ p pt, pts[p]? = some pt → position g.storage p = pt

end HexGrid

namespace PointGrid

open HexGrid

/-! ## Centres and bands -/

theorem HexGrid.rowCentre_lt (G : HexGrid) {i j : ℕ} (hij : i < j) (hj : j < G.rows) :
    G.rowCentre i + 6 < G.rowCentre j :=
  MeanCluster.lt_of_gaps (by norm_num) (P := fun j => j < G.rows) (fun _ h => by omega) G.rowGap hij hj

theorem HexGrid.colCentre_lt (G : HexGrid) (c : SubGrid) {i j : ℕ} (hij : i < j) (hj : (j : ℕ∞) < G.cols c) :
    G.colCentre c i + 6 < G.colCentre c j :=
  MeanCluster.lt_of_gaps (by norm_num) (P := fun j => (j : ℕ∞) < G.cols c) (fun j h => lt_of_le_of_lt (Nat.cast_le.mpr (Nat.le_succ j)) h)
    (G.colGap c) hij hj

/-- Points less than 3/2 off centres that lie more than 6 apart are banded. -/
theorem banded_of_centres {coord : Ptr → ℚ} {band : Ptr → ℕ} {U : Ptr → Prop} (centre : ℕ → ℚ)
    (hnear : ∀ p, U p → |coord p - centre (band p)| < 3 / 2)
    (hgap : ∀ p p', U p → U p' → band p < band p' → centre (band p) + 6 < centre (band p')) :
    Banded coord band U := by
  have hpos : ∀ p, U p → centre (band p) - 3 / 2 < coord p ∧ coord p < centre (band p) + 3 / 2 := by
    intro p hp
    have := abs_lt.mp (hnear p hp)
    exact ⟨by linarith [this.1], by linarith [this.2]⟩
  refine ⟨fun p p' hp hp' heq => ?_, fun p p' hp hp' hne => ?_⟩
  · have h := hpos p hp
    have h' := hpos p' hp'
    rw [heq] at h
    unfold maxDiff
    rw [abs_lt]
    exact ⟨by linarith [h.1, h'.2], by linarith [h.2, h'.1]⟩
  · have h := hpos p hp
    have h' := hpos p' hp'
    unfold maxDiff
    rw [lt_abs]
    rcases Nat.lt_or_gt_of_ne hne with hlt | hlt
    · have := hgap p p' hp hp' hlt
      exact Or.inr (by linarith [h.2, h'.1])
    · have := hgap p' p hp' hp hlt
      exact Or.inl (by linarith [h.1, h'.2])

section Jittered

variable {G : HexGrid} {pts : List Point2f} {row col : ℕ → ℕ} {stop : ℕ} (hJ : G.Jittered pts row col)

theorem position_getElem {p : Ptr} (hp : p < pts.length) : position (addPoints pts).storage p = pts[p] :=
  position_addPoints (List.getElem?_eq_getElem hp)

include hJ

theorem rows_banded : Banded (fun p => (position (addPoints pts).storage p).x) row (fun p => p < pts.length) := by
  refine banded_of_centres G.rowCentre (fun p hp => ?_) fun p p' _ hp' hlt => ?_
  · simp only [position_getElem hp]
    exact hJ.near_row p _ (List.getElem?_eq_getElem hp)
  · exact HexGrid.rowCentre_lt G hlt (hJ.row_lt p' hp')

/-- Rows are numbered along `x`. -/
theorem rows_mono {p p' : Ptr} (hp : p < pts.length) (hp' : p' < pts.length) (h : row p < row p') :
    (position (addPoints pts).storage p).x < (position (addPoints pts).storage p').x := by
  have hgap := HexGrid.rowCentre_lt G h (hJ.row_lt p' hp')
  have h₁ := abs_lt.mp (hJ.near_row p _ (List.getElem?_eq_getElem hp))
  have h₂ := abs_lt.mp (hJ.near_row p' _ (List.getElem?_eq_getElem hp'))
  rw [position_getElem hp, position_getElem hp']
  linarith [h₁.2, h₂.1]

theorem cols_banded (c : ℕ) : Banded (fun p => (position (addPoints pts).storage p).y) col
    (fun p => p < pts.length ∧ row p % 2 = c) := by
  have hclass : ∀ p, row p % 2 = c → parityGrid (row p) = if c = 0 then .subgridA else .subgridB := by
    rintro p rfl
    rfl
  refine banded_of_centres (G.colCentre (if c = 0 then .subgridA else .subgridB)) (fun p hp => ?_)
    fun p p' _ hp' hlt => ?_
  · simp only [position_getElem hp.1, ← hclass p hp.2]
    exact hJ.near_col p _ (List.getElem?_eq_getElem hp.1)
  · apply HexGrid.colCentre_lt G _ hlt
    rw [← hclass p' hp'.2]
    exact hJ.col_lt p' hp'.1

/-! ## The horizontal map -/

omit hJ in
theorem mem_range'_of_le {a b p : ℕ} (h : a ≤ b) : p ∈ List.range' a (b - a) ↔ a ≤ p ∧ p < b := by
  rw [List.mem_range'_1]
  omega

omit hJ in
theorem constructsUpTo_bounds (hstop : ConstructsUpTo pts stop) : pts.length / 3 < stop ∧ stop < pts.length := by
  obtain ⟨start, last, hstart, hlast, hlim, -⟩ := hstop.first
  refine ⟨lt_of_le_of_ne hstop.third_le ?_, (List.getElem?_eq_some_iff.mp hlast).1⟩
  intro heq
  rw [heq, hlast] at hstart
  obtain rfl := Option.some.inj hstart
  unfold constructLim at hlim
  linarith

omit hJ in
/-- The construct loop handles the points before `stop`, the forward loop those from there on. -/
theorem horizontalKeyed_of_constructsUpTo (hstop : ConstructsUpTo pts stop) {m : TmpLineMap}
    (hm : Keyed (fun p => (position (addPoints pts).storage p).x)
      (List.range' (pts.length / 3) (stop - pts.length / 3)) (List.range' stop (pts.length - stop)) m) :
    (addPoints pts).horizontalKeyed = some m := by
  obtain ⟨start, last, hstart, hlast, hlim, hbefore⟩ := hstop.first
  obtain ⟨hlt, hstopn⟩ := constructsUpTo_bounds hstop
  have hsplit : List.range' (pts.length / 3) (pts.length - pts.length / 3) =
      List.range' (pts.length / 3) (stop - pts.length / 3) ++ List.range' stop (pts.length - stop) := by
    have happ := List.range'_append_1 (s := pts.length / 3) (m := stop - pts.length / 3) (n := pts.length - stop)
    have hnext : pts.length / 3 + (stop - pts.length / 3) = stop := by omega
    have hlen : stop - pts.length / 3 + (pts.length - stop) = pts.length - pts.length / 3 := by omega
    rw [hnext, hlen] at happ
    exact happ.symm
  have hcons : List.range' (pts.length / 3) (stop - pts.length / 3) =
      pts.length / 3 :: List.range' (pts.length / 3 + 1) (stop - pts.length / 3 - 1) := by
    rw [← List.range'_succ]
    congr 1
    omega
  rw [horizontalKeyed_some]
  refine ⟨pts.length / 3, List.range' (pts.length / 3 + 1) (stop - pts.length / 3 - 1),
    List.range' stop (pts.length - stop), ?_, ?_, ?_, ?_⟩
  · rw [accumulator_addPoints, List.length_range, ← accumulator_addPoints, accumulator_drop, hsplit, hcons]
  · rw [← hcons]
    intro p hp
    obtain ⟨hge, hlt'⟩ := (mem_range'_of_le hlt.le).mp hp
    rw [position_addPoints hstart, position_getElem (hlt'.trans hstopn)]
    exact hbefore p _ hge hlt' (List.getElem?_eq_getElem _)
  · refine ⟨stop, ?_, ?_⟩
    · rw [List.head?_range', if_neg (by omega)]
    · rw [position_addPoints hstart, position_addPoints hlast]
      exact hlim
  · rw [← hcons]
    exact hm

omit hJ in
/-- The reverse loop handles the points up to a third of the sequence. -/
theorem mem_preceding (hne : pts.length / 3 < pts.length) {p : ℕ} :
    p ∈ (addPoints pts).preceding ↔ p ≤ pts.length / 3 := by
  unfold preceding
  rw [accumulator_addPoints, List.length_range, List.mem_reverse, List.take_range, List.mem_range]
  omega

theorem horizontalMap_banded (hstop : ConstructsUpTo pts stop)
    (hmet : ∀ i < G.rows, ∃ p, pts.length / 3 ≤ p ∧ p < stop ∧ row p = i) :
    ∃ m, (addPoints pts).horizontalMap = some m ∧
      InBands (fun p => (position (addPoints pts).storage p).x) row (fun p => p < pts.length) m ∧
      ∀ p, p ∈ points m ↔ p < pts.length := by
  obtain ⟨hlt, hstopn⟩ := constructsUpTo_bounds hstop
  have hmem₁ := fun p => mem_range'_of_le (p := p) hlt.le
  have hmem₂ := fun p => mem_range'_of_le (p := p) hstopn.le
  obtain ⟨m, hm, hin, hpts⟩ := keyed_banded (rows_banded hJ)
    (List.range' (pts.length / 3) (stop - pts.length / 3)) (List.range' stop (pts.length - stop))
    (fun p hp => ((hmem₁ p).mp hp).2.trans hstopn) (fun p hp => ((hmem₂ p).mp hp).2)
    (fun p hp => by
      obtain ⟨q, hq₁, hq₂, hq⟩ := hmet (row p) (hJ.row_lt p ((hmem₂ p).mp hp).2)
      exact ⟨q, (hmem₁ q).mpr ⟨hq₁, hq₂⟩, hq⟩)
  have hprec := fun p => mem_preceding (p := p) (hlt.trans hstopn)
  have hprec_lt : ∀ p ∈ (addPoints pts).preceding, p < pts.length := fun p hp =>
    lt_of_le_of_lt ((hprec p).mp hp) (hlt.trans hstopn)
  obtain ⟨m', hm', hin', hpts'⟩ := addAll_banded (rows_banded hJ) hin (addPoints pts).preceding
    hprec_lt (fun p hp => by
      obtain ⟨q, hq₁, hq₂, hq⟩ := hmet (row p) (hJ.row_lt p (hprec_lt p hp))
      exact ⟨q, (hpts q).mpr (Or.inl ((hmem₁ q).mpr ⟨hq₁, hq₂⟩)), hq⟩)
  refine ⟨m', horizontalMap_some.mpr ⟨m, horizontalKeyed_of_constructsUpTo hstop hm, hm'⟩, hin', fun p => ?_⟩
  have hall : ∀ p : ℕ, ((pts.length / 3 ≤ p ∧ p < stop) ∨ (stop ≤ p ∧ p < pts.length)) ∨ p ≤ pts.length / 3 ↔
      p < pts.length := by
    intro p
    omega
  rw [hpts', hpts, hmem₁, hmem₂, hprec, hall]

/-- Line `i` holds the points of row `i`. -/
structure RowLines (n : ℕ) (row : ℕ → ℕ) (R : ℕ) (lines : List Line) : Prop where
  length : lines.length = R
  mem : ∀ i l, lines[i]? = some l → ∀ p, p ∈ l.line ↔ p < n ∧ row p = i

/-- **The horizontal lines are the rows.** -/
theorem horizontalLines_rows (S : StdSort) (hstop : ConstructsUpTo pts stop)
    (hmet : ∀ i < G.rows, ∃ p, pts.length / 3 ≤ p ∧ p < stop ∧ row p = i) :
    ∃ hor, (addPoints pts).horizontalLines S = some hor ∧ Alternating hor ∧ RowLines pts.length row G.rows hor := by
  obtain ⟨m, hm, hin, hpts⟩ := horizontalMap_banded hJ hstop hmet
  obtain ⟨hor, hhor⟩ := horizontalLines_ne_none (S := S) hm
  obtain ⟨m', hm', halt, hline⟩ := horizontalLines_some (added_addPoints pts).linesHorizontal hhor
  obtain rfl : m = m' := Option.some.inj (hm.symm.trans hm')
  have hstopn : stop < pts.length := by
    obtain ⟨start, last, -, hlast, -⟩ := hstop.first
    exact (List.getElem?_eq_some_iff.mp hlast).1
  obtain ⟨hlen, hrow⟩ := hin.entries_range (fun p p' hp hp' h => rows_mono hJ hp hp' h) (n := G.rows) fun i => by
    constructor
    · rintro ⟨x, hx, rfl⟩
      exact hJ.row_lt x ((hpts x).mp hx)
    · intro hi
      obtain ⟨p, -, hp, hrow⟩ := hmet i hi
      exact ⟨p, (hpts p).mpr (hp.trans hstopn), hrow⟩
  have hlength : hor.length = G.rows := by
    have := congrArg List.length hline
    rw [List.length_map, List.length_map] at this
    rw [this, ← hlen]
    exact List.length_map _
  refine ⟨hor, hhor, halt, hlength, fun i l hl p => ?_⟩
  -- line `i` is the sorted line of entry `i`
  obtain ⟨e, he⟩ : ∃ e, m.entries[i]? = some e := by
    have hlt := (List.getElem?_eq_some_iff.mp hl).1
    exact ⟨_, List.getElem?_eq_getElem (by omega)⟩
  have hget : (hor.map (·.line))[i]? = some l.line := by rw [List.getElem?_map, hl]; rfl
  rw [hline] at hget
  unfold OrdMap.values at hget
  rw [List.getElem?_map, List.getElem?_map, he] at hget
  have hsort : (sortLine S (fun p => (position (addPoints pts).storage p).y) e.2).line = l.line := Option.some.inj hget
  obtain ⟨q, hq, hqi⟩ := hrow i e he
  rw [← hsort, sortLine_line, StdSort.mem_sort, hin.mem_line (List.mem_of_getElem? he) hq p, hpts, hqi]

/-! ## The vertical maps -/

omit hJ in
/-- A range of rows offers the points of its rows of one parity. -/
theorem mem_offered_rows {n R : ℕ} {lines : List Line} (h : RowLines n row R lines) (hrow : ∀ p < n, row p < R)
    {range : List ℤ} {c : ℕ} {p : Ptr} :
    p ∈ offered lines range c ↔ (p < n ∧ row p % 2 = c) ∧ (row p : ℤ) ∈ range := by
  rw [mem_offered]
  constructor
  · rintro ⟨i, hi, hc, l, hl, hp⟩
    have hi₀ := (lineAt_some_iff.mp ⟨l, hl⟩).1
    obtain ⟨k, rfl⟩ := Int.eq_ofNat_of_zero_le hi₀
    rw [lineAt_natCast] at hl
    obtain ⟨hpn, rfl⟩ := (h.mem k l hl p).mp hp
    exact ⟨⟨hpn, by omega⟩, hi⟩
  · rintro ⟨⟨hpn, hc⟩, hi⟩
    have hlt : row p < lines.length := by
      rw [h.length]
      exact hrow p hpn
    refine ⟨row p, hi, by omega, lines[row p], ?_, (h.mem _ _ (List.getElem?_eq_getElem hlt) p).mpr ⟨hpn, rfl⟩⟩
    rw [lineAt_natCast, List.getElem?_eq_getElem hlt]

/-- **The map of parity `c`** ends with the columns of the rows of that parity. -/
theorem verticalMap_banded (hmet : G.Met pts row col stop) (hR : 8 ≤ G.rows) {hor : List Line}
    (hhor : RowLines pts.length row G.rows hor) (c : ℕ) :
    ∃ m m', Keyed (fun p => (position (addPoints pts).storage p).y) (offered hor (constructRange hor) c)
        (offered hor (followingRange hor) c) m ∧
      addAll (fun p => (position (addPoints pts).storage p).y) m (offered hor (precedingRange hor) c) = some m' ∧
      InBands (fun p => (position (addPoints pts).storage p).y) col (fun p => p < pts.length ∧ row p % 2 = c) m' ∧
      ∀ p, p ∈ points m' ↔ p < pts.length ∧ row p % 2 = c := by
  have hoff := fun (range : List ℤ) (p : Ptr) => @mem_offered_rows row _ _ hor hhor hJ.row_lt range c p
  have hlen := hhor.length
  have hconstruct : ∀ i : ℕ, (i : ℤ) ∈ constructRange hor ↔ G.rows / 3 ≤ i ∧ i < G.rows / 3 + 6 := by
    intro i
    unfold constructRange
    rw [mem_lineRange_up (by omega), hlen]
    omega
  have hfollowing : ∀ i : ℕ, (i : ℤ) ∈ followingRange hor ↔ G.rows / 3 + 6 ≤ i ∧ i < G.rows := by
    intro i
    unfold followingRange
    rw [hlen, mem_lineRange_up (by omega)]
    omega
  have hpreceding : ∀ i : ℕ, (i : ℤ) ∈ precedingRange hor ↔ i ≤ G.rows / 3 := by
    intro i
    unfold precedingRange
    rw [hlen, mem_lineRange_down (by omega)]
    omega
  -- every column is met in the construct rows
  have hocc : ∀ p, p < pts.length ∧ row p % 2 = c → ∃ x ∈ offered hor (constructRange hor) c, col x = col p := by
    rintro p ⟨hpn, hc⟩
    obtain ⟨q, hqn, hpar, hcol, hlo, hhi⟩ := hmet.colMet p hpn
    exact ⟨q, (hoff _ q).mpr ⟨⟨hqn, hpar.trans hc⟩, (hconstruct _).mpr ⟨hlo, hhi⟩⟩, hcol⟩
  obtain ⟨m, hm, hin, hpts⟩ := keyed_banded (cols_banded hJ c) (offered hor (constructRange hor) c)
    (offered hor (followingRange hor) c)
    (fun p hp => ((hoff _ p).mp hp).1) (fun p hp => ((hoff _ p).mp hp).1)
    (fun p hp => hocc p ((hoff _ p).mp hp).1)
  obtain ⟨m', hm', hin', hpts'⟩ := addAll_banded (cols_banded hJ c) hin (offered hor (precedingRange hor) c)
    (fun p hp => ((hoff _ p).mp hp).1) (fun p hp => by
      obtain ⟨x, hx, hcol⟩ := hocc p ((hoff _ p).mp hp).1
      exact ⟨x, (hpts x).mpr (Or.inl hx), hcol⟩)
  refine ⟨m, m', hm, hm', hin', fun p => ?_⟩
  rw [hpts', hpts, hoff, hoff, hoff, hconstruct, hfollowing, hpreceding]
  constructor
  · rintro ((h | h) | h)
    · exact h.1
    · exact h.1
    · exact h.1
  · intro h
    have hlt := hJ.row_lt p h.1
    have hcases : (G.rows / 3 ≤ row p ∧ row p < G.rows / 3 + 6) ∨ (G.rows / 3 + 6 ≤ row p ∧ row p < G.rows) ∨
        row p ≤ G.rows / 3 := by omega
    rcases hcases with h' | h' | h'
    · exact Or.inl (Or.inl ⟨h, h'⟩)
    · exact Or.inl (Or.inr ⟨h, h'⟩)
    · exact Or.inr ⟨h, h'⟩

/-- What the vertical lines of a grid of rows are. -/
structure ColumnLines (n : ℕ) (row col : ℕ → ℕ) (vert : List Line) : Prop where
  mem : ∀ l ∈ vert, ∃ q < n, l.subgrid = parityGrid (row q) ∧
    ∀ p, p ∈ l.line ↔ p < n ∧ row p % 2 = row q % 2 ∧ col p = col q
  once : ∀ p < n, lineHolders vert p = 1

/-- **The vertical lines are the columns.** -/
theorem verticalLines_columns (S : StdSort) (hmet : G.Met pts row col stop) (hR : 8 ≤ G.rows) {hor : List Line}
    (hhor : RowLines pts.length row G.rows hor) :
    ∃ vert, verticalLines S (addPoints pts) hor = some vert ∧ ColumnLines pts.length row col vert := by
  obtain ⟨mo, mo', hmo, hmo', hino, hptso⟩ := verticalMap_banded hJ hmet hR hhor 0
  obtain ⟨me, me', hme, hme', hine, hptse⟩ := verticalMap_banded hJ hmet hR hhor 1
  have hmaps : verticalMaps (fun p => (position (addPoints pts).storage p).y) hor = some ⟨mo', me'⟩ := by
    refine verticalMaps_some.mpr ⟨⟨mo, me⟩, verticalKeyed_some.mpr ⟨?_, hmo, hme⟩, hmo', hme'⟩
    have := hhor.length
    omega
  obtain ⟨vert, hvert⟩ := verticalLines_ne_none (S := S) hmaps
  obtain ⟨s, hs, hperm⟩ := verticalLines_some (added_addPoints pts).linesVertical hvert
  obtain rfl : ⟨mo', me'⟩ = s := Option.some.inj (hmaps.symm.trans hs)
  -- a line of the map of parity `c` is a column of that class
  have hcolumn : ∀ (c : ℕ) (m : TmpLineMap), InBands (fun p => (position (addPoints pts).storage p).y) col
      (fun p => p < pts.length ∧ row p % 2 = c) m → (∀ p, p ∈ points m ↔ p < pts.length ∧ row p % 2 = c) →
      ∀ e ∈ m.entries, ∃ q < pts.length, row q % 2 = c ∧
        ∀ p, p ∈ e.2.line ↔ p < pts.length ∧ row p % 2 = row q % 2 ∧ col p = col q := by
    intro c m hin hpts e he
    obtain ⟨q, hq, -⟩ := hin.key e he
    obtain ⟨hqn, hqc⟩ := hin.mem e he q hq
    refine ⟨q, hqn, hqc, fun p => ?_⟩
    rw [hin.mem_line he hq, hpts, hqc, and_assoc]
  refine ⟨vert, hvert, ?_, ?_⟩
  · intro l hl
    rw [hperm.mem_iff, List.mem_append, List.mem_map, List.mem_map] at hl
    rcases hl with ⟨e, he, rfl⟩ | ⟨e, he, rfl⟩
    · obtain ⟨q, hqn, hqc, hq⟩ := hcolumn 0 mo' hino hptso e he
      refine ⟨q, hqn, by unfold parityGrid; rw [if_pos hqc], fun p => ?_⟩
      rw [← hq, sortLine_line, StdSort.mem_sort]
    · obtain ⟨q, hqn, hqc, hq⟩ := hcolumn 1 me' hine hptse e he
      refine ⟨q, hqn, by unfold parityGrid; rw [if_neg (by omega)], fun p => ?_⟩
      rw [← hq, sortLine_line, StdSort.mem_sort]
  · intro p hp
    rw [vertical_lineHolders hperm]
    have hnot : ∀ m : TmpLineMap, p ∉ points m → holders m p = 0 := by
      intro m hm
      have := mt holders_pos.mp hm
      omega
    rcases Nat.mod_two_eq_zero_or_one (row p) with hc | hc
    · rw [hino.holders_eq_one ((hptso p).mpr ⟨hp, hc⟩), hnot me' (fun h => by have := ((hptse p).mp h).2; omega)]
    · rw [hine.holders_eq_one ((hptse p).mpr ⟨hp, hc⟩), hnot mo' (fun h => by have := ((hptso p).mp h).2; omega)]

end Jittered

/-! ## The whole run -/

/-- **`finalize` recovers every jittered hexagonal grid** of at least 8 rows, whatever order the
points come in, if its construct passes meet every row and every column. -/
theorem finalize_recovers (S : StdSort) (G : HexGrid) (hR : 8 ≤ G.rows) (pts : List Point2f) (row col : ℕ → ℕ)
    (hJ : G.Jittered pts row col) (stop : ℕ) (hstop : ConstructsUpTo pts stop) (hmet : G.Met pts row col stop) :
    ∃ g, (addPoints pts).finalize S = some g ∧ G.Recovered pts row col g := by
  obtain ⟨hor, hhor, halt, hrows⟩ := horizontalLines_rows hJ S hstop hmet.rowMet
  obtain ⟨vert, hvert, hcols⟩ := verticalLines_columns hJ S hmet hR hrows
  have hmem_hor : ∀ p < pts.length, p ∈ linePoints hor := by
    intro p hp
    have hlt : row p < hor.length := by
      rw [hrows.length]
      exact hJ.row_lt p hp
    exact mem_linePoints.mpr ⟨hor[row p], List.getElem_mem hlt,
      (hrows.mem _ _ (List.getElem?_eq_getElem hlt) p).mpr ⟨hp, rfl⟩⟩
  have hmem_vert : ∀ p, p ∈ linePoints vert ↔ p < pts.length := by
    intro p
    constructor
    · intro hp
      obtain ⟨l, hl, hpl⟩ := mem_linePoints.mp hp
      obtain ⟨q, -, -, hq⟩ := hcols.mem l hl
      exact ((hq p).mp hpl).1
    · intro hp
      have := hcols.once p hp
      exact lineHolders_pos.mp (by omega)
  have hstorage : ∀ p, p ∈ (addPoints pts).storage ↔ p < pts.length := by
    intro p
    rw [← AList.lookup_isSome, (added_addPoints pts).lookup]
    simp
  obtain ⟨g, hg⟩ := finalize_ne_none hhor hvert fun p hp => by
    rw [hmem_vert] at hp
    exact ⟨hmem_hor p hp, (hstorage p).mpr hp⟩
  obtain ⟨hor', vert', hfin⟩ := finalize_some hg
  obtain rfl : hor = hor' := Option.some.inj (hhor.symm.trans hfin.horizontal)
  obtain rfl : vert = vert' := Option.some.inj (hvert.symm.trans hfin.vertical)
  have hstored : ∀ p, p ∈ g.storage ↔ p < pts.length := by
    intro p
    rw [hfin.stored, hstorage, hmem_vert]
    exact ⟨fun h => h.1, fun h => ⟨h, hmem_hor p h, h⟩⟩
  refine ⟨g, hg, ?_, ?_, ?_, ?_, hstored, ?_⟩
  · rw [hfin.linesHorizontal, List.length_map, hrows.length]
  · intro i l hl
    rw [hfin.linesHorizontal, List.getElem?_map] at hl
    obtain ⟨l₀, hl₀, rfl⟩ := Option.map_eq_some_iff.mp hl
    constructor
    · show l₀.subgrid = _ ↔ _
      rw [halt i l₀ hl₀]
      unfold parityGrid
      split_ifs with hi
      · simp [hi]
      · simp [hi]
    · intro p
      -- the clean-up drops nothing
      show p ∈ l₀.line.filter _ ↔ _
      rw [List.mem_filter, decide_eq_true_eq, hmem_vert, hrows.mem i l₀ hl₀]
      exact ⟨fun h => h.1, fun h => ⟨h, h.1⟩⟩
  · rw [hfin.linesVertical]
    exact hcols.mem
  · rw [hfin.linesVertical]
    exact hcols.once
  · intro p pt hpt
    have hp := (List.getElem?_eq_some_iff.mp hpt).1
    rw [hfin.position p ((hstored p).mpr hp), position_addPoints hpt]

/-- Eight rows and any number of columns, 10 pixels apart. -/
def eightRows : HexGrid where
  rows := 8
  rowCentre i := 10 * i
  rowGap i _ := by push_cast; linarith
  cols _ := ⊤
  colCentre c j := if c = .subgridA then 10 * j else 10 * j + 5
  colGap c j _ := by
    split_ifs
    · push_cast; linarith
    · push_cast; linarith

/-- Points of `eightRows`, up to a pixel off; the construct loop handles those from index 4 to 11. -/
def eightRowsPoints : List Point2f :=
  [⟨20, -1⟩, ⟨1, 0⟩, ⟨40, 0⟩, ⟨61, 1⟩, ⟨50, 4⟩, ⟨10, 5⟩, ⟨69, 5⟩, ⟨30, 6⟩, ⟨60, 9⟩, ⟨0, 10⟩, ⟨19, 10⟩, ⟨40, 11⟩, ⟨20, 30⟩]

def eightRowsRow (p : ℕ) : ℕ := [2, 0, 4, 6, 5, 1, 7, 3, 6, 0, 2, 4, 2].getD p 0

def eightRowsCol (p : ℕ) : ℕ := [0, 0, 0, 0, 0, 0, 0, 0, 1, 1, 1, 1, 3].getD p 0

theorem finalize_recovers_eightRows :
    ∃ g, (addPoints eightRowsPoints).finalize .insertion = some g ∧
      eightRows.Recovered eightRowsPoints eightRowsRow eightRowsCol g := by
  -- a property of every point is one of thirteen
  have hpoint : ∀ P : ℕ → Point2f → Prop, (∀ p : Fin 13, P p (eightRowsPoints.get p)) →
      ∀ p pt, eightRowsPoints[p]? = some pt → P p pt := by
    intro P h p pt hpt
    obtain ⟨hlt, rfl⟩ := List.getElem?_eq_some_iff.mp hpt
    exact h ⟨p, hlt⟩
  refine finalize_recovers .insertion eightRows (by decide) eightRowsPoints eightRowsRow eightRowsCol
    ⟨?_, fun _ _ => ENat.natCast_lt_top _, ?_, ?_⟩ 12 ⟨by decide, ⟨50, 4⟩, ⟨20, 30⟩, rfl, rfl, ?_, ?_⟩ ⟨?_, ?_⟩
  · decide
  · exact hpoint _ (by decide +kernel)
  · exact hpoint _ (by decide +kernel)
  · decide +kernel
  · intro p pt _ hlt hpt
    exact hpoint (fun p pt => p < 12 → pt.y < 4 + constructLim) (by decide +kernel) p pt hpt hlt
  · have hrow : ∀ i < 8, ∃ p < 12, 4 ≤ p ∧ eightRowsRow p = i := by decide
    intro i hi
    obtain ⟨p, hlt, hge, hp⟩ := hrow i hi
    exact ⟨p, hge, hlt, hp⟩
  · decide

end PointGrid

end Lyli.Calibration
