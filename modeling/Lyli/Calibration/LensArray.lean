import Mathlib
import Lyli.Calibration.LineGridPositions
import Lyli.Calibration.PointGridLinks
import Lyli.Calibration.PointGridRecover

/-!
# The grid of one image of a lens array

Rows lie more than 6 pixels apart and so do columns; a column crosses every
other row.  The points of an image are less than 3/2 pixels off the crossings.
Both vertical maps then hold the columns of one class each, and merging them by
key (`mergeVertical_sorted`) puts the columns in the order of the array:

    A.Shows pts row col stop  →  finalize = some g  ∧  line i of g is row i, column j, with the points
                                 linked to them                                     (finalize_lensArray)
                              →  ofPointGrid g = some grid  ∧  grid is near A        (ofPointGrid_near)
-/

namespace Lyli.Calibration

attribute [local instance] Rounding.exact

open PointGrid

/-- Centres of the rows and of the columns, in the order of the coordinate. -/
structure LensArray where
  rows : ℕ
  rowCentre : ℕ → ℚ
  rowGap : ∀ i, i + 1 < rows → rowCentre i + 6 < rowCentre (i + 1)
  columns : ℕ
  columnCentre : ℕ → ℚ
  columnGap : ∀ j, j + 1 < columns → columnCentre j + 6 < columnCentre (j + 1)

namespace LensArray

theorem columnCentre_lt (A : LensArray) {i j : ℕ} (hij : i < j) (hj : j < A.columns) :
    A.columnCentre i + 6 < A.columnCentre j :=
  MeanCluster.lt_of_gaps (by norm_num) (P := fun j => j < A.columns) (fun _ h => by omega) A.columnGap hij hj

/-- The first column of a class. -/
def classStart : SubGrid → ℕ
  | .subgridA => 0
  | .subgridB => 1

/-- The even columns are those of class A, the odd ones those of class B. -/
def hexGrid (A : LensArray) : HexGrid where
  rows := A.rows
  rowCentre := A.rowCentre
  rowGap := A.rowGap
  cols c := ((A.columns + 1 - classStart c) / 2 : ℕ)
  colCentre c j := A.columnCentre (2 * j + classStart c)
  colGap c j hj := by
    have hlt : j + 1 < (A.columns + 1 - classStart c) / 2 := Nat.cast_lt.mp hj
    exact A.columnCentre_lt (by omega) (by omega)

/-- Point `p` of the image lies less than 3/2 pixels off row `row p` and column `col p`, and the
construct passes meet every row and every column. -/
structure Shows (A : LensArray) (pts : List Point2f) (row col : ℕ → ℕ) (stop : ℕ) : Prop where
  row_lt : ∀ p < pts.length, row p < A.rows
  col_lt : ∀ p < pts.length, col p < A.columns
  /-- a column crosses the rows of its parity -/
  crossing : ∀ p < pts.length, col p % 2 = row p % 2
  near_row : ∀ p pt, pts[p]? = some pt → |pt.x - A.rowCentre (row p)| < 3 / 2
  near_col : ∀ p pt, pts[p]? = some pt → |pt.y - A.columnCentre (col p)| < 3 / 2
  constructs : HexGrid.ConstructsUpTo pts stop
  rowMet : ∀ i < A.rows, ∃ p, pts.length / 3 ≤ p ∧ p < stop ∧ row p = i
  colMet : ∀ j < A.columns, ∃ q < pts.length, col q = j ∧ A.rows / 3 ≤ row q ∧ row q < A.rows / 3 + 6

/-- Line `i` holds the points of row `i` or column `i`, and the points are linked to these lines. -/
structure Detected (A : LensArray) (pts : List Point2f) (row col : ℕ → ℕ) (g : PointGrid) : Prop where
  rows : g.linesHorizontal.length = A.rows
  columns : g.linesVertical.length = A.columns
  rowLine : ∀ i l, g.linesHorizontal[i]? = some l →
    l.subgrid = parityGrid i ∧ ∀ p, p ∈ l.line ↔ p < pts.length ∧ row p = i
  columnLine : ∀ j l, g.linesVertical[j]? = some l →
    l.subgrid = parityGrid j ∧ ∀ p, p ∈ l.line ↔ p < pts.length ∧ col p = j
  stored : ∀ p, p ∈ g.storage ↔ p < pts.length
  position : ∀ p pt, pts[p]? = some pt → position g.storage p = pt
  links : ∀ p < pts.length, g.horizontalLineIndex p = some (row p) ∧ g.verticalLineIndex p = some (col p)

/-- Every row and every column has two points. -/
structure Populated (A : LensArray) (pts : List Point2f) (row col : ℕ → ℕ) : Prop where
  rows : ∀ i < A.rows, ∃ p < pts.length, ∃ q < pts.length, p ≠ q ∧ row p = i ∧ row q = i
  columns : ∀ j < A.columns, ∃ p < pts.length, ∃ q < pts.length, p ≠ q ∧ col p = j ∧ col q = j

/-- The lines of one direction, each less than 3/2 pixels off its centre. -/
structure LinesNear (n : ℕ) (centre : ℕ → ℚ) (lines : List LineGrid.Line) : Prop where
  length : lines.length = n
  line : ∀ i line, lines[i]? = some line → line.subgrid = parityGrid i ∧ |line.position - centre i| < 3 / 2

/-- The lines of the grid are those of the array. -/
structure Near (A : LensArray) (grid : LineGrid) : Prop where
  rows : LinesNear A.rows A.rowCentre grid.horizonalLines
  columns : LinesNear A.columns A.columnCentre grid.verticalLines

end LensArray

namespace PointGrid

/-! ## The merge of the vertical maps -/

/-- **The merge is sorted** by the keys of both maps. -/
theorem mergeVertical_sorted {odd even : List (ℚ × Line)} (ho : odd.Pairwise fun a b => a.1 < b.1)
    (he : even.Pairwise fun a b => a.1 < b.1) :
    ∃ es : List (ℚ × Line), es.map (·.2) = mergeVertical odd even ∧ (es.Pairwise fun a b => a.1 ≤ b.1) ∧
      es.Perm (odd.map (fun e => (e.1, labelled .subgridA e)) ++ even.map fun e => (e.1, labelled .subgridB e)) := by
  induction odd generalizing even with
  | nil =>
    refine ⟨even.map fun e => (e.1, labelled .subgridB e), ?_, ?_, List.Perm.refl _⟩
    · rw [List.map_map]
      rfl
    · rw [List.pairwise_map]
      exact he.imp fun h => h.le
  | cons o odd ih =>
    obtain ⟨ho₁, ho₂⟩ := List.pairwise_cons.mp ho
    unfold mergeVertical
    induction even with
    | nil =>
      obtain ⟨es, hmap, hsorted, hperm⟩ := ih ho₂ List.Pairwise.nil
      refine ⟨(o.1, labelled .subgridA o) :: es, ?_, List.pairwise_cons.mpr ⟨fun x hx => ?_, hsorted⟩, hperm.cons _⟩
      · rw [List.map_cons, hmap]
        rfl
      · rw [hperm.mem_iff, List.map_nil, List.append_nil] at hx
        obtain ⟨b, hb, rfl⟩ := List.mem_map.mp hx
        exact (ho₁ b hb).le
    | cons e even ihe =>
      obtain ⟨he₁, he₂⟩ := List.pairwise_cons.mp he
      unfold mergeVertical.go
      split_ifs with hlt
      · -- the odd line comes first, before the even ones too
        obtain ⟨es, hmap, hsorted, hperm⟩ := ih ho₂ he
        refine ⟨(o.1, labelled .subgridA o) :: es, ?_, List.pairwise_cons.mpr ⟨fun x hx => ?_, hsorted⟩, hperm.cons _⟩
        · rw [List.map_cons, hmap]
          rfl
        · rw [hperm.mem_iff, List.mem_append] at hx
          rcases hx with hx | hx
          · obtain ⟨b, hb, rfl⟩ := List.mem_map.mp hx
            exact (ho₁ b hb).le
          · obtain ⟨b, hb, rfl⟩ := List.mem_map.mp hx
            rcases List.mem_cons.mp hb with rfl | hb
            · exact hlt.le
            · exact (hlt.trans (he₁ b hb)).le
      · obtain ⟨es, hmap, hsorted, hperm⟩ := ihe he₂
        refine ⟨(e.1, labelled .subgridB e) :: es, ?_, List.pairwise_cons.mpr ⟨fun x hx => ?_, hsorted⟩, ?_⟩
        · rw [List.map_cons, hmap]
          rfl
        · rw [hperm.mem_iff, List.mem_append] at hx
          rcases hx with hx | hx
          · obtain ⟨b, hb, rfl⟩ := List.mem_map.mp hx
            rcases List.mem_cons.mp hb with rfl | hb
            · exact not_lt.mp hlt
            · exact (not_lt.mp hlt).trans (ho₁ b hb).le
          · obtain ⟨b, hb, rfl⟩ := List.mem_map.mp hx
            exact (he₁ b hb).le
        · exact (hperm.cons _).trans List.perm_middle.symm

/-- A list sorted by a key that grows with an index below `n` has every index at its place. -/
theorem map_eq_range {α : Type} {key : α → ℚ} {index : α → ℕ} {l : List α} {n : ℕ}
    (hsorted : l.Pairwise fun a b => key a ≤ key b) (hnodup : (l.map index).Nodup)
    (hmono : ∀ a ∈ l, ∀ b ∈ l, index a < index b → key a < key b) (hall : ∀ i, (∃ a ∈ l, index a = i) ↔ i < n) :
    l.map index = List.range n := by
  have hlt : (l.map index).Pairwise (· < ·) := by
    rw [List.pairwise_map]
    refine (hsorted.and (List.pairwise_map.mp hnodup)).imp_of_mem fun {a b} ha hb h => ?_
    obtain ⟨hkey, hne⟩ := h
    rcases Nat.lt_or_gt_of_ne hne with hlt | hgt
    · exact hlt
    · exact absurd (hmono b hb a ha hgt) hkey.not_gt
  refine hlt.eq_of_mem_iff List.pairwise_lt_range fun i => ?_
  rw [List.mem_range, ← hall, List.mem_map]

section Image

variable {A : LensArray} {pts : List Point2f} {row col : ℕ → ℕ} {stop : ℕ} (hA : A.Shows pts row col stop)

/-! ## The image as one of a hexagonal grid -/

/-- The column of a point among those of its class. -/
theorem classStart_column {p c : ℕ} (h : col p % 2 = c % 2) :
    2 * (col p / 2) + LensArray.classStart (parityGrid c) = col p := by
  unfold parityGrid
  split_ifs with hc
  · show 2 * (col p / 2) + 0 = col p
    omega
  · show 2 * (col p / 2) + 1 = col p
    omega

/-- An entry of the merge: the points of column `col q`, under the `y` of its point `q`. -/
structure IsColumn (pts : List Point2f) (col : ℕ → ℕ) (e : ℚ × Line) (q : Ptr) : Prop where
  mem : q ∈ e.2.line
  key : e.1 = (position (addPoints pts).storage q).y
  subgrid : e.2.subgrid = parityGrid (col q)
  line : ∀ p, p ∈ e.2.line ↔ p < pts.length ∧ col p = col q

/-- The column of an entry, read at its first point. -/
def columnOf (col : ℕ → ℕ) (e : ℚ × Line) : ℕ := (e.2.line.head?.map col).getD 0

theorem IsColumn.columnOf_eq {e : ℚ × Line} {q : Ptr} (h : IsColumn pts col e q) : columnOf col e = col q := by
  obtain ⟨a, as, hl⟩ := List.exists_cons_of_ne_nil (List.ne_nil_of_mem h.mem)
  have ha : a ∈ e.2.line := by
    rw [hl]
    exact List.mem_cons_self
  unfold columnOf
  rw [hl]
  exact ((h.line a).mp ha).2

include hA

theorem jittered_of_shows : A.hexGrid.Jittered pts row fun p => col p / 2 where
  row_lt := hA.row_lt
  col_lt p hp := by
    apply Nat.cast_lt.mpr
    have hcol := hA.col_lt p hp
    have hclass := classStart_column (hA.crossing p hp)
    show col p / 2 < (A.columns + 1 - LensArray.classStart (parityGrid (row p))) / 2
    omega
  near_row := hA.near_row
  near_col p pt hpt := by
    have hp := (List.getElem?_eq_some_iff.mp hpt).1
    show |pt.y - A.columnCentre (2 * (col p / 2) + LensArray.classStart (parityGrid (row p)))| < 3 / 2
    rw [classStart_column (hA.crossing p hp)]
    exact hA.near_col p pt hpt

theorem met_of_shows : A.hexGrid.Met pts row (fun p => col p / 2) stop where
  rowMet := hA.rowMet
  colMet p hp := by
    obtain ⟨q, hq, hcol, hlo, hhi⟩ := hA.colMet (col p) (hA.col_lt p hp)
    have hparity := (hA.crossing q hq).symm.trans ((congrArg (· % 2) hcol).trans (hA.crossing p hp))
    exact ⟨q, hq, hparity, congrArg (· / 2) hcol, hlo, hhi⟩

/-! ## The columns in order -/

/-- Columns are numbered along `y`. -/
theorem columns_mono {p q : ℕ} (hp : p < pts.length) (hq : q < pts.length) (h : col p < col q) :
    (position (addPoints pts).storage p).y < (position (addPoints pts).storage q).y := by
  have hgap := A.columnCentre_lt h (hA.col_lt q hq)
  have h₁ := abs_lt.mp (hA.near_col p _ (List.getElem?_eq_getElem hp))
  have h₂ := abs_lt.mp (hA.near_col q _ (List.getElem?_eq_getElem hq))
  rw [position_getElem hp, position_getElem hq]
  linarith [h₁.2, h₂.1]

/-- The entries of the map of parity `c`, once swept and labelled, are columns. -/
theorem isColumn_of_banded (S : StdSort) {c : ℕ} {m : TmpLineMap}
    (hin : InBands (fun p => (position (addPoints pts).storage p).y) (fun p => col p / 2)
      (fun p => p < pts.length ∧ row p % 2 = c) m)
    (hpts : ∀ p, p ∈ points m ↔ p < pts.length ∧ row p % 2 = c) {e : ℚ × Line} (he : e ∈ m.entries)
    (coord : Ptr → ℚ) :
    ∃ q, row q % 2 = c ∧ IsColumn pts col (e.1, labelled (parityGrid c) (e.1, sortLine S coord e.2)) q := by
  obtain ⟨q, hq, hkey⟩ := hin.key e he
  obtain ⟨hqn, hqc⟩ := hin.mem e he q hq
  have hcross := hA.crossing q hqn
  have hsort : ∀ p, p ∈ (labelled (parityGrid c) (e.1, sortLine S coord e.2)).line ↔ p ∈ e.2.line := by
    intro p
    show p ∈ (sortLine S coord e.2).line ↔ _
    rw [sortLine_line, StdSort.mem_sort]
  refine ⟨q, hqc, (hsort q).mpr hq, hkey, ?_, fun p => ?_⟩
  · show parityGrid c = parityGrid (col q)
    unfold parityGrid
    have hmod : c % 2 = col q % 2 := by omega
    rw [hmod]
  · rw [hsort, hin.mem_line he hq, hpts]
    constructor
    · rintro ⟨⟨hpn, hpc⟩, hdiv⟩
      have := hA.crossing p hpn
      exact ⟨hpn, by omega⟩
    · rintro ⟨hpn, heq⟩
      have := hA.crossing p hpn
      exact ⟨⟨hpn, by omega⟩, congrArg (· / 2) heq⟩

/-- No two entries of a map are the same column. -/
theorem columnOf_inj (S : StdSort) {c : ℕ} {m : TmpLineMap}
    (hin : InBands (fun p => (position (addPoints pts).storage p).y) (fun p => col p / 2)
      (fun p => p < pts.length ∧ row p % 2 = c) m)
    (hpts : ∀ p, p ∈ points m ↔ p < pts.length ∧ row p % 2 = c) (coord : Ptr → ℚ) :
    (m.entries.map fun e => columnOf col (e.1, labelled (parityGrid c) (e.1, sortLine S coord e.2))).Nodup := by
  refine m.entries_nodup.map_on fun a ha b hb heq => ?_
  obtain ⟨p, -, hp⟩ := isColumn_of_banded hA S hin hpts ha coord
  obtain ⟨q, -, hq⟩ := isColumn_of_banded hA S hin hpts hb coord
  rw [hp.columnOf_eq, hq.columnOf_eq] at heq
  have hmem : ∀ {e : ℚ × Line} {x : Ptr}, x ∈ (labelled (parityGrid c) (e.1, sortLine S coord e.2)).line → x ∈ e.2.line := by
    intro e x hx
    have hx : x ∈ (sortLine S coord e.2).line := hx
    rwa [sortLine_line, StdSort.mem_sort] at hx
  exact hin.apart a ha b hb p (hmem hp.mem) q (hmem hq.mem) (congrArg (· / 2) heq)

/-- **The vertical lines are the columns**, in their order. -/
theorem verticalLines_inOrder (S : StdSort) (hR : 8 ≤ A.rows) {hor : List Line}
    (hhor : RowLines pts.length row A.rows hor) :
    ∃ vert, verticalLines S (addPoints pts) hor = some vert ∧ vert.length = A.columns ∧
      ∀ j l, vert[j]? = some l → l.subgrid = parityGrid j ∧ ∀ p, p ∈ l.line ↔ p < pts.length ∧ col p = j := by
  have hJ := jittered_of_shows hA
  have hmet := met_of_shows hA
  obtain ⟨mo, mo', hmo, hmo', hino, hptso⟩ := verticalMap_banded hJ hmet hR hhor 0
  obtain ⟨me, me', hme, hme', hine, hptse⟩ := verticalMap_banded hJ hmet hR hhor 1
  have hmaps : verticalMaps (fun p => (position (addPoints pts).storage p).y) hor = some ⟨mo', me'⟩ := by
    refine verticalMaps_some.mpr ⟨⟨mo, me⟩, verticalKeyed_some.mpr ⟨?_, hmo, hme⟩, hmo', hme'⟩
    have hlen : hor.length = A.rows := hhor.length
    omega
  let x : Ptr → ℚ := fun p => (position (addPoints pts).storage p).x
  obtain ⟨es, hmap, hsorted, hperm⟩ :=
    mergeVertical_sorted (mo'.mapVal (sortLine S x)).sorted (me'.mapVal (sortLine S x)).sorted
  rw [OrdMap.mapVal_entries, OrdMap.mapVal_entries, List.map_map, List.map_map] at hperm
  have hes : ∀ e, e ∈ es ↔ (∃ a ∈ mo'.entries, (a.1, labelled .subgridA (a.1, sortLine S x a.2)) = e) ∨
      ∃ a ∈ me'.entries, (a.1, labelled .subgridB (a.1, sortLine S x a.2)) = e := by
    intro e
    rw [hperm.mem_iff, List.mem_append, List.mem_map, List.mem_map]
    rfl
  have hcolumn : ∀ e ∈ es, ∃ q, IsColumn pts col e q := by
    intro e he
    rcases (hes e).mp he with ⟨a, ha, rfl⟩ | ⟨a, ha, rfl⟩
    · obtain ⟨q, -, hq⟩ := isColumn_of_banded hA S hino hptso ha x
      exact ⟨q, hq⟩
    · obtain ⟨q, -, hq⟩ := isColumn_of_banded hA S hine hptse ha x
      exact ⟨q, hq⟩
  have hrange : es.map (columnOf col) = List.range A.columns := by
    apply map_eq_range hsorted
    · -- the columns of one map differ in their class from those of the other
      rw [(hperm.map (columnOf col)).nodup_iff, List.map_append, List.map_map, List.map_map, List.nodup_append]
      refine ⟨columnOf_inj hA S hino hptso x, columnOf_inj hA S hine hptse x, ?_⟩
      intro i hi j hj heq
      obtain ⟨a, ha, rfl⟩ := List.mem_map.mp hi
      obtain ⟨b, hb, rfl⟩ := List.mem_map.mp hj
      obtain ⟨p, hpc, hp⟩ := isColumn_of_banded hA S hino hptso ha x
      obtain ⟨q, hqc, hq⟩ := isColumn_of_banded hA S hine hptse hb x
      have h₁ := hA.crossing p ((hp.line p).mp hp.mem).1
      have h₂ := hA.crossing q ((hq.line q).mp hq.mem).1
      have heq : col p = col q := hp.columnOf_eq.symm.trans (heq.trans hq.columnOf_eq)
      omega
    · intro a ha b hb hlt
      obtain ⟨p, hp⟩ := hcolumn a ha
      obtain ⟨q, hq⟩ := hcolumn b hb
      rw [hp.columnOf_eq, hq.columnOf_eq] at hlt
      rw [hp.key, hq.key]
      exact columns_mono hA ((hp.line p).mp hp.mem).1 ((hq.line q).mp hq.mem).1 hlt
    · intro j
      constructor
      · rintro ⟨e, he, rfl⟩
        obtain ⟨q, hq⟩ := hcolumn e he
        rw [hq.columnOf_eq]
        exact hA.col_lt q ((hq.line q).mp hq.mem).1
      · intro hj
        obtain ⟨q, hq, rfl, -⟩ := hA.colMet j hj
        have hin : ∃ e ∈ es, q ∈ e.2.line := by
          rcases Nat.mod_two_eq_zero_or_one (row q) with hc | hc
          · obtain ⟨a, ha, hqa⟩ := mem_points.mp ((hptso q).mpr ⟨hq, hc⟩)
            exact ⟨_, (hes _).mpr (Or.inl ⟨a, ha, rfl⟩), (StdSort.mem_sort S _ _ _).mpr hqa⟩
          · obtain ⟨a, ha, hqa⟩ := mem_points.mp ((hptse q).mpr ⟨hq, hc⟩)
            exact ⟨_, (hes _).mpr (Or.inr ⟨a, ha, rfl⟩), (StdSort.mem_sort S _ _ _).mpr hqa⟩
        obtain ⟨e, he, hqe⟩ := hin
        obtain ⟨p, hp⟩ := hcolumn e he
        exact ⟨e, he, hp.columnOf_eq.trans ((hp.line q).mp hqe).2.symm⟩
  have hlen : es.length = A.columns := by
    rw [← @List.length_map _ _ es (columnOf col), hrange, List.length_range]
  refine ⟨es.map (·.2), ?_, by rw [List.length_map, hlen], fun j l hl => ?_⟩
  · refine Option.bind_eq_some_iff.mpr ⟨⟨mo', me'⟩, hmaps, ?_⟩
    rw [(added_addPoints pts).linesVertical, hmap]
    rfl
  · rw [List.getElem?_map] at hl
    obtain ⟨e, he, rfl⟩ := Option.map_eq_some_iff.mp hl
    obtain ⟨q, hq⟩ := hcolumn e (List.mem_of_getElem? he)
    have hj : col q = j := by
      have hget : (es.map (columnOf col))[j]? = some (col q) := by
        rw [List.getElem?_map, he, Option.map_some, hq.columnOf_eq]
      rw [hrange, List.getElem?_eq_some_iff] at hget
      obtain ⟨hlt, hget⟩ := hget
      rw [List.getElem_range] at hget
      exact hget.symm
    rw [← hj]
    exact ⟨hq.subgrid, hq.line⟩

/-! ## The whole run -/

/-- **`finalize` finds the lines of the array**, numbered as in the array, and links every point to them. -/
theorem finalize_detects (S : StdSort) (hR : 8 ≤ A.rows) :
    ∃ g, (addPoints pts).finalize S = some g ∧ A.Detected pts row col g := by
  obtain ⟨hor, hhor, halt, hrows⟩ := horizontalLines_rows (jittered_of_shows hA) S hA.constructs hA.rowMet
  obtain ⟨vert, hvert, hcolumns, hcols⟩ := verticalLines_inOrder hA S hR hrows
  have hrowOf : ∀ p < pts.length, ∃ l, hor[row p]? = some l ∧ p ∈ l.line := by
    intro p hp
    have hlt : row p < hor.length := by
      rw [hrows.length]
      exact hA.row_lt p hp
    exact ⟨hor[row p], List.getElem?_eq_getElem hlt, (hrows.mem _ _ (List.getElem?_eq_getElem hlt) p).mpr ⟨hp, rfl⟩⟩
  have hcolOf : ∀ p < pts.length, ∃ l, vert[col p]? = some l ∧ p ∈ l.line := by
    intro p hp
    have hlt : col p < vert.length := by
      rw [hcolumns]
      exact hA.col_lt p hp
    exact ⟨vert[col p], List.getElem?_eq_getElem hlt, ((hcols _ _ (List.getElem?_eq_getElem hlt)).2 p).mpr ⟨hp, rfl⟩⟩
  have hmem_hor : ∀ p < pts.length, p ∈ linePoints hor := by
    intro p hp
    obtain ⟨l, hl, hpl⟩ := hrowOf p hp
    exact mem_linePoints.mpr ⟨l, List.mem_of_getElem? hl, hpl⟩
  have hmem_vert : ∀ p, p ∈ linePoints vert ↔ p < pts.length := by
    intro p
    constructor
    · intro hp
      obtain ⟨l, hl, hpl⟩ := mem_linePoints.mp hp
      obtain ⟨j, hj⟩ := List.getElem?_of_mem hl
      exact (((hcols j l hj).2 p).mp hpl).1
    · intro hp
      obtain ⟨l, hl, hpl⟩ := hcolOf p hp
      exact mem_linePoints.mpr ⟨l, List.mem_of_getElem? hl, hpl⟩
  have hstorage : ∀ p, p ∈ (addPoints pts).storage ↔ p < pts.length := by
    intro p
    rw [← AList.lookup_isSome, (added_addPoints pts).lookup]
    simp
  obtain ⟨g, hg⟩ := finalize_ne_none hhor hvert fun p hp => by
    rw [hmem_vert] at hp
    exact ⟨hmem_hor p hp, (hstorage p).mpr hp⟩
  obtain ⟨hor', vert', hfin⟩ := finalize_some hg
  obtain rfl : hor = hor' := Option.some.inj (hhor.symm.trans hfin.horizontal)
  obtain rfl : vert = vert' := Option.some.inj (hvert.symm.trans hfin.vertical)
  have hstored : ∀ p, p ∈ g.storage ↔ p < pts.length := by
    intro p
    rw [hfin.stored, hstorage, hmem_vert]
    exact ⟨fun h => h.1, fun h => ⟨h, hmem_hor p h, h⟩⟩
  have hrowLine : ∀ i l, g.linesHorizontal[i]? = some l →
      l.subgrid = parityGrid i ∧ ∀ p, p ∈ l.line ↔ p < pts.length ∧ row p = i := by
    intro i l hl
    rw [hfin.linesHorizontal, List.getElem?_map] at hl
    obtain ⟨l₀, hl₀, rfl⟩ := Option.map_eq_some_iff.mp hl
    refine ⟨halt i l₀ hl₀, fun p => ?_⟩
    -- the clean-up drops nothing
    show p ∈ l₀.line.filter _ ↔ _
    rw [List.mem_filter, decide_eq_true_eq, hmem_vert, hrows.mem i l₀ hl₀]
    exact ⟨fun h => h.1, fun h => ⟨h, h.1⟩⟩
  have hcolumnLine : ∀ j l, g.linesVertical[j]? = some l →
      l.subgrid = parityGrid j ∧ ∀ p, p ∈ l.line ↔ p < pts.length ∧ col p = j := by
    rw [hfin.linesVertical]
    exact hcols
  have hlength : g.linesHorizontal.length = A.rows := by
    rw [hfin.linesHorizontal, List.length_map]
    exact hrows.length
  refine ⟨g, hg, hlength, by rw [hfin.linesVertical, hcolumns], hrowLine, hcolumnLine, hstored, ?_, ?_⟩
  · intro p pt hpt
    have hp := (List.getElem?_eq_some_iff.mp hpt).1
    rw [hfin.position p ((hstored p).mpr hp), position_addPoints hpt]
  · intro p hp
    constructor
    · obtain ⟨l, hl, hpl⟩ := hrowOf p hp
      obtain ⟨l', hl', hpl'⟩ : ∃ l', g.linesHorizontal[row p]? = some l' ∧ p ∈ l'.line := by
        have hlt : row p < g.linesHorizontal.length := by
          rw [hlength]
          exact hA.row_lt p hp
        exact ⟨_, List.getElem?_eq_getElem hlt, ((hrowLine _ _ (List.getElem?_eq_getElem hlt)).2 p).mpr ⟨hp, rfl⟩⟩
      exact hfin.horizontalLink p (row p) l' (lineHolders_le_one_iff.mpr fun i j _ _ hi hj h h' =>
        (((hrowLine i _ hi).2 p).mp h).2.symm.trans (((hrowLine j _ hj).2 p).mp h').2) hl' hpl'
    · obtain ⟨l, hl, hpl⟩ := hcolOf p hp
      have hl' : g.linesVertical[col p]? = some l := by rw [hfin.linesVertical, hl]
      exact hfin.verticalLink p (col p) l
        (lineHolders_le_one_iff.mpr fun i j _ _ hi hj h h' =>
        (((hcolumnLine i _ hi).2 p).mp h).2.symm.trans (((hcolumnLine j _ hj).2 p).mp h').2) hl' hpl

end Image

end PointGrid

/-! ## The line grid -/

namespace LensArray

/-- The lines of one direction: the average of two and more points near a centre is near it. -/
theorem lines_near {n : ℕ} {lines : List PointGrid.Line} {index : ℕ → ℕ} {centre : ℕ → ℚ} {coord : Ptr → ℚ}
    {position : List Ptr → Option ℚ}
    (hline : ∀ i l, lines[i]? = some l → l.subgrid = parityGrid i ∧ ∀ p, p ∈ l.line ↔ p < n ∧ index p = i)
    (hnear : ∀ p < n, |coord p - centre (index p)| < 3 / 2)
    (htwo : ∀ i < lines.length, ∃ p < n, ∃ q < n, p ≠ q ∧ index p = i ∧ index q = i)
    (hreal : ∀ l : List Ptr, 2 ≤ l.length → LineGrid.RealAverage (position l) (l.map coord)) :
    ∃ rs, lines.mapM (fun line => do
        let a ← position line.line
        return LineGrid.Line.mk line.subgrid a) = some rs ∧ LinesNear lines.length centre rs := by
  have hpos : ∀ i l, lines[i]? = some l → ∃ a, position l.line = some a ∧ |a - centre i| < 3 / 2 := by
    intro i l hl
    obtain ⟨p, hp, q, hq, hne, hpi, hqi⟩ := htwo i (List.getElem?_eq_some_iff.mp hl).1
    have hmem := (hline i l hl).2
    have hlen : 2 ≤ l.line.length := by
      have hsub : [p, q] ⊆ l.line := by
        intro x hx
        rcases List.mem_pair.mp hx with rfl | rfl
        · exact (hmem x).mpr ⟨hp, hpi⟩
        · exact (hmem x).mpr ⟨hq, hqi⟩
      exact (List.subperm_of_subset (by simpa using hne) hsub).length_le
    have hall : ∀ c ∈ l.line.map coord, |c - centre i| < 3 / 2 := by
      intro c hc
      obtain ⟨x, hx, rfl⟩ := List.mem_map.mp hc
      obtain ⟨hxn, rfl⟩ := (hmem x).mp hx
      exact hnear x hxn
    obtain ⟨a, ha, ⟨lo, hlo, hle⟩, hi, hhi, hge⟩ := hreal l.line hlen
    have h₁ := abs_lt.mp (hall lo hlo)
    have h₂ := abs_lt.mp (hall hi hhi)
    refine ⟨a, ha, ?_⟩
    rw [abs_lt]
    constructor
    · linarith [h₁.1]
    · linarith [h₂.2]
  obtain ⟨rs, hrs⟩ := mapM_defined_iff.mpr fun l hl => by
    obtain ⟨i, hi⟩ := List.getElem?_of_mem hl
    obtain ⟨a, ha, -⟩ := hpos i l hi
    exact ⟨LineGrid.Line.mk l.subgrid a, Option.bind_eq_some_iff.mpr ⟨a, ha, rfl⟩⟩
  refine ⟨rs, hrs, mapM_length hrs, fun i r hr => ?_⟩
  have hi : i < lines.length := by
    rw [← mapM_length hrs]
    exact (List.getElem?_eq_some_iff.mp hr).1
  obtain ⟨r', hr', hget⟩ := mapM_getElem? hrs (List.getElem?_eq_getElem hi)
  obtain rfl := Option.some.inj (hr.symm.trans hget)
  obtain ⟨a, ha, hclose⟩ := hpos i _ (List.getElem?_eq_getElem hi)
  obtain ⟨a', ha', hline'⟩ := Option.bind_eq_some_iff.mp hr'
  obtain rfl := Option.some.inj (ha.symm.trans ha')
  obtain rfl := Option.some.inj hline'
  exact ⟨(hline i _ (List.getElem?_eq_getElem hi)).1, hclose⟩

/-- **The line grid** of a detected image is near the array. -/
theorem ofPointGrid_near {A : LensArray} {pts : List Point2f} {row col : ℕ → ℕ} {stop : ℕ} {g : PointGrid}
    (hA : A.Shows pts row col stop) (hpop : A.Populated pts row col) (hg : A.Detected pts row col g) :
    ∃ grid, LineGrid.ofPointGrid g = some grid ∧ A.Near grid := by
  have hposition : ∀ p (hp : p < pts.length), PointGrid.position g.storage p = pts[p] := fun p hp =>
    hg.position p _ (List.getElem?_eq_getElem hp)
  have hrow : ∀ p < pts.length, |(PointGrid.position g.storage p).x - A.rowCentre (row p)| < 3 / 2 := by
    intro p hp
    rw [hposition p hp]
    exact hA.near_row p _ (List.getElem?_eq_getElem hp)
  have hcol : ∀ p < pts.length, |(PointGrid.position g.storage p).y - A.columnCentre (col p)| < 3 / 2 := by
    intro p hp
    rw [hposition p hp]
    exact hA.near_col p _ (List.getElem?_eq_getElem hp)
  obtain ⟨hs, hhs, hhnear⟩ := lines_near hg.rowLine hrow (by rw [hg.rows]; exact hpop.rows)
    fun l hl => LineGrid.horizontalPosition_between g hl
  obtain ⟨vs, hvs, hvnear⟩ := lines_near hg.columnLine hcol (by rw [hg.columns]; exact hpop.columns)
    fun l hl => LineGrid.verticalPosition_between g hl
  rw [hg.rows] at hhnear
  rw [hg.columns] at hvnear
  refine ⟨⟨hs, vs⟩, ?_, hhnear, hvnear⟩
  exact Option.bind_eq_some_iff.mpr ⟨hs, hhs, Option.bind_eq_some_iff.mpr ⟨vs, hvs, rfl⟩⟩

/-- **One image**, in any order of its points: the lines are those of the array, in its order, the points are
linked to them, and their positions are near the centres. -/
theorem finalize_lensArray (S : StdSort) (A : LensArray) (hR : 8 ≤ A.rows) (pts : List Point2f) (row col : ℕ → ℕ)
    (stop : ℕ) (hA : A.Shows pts row col stop) (hpop : A.Populated pts row col) :
    ∃ g grid, (addPoints pts).finalize S = some g ∧ A.Detected pts row col g ∧
      LineGrid.ofPointGrid g = some grid ∧ A.Near grid := by
  obtain ⟨g, hg, hdet⟩ := finalize_detects hA S hR
  obtain ⟨grid, hgrid, hnear⟩ := ofPointGrid_near hA hpop hdet
  exact ⟨g, grid, hg, hdet, hgrid, hnear⟩

theorem sixColumns_gap (i : ℕ) : 10 * (i : ℚ) + 6 < 10 * ((i + 1 : ℕ) : ℚ) := by
  push_cast
  linarith

/-- Eight rows and six columns, 10 pixels apart. -/
def sixColumns : LensArray where
  rows := 8
  rowCentre i := 10 * i
  rowGap i _ := sixColumns_gap i
  columns := 6
  columnCentre j := 10 * j
  columnGap j _ := sixColumns_gap j

def sixColumnsCol (p : ℕ) : ℕ := p / 4

def sixColumnsRow (p : ℕ) : ℕ := 2 * (p % 4) + p / 4 % 2

/-- The points of `sixColumns`, column by column, all `d` pixels off. -/
def sixColumnsPoints (d : ℚ) : List Point2f :=
  (List.range 24).map fun p => ⟨10 * sixColumnsRow p + d, 10 * sixColumnsCol p - d⟩

theorem sixColumns_point {d : ℚ} {p : ℕ} {pt : Point2f} (h : (sixColumnsPoints d)[p]? = some pt) :
    p < 24 ∧ pt = ⟨10 * sixColumnsRow p + d, 10 * sixColumnsCol p - d⟩ := by
  unfold sixColumnsPoints at h
  rw [List.getElem?_map] at h
  obtain ⟨k, hk, rfl⟩ := Option.map_eq_some_iff.mp h
  obtain ⟨hlt, hk⟩ := List.getElem?_eq_some_iff.mp hk
  rw [List.length_range] at hlt
  rw [List.getElem_range] at hk
  subst hk
  exact ⟨hlt, rfl⟩

theorem sixColumnsPoints_length (d : ℚ) : (sixColumnsPoints d).length = 24 := by
  unfold sixColumnsPoints
  rw [List.length_map, List.length_range]

theorem sixColumns_shows {d : ℚ} (hd : |d| < 3 / 2) :
    sixColumns.Shows (sixColumnsPoints d) sixColumnsRow sixColumnsCol 16 where
  row_lt p hp := by
    show 2 * (p % 4) + p / 4 % 2 < 8
    omega
  col_lt p hp := by
    rw [sixColumnsPoints_length] at hp
    show p / 4 < 6
    omega
  crossing p hp := by
    show p / 4 % 2 = (2 * (p % 4) + p / 4 % 2) % 2
    omega
  near_row p pt hpt := by
    obtain ⟨-, rfl⟩ := sixColumns_point hpt
    show |10 * (sixColumnsRow p : ℚ) + d - 10 * (sixColumnsRow p : ℚ)| < 3 / 2
    rwa [add_sub_cancel_left]
  near_col p pt hpt := by
    obtain ⟨-, rfl⟩ := sixColumns_point hpt
    show |10 * (sixColumnsCol p : ℚ) - d - 10 * (sixColumnsCol p : ℚ)| < 3 / 2
    rwa [sub_sub_cancel_left, abs_neg]
  constructs := by
    have hcol : ∀ p, sixColumnsCol p = p / 4 := fun _ => rfl
    refine ⟨by rw [sixColumnsPoints_length]; decide, ⟨10 * sixColumnsRow 8 + d, 10 * sixColumnsCol 8 - d⟩,
      ⟨10 * sixColumnsRow 16 + d, 10 * sixColumnsCol 16 - d⟩, by rw [sixColumnsPoints_length]; rfl, rfl, ?_, ?_⟩
    · show 10 * ((2 : ℕ) : ℚ) - d + 20 ≤ 10 * ((4 : ℕ) : ℚ) - d
      push_cast
      linarith
    · intro p pt _ hlt hpt
      obtain ⟨-, rfl⟩ := sixColumns_point hpt
      show 10 * (sixColumnsCol p : ℚ) - d < 10 * ((2 : ℕ) : ℚ) - d + 20
      have hle : (sixColumnsCol p : ℚ) ≤ 3 := by
        have : sixColumnsCol p ≤ 3 := by
          rw [hcol]
          omega
        exact_mod_cast this
      push_cast
      linarith
  rowMet i hi := by
    rw [sixColumnsPoints_length]
    have hrow : ∀ i < 8, ∃ p < 16, 24 / 3 ≤ p ∧ sixColumnsRow p = i := by decide
    obtain ⟨p, hlt, hge, hp⟩ := hrow i hi
    exact ⟨p, hge, hlt, hp⟩
  colMet j hj := by
    rw [sixColumnsPoints_length]
    have hcol : ∀ j < 6, ∃ q < 24, sixColumnsCol q = j ∧ 8 / 3 ≤ sixColumnsRow q ∧ sixColumnsRow q < 8 / 3 + 6 := by
      decide
    exact hcol j hj

theorem sixColumns_populated (d : ℚ) : sixColumns.Populated (sixColumnsPoints d) sixColumnsRow sixColumnsCol where
  rows := by
    rw [sixColumnsPoints_length]
    have hrow : ∀ i < 8, ∃ p < 24, ∃ q < 24, p ≠ q ∧ sixColumnsRow p = i ∧ sixColumnsRow q = i := by decide
    exact hrow
  columns := by
    rw [sixColumnsPoints_length]
    have hcol : ∀ j < 6, ∃ p < 24, ∃ q < 24, p ≠ q ∧ sixColumnsCol p = j ∧ sixColumnsCol q = j := by decide
    exact hcol

theorem finalize_lensArray_sixColumns :
    ∃ g grid, (addPoints (sixColumnsPoints 1)).finalize .insertion = some g ∧
      sixColumns.Detected (sixColumnsPoints 1) sixColumnsRow sixColumnsCol g ∧
      LineGrid.ofPointGrid g = some grid ∧ sixColumns.Near grid :=
  finalize_lensArray .insertion sixColumns (by decide) (sixColumnsPoints 1) sixColumnsRow sixColumnsCol 16
    (sixColumns_shows (by norm_num)) (sixColumns_populated 1)

end LensArray

end Lyli.Calibration
