import Mathlib
import Lyli.Calibration.PointGridFinalized

/-!
# Copies of points and of grids

A grid is copied point by point to fresh addresses, and the lines are rebuilt
through the map from old to new addresses; an address that is not in the map
would give a null entry.  After `finalize` every line entry is in storage, so the
copy is the same grid at other addresses:

    finalize = some g  →  FreshCopy g (copyGrid …) ∧ FreshCopy g (assignGrid …)     (copyGrid_fresh)

`Point::operator=` swaps with a temporary, and `std::swap` assigns points again.
Between different points it never returns:

    p ≠ q  →  assignPoint fuel st p q = .error .outOfFuel                           (assignPoint_diverges)
-/

namespace Lyli.Calibration.PointGrid

/-- `new`: an address that is not in use. -/
structure Allocator where
  new : List Ptr → Ptr
  new_notMem : ∀ live, new live ∉ live

namespace Allocator

/-- The address above all those in use. -/
def above : Allocator where
  new live := live.foldr (fun p n => max (p + 1) n) 0
  new_notMem _ h := lt_irrefl _ (lt_foldr_max h)

end Allocator

/-! ## Points -/

/-- `Point::Point(const Point &)`. -/
def copyPoint (point : Point) : Point := ⟨point.position, point.horizontalLine, point.verticalLine⟩

@[simp] theorem copyPoint_eq (point : Point) : copyPoint point = point := rfl

/-- Why a call does not give a result. -/
inductive Stuck
  | outOfFuel
  | dangling
deriving DecidableEq

def load (storage : PointStore) (p : Ptr) : Except Stuck Point :=
  match storage.lookup p with
  | some point => .ok point
  | none => .error .dangling

/-- `std::swap(a, b)`: a copy of `a`, and two assignments. -/
def swapPoints (A : Allocator) (assign : PointStore → Ptr → Ptr → Except Stuck PointStore) (storage : PointStore)
    (a b : Ptr) : Except Stuck PointStore := do
  let value ← load storage a
  let tmp := A.new storage.keys
  let storage ← assign (storage.insert tmp (copyPoint value)) a b
  let storage ← assign storage b tmp
  return storage.erase tmp

/-- `Point::operator=`, to a depth of `fuel` calls. -/
def assignPoint (A : Allocator) : ℕ → PointStore → Ptr → Ptr → Except Stuck PointStore
  | 0, _, _, _ => .error .outOfFuel
  | fuel + 1, storage, this, point =>
    if this ≠ point then do
      let value ← load storage point
      let tmp := A.new storage.keys
      let storage ← swapPoints A (assignPoint A fuel) (storage.insert tmp (copyPoint value)) tmp this
      return storage.erase tmp
    else .ok storage

/-- `p = q` returns, `p` is what `q` was and `q` is unchanged. -/
def AssignsPoint (A : Allocator) (storage : PointStore) (p q : Ptr) : Prop :=
  ∃ fuel storage', assignPoint A fuel storage p q = .ok storage' ∧ storage'.lookup q = storage.lookup q ∧
    ∃ x y, storage.lookup q = some x ∧ storage'.lookup p = some y ∧ y.position = x.position ∧
      y.horizontalLine = x.horizontalLine ∧ y.verticalLine = x.verticalLine

section Assign

variable (A : Allocator) {storage : PointStore} {p q : Ptr}

theorem load_of_mem (h : p ∈ storage) : ∃ point, load storage p = .ok point := by
  obtain ⟨point, hpoint⟩ := Option.isSome_iff_exists.mp (AList.lookup_isSome.mpr h)
  exact ⟨point, by simp only [load, hpoint]⟩

theorem new_ne (h : p ∈ storage) : p ≠ A.new storage.keys := by
  intro heq
  exact A.new_notMem storage.keys (heq ▸ h)

/-- Assignment of a point to itself returns at once. -/
theorem assignPoint_self (fuel : ℕ) : assignPoint A (fuel + 1) storage p p = .ok storage := by
  simp [assignPoint]

/-- A swap is stuck where its first assignment is. -/
theorem swapPoints_stuck {assign : PointStore → Ptr → Ptr → Except Stuck PointStore} {e : Stuck} (hp : p ∈ storage)
    (h : ∀ storage' : PointStore, (∀ x ∈ storage, x ∈ storage') → assign storage' p q = .error e) :
    swapPoints A assign storage p q = .error e := by
  obtain ⟨value, hvalue⟩ := load_of_mem hp
  have hfirst : assign (storage.insert (A.new storage.keys) (copyPoint value)) p q = .error e := by
    apply h
    intro x hx
    exact (AList.mem_insert storage).mpr (Or.inr hx)
  unfold swapPoints
  rw [hvalue]
  show (assign (storage.insert (A.new storage.keys) (copyPoint value)) p q >>= _) = _
  rw [hfirst]
  rfl

/-- **An assignment between two points assigns between two points.**  The temporary of each call
is a point of its own, so no depth of calls is enough. -/
theorem assignPoint_diverges (fuel : ℕ) (hp : p ∈ storage) (hq : q ∈ storage) (hne : p ≠ q) :
    assignPoint A fuel storage p q = .error .outOfFuel := by
  induction fuel generalizing storage p q with
  | zero => rfl
  | succ fuel ih =>
    obtain ⟨value, hvalue⟩ := load_of_mem hq
    let tmp := A.new storage.keys
    have hswap : swapPoints A (assignPoint A fuel) (storage.insert tmp (copyPoint value)) tmp p =
        .error .outOfFuel := by
      apply swapPoints_stuck A ((AList.mem_insert storage).mpr (Or.inl rfl))
      intro storage' hkeep
      have htmp : tmp ∈ storage' := hkeep tmp ((AList.mem_insert storage).mpr (Or.inl rfl))
      have hthis : p ∈ storage' := hkeep p ((AList.mem_insert storage).mpr (Or.inr hp))
      exact ih htmp hthis (new_ne A hp).symm
    unfold assignPoint
    rw [if_pos hne, hvalue]
    show (swapPoints A (assignPoint A fuel) (storage.insert tmp (copyPoint value)) tmp p >>= _) = _
    rw [hswap]
    rfl

/-- **Assignment between different points never returns**, whatever the points hold. -/
theorem assignPoint_never (A : Allocator) (storage : PointStore) (p q : Ptr) (hp : p ∈ storage) (hq : q ∈ storage)
    (hne : p ≠ q) :
    (∀ fuel, assignPoint A fuel storage p q = .error .outOfFuel) ∧ ¬ AssignsPoint A storage p q := by
  have hall := fun fuel => assignPoint_diverges A fuel hp hq hne
  refine ⟨hall, ?_⟩
  rintro ⟨fuel, storage', hret, -⟩
  rw [hall fuel] at hret
  cases hret

/-- Two points. -/
def twoPoints : PointStore := (addPoints [⟨1, 2⟩, ⟨3, 4⟩]).storage

theorem assignPoint_never_twoPoints :
    (∀ fuel, assignPoint .above fuel twoPoints 0 1 = .error .outOfFuel) ∧ ¬ AssignsPoint .above twoPoints 0 1 :=
  assignPoint_never .above twoPoints 0 1 (by decide +kernel) (by decide +kernel) (by decide)

/-- Assigning the second of two points to the first. -/
theorem twoPoints_not_assigned : ¬ AssignsPoint .above twoPoints 0 1 := by
  rintro ⟨fuel, storage', hret, -⟩
  rw [assignPoint_diverges .above fuel (by decide +kernel) (by decide +kernel) (by decide)] at hret
  cases hret

end Assign

/-! ## Grids -/

abbrev Entry := Sigma fun _ : Ptr => Point

/-- The order in which a loop visits the entries of an unordered map. -/
structure Traversal (storage : PointStore) where
  entries : List Entry
  perm : entries.Perm storage.entries

/-- A line of a copy.  `none` is a null pointer. -/
structure CopiedLine where
  subgrid : SubGrid
  line : List (Option Ptr)
deriving DecidableEq

structure CopiedGrid where
  accumulator : List Ptr
  storage : PointStore
  linesHorizontal : List CopiedLine
  linesVertical : List CopiedLine

/-- The storage of the new grid and `pointMap`. -/
structure CopyState where
  storage : PointStore
  pointMap : AList fun _ : Ptr => Ptr

/-- Create a copy of a point.  The addresses in `live` are in use. -/
def addCopy (A : Allocator) (live : List Ptr) (s : CopyState) (entry : Entry) : CopyState :=
  let point := A.new (live ++ s.storage.keys)
  ⟨s.storage.insert point (copyPoint entry.2), s.pointMap.insert entry.1 point⟩

/-- `pointMap[point]` of an unknown point is null, now and at every later read. -/
def copyLine (pointMap : AList fun _ : Ptr => Ptr) (line : Line) : CopiedLine :=
  ⟨line.subgrid, line.line.map fun point => pointMap.lookup point⟩

/-- `PointGrid::PointGrid(const PointGrid &)`, while the addresses in `live` are in use elsewhere. -/
def copyGrid (A : Allocator) (live : List Ptr) (other : PointGrid) (order : Traversal other.storage) : CopiedGrid :=
  let s := order.entries.foldl (addCopy A (live ++ other.storage.keys)) ⟨∅, ∅⟩
  { accumulator := []
    storage := s.storage
    linesHorizontal := other.linesHorizontal.map (copyLine s.pointMap)
    linesVertical := other.linesVertical.map (copyLine s.pointMap) }

/-- `PointGrid::operator=`. -/
def assignGrid (A : Allocator) (live : List Ptr) (this : CopiedGrid) (other : PointGrid)
    (order : Traversal other.storage) : CopiedGrid :=
  let tmp := copyGrid A (live ++ this.storage.keys) other order
  { this with
    storage := tmp.storage
    linesHorizontal := tmp.linesHorizontal
    linesVertical := tmp.linesVertical }

/-! ## Fresh addresses -/

/-- The entries visited so far are in the new storage, each at an address of its own outside `live`. -/
structure Relocated (live : List Ptr) (visited : List Entry) (s : CopyState) : Prop where
  moved : ∀ e ∈ visited, ∃ q, s.pointMap.lookup e.1 = some q ∧ s.storage.lookup q = some e.2
  target : ∀ p q, s.pointMap.lookup p = some q → q ∈ s.storage
  apart : ∀ q ∈ s.storage, q ∉ live
  injective : ∀ p p' q, s.pointMap.lookup p = some q → s.pointMap.lookup p' = some q → p = p'

section Relocated

variable {A : Allocator} {live : List Ptr} {s : CopyState}

theorem relocated_addCopy {visited : List Entry} {e : Entry} (h : Relocated live visited s)
    (hnew : e.1 ∉ visited.map Sigma.fst) : Relocated live (visited ++ [e]) (addCopy A live s e) := by
  have hfresh := A.new_notMem (live ++ s.storage.keys)
  set new := A.new (live ++ s.storage.keys) with hnew_def
  have hlive : new ∉ live := fun hmem => hfresh (List.mem_append_left _ hmem)
  have hfree : new ∉ s.storage := fun hmem => hfresh (List.mem_append_right _ hmem)
  have hstate : addCopy A live s e = ⟨s.storage.insert new e.2, s.pointMap.insert e.1 new⟩ := rfl
  -- an address read from the new map is the new one, or was read from the old map
  have hread : ∀ p q, (s.pointMap.insert e.1 new).lookup p = some q →
      (p = e.1 ∧ q = new) ∨ s.pointMap.lookup p = some q := by
    intro p q hpq
    by_cases hp : p = e.1
    · rw [hp, AList.lookup_insert] at hpq
      exact Or.inl ⟨hp, (Option.some.inj hpq).symm⟩
    · rw [AList.lookup_insert_ne hp] at hpq
      exact Or.inr hpq
  rw [hstate]
  constructor
  case moved =>
    intro a ha
    rcases List.mem_append.mp ha with ha | ha
    · obtain ⟨q, hq, hstored⟩ := h.moved a ha
      have hne : a.1 ≠ e.1 := fun heq => hnew (List.mem_map.mpr ⟨a, ha, heq⟩)
      have hqnew : q ≠ new := fun heq => hfree (heq ▸ h.target _ _ hq)
      exact ⟨q, (AList.lookup_insert_ne hne).trans hq, (AList.lookup_insert_ne hqnew).trans hstored⟩
    · obtain rfl := List.mem_singleton.mp ha
      exact ⟨new, AList.lookup_insert _, AList.lookup_insert _⟩
  case target =>
    intro p q hpq
    rw [AList.mem_insert]
    rcases hread p q hpq with ⟨-, hq⟩ | hpq
    · exact Or.inl hq
    · exact Or.inr (h.target p q hpq)
  case apart =>
    intro q hq
    rcases (AList.mem_insert _).mp hq with rfl | hq
    · exact hlive
    · exact h.apart q hq
  case injective =>
    intro p p' q hp hp'
    rcases hread p q hp with ⟨hpe, hq⟩ | hp <;> rcases hread p' q hp' with ⟨hpe', hq'⟩ | hp'
    · rw [hpe, hpe']
    · exact absurd (hq ▸ h.target p' q hp') hfree
    · exact absurd (hq' ▸ h.target p q hp) hfree
    · exact h.injective p p' q hp hp'

theorem relocated_foldl (entries : List Entry) {visited : List Entry} (h : Relocated live visited s)
    (hnodup : ((visited ++ entries).map Sigma.fst).Nodup) :
    Relocated live (visited ++ entries) (entries.foldl (addCopy A live) s) := by
  induction entries generalizing visited s with
  | nil => simpa using h
  | cons e entries ih =>
    have hsplit : visited ++ e :: entries = (visited ++ [e]) ++ entries := by simp
    have hnew : e.1 ∉ visited.map Sigma.fst := by
      rw [List.map_append, List.map_cons, List.nodup_append] at hnodup
      intro hmem
      exact hnodup.2.2 e.1 hmem e.1 List.mem_cons_self rfl
    rw [hsplit] at hnodup ⊢
    exact ih (relocated_addCopy h hnew) hnodup

end Relocated

/-- **The point map of a copy.** -/
theorem relocated_copy (A : Allocator) (live : List Ptr) {storage : PointStore} (order : Traversal storage) :
    Relocated live storage.entries (order.entries.foldl (addCopy A live) ⟨∅, ∅⟩) := by
  have hempty : Relocated live [] ⟨∅, ∅⟩ := by
    constructor <;> simp
  have hnodup : (([] ++ order.entries).map Sigma.fst).Nodup := (order.perm.map _).nodup_iff.mpr storage.keys_nodup
  have h := relocated_foldl (A := A) order.entries hempty hnodup
  exact ⟨fun e he => h.moved e (order.perm.mem_iff.mpr he), h.target, h.apart, h.injective⟩

/-! ## The copy of a finalised grid -/

/-- The `k`-th entry of the `i`-th line, the horizontal lines first. -/
def entryAt (g : PointGrid) (i k : ℕ) : Option Ptr :=
  (g.linesHorizontal ++ g.linesVertical)[i]?.bind fun l => l.line[k]?

def CopiedGrid.entryAt (c : CopiedGrid) (i k : ℕ) : Option (Option Ptr) :=
  (c.linesHorizontal ++ c.linesVertical)[i]?.bind fun l => l.line[k]?

/-- `c` is `g` over points of its own: lines of the same subgrids and lengths, entries that are points of
`c` with the same position and line indices as in `g`, equal exactly where those of `g` are. -/
structure FreshCopy (g : PointGrid) (c : CopiedGrid) : Prop where
  horizontal : c.linesHorizontal.map (fun l => (l.subgrid, l.line.length)) =
    g.linesHorizontal.map fun l => (l.subgrid, l.line.length)
  vertical : c.linesVertical.map (fun l => (l.subgrid, l.line.length)) =
    g.linesVertical.map fun l => (l.subgrid, l.line.length)
  entry : ∀ i k p, entryAt g i k = some p → ∃ q x y, c.entryAt i k = some (some q) ∧ q ∉ g.storage ∧
    g.storage.lookup p = some x ∧ c.storage.lookup q = some y ∧ y.position = x.position ∧
    y.horizontalLine = x.horizontalLine ∧ y.verticalLine = x.verticalLine
  pattern : ∀ i k i' k' p p' q q', entryAt g i k = some p → entryAt g i' k' = some p' →
    c.entryAt i k = some q → c.entryAt i' k' = some q' → (q = q' ↔ p = p')

theorem mem_of_entryAt {g : PointGrid} {i k : ℕ} {p : Ptr} (h : entryAt g i k = some p) :
    p ∈ linePoints (g.linesHorizontal ++ g.linesVertical) := by
  obtain ⟨l, hl, hp⟩ := Option.bind_eq_some_iff.mp h
  exact mem_linePoints.mpr ⟨l, List.mem_of_getElem? hl, List.mem_of_getElem? hp⟩

section Copied

variable {A : Allocator} {live : List Ptr} {g : PointGrid} {order : Traversal g.storage}

/-- The map from old to new addresses that a copy makes. -/
def pointMap (A : Allocator) (live : List Ptr) (g : PointGrid) (order : Traversal g.storage) :
    AList fun _ : Ptr => Ptr :=
  (order.entries.foldl (addCopy A (live ++ g.storage.keys)) ⟨∅, ∅⟩).pointMap

/-- Every entry is read through the point map. -/
theorem entryAt_copyGrid (i k : ℕ) : (copyGrid A live g order).entryAt i k =
    (entryAt g i k).map fun p => (pointMap A live g order).lookup p := by
  show ((g.linesHorizontal.map (copyLine (pointMap A live g order)) ++
    g.linesVertical.map (copyLine (pointMap A live g order)))[i]?.bind fun l => l.line[k]?) = _
  unfold entryAt
  rw [← List.map_append, List.getElem?_map]
  cases (g.linesHorizontal ++ g.linesVertical)[i]? with
  | none => rfl
  | some l => exact List.getElem?_map

theorem shape_copyLine (m : AList fun _ : Ptr => Ptr) (lines : List Line) :
    (lines.map (copyLine m)).map (fun l => (l.subgrid, l.line.length)) =
      lines.map fun l => (l.subgrid, l.line.length) := by
  rw [List.map_map]
  apply List.map_congr_left
  intro l _
  simp [copyLine]

/-- **A copy of a grid whose line entries are all in storage.** -/
theorem freshCopy_of_stored (hstored : ∀ p ∈ linePoints (g.linesHorizontal ++ g.linesVertical), p ∈ g.storage) :
    FreshCopy g (copyGrid A live g order) := by
  have hmap := relocated_copy A (live ++ g.storage.keys) order
  -- where the point of an entry went
  have hentry : ∀ {i k p}, entryAt g i k = some p → ∃ q x, (pointMap A live g order).lookup p = some q ∧
      g.storage.lookup p = some x ∧ (copyGrid A live g order).storage.lookup q = some x := by
    intro i k p hp
    obtain ⟨x, hx⟩ := Option.isSome_iff_exists.mp (AList.lookup_isSome.mpr (hstored p (mem_of_entryAt hp)))
    have hmem : (⟨p, x⟩ : Entry) ∈ g.storage.entries := AList.mem_lookup_iff.mp hx
    obtain ⟨q, hq, hcopy⟩ := hmap.moved ⟨p, x⟩ hmem
    exact ⟨q, x, hq, hx, hcopy⟩
  constructor
  case horizontal => exact shape_copyLine _ _
  case vertical => exact shape_copyLine _ _
  case entry =>
    intro i k p hp
    obtain ⟨q, x, hq, hx, hcopy⟩ := hentry hp
    have hapart : q ∉ g.storage := fun hmem => hmap.apart q (hmap.target p q hq) (List.mem_append_right _ hmem)
    refine ⟨q, x, x, ?_, hapart, hx, hcopy, rfl, rfl, rfl⟩
    rw [entryAt_copyGrid, hp, Option.map_some, hq]
  case pattern =>
    intro i k i' k' p p' c c' hp hp' hc hc'
    obtain ⟨q, x, hq, -⟩ := hentry hp
    obtain ⟨q', x', hq', -⟩ := hentry hp'
    rw [entryAt_copyGrid, hp, Option.map_some, hq] at hc
    rw [entryAt_copyGrid, hp', Option.map_some, hq'] at hc'
    obtain rfl := Option.some.inj hc
    obtain rfl := Option.some.inj hc'
    constructor
    · intro heq
      obtain rfl := Option.some.inj heq
      exact hmap.injective p p' q hq hq'
    · rintro rfl
      rw [← hq, ← hq']

end Copied

/-- Assignment takes everything a line refers to from a copy. -/
theorem FreshCopy.of_eq {g : PointGrid} {c c' : CopiedGrid} (h : FreshCopy g c) (hs : c'.storage = c.storage)
    (hh : c'.linesHorizontal = c.linesHorizontal) (hv : c'.linesVertical = c.linesVertical) : FreshCopy g c' := by
  have hat : ∀ i k, c'.entryAt i k = c.entryAt i k := by
    intro i k
    unfold CopiedGrid.entryAt
    rw [hh, hv]
  constructor
  case horizontal => rw [hh, h.horizontal]
  case vertical => rw [hv, h.vertical]
  case entry =>
    intro i k p hp
    rw [hat, hs]
    exact h.entry i k p hp
  case pattern =>
    intro i k i' k' p p' q q' hp hp' hq hq'
    rw [hat] at hq hq'
    exact h.pattern i k i' k' p p' q q' hp hp' hq hq'

/-- **A finalised grid is copied whole**, by the copy constructor and by assignment, whatever addresses
`new` returns and in whatever order the points are visited. -/
theorem copyGrid_fresh {R : Rounding} (S : StdSort) (A : Allocator) (live : List Ptr) (pts : List Point2f) (g : PointGrid)
    (h : (addPoints pts).finalize S = some g) (order : Traversal g.storage) (this : CopiedGrid) :
    FreshCopy g (copyGrid A live g order) ∧ FreshCopy g (assignGrid A live this g order) := by
  have hstored : ∀ p ∈ linePoints (g.linesHorizontal ++ g.linesVertical), p ∈ g.storage := by
    intro p hp
    rw [linePoints_append, List.mem_append] at hp
    rcases hp with hp | hp
    · exact (finalize_linePoints h p).1.mp hp
    · exact (finalize_linePoints h p).2.mp hp
  exact ⟨freshCopy_of_stored hstored, (freshCopy_of_stored hstored).of_eq rfl rfl rfl⟩

section Floats

attribute [local instance] Rounding.ieee

theorem copyGrid_fresh_squareGrid :
    ∃ g, (addPoints squareGrid).finalize .insertion = some g ∧
      FreshCopy g (copyGrid .above [] g ⟨g.storage.entries, .refl _⟩) ∧
      FreshCopy g (assignGrid .above [] ⟨[], ∅, [], []⟩ g ⟨g.storage.entries, .refl _⟩) := by
  obtain ⟨g, hg⟩ := finalize_squareGrid
  exact ⟨g, hg, copyGrid_fresh .insertion .above [] squareGrid g hg _ _⟩

end Floats

end Lyli.Calibration.PointGrid
