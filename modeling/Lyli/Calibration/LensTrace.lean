import Mathlib
import Lyli.Calibration.LensObject

/-!
# What a fill reads and writes

The functions of a fill with a log of the pixels they access in the mask and in
the image (`findCentroidLog_fst`: without the log they are the functions
themselves).  Every access lies in the row at hand, in the columns the search
is limited to, and each row after the first starts left of its end:

    findCentroid keeps to its window, and changes the pixels it accumulates only
      ↔ the call is off the last column and every int of its runs fits, or it is on it     (findCentroid_safe_iff)
-/

namespace Lyli.Calibration.LensDetector

/-! ## The functions with a log -/

/-- The rest of a fill, with the access at `q` before it. -/
def logged {α : Type} (q : ℕ × ℕ) (r : α × List (ℕ × ℕ)) : α × List (ℕ × ℕ) := (r.1, q :: r.2)

/-- `fillLeft`; a pixel is read in the mask, and then read in the image and marked. -/
def fillLeftLog (image : Image8) (y : ℕ) : ℕ → ℕ → Fill → Option ((ℕ × Fill) × List (ℕ × ℕ))
  | 0, startx, f => some ((startx, f), [])
  | n + 1, startx, f => do
    if (← f.mask.loadInt (startx - 1) y) = Mask.object then
      let f ← accumulate image (startx - 1) y f
      (fillLeftLog image y n (startx - 1) f).map (logged (startx - 1, y))
    else some ((startx, f), [(startx - 1, y)])

def fillRightLog (image : Image8) (y : ℕ) : ℕ → ℕ → Fill → Option ((ℕ × Fill) × List (ℕ × ℕ))
  | 0, x, f => some ((x, f), [])
  | n + 1, x, f => do
    if (← f.mask.loadInt x y) = Mask.object then
      let f ← accumulate image x y f
      if image.cols * y + x + 1 < intEnd then (fillRightLog image y n (x + 1) f).map (logged (x, y)) else none
    else some ((x, f), [(x, y)])

def findStartLog (mask : Image8) (y : ℕ) : ℕ → ℕ → Option (Option ℕ × List (ℕ × ℕ))
  | n, startx => do
    if (← mask.loadInt startx y) = Mask.object then some (some startx, [(startx, y)])
    else
      match n with
      | 0 => some (none, [(startx, y)])
      | n + 1 => (findStartLog mask y n (startx + 1)).map (logged (startx, y))

/-- The state at the start of a row, and what is accessed there. -/
structure RowLog where
  y : ℕ
  startx : ℕ
  endx : ℕ
  accesses : List (ℕ × ℕ)

def fillRowsLog (image : Image8) (minx maxx : ℕ) : ℕ → ℕ → ℕ → ℕ → Fill → Option (Fill × List RowLog)
  | 0, _, _, _, f => some (f, [])
  | n + 1, y, startx, endx, f =>
    if intEnd ≤ image.cols * y + endx then none
    else do
      if (← f.mask.loadInt startx y) = Mask.object then
        let ((left, f), lefts) ← fillLeftLog image y (startx - minx) startx f
        let ((x, f), rights) ← fillRightLog image y (maxx - startx) startx f
        let (f, rows) ← fillRowsLog image minx maxx n (y + 1) left (x - 1) f
        return (f, ⟨y, startx, endx, (startx, y) :: lefts ++ rights⟩ :: rows)
      else if endx < startx then none
      else do
        let (found, searched) ← findStartLog f.mask y (endx - startx) startx
        match found with
        | none => return (f, [⟨y, startx, endx, (startx, y) :: searched⟩])
        | some s => do
          let ((x, f), rights) ← fillRightLog image y (maxx - s) s f
          let (f, rows) ← fillRowsLog image minx maxx n (y + 1) s (x - 1) f
          return (f, ⟨y, startx, endx, (startx, y) :: searched ++ rights⟩ :: rows)

/-- `findCentroid`; in the last column nothing is accessed. -/
def findCentroidLog [Rounding] (image mask : Image8) (start : ℕ × ℕ) : Option ((Option Point2f × Fill) × List RowLog) := do
  if start.1 = image.cols - 1 then some ((some ⟨0, 0⟩, { mask }), [])
  else if intEnd ≤ start.1 + maxLensSize ∨ intEnd ≤ start.2 + maxLensSize then none
  else
    let maxy := min (start.2 + maxLensSize) image.rows
    let maxx := min (start.1 + maxLensSize) image.cols
    let minx := start.1 - maxLensSize
    let (f, rows) ← fillRowsLog image minx maxx (maxy - start.2) start.2 start.1 (start.1 + 1) { mask }
    return ((if f.sum = 0 then none
      else some (toPoint2f (Rounding.double (f.m01 / f.sum)) (Rounding.double (f.m10 / f.sum))), f), rows)

section Log

variable {R : Rounding} {image mask : Image8}

@[simp] theorem map_logged_fst {α : Type} (q : ℕ × ℕ) (r : Option (α × List (ℕ × ℕ))) :
    (r.map (logged q)).map Prod.fst = r.map Prod.fst := by
  rw [Option.map_map]
  rfl

theorem map_logged_some {α : Type} {q : ℕ × ℕ} {r : Option (α × List (ℕ × ℕ))} {v : α} {log : List (ℕ × ℕ)} :
    r.map (logged q) = some (v, log) ↔ ∃ rest, r = some (v, rest) ∧ log = q :: rest := by
  rw [Option.map_eq_some_iff]
  constructor
  · rintro ⟨⟨v', rest⟩, hr, h⟩
    obtain ⟨rfl, rfl⟩ := Prod.mk.inj h
    exact ⟨rest, hr, rfl⟩
  · rintro ⟨rest, hr, rfl⟩
    exact ⟨(v, rest), hr, rfl⟩

theorem fillLeftLog_fst (y n s : ℕ) (f : Fill) :
    (fillLeftLog image y n s f).map Prod.fst = fillLeft image y n s f := by
  induction n generalizing s f with
  | zero => rfl
  | succ n ih =>
    unfold fillLeftLog fillLeft
    cases f.mask.loadInt (s - 1) y with
    | none => rfl
    | some v =>
      show (if v = Mask.object then _ else _ : Option _).map _ = if v = Mask.object then _ else _
      by_cases hobj : v = Mask.object
      · rw [if_pos hobj, if_pos hobj]
        cases accumulate image (s - 1) y f with
        | none => rfl
        | some f₁ =>
          show ((fillLeftLog image y n (s - 1) f₁).map (logged (s - 1, y))).map Prod.fst = fillLeft image y n (s - 1) f₁
          rw [map_logged_fst, ih]
      · rw [if_neg hobj, if_neg hobj]
        rfl

theorem fillRightLog_fst (y n x : ℕ) (f : Fill) :
    (fillRightLog image y n x f).map Prod.fst = fillRight image y n x f := by
  induction n generalizing x f with
  | zero => rfl
  | succ n ih =>
    unfold fillRightLog fillRight
    cases f.mask.loadInt x y with
    | none => rfl
    | some v =>
      show (if v = Mask.object then _ else _ : Option _).map _ = if v = Mask.object then _ else _
      by_cases hobj : v = Mask.object
      · rw [if_pos hobj, if_pos hobj]
        cases accumulate image x y f with
        | none => rfl
        | some f₁ =>
          show (if _ then (fillRightLog image y n (x + 1) f₁).map (logged (x, y)) else none).map Prod.fst =
            if _ then fillRight image y n (x + 1) f₁ else none
          by_cases hfit : image.cols * y + x + 1 < intEnd
          · rw [if_pos hfit, if_pos hfit, map_logged_fst, ih]
          · rw [if_neg hfit, if_neg hfit]
            rfl
      · rw [if_neg hobj, if_neg hobj]
        rfl

theorem findStartLog_fst (m : Image8) (y n s : ℕ) : (findStartLog m y n s).map Prod.fst = findStart m y n s := by
  induction n generalizing s with
  | zero =>
    unfold findStartLog findStart
    cases m.loadInt s y with
    | none => rfl
    | some v =>
      show (if v = Mask.object then _ else _ : Option _).map _ = if v = Mask.object then _ else _
      by_cases hobj : v = Mask.object
      · rw [if_pos hobj, if_pos hobj]
        rfl
      · rw [if_neg hobj, if_neg hobj]
        rfl
  | succ n ih =>
    unfold findStartLog findStart
    cases m.loadInt s y with
    | none => rfl
    | some v =>
      show (if v = Mask.object then _ else (findStartLog m y n (s + 1)).map (logged (s, y)) : Option _).map _ =
        if v = Mask.object then _ else findStart m y n (s + 1)
      by_cases hobj : v = Mask.object
      · rw [if_pos hobj, if_pos hobj]
        rfl
      · rw [if_neg hobj, if_neg hobj, map_logged_fst, ih]

/-- A step of a logged function, and the step it logs. -/
theorem bind_map_fst {α β L M : Type} {g : Option (α × L)} {h : α × L → Option (β × M)} {k : α → Option β}
    (hk : ∀ r, (h r).map Prod.fst = k r.1) : (g.bind h).map Prod.fst = (g.map Prod.fst).bind k := by
  cases g with
  | none => rfl
  | some r => exact hk r

theorem fillRowsLog_fst (minx maxx n y a b : ℕ) (f : Fill) :
    (fillRowsLog image minx maxx n y a b f).map Prod.fst = fillRows image minx maxx n y a b f := by
  induction n generalizing y a b f with
  | zero => rfl
  | succ n ih =>
    have hright : ∀ (s left : ℕ) (log : List (ℕ × ℕ)) (f : Fill),
        ((fillRightLog image y (maxx - s) s f).bind fun r =>
            (fillRowsLog image minx maxx n (y + 1) left (r.1.1 - 1) r.1.2).bind fun rest =>
              some (rest.1, ⟨y, a, b, (a, y) :: log ++ r.2⟩ :: rest.2)).map Prod.fst =
          (fillRight image y (maxx - s) s f).bind fun r => fillRows image minx maxx n (y + 1) left (r.1 - 1) r.2 := by
      intro s left log f
      rw [← fillRightLog_fst]
      apply bind_map_fst
      intro r
      rw [← ih]
      cases fillRowsLog image minx maxx n (y + 1) left (r.1.1 - 1) r.1.2 <;> rfl
    unfold fillRowsLog fillRows
    by_cases hpos : intEnd ≤ image.cols * y + b
    · rw [if_pos hpos, if_pos hpos]
      rfl
    · rw [if_neg hpos, if_neg hpos]
      cases f.mask.loadInt a y with
      | none => rfl
      | some v =>
        show (if v = Mask.object then _ else _ : Option _).map _ = if v = Mask.object then _ else _
        by_cases hobj : v = Mask.object
        · rw [if_pos hobj, if_pos hobj]
          show ((fillLeftLog image y (a - minx) a f).bind _).map Prod.fst = (fillLeft image y (a - minx) a f).bind _
          rw [← fillLeftLog_fst]
          apply bind_map_fst
          intro r
          exact hright a r.1.1 r.2 r.1.2
        · rw [if_neg hobj, if_neg hobj]
          by_cases hend : b < a
          · rw [if_pos hend, if_pos hend]
            rfl
          · rw [if_neg hend, if_neg hend]
            show ((findStartLog f.mask y (b - a) a).bind _).map Prod.fst = (findStart f.mask y (b - a) a).bind _
            rw [← findStartLog_fst]
            apply bind_map_fst
            rintro ⟨found, searched⟩
            cases found with
            | none => rfl
            | some s => exact hright s s searched f

/-- **Without the log** it is `findCentroid`. -/
theorem findCentroidLog_fst (image mask : Image8) (start : ℕ × ℕ) :
    (findCentroidLog image mask start).map Prod.fst = findCentroid image mask start := by
  unfold findCentroidLog findCentroid
  by_cases hlast : start.1 = image.cols - 1
  · rw [if_pos hlast, if_pos hlast]
    rfl
  · rw [if_neg hlast, if_neg hlast]
    by_cases hfit : intEnd ≤ start.1 + maxLensSize ∨ intEnd ≤ start.2 + maxLensSize
    · rw [if_pos hfit, if_pos hfit]
      rfl
    · rw [if_neg hfit, if_neg hfit]
      show ((fillRowsLog image _ _ _ _ _ _ _).bind _).map Prod.fst = (fillRows image _ _ _ _ _ _ _).bind _
      rw [← fillRowsLog_fst]
      apply bind_map_fst
      intro r
      rfl

/-! ## Where the accesses lie -/

/-- The pixel is in row `y`, from column `lo` on and before `hi`. -/
def InRow (y lo hi : ℕ) (q : ℕ × ℕ) : Prop := q.2 = y ∧ lo ≤ q.1 ∧ q.1 < hi

theorem InRow.mono {y lo hi lo' hi' : ℕ} {q : ℕ × ℕ} (h : InRow y lo hi q) (hlo : lo' ≤ lo) (hhi : hi ≤ hi') :
    InRow y lo' hi' q := ⟨h.1, hlo.trans h.2.1, h.2.2.trans_le hhi⟩

theorem inRow_first {y s k : ℕ} (h : s < k) : ∀ q ∈ [(s, y)], InRow y s k q := by
  intro q hq
  rw [List.mem_singleton.mp hq]
  exact ⟨rfl, le_rfl, h⟩

theorem inRow_cons {y lo hi : ℕ} {q₀ : ℕ × ℕ} {log : List (ℕ × ℕ)} (h₀ : InRow y lo hi q₀)
    (h : ∀ q ∈ log, InRow y lo hi q) : ∀ q ∈ q₀ :: log, InRow y lo hi q :=
  List.forall_mem_cons.mpr ⟨h₀, h⟩

theorem accumulate_value {x y : ℕ} {f f' : Fill} (h : accumulate image x y f = some f') {x' : ℕ} (hx : x' ≠ x) :
    f'.mask.value x' y = f.mask.value x' y := by
  obtain ⟨v, -, h⟩ := Option.bind_eq_some_iff.mp h
  split_ifs at h
  rw [← Option.some.inj h]
  show (if x' = x ∧ y = y then Mask.processed else f.mask.value x' y) = _
  rw [if_neg fun h => hx h.1]

/-- What a fill to the left leaves behind, and accesses. -/
structure LeftSpec (y n s left : ℕ) (f f' : Fill) (log : List (ℕ × ℕ)) : Prop where
  lower : s - n ≤ left
  upper : left ≤ s
  right_same : ∀ x, s ≤ x → f'.mask.value x y = f.mask.value x y
  accesses : ∀ q ∈ log, InRow y (s - n) s q

theorem fillLeftLog_spec {y n s left : ℕ} {f f' : Fill} {log : List (ℕ × ℕ)} (hn : n ≤ s)
    (h : fillLeftLog image y n s f = some ((left, f'), log)) : LeftSpec y n s left f f' log := by
  induction n generalizing s f log with
  | zero =>
    obtain ⟨hr, rfl⟩ := Prod.mk.inj (Option.some.inj h)
    obtain ⟨rfl, rfl⟩ := Prod.mk.inj hr
    exact ⟨le_rfl, le_rfl, fun _ _ => rfl, by simp⟩
  | succ n ih =>
    have hhere : InRow y (s - (n + 1)) s (s - 1, y) := ⟨rfl, by simp only; omega, by simp only; omega⟩
    obtain ⟨v, -, h⟩ := Option.bind_eq_some_iff.mp h
    by_cases hobj : v = Mask.object
    · rw [if_pos hobj] at h
      obtain ⟨f₁, h₁, h⟩ := Option.bind_eq_some_iff.mp h
      obtain ⟨rest, hrest, rfl⟩ := map_logged_some.mp h
      have hspec := ih (by omega) hrest
      have hlower := hspec.lower
      have hupper := hspec.upper
      refine ⟨by omega, by omega, fun x hx => ?_, inRow_cons hhere fun q hq => ?_⟩
      · rw [hspec.right_same x (by omega)]
        exact accumulate_value h₁ (by omega)
      · exact (hspec.accesses q hq).mono (by omega) (by omega)
    · rw [if_neg hobj] at h
      obtain ⟨hr, rfl⟩ := Prod.mk.inj (Option.some.inj h)
      obtain ⟨rfl, rfl⟩ := Prod.mk.inj hr
      exact ⟨by omega, le_rfl, fun _ _ => rfl, inRow_cons hhere (by simp)⟩

structure RightSpec (y n x stop : ℕ) (f : Fill) (log : List (ℕ × ℕ)) : Prop where
  lower : x ≤ stop
  upper : stop ≤ x + n
  moves : 0 < n → f.mask.value x y = Mask.object → x < stop
  accesses : ∀ q ∈ log, InRow y x (x + n) q

theorem fillRightLog_spec {y n x stop : ℕ} {f f' : Fill} {log : List (ℕ × ℕ)}
    (h : fillRightLog image y n x f = some ((stop, f'), log)) : RightSpec y n x stop f log := by
  induction n generalizing x f log with
  | zero =>
    obtain ⟨hr, rfl⟩ := Prod.mk.inj (Option.some.inj h)
    obtain ⟨rfl, rfl⟩ := Prod.mk.inj hr
    exact ⟨le_rfl, le_rfl, fun h => absurd h (lt_irrefl 0), by simp⟩
  | succ n ih =>
    have hhere : InRow y x (x + (n + 1)) (x, y) := ⟨rfl, le_rfl, by simp only; omega⟩
    obtain ⟨v, hv, h⟩ := Option.bind_eq_some_iff.mp h
    by_cases hobj : v = Mask.object
    · rw [if_pos hobj] at h
      obtain ⟨f₁, -, h⟩ := Option.bind_eq_some_iff.mp h
      by_cases hfit : image.cols * y + x + 1 < intEnd
      · rw [if_pos hfit] at h
        obtain ⟨rest, hrest, rfl⟩ := map_logged_some.mp h
        have hspec := ih hrest
        have hlower := hspec.lower
        have hupper := hspec.upper
        refine ⟨by omega, by omega, fun _ _ => by omega, inRow_cons hhere fun q hq => ?_⟩
        exact (hspec.accesses q hq).mono (by omega) (by omega)
      · rw [if_neg hfit] at h
        cases h
    · rw [if_neg hobj] at h
      obtain ⟨hr, rfl⟩ := Prod.mk.inj (Option.some.inj h)
      obtain ⟨rfl, rfl⟩ := Prod.mk.inj hr
      refine ⟨le_rfl, by omega, fun _ hx => ?_, inRow_cons hhere (by simp)⟩
      exact absurd ((Image8.loadInt_some hv).2.2.symm.trans hx) hobj

/-- What the search accesses, and finds. -/
structure SearchSpec (m : Image8) (y n s : ℕ) (found : Option ℕ) (log : List (ℕ × ℕ)) : Prop where
  accesses : ∀ q ∈ log, InRow y s (s + n + 1) q
  object : ∀ a, found = some a → s ≤ a ∧ a ≤ s + n ∧ m.value a y = Mask.object

/-- The search is over at an object. -/
theorem SearchSpec.here {m : Image8} {y s : ℕ} (n : ℕ) (hobj : m.value s y = Mask.object) :
    SearchSpec m y n s (some s) [(s, y)] := by
  refine ⟨inRow_first (by omega), fun a ha => ?_⟩
  obtain rfl := Option.some.inj ha
  exact ⟨le_rfl, by omega, hobj⟩

theorem findStartLog_spec {m : Image8} {y n s : ℕ} {found : Option ℕ} {log : List (ℕ × ℕ)}
    (h : findStartLog m y n s = some (found, log)) : SearchSpec m y n s found log := by
  induction n generalizing s log with
  | zero =>
    obtain ⟨v, hv, h⟩ := Option.bind_eq_some_iff.mp h
    by_cases hobj : v = Mask.object
    · rw [if_pos hobj] at h
      obtain ⟨rfl, rfl⟩ := Prod.mk.inj (Option.some.inj h)
      exact .here 0 ((Image8.loadInt_some hv).2.2.trans hobj)
    · rw [if_neg hobj] at h
      obtain ⟨rfl, rfl⟩ := Prod.mk.inj (Option.some.inj h)
      exact ⟨inRow_first (by omega), fun a ha => by cases ha⟩
  | succ n ih =>
    obtain ⟨v, hv, h⟩ := Option.bind_eq_some_iff.mp h
    by_cases hobj : v = Mask.object
    · rw [if_pos hobj] at h
      obtain ⟨rfl, rfl⟩ := Prod.mk.inj (Option.some.inj h)
      exact .here (n + 1) ((Image8.loadInt_some hv).2.2.trans hobj)
    · rw [if_neg hobj] at h
      obtain ⟨rest, hrest, rfl⟩ := map_logged_some.mp h
      have hspec := ih hrest
      refine ⟨inRow_cons ⟨rfl, le_rfl, by simp only; omega⟩ fun q hq => ?_, fun a ha => ?_⟩
      · exact (hspec.accesses q hq).mono (by omega) (by omega)
      · obtain ⟨h₁, h₂, hobj'⟩ := hspec.object a ha
        exact ⟨by omega, by omega, hobj'⟩

/-- A row keeps to the window. -/
structure RowInside (minx maxx maxy y₀ : ℕ) (row : RowLog) : Prop where
  y_lower : y₀ ≤ row.y
  y_upper : row.y < maxy
  accesses : ∀ q ∈ row.accesses, InRow row.y minx maxx q

/-- A row keeps to the window if its start, its search or fill to the left, and its fill to the right do. -/
theorem rowInside_of_accesses {minx maxx maxy y a : ℕ} {row : RowLog} {log rights : List (ℕ × ℕ)} (hy : row.y = y)
    (hmaxy : y < maxy) (haccess : row.accesses = (a, y) :: log ++ rights) (ha : InRow y minx maxx (a, y))
    (hlog : ∀ q ∈ log, InRow y minx maxx q) (hrights : ∀ q ∈ rights, InRow y minx maxx q) :
    RowInside minx maxx maxy y row := by
  refine ⟨by omega, by omega, ?_⟩
  rw [hy, haccess, List.cons_append]
  apply inRow_cons ha
  intro q hq
  rcases List.mem_append.mp hq with hq | hq
  · exact hlog q hq
  · exact hrights q hq

/-- What every row from one on keeps. -/
structure RowsSpec (minx maxx maxy y : ℕ) (rows : List RowLog) : Prop where
  inside : ∀ row ∈ rows, RowInside minx maxx maxy y row
  ordered : ∀ row ∈ rows.tail, row.startx ≤ row.endx

/-- A row before rows that start with their start before their end. -/
theorem RowsSpec.cons {minx maxx maxy y : ℕ} {row : RowLog} {rows : List RowLog} (hrow : RowInside minx maxx maxy y row)
    (h : RowsSpec minx maxx maxy (y + 1) rows) (hhead : ∀ r ∈ rows.head?, r.startx ≤ r.endx) :
    RowsSpec minx maxx maxy y (row :: rows) := by
  constructor
  · intro r hr
    rcases List.mem_cons.mp hr with rfl | hr
    · exact hrow
    · have hinside := h.inside r hr
      exact ⟨(Nat.le_succ y).trans hinside.y_lower, hinside.y_upper, hinside.accesses⟩
  · intro r hr
    cases rows with
    | nil => cases hr
    | cons r₀ rows =>
      rcases List.mem_cons.mp hr with rfl | hr
      · exact hhead r rfl
      · exact h.ordered r hr

/-- **One row**: filled to both sides from an object, or searched, and filled to the right if there is an object. -/
theorem fillRowsLog_succ {minx maxx n y a b : ℕ} {f f' : Fill} {rows : List RowLog}
    (h : fillRowsLog image minx maxx (n + 1) y a b f = some (f', rows)) :
    ∃ row rest, rows = row :: rest ∧ row.y = y ∧ row.startx = a ∧ row.endx = b ∧
      ((f.mask.value a y = Mask.object ∧ ∃ left f₁ lefts x f₂ rights,
          fillLeftLog image y (a - minx) a f = some ((left, f₁), lefts) ∧
          fillRightLog image y (maxx - a) a f₁ = some ((x, f₂), rights) ∧
          fillRowsLog image minx maxx n (y + 1) left (x - 1) f₂ = some (f', rest) ∧
          row.accesses = (a, y) :: lefts ++ rights) ∨
        (f.mask.value a y ≠ Mask.object ∧ ∃ found searched,
          findStartLog f.mask y (b - a) a = some (found, searched) ∧
          ((found = none ∧ rest = [] ∧ row.accesses = (a, y) :: searched) ∨
            ∃ s x f₂ rights, found = some s ∧ fillRightLog image y (maxx - s) s f = some ((x, f₂), rights) ∧
              fillRowsLog image minx maxx n (y + 1) s (x - 1) f₂ = some (f', rest) ∧
              row.accesses = (a, y) :: searched ++ rights))) := by
  unfold fillRowsLog at h
  by_cases hpos : intEnd ≤ image.cols * y + b
  · rw [if_pos hpos] at h
    cases h
  rw [if_neg hpos] at h
  obtain ⟨v, hv, h⟩ := Option.bind_eq_some_iff.mp h
  have hval := (Image8.loadInt_some hv).2.2
  by_cases hobj : v = Mask.object
  · rw [if_pos hobj] at h
    obtain ⟨⟨⟨left, f₁⟩, lefts⟩, h₁, h⟩ := Option.bind_eq_some_iff.mp h
    obtain ⟨⟨⟨x, f₂⟩, rights⟩, h₂, h⟩ := Option.bind_eq_some_iff.mp h
    obtain ⟨⟨f₃, rest⟩, h₃, h⟩ := Option.bind_eq_some_iff.mp h
    obtain ⟨rfl, rfl⟩ := Prod.mk.inj (Option.some.inj h)
    exact ⟨_, rest, rfl, rfl, rfl, rfl, Or.inl ⟨hval.trans hobj, left, f₁, lefts, x, f₂, rights, h₁, h₂, h₃, rfl⟩⟩
  · rw [if_neg hobj] at h
    have hne : f.mask.value a y ≠ Mask.object := fun h => hobj (hval.symm.trans h)
    by_cases hend : b < a
    · rw [if_pos hend] at h
      cases h
    rw [if_neg hend] at h
    obtain ⟨⟨found, searched⟩, hfound, h⟩ := Option.bind_eq_some_iff.mp h
    cases found with
    | none =>
      obtain ⟨rfl, rfl⟩ := Prod.mk.inj (Option.some.inj h)
      exact ⟨_, [], rfl, rfl, rfl, rfl, Or.inr ⟨hne, none, searched, hfound, Or.inl ⟨rfl, rfl, rfl⟩⟩⟩
    | some s =>
      obtain ⟨⟨⟨x, f₂⟩, rights⟩, h₂, h⟩ := Option.bind_eq_some_iff.mp h
      obtain ⟨⟨f₃, rest⟩, h₃, h⟩ := Option.bind_eq_some_iff.mp h
      obtain ⟨rfl, rfl⟩ := Prod.mk.inj (Option.some.inj h)
      exact ⟨_, rest, rfl, rfl, rfl, rfl,
        Or.inr ⟨hne, some s, searched, hfound, Or.inr ⟨s, x, f₂, rights, rfl, h₂, h₃, rfl⟩⟩⟩

/-- The first row starts in the state of the call. -/
theorem fillRowsLog_head {minx maxx n y a b : ℕ} {f f' : Fill} {rows : List RowLog}
    (h : fillRowsLog image minx maxx n y a b f = some (f', rows)) (hab : a ≤ b) :
    ∀ r ∈ rows.head?, r.startx ≤ r.endx := by
  cases n with
  | zero =>
    obtain ⟨-, rfl⟩ := Prod.mk.inj (Option.some.inj h)
    simp
  | succ n =>
    obtain ⟨row, rest, rfl, -, hstart, hend, -⟩ := fillRowsLog_succ h
    intro r hr
    obtain rfl := Option.some.inj hr
    rwa [hstart, hend]

/-- **The rows keep to the window.**  A row that is reached with its start before its end, or at an
object, passes on a start before its end. -/
theorem fillRowsLog_spec {minx maxx maxy n y a b : ℕ} {f f' : Fill} {rows : List RowLog} (hn : y + n = maxy)
    (hmin : minx ≤ a) (hmax : a < maxx) (hstart : (a ≤ b ∧ b < maxx) ∨ f.mask.value a y = Mask.object)
    (h : fillRowsLog image minx maxx n y a b f = some (f', rows)) : RowsSpec minx maxx maxy y rows := by
  induction n generalizing y a b f rows with
  | zero =>
    obtain ⟨-, rfl⟩ := Prod.mk.inj (Option.some.inj h)
    exact ⟨by simp, by simp⟩
  | succ n ih =>
    obtain ⟨row, rest, rfl, hy, -, -, hcase⟩ := fillRowsLog_succ h
    have hhere : InRow y minx maxx (a, y) := ⟨rfl, hmin, hmax⟩
    rcases hcase with ⟨hobj, left, f₁, lefts, x, f₂, rights, h₁, h₂, h₃, haccess⟩ |
      ⟨hne, found, searched, hfound, ⟨-, rfl, haccess⟩ | ⟨s, x, f₂, rights, rfl, h₂, h₃, haccess⟩⟩
    · have hleft := fillLeftLog_spec (Nat.sub_le _ _) h₁
      have hright := fillRightLog_spec h₂
      have hlower := hleft.lower
      have hupper := hleft.upper
      have hstop := hright.upper
      -- the fill to the left has not touched the column the fill to the right starts at
      have hmoves : a < x := hright.moves (by omega) (by rw [hleft.right_same a le_rfl]; exact hobj)
      have hin : RowInside minx maxx maxy y row := by
        apply rowInside_of_accesses hy (by omega) haccess hhere
        · intro q hq
          exact (hleft.accesses q hq).mono (by omega) (by omega)
        · intro q hq
          exact (hright.accesses q hq).mono (by omega) (by omega)
      have hrest := ih (by omega) (by omega) (by omega) (Or.inl ⟨by omega, by omega⟩) h₃
      exact .cons hin hrest (fillRowsLog_head h₃ (by omega))
    · obtain ⟨hab, hb⟩ := hstart.resolve_right hne
      have hsearch := findStartLog_spec hfound
      have hin : RowInside minx maxx maxy y row := by
        apply @rowInside_of_accesses minx maxx maxy y a row searched [] hy (by omega) (by simpa using haccess) hhere
        · intro q hq
          exact (hsearch.accesses q hq).mono (by omega) (by omega)
        · simp
      exact .cons hin ⟨by simp, by simp⟩ (by simp)
    · obtain ⟨hab, hb⟩ := hstart.resolve_right hne
      have hsearch := findStartLog_spec hfound
      obtain ⟨h₁, h₁', hobj⟩ := hsearch.object s rfl
      have hright := fillRightLog_spec h₂
      have hstop := hright.upper
      have hmoves : s < x := hright.moves (by omega) hobj
      have hin : RowInside minx maxx maxy y row := by
        apply rowInside_of_accesses hy (by omega) haccess hhere
        · intro q hq
          exact (hsearch.accesses q hq).mono (by omega) (by omega)
        · intro q hq
          exact (hright.accesses q hq).mono (by omega) (by omega)
      have hrest := ih (by omega) (by omega) (by omega) (Or.inl ⟨by omega, by omega⟩) h₃
      exact .cons hin hrest (fillRowsLog_head h₃ (by omega))

/-! ## Safety -/

/-- **Where a call is defined**: in the last column, or where every `int` of its lens fits. -/
theorem findCentroid_defined_iff (hrows : image.rows = mask.rows) (hcols : image.cols = mask.cols) {start : ℕ × ℕ}
    (hx : start.1 < mask.cols) (hy : start.2 < mask.rows) (hobj : mask.value start.1 start.2 = Mask.object) :
    (∃ r, findCentroid image mask start = some r) ↔
      start.1 = image.cols - 1 ∨ ∃ ps, Lens image mask start ps ∧ ObjectFits image ps.toFinset start := by
  by_cases hinner : start.1 = image.cols - 1
  · simp only [hinner, true_or, iff_true]
    unfold findCentroid
    rw [if_pos hinner]
    exact ⟨_, rfl⟩
  · obtain ⟨ps, qs, hlens, -, hiff⟩ := findCentroid_runs_iff hrows hcols hx hy hobj hinner
    have hfits := @runsFit_iff_objectFits image start ps (hlens.start_mem (hrows ▸ hy) hobj)
    constructor
    · rintro ⟨⟨centroid, f⟩, h⟩
      exact Or.inr ⟨ps, hlens, hfits.mp ((hiff centroid f).mp h).1⟩
    · rintro (h | ⟨ps', hlens', hfit⟩)
      · exact absurd h hinner
      · obtain rfl := hlens'.unique hlens
        exact ⟨_, (hiff _ _).mpr ⟨hfits.mpr hfit, rfl, rfl⟩⟩

/-- A call keeps to the 15 rows from its start on, and to the columns less than 15 away; each row after the
first starts with `startx ≤ endx`; the pixels accumulated, and no others, go from `OBJECT` to `PROCESSED`, once. -/
structure Safe (image mask : Image8) (start : ℕ × ℕ) (f : Fill) (rows : List RowLog) : Prop where
  inside : ∀ row ∈ rows, RowInside (start.1 - maxLensSize) (min (start.1 + maxLensSize) image.cols)
    (min (start.2 + maxLensSize) image.rows) start.2 row
  ordered : ∀ row ∈ rows.tail, row.startx ≤ row.endx
  fills : Fills mask f

theorem findCentroidLog_safe {start : ℕ × ℕ} (hx : start.1 < image.cols) (hy : start.2 < image.rows)
    (hobj : mask.value start.1 start.2 = Mask.object) {centroid : Option Point2f} {f : Fill} {rows : List RowLog}
    (h : findCentroidLog image mask start = some ((centroid, f), rows)) : Safe image mask start f rows := by
  have hfills : Fills mask f := by
    have hcall : findCentroid image mask start = some (centroid, f) := by
      rw [← findCentroidLog_fst, h]
      rfl
    exact (findCentroid_fills hcall).1
  unfold findCentroidLog at h
  split_ifs at h
  · obtain ⟨-, rfl⟩ := Prod.mk.inj (Option.some.inj h)
    exact ⟨by simp, by simp, hfills⟩
  · obtain ⟨⟨f₀, rows₀⟩, h₀, h⟩ := Option.bind_eq_some_iff.mp h
    obtain ⟨-, rfl⟩ := Prod.mk.inj (Option.some.inj h)
    have hn : start.2 + (min (start.2 + maxLensSize) image.rows - start.2) = min (start.2 + maxLensSize) image.rows := by
      unfold maxLensSize
      omega
    have hmax : start.1 < min (start.1 + maxLensSize) image.cols := by
      unfold maxLensSize
      omega
    have hspec := fillRowsLog_spec hn (Nat.sub_le _ _) hmax (Or.inr hobj) h₀
    exact ⟨hspec.inside, hspec.ordered, hfills⟩

/-- **`findCentroid` is safe on any mask**, as long as its positions and products are `int`s. -/
theorem findCentroid_safe_iff (hrows : image.rows = mask.rows) (hcols : image.cols = mask.cols) {start : ℕ × ℕ}
    (hx : start.1 < mask.cols) (hy : start.2 < mask.rows) (hobj : mask.value start.1 start.2 = Mask.object) :
    (∃ r rows, findCentroidLog image mask start = some (r, rows) ∧ Safe image mask start r.2 rows) ↔
      start.1 = image.cols - 1 ∨ ∃ ps, Lens image mask start ps ∧ ObjectFits image ps.toFinset start := by
  rw [← findCentroid_defined_iff (R := R) hrows hcols hx hy hobj, ← findCentroidLog_fst]
  simp only [Option.map_eq_some_iff]
  constructor
  · rintro ⟨r, rows, h, -⟩
    exact ⟨r, (r, rows), h, rfl⟩
  · rintro ⟨_, ⟨⟨centroid, f⟩, rows⟩, h, rfl⟩
    exact ⟨_, rows, h, findCentroidLog_safe (hcols ▸ hx) (hrows ▸ hy) hobj h⟩

end Log

section Floats

attribute [local instance] Rounding.ieee

theorem findCentroid_safe_iff_stair :
    (∃ r rows, findCentroidLog stairGrey (objectMask 4 6 stair) (1, 1) = some (r, rows) ∧
        Safe stairGrey (objectMask 4 6 stair) (1, 1) r.2 rows) ↔
      (1, 1).1 = stairGrey.cols - 1 ∨ ∃ ps, Lens stairGrey (objectMask 4 6 stair) (1, 1) ps ∧
        ObjectFits stairGrey ps.toFinset (1, 1) := by
  have hx : (1, 1).1 < (objectMask 4 6 stair).cols := by decide
  have hy : (1, 1).2 < (objectMask 4 6 stair).rows := by decide
  have hobj : (objectMask 4 6 stair).value (1, 1).1 (1, 1).2 = Mask.object := by decide
  exact @findCentroid_safe_iff _ stairGrey (objectMask 4 6 stair) rfl rfl (1, 1) hx hy hobj

/-- The position of the only object is not an `int`: the first access is out of reach. -/
theorem hugeGrey_not_safe :
    (0, 40000).1 < (objectMask 65536 65536 {(0, 40000)}).cols ∧
      (objectMask 65536 65536 {(0, 40000)}).value 0 40000 = Mask.object ∧
      ¬ ∃ r rows, findCentroidLog hugeGrey (objectMask 65536 65536 {(0, 40000)}) (0, 40000) = some (r, rows) ∧
        Safe hugeGrey (objectMask 65536 65536 {(0, 40000)}) (0, 40000) r.2 rows := by
  refine ⟨by decide, by decide, ?_⟩
  rintro ⟨r, rows, h, -⟩
  have hnone : (findCentroidLog hugeGrey (objectMask 65536 65536 {(0, 40000)}) (0, 40000)).isSome = false := by
    decide +kernel
  rw [h] at hnone
  cases hnone

end Floats

end Lyli.Calibration.LensDetector
