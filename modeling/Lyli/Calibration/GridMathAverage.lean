import Mathlib
import Lyli.Base.FoldM
import Lyli.Base.Cluster
import Lyli.Calibration.GridMath

/-!
# Averaging lines

`insertLine` moves the entry nearest to the line to the running mean, or opens an
entry; where rounding puts the mean on the key of another entry, the entry is lost
(`insertLine_cases`).  So after any number of insertions every entry stands under
its position, the running mean of its referees' lines, and no line is counted twice
(`Averaged`).

    insertLine map line r limit = some map'  →  Averaged lineOf (done ++ [r]) map'       (averaged_insertLine)
    … and map' clusters the lines by their running means                            (run_insertLine)
    directionMap limit front rest = some map  →  Clustered limit front rest map      (clustered_of_directionMap)
-/

namespace Lyli.Calibration.GridMath

open scoped List

open Rounding (absDiff absDiff_self absDiff_grows)

/-! ## One insertion -/

section Insert

variable {R : Rounding} {map map' : LineMap} {line : LineGrid.Line} {r : Referee} {limit : ℚ}

/-- The entry `e`, between `l₁` and `l₂`, is the one nearest to the line, and less than `limit` away. -/
structure Takes [Rounding] (limit : ℚ) (map : LineMap) (line : LineGrid.Line) (e : ℚ × LineEntry)
    (l₁ l₂ : List (ℚ × LineEntry)) : Prop where
  nearest : map.nearest? absDiff line.position = some e
  near : absDiff e.1 line.position < limit
  split : map.entries = l₁ ++ e :: l₂

/-- The line opens an entry. -/
def Opens (map : LineMap) (line : LineGrid.Line) (r : Referee) (map' : LineMap) : Prop :=
  ∃ l₁ l₂, map.entries = l₁ ++ l₂ ∧ map'.entries = l₁ ++ (line.position, .ofLine line r) :: l₂

theorem emplaced_opens (h : ∀ e ∈ map.entries, e.1 ≠ line.position) :
    Opens map line r (map.emplace line.position (.ofLine line r)) :=
  map.emplace_entries line.position _ h

/-- **One `insertLine`**: the nearest entry is averaged with the line, and lost if its new key is taken, or the
line opens an entry. -/
theorem insertLine_cases (hlim : 0 < limit) (h : insertLine map line r limit = some map') :
    (∃ e l₁ l₂, Takes limit map line e l₁ l₂ ∧ (∀ a ∈ l₁ ++ l₂, a.1 ≠ (e.2.average line r).line.position) ∧
      map'.entries ~ ((e.2.average line r).line.position, e.2.average line r) :: (l₁ ++ l₂)) ∨
    (∃ e l₁ l₂, Takes limit map line e l₁ l₂ ∧ (∃ a ∈ l₁ ++ l₂, a.1 = (e.2.average line r).line.position) ∧
      map'.entries = l₁ ++ l₂) ∨
    (Opens map line r map' ∧ ∀ e ∈ map.entries, limit ≤ absDiff e.1 line.position) := by
  unfold insertLine at h
  split at h
  · cases h
  · next e he =>
    obtain ⟨hmem, hmin⟩ := map.nearest?_le absDiff_grows _ he
    split at h
    · next hnear =>
      obtain rfl := Option.some.inj h
      obtain ⟨l₁, l₂, hsplit, ⟨htaken, hm'⟩ | ⟨hfree, hm'⟩⟩ :=
        map.move_cases hmem (e.2.average line r).line.position (e.2.average line r)
      · exact Or.inr (Or.inl ⟨e, l₁, l₂, ⟨he, hnear, hsplit⟩, htaken, hm'⟩)
      · exact Or.inl ⟨e, l₁, l₂, ⟨he, hnear, hsplit⟩, hfree, hm'⟩
    · next hfar =>
      obtain rfl := Option.some.inj h
      have hall : ∀ e' ∈ map.entries, limit ≤ absDiff e'.1 line.position := fun e' he' =>
        (not_lt.mp hfar).trans (hmin e' he')
      refine Or.inr (Or.inr ⟨emplaced_opens fun e' he' heq => ?_, hall⟩)
      have := hall e' he'
      rw [heq, absDiff_self] at this
      exact absurd this hlim.not_ge

/-- Insertion is defined when the map is not empty, and leaves it so. -/
theorem insertLine_total (line : LineGrid.Line) (r : Referee) (hlim : 0 < limit) (h : map.entries ≠ []) :
    ∃ map', insertLine map line r limit = some map' ∧ map'.entries ≠ [] := by
  obtain ⟨map', hm'⟩ : ∃ map', insertLine map line r limit = some map' := by
    obtain ⟨e, he⟩ := map.exists_nearest absDiff line.position h
    simp only [insertLine, he]
    split
    · exact ⟨_, rfl⟩
    · exact ⟨_, rfl⟩
  refine ⟨map', hm', ?_⟩
  rcases insertLine_cases hlim hm' with ⟨e, l₁, l₂, -, -, hp⟩ | ⟨e, l₁, l₂, -, ⟨a, ha, -⟩, heq⟩ | ⟨⟨l₁, l₂, -, heq⟩, -⟩
  · exact fun hnil => by simpa [hnil] using hp.length_eq
  · rw [heq]
    exact List.ne_nil_of_mem ha
  · rw [heq]
    simp

end Insert

/-! ## Running means -/

section Centre

variable [Rounding]

/-- The position of an entry after the lines at these positions. -/
def centre : List ℚ → ℚ
  | [] => 0
  | p :: ps => (ps.foldl (fun s q => (s.1 + 1, nextPosition s.1 s.2 q)) (1, p)).2

omit [Rounding] in
theorem foldl_count {α β : Type} (f : ℕ → β → α → β) (l : List α) (n : ℕ) (b : β) :
    (l.foldl (fun s a => (s.1 + 1, f s.1 s.2 a)) (n, b)).1 = n + l.length := by
  induction l generalizing n b with
  | nil => rfl
  | cons a l ih =>
    rw [List.foldl_cons, ih, List.length_cons]
    omega

theorem centre_append_singleton {c : List ℚ} (hc : c ≠ []) (q : ℚ) :
    centre (c ++ [q]) = nextPosition c.length (centre c) q := by
  obtain ⟨p, ps, rfl⟩ := List.exists_cons_of_ne_nil hc
  have hcount := foldl_count nextPosition ps 1 p
  show ((ps ++ [q]).foldl _ (1, p)).2 = _
  rw [List.foldl_append, List.foldl_cons, List.foldl_nil, hcount]
  show nextPosition (1 + ps.length) (centre (p :: ps)) q = _
  rw [Nat.add_comm]
  rfl

end Centre

/-! ## What the insertions keep -/

section Invariant

variable {R : Rounding} (lineOf : Referee → Option LineGrid.Line)

/-- The lines that were averaged into an entry. -/
def members (e : LineEntry) : List LineGrid.Line := e.referees.filterMap lineOf

def clusters (map : LineMap) : List (List LineGrid.Line) := map.entries.map fun e => members lineOf e.2

/-- The line of a referee. -/
def refLine (r : Referee) : LineGrid.Line := (lineOf r).getD {}

/-- The referees of each entry. -/
def refClusters (map : LineMap) : List (List Referee) := map.entries.map fun e => e.2.referees

/-- All referees of a map. -/
def referees (map : LineMap) : List Referee := map.entries.flatMap fun e => e.2.referees

/-- The running mean of the lines of some referees. -/
def refCentre [Rounding] (rs : List Referee) : ℚ := centre (rs.map fun r => (refLine lineOf r).position)

/-- Lines are clustered by the running means. -/
def rule [Rounding] (limit : ℚ) : Cluster.Rule Referee ℚ ℚ :=
  ⟨fun r => (refLine lineOf r).position, refCentre lineOf, absDiff, limit⟩

/-- What holds of an entry under its key. -/
structure EntryInv [Rounding] (e : ℚ × LineEntry) : Prop where
  key : e.1 = e.2.line.position
  centre : e.2.line.position = refCentre lineOf e.2.referees
  counter : e.2.counter = e.2.referees.length
  valid : ∀ r ∈ e.2.referees, ∃ line, lineOf r = some line
  first : ∃ line, (members lineOf e.2).head? = some line ∧ e.2.line.subgrid = line.subgrid

/-- The state of a map after the lines of the referees `done` are inserted. -/
structure Averaged [Rounding] (done : List Referee) (map : LineMap) : Prop where
  entry : ∀ e ∈ map.entries, EntryInv lineOf e
  referees : referees map <+~ done

variable {lineOf}

theorem refLine_eq {r : Referee} {line : LineGrid.Line} (h : lineOf r = some line) : refLine lineOf r = line := by
  unfold refLine
  rw [h]
  rfl

theorem members_eq_map {e : LineEntry} (h : ∀ r ∈ e.referees, ∃ line, lineOf r = some line) :
    members lineOf e = e.referees.map (refLine lineOf) := by
  unfold members
  generalize e.referees = rs at h
  induction rs with
  | nil => rfl
  | cons r rs ih =>
    obtain ⟨line, hl⟩ := h r List.mem_cons_self
    rw [List.filterMap_cons_some hl, List.map_cons, refLine_eq hl, ih fun r' hr' => h r' (List.mem_cons_of_mem _ hr')]

theorem members_length {e : LineEntry} (h : ∀ r ∈ e.referees, ∃ line, lineOf r = some line) :
    (members lineOf e).length = e.referees.length := by
  rw [members_eq_map h, List.length_map]

/-- The key of an entry is the running mean over its referees. -/
theorem EntryInv.refCentre {e : ℚ × LineEntry} (h : EntryInv lineOf e) : GridMath.refCentre lineOf e.2.referees = e.1 :=
  h.centre.symm.trans h.key.symm

theorem clusters_eq_map {map : LineMap} (h : ∀ e ∈ map.entries, EntryInv lineOf e) :
    clusters lineOf map = (refClusters map).map (List.map (refLine lineOf)) := by
  unfold clusters refClusters
  rw [List.map_map]
  exact List.map_congr_left fun e he => members_eq_map (h e he).valid

theorem referees_eq_flatten (map : LineMap) : referees map = (refClusters map).flatten := by
  unfold referees refClusters
  rw [List.flatMap_def]

theorem EntryInv.referees_ne_nil {e : ℚ × LineEntry} (h : EntryInv lineOf e) : e.2.referees ≠ [] := by
  obtain ⟨first, hfirst, -⟩ := h.first
  intro hnil
  unfold members at hfirst
  rw [hnil] at hfirst
  cases hfirst

theorem entryInv_ofLine {line : LineGrid.Line} {r : Referee} (hr : lineOf r = some line) :
    EntryInv lineOf (line.position, .ofLine line r) := by
  refine ⟨rfl, ?_, rfl, ?_, line, ?_, rfl⟩
  · show line.position = (refLine lineOf r).position
    rw [refLine_eq hr]
  · intro r' hr'
    obtain rfl := List.mem_singleton.mp hr'
    exact ⟨line, hr⟩
  · unfold members LineEntry.ofLine
    rw [List.filterMap_cons_some hr]
    rfl

theorem entryInv_average {e : ℚ × LineEntry} {line : LineGrid.Line} {r : Referee} (h : EntryInv lineOf e)
    (hr : lineOf r = some line) :
    EntryInv lineOf ((e.2.average line r).line.position, e.2.average line r) := by
  refine ⟨rfl, ?_, ?_, ?_, ?_⟩
  · show nextPosition e.2.counter e.2.line.position line.position = GridMath.refCentre lineOf (e.2.referees ++ [r])
    have hne : e.2.referees.map (fun r => (refLine lineOf r).position) ≠ [] := by
      simpa using h.referees_ne_nil
    unfold GridMath.refCentre
    rw [List.map_append, List.map_singleton, centre_append_singleton hne, List.length_map, ← h.counter, refLine_eq hr]
    rw [h.centre]
    rfl
  · show e.2.counter + 1 = (e.2.referees ++ [r]).length
    rw [h.counter, List.length_append, List.length_singleton]
  · intro r' hr'
    rcases List.mem_append.mp hr' with hr' | hr'
    · exact h.valid r' hr'
    · rw [List.mem_singleton.mp hr']
      exact ⟨line, hr⟩
  · obtain ⟨first, hfirst, hsub⟩ := h.first
    refine ⟨first, ?_, hsub⟩
    unfold members LineEntry.average
    rw [List.filterMap_append, List.head?_append]
    exact congrArg (Option.or · _) hfirst

theorem Opens.mem_iff {map map' : LineMap} {line : LineGrid.Line} {r : Referee} (h : Opens map line r map')
    (a : ℚ × LineEntry) : a ∈ map'.entries ↔ a = (line.position, .ofLine line r) ∨ a ∈ map.entries := by
  obtain ⟨l₁, l₂, hm, hm'⟩ := h
  rw [hm, hm']
  simp only [List.mem_append, List.mem_cons]
  tauto

/-- One more entry. -/
theorem Opens.refClusters {map map' : LineMap} {line : LineGrid.Line} {r : Referee} (h : Opens map line r map') :
    GridMath.refClusters map' ~ [r] :: GridMath.refClusters map := by
  obtain ⟨l₁, l₂, hm, hm'⟩ := h
  unfold GridMath.refClusters
  rw [hm, hm', List.map_append, List.map_append, List.map_cons]
  exact List.perm_middle

/-- **One insertion adds the line to the clusters.** -/
theorem joins_insertLine {done : List Referee} {map map' : LineMap} {line : LineGrid.Line} {r : Referee}
    {limit : ℚ} (hlim : 0 < limit) (h : Averaged lineOf done map) (hr : lineOf r = some line)
    (hi : insertLine map line r limit = some map') :
    ∃ cs, (rule lineOf limit).Joins r (refClusters map) cs ∧ cs ~ refClusters map' := by
  have hcentre : ∀ a ∈ map.entries, refCentre lineOf a.2.referees = a.1 := fun a ha => (h.entry a ha).refCentre
  have hpos : (refLine lineOf r).position = line.position := congrArg (·.position) (refLine_eq hr)
  -- the entry that takes the line is the cluster that does
  have htakes : ∀ {e l₁ l₂}, Takes limit map line e l₁ l₂ → (rule lineOf limit).Takes r (refClusters map) e.2.referees
      ((l₁ ++ l₂).map fun a => a.2.referees) := by
    rintro e l₁ l₂ ⟨hnear, hlt, hm⟩
    have hemem : e ∈ map.entries := by rw [hm]; simp
    obtain ⟨h₁, h₂⟩ := map.sorted_split hm
    refine ⟨?_, fun c hc => ?_, ?_⟩
    · unfold refClusters
      rw [hm, List.map_append, List.map_cons, List.map_append]
      exact List.perm_middle
    · obtain ⟨a, ha, rfl⟩ := List.mem_map.mp hc
      have hamem : a ∈ map.entries := by
        rw [hm, List.mem_append, List.mem_cons]
        rcases List.mem_append.mp ha with ha | ha
        · exact Or.inl ha
        · exact Or.inr (Or.inr ha)
      show OrdMap.Closer absDiff (refLine lineOf r).position (refCentre lineOf e.2.referees) (refCentre lineOf a.2.referees)
      rw [hcentre e hemem, hcentre a hamem, hpos]
      refine map.nearest?_closer absDiff_grows _ hnear hamem ?_
      rcases List.mem_append.mp ha with ha | ha
      · exact (h₁ a ha).ne
      · exact (h₂ a ha).ne'
    · show absDiff (refCentre lineOf e.2.referees) (refLine lineOf r).position < limit
      rw [hcentre e hemem, hpos]
      exact hlt
  have hrest : ∀ {e l₁ l₂}, Takes limit map line e l₁ l₂ → ∀ a ∈ l₁ ++ l₂, a ∈ map.entries := by
    intro e l₁ l₂ ht a ha
    rw [ht.split, List.mem_append, List.mem_cons]
    rcases List.mem_append.mp ha with ha | ha
    · exact Or.inl ha
    · exact Or.inr (Or.inr ha)
  have hnew : ∀ {e l₁ l₂}, Takes limit map line e l₁ l₂ →
      refCentre lineOf (e.2.referees ++ [r]) = (e.2.average line r).line.position := by
    intro e l₁ l₂ ht
    have hemem : e ∈ map.entries := by rw [ht.split]; simp
    exact (entryInv_average (h.entry e hemem) hr).centre.symm
  rcases insertLine_cases hlim hi with ⟨e, l₁, l₂, ht, hfree, hm'⟩ | ⟨e, l₁, l₂, ht, ⟨a, ha, htaken⟩, hm'⟩ | ⟨ho, hfar⟩
  · refine ⟨_, .merge (htakes ht) fun c hc => ?_, ?_⟩
    · obtain ⟨a, ha, rfl⟩ := List.mem_map.mp hc
      show refCentre lineOf a.2.referees ≠ refCentre lineOf (e.2.referees ++ [r])
      rw [hcentre a (hrest ht a ha), hnew ht]
      exact hfree a ha
    · exact (hm'.map fun a => a.2.referees).symm
  · refine ⟨_, .lose (htakes ht) fun hkept => ?_, ?_⟩
    · refine hkept a.2.referees (List.mem_map.mpr ⟨a, ha, rfl⟩) ?_
      show refCentre lineOf a.2.referees = refCentre lineOf (e.2.referees ++ [r])
      rw [hcentre a (hrest ht a ha), hnew ht]
      exact htaken
    · unfold refClusters
      rw [hm']
  · refine ⟨_, .create fun c hc => ?_, ho.refClusters.symm⟩
    obtain ⟨a, ha, rfl⟩ := List.mem_map.mp hc
    show limit ≤ absDiff (refCentre lineOf a.2.referees) (refLine lineOf r).position
    rw [hcentre a ha, hpos]
    exact hfar a ha

theorem run_insertLine {done : List Referee} {map map' : LineMap} {line : LineGrid.Line} {r : Referee}
    {limit : ℚ} (hlim : 0 < limit) (h : Averaged lineOf done map) (hr : lineOf r = some line)
    (hi : insertLine map line r limit = some map') :
    (rule lineOf limit).Run (refClusters map) [r] (refClusters map') := by
  obtain ⟨cs, hj, hp⟩ := joins_insertLine hlim h hr hi
  exact Cluster.run_perm_right (Cluster.joins_run hj) hp

/-- **One insertion keeps the invariant.** -/
theorem averaged_insertLine {done : List Referee} {map map' : LineMap} {line : LineGrid.Line} {r : Referee}
    {limit : ℚ} (hlim : 0 < limit) (h : Averaged lineOf done map) (hr : lineOf r = some line)
    (hi : insertLine map line r limit = some map') : Averaged lineOf (done ++ [r]) map' := by
  constructor
  · have hold : ∀ {e l₁ l₂}, Takes limit map line e l₁ l₂ → EntryInv lineOf e ∧ ∀ a ∈ l₁ ++ l₂, EntryInv lineOf a := by
      intro e l₁ l₂ ht
      have hmem : ∀ a ∈ e :: (l₁ ++ l₂), EntryInv lineOf a := fun a ha =>
        h.entry a (by rw [ht.split]; exact List.perm_middle.mem_iff.mpr ha)
      exact List.forall_mem_cons.mp hmem
    rcases insertLine_cases hlim hi with ⟨e, l₁, l₂, ht, -, hm'⟩ | ⟨e, l₁, l₂, ht, -, hm'⟩ | ⟨ho, -⟩
    · intro a ha
      rcases List.mem_cons.mp (hm'.mem_iff.mp ha) with rfl | ha
      · exact entryInv_average (hold ht).1 hr
      · exact (hold ht).2 a ha
    · rw [hm']
      exact (hold ht).2
    · intro a ha
      rcases (ho.mem_iff a).mp ha with rfl | ha
      · exact entryInv_ofLine hr
      · exact h.entry a ha
  · have hsub := Cluster.run_subperm (run_insertLine hlim h hr hi)
    rw [← referees_eq_flatten, ← referees_eq_flatten] at hsub
    exact hsub.trans ((List.subperm_append_right [r]).mpr h.referees)

/-! ## The lines of one grid -/

theorem initialMap_append (lines : List LineGrid.Line) (l : LineGrid.Line) :
    initialMap (lines ++ [l]) = (initialMap lines).emplace l.position (.ofLine l (0, lines.length)) := by
  unfold initialMap
  rw [List.zipIdx_append, List.foldl_append, Nat.zero_add]
  rfl

/-- The map of the first grid: of the lines at one position the first is kept. -/
structure Initial [Rounding] (lineOf : Referee → Option LineGrid.Line) (lines : List LineGrid.Line) (map : LineMap)
    (done : List Referee) : Prop where
  entry : ∀ e ∈ map.entries, EntryInv lineOf e
  referees : referees map ~ done
  nodup : done.Nodup
  mem : ∀ r : Referee, r ∈ done ↔ r.1 = 0 ∧ ∃ line, lines[r.2]? = some line ∧
    ∀ (j : ℕ) (l : LineGrid.Line), j < r.2 → lines[j]? = some l → l.position ≠ line.position
  keys : ∀ q, (∃ e ∈ map.entries, e.1 = q) ↔ ∃ l ∈ lines, l.position = q

theorem Initial.averaged {lines : List LineGrid.Line} {map : LineMap} {done : List Referee}
    (hd : Initial lineOf lines map done) : Averaged lineOf done map := ⟨hd.entry, hd.referees.subperm⟩

/-- The `i`-th line is the first at its position. -/
def FirstAt (lines : List LineGrid.Line) (i : ℕ) : Prop :=
  ∃ line, lines[i]? = some line ∧
    ∀ (j : ℕ) (l : LineGrid.Line), j < i → lines[j]? = some l → l.position ≠ line.position

theorem getElem?_snoc {lines : List LineGrid.Line} {l line : LineGrid.Line} {i : ℕ} :
    (lines ++ [l])[i]? = some line ↔ lines[i]? = some line ∨ (i = lines.length ∧ l = line) := by
  rcases Nat.lt_trichotomy i lines.length with hi | rfl | hi
  · rw [List.getElem?_append_left hi]
    constructor
    · exact Or.inl
    · rintro (hline | ⟨rfl, -⟩)
      · exact hline
      · exact absurd hi (lt_irrefl _)
  · rw [List.getElem?_concat_length]
    simp
  · rw [List.getElem?_eq_none (by simp; omega), List.getElem?_eq_none (by omega)]
    constructor
    · intro hn
      cases hn
    · rintro (hn | ⟨rfl, -⟩)
      · cases hn
      · exact absurd hi (lt_irrefl _)

theorem firstAt_snoc {lines : List LineGrid.Line} {l : LineGrid.Line} {i : ℕ} : FirstAt (lines ++ [l]) i ↔
    FirstAt lines i ∨ (i = lines.length ∧ ∀ l' ∈ lines, l'.position ≠ l.position) := by
  constructor
  · rintro ⟨line, hline, hfirst⟩
    rcases getElem?_snoc.mp hline with hline | ⟨rfl, rfl⟩
    · exact Or.inl ⟨line, hline, fun j l' hj hl' => hfirst j l' hj (getElem?_snoc.mpr (Or.inl hl'))⟩
    · refine Or.inr ⟨rfl, fun l' hl' => ?_⟩
      obtain ⟨j, hj⟩ := List.getElem?_of_mem hl'
      exact hfirst j l' (List.getElem?_eq_some_iff.mp hj).1 (getElem?_snoc.mpr (Or.inl hj))
  · rintro (⟨line, hline, hfirst⟩ | ⟨rfl, hnone⟩)
    · refine ⟨line, getElem?_snoc.mpr (Or.inl hline), fun j l' hj hl' => ?_⟩
      rcases getElem?_snoc.mp hl' with hl' | ⟨rfl, -⟩
      · exact hfirst j l' hj hl'
      · exact absurd (List.getElem?_eq_some_iff.mp hline).1 (by omega)
    · refine ⟨l, getElem?_snoc.mpr (Or.inr ⟨rfl, rfl⟩), fun j l' hj hl' => ?_⟩
      rcases getElem?_snoc.mp hl' with hl' | ⟨rfl, -⟩
      · exact hnone l' (List.mem_of_getElem? hl')
      · exact absurd hj (lt_irrefl _)

/-- A line at a position that is taken changes nothing. -/
theorem Initial.taken {lines : List LineGrid.Line} {map : LineMap} {done : List Referee} {l l₀ : LineGrid.Line}
    (hd : Initial lineOf lines map done) (hl₀ : l₀ ∈ lines) (hpos : l₀.position = l.position) :
    Initial lineOf (lines ++ [l]) map done := by
  refine ⟨hd.entry, hd.referees, hd.nodup, fun r => ?_, fun q => ?_⟩
  · rw [hd.mem]
    refine and_congr_right fun _ => ?_
    show FirstAt lines r.2 ↔ FirstAt (lines ++ [l]) r.2
    rw [firstAt_snoc]
    constructor
    · exact Or.inl
    · rintro (h | ⟨-, hnone⟩)
      · exact h
      · exact absurd hpos (hnone l₀ hl₀)
  · rw [hd.keys]
    constructor
    · rintro ⟨l', hl', hq⟩
      exact ⟨l', List.mem_append_left _ hl', hq⟩
    · rintro ⟨l', hl', hq⟩
      rcases List.mem_append.mp hl' with hl' | hl'
      · exact ⟨l', hl', hq⟩
      · rw [List.mem_singleton.mp hl'] at hq
        exact ⟨l₀, hl₀, hpos.trans hq⟩

/-- A line at a new position opens an entry. -/
theorem Initial.opens {lines : List LineGrid.Line} {map map' : LineMap} {done : List Referee} {l : LineGrid.Line}
    (hd : Initial lineOf lines map done) (hl : lineOf (0, lines.length) = some l)
    (ho : Opens map l (0, lines.length) map') (hnone : ∀ l' ∈ lines, l'.position ≠ l.position) :
    Initial lineOf (lines ++ [l]) map' (done ++ [(0, lines.length)]) := by
  have hnew : (0, lines.length) ∉ done := by
    intro hmem
    obtain ⟨-, line, hline, -⟩ := (hd.mem _).mp hmem
    exact absurd (List.getElem?_eq_some_iff.mp hline).1 (lt_irrefl _)
  refine ⟨fun a ha => ?_, ?_, ?_, fun r => ?_, fun q => ?_⟩
  · rcases (ho.mem_iff a).mp ha with rfl | ha
    · exact entryInv_ofLine hl
    · exact hd.entry a ha
  · have hp := ho.refClusters.flatten
    rw [List.flatten_cons, ← referees_eq_flatten, ← referees_eq_flatten] at hp
    exact hp.trans ((hd.referees.cons _).trans (List.perm_append_singleton _ done).symm)
  · rw [List.nodup_append]
    refine ⟨hd.nodup, List.nodup_singleton _, ?_⟩
    rintro a ha b hb rfl
    rw [List.mem_singleton.mp hb] at ha
    exact hnew ha
  · rw [List.mem_append, hd.mem, List.mem_singleton]
    show r.1 = 0 ∧ FirstAt lines r.2 ∨ r = (0, lines.length) ↔ r.1 = 0 ∧ FirstAt (lines ++ [l]) r.2
    rw [firstAt_snoc]
    constructor
    · rintro (⟨h0, hfirst⟩ | rfl)
      · exact ⟨h0, Or.inl hfirst⟩
      · exact ⟨rfl, Or.inr ⟨rfl, hnone⟩⟩
    · rintro ⟨h0, hfirst | ⟨hr, -⟩⟩
      · exact Or.inl ⟨h0, hfirst⟩
      · exact Or.inr (Prod.ext h0 hr)
  · constructor
    · rintro ⟨e, he, rfl⟩
      rcases (ho.mem_iff e).mp he with rfl | he
      · exact ⟨l, by simp, rfl⟩
      · obtain ⟨l', hl', hq⟩ := (hd.keys e.1).mp ⟨e, he, rfl⟩
        exact ⟨l', List.mem_append_left _ hl', hq⟩
    · rintro ⟨l', hl', rfl⟩
      rcases List.mem_append.mp hl' with hl' | hl'
      · obtain ⟨e, he, hq⟩ := (hd.keys l'.position).mpr ⟨l', hl', rfl⟩
        exact ⟨e, (ho.mem_iff e).mpr (Or.inr he), hq⟩
      · rw [List.mem_singleton.mp hl']
        exact ⟨_, (ho.mem_iff _).mpr (Or.inl rfl), rfl⟩

theorem initialMap_spec (lines : List LineGrid.Line)
    (h : ∀ (i : ℕ) (line : LineGrid.Line), lines[i]? = some line → lineOf (0, i) = some line) :
    ∃ done, Initial lineOf lines (initialMap lines) done := by
  induction lines using List.reverseRecOn with
  | nil =>
    refine ⟨[], by simp [initialMap], List.Perm.refl _, List.nodup_nil, by simp, by simp [initialMap]⟩
  | append_singleton lines l ih =>
    obtain ⟨done, hd⟩ := ih fun i line hi => h i line (getElem?_snoc.mpr (Or.inl hi))
    rw [initialMap_append]
    by_cases htaken : ∃ e ∈ (initialMap lines).entries, e.1 = l.position
    · rw [(initialMap lines).emplace_of_mem _ _ htaken]
      obtain ⟨l₀, hl₀, hpos⟩ := (hd.keys l.position).mp htaken
      exact ⟨done, hd.taken hl₀ hpos⟩
    · refine ⟨done ++ [(0, lines.length)], hd.opens (h _ l (by simp)) ?_ ?_⟩
      · exact emplaced_opens fun e he heq => htaken ⟨e, he, heq⟩
      · exact fun l' hl' hpos => htaken ((hd.keys _).mpr ⟨l', hl', hpos⟩)

/-- Every entry of the first grid's map stands for one line. -/
theorem initialMap_entry {lines : List LineGrid.Line} {e : ℚ × LineEntry} (he : e ∈ (initialMap lines).entries) :
    ∃ i line, lines[i]? = some line ∧ e = (line.position, .ofLine line (0, i)) := by
  induction lines using List.reverseRecOn with
  | nil => simp [initialMap] at he
  | append_singleton lines l ih =>
    rw [initialMap_append] at he
    rcases OrdMap.mem_emplaceEntries _ _ _ e he with rfl | he
    · exact ⟨lines.length, l, List.getElem?_concat_length, rfl⟩
    · obtain ⟨i, line, hi, rfl⟩ := ih he
      exact ⟨i, line, by rw [List.getElem?_append_left (List.getElem?_eq_some_iff.mp hi).1, hi], rfl⟩

theorem initialMap_refClusters (lines : List LineGrid.Line) :
    refClusters (initialMap lines) = (referees (initialMap lines)).map fun r => [r] := by
  have hone : ∀ e ∈ (initialMap lines).entries, ∃ r, e.2.referees = [r] := fun e he => by
    obtain ⟨i, line, -, rfl⟩ := initialMap_entry he
    exact ⟨(0, i), rfl⟩
  unfold refClusters referees
  generalize (initialMap lines).entries = es at hone
  induction es with
  | nil => rfl
  | cons e es ih =>
    obtain ⟨r, hr⟩ := hone e List.mem_cons_self
    rw [List.map_cons, List.flatMap_cons, hr, List.map_append, ih fun e' he' => hone e' (List.mem_cons_of_mem _ he')]
    rfl

/-- The referees of a grid of `n` lines. -/
def gridRefs (g n : ℕ) : List Referee := (List.range n).map (g, ·)

theorem zipIdx_gridRefs (lines : List LineGrid.Line) (g : ℕ) :
    (lines.zipIdx.map fun l => (g, l.2)) = gridRefs g lines.length := by
  unfold gridRefs
  rw [List.range_eq_range', ← List.zipIdx_map_snd, List.map_map]
  rfl

/-- **The lines of one more grid.**  What each insertion keeps, besides the averaging invariant, holds at the end. -/
theorem insertLines_inv {done : List Referee} {map map' : LineMap} {lines : List LineGrid.Line} {g : ℕ} {limit : ℚ}
    {P : List (LineGrid.Line × ℕ) → LineMap → Prop} (hlim : 0 < limit) (h : Averaged lineOf done map)
    (hl : ∀ (i : ℕ) (line : LineGrid.Line), lines[i]? = some line → lineOf (g, i) = some line) (h0 : P [] map)
    (hstep : ∀ handled l others s s', lines.zipIdx = handled ++ l :: others →
      Averaged lineOf (done ++ handled.map fun l => (g, l.2)) s → lineOf (g, l.2) = some l.1 → P handled s →
      insertLine s l.1 (g, l.2) limit = some s' → P (handled ++ [l]) s')
    (hi : insertLines limit map lines g = some map') :
    Averaged lineOf (done ++ gridRefs g lines.length) map' ∧ P lines.zipIdx map' := by
  have hrun := foldlM_inv (fun handled s => Averaged lineOf (done ++ handled.map fun l => (g, l.2)) s ∧ P handled s)
    ⟨by simpa using h, h0⟩ (by
      rintro handled ⟨line, i⟩ others s s' hsplit ⟨ha, hp⟩ hs
      have hmem : (line, i) ∈ lines.zipIdx := by rw [hsplit]; simp
      have hline := hl i line (List.mk_mem_zipIdx_iff_getElem?.mp hmem)
      rw [List.map_append, ← List.append_assoc]
      exact ⟨averaged_insertLine hlim ha hline hs, hstep handled (line, i) others s s' hsplit ha hline hp hs⟩) hi
  rwa [zipIdx_gridRefs] at hrun

theorem insertLines_spec {done : List Referee} {map map' : LineMap} {lines : List LineGrid.Line} {g : ℕ} {limit : ℚ}
    (hlim : 0 < limit) (h : Averaged lineOf done map)
    (hl : ∀ (i : ℕ) (line : LineGrid.Line), lines[i]? = some line → lineOf (g, i) = some line)
    (hi : insertLines limit map lines g = some map') :
    Averaged lineOf (done ++ gridRefs g lines.length) map' ∧
      (rule lineOf limit).Run (refClusters map) (gridRefs g lines.length)
        (refClusters map') := by
  have hrun := insertLines_inv
    (P := fun handled s => (rule lineOf limit).Run (refClusters map)
      (handled.map fun l => (g, l.2)) (refClusters s)) hlim h hl (.nil (List.Perm.refl _)) (by
      intro handled l others s s' _ ha hline hr hs
      rw [List.map_append]
      exact Cluster.run_append hr (run_insertLine hlim ha hline hs)) hi
  rwa [zipIdx_gridRefs] at hrun

theorem insertLines_total {map : LineMap} {limit : ℚ} (hlim : 0 < limit) (h : map.entries ≠ []) (lines : List LineGrid.Line)
    (g : ℕ) : ∃ map', insertLines limit map lines g = some map' ∧ map'.entries ≠ [] := by
  refine foldlM_total (fun _ s => OrdMap.entries s ≠ []) h ?_
  intro handled l others s _ hs
  exact insertLine_total l.1 (g, l.2) hlim hs

end Invariant

/-! ## All grids, one direction -/

/-- The line a referee stands for. -/
def lineRef (grids : List (List LineGrid.Line)) (r : Referee) : Option LineGrid.Line :=
  grids[r.1]?.bind fun lines => lines[r.2]?

/-- The map of one direction after all insertions. -/
def directionMap [Rounding] (limit : ℚ) (front : List LineGrid.Line) (rest : List (List LineGrid.Line)) : Option LineMap :=
  (rest.zipIdx 1).foldlM (fun map it => insertLines limit map it.1 it.2) (initialMap front)

theorem lineMaps_some {R : Rounding} {front : LineGrid} {rest : List LineGrid} {horizontal vertical : LineMap} :
    lineMaps (front :: rest) = some (horizontal, vertical) ↔
      directionMap limitHorizontal front.horizonalLines (rest.map (·.horizonalLines)) = some horizontal ∧
      directionMap limitVertical front.verticalLines (rest.map (·.verticalLines)) = some vertical := by
  unfold directionMap
  rw [List.zipIdx_map, List.zipIdx_map, List.foldlM_map, List.foldlM_map]
  exact foldlM_prod (f := fun map (it : LineGrid × ℕ) => insertLines limitHorizontal map it.1.horizonalLines it.2)
    (g := fun map it => insertLines limitVertical map it.1.verticalLines it.2)

/-- The first grid has a line, or no grid has one: `insertLine` never meets an empty map. -/
def Started (front : List LineGrid.Line) (rest : List (List LineGrid.Line)) : Prop :=
  front = [] → ∀ lines ∈ rest, lines = []

theorem started_of_ne_nil {front : List LineGrid.Line} (h : front ≠ []) (rest : List (List LineGrid.Line)) :
    Started front rest := fun h0 => absurd h0 h

/-- The referees of the grids after the first. -/
def laterRefs (rest : List (List LineGrid.Line)) : List Referee :=
  (rest.zipIdx 1).flatMap fun it => gridRefs it.2 it.1.length

/-- The lines of the first grid that open an entry: the first at each position. -/
def openers (front : List LineGrid.Line) : List Referee :=
  (gridRefs 0 front.length).filter fun r => ∀ j < r.2, front[j]?.map (·.position) ≠ front[r.2]?.map (·.position)

/-- Clustering of all lines by running means: those of the first grid open clusters, the later ones come in
order. -/
def ClustersTo [Rounding] (limit : ℚ) (front : List LineGrid.Line) (rest : List (List LineGrid.Line))
    (cs : List (List Referee)) : Prop :=
  (rule (lineRef (front :: rest)) limit).Run ((openers front).map fun r => [r]) (laterRefs rest) cs

/-- What the map of one direction is: the clusters of the lines, and no line is in two. -/
structure Clustered [Rounding] (limit : ℚ) (front : List LineGrid.Line) (rest : List (List LineGrid.Line)) (map : LineMap) :
    Prop where
  entry : ∀ e ∈ map.entries, EntryInv (lineRef (front :: rest)) e
  referees : referees map <+~ openers front ++ laterRefs rest
  clusters : ClustersTo limit front rest (refClusters map)

section Direction

variable {R : Rounding} {limit : ℚ} {front : List LineGrid.Line} {rest : List (List LineGrid.Line)} {map : LineMap}

theorem lineRef_front {i : ℕ} {line : LineGrid.Line} (h : front[i]? = some line) :
    lineRef (front :: rest) (0, i) = some line := by
  show ((front :: rest)[0]?).bind _ = _
  exact h

/-- The grids after the first are inserted under their index. -/
theorem mem_zipIdx_rest (front : List LineGrid.Line) {it : List LineGrid.Line × ℕ} (h : it ∈ rest.zipIdx 1) :
    1 ≤ it.2 ∧ (front :: rest)[it.2]? = some it.1 := by
  obtain ⟨hle, hget⟩ := List.mem_zipIdx_iff_le_and_getElem?_sub.mp h
  obtain ⟨k, hk⟩ := Nat.exists_eq_add_of_le' hle
  rw [hk, Nat.add_sub_cancel] at hget
  rw [hk]
  exact ⟨by omega, hget⟩

theorem lineRef_rest {it : List LineGrid.Line × ℕ} (h : it ∈ rest.zipIdx 1) {i : ℕ} {line : LineGrid.Line}
    (hi : it.1[i]? = some line) : lineRef (front :: rest) (it.2, i) = some line := by
  unfold lineRef
  rw [(mem_zipIdx_rest front h).2]
  exact hi

/-- **All insertions of one direction.**  What the lines of each further grid keep holds at the end. -/
theorem directionMap_inv {P : List (List LineGrid.Line × ℕ) → LineMap → Prop} (hlim : 0 < limit)
    (h0 : P [] (initialMap front))
    (hstep : ∀ handled it done s s', it ∈ rest.zipIdx 1 → Averaged (lineRef (front :: rest)) done s →
      (∀ i, (it.2, i) ∉ done) →
      (∀ (i : ℕ) (line : LineGrid.Line), it.1[i]? = some line → lineRef (front :: rest) (it.2, i) = some line) →
      P handled s → insertLines limit s it.1 it.2 = some s' → P (handled ++ [it]) s')
    (h : directionMap limit front rest = some map) :
    ∃ done, Initial (lineRef (front :: rest)) front (initialMap front) done ∧
      Averaged (lineRef (front :: rest)) (done ++ laterRefs rest) map ∧ P (rest.zipIdx 1) map := by
  obtain ⟨done, hd⟩ : ∃ done, Initial (lineRef (front :: rest)) front (initialMap front) done :=
    initialMap_spec front fun i line hi => lineRef_front hi
  refine ⟨done, hd, ?_⟩
  refine foldlM_inv (fun handled s =>
      Averaged (lineRef (front :: rest)) (done ++ handled.flatMap fun it => gridRefs it.2 it.1.length) s ∧ P handled s)
    ⟨by simpa using hd.averaged, h0⟩ ?_ h
  rintro handled it others s s' hsplit ⟨ha, hp⟩ hs
  have hit : it ∈ rest.zipIdx 1 := by rw [hsplit]; simp
  have hline : ∀ (i : ℕ) (line : LineGrid.Line), it.1[i]? = some line →
      lineRef (front :: rest) (it.2, i) = some line := fun i line hi => lineRef_rest hit hi
  -- the grids before have other indices
  have hnew : ∀ i, (it.2, i) ∉ done ++ handled.flatMap fun it => gridRefs it.2 it.1.length := by
    intro i hi
    rcases List.mem_append.mp hi with hi | hi
    · have h₁ : it.2 = 0 := ((hd.mem _).mp hi).1
      have h₂ := (mem_zipIdx_rest front hit).1
      omega
    · obtain ⟨it', hit', hi⟩ := List.mem_flatMap.mp hi
      obtain ⟨k, -, hk⟩ := List.mem_map.mp hi
      have hidx := zipIdx_pairwise_lt rest 1
      rw [hsplit] at hidx
      have hlt := (List.pairwise_append.mp hidx).2.2 it' hit' it List.mem_cons_self
      exact hlt.ne (Prod.mk.inj hk).1
  rw [List.flatMap_append, List.flatMap_singleton, ← List.append_assoc]
  exact ⟨(insertLines_spec hlim ha hline hs).1, hstep handled it _ s s' hit ha hnew hline hp hs⟩

/-- **The map of one direction** is the outcome of a clustering run over the referees. -/
theorem directionMap_run (hlim : 0 < limit) (h : directionMap limit front rest = some map) :
    ∃ done, Initial (lineRef (front :: rest)) front (initialMap front) done ∧
      Averaged (lineRef (front :: rest)) (done ++ laterRefs rest) map ∧
      (rule (lineRef (front :: rest)) limit).Run (refClusters (initialMap front))
        (laterRefs rest) (refClusters map) := by
  refine directionMap_inv
    (P := fun handled s => (rule (lineRef (front :: rest)) limit).Run
      (refClusters (initialMap front)) (handled.flatMap fun it => gridRefs it.2 it.1.length) (refClusters s))
    hlim (.nil (List.Perm.refl _)) ?_ h
  intro handled it done s s' _ ha _ hline hr hs
  rw [List.flatMap_append, List.flatMap_singleton]
  exact Cluster.run_append hr (insertLines_spec hlim ha hline hs).2

theorem directionMap_ne_none (hlim : 0 < limit) (hstart : Started front rest) :
    ∃ map, directionMap limit front rest = some map := by
  unfold directionMap
  by_cases hne : front = []
  · -- nothing is inserted
    have hnil : ∀ it ∈ rest.zipIdx 1, it.1 = [] := fun it hit =>
      hstart hne it.1 (List.mem_of_getElem? (List.mem_zipIdx_iff_le_and_getElem?_sub.mp hit).2)
    refine ⟨_, foldlM_eq_foldl (g := fun m _ => m) fun m it hit => ?_⟩
    rw [hnil it hit]
    rfl
  · have hfirst : (initialMap front).entries ≠ [] := by
      obtain ⟨done, hd⟩ : ∃ done, Initial (lineRef (front :: rest)) front (initialMap front) done :=
        initialMap_spec front fun i line hi => lineRef_front hi
      obtain ⟨l, ls, rfl⟩ := List.exists_cons_of_ne_nil hne
      obtain ⟨e, he, -⟩ := (hd.keys l.position).mpr ⟨l, List.mem_cons_self, rfl⟩
      exact List.ne_nil_of_mem he
    obtain ⟨map, hmap, -⟩ := foldlM_total
      (f := fun map (it : List LineGrid.Line × ℕ) => insertLines limit map it.1 it.2) (l := rest.zipIdx 1)
      (fun _ s => s.entries ≠ []) hfirst fun _ it _ s _ hs => insertLines_total hlim hs it.1 it.2
    exact ⟨map, hmap⟩

theorem mem_openers {r : Referee} : r ∈ openers front ↔ r.1 = 0 ∧ ∃ line, front[r.2]? = some line ∧
    ∀ (j : ℕ) (l : LineGrid.Line), j < r.2 → front[j]? = some l → l.position ≠ line.position := by
  unfold openers gridRefs
  rw [List.mem_filter, List.mem_map, decide_eq_true_iff]
  constructor
  · rintro ⟨⟨i, hi, rfl⟩, hfirst⟩
    have hget := List.getElem?_eq_getElem (List.mem_range.mp hi)
    refine ⟨rfl, _, hget, fun j l hj hl heq => hfirst j hj ?_⟩
    rw [hl, hget, Option.map_some, Option.map_some, heq]
  · rintro ⟨h0, line, hl, hfirst⟩
    refine ⟨⟨r.2, List.mem_range.mpr (List.getElem?_eq_some_iff.mp hl).1, Prod.ext h0.symm rfl⟩, fun j hj heq => ?_⟩
    rw [hl, Option.map_some, Option.map_eq_some_iff] at heq
    obtain ⟨l, hl', hpos⟩ := heq
    exact hfirst j l hj hl' hpos

theorem openers_nodup (front : List LineGrid.Line) : (openers front).Nodup :=
  (List.nodup_range.map fun _ _ hij => (Prod.mk.inj hij).2).filter _

theorem mem_laterRefs (front : List LineGrid.Line) {r : Referee} :
    r ∈ laterRefs rest ↔ r.1 ≠ 0 ∧ ∃ line, lineRef (front :: rest) r = some line := by
  unfold laterRefs gridRefs
  constructor
  · intro hr
    obtain ⟨it, hit, hr⟩ := List.mem_flatMap.mp hr
    obtain ⟨i, hi, rfl⟩ := List.mem_map.mp hr
    have hge := (mem_zipIdx_rest front hit).1
    exact ⟨by omega, _, lineRef_rest hit (List.getElem?_eq_getElem (List.mem_range.mp hi))⟩
  · rintro ⟨h0, line, hl⟩
    obtain ⟨g, i⟩ := r
    obtain ⟨k, rfl⟩ := Nat.exists_eq_succ_of_ne_zero h0
    obtain ⟨lines, hg, hi⟩ := Option.bind_eq_some_iff.mp hl
    refine List.mem_flatMap.mpr ⟨(lines, k + 1), ?_, List.mem_map.mpr ⟨i, ?_, rfl⟩⟩
    · exact List.mem_zipIdx_iff_le_and_getElem?_sub.mpr ⟨by simp, hg⟩
    · exact List.mem_range.mpr (List.getElem?_eq_some_iff.mp hi).1

theorem laterRefs_nodup (rest : List (List LineGrid.Line)) : (laterRefs rest).Nodup := by
  unfold laterRefs gridRefs
  rw [List.nodup_flatMap]
  refine ⟨fun it _ => List.nodup_range.map fun i j h => (Prod.mk.inj h).2, ?_⟩
  refine (zipIdx_pairwise_lt rest 1).imp fun {a b} hab r hra hrb => ?_
  obtain ⟨i, -, rfl⟩ := List.mem_map.mp hra
  obtain ⟨j, -, hj⟩ := List.mem_map.mp hrb
  exact hab.ne (Prod.mk.inj hj).1.symm

theorem allRefs_nodup (front : List LineGrid.Line) (rest : List (List LineGrid.Line)) :
    (openers front ++ laterRefs rest).Nodup := by
  refine List.nodup_append.mpr ⟨openers_nodup front, laterRefs_nodup rest, ?_⟩
  rintro a ha b hb rfl
  exact ((mem_laterRefs front).mp hb).1 (mem_openers.mp ha).1

/-- **What the insertions of one direction give.** -/
theorem clustered_of_directionMap (hlim : 0 < limit) (h : directionMap limit front rest = some map) :
    Clustered limit front rest map := by
  obtain ⟨done, hd, ha, hr⟩ := directionMap_run hlim h
  have hopen : done ~ openers front := by
    refine (List.perm_ext_iff_of_nodup hd.nodup (openers_nodup front)).mpr fun r => ?_
    rw [hd.mem, mem_openers]
  refine ⟨ha.entry, ha.referees.trans (hopen.append_right _).subperm, ?_⟩
  rw [initialMap_refClusters] at hr
  exact Cluster.run_perm ((hd.referees.trans hopen).map _) hr

namespace Clustered

variable (h : Clustered limit front rest map)

include h

theorem nodup : (GridMath.referees map).Nodup := by
  obtain ⟨l, hp, hsub⟩ := h.referees
  exact hp.nodup_iff.mp (hsub.nodup (allRefs_nodup front rest))

/-- What holds of all clusters holds of all entries. -/
theorem forall_iff {p : List Referee → Prop} :
    (∀ cs, ClustersTo limit front rest cs → ∀ c ∈ cs, p c) ↔ ∀ e ∈ map.entries, p e.2.referees := by
  constructor
  · intro hall e he
    exact hall _ h.clusters _ (List.mem_map.mpr ⟨e, he, rfl⟩)
  · intro hall cs hcs c hc
    obtain ⟨e, he, rfl⟩ := List.mem_map.mp ((Cluster.run_unique hcs h.clusters).mem_iff.mp hc)
    exact hall e he

end Clustered

theorem directionMap_spec (hlim : 0 < limit) (hstart : Started front rest) :
    ∃ map, directionMap limit front rest = some map ∧ Clustered limit front rest map := by
  obtain ⟨map, hmap⟩ := directionMap_ne_none hlim hstart
  exact ⟨map, hmap, clustered_of_directionMap hlim hmap⟩

end Direction

end Lyli.Calibration.GridMath
