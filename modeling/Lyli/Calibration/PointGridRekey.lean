import Mathlib
import Lyli.Calibration.PointGridDefined

/-!
# Points lost by the change of keys

Before a reverse pass the key of every line becomes the coordinate of its first
point.  The new map is filled with `insert`, so of two lines that begin at the
same coordinate the second is dropped with its points.  A line begins where the
construct pass opened it, and later passes keep its first point:

    the change of keys keeps every point  ↔  (fronts coord m).Nodup         (rekey_keeps_iff)
    (fronts coord m).Nodup  ↔  the construct pass never opens a line
                               where another begins                     (built_nodup_iff)

The second can happen: a line whose key has drifted more than `maxDiff` away
from its first point no longer attracts a point next to that one.
-/

namespace Lyli.Calibration.PointGrid

open Rounding (absDiff float)

/-- The coordinate a line gets as its key. -/
def frontKey (coord : Ptr → ℚ) (l : Line) : Option ℚ := l.line.head?.map coord

/-- Where the lines of a map begin. -/
def fronts (coord : Ptr → ℚ) (m : TmpLineMap) : List (Option ℚ) := m.entries.map fun e => frontKey coord e.2

section Rekey

variable {coord : Ptr → ℚ} {m m' : TmpLineMap}

theorem frontKey_head {l : Line} {front : Ptr} (h : l.line.head? = some front) :
    frontKey coord l = some (coord front) := by
  unfold frontKey
  rw [h]
  rfl

/-- Lines that begin at distinct coordinates are all kept. -/
theorem rekey_kept (h : rekey coord m = some m') (hd : (fronts coord m).Nodup) {e : ℚ × Line} (he : e ∈ m.entries) :
    ∃ e' ∈ m'.entries, e'.2 = e.2 := by
  have hspec := rekey_spec h
  obtain ⟨front, hf, e', he', hk⟩ := hspec.has e he
  refine ⟨e', he', ?_⟩
  -- the entry under the new key is an old line that begins there
  obtain ⟨a, ha, hae⟩ := List.mem_map.mp (rekey_mem_values h (List.mem_map.mpr ⟨e', he', rfl⟩))
  obtain ⟨front', hf', hk'⟩ := hspec.key e' he'
  have heq : a = e := by
    apply List.inj_on_of_nodup_map hd ha he
    rw [hae, frontKey_head hf', frontKey_head hf, ← hk', hk]
  rw [← hae, heq]

/-- **The change of keys keeps every point** iff the lines begin at distinct coordinates. -/
theorem rekey_keeps_iff (h : rekey coord m = some m') (hone : ∀ x, holders m x ≤ 1) :
    (∀ p ∈ points m, p ∈ points m') ↔ (fronts coord m).Nodup := by
  constructor
  · intro hkeep
    apply List.Nodup.map_on _ m.entries_nodup
    intro a ha b hb hab
    have hspec := rekey_spec h
    -- the line of an entry survives, as its first point does
    have hline : ∀ e ∈ m.entries, ∃ e' ∈ m'.entries, e'.2 = e.2 ∧ some e'.1 = frontKey coord e.2 := by
      intro e he
      obtain ⟨front, hf, -⟩ := hspec.has e he
      have hin : front ∈ e.2.line := List.mem_of_mem_head? hf
      obtain ⟨e', he', hfe'⟩ := mem_points.mp (hkeep front (mem_points.mpr ⟨e, he, hin⟩))
      obtain ⟨c, hc, hce⟩ := List.mem_map.mp (rekey_mem_values h (List.mem_map.mpr ⟨e', he', rfl⟩))
      have heq : c = e := eq_of_holders_le_one (hone front) hc he (by rw [hce]; exact hfe') hin
      obtain ⟨front', hf', hk'⟩ := hspec.key e' he'
      refine ⟨e', he', by rw [← hce, heq], ?_⟩
      rw [← heq, hce, frontKey_head hf', hk']
    obtain ⟨a', ha', hla, hka⟩ := hline a ha
    obtain ⟨b', hb', hlb, hkb⟩ := hline b hb
    have hkey : a'.1 = b'.1 := Option.some.inj (hka.trans (hab.trans hkb.symm))
    have hsame : a.2 = b.2 := by rw [← hla, m'.eq_of_key ha' hb' hkey, hlb]
    obtain ⟨front, hf, -⟩ := hspec.has a ha
    have hin : front ∈ a.2.line := List.mem_of_mem_head? hf
    exact eq_of_holders_le_one (hone front) ha hb hin (by rw [← hsame]; exact hin)
  · intro hd p hp
    obtain ⟨e, he, hpe⟩ := mem_points.mp hp
    obtain ⟨e', he', hl⟩ := rekey_kept h hd he
    exact mem_points.mpr ⟨e', he', by rw [hl]; exact hpe⟩

end Rekey

/-! ## Where lines begin -/

/-- `mapAddConstruct` opens a line: every key is farther than `maxDiff`. -/
def Opens [Rounding] (m : TmpLineMap) (q : ℚ) : Prop := ∀ e ∈ m.entries, maxDiff < absDiff e.1 q

/-- While the points of a construct pass are added, one opens a line where another begins. -/
def Reopens [Rounding] (coord : Ptr → ℚ) : TmpLineMap → List Ptr → Prop
  | _, [] => False
  | m, p :: ps =>
    (Opens m (coord p) ∧ some (coord p) ∈ fronts coord m) ∨
      ∃ m', mapAddConstruct m (coord p) p = some m' ∧ Reopens coord m' ps

section Fronts

variable {R : Rounding} {coord : Ptr → ℚ} {m m' : TmpLineMap} {q : ℚ} {p : Ptr} {e : ℚ × Line}

theorem frontKey_pushBack {l : Line} (h : l.line ≠ []) (p : Ptr) :
    frontKey coord (pushBack p l) = frontKey coord l := by
  obtain ⟨a, as, hl⟩ := List.exists_cons_of_ne_nil h
  unfold frontKey
  rw [pushBack_line, hl]
  rfl

/-- Attaching a point moves a key, not a beginning. -/
theorem AttachesTo.fronts (h : AttachesTo m q p e m') (hne : ∀ a ∈ m.entries, a.2.line ≠ []) :
    fronts coord m' = fronts coord m := by
  have hpush : frontKey coord (pushBack p e.2) = frontKey coord e.2 := frontKey_pushBack (hne e h.mem) p
  obtain ⟨-, l₁, l₂, hm, hm'⟩ := h
  unfold PointGrid.fronts
  rw [hm, hm', List.map_append, List.map_append, List.map_cons, List.map_cons, hpush]

/-- A new line begins at its own point. -/
theorem Creates.fronts_nodup (h : Creates m (coord p) p m') :
    (fronts coord m').Nodup ↔ some (coord p) ∉ fronts coord m ∧ (fronts coord m).Nodup := by
  obtain ⟨l₁, l₂, hm, hm'⟩ := h
  unfold fronts
  rw [hm, hm', List.map_append, List.map_append, List.map_cons, List.nodup_middle, List.nodup_cons]
  rfl

theorem lines_inserts (hne : ∀ a ∈ m.entries, a.2.line ≠ []) (h : Inserts m q p m') :
    ∀ a ∈ m'.entries, a.2.line ≠ [] := by
  rcases h with ⟨e, he⟩ | ⟨hc, -⟩ | rfl
  · intro a ha
    rcases (he.mem_iff a).mp ha with rfl | ⟨ha, -⟩
    · simp
    · exact hne a ha
  · exact (filled_create hne hc).lines
  · exact hne

/-- **One `mapAddConstruct`.** -/
theorem mapAddConstruct_fronts (h : mapAddConstruct m (coord p) p = some m') (hne : ∀ a ∈ m.entries, a.2.line ≠ []) :
    (fronts coord m').Nodup ↔ ¬ (Opens m (coord p) ∧ some (coord p) ∈ fronts coord m) ∧ (fronts coord m).Nodup := by
  rcases mapAddConstruct_cases h with ⟨e, he, hnear⟩ | ⟨hc, hfar⟩
  · have hno : ¬ Opens m (coord p) := fun ho => (ho e he.mem).not_ge hnear
    rw [he.fronts hne]
    simp [hno]
  · have ho : Opens m (coord p) := hfar
    rw [hc.fronts_nodup]
    simp [ho]

/-- **A construct pass.** -/
theorem constructAll_fronts {ps : List Ptr} (h : constructAll coord m ps = some m')
    (hne : ∀ a ∈ m.entries, a.2.line ≠ []) :
    (fronts coord m').Nodup ↔ ¬ Reopens coord m ps ∧ (fronts coord m).Nodup := by
  induction ps generalizing m with
  | nil =>
    obtain rfl : m = m' := Option.some.inj h
    simp [Reopens]
  | cons p ps ih =>
    obtain ⟨m₁, hm₁, hrest⟩ := foldlM_cons_some.mp h
    have hcons : Reopens coord m (p :: ps) ↔
        (Opens m (coord p) ∧ some (coord p) ∈ fronts coord m) ∨ Reopens coord m₁ ps := by
      show (_ ∨ ∃ s, mapAddConstruct m (coord p) p = some s ∧ Reopens coord s ps) ↔ _
      simp [hm₁]
    rw [ih hrest (lines_inserts hne (mapAddConstruct_inserts hm₁)), mapAddConstruct_fronts hm₁ hne, hcons]
    tauto

/-- **An adding pass** opens no line. -/
theorem addAll_fronts {ps : List Ptr} (h : addAll coord m ps = some m') (hne : ∀ a ∈ m.entries, a.2.line ≠ []) :
    fronts coord m' = fronts coord m := by
  have hinv : (∀ a ∈ m'.entries, a.2.line ≠ []) ∧ fronts coord m' = fronts coord m := by
    refine foldlM_inv (fun _ s => (∀ a ∈ s.entries, a.2.line ≠ []) ∧ fronts coord s = fronts coord m) ⟨hne, rfl⟩ ?_ h
    rintro done p rest s s' - ⟨hs, hf⟩ hstep
    refine ⟨lines_inserts hs (mapAdd_inserts hstep), ?_⟩
    rcases mapAdd_cases hstep with ⟨e, he, -⟩ | ⟨rfl, -⟩
    · rw [he.fronts hs, hf]
    · exact hf
  exact hinv.2

/-- **Both passes.**  The lines begin at distinct coordinates iff none is opened where another begins. -/
theorem built_nodup_iff {construct following : List Ptr} (h : Built coord construct following m) :
    (fronts coord m).Nodup ↔ ¬ Reopens coord .empty construct := by
  obtain ⟨m₁, h₁, h₂⟩ := h
  have hne : ∀ a ∈ m₁.entries, a.2.line ≠ [] :=
    foldlM_inv (fun _ s => ∀ a ∈ OrdMap.entries s, a.2.line ≠ []) (by simp)
      (fun _ _ _ _ _ _ hs hstep => lines_inserts hs (mapAddConstruct_inserts hstep)) h₁
  rw [addAll_fronts h₂ hne, constructAll_fronts h₁ (by simp)]
  simp [fronts]

end Fronts

/-! ## The re-keyings of `finalize` -/

/-- The points the construct loop handles. -/
def constructPoints [Rounding] (g : PointGrid) : List Ptr :=
  match g.accumulator[g.accumulator.length / 3]? with
  | none => []
  | some start => (g.accumulator.drop (g.accumulator.length / 3)).takeWhile fun p =>
      decide ((position g.storage p).y < float ((position g.storage start).y + constructLim))

theorem horizontalBuilt_constructPoints {R : Rounding} {g : PointGrid} {m : TmpLineMap} (h : g.horizontalBuilt = some m) :
    ∃ rest, Built (fun p => (position g.storage p).x) g.constructPoints rest m := by
  obtain ⟨start, done, rest, hdrop, hlim, ⟨b, hb, hstop⟩, hbuilt⟩ := horizontalBuilt_some.mp h
  refine ⟨rest, ?_⟩
  have hstart : g.accumulator[g.accumulator.length / 3]? = some start := by
    rw [← List.head?_drop, hdrop]
    rfl
  have hpoints : g.constructPoints = start :: done := by
    unfold constructPoints
    rw [hstart]
    show List.takeWhile _ (g.accumulator.drop _) = _
    obtain ⟨bs, rfl⟩ := List.head?_eq_some_iff.mp hb
    rw [hdrop, List.takeWhile_append_of_pos fun p hp => decide_eq_true (hlim p hp),
      List.takeWhile_cons_of_neg (by simpa using hstop), List.append_nil]
  rw [hpoints]
  exact hbuilt

/-- No change of keys loses a point that the passes before it put in a line. -/
structure RekeyKeeps [Rounding] (S : StdSort) (g : PointGrid) : Prop where
  horizontal : ∀ m m', g.horizontalBuilt = some m → rekey (fun p => (position g.storage p).x) m = some m' →
    ∀ p ∈ points m, p ∈ points m'
  odd : ∀ lines s m', g.horizontalLines S = some lines →
    verticalBuilt (fun p => (position g.storage p).y) lines = some s →
    rekey (fun p => (position g.storage p).y) s.odd = some m' → ∀ p ∈ points s.odd, p ∈ points m'
  even : ∀ lines s m', g.horizontalLines S = some lines →
    verticalBuilt (fun p => (position g.storage p).y) lines = some s →
    rekey (fun p => (position g.storage p).y) s.even = some m' → ∀ p ∈ points s.even, p ∈ points m'

/-- No construct pass opens a line where another begins. -/
structure NoReopening [Rounding] (S : StdSort) (g : PointGrid) : Prop where
  horizontal : ¬ Reopens (fun p => (position g.storage p).x) .empty g.constructPoints
  odd : ∀ lines, g.horizontalLines S = some lines →
    ¬ Reopens (fun p => (position g.storage p).y) .empty (offered lines (constructRange lines) 0)
  even : ∀ lines, g.horizontalLines S = some lines →
    ¬ Reopens (fun p => (position g.storage p).y) .empty (offered lines (constructRange lines) 1)

/-- **Re-keying loses no point** iff no construct pass opens a line where another begins. -/
theorem finalize_rekeyKeeps_iff {R : Rounding} (S : StdSort) (pts : List Point2f) (g : PointGrid)
    (h : (addPoints pts).finalize S = some g) :
    RekeyKeeps S (addPoints pts) ↔ NoReopening S (addPoints pts) := by
  obtain ⟨hor, vert, m', m'', s', s'', hs⟩ := finalize_swept h
  have hhor : ∀ {lines}, (addPoints pts).horizontalLines S = some lines → lines = hor := fun hl =>
    Option.some.inj (hl.symm.trans hs.finalized.horizontal)
  -- the maps of this run before the change of keys
  obtain ⟨m, hm, hkey⟩ : ∃ m, (addPoints pts).horizontalBuilt = some m ∧
      rekey (fun p => (position (addPoints pts).storage p).x) m = some m' := by
    have := hs.keyed
    rw [horizontalKeyed_rekey] at this
    exact Option.bind_eq_some_iff.mp this
  obtain ⟨s, hbuilt, hodd, heven⟩ := verticalKeyed_rekey.mp hs.vertKeyed
  obtain ⟨-, hbo, hbe⟩ := verticalBuilt_some.mp hbuilt
  obtain ⟨rest, hb⟩ := horizontalBuilt_constructPoints hm
  have horizontal_iff := rekey_keeps_iff hkey fun x =>
    (holders_le_count m x).trans (horizontalBuilt_count_le_one hm x)
  have odd_iff := rekey_keeps_iff hodd (verticalBuilt_holders hs.length_le hs.hor_holders_le_one hs.horSorted hbo)
  have even_iff := rekey_keeps_iff heven (verticalBuilt_holders hs.length_le hs.hor_holders_le_one hs.horSorted hbe)
  rw [built_nodup_iff hb] at horizontal_iff
  rw [built_nodup_iff hbo] at odd_iff
  rw [built_nodup_iff hbe] at even_iff
  constructor
  · intro hk
    refine ⟨horizontal_iff.mp (hk.horizontal m m' hm hkey), ?_, ?_⟩
    · intro lines hl
      obtain rfl := hhor hl
      exact odd_iff.mp (hk.odd lines s s'.odd hl hbuilt hodd)
    · intro lines hl
      obtain rfl := hhor hl
      exact even_iff.mp (hk.even lines s s'.even hl hbuilt heven)
  · intro hn
    refine ⟨?_, ?_, ?_⟩
    · intro m₂ m₃ h₂ h₃
      obtain rfl : m = m₂ := Option.some.inj (hm.symm.trans h₂)
      obtain rfl : m' = m₃ := Option.some.inj (hkey.symm.trans h₃)
      exact horizontal_iff.mpr hn.horizontal
    · intro lines s₂ m₃ hl h₂ h₃
      obtain rfl := hhor hl
      obtain rfl : s = s₂ := Option.some.inj (hbuilt.symm.trans h₂)
      obtain rfl : s'.odd = m₃ := Option.some.inj (hodd.symm.trans h₃)
      exact odd_iff.mpr (hn.odd lines hl)
    · intro lines s₂ m₃ hl h₂ h₃
      obtain rfl := hhor hl
      obtain rfl : s = s₂ := Option.some.inj (hbuilt.symm.trans h₂)
      obtain rfl : s'.even = m₃ := Option.some.inj (heven.symm.trans h₃)
      exact even_iff.mpr (hn.even lines hl)

section Floats

attribute [local instance] Rounding.ieee

theorem finalize_rekeyKeeps_iff_squareGrid :
    ∃ g, (addPoints squareGrid).finalize .insertion = some g ∧
      (RekeyKeeps .insertion (addPoints squareGrid) ↔ NoReopening .insertion (addPoints squareGrid)) := by
  obtain ⟨g, hg⟩ := finalize_squareGrid
  exact ⟨g, hg, finalize_rekeyKeeps_iff .insertion squareGrid g hg⟩

/-- The line begun at `x = 0` drifts to `x = 9` before the next point at `x = 0` comes. -/
def reopeningGrid : List Point2f :=
  [⟨0, -50⟩, ⟨0, -45⟩, ⟨0, -40⟩, ⟨0, -35⟩, ⟨0, -30⟩, ⟨0, -25⟩, ⟨0, 0⟩, ⟨3, 0⟩, ⟨6, 0⟩, ⟨9, 0⟩, ⟨0, 1⟩, ⟨100, 1⟩, ⟨110, 1⟩,
   ⟨120, 1⟩, ⟨130, 1⟩, ⟨140, 1⟩, ⟨150, 1⟩, ⟨160, 1⟩, ⟨0, 20⟩]

/-- The points 6 to 9 are lost with the line they stand on. -/
theorem reopeningGrid_not_rekeyKeeps :
    ∃ g, (addPoints reopeningGrid).finalize .insertion = some g ∧ ¬ RekeyKeeps .insertion (addPoints reopeningGrid) := by
  have hsome : ((addPoints reopeningGrid).finalize .insertion).isSome = true := by decide +kernel
  have hlost : ((addPoints reopeningGrid).horizontalBuilt).any (fun m =>
      (points m).contains 7 && (rekey (fun p => (position (addPoints reopeningGrid).storage p).x) m).any
        fun m' => !(points m').contains 7) = true := by decide +kernel
  obtain ⟨g, hg⟩ := Option.isSome_iff_exists.mp hsome
  refine ⟨g, hg, fun hkeeps => ?_⟩
  obtain ⟨m, hm, h⟩ := (Option.any_eq_true _ _).mp hlost
  rw [Bool.and_eq_true, Option.any_eq_true] at h
  obtain ⟨h₇, m', hm', hnot⟩ := h
  have hin := hkeeps.horizontal m m' hm hm' 7 (by simpa using h₇)
  simp [hin] at hnot

end Floats

end Lyli.Calibration.PointGrid
