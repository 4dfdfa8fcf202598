import Mathlib
import Lyli.Calibration.PointGridRekey

/-!
# Passes over banded points

Suppose the points fall into bands: two points of one band are less than
`maxDiff` apart, two points of different bands more (`Banded`).  A key of a line
map moves with every insertion, but it is always the coordinate of a point of
its line, so it stays in the band of its line (`InBands`):

    InBands m  ∧  band p occurs in m  →  mapAdd appends p to the line of its band      (mapAdd_banded)
    InBands m  →  mapAddConstruct appends p to that line, or opens it                  (mapAddConstruct_banded)
    InBands m  →  rekey keeps every line                                               (rekey_banded)

So after all passes the lines are the bands (`keyed_banded`, `addAll_banded`).
-/

namespace Lyli.Calibration.PointGrid

open Rounding (absDiff absDiff_grows)

attribute [local instance] Rounding.exact

/-- `band` splits the points of `U` into bands less than `maxDiff` wide and more than `maxDiff` apart. -/
structure Banded {ι : Type} (coord : Ptr → ℚ) (band : Ptr → ι) (U : Ptr → Prop) : Prop where
  near : ∀ p p', U p → U p' → band p = band p' → |coord p - coord p'| < maxDiff
  far : ∀ p p', U p → U p' → band p ≠ band p' → maxDiff < |coord p - coord p'|

/-- Every line keeps to one band, in which its key lies too, and no two lines share a band. -/
structure InBands {ι : Type} (coord : Ptr → ℚ) (band : Ptr → ι) (U : Ptr → Prop) (m : TmpLineMap) : Prop where
  key : ∀ e ∈ m.entries, ∃ p ∈ e.2.line, e.1 = coord p
  mem : ∀ e ∈ m.entries, ∀ p ∈ e.2.line, U p
  same : ∀ e ∈ m.entries, ∀ p ∈ e.2.line, ∀ p' ∈ e.2.line, band p = band p'
  apart : ∀ e ∈ m.entries, ∀ e' ∈ m.entries, ∀ p ∈ e.2.line, ∀ p' ∈ e'.2.line, band p = band p' → e = e'

variable {ι : Type} {coord : Ptr → ℚ} {band : Ptr → ι} {U : Ptr → Prop} {m m' : TmpLineMap}

theorem inBands_empty : InBands coord band U .empty :=
  ⟨by simp, by simp, by simp, by simp⟩

/-- The key of a line lies near the points of the line's band. -/
theorem InBands.key_near (hm : InBands coord band U m) (hB : Banded coord band U) {e : ℚ × Line} (he : e ∈ m.entries)
    {x p : Ptr} (hx : x ∈ e.2.line) (hp : U p) (h : band x = band p) : |e.1 - coord p| < maxDiff := by
  obtain ⟨y, hy, hkey⟩ := hm.key e he
  rw [hkey]
  exact hB.near y p (hm.mem e he y hy) hp ((hm.same e he y hy x hx).trans h)

/-- … and far from those of any other band. -/
theorem InBands.key_far (hm : InBands coord band U m) (hB : Banded coord band U) {e : ℚ × Line} (he : e ∈ m.entries)
    {p : Ptr} (hp : U p) (h : ∀ x ∈ e.2.line, band x ≠ band p) : maxDiff < |e.1 - coord p| := by
  obtain ⟨y, hy, hkey⟩ := hm.key e he
  rw [hkey]
  exact hB.far y p (hm.mem e he y hy) hp (h y hy)

/-- An entry within `maxDiff` of a point is the line of its band. -/
theorem InBands.band_of_near (hm : InBands coord band U m) (hB : Banded coord band U) {e : ℚ × Line}
    (he : e ∈ m.entries) {p : Ptr} (hp : U p) (h : |e.1 - coord p| ≤ maxDiff) : ∀ x ∈ e.2.line, band x = band p := by
  intro x hx
  by_contra hne
  have hfar := hm.key_far hB he hp fun y hy heq => hne ((hm.same e he x hx y hy).trans heq)
  exact hfar.not_ge h

/-! ## One insertion -/

theorem InBands.attach (hm : InBands coord band U m) {p : Ptr} {e : ℚ × Line} (h : AttachesTo m (coord p) p e m')
    (hp : U p) (hband : ∀ x ∈ e.2.line, band x = band p) : InBands coord band U m' := by
  -- the points of the changed line are all of the band of `p`
  have hnew : ∀ x ∈ (pushBack p e.2).line, band x = band p := by
    intro x hx
    rw [pushBack_line, List.mem_append, List.mem_singleton] at hx
    rcases hx with hx | rfl
    · exact hband x hx
    · rfl
  -- and no other line has points of that band
  have hother : ∀ a ∈ m.entries, a ≠ e → ∀ x ∈ a.2.line, band x ≠ band p := by
    intro a ha hae x hx heq
    obtain ⟨y, hy, -⟩ := hm.key e h.mem
    exact hae (hm.apart a ha e h.mem x hx y hy (heq.trans (hband y hy).symm))
  refine ⟨?_, ?_, ?_, ?_⟩
  · intro a ha
    rcases (h.mem_iff a).mp ha with rfl | ⟨ha, -⟩
    · exact ⟨p, by simp, rfl⟩
    · exact hm.key a ha
  · intro a ha x hx
    rcases (h.mem_iff a).mp ha with rfl | ⟨ha, -⟩
    · rw [pushBack_line, List.mem_append, List.mem_singleton] at hx
      rcases hx with hx | rfl
      · exact hm.mem e h.mem x hx
      · exact hp
    · exact hm.mem a ha x hx
  · intro a ha x hx x' hx'
    rcases (h.mem_iff a).mp ha with rfl | ⟨ha, -⟩
    · rw [hnew x hx, hnew x' hx']
    · exact hm.same a ha x hx x' hx'
  · intro a ha b hb x hx x' hx' heq
    rcases (h.mem_iff a).mp ha with rfl | ⟨ha, hae⟩
    · rcases (h.mem_iff b).mp hb with rfl | ⟨hb, hbe⟩
      · rfl
      · exact absurd (heq.symm.trans (hnew x hx)) (hother b hb hbe x' hx')
    · rcases (h.mem_iff b).mp hb with rfl | ⟨hb, -⟩
      · exact absurd (heq.trans (hnew x' hx')) (hother a ha hae x hx)
      · exact hm.apart a ha b hb x hx x' hx' heq

theorem InBands.create (hm : InBands coord band U m) {p : Ptr} (h : Creates m (coord p) p m') (hp : U p)
    (hnone : ∀ x ∈ points m, band x ≠ band p) : InBands coord band U m' := by
  have hout : ∀ a ∈ m.entries, ∀ x ∈ a.2.line, band x ≠ band p := fun a ha x hx =>
    hnone x (mem_points.mpr ⟨a, ha, hx⟩)
  refine ⟨?_, ?_, ?_, ?_⟩
  · intro a ha
    rcases (h.mem_iff a).mp ha with rfl | ha
    · exact ⟨p, by simp, rfl⟩
    · exact hm.key a ha
  · intro a ha x hx
    rcases (h.mem_iff a).mp ha with rfl | ha
    · obtain rfl : x = p := by simpa using hx
      exact hp
    · exact hm.mem a ha x hx
  · intro a ha x hx x' hx'
    rcases (h.mem_iff a).mp ha with rfl | ha
    · obtain rfl : x = p := by simpa using hx
      obtain rfl : x' = x := by simpa using hx'
      rfl
    · exact hm.same a ha x hx x' hx'
  · intro a ha b hb x hx x' hx' heq
    rcases (h.mem_iff a).mp ha with rfl | ha
    · obtain rfl : x = p := by simpa using hx
      rcases (h.mem_iff b).mp hb with rfl | hb
      · rfl
      · exact absurd heq.symm (hout b hb x' hx')
    · rcases (h.mem_iff b).mp hb with rfl | hb
      · obtain rfl : x' = p := by simpa using hx'
        exact absurd heq (hout a ha x hx)
      · exact hm.apart a ha b hb x hx x' hx' heq

/-- **One `mapAddConstruct` on bands.** -/
theorem mapAddConstruct_banded (hB : Banded coord band U) (hm : InBands coord band U m) {p : Ptr} (hp : U p)
    (h : mapAddConstruct m (coord p) p = some m') : InBands coord band U m' := by
  rcases mapAddConstruct_cases h with ⟨e, he, hnear⟩ | ⟨hc, hfar⟩
  · exact hm.attach he hp (hm.band_of_near hB he.mem hp hnear)
  · apply hm.create hc hp
    intro x hx heq
    obtain ⟨e, he, hxe⟩ := mem_points.mp hx
    exact (hfar e he).not_gt (hm.key_near hB he hxe hp heq)

/-- **One `mapAdd` on bands.**  A point whose band has a line is appended to it. -/
theorem mapAdd_banded (hB : Banded coord band U) (hm : InBands coord band U m) {p : Ptr} (hp : U p)
    (hocc : ∃ x ∈ points m, band x = band p) :
    ∃ m', mapAdd m (coord p) p = some m' ∧ InBands coord band U m' ∧ ∀ x, x ∈ points m' ↔ x ∈ points m ∨ x = p := by
  obtain ⟨x, hx, hband⟩ := hocc
  obtain ⟨a, ha, hxa⟩ := mem_points.mp hx
  have hclose := hm.key_near hB ha hxa hp hband
  obtain ⟨m', hm'⟩ := mapAdd_ne_none (coord p) p (List.ne_nil_of_mem ha)
  rcases mapAdd_cases hm' with ⟨e, he, hnear⟩ | ⟨-, hno⟩
  · refine ⟨m', hm', hm.attach he hp (hm.band_of_near hB he.mem hp hnear.le), fun y => ?_⟩
    rw [he.points_perm.mem_iff, List.mem_cons]
    exact or_comm
  · -- the nearest entry is at least as near as the line of the band
    obtain ⟨e, he⟩ := m.exists_nearest absDiff (coord p) (List.ne_nil_of_mem ha)
    exact absurd ⟨e, he, ((m.nearest?_le absDiff_grows _ he).2 a ha).trans_lt hclose⟩ hno

/-! ## Passes -/

theorem constructAll_banded (hB : Banded coord band U) {ps : List Ptr} (hps : ∀ p ∈ ps, U p)
    (h : constructAll coord .empty ps = some m) : InBands coord band U m ∧ ∀ x, x ∈ points m ↔ x ∈ ps := by
  refine ⟨?_, fun x => ?_⟩
  · refine foldlM_inv (fun _ s => InBands coord band U s) inBands_empty ?_ h
    intro done p rest s s' hl hs hstep
    exact mapAddConstruct_banded hB hs (hps p (hl ▸ by simp)) hstep
  · rw [(constructAll_points h).mem_iff]
    simp [points]

/-- **An adding pass over bands that have lines** takes every point. -/
theorem addAll_banded (hB : Banded coord band U) (hm : InBands coord band U m) (ps : List Ptr) (hps : ∀ p ∈ ps, U p)
    (hocc : ∀ p ∈ ps, ∃ x ∈ points m, band x = band p) :
    ∃ m', addAll coord m ps = some m' ∧ InBands coord band U m' ∧ ∀ x, x ∈ points m' ↔ x ∈ points m ∨ x ∈ ps := by
  refine foldlM_total (fun done s => InBands coord band U s ∧ ∀ x, x ∈ points s ↔ x ∈ points m ∨ x ∈ done)
    ⟨hm, by simp⟩ ?_
  rintro done p rest s hl ⟨hs, hpts⟩
  have hp : p ∈ ps := hl ▸ by simp
  obtain ⟨x, hx, hband⟩ := hocc p hp
  obtain ⟨s', hs', hin, hpts'⟩ := mapAdd_banded hB hs (hps p hp) ⟨x, (hpts x).mpr (Or.inl hx), hband⟩
  refine ⟨s', hs', hin, fun y => ?_⟩
  rw [hpts', hpts, List.mem_append, List.mem_singleton, or_assoc]

/-- Lines of different bands begin at different coordinates. -/
theorem InBands.fronts_nodup (hm : InBands coord band U m) (hB : Banded coord band U) : (fronts coord m).Nodup := by
  apply List.Nodup.map_on _ m.entries_nodup
  intro a ha b hb hab
  have hfront : ∀ e ∈ m.entries, ∃ front ∈ e.2.line, frontKey coord e.2 = some (coord front) := by
    intro e he
    obtain ⟨p, hp, -⟩ := hm.key e he
    obtain ⟨front, hf⟩ := Option.ne_none_iff_exists'.mp (mt List.head?_eq_none_iff.mp (List.ne_nil_of_mem hp))
    exact ⟨front, List.mem_of_mem_head? hf, frontKey_head hf⟩
  obtain ⟨x, hx, hxa⟩ := hfront a ha
  obtain ⟨y, hy, hyb⟩ := hfront b hb
  have hxy : coord x = coord y := Option.some.inj (hxa.symm.trans (hab.trans hyb))
  apply hm.apart a ha b hb x hx y hy
  by_contra hne
  have hfar := hB.far x y (hm.mem a ha x hx) (hm.mem b hb y hy) hne
  rw [hxy, sub_self, abs_zero] at hfar
  exact hfar.not_gt maxDiff_pos

/-- **The change of keys loses no line**, since the first points of two lines lie in different bands. -/
theorem rekey_banded (hB : Banded coord band U) (hm : InBands coord band U m) :
    ∃ m', rekey coord m = some m' ∧ InBands coord band U m' ∧ ∀ x, x ∈ points m' ↔ x ∈ points m := by
  obtain ⟨m', hm'⟩ : ∃ m', rekey coord m = some m' := by
    apply rekey_ne_none
    intro e he
    obtain ⟨p, hp, -⟩ := hm.key e he
    exact List.ne_nil_of_mem hp
  have hspec := rekey_spec hm'
  -- every new entry holds the line of an old one, and its key is the coordinate of a point of that line
  have hold : ∀ e' ∈ m'.entries, ∃ e ∈ m.entries, e.2 = e'.2 := fun e' he' =>
    List.mem_map.mp (rekey_mem_values hm' (List.mem_map.mpr ⟨e', he', rfl⟩))
  have hkey : ∀ e' ∈ m'.entries, ∃ p ∈ e'.2.line, e'.1 = coord p := by
    intro e' he'
    obtain ⟨front, hf, hk⟩ := hspec.key e' he'
    exact ⟨front, List.mem_of_mem_head? hf, hk⟩
  have hkept : ∀ e ∈ m.entries, ∃ e' ∈ m'.entries, e'.2 = e.2 := fun e he => rekey_kept hm' (hm.fronts_nodup hB) he
  refine ⟨m', hm', ⟨hkey, ?_, ?_, ?_⟩, fun x => ?_⟩
  · intro e' he' p hp
    obtain ⟨e, he, hl⟩ := hold e' he'
    exact hm.mem e he p (by rw [hl]; exact hp)
  · intro e' he' p hp p' hp'
    obtain ⟨e, he, hl⟩ := hold e' he'
    exact hm.same e he p (by rw [hl]; exact hp) p' (by rw [hl]; exact hp')
  · intro a' ha' b' hb' p hp p' hp' heq
    obtain ⟨a, ha, hla⟩ := hold a' ha'
    obtain ⟨b, hb, hlb⟩ := hold b' hb'
    have hab := hm.apart a ha b hb p (by rw [hla]; exact hp) p' (by rw [hlb]; exact hp') heq
    obtain ⟨f, hf, hka⟩ := hspec.key a' ha'
    obtain ⟨f', hf', hkb⟩ := hspec.key b' hb'
    rw [← hla, hab, hlb, hf'] at hf
    obtain rfl := Option.some.inj hf
    exact m'.eq_of_key ha' hb' (hka.trans hkb.symm)
  · rw [mem_points, mem_points]
    constructor
    · rintro ⟨e', he', hx⟩
      obtain ⟨e, he, hl⟩ := hold e' he'
      exact ⟨e, he, by rw [hl]; exact hx⟩
    · rintro ⟨e, he, hx⟩
      obtain ⟨e', he', hl⟩ := hkept e he
      exact ⟨e', he', by rw [hl]; exact hx⟩

/-- **Keyed bands.**  If every band met later is met in the construct pass, the lines are the bands. -/
theorem keyed_banded (hB : Banded coord band U) (construct following : List Ptr) (hc : ∀ p ∈ construct, U p)
    (hf : ∀ p ∈ following, U p) (hocc : ∀ p ∈ following, ∃ x ∈ construct, band x = band p) :
    ∃ m, Keyed coord construct following m ∧ InBands coord band U m ∧
      ∀ x, x ∈ points m ↔ x ∈ construct ∨ x ∈ following := by
  obtain ⟨m₁, h₁⟩ : ∃ m₁, constructAll coord .empty construct = some m₁ := constructAll_ne_none .empty construct
  obtain ⟨hin₁, hpts₁⟩ := constructAll_banded hB hc h₁
  obtain ⟨m₂, h₂, hin₂, hpts₂⟩ := addAll_banded hB hin₁ following hf fun p hp => by
    obtain ⟨x, hx, hband⟩ := hocc p hp
    exact ⟨x, (hpts₁ x).mpr hx, hband⟩
  obtain ⟨m₃, h₃, hin₃, hpts₃⟩ := rekey_banded hB hin₂
  refine ⟨m₃, ⟨m₁, m₂, h₁, h₂, h₃⟩, hin₃, fun x => ?_⟩
  rw [hpts₃, hpts₂, hpts₁]

/-! ## The lines are the bands -/

theorem InBands.mem_line (hm : InBands coord band U m) {e : ℚ × Line} (he : e ∈ m.entries) {p : Ptr}
    (hp : p ∈ e.2.line) (x : Ptr) : x ∈ e.2.line ↔ x ∈ points m ∧ band x = band p := by
  constructor
  · intro hx
    exact ⟨mem_points.mpr ⟨e, he, hx⟩, hm.same e he x hx p hp⟩
  · rintro ⟨hx, heq⟩
    obtain ⟨a, ha, hxa⟩ := mem_points.mp hx
    rwa [← hm.apart a ha e he x hxa p hp heq]

/-- A point on some line is on one line. -/
theorem InBands.holders_eq_one (hm : InBands coord band U m) {x : Ptr} (hx : x ∈ points m) : holders m x = 1 := by
  obtain ⟨e, he, hxe⟩ := mem_points.mp hx
  obtain ⟨l₁, l₂, hsplit⟩ := List.append_of_mem he
  obtain ⟨h₁, h₂⟩ := m.sorted_split hsplit
  have honly : ∀ a ∈ m.entries, x ∈ a.2.line → a = e := fun a ha hxa => hm.apart a ha e he x hxa x hxe rfl
  have z₁ : l₁.countP (fun a => decide (x ∈ a.2.line)) = 0 := by
    apply List.countP_eq_zero.mpr
    intro a ha hxa
    exact (h₁ a ha).ne (by rw [honly a (by rw [hsplit]; simp [ha]) (of_decide_eq_true hxa)])
  have z₂ : l₂.countP (fun a => decide (x ∈ a.2.line)) = 0 := by
    apply List.countP_eq_zero.mpr
    intro a ha hxa
    exact (h₂ a ha).ne' (by rw [honly a (by rw [hsplit]; simp [ha]) (of_decide_eq_true hxa)])
  unfold holders
  rw [hsplit, List.countP_append, List.countP_cons, z₁, z₂, if_pos (decide_eq_true hxe)]

/-- **Ordered bands.**  Bands numbered along the coordinate, `0` to `n - 1`, are the lines in this order. -/
theorem InBands.entries_range {band : Ptr → ℕ} (hm : InBands coord band U m)
    (hmono : ∀ p p', U p → U p' → band p < band p' → coord p < coord p') {n : ℕ}
    (hall : ∀ i, (∃ x ∈ points m, band x = i) ↔ i < n) :
    m.entries.length = n ∧ ∀ i e, m.entries[i]? = some e → ∃ p ∈ e.2.line, band p = i := by
  -- the band of an entry, read at its first point
  let bandOf : ℚ × Line → ℕ := fun e => (e.2.line.head?.map band).getD 0
  have hbandOf : ∀ e ∈ m.entries, ∀ p ∈ e.2.line, bandOf e = band p := by
    intro e he p hp
    obtain ⟨a, as, hl⟩ := List.exists_cons_of_ne_nil (List.ne_nil_of_mem hp)
    show (e.2.line.head?.map band).getD 0 = band p
    rw [hl]
    exact hm.same e he a (by rw [hl]; simp) p hp
  have hsorted : (m.entries.map bandOf).Pairwise (· < ·) := by
    rw [List.pairwise_map]
    apply m.sorted.imp_of_mem
    intro a b ha hb hlt
    obtain ⟨p, hp, hkp⟩ := hm.key a ha
    obtain ⟨p', hp', hkp'⟩ := hm.key b hb
    rw [hbandOf a ha p hp, hbandOf b hb p' hp']
    rw [hkp, hkp'] at hlt
    rcases Nat.lt_trichotomy (band p) (band p') with h | h | h
    · exact h
    · rw [hm.apart a ha b hb p hp p' hp' h] at hkp
      exact absurd (hkp.symm.trans hkp') hlt.ne
    · exact absurd (hmono p' p (hm.mem b hb p' hp') (hm.mem a ha p hp) h) hlt.not_gt
  have hrange : m.entries.map bandOf = List.range n := by
    apply hsorted.eq_of_mem_iff List.pairwise_lt_range
    intro i
    rw [List.mem_range, ← hall, List.mem_map]
    constructor
    · rintro ⟨e, he, hi⟩
      obtain ⟨p, hp, -⟩ := hm.key e he
      exact ⟨p, mem_points.mpr ⟨e, he, hp⟩, (hbandOf e he p hp).symm.trans hi⟩
    · rintro ⟨x, hx, hi⟩
      obtain ⟨e, he, hxe⟩ := mem_points.mp hx
      exact ⟨e, he, (hbandOf e he x hxe).trans hi⟩
  refine ⟨by simpa using congrArg List.length hrange, fun i e hi => ?_⟩
  obtain ⟨p, hp, -⟩ := hm.key e (List.mem_of_getElem? hi)
  refine ⟨p, hp, ?_⟩
  have hget : (m.entries.map bandOf)[i]? = some (bandOf e) := by rw [List.getElem?_map, hi]; rfl
  rw [hrange, List.getElem?_eq_some_iff] at hget
  obtain ⟨hlt, hget⟩ := hget
  rw [List.getElem_range, hbandOf e (List.mem_of_getElem? hi) p hp] at hget
  exact hget.symm

end Lyli.Calibration.PointGrid
