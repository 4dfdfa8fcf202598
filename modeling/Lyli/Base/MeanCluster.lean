import Mathlib
import Lyli.Base.Cluster

/-!
# Nearest-mean clustering

Members are clustered by the exact mean of the clusters (`rule`).  A mean that moves
towards a member reaches no other mean on the way, so no cluster is lost:

    R.Run cs as cs' → cs'.flatten.Perm (cs.flatten ++ as)      for R = rule pos limit      (run_flatten)

The clusters depend on the order of the members.  They do not where the members
fall into classes that are `Separated`: each cluster is then a class (`run_byClass`).
-/

namespace Lyli.MeanCluster

open scoped List

open Cluster

variable {α β ι κ : Type} [Field κ] [LinearOrder κ] (pos : α → κ) (limit : κ)

/-- Mean position of the members. -/
def mean (c : List α) : κ := (c.map pos).sum / (c.length : κ)

/-- Clustering by the mean. -/
def rule : Rule α κ κ := ⟨pos, mean pos, fun k q => |k - q|, limit⟩

abbrev Joins := (rule pos limit).Joins

abbrev Run := (rule pos limit).Run

variable {pos limit}

/-! ## Renamed members -/

omit [LinearOrder κ] in
theorem mean_map {pos' : β → κ} {f : α → β} (hf : ∀ a, pos' (f a) = pos a) (c : List α) :
    mean pos' (c.map f) = mean pos c := by
  unfold mean
  rw [List.map_map, List.length_map]
  exact congrArg (fun l : List κ => l.sum / (c.length : κ)) (List.map_congr_left fun a _ => hf a)

theorem run_map {pos' : β → κ} {f : α → β} (hf : ∀ a, pos' (f a) = pos a) {cs cs' : List (List α)} {as : List α}
    (h : Run pos limit cs as cs') : Run pos' limit (cs.map (List.map f)) (as.map f) (cs'.map (List.map f)) :=
  Cluster.run_map (R := rule pos limit) hf (mean_map hf) rfl rfl h

/-! ## The mean -/

section Mean

variable [IsStrictOrderedRing κ]

omit [LinearOrder κ] [IsStrictOrderedRing κ] in
@[simp] theorem mean_singleton (a : α) : mean pos [a] = pos a := by
  simp [mean]

/-- The running mean: `c.length` members and one more. -/
theorem mean_append_singleton (c : List α) (a : α) :
    mean pos (c ++ [a]) = c.length * (1 / ((c.length : κ) + 1)) * mean pos c + pos a * (1 / ((c.length : κ) + 1)) := by
  have hpos : (0 : κ) < c.length + 1 := by positivity
  cases c with
  | nil => simp [mean]
  | cons b c =>
    have hlen : (0 : κ) < (b :: c).length := by
      rw [List.length_cons]
      push_cast
      positivity
    unfold mean
    rw [List.map_append, List.sum_append, List.length_append]
    push_cast
    simp only [List.map_cons, List.map_nil, List.sum_cons, List.sum_nil, List.length_cons, List.length_nil] at *
    field_simp
    push_cast
    ring

omit [LinearOrder κ] [IsStrictOrderedRing κ] in
theorem mean_perm {c c' : List α} (h : c ~ c') : mean pos c = mean pos c' := by
  unfold mean
  rw [(h.map pos).sum_eq, h.length_eq]

/-- A bound that every member is above, the mean is above too. -/
theorem lt_mean {c : List α} (hc : c ≠ []) {b : κ} (h : ∀ a ∈ c, b < pos a) : b < mean pos c := by
  have hlen : (0 : κ) < c.length := by
    have := List.length_pos_iff.mpr hc
    exact_mod_cast this
  unfold mean
  rw [lt_div_iff₀ hlen]
  have := List.sum_lt_sum_of_ne_nil hc (fun _ => b) pos h
  simpa [mul_comm] using this

theorem mean_lt {c : List α} (hc : c ≠ []) {b : κ} (h : ∀ a ∈ c, pos a < b) : mean pos c < b := by
  have hlen : (0 : κ) < c.length := by
    have := List.length_pos_iff.mpr hc
    exact_mod_cast this
  unfold mean
  rw [div_lt_iff₀ hlen]
  have := List.sum_lt_sum_of_ne_nil hc pos (fun _ => b) h
  simpa [mul_comm] using this

/-- Some member is at least as far from `q` as the mean. -/
theorem exists_mean_le {c : List α} (hc : c ≠ []) (q : κ) : ∃ a ∈ c, |mean pos c - q| ≤ |pos a - q| := by
  by_contra hno
  push Not at hno
  have h₁ : q - |mean pos c - q| < mean pos c := lt_mean hc fun a ha => by
    have := abs_lt.mp (hno a ha)
    linarith
  have h₂ : mean pos c < q + |mean pos c - q| := mean_lt hc fun a ha => by
    have := abs_lt.mp (hno a ha)
    linarith
  have : |mean pos c - q| < |mean pos c - q| := abs_lt.mpr ⟨by linarith, by linarith⟩
  exact lt_irrefl _ this

/-- The new mean is on the way from the old one to the member, where no other mean is. -/
theorem kept_of_takes {a : α} {cs rest : List (List α)} {c : List α} (h : (rule pos limit).Takes a cs c rest) :
    (rule pos limit).Kept a c rest := by
  intro c' hc' heq
  have hcloser : OrdMap.Closer (fun k q : κ => |k - q|) (pos a) (mean pos c) (mean pos c') := h.closer c' hc'
  have hmove : mean pos c' - pos a = c.length * (1 / ((c.length : κ) + 1)) * (mean pos c - pos a) := by
    have hlen : (c.length : κ) + 1 ≠ 0 := by positivity
    rw [show mean pos c' = mean pos (c ++ [a]) from heq, mean_append_singleton]
    field_simp
    ring
  have hshare : (c.length : κ) * (1 / ((c.length : κ) + 1)) < 1 := by
    rw [mul_one_div, div_lt_one (by positivity)]
    exact lt_add_one _
  have hshare0 : (0 : κ) ≤ c.length * (1 / ((c.length : κ) + 1)) := by positivity
  have hdist : |mean pos c' - pos a| = c.length * (1 / ((c.length : κ) + 1)) * |mean pos c - pos a| := by
    rw [hmove, abs_mul, abs_of_nonneg hshare0]
  rcases hcloser with hlt | ⟨hsame, hrank⟩
  · replace hlt : |mean pos c - pos a| < |mean pos c' - pos a| := hlt
    rw [hdist] at hlt
    exact hlt.not_ge (mul_le_of_le_one_left (abs_nonneg _) hshare.le)
  · -- only a mean at the member itself could be as far, and then both are there
    replace hsame : |mean pos c - pos a| = |mean pos c' - pos a| := hsame
    have hzero : |mean pos c - pos a| = 0 := by
      rw [hdist] at hsame
      nlinarith [abs_nonneg (mean pos c - pos a)]
    have hc : mean pos c = pos a := sub_eq_zero.mp (abs_eq_zero.mp hzero)
    have hc' : mean pos c' = pos a := sub_eq_zero.mp (abs_eq_zero.mp (hsame.symm.trans hzero))
    rw [hc, hc'] at hrank
    simp at hrank

theorem eachMerge_kept (cs : List (List α)) (as : List α) :
    (rule pos limit).EachMerge (rule pos limit).Kept cs as := fun _ _ _ _ _ _ _ _ ht => kept_of_takes ht

theorem joins_flatten {a : α} {cs cs' : List (List α)} (h : Joins pos limit a cs cs') : cs'.flatten ~ a :: cs.flatten :=
  (joins_flatten_iff h).mpr fun _ _ ht => kept_of_takes ht

/-- **No member is lost or doubled.** -/
theorem run_flatten {cs cs' : List (List α)} {as : List α} (h : Run pos limit cs as cs') :
    cs'.flatten ~ cs.flatten ++ as := (run_flatten_iff h).mpr (eachMerge_kept cs as)

end Mean

/-! ## Members in separated classes -/

/-- Gaps add up: what is more than `d` apart step by step is so in pairs. -/
theorem lt_of_gaps [IsStrictOrderedRing κ] {f : ℕ → κ} {d : κ} (hd : 0 ≤ d) {P : ℕ → Prop} (hdown : ∀ j, P (j + 1) → P j)
    (hgap : ∀ j, P (j + 1) → f j + d < f (j + 1)) {i j : ℕ} (hij : i < j) (hj : P j) : f i + d < f j := by
  induction j with
  | zero => omega
  | succ j ih =>
    have hlast := hgap j hj
    rcases Nat.lt_or_ge i j with hlt | hge
    · have := ih hlt (hdown j hj)
      linarith
    · obtain rfl : i = j := by omega
      exact hlast

variable (pos limit) in
/-- Two members of a class are nearer to each other than to any other class, and less than `limit` apart. -/
structure Separated (cls : α → ι) (L : List α) : Prop where
  width : ∀ a ∈ L, ∀ b ∈ L, cls a = cls b → |pos b - pos a| < limit
  gap : ∀ a ∈ L, ∀ b ∈ L, ∀ c ∈ L, cls b = cls a → cls c ≠ cls a → |pos b - pos a| < |pos c - pos a|

/-- Every cluster is part of a class, and no class is in two clusters. -/
structure ByClass (cls : α → ι) (cs : List (List α)) : Prop where
  nonempty : ∀ c ∈ cs, c ≠ []
  same : ∀ c ∈ cs, ∀ a ∈ c, ∀ b ∈ c, cls a = cls b
  apart : cs.Pairwise fun c c' => ∀ a ∈ c, ∀ b ∈ c', cls a ≠ cls b

section Classes

variable [IsStrictOrderedRing κ] {cls : α → ι} {L : List α} (hsep : Separated pos limit cls L)

include hsep

/-- A cluster of another class lies on one side of a member. -/
theorem one_side {a : α} (ha : a ∈ L) {c : List α} (hc : ∀ b ∈ c, b ∈ L) (hother : ∀ b ∈ c, cls b ≠ cls a)
    (hsame : ∀ b ∈ c, ∀ b' ∈ c, cls b = cls b') : (∀ b ∈ c, pos a < pos b) ∨ ∀ b ∈ c, pos b < pos a := by
  by_contra hno
  push Not at hno
  obtain ⟨⟨b, hb, hle⟩, b', hb', hge⟩ := hno
  have h := hsep.gap b (hc b hb) b' (hc b' hb') a ha (hsame b' hb' b hb) (hother b hb).symm
  rw [abs_of_nonneg (by linarith), abs_of_nonneg (by linarith)] at h
  linarith

/-- What all members of another class keep clear of, their mean keeps clear of too. -/
theorem lt_mean_of_other {a : α} (ha : a ∈ L) {c : List α} (hne : c ≠ []) (hc : ∀ b ∈ c, b ∈ L)
    (hother : ∀ b ∈ c, cls b ≠ cls a) (hsame : ∀ b ∈ c, ∀ b' ∈ c, cls b = cls b') {w : κ}
    (hw : ∀ b ∈ c, w < |pos b - pos a|) : w < |mean pos c - pos a| := by
  rcases one_side hsep ha hc hother hsame with hside | hside
  · have hm : pos a + w < mean pos c := lt_mean hne fun b hb => by
      have := hw b hb
      rw [abs_of_pos (sub_pos.mpr (hside b hb))] at this
      linarith
    exact (by linarith : w < mean pos c - pos a).trans_le (le_abs_self _)
  · have hm : mean pos c < pos a - w := mean_lt hne fun b hb => by
      have := hw b hb
      rw [abs_of_neg (sub_neg.mpr (hside b hb))] at this
      linarith
    exact (by linarith : w < -(mean pos c - pos a)).trans_le (neg_le_abs _)

/-- **One member goes to its own class**, when that has a cluster already or keeps `limit` from all others. -/
theorem joins_byClass {a : α} {cs cs' : List (List α)} (ha : a ∈ L) (hcs : ∀ b ∈ cs.flatten, b ∈ L)
    (hnew : (∃ b ∈ cs.flatten, cls b = cls a) ∨ ∀ b ∈ L, cls b ≠ cls a → limit ≤ |pos b - pos a|)
    (h : ByClass cls cs) (hj : Joins pos limit a cs cs') : ByClass cls cs' := by
  have hin : ∀ c ∈ cs, ∀ b ∈ c, b ∈ L := fun c hc b hb => hcs b (List.mem_flatten.mpr ⟨c, hc, hb⟩)
  -- the cluster of the member's own class is less than `limit` away
  have hown : ∀ c ∈ cs, (∃ b ∈ c, cls b = cls a) → ∃ b ∈ c, cls b = cls a ∧ |mean pos c - pos a| ≤ |pos b - pos a| := by
    rintro c hc ⟨b, hb, hba⟩
    obtain ⟨b', hb', hle⟩ := exists_mean_le (h.nonempty c hc) (pos a)
    exact ⟨b', hb', (h.same c hc b' hb' b hb).trans hba, hle⟩
  cases hj with
  | @merge rest c ht hk =>
    obtain ⟨hs, hnear, hlt⟩ := id ht
    have hc : c ∈ cs := hs.mem_iff.mpr List.mem_cons_self
    have hrest : ∀ c' ∈ rest, c' ∈ cs := fun c' hc' => hs.mem_iff.mpr (List.mem_cons_of_mem _ hc')
    have hpair : (c :: rest).Pairwise fun c c' => ∀ a ∈ c, ∀ b ∈ c', cls a ≠ cls b :=
      hs.pairwise h.apart fun h a ha b hb => (h b hb a ha).symm
    obtain ⟨hapart, hrestApart⟩ := List.pairwise_cons.mp hpair
    have hclass : ∃ b ∈ c, cls b = cls a := by
      by_contra hno
      push Not at hno
      have hclear : ∀ w, (∀ b ∈ c, w < |pos b - pos a|) → w < |mean pos c - pos a| := fun w hw =>
        lt_mean_of_other hsep ha (h.nonempty c hc) (hin c hc) hno (h.same c hc) hw
      rcases hnew with ⟨b, hb, hba⟩ | hfar
      · -- the cluster of the own class would have been nearer
        obtain ⟨c₀, hc₀, hb₀⟩ := List.mem_flatten.mp hb
        obtain ⟨b', hb', hba', hle⟩ := hown c₀ hc₀ ⟨b, hb₀, hba⟩
        have hmem : c₀ ∈ rest := by
          rcases List.mem_cons.mp (hs.mem_iff.mp hc₀) with rfl | hmem
          · exact absurd hba (hno b hb₀)
          · exact hmem
        have hcloser : |mean pos c₀ - pos a| < |mean pos c - pos a| := hle.trans_lt (hclear _ fun d hd =>
          hsep.gap a ha b' (hin c₀ hc₀ b' hb') d (hin c hc d hd) hba' (hno d hd))
        rcases hnear c₀ hmem with hn | ⟨hn, -⟩
        · exact lt_asymm hcloser hn
        · exact hcloser.ne hn.symm
      · have hle : limit ≤ |mean pos c - pos a| := le_of_forall_lt fun w hw =>
          hclear w fun b hb => hw.trans_le (hfar b (hin c hc b hb) (hno b hb))
        exact hlt.not_ge hle
    obtain ⟨b, hb, hba⟩ := hclass
    have hall : ∀ d ∈ c ++ [a], cls d = cls a := by
      intro d hd
      rcases List.mem_append.mp hd with hd | hd
      · exact (h.same c hc d hd b hb).trans hba
      · rw [List.mem_singleton.mp hd]
    refine ⟨?_, ?_, ?_⟩
    · exact run_ne_nil h.nonempty (joins_run (.merge ht hk))
    · intro c' hc' d hd d' hd'
      rcases List.mem_cons.mp hc' with rfl | hc'
      · exact (hall d hd).trans (hall d' hd').symm
      · exact h.same c' (hrest c' hc') d hd d' hd'
    · refine List.pairwise_cons.mpr ⟨fun c' hc' d hd d' hd' => ?_, hrestApart⟩
      rw [hall d hd, ← hba]
      exact hapart c' hc' b hb d' hd'
  | lose ht hk => exact absurd (kept_of_takes ht) hk
  | create hfar =>
    have hnone : ∀ c ∈ cs, ∀ b ∈ c, cls b ≠ cls a := by
      intro c hc b hb hba
      obtain ⟨b', hb', hba', hle⟩ := hown c hc ⟨b, hb, hba⟩
      have := hsep.width a ha b' (hin c hc b' hb') hba'.symm
      exact (hle.trans_lt this).not_ge (hfar c hc)
    refine ⟨?_, ?_, ?_⟩
    · exact run_ne_nil h.nonempty (joins_run (Rule.Joins.create hfar))
    · intro c' hc' d hd d' hd'
      rcases List.mem_cons.mp hc' with rfl | hc'
      · rw [List.mem_singleton.mp hd, List.mem_singleton.mp hd']
      · exact h.same c' hc' d hd d' hd'
    · refine List.pairwise_cons.mpr ⟨fun c' hc' d hd d' hd' => ?_, h.apart⟩
      rw [List.mem_singleton.mp hd]
      exact (hnone c' hc' d' hd').symm

/-- **The clusters of separated classes are the classes**, in whatever order the members come. -/
theorem run_byClass {cs cs' : List (List α)} {as : List α} (has : ∀ a ∈ as, a ∈ L) (hcs : ∀ b ∈ cs.flatten, b ∈ L)
    (hnew : ∀ a ∈ as, (∃ b ∈ cs.flatten, cls b = cls a) ∨ ∀ b ∈ L, cls b ≠ cls a → limit ≤ |pos b - pos a|)
    (h : ByClass cls cs) (hr : Run pos limit cs as cs') : ByClass cls cs' := by
  induction hr with
  | nil hp =>
    refine ⟨fun c hc => h.nonempty c (hp.mem_iff.mpr hc), fun c hc => h.same c (hp.mem_iff.mpr hc), ?_⟩
    exact hp.pairwise h.apart fun h a ha b hb => (h b hb a ha).symm
  | @cons cs cs₁ cs' a as hj _ ih =>
    have hmem : ∀ b, b ∈ cs₁.flatten ↔ b = a ∨ b ∈ cs.flatten := fun b => by
      rw [(joins_flatten hj).mem_iff, List.mem_cons]
    have ha : a ∈ L := has a List.mem_cons_self
    refine ih (fun b hb => has b (List.mem_cons_of_mem _ hb)) ?_ ?_ ?_
    · intro b hb
      rcases (hmem b).mp hb with rfl | hb
      · exact ha
      · exact hcs b hb
    · intro b hb
      refine (hnew b (List.mem_cons_of_mem _ hb)).imp_left ?_
      rintro ⟨d, hd, hdb⟩
      exact ⟨d, (hmem d).mpr (Or.inr hd), hdb⟩
    · exact joins_byClass hsep ha hcs (hnew a List.mem_cons_self) h hj

end Classes

/-- A cluster holds all members of its class. -/
theorem byClass_perm_filter [DecidableEq ι] {cls : α → ι} {cs : List (List α)} {L : List α} (h : ByClass cls cs)
    (hL : cs.flatten ~ L) {c : List α} (hc : c ∈ cs) {a : α} (ha : a ∈ c) :
    c ~ L.filter fun b => cls b = cls a := by
  refine List.Perm.trans ?_ (hL.filter _)
  obtain ⟨l₁, l₂, rfl⟩ := List.append_of_mem hc
  obtain ⟨-, h₂, h₁⟩ := List.pairwise_append.mp h.apart
  have hc' : c.filter (fun b => cls b = cls a) = c :=
    List.filter_eq_self.mpr fun b hb => by simpa using h.same c hc b hb a ha
  have e₁ : l₁.flatten.filter (fun b => cls b = cls a) = [] := by
    rw [List.filter_eq_nil_iff]
    intro b hb
    obtain ⟨d, hd, hb⟩ := List.mem_flatten.mp hb
    simpa using h₁ d hd c List.mem_cons_self b hb a ha
  have e₂ : l₂.flatten.filter (fun b => cls b = cls a) = [] := by
    rw [List.filter_eq_nil_iff]
    intro b hb
    obtain ⟨d, hd, hb⟩ := List.mem_flatten.mp hb
    simpa using ((List.pairwise_cons.mp h₂).1 d hd a ha b hb).symm
  rw [List.flatten_append, List.flatten_cons, List.filter_append, List.filter_append, e₁, hc', e₂, List.nil_append,
    List.append_nil]

end Lyli.MeanCluster
