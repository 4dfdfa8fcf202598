import Mathlib
import Lyli.Base.OrdMap

/-!
# Clustering by computed centres

Members are clustered in the order they come: a member joins the cluster that the
lookup of its position in a map of centres finds, if that is less than `limit` away,
and opens a cluster of its own if every centre is at least `limit` away.  Nothing is
assumed of the centres; what is clustered in a map is lost when its new centre is the
key of another cluster (`Joins.lose`).

    R.Run cs as cs₁ → R.Run cs as cs₂ → cs₁.Perm cs₂                               (run_unique)
    R.Run cs as cs' → (cs'.flatten.Perm (cs.flatten ++ as) ↔ R.EachMerge R.Kept cs as)   (run_flatten_iff)

A condition on every member that joins a cluster, in the state before it does, is an
`EachMerge`.
-/

namespace Lyli.Cluster

open scoped List

open OrdMap (Closer)

/-- What the members are clustered by. -/
structure Rule (α κ δ : Type) where
  pos : α → κ
  /-- the centre of the members, in the order they joined -/
  centre : List α → κ
  diff : κ → κ → δ
  limit : δ

variable {α β κ δ : Type} [LinearOrder κ] [LinearOrder δ] (R : Rule α κ δ)

namespace Rule

/-- The member `a` is taken by the cluster `c`; `rest` are the others. -/
structure Takes (a : α) (cs : List (List α)) (c : List α) (rest : List (List α)) : Prop where
  split : cs ~ c :: rest
  closer : ∀ c' ∈ rest, Closer R.diff (R.pos a) (R.centre c) (R.centre c')
  near : R.diff (R.centre c) (R.pos a) < R.limit

/-- The centre of `c` with `a` is that of no other cluster. -/
def Kept (a : α) (c : List α) (rest : List (List α)) : Prop := ∀ c' ∈ rest, R.centre c' ≠ R.centre (c ++ [a])

/-- The member `a` is added to the clusters. -/
inductive Joins (a : α) : List (List α) → List (List α) → Prop
  | merge {cs rest : List (List α)} {c : List α} : R.Takes a cs c rest → R.Kept a c rest → Joins a cs ((c ++ [a]) :: rest)
  | lose {cs rest : List (List α)} {c : List α} : R.Takes a cs c rest → ¬ R.Kept a c rest → Joins a cs rest
  | create {cs : List (List α)} : (∀ c ∈ cs, R.limit ≤ R.diff (R.centre c) (R.pos a)) → Joins a cs ([a] :: cs)

/-- The members are added one after the other; the order of the clusters is free. -/
inductive Run : List (List α) → List α → List (List α) → Prop
  | nil {cs cs' : List (List α)} : cs ~ cs' → Run cs [] cs'
  | cons {cs cs₁ cs' : List (List α)} {a : α} {as : List α} : R.Joins a cs cs₁ → Run cs₁ as cs' → Run cs (a :: as) cs'

/-- `P` holds of every member that a cluster takes. -/
def EachMerge (P : α → List α → List (List α) → Prop) (cs : List (List α)) (as : List α) : Prop :=
  ∀ done a later cs' c rest, as = done ++ a :: later → R.Run cs done cs' → R.Takes a cs' c rest → P a c rest

end Rule

open Rule

variable {R} {a : α} {as : List α} {cs cs' cs₁ cs₂ : List (List α)} {c : List α} {rest : List (List α)}

/-! ## One member -/

theorem takes_perm (hp : cs ~ cs') (h : R.Takes a cs c rest) : R.Takes a cs' c rest :=
  ⟨hp.symm.trans h.split, h.closer, h.near⟩

theorem takes_unique {c' : List α} {rest' : List (List α)} (h : R.Takes a cs c rest) (h' : R.Takes a cs c' rest') :
    c = c' ∧ rest ~ rest' := by
  have hp := h.split.symm.trans h'.split
  have hc : c = c' := by
    rcases List.mem_cons.mp (hp.mem_iff.mp List.mem_cons_self) with hc | hc
    · exact hc
    · rcases List.mem_cons.mp (hp.mem_iff.mpr List.mem_cons_self) with hc' | hc'
      · exact hc'.symm
      · exact absurd (h.closer _ hc') (h'.closer _ hc).asymm
  subst hc
  exact ⟨rfl, (List.perm_cons c).mp hp⟩

omit [LinearOrder κ] [LinearOrder δ] in
theorem kept_perm {rest' : List (List α)} (hp : rest ~ rest') (h : R.Kept a c rest) : R.Kept a c rest' :=
  fun c' hc' => h c' (hp.mem_iff.mpr hc')

/-- A member that is taken opens no cluster. -/
theorem not_far_of_takes (h : R.Takes a cs c rest) : ¬ ∀ c ∈ cs, R.limit ≤ R.diff (R.centre c) (R.pos a) :=
  fun hfar => (hfar c (h.split.mem_iff.mpr List.mem_cons_self)).not_gt h.near

theorem joins_perm (hp : cs ~ cs') (h : R.Joins a cs cs₁) : ∃ cs₁', R.Joins a cs' cs₁' ∧ cs₁ ~ cs₁' := by
  cases h with
  | merge ht hk => exact ⟨_, .merge (takes_perm hp ht) hk, .refl _⟩
  | lose ht hk => exact ⟨_, .lose (takes_perm hp ht) hk, .refl _⟩
  | create hfar => exact ⟨_, .create fun c hc => hfar c (hp.mem_iff.mpr hc), hp.cons [a]⟩

/-- **One member has one way to go.** -/
theorem joins_unique (h₁ : R.Joins a cs cs₁) (h₂ : R.Joins a cs cs₂) : cs₁ ~ cs₂ := by
  cases h₁ with
  | merge ht hk =>
    cases h₂ with
    | merge ht' _ =>
      obtain ⟨rfl, hp⟩ := takes_unique ht ht'
      exact hp.cons _
    | lose ht' hk' =>
      obtain ⟨rfl, hp⟩ := takes_unique ht ht'
      exact absurd (kept_perm hp hk) hk'
    | create hfar => exact absurd hfar (not_far_of_takes ht)
  | lose ht hk =>
    cases h₂ with
    | merge ht' hk' =>
      obtain ⟨rfl, hp⟩ := takes_unique ht ht'
      exact absurd (kept_perm hp.symm hk') hk
    | lose ht' _ => exact (takes_unique ht ht').2
    | create hfar => exact absurd hfar (not_far_of_takes ht)
  | create hfar =>
    cases h₂ with
    | merge ht' _ => exact absurd hfar (not_far_of_takes ht')
    | lose ht' _ => exact absurd hfar (not_far_of_takes ht')
    | create => exact .refl _

/-- What is in a cluster afterwards was in one before, or is the new member. -/
theorem joins_subperm (h : R.Joins a cs cs') : cs'.flatten <+~ a :: cs.flatten := by
  cases h with
  | @merge rest c ht _ =>
    refine List.Perm.subperm ?_
    rw [List.flatten_cons, List.append_assoc, List.singleton_append]
    exact List.perm_middle.trans (ht.split.symm.flatten.cons a)
  | @lose rest c ht _ =>
    refine List.Subperm.cons_right a (List.Subperm.trans ?_ ht.split.symm.flatten.subperm)
    rw [List.flatten_cons]
    exact (List.sublist_append_right c _).subperm
  | create => exact (List.Perm.refl _).subperm

/-- Nothing is lost by a member iff its new cluster is kept. -/
theorem joins_flatten_iff (h : R.Joins a cs cs') :
    cs'.flatten ~ a :: cs.flatten ↔ ∀ c rest, R.Takes a cs c rest → R.Kept a c rest := by
  cases h with
  | @merge rest c ht hk =>
    constructor
    · intro _ c' rest' ht'
      obtain ⟨rfl, hp⟩ := takes_unique ht ht'
      exact kept_perm hp hk
    · intro _
      rw [List.flatten_cons, List.append_assoc, List.singleton_append]
      exact List.perm_middle.trans (ht.split.symm.flatten.cons a)
  | @lose rest c ht hk =>
    constructor
    · intro hp
      -- the cluster and the member are missing
      have hlen := hp.length_eq
      rw [List.length_cons, ht.split.flatten.length_eq, List.flatten_cons, List.length_append] at hlen
      omega
    · exact fun hall => absurd (hall _ _ ht) hk
  | create hfar =>
    constructor
    · exact fun _ c rest ht => absurd hfar (not_far_of_takes ht)
    · exact fun _ => .refl _

/-! ## Runs -/

theorem run_perm (hp : cs ~ cs') (h : R.Run cs as cs₁) : R.Run cs' as cs₁ := by
  induction h generalizing cs' with
  | nil h => exact .nil (hp.symm.trans h)
  | cons hj _ ih =>
    obtain ⟨cs₂, hj', hp'⟩ := joins_perm hp hj
    exact .cons hj' (ih hp')

/-- **The clusters are determined** by the members and the order they come in. -/
theorem run_unique (h₁ : R.Run cs as cs₁) (h₂ : R.Run cs as cs₂) : cs₁ ~ cs₂ := by
  induction h₁ with
  | nil h =>
    cases h₂ with
    | nil h' => exact h.symm.trans h'
  | cons hj _ ih =>
    cases h₂ with
    | cons hj' hr' => exact ih (run_perm (joins_unique hj' hj) hr')

theorem run_append {bs : List α} (h₁ : R.Run cs as cs₁) (h₂ : R.Run cs₁ bs cs') : R.Run cs (as ++ bs) cs' := by
  induction h₁ with
  | nil h => exact run_perm h.symm h₂
  | cons hj _ ih => exact .cons hj (ih h₂)

/-- A run that reaches one order of the clusters reaches every other. -/
theorem run_perm_right (h : R.Run cs as cs₁) (hp : cs₁ ~ cs') : R.Run cs as cs' := by
  induction h with
  | nil h => exact .nil (h.trans hp)
  | cons hj _ ih => exact .cons hj (ih hp)

theorem joins_run (h : R.Joins a cs cs') : R.Run cs [a] cs' := .cons h (.nil (.refl _))

/-- **No member is doubled.** -/
theorem run_subperm (h : R.Run cs as cs') : cs'.flatten <+~ cs.flatten ++ as := by
  induction h with
  | nil h =>
    rw [List.append_nil]
    exact h.symm.flatten.subperm
  | cons hj _ ih =>
    refine ih.trans ?_
    exact (((List.subperm_append_right _).mpr (joins_subperm hj))).trans List.perm_middle.symm.subperm

/-! ## Conditions on the members that are taken -/

variable {P : α → List α → List (List α) → Prop}

theorem eachMerge_cons : R.EachMerge P cs (a :: as) ↔
    (∀ c rest, R.Takes a cs c rest → P a c rest) ∧ ∀ cs₁, R.Joins a cs cs₁ → R.EachMerge P cs₁ as := by
  constructor
  · intro h
    refine ⟨fun c rest ht => h [] a as cs c rest rfl (.nil (.refl _)) ht, fun cs₁ hj done b later cs' c rest has hr ht => ?_⟩
    exact h (a :: done) b later cs' c rest (by rw [has, List.cons_append]) (.cons hj hr) ht
  · rintro ⟨hfirst, hlater⟩ done b later cs' c rest has hr ht
    cases done with
    | nil =>
      obtain ⟨rfl, rfl⟩ := List.cons.inj has
      cases hr with
      | nil hp => exact hfirst c rest (takes_perm hp.symm ht)
    | cons d done =>
      obtain ⟨rfl, htail⟩ := List.cons.inj has
      cases hr with
      | cons hj hr => exact hlater _ hj done b later cs' c rest htail hr ht

/-- What holds before every member holds of every member that is taken. -/
theorem eachMerge_of_inv {I : List (List α) → List α → Prop}
    (htake : ∀ cs a as c rest, I cs (a :: as) → R.Takes a cs c rest → P a c rest)
    (hstep : ∀ cs a as cs', I cs (a :: as) → R.Joins a cs cs' → I cs' as) (h : I cs as) : R.EachMerge P cs as := by
  induction as generalizing cs with
  | nil => exact fun done a later _ _ _ has => absurd has (by simp)
  | cons a as ih =>
    exact eachMerge_cons.mpr ⟨fun c rest => htake cs a as c rest h, fun cs₁ hj => ih (hstep cs a as cs₁ h hj)⟩

/-- **A run keeps of its clusters** what a single member has and every merge keeps. -/
theorem run_forall {Q : List α → Prop} (hone : ∀ a, Q [a]) (hmerge : ∀ a c rest, P a c rest → Q c → Q (c ++ [a]))
    (h : R.EachMerge P cs as) (hcs : ∀ c ∈ cs, Q c) (hr : R.Run cs as cs') : ∀ c ∈ cs', Q c := by
  induction hr with
  | nil hp => exact fun c hc => hcs c (hp.mem_iff.mpr hc)
  | cons hj _ ih =>
    obtain ⟨hfirst, hlater⟩ := eachMerge_cons.mp h
    refine ih (hlater _ hj) ?_
    cases hj with
    | merge ht _ =>
      have hmem : ∀ c', c' ∈ _ :: _ → Q c' := fun c' hc' => hcs c' (ht.split.mem_iff.mpr hc')
      rw [List.forall_mem_cons]
      exact ⟨hmerge _ _ _ (hfirst _ _ ht) (hmem _ List.mem_cons_self), fun c' hc' => hmem c' (List.mem_cons_of_mem _ hc')⟩
    | lose ht _ => exact fun c' hc' => hcs c' (ht.split.mem_iff.mpr (List.mem_cons_of_mem _ hc'))
    | create => exact List.forall_mem_cons.mpr ⟨hone _, hcs⟩

theorem run_ne_nil (hcs : ∀ c ∈ cs, c ≠ []) (hr : R.Run cs as cs') : ∀ c ∈ cs', c ≠ [] :=
  run_forall (P := fun _ _ _ => True) (fun _ => List.cons_ne_nil _ _) (fun _ _ _ _ _ => by simp)
    (fun _ _ _ _ _ _ _ _ _ => trivial) hcs hr

/-- **No member is lost** iff the centre of a cluster never becomes that of another one. -/
theorem run_flatten_iff (h : R.Run cs as cs') : cs'.flatten ~ cs.flatten ++ as ↔ R.EachMerge R.Kept cs as := by
  induction h with
  | nil h =>
    rw [List.append_nil]
    refine iff_of_true h.symm.flatten fun done a later cs' c rest has => ?_
    exact absurd has (by simp)
  | @cons cs cs₁ cs' a as hj hr ih =>
    rw [eachMerge_cons, ← joins_flatten_iff hj]
    constructor
    · intro hp
      have hlast : cs₁.flatten ++ as <+~ cs.flatten ++ a :: as :=
        ((List.subperm_append_right _).mpr (joins_subperm hj)).trans List.perm_middle.symm.subperm
      -- what one member loses is not found again
      have hstep : cs₁.flatten ++ as ~ cs.flatten ++ a :: as :=
        hlast.perm_of_length_le (hp.length_eq.symm.trans_le (run_subperm hr).length_le)
      have hjoin : cs₁.flatten ~ a :: cs.flatten := (List.perm_append_right_iff as).mp (hstep.trans List.perm_middle)
      refine ⟨hjoin, fun cs₂ hj₂ => ?_⟩
      have hall := ih.mp (hp.trans hstep.symm)
      have hsame := joins_unique hj hj₂
      exact fun done b later cs'' c rest has hr' ht => hall done b later cs'' c rest has (run_perm hsame.symm hr') ht
    · rintro ⟨hjoin, hlater⟩
      exact (ih.mpr (hlater cs₁ hj)).trans ((hjoin.append_right as).trans List.perm_middle.symm)

/-! ## Renamed members -/

section Map

variable {R' : Rule β κ δ} {f : α → β} (hpos : ∀ a, R'.pos (f a) = R.pos a) (hcentre : ∀ c, R'.centre (c.map f) = R.centre c)
  (hdiff : R'.diff = R.diff) (hlimit : R'.limit = R.limit)

include hpos hcentre hdiff hlimit

theorem takes_map (h : R.Takes a cs c rest) : R'.Takes (f a) (cs.map (List.map f)) (c.map f) (rest.map (List.map f)) := by
  refine ⟨h.split.map _, fun c' hc' => ?_, ?_⟩
  · obtain ⟨c₀, hc₀, rfl⟩ := List.mem_map.mp hc'
    rw [hpos, hcentre, hcentre, hdiff]
    exact h.closer c₀ hc₀
  · rw [hpos, hcentre, hdiff, hlimit]
    exact h.near

omit [LinearOrder κ] [LinearOrder δ] hpos hdiff hlimit in
theorem kept_map : R'.Kept (f a) (c.map f) (rest.map (List.map f)) ↔ R.Kept a c rest := by
  have happ : c.map f ++ [f a] = (c ++ [a]).map f := by rw [List.map_append, List.map_singleton]
  unfold Kept
  rw [happ, hcentre, List.forall_mem_map]
  simp only [hcentre]

theorem joins_map (h : R.Joins a cs cs') : R'.Joins (f a) (cs.map (List.map f)) (cs'.map (List.map f)) := by
  cases h with
  | merge ht hk =>
    rw [List.map_cons, List.map_append, List.map_singleton]
    exact .merge (takes_map hpos hcentre hdiff hlimit ht) ((kept_map hcentre).mpr hk)
  | lose ht hk => exact .lose (takes_map hpos hcentre hdiff hlimit ht) (mt (kept_map hcentre).mp hk)
  | create hfar =>
    rw [List.map_cons, List.map_singleton]
    refine .create (List.forall_mem_map.mpr fun c hc => ?_)
    rw [hpos, hcentre, hdiff, hlimit]
    exact hfar c hc

/-- **Only positions count**: a run of the members is one of what they are renamed to. -/
theorem run_map (h : R.Run cs as cs') : R'.Run (cs.map (List.map f)) (as.map f) (cs'.map (List.map f)) := by
  induction h with
  | nil hp => exact .nil (hp.map _)
  | cons hj _ ih => exact .cons (joins_map hpos hcentre hdiff hlimit hj) ih

end Map

end Lyli.Cluster
