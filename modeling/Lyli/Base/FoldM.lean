import Mathlib

/-!
# Loops over a list that may fail

`l.foldlM f b` in `Option` is a loop over `l` with state `b` whose body may be
undefined.  `P done s` is an invariant of the part of the list already handled:

    P [] b  →  (each step keeps P)  →  l.foldlM f b = some r  →  P l r        (foldlM_inv)
    P [] b  →  (each step is defined and keeps P)  →  ∃ r, … = some r ∧ P l r  (foldlM_total)
    every round is reached with P  ↔  each round reached has P and is defined  (foldlM_rounds_iff)

`l.mapM f` collects the values of `f`; over a permuted list they are permuted (`mapM_perm`).
A map of the states that every step respects is respected by the loop (`foldlM_hom`, `mapM_hom`).
-/

namespace Lyli

variable {α β γ : Type}

theorem foldlM_cons_some {f : β → α → Option β} {a : α} {l : List α} {b r : β} :
    (a :: l).foldlM f b = some r ↔ ∃ b', f b a = some b' ∧ l.foldlM f b' = some r := by
  rw [List.foldlM_cons]
  show (f b a).bind _ = some r ↔ _
  rw [Option.bind_eq_some_iff]

theorem foldlM_append_some {f : β → α → Option β} {l₁ l₂ : List α} {b r : β} :
    (l₁ ++ l₂).foldlM f b = some r ↔ ∃ b', l₁.foldlM f b = some b' ∧ l₂.foldlM f b' = some r := by
  rw [List.foldlM_append]
  show (l₁.foldlM f b).bind _ = some r ↔ _
  rw [Option.bind_eq_some_iff]

/-- **Loop invariant.**  What each step keeps holds at the end. -/
theorem foldlM_inv {f : β → α → Option β} {l : List α} {b r : β} (P : List α → β → Prop) (h0 : P [] b)
    (hstep : ∀ done a rest s s', l = done ++ a :: rest → P done s → f s a = some s' → P (done ++ [a]) s')
    (h : l.foldlM f b = some r) : P l r := by
  -- `done` is the part handled so far
  have go : ∀ (rest done : List α) (s : β), l = done ++ rest → P done s → rest.foldlM f s = some r →
      P (done ++ rest) r := by
    intro rest
    induction rest with
    | nil =>
      intro done s _ hP hr
      obtain rfl : s = r := Option.some.inj hr
      rwa [List.append_nil]
    | cons a rest ih =>
      intro done s hl hP hr
      obtain ⟨s', hs', hr'⟩ := foldlM_cons_some.mp hr
      have := ih (done ++ [a]) s' (by rw [hl]; simp) (hstep done a rest s s' hl hP hs') hr'
      rwa [List.append_assoc] at this
  exact go l [] b rfl h0 h

/-- **Total loop.**  If every step is defined and keeps the invariant, so is the loop. -/
theorem foldlM_total {f : β → α → Option β} {l : List α} {b : β} (P : List α → β → Prop) (h0 : P [] b)
    (hstep : ∀ done a rest s, l = done ++ a :: rest → P done s → ∃ s', f s a = some s' ∧ P (done ++ [a]) s') :
    ∃ r, l.foldlM f b = some r ∧ P l r := by
  have go : ∀ (rest done : List α) (s : β), l = done ++ rest → P done s →
      ∃ r, rest.foldlM f s = some r ∧ P (done ++ rest) r := by
    intro rest
    induction rest with
    | nil => intro done s _ hP; exact ⟨s, rfl, by rwa [List.append_nil]⟩
    | cons a rest ih =>
      intro done s hl hP
      obtain ⟨s', hs', hP'⟩ := hstep done a rest s hl hP
      obtain ⟨r, hr, hPr⟩ := ih (done ++ [a]) s' (by rw [hl]; simp) hP'
      refine ⟨r, foldlM_cons_some.mpr ⟨s', hs', hr⟩, ?_⟩
      rwa [List.append_assoc] at hPr
  exact go l [] b rfl h0

/-- A loop that is defined ran its body on every element, in some state of the loop. -/
theorem foldlM_ran {f : β → α → Option β} {l : List α} {b r : β} (P : β → Prop) (h0 : P b)
    (hstep : ∀ s a s', P s → f s a = some s' → P s') (h : l.foldlM f b = some r) {a : α} (ha : a ∈ l) :
    ∃ s s', P s ∧ f s a = some s' := by
  obtain ⟨l₁, l₂, rfl⟩ := List.append_of_mem ha
  obtain ⟨s, hs, h⟩ := foldlM_append_some.mp h
  obtain ⟨s', hs', -⟩ := foldlM_cons_some.mp h
  exact ⟨s, s', foldlM_inv (fun _ s => P s) h0 (fun _ a _ s s' _ hP hf => hstep s a s' hP hf) hs, hs'⟩

/-- A loop whose body never fails is the plain fold. -/
theorem foldlM_eq_foldl {f : β → α → Option β} {g : β → α → β} {l : List α} {b : β}
    (h : ∀ s, ∀ a ∈ l, f s a = some (g s a)) : l.foldlM f b = some (l.foldl g b) := by
  induction l generalizing b with
  | nil => rfl
  | cons a l ih =>
    rw [foldlM_cons_some]
    exact ⟨g b a, h b a List.mem_cons_self, ih fun s a' ha' => h s a' (List.mem_cons_of_mem _ ha')⟩

/-- A loop whose body changes nothing. -/
theorem foldlM_fixed {f : β → α → Option β} {l : List α} {b : β} (h : ∀ a ∈ l, f b a = some b) :
    l.foldlM f b = some b := by
  induction l with
  | nil => rfl
  | cons a l ih =>
    rw [foldlM_cons_some]
    exact ⟨b, h a List.mem_cons_self, ih fun a' ha' => h a' (List.mem_cons_of_mem _ ha')⟩

/-- Two loops run side by side. -/
theorem foldlM_prod {f : β → α → Option β} {g : γ → α → Option γ} {l : List α} {b b' : β} {c c' : γ} :
    l.foldlM (fun (s : β × γ) a => do let x ← f s.1 a; let y ← g s.2 a; return (x, y)) (b, c) = some (b', c') ↔
      l.foldlM f b = some b' ∧ l.foldlM g c = some c' := by
  induction l generalizing b c with
  | nil =>
    show some (b, c) = some (b', c') ↔ some b = some b' ∧ some c = some c'
    simp only [Option.some.injEq, Prod.mk.injEq]
  | cons a l ih =>
    simp only [foldlM_cons_some]
    constructor
    · rintro ⟨⟨b₁, c₁⟩, hs, h⟩
      obtain ⟨x, hx, hs⟩ := Option.bind_eq_some_iff.mp hs
      obtain ⟨y, hy, hs⟩ := Option.bind_eq_some_iff.mp hs
      obtain ⟨rfl, rfl⟩ := Prod.mk.inj (Option.some.inj hs)
      obtain ⟨h₁, h₂⟩ := ih.mp h
      exact ⟨⟨x, hx, h₁⟩, y, hy, h₂⟩
    · rintro ⟨⟨x, hx, h₁⟩, y, hy, h₂⟩
      refine ⟨(x, y), ?_, ih.mpr ⟨h₁, h₂⟩⟩
      exact Option.bind_eq_some_iff.mpr ⟨x, hx, Option.bind_eq_some_iff.mpr ⟨y, hy, rfl⟩⟩

/-- **Every round.**  A loop reaches all its rounds, in states with `P`, iff in each round reached the
state has `P` and the body is defined, the last one's apart. -/
theorem foldlM_rounds_iff {f : β → α → Option β} {l : List α} {b : β} {P : β → α → Prop} :
    (∀ done a, done ++ [a] <+: l → ∃ s, done.foldlM f b = some s ∧ P s a) ↔
      ∀ done a s, done ++ [a] <+: l → done.foldlM f b = some s → P s a ∧ (done ++ [a] ≠ l → ∃ s', f s a = some s') := by
  constructor
  · intro h done a s hpre hs
    obtain ⟨s₀, hs₀, hP⟩ := h done a hpre
    obtain rfl : s₀ = s := Option.some.inj (hs₀.symm.trans hs)
    refine ⟨hP, fun hne => ?_⟩
    -- the next round is reached too
    obtain ⟨rest, hrest⟩ := hpre
    cases rest with
    | nil => exact absurd (by rw [← hrest, List.append_nil]) hne
    | cons a' rest =>
      obtain ⟨s', hs', -⟩ := h (done ++ [a]) a' ⟨rest, by rw [← hrest]; simp⟩
      obtain ⟨t, ht, hs'⟩ := foldlM_append_some.mp hs'
      obtain rfl : t = s₀ := Option.some.inj (ht.symm.trans hs)
      obtain ⟨u, hu, -⟩ := foldlM_cons_some.mp hs'
      exact ⟨u, hu⟩
  · intro h done
    induction done using List.reverseRecOn with
    | nil => exact fun a hpre => ⟨b, rfl, (h [] a b hpre rfl).1⟩
    | append_singleton done c ih =>
      intro a hpre
      have hpre' : done ++ [c] <+: l := (List.prefix_append _ _).trans hpre
      obtain ⟨s, hs, -⟩ := ih c hpre'
      have hne : done ++ [c] ≠ l := by
        rintro rfl
        have := hpre.length_le
        simp at this
      obtain ⟨s', hs'⟩ := (h done c s hpre' hs).2 hne
      have hrun : (done ++ [c]).foldlM f b = some s' :=
        foldlM_append_some.mpr ⟨s, hs, foldlM_cons_some.mpr ⟨s', hs', rfl⟩⟩
      exact ⟨s', hrun, (h (done ++ [c]) a s' hpre hrun).1⟩

/-- Where the body is defined on every element, so is the loop that collects its values. -/
theorem mapM_eq_some {f : α → Option β} {l : List α} {g : α → β} (h : ∀ a ∈ l, f a = some (g a)) :
    l.mapM f = some (l.map g) := by
  induction l with
  | nil => rfl
  | cons a l ih =>
    rw [List.mapM_cons, h a List.mem_cons_self, ih fun a' ha' => h a' (List.mem_cons_of_mem _ ha')]
    rfl

theorem mapM_cons_some {f : α → Option β} {a : α} {l : List α} {r : List β} :
    (a :: l).mapM f = some r ↔ ∃ b r', f a = some b ∧ l.mapM f = some r' ∧ r = b :: r' := by
  rw [List.mapM_cons]
  constructor
  · intro h
    obtain ⟨b, hb, h⟩ := Option.bind_eq_some_iff.mp h
    obtain ⟨r', hr', h⟩ := Option.bind_eq_some_iff.mp h
    exact ⟨b, r', hb, hr', (Option.some.inj h).symm⟩
  · rintro ⟨b, r', hb, hr', rfl⟩
    exact Option.bind_eq_some_iff.mpr ⟨b, hb, Option.bind_eq_some_iff.mpr ⟨r', hr', rfl⟩⟩

theorem mapM_length {f : α → Option β} {l : List α} {r : List β} (h : l.mapM f = some r) : r.length = l.length := by
  induction l generalizing r with
  | nil =>
    rw [← Option.some.inj h]
    rfl
  | cons a l ih =>
    obtain ⟨b, r', -, hr', rfl⟩ := mapM_cons_some.mp h
    rw [List.length_cons, List.length_cons, ih hr']

/-- The loop is defined iff the body is on every element. -/
theorem mapM_defined_iff {f : α → Option β} {l : List α} :
    (∃ r, l.mapM f = some r) ↔ ∀ a ∈ l, ∃ b, f a = some b := by
  induction l with
  | nil =>
    simp only [List.not_mem_nil, false_implies, implies_true, iff_true]
    exact ⟨[], rfl⟩
  | cons a l ih =>
    simp only [mapM_cons_some, List.forall_mem_cons, ← ih]
    constructor
    · rintro ⟨-, b, r, hb, hr, -⟩
      exact ⟨⟨b, hb⟩, r, hr⟩
    · rintro ⟨⟨b, hb⟩, r, hr⟩
      exact ⟨b :: r, b, r, hb, hr, rfl⟩

theorem mapM_getElem? {f : α → Option β} {l : List α} {r : List β} (h : l.mapM f = some r) {k : ℕ} {a : α}
    (ha : l[k]? = some a) : ∃ b, f a = some b ∧ r[k]? = some b := by
  induction l generalizing r k with
  | nil => cases ha
  | cons c l ih =>
    obtain ⟨b, r', hb, hr', rfl⟩ := mapM_cons_some.mp h
    cases k with
    | zero =>
      obtain rfl : c = a := Option.some.inj ha
      exact ⟨b, hb, rfl⟩
    | succ k => exact ih hr' ha

/-- The values collected over a permuted list are permuted. -/
theorem mapM_perm {f : α → Option β} {l l' : List α} (hp : l.Perm l') {r : List β} (h : l.mapM f = some r) :
    ∃ r', l'.mapM f = some r' ∧ r.Perm r' := by
  induction hp generalizing r with
  | nil => exact ⟨r, h, List.Perm.refl r⟩
  | cons a _ ih =>
    obtain ⟨b, s, hb, hs, rfl⟩ := mapM_cons_some.mp h
    obtain ⟨s', hs', hp'⟩ := ih hs
    exact ⟨b :: s', mapM_cons_some.mpr ⟨b, s', hb, hs', rfl⟩, hp'.cons b⟩
  | swap a b l =>
    obtain ⟨x, s, hx, hs, rfl⟩ := mapM_cons_some.mp h
    obtain ⟨y, t, hy, ht, rfl⟩ := mapM_cons_some.mp hs
    exact ⟨y :: x :: t, mapM_cons_some.mpr ⟨y, _, hy, mapM_cons_some.mpr ⟨x, t, hx, ht, rfl⟩, rfl⟩, .swap y x t⟩
  | trans _ _ ih₁ ih₂ =>
    obtain ⟨s, hs, hp₁⟩ := ih₁ h
    obtain ⟨t, ht, hp₂⟩ := ih₂ hs
    exact ⟨t, ht, hp₁.trans hp₂⟩

/-- What follows a loop and does not see the order of its values does not see that of its input. -/
theorem bind_mapM_perm {f : α → Option β} {k : List β → Option γ} (hk : ∀ r r', r.Perm r' → k r = k r')
    {l l' : List α} (hp : l.Perm l') : (l.mapM f).bind k = (l'.mapM f).bind k := by
  cases h : l.mapM f with
  | none =>
    cases h' : l'.mapM f with
    | none => rfl
    | some r' =>
      obtain ⟨r, hr, -⟩ := mapM_perm hp.symm h'
      rw [h] at hr
      cases hr
  | some r =>
    obtain ⟨r', hr', hperm⟩ := mapM_perm hp h
    rw [hr']
    exact hk r r' hperm

/-- A loop over the elements with their indices, where the index can be done without. -/
theorem mapM_zipIdx {f : α × ℕ → Option β} {g : α → Option β} {l : List α} {n : ℕ}
    (h : ∀ k a, l[k]? = some a → f (a, n + k) = g a) : (l.zipIdx n).mapM f = l.mapM g := by
  induction l generalizing n with
  | nil => rfl
  | cons a l ih =>
    have hhead : f (a, n) = g a := h 0 a rfl
    have htail : (l.zipIdx (n + 1)).mapM f = l.mapM g := ih fun k b hb => by
      rw [Nat.add_assoc, Nat.add_comm 1 k]
      exact h (k + 1) b hb
    rw [List.zipIdx_cons, List.mapM_cons, List.mapM_cons, hhead, htail]

/-- A loop over the indices of a list. -/
theorem mapM_range {f : ℕ → Option β} {g : α → Option β} {l : List α} (h : ∀ k a, l[k]? = some a → f k = g a) :
    (List.range l.length).mapM f = l.mapM g := by
  have hzip : (l.zipIdx).mapM (fun a => f a.2) = l.mapM g := mapM_zipIdx fun k a hk => by
    rw [Nat.zero_add]
    exact h k a hk
  rw [← hzip, List.range_eq_range', ← List.zipIdx_map_snd, List.mapM_map]
  rfl

/-- A loop over changed elements that changes its states as `h` does. -/
theorem foldlM_hom {δ : Type} {f : β → α → Option β} {g : γ → δ → Option γ} {t : α → δ} {h : β → γ} {l : List α}
    (hstep : ∀ b, ∀ a ∈ l, g (h b) (t a) = (f b a).map h) (b : β) :
    (l.map t).foldlM g (h b) = (l.foldlM f b).map h := by
  induction l generalizing b with
  | nil => rfl
  | cons a l ih =>
    rw [List.map_cons, List.foldlM_cons, List.foldlM_cons, hstep b a List.mem_cons_self]
    cases f b a with
    | none => rfl
    | some b₁ => exact ih (fun b c hc => hstep b c (List.mem_cons_of_mem a hc)) b₁

theorem mapM_hom {δ : Type} {f : α → Option β} {g : δ → Option γ} {t : α → δ} {h : β → γ} {l : List α}
    (hstep : ∀ a ∈ l, g (t a) = (f a).map h) : (l.map t).mapM g = (l.mapM f).map (List.map h) := by
  induction l with
  | nil => rfl
  | cons a l ih =>
    rw [List.map_cons, List.mapM_cons, List.mapM_cons, hstep a List.mem_cons_self,
      ih fun b hb => hstep b (List.mem_cons_of_mem a hb)]
    cases f a with
    | none => rfl
    | some b =>
      cases l.mapM f with
      | none => rfl
      | some r => rfl

/-- Two loops, one over the values of the other, are one loop. -/
theorem mapM_bind {f : α → Option β} {k : β → Option γ} (l : List α) :
    (l.mapM f).bind (·.mapM k) = l.mapM fun a => (f a).bind k := by
  induction l with
  | nil => rfl
  | cons a l ih =>
    rw [List.mapM_cons, List.mapM_cons, ← ih]
    cases f a with
    | none => rfl
    | some b =>
      cases l.mapM f with
      | none =>
        show none = (k b).bind fun _ => none
        cases k b with
        | none => rfl
        | some c => rfl
      | some r => exact List.mapM_cons

theorem zipIdx_pairwise_fst {R : α → α → Prop} {l : List α} (h : l.Pairwise R) (k : ℕ) :
    (l.zipIdx k).Pairwise fun a b => R a.1 b.1 := by
  rw [← List.pairwise_map (f := fun a : α × ℕ => a.1) (R := R), List.zipIdx_map_fst]
  exact h

/-- The indices go up. -/
theorem zipIdx_pairwise_lt (l : List α) (k : ℕ) : (l.zipIdx k).Pairwise fun a b => a.2 < b.2 := by
  rw [← List.pairwise_map (f := fun a : α × ℕ => a.2) (R := fun a b => a < b), List.zipIdx_map_snd]
  exact List.pairwise_lt_range'

end Lyli
