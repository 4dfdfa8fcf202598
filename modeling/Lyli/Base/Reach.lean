/-!
# Reachable states

`step s a = some s'` is a step of a system, in the state `s` and with the label
`a`; `none` means that `a` is not possible there.  `Reach step C s t`: some run
leads from `s` to `t` whose steps all meet the condition `C`.

    P s → (each step that meets C keeps P) → Reach step C s t → P t        (Reach.inv)
-/

namespace Lyli

variable {σ α : Type}

inductive Reach (step : σ → α → Option σ) (C : σ → α → Prop) (s : σ) : σ → Prop
  | refl : Reach step C s s
  | tail {t t' : σ} {a : α} : Reach step C s t → C t a → step t a = some t' → Reach step C s t'

variable {step : σ → α → Option σ} {C C' : σ → α → Prop} {s t u : σ}

/-- **Invariants.**  What each step of the run keeps holds in every state reached. -/
theorem Reach.inv {P : σ → Prop} (h0 : P s) (hstep : ∀ t a t', P t → C t a → step t a = some t' → P t')
    (h : Reach step C s t) : P t := by
  induction h with
  | refl => exact h0
  | tail _ hc hs ih => exact hstep _ _ _ ih hc hs

/-- A weaker condition lets more runs through. -/
theorem Reach.mono (hC : ∀ t a, C t a → C' t a) (h : Reach step C s t) : Reach step C' s t := by
  induction h with
  | refl => exact .refl
  | tail _ hc hs ih => exact .tail ih (hC _ _ hc) hs

theorem Reach.trans (h : Reach step C s t) (h' : Reach step C t u) : Reach step C s u := by
  induction h' with
  | refl => exact h
  | tail _ hc hs ih => exact .tail ih hc hs

theorem Reach.single {a : α} (hc : C s a) (hs : step s a = some t) : Reach step C s t := .tail .refl hc hs

/-- A run of the given actions. -/
theorem Reach.of_foldlM {l : List α} (h : l.foldlM step s = some t) : Reach step (fun _ _ => True) s t := by
  induction l generalizing s with
  | nil =>
    obtain rfl : s = t := Option.some.inj h
    exact .refl
  | cons a l ih =>
    rw [List.foldlM_cons] at h
    cases hs : step s a with
    | none =>
      rw [hs] at h
      cases h
    | some u =>
      rw [hs] at h
      exact (Reach.single trivial hs).trans (ih h)

end Lyli
