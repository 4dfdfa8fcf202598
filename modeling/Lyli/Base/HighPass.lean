import Mathlib

/-!
# Filters in the frequency domain

Images on a torus of `m` times `n` pixels, their Fourier transform in both
directions, and the filter that drops a set `S` of frequencies:

    F real  ↔  the spectrum of F is Hermitian                                   (hermitian_dft2)
    S symmetric  →  G Hermitian  →  G without S is Hermitian                      (Symmetric.hermitian_clear)
    highPass S (wave u v) = 0, or the wave itself, as (u, v) ∈ S or not           (highPass_wave)
    L a combination of waves in S  →  highPass S (a • F + L) = a • highPass S F     (highPass_add_slow)
-/

namespace Lyli.HighPass

open ZMod ComplexConjugate

variable {m n : ℕ} [NeZero m] [NeZero n]

/-! ## Model -/

/-- The transform in both directions. -/
noncomputable def dft2 : (ZMod m → ZMod n → ℂ) ≃ₗ[ℂ] (ZMod m → ZMod n → ℂ) :=
  dft.trans (LinearEquiv.piCongrRight fun _ => dft)

/-- A wave of `u` periods down and `v` across. -/
noncomputable def wave (u : ZMod m) (v : ZMod n) : ZMod m → ZMod n → ℂ :=
  fun y x => stdAddChar (y * u) * stdAddChar (x * v)

/-- The values are real. -/
def IsReal (F : ZMod m → ZMod n → ℂ) : Prop := ∀ y x, conj (F y x) = F y x

def Hermitian (G : ZMod m → ZMod n → ℂ) : Prop := ∀ u v, G (-u) (-v) = conj (G u v)

/-- Zero the values in `S`. -/
noncomputable def clear (S : Set (ZMod m × ZMod n)) : (ZMod m → ZMod n → ℂ) →ₗ[ℂ] (ZMod m → ZMod n → ℂ) where
  toFun G u v := Sᶜ.indicator (fun p => G p.1 p.2) (u, v)
  map_add' G G' := by
    ext u v
    exact congrFun (Set.indicator_add' Sᶜ (fun p => G p.1 p.2) fun p => G' p.1 p.2) (u, v)
  map_smul' c G := by
    ext u v
    exact congrFun (Set.indicator_const_smul Sᶜ c fun p => G p.1 p.2) (u, v)

/-- What is left of an image without the frequencies in `S`. -/
noncomputable def highPass (S : Set (ZMod m × ZMod n)) : (ZMod m → ZMod n → ℂ) →ₗ[ℂ] (ZMod m → ZMod n → ℂ) :=
  dft2.symm.toLinearMap ∘ₗ clear S ∘ₗ dft2.toLinearMap

/-! ## The transform -/

theorem dft2_apply (F : ZMod m → ZMod n → ℂ) (u : ZMod m) (v : ZMod n) :
    dft2 F u v = ∑ x, ∑ y, stdAddChar (-(x * v)) * (stdAddChar (-(y * u)) * F y x) := by
  show dft (dft F u) v = _
  rw [dft_apply]
  refine Finset.sum_congr rfl fun x _ => ?_
  rw [dft_apply, Finset.sum_apply, smul_eq_mul, Finset.mul_sum]
  rfl

theorem conj_stdAddChar {N : ℕ} [NeZero N] (a : ZMod N) : conj (stdAddChar a) = stdAddChar (-a) := by
  rw [AddChar.map_neg_eq_conj]

/-- **Hermitian spectra** are those of real images. -/
theorem dft2_conj (F : ZMod m → ZMod n → ℂ) (u : ZMod m) (v : ZMod n) :
    dft2 (fun y x => conj (F y x)) u v = conj (dft2 F (-u) (-v)) := by
  rw [dft2_apply, dft2_apply, map_sum]
  refine Finset.sum_congr rfl fun x _ => ?_
  rw [map_sum]
  refine Finset.sum_congr rfl fun y _ => ?_
  rw [map_mul, map_mul, conj_stdAddChar, conj_stdAddChar, mul_neg, mul_neg, neg_neg, neg_neg]

theorem hermitian_dft2 {F : ZMod m → ZMod n → ℂ} : Hermitian (dft2 F) ↔ IsReal F := by
  have hconj : IsReal F ↔ (fun y x => conj (F y x)) = F :=
    ⟨fun h => funext fun y => funext fun x => h y x, fun h y x => congrFun (congrFun h y) x⟩
  rw [hconj, ← dft2.injective.eq_iff]
  constructor
  · intro h
    ext u v
    rw [dft2_conj, h u v, Complex.conj_conj]
  · intro h u v
    rw [← congrFun (congrFun h (-u)) (-v), dft2_conj, neg_neg, neg_neg]

/-! ## The filter -/

variable {S : Set (ZMod m × ZMod n)}

omit [NeZero m] [NeZero n] in
theorem clear_of_mem {G : ZMod m → ZMod n → ℂ} {u : ZMod m} {v : ZMod n} (h : (u, v) ∈ S) : clear S G u v = 0 :=
  Set.indicator_of_notMem (s := Sᶜ) (Set.notMem_compl_iff.mpr h) fun p => G p.1 p.2

omit [NeZero m] [NeZero n] in
theorem clear_of_notMem {G : ZMod m → ZMod n → ℂ} {u : ZMod m} {v : ZMod n} (h : (u, v) ∉ S) :
    clear S G u v = G u v := Set.indicator_of_mem (s := Sᶜ) h fun p => G p.1 p.2

theorem dft2_highPass (F : ZMod m → ZMod n → ℂ) : dft2 (highPass S F) = clear S (dft2 F) :=
  dft2.apply_symm_apply _

/-- A set of frequencies that has every one with its opposite. -/
def Symmetric (S : Set (ZMod m × ZMod n)) : Prop := ∀ u v, (u, v) ∈ S → (-u, -v) ∈ S

omit [NeZero m] [NeZero n] in
theorem Symmetric.neg_mem_iff (hS : Symmetric S) (u : ZMod m) (v : ZMod n) : (-u, -v) ∈ S ↔ (u, v) ∈ S := by
  constructor
  · intro h
    have hneg := hS _ _ h
    rwa [neg_neg, neg_neg] at hneg
  · exact hS u v

omit [NeZero m] [NeZero n] in
/-- Clearing a symmetric set keeps spectra Hermitian. -/
theorem Symmetric.hermitian_clear (hS : Symmetric S) {G : ZMod m → ZMod n → ℂ} (hG : Hermitian G) :
    Hermitian (clear S G) := by
  intro u v
  by_cases h : (u, v) ∈ S
  · rw [clear_of_mem h, clear_of_mem (hS u v h), map_zero]
  · rw [clear_of_notMem h, clear_of_notMem (mt (hS.neg_mem_iff u v).mp h), hG u v]

theorem highPass_eq_zero_iff {F : ZMod m → ZMod n → ℂ} :
    highPass S F = 0 ↔ ∀ u v, (u, v) ∉ S → dft2 F u v = 0 := by
  rw [← dft2.injective.eq_iff, dft2_highPass, map_zero]
  constructor
  · intro h u v hmem
    rw [← clear_of_notMem (G := dft2 F) hmem, h]
    rfl
  · intro h
    ext u v
    by_cases hmem : (u, v) ∈ S
    · exact clear_of_mem hmem
    · exact (clear_of_notMem hmem).trans (h u v hmem)

/-! ## Waves -/

theorem sum_stdAddChar {N : ℕ} [NeZero N] (a b : ZMod N) :
    ∑ j : ZMod N, stdAddChar (-(j * a)) * stdAddChar (j * b) = if a = b then (N : ℂ) else 0 := by
  have hmul : ∀ j : ZMod N, stdAddChar (-(j * a)) * stdAddChar (j * b) = stdAddChar (j * (b - a)) := by
    intro j
    rw [← AddChar.map_add_eq_mul, mul_sub, neg_add_eq_sub]
  rw [Finset.sum_congr rfl fun j _ => hmul j, AddChar.sum_mulShift (b - a) (isPrimitive_stdAddChar N), card]
  by_cases h : a = b
  · rw [if_pos h, if_pos (sub_eq_zero.mpr h.symm)]
  · rw [if_neg h, if_neg (sub_ne_zero.mpr (Ne.symm h)), Nat.cast_zero]

/-- The spectrum of a wave. -/
theorem dft2_wave (u u' : ZMod m) (v v' : ZMod n) :
    dft2 (wave u v) u' v' = if (u', v') = (u, v) then (n : ℂ) * m else 0 := by
  have hsplit : dft2 (wave u v) u' v' =
      (∑ x : ZMod n, stdAddChar (-(x * v')) * stdAddChar (x * v)) *
        ∑ y : ZMod m, stdAddChar (-(y * u')) * stdAddChar (y * u) := by
    rw [dft2_apply, Finset.sum_mul]
    refine Finset.sum_congr rfl fun x _ => ?_
    rw [Finset.mul_sum]
    refine Finset.sum_congr rfl fun y _ => ?_
    unfold wave
    ring
  rw [hsplit, sum_stdAddChar, sum_stdAddChar]
  by_cases hu : u' = u
  · by_cases hv : v' = v
    · rw [if_pos hv, if_pos hu, if_pos (by rw [hu, hv])]
    · rw [if_neg hv, zero_mul, if_neg fun h => hv (Prod.ext_iff.mp h).2]
  · rw [if_neg hu, mul_zero, if_neg fun h => hu (Prod.ext_iff.mp h).1]

theorem highPass_wave_of_mem {u : ZMod m} {v : ZMod n} (h : (u, v) ∈ S) : highPass S (wave u v) = 0 := by
  refine highPass_eq_zero_iff.mpr fun u' v' hmem => ?_
  have hne : (u', v') ≠ (u, v) := by
    intro heq
    rw [heq] at hmem
    exact hmem h
  rw [dft2_wave, if_neg hne]

theorem highPass_wave_of_notMem {u : ZMod m} {v : ZMod n} (h : (u, v) ∉ S) : highPass S (wave u v) = wave u v := by
  apply dft2.injective
  rw [dft2_highPass]
  ext u' v'
  by_cases hmem : (u', v') ∈ S
  · have hne : (u', v') ≠ (u, v) := by
      intro heq
      rw [heq] at hmem
      exact h hmem
    rw [clear_of_mem hmem, dft2_wave, if_neg hne]
  · exact clear_of_notMem hmem

/-- The combinations of waves in `S`. -/
def slow (S : Set (ZMod m × ZMod n)) : Submodule ℂ (ZMod m → ZMod n → ℂ) :=
  Submodule.span ℂ ((fun p : ZMod m × ZMod n => wave p.1 p.2) '' S)

theorem highPass_slow {L : ZMod m → ZMod n → ℂ} (hL : L ∈ slow S) : highPass S L = 0 := by
  have hle : slow S ≤ LinearMap.ker (highPass S) := by
    refine Submodule.span_le.mpr ?_
    rintro _ ⟨p, hp, rfl⟩
    exact highPass_wave_of_mem hp
  exact hle hL

/-- **What is slow is dropped**, and the rest is scaled. -/
theorem highPass_add_slow (a : ℂ) (F : ZMod m → ZMod n → ℂ) {L : ZMod m → ZMod n → ℂ} (hL : L ∈ slow S) :
    highPass S (a • F + L) = a • highPass S F := by
  rw [map_add, LinearMap.map_smul, highPass_slow hL, add_zero]

/-- A constant is the wave of no period. -/
theorem const_mem_slow (h0 : ((0, 0) : ZMod m × ZMod n) ∈ S) (c : ℂ) : (fun _ _ => c) ∈ slow S := by
  have hwave : (fun _ _ => c) = c • wave (0 : ZMod m) (0 : ZMod n) := by
    ext y x
    simp [wave]
  rw [hwave]
  exact Submodule.smul_mem _ c (Submodule.subset_span ⟨(0, 0), h0, rfl⟩)

end Lyli.HighPass
