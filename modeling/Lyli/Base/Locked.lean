import Mathlib
import Lyli.Base.Reach

/-!
# Calls under one lock

Threads make calls on a shared state.  A call waits for the lock, runs its section
one step at a time, and gives the lock back; a step that throws gives it back too.
`history` has the calls in the order in which they gave it back.

    at most one thread is in a section, and the shared state is that of the calls of the
    history one after the other, with the section of the owner begun                (inv_reachable)
    every section ends  →  every run can go on until all calls have returned         (run_completes)
-/

namespace Lyli.Locked

variable {σ Call κ ρ : Type}

/-! ## Model -/

/-- What one step of a section leads to. -/
inductive Outcome (κ ρ : Type)
  | next (k : κ)
  | done (r : ρ)
  | thrown

/-- The sections of the calls: where they start, and their steps. -/
structure Machine (σ Call κ ρ : Type) where
  start : Call → κ
  step : κ → σ → Outcome κ ρ × σ

/-- Where a thread is. -/
inductive Phase (Call κ ρ : Type)
  | idle
  | waiting (call : Call)
  | inside (call : Call) (k : κ)
  /-- before the lock is given back -/
  | leaving (call : Call) (r : ρ)

/-- A call that gave the lock back; without a result when it threw. -/
structure Entry (Call ρ : Type) where
  thread : ℕ
  call : Call
  result : Option ρ

structure State (σ Call κ ρ : Type) where
  shared : σ
  owner : Option ℕ
  todo : ℕ → List Call
  phase : ℕ → Phase Call κ ρ
  history : List (Entry Call ρ)

inductive Action
  | call (t : ℕ)
  | lock (t : ℕ)
  | step (t : ℕ)
  | unlock (t : ℕ)

/-- The calls that each thread makes, in order. -/
def State.init (shared : σ) (scripts : List (List Call)) : State σ Call κ ρ :=
  ⟨shared, none, fun t => scripts[t]?.getD [], fun _ => .idle, []⟩

variable (M : Machine σ Call κ ρ)

def step (s : State σ Call κ ρ) : Action → Option (State σ Call κ ρ)
  | .call t =>
    match s.phase t, s.todo t with
    | .idle, c :: cs => some { s with
        todo := Function.update s.todo t cs
        phase := Function.update s.phase t (.waiting c) }
    | _, _ => none
  | .lock t =>
    match s.phase t, s.owner with
    | .waiting c, none => some { s with
        owner := some t
        phase := Function.update s.phase t (.inside c (M.start c)) }
    | _, _ => none
  | .step t =>
    match s.phase t with
    | .inside c k =>
      match M.step k s.shared with
      | (.next k', shared) => some { s with shared, phase := Function.update s.phase t (.inside c k') }
      | (.done r, shared) => some { s with shared, phase := Function.update s.phase t (.leaving c r) }
      | (.thrown, shared) => some { s with
          shared
          owner := none
          phase := Function.update s.phase t .idle
          history := s.history ++ [⟨t, c, none⟩] }
    | _ => none
  | .unlock t =>
    match s.phase t with
    | .leaving c r => some { s with
        owner := none
        phase := Function.update s.phase t .idle
        history := s.history ++ [⟨t, c, some r⟩] }
    | _ => none

/-- In a state of any run of the threads. -/
def Reachable (shared : σ) (scripts : List (List Call)) : State σ Call κ ρ → Prop :=
  Reach (step M) (fun _ _ => True) (.init shared scripts)

/-! ## Steps -/

section Cases

variable {M} {s s' : State σ Call κ ρ} {t : ℕ}

theorem step_call : step M s (.call t) = some s' ↔ ∃ c cs, s.phase t = .idle ∧ s.todo t = c :: cs ∧
    s' = { s with todo := Function.update s.todo t cs, phase := Function.update s.phase t (.waiting c) } := by
  show (match s.phase t, s.todo t with | .idle, c :: cs => _ | _, _ => none) = some s' ↔ _
  constructor
  · intro h
    split at h
    · rename_i c cs hphase htodo
      exact ⟨c, cs, hphase, htodo, (Option.some.inj h).symm⟩
    · cases h
  · rintro ⟨c, cs, hphase, htodo, rfl⟩
    rw [hphase, htodo]

theorem step_lock : step M s (.lock t) = some s' ↔ ∃ c, s.phase t = .waiting c ∧ s.owner = none ∧
    s' = { s with owner := some t, phase := Function.update s.phase t (.inside c (M.start c)) } := by
  show (match s.phase t, s.owner with | .waiting c, none => _ | _, _ => none) = some s' ↔ _
  constructor
  · intro h
    split at h
    · rename_i c hphase howner
      exact ⟨c, hphase, howner, (Option.some.inj h).symm⟩
    · cases h
  · rintro ⟨c, hphase, howner, rfl⟩
    rw [hphase, howner]

theorem step_step : step M s (.step t) = some s' ↔ ∃ c k, s.phase t = .inside c k ∧
    ((∃ k' s₁, M.step k s.shared = (.next k', s₁) ∧
        s' = { s with shared := s₁, phase := Function.update s.phase t (.inside c k') }) ∨
      (∃ r s₁, M.step k s.shared = (.done r, s₁) ∧
        s' = { s with shared := s₁, phase := Function.update s.phase t (.leaving c r) }) ∨
      ∃ s₁, M.step k s.shared = (.thrown, s₁) ∧
        s' = { s with
          shared := s₁
          owner := none
          phase := Function.update s.phase t .idle
          history := s.history ++ [⟨t, c, none⟩] }) := by
  show (match s.phase t with | .inside c k => _ | _ => none) = some s' ↔ _
  constructor
  · intro h
    split at h
    · rename_i c k hphase
      refine ⟨c, k, hphase, ?_⟩
      split at h
      · rename_i k' s₁ hstep
        exact Or.inl ⟨k', s₁, hstep, (Option.some.inj h).symm⟩
      · rename_i r s₁ hstep
        exact Or.inr (Or.inl ⟨r, s₁, hstep, (Option.some.inj h).symm⟩)
      · rename_i s₁ hstep
        exact Or.inr (Or.inr ⟨s₁, hstep, (Option.some.inj h).symm⟩)
    · cases h
  · rintro ⟨c, k, hphase, ⟨k', s₁, hstep, rfl⟩ | ⟨r, s₁, hstep, rfl⟩ | ⟨s₁, hstep, rfl⟩⟩
    · rw [hphase]
      dsimp only
      rw [hstep]
    · rw [hphase]
      dsimp only
      rw [hstep]
    · rw [hphase]
      dsimp only
      rw [hstep]

theorem step_unlock : step M s (.unlock t) = some s' ↔ ∃ c r, s.phase t = .leaving c r ∧
    s' = { s with
      owner := none
      phase := Function.update s.phase t .idle
      history := s.history ++ [⟨t, c, some r⟩] } := by
  show (match s.phase t with | .leaving c r => _ | _ => none) = some s' ↔ _
  constructor
  · intro h
    split at h
    · rename_i c r hphase
      exact ⟨c, r, hphase, (Option.some.inj h).symm⟩
    · cases h
  · rintro ⟨c, r, hphase, rfl⟩
    rw [hphase]

end Cases

/-! ## One call after the other -/

/-- The section runs from `k` to its end; without a result when a step throws. -/
inductive Runs : κ → σ → Option ρ → σ → Prop
  | done {k : κ} {s : σ} {r : ρ} {s' : σ} : M.step k s = (.done r, s') → Runs k s (some r) s'
  | thrown {k : κ} {s s' : σ} : M.step k s = (.thrown, s') → Runs k s none s'
  | next {k : κ} {s : σ} {k' : κ} {s' : σ} {r : Option ρ} {s'' : σ} :
    M.step k s = (.next k', s') → Runs k' s' r s'' → Runs k s r s''

/-- The section is at `k'` after some of its steps. -/
inductive Steps (k : κ) (s : σ) : κ → σ → Prop
  | refl : Steps k s k s
  | tail {k₁ : κ} {s₁ : σ} {k₂ : κ} {s₂ : σ} : Steps k s k₁ s₁ → M.step k₁ s₁ = (.next k₂, s₂) → Steps k s k₂ s₂

/-- The calls one after the other, each with its result. -/
inductive Sequential (s : σ) : List (Call × Option ρ) → σ → Prop
  | nil : Sequential s [] s
  | snoc {calls : List (Call × Option ρ)} {s₁ : σ} {c : Call} {r : Option ρ} {s₂ : σ} :
    Sequential s calls s₁ → Runs M (M.start c) s₁ r s₂ → Sequential s (calls ++ [(c, r)]) s₂

variable {M}

/-- A section that is begun ends as from its start. -/
theorem Steps.runs {k k' : κ} {s s' s'' : σ} {r : Option ρ} (h : Steps M k s k' s') (h' : Runs M k' s' r s'') :
    Runs M k s r s'' := by
  induction h with
  | refl => exact h'
  | tail _ hstep ih => exact ih (.next hstep h')

theorem Steps.trans {k k' k'' : κ} {s s' s'' : σ} (h : Steps M k s k' s') (h' : Steps M k' s' k'' s'') :
    Steps M k s k'' s'' := by
  induction h' with
  | refl => exact h
  | tail _ hstep ih => exact ih.tail hstep

/-- What every step of a section keeps holds until it ends. -/
theorem Runs.inv {I : κ → σ → Prop} {Q : σ → Prop} {k : κ} {s s' : σ} {r : Option ρ} (h : Runs M k s r s')
    (hk : I k s) (hnext : ∀ k s k' s', I k s → M.step k s = (.next k', s') → I k' s')
    (hdone : ∀ k s r s', I k s → M.step k s = (.done r, s') → Q s')
    (hthrown : ∀ k s s', I k s → M.step k s = (.thrown, s') → Q s') : Q s' := by
  induction h with
  | done hstep => exact hdone _ _ _ _ hk hstep
  | thrown hstep => exact hthrown _ _ _ hk hstep
  | next hstep _ ih => exact ih (hnext _ _ _ _ hk hstep)

theorem Steps.rest {k k' : κ} {s s' s'' : σ} {r : Option ρ} (h : Steps M k s k' s') (h' : Runs M k s r s'') :
    Runs M k' s' r s'' := by
  induction h with
  | refl => exact h'
  | tail _ hstep ih =>
    cases ih with
    | done hdone => rw [hstep] at hdone; cases hdone
    | thrown hthrown => rw [hstep] at hthrown; cases hthrown
    | next hnext hruns =>
      rw [hstep] at hnext
      cases hnext
      exact hruns

/-- **Invariants of sequential calls**: what every call keeps holds after all of them. -/
theorem Sequential.inv {R : σ → Prop} {s s' : σ} {calls : List (Call × Option ρ)} (hs : R s)
    (hcall : ∀ c s r s', R s → Runs M (M.start c) s r s' → R s') (h : Sequential M s calls s') : R s' := by
  induction h with
  | nil => exact hs
  | snoc _ hruns ih => exact hcall _ _ _ _ ih hruns

/-- Every result is that of a run of its call from a state of `R`. -/
theorem Sequential.results {R : σ → Prop} {s s' : σ} {calls : List (Call × Option ρ)} (hs : R s)
    (hcall : ∀ c s r s', R s → Runs M (M.start c) s r s' → R s') (h : Sequential M s calls s') :
    ∀ call ∈ calls, ∃ s₁ s₂, R s₁ ∧ Runs M (M.start call.1) s₁ call.2 s₂ := by
  induction h with
  | nil => nofun
  | snoc hcalls hruns ih =>
    intro call hmem
    rcases List.mem_append.mp hmem with hmem | hmem
    · exact ih call hmem
    · obtain rfl := List.mem_singleton.mp hmem
      exact ⟨_, _, hcalls.inv hs hcall, hruns⟩

/-! ## The invariant -/

/-- The call a thread is in. -/
def Phase.calls : Phase Call κ ρ → List Call
  | .idle => []
  | .waiting c => [c]
  | .inside c _ => [c]
  | .leaving c _ => [c]

def Phase.InSection : Phase Call κ ρ → Prop
  | .inside _ _ => True
  | .leaving _ _ => True
  | _ => False

/-- The section of a thread, begun in `s₁`, has led to `s`. -/
def Phase.Begun (M : Machine σ Call κ ρ) (s₁ s : σ) : Phase Call κ ρ → Prop
  | .inside c k => Steps M (M.start c) s₁ k s
  | .leaving c r => Runs M (M.start c) s₁ (some r) s
  | _ => False

/-- The calls of a history with their results. -/
def results (history : List (Entry Call ρ)) : List (Call × Option ρ) := history.map fun e => (e.call, e.result)

/-- The calls of one thread in a history. -/
def callsOf (t : ℕ) (history : List (Entry Call ρ)) : List Call :=
  (history.filter fun e => e.thread = t).map (·.call)

/-- The shared state: that of the history, or that of the owner's section begun after the history. -/
def Serial (M : Machine σ Call κ ρ) (shared : σ) (s : State σ Call κ ρ) : Prop :=
  ∃ s₁, Sequential M shared (results s.history) s₁ ∧
    match s.owner with
    | none => s.shared = s₁
    | some t => (s.phase t).Begun M s₁ s.shared

structure Inv (M : Machine σ Call κ ρ) (shared : σ) (scripts : List (List Call)) (s : State σ Call κ ρ) : Prop where
  serial : Serial M shared s
  exclusive : ∀ t, (s.phase t).InSection ↔ s.owner = some t
  script : ∀ t, callsOf t s.history ++ (s.phase t).calls ++ s.todo t = scripts[t]?.getD []

theorem results_snoc (history : List (Entry Call ρ)) (t : ℕ) (c : Call) (r : Option ρ) :
    results (history ++ [⟨t, c, r⟩]) = results history ++ [(c, r)] := by
  unfold results
  rw [List.map_append]
  rfl

theorem callsOf_snoc (t t' : ℕ) (history : List (Entry Call ρ)) (c : Call) (r : Option ρ) :
    callsOf t' (history ++ [⟨t, c, r⟩]) = callsOf t' history ++ if t' = t then [c] else [] := by
  unfold callsOf
  rw [List.filter_append, List.map_append]
  by_cases h : t' = t
  · subst h
    simp
  · simp [h, Ne.symm h]

variable {shared : σ} {scripts : List (List Call)} {s s' : State σ Call κ ρ}

theorem inv_init : Inv M shared scripts (.init shared scripts) where
  serial := ⟨shared, .nil, rfl⟩
  exclusive _ := ⟨fun h => h.elim, nofun⟩
  script _ := rfl

section Step

variable {t : ℕ} {c : Call}

/-- The phase of one thread changes, and with it the calls it has left. -/
theorem Inv.script_update (h : Inv M shared scripts s) {phase : Phase Call κ ρ} {todo : ℕ → List Call}
    {history : List (Entry Call ρ)}
    (hother : ∀ t', t' ≠ t → todo t' = s.todo t' ∧ callsOf t' history = callsOf t' s.history)
    (hself : callsOf t history ++ phase.calls ++ todo t = callsOf t s.history ++ (s.phase t).calls ++ s.todo t) (t' : ℕ) :
    callsOf t' history ++ (Function.update s.phase t phase t').calls ++ todo t' = scripts[t']?.getD [] := by
  by_cases ht : t' = t
  · subst ht
    rw [Function.update_self, hself]
    exact h.script t'
  · obtain ⟨htodo, hcalls⟩ := hother t' ht
    rw [Function.update_of_ne ht, htodo, hcalls]
    exact h.script t'

/-- A thread outside any section changes its phase to another outside. -/
theorem Inv.exclusive_outside (h : Inv M shared scripts s) {phase : Phase Call κ ρ} (hold : ¬ (s.phase t).InSection)
    (hnew : ¬ phase.InSection) (t' : ℕ) : (Function.update s.phase t phase t').InSection ↔ s.owner = some t' := by
  by_cases ht : t' = t
  · subst ht
    rw [Function.update_self, ← h.exclusive]
    exact ⟨fun h => absurd h hnew, fun h => absurd h hold⟩
  · rw [Function.update_of_ne ht]
    exact h.exclusive t'

/-- The owner goes on in its section. -/
theorem Inv.exclusive_inside (h : Inv M shared scripts s) {phase : Phase Call κ ρ} (hold : (s.phase t).InSection)
    (hnew : phase.InSection) (t' : ℕ) : (Function.update s.phase t phase t').InSection ↔ s.owner = some t' := by
  by_cases ht : t' = t
  · subst ht
    rw [Function.update_self, ← h.exclusive]
    exact ⟨fun _ => hold, fun _ => hnew⟩
  · rw [Function.update_of_ne ht]
    exact h.exclusive t'

/-- The owner gives the lock back. -/
theorem Inv.exclusive_released (h : Inv M shared scripts s) (hold : (s.phase t).InSection) (t' : ℕ) :
    (Function.update s.phase t .idle t').InSection ↔ (none : Option ℕ) = some t' := by
  have howner := (h.exclusive t).mp hold
  by_cases ht : t' = t
  · subst ht
    rw [Function.update_self]
    exact ⟨fun h => h.elim, nofun⟩
  · rw [Function.update_of_ne ht, h.exclusive, howner]
    exact ⟨fun heq => absurd (Option.some.inj heq).symm ht, nofun⟩

/-- What the section of the owner has done so far. -/
theorem Inv.begun (h : Inv M shared scripts s) (hin : (s.phase t).InSection) :
    ∃ s₁, Sequential M shared (results s.history) s₁ ∧ (s.phase t).Begun M s₁ s.shared := by
  obtain ⟨s₁, hseq, hbegun⟩ := h.serial
  rw [(h.exclusive t).mp hin] at hbegun
  exact ⟨s₁, hseq, hbegun⟩

end Step

/-- **Every step keeps the invariant.** -/
theorem inv_step (h : Inv M shared scripts s) {a : Action} (hs : step M s a = some s') : Inv M shared scripts s' := by
  cases a with
  | call t =>
    obtain ⟨c, cs, hphase, htodo, rfl⟩ := step_call.mp hs
    have hout : ¬ (s.phase t).InSection := by
      rw [hphase]
      exact id
    refine ⟨?_, h.exclusive_outside hout id, h.script_update (fun t' ht => ⟨Function.update_of_ne ht _ _, rfl⟩) ?_⟩
    · obtain ⟨s₁, hseq, hshared⟩ := h.serial
      refine ⟨s₁, hseq, ?_⟩
      show match s.owner with | none => s.shared = s₁ | some u => (Function.update s.phase t _ u).Begun M s₁ s.shared
      cases howner : s.owner with
      | none =>
        rw [howner] at hshared
        exact hshared
      | some u =>
        rw [howner] at hshared
        have hne : u ≠ t := by
          rintro rfl
          exact hout ((h.exclusive u).mpr howner)
        dsimp only
        rw [Function.update_of_ne hne]
        exact hshared
    · show callsOf t s.history ++ [c] ++ Function.update s.todo t cs t = _
      rw [hphase, htodo, Function.update_self]
      simp [Phase.calls]
  | lock t =>
    obtain ⟨c, hphase, howner, rfl⟩ := step_lock.mp hs
    refine ⟨?_, fun t' => ?_, h.script_update (fun _ _ => ⟨rfl, rfl⟩) (by rw [hphase]; rfl)⟩
    · obtain ⟨s₁, hseq, hshared⟩ := h.serial
      rw [howner] at hshared
      refine ⟨s₁, hseq, ?_⟩
      show (Function.update s.phase t (.inside c (M.start c)) t).Begun M s₁ s.shared
      rw [Function.update_self, hshared]
      exact .refl
    · show (Function.update s.phase t (.inside c (M.start c)) t').InSection ↔ some t = some t'
      by_cases ht : t' = t
      · subst ht
        rw [Function.update_self]
        exact ⟨fun _ => rfl, fun _ => trivial⟩
      · rw [Function.update_of_ne ht, h.exclusive, howner]
        exact ⟨nofun, fun heq => absurd (Option.some.inj heq).symm ht⟩
  | step t =>
    obtain ⟨c, k, hphase, hstep⟩ := step_step.mp hs
    have hin : (s.phase t).InSection := by
      rw [hphase]
      trivial
    have howner := (h.exclusive t).mp hin
    obtain ⟨s₁, hseq, hbegun⟩ := h.begun hin
    rw [hphase] at hbegun
    rcases hstep with ⟨k', s₂, hstep, rfl⟩ | ⟨r, s₂, hstep, rfl⟩ | ⟨s₂, hstep, rfl⟩
    · refine ⟨⟨s₁, hseq, ?_⟩, h.exclusive_inside hin trivial, h.script_update (fun _ _ => ⟨rfl, rfl⟩) (by rw [hphase]; rfl)⟩
      dsimp only
      rw [howner]
      dsimp only
      rw [Function.update_self]
      exact .tail hbegun hstep
    · refine ⟨⟨s₁, hseq, ?_⟩, h.exclusive_inside hin trivial, h.script_update (fun _ _ => ⟨rfl, rfl⟩) (by rw [hphase]; rfl)⟩
      dsimp only
      rw [howner]
      dsimp only
      rw [Function.update_self]
      exact hbegun.runs (.done hstep)
    · refine ⟨⟨s₂, ?_, rfl⟩, h.exclusive_released hin, h.script_update (fun t' ht => ⟨rfl, ?_⟩) ?_⟩
      · rw [results_snoc]
        exact .snoc hseq (hbegun.runs (.thrown hstep))
      · rw [callsOf_snoc, if_neg ht, List.append_nil]
      · rw [callsOf_snoc, if_pos rfl, hphase]
        simp [Phase.calls]
  | unlock t =>
    obtain ⟨c, r, hphase, rfl⟩ := step_unlock.mp hs
    have hin : (s.phase t).InSection := by
      rw [hphase]
      trivial
    obtain ⟨s₁, hseq, hbegun⟩ := h.begun hin
    rw [hphase] at hbegun
    refine ⟨⟨s.shared, ?_, rfl⟩, h.exclusive_released hin, h.script_update (fun t' ht => ⟨rfl, ?_⟩) ?_⟩
    · rw [results_snoc]
      exact .snoc hseq hbegun
    · rw [callsOf_snoc, if_neg ht, List.append_nil]
    · rw [callsOf_snoc, if_pos rfl, hphase]
      simp [Phase.calls]

/-- **In every state of every run** the calls that returned are those of a sequential run. -/
theorem inv_reachable (h : Reachable M shared scripts s) : Inv M shared scripts s :=
  Reach.inv inv_init (fun _ _ _ hinv _ hs => inv_step hinv hs) h

/-- No two threads are in a section. -/
theorem Inv.owner_unique (h : Inv M shared scripts s) {t t' : ℕ} (ht : (s.phase t).InSection)
    (ht' : (s.phase t').InSection) : t = t' :=
  Option.some.inj (((h.exclusive t).mp ht).symm.trans ((h.exclusive t').mp ht'))

/-! ## Completion -/

/-- All calls have returned. -/
def Complete (s : State σ Call κ ρ) : Prop := ∀ t, s.phase t = .idle ∧ s.todo t = []

/-- The calls a thread has not returned from. -/
def State.left (s : State σ Call κ ρ) (t : ℕ) : ℕ := (s.phase t).calls.length + (s.todo t).length

/-- A run from `s` that returns from one call of the thread `t`, with all others as before. -/
structure Returns (M : Machine σ Call κ ρ) (s : State σ Call κ ρ) (t : ℕ) (s' : State σ Call κ ρ) : Prop where
  reach : Reach (step M) (fun _ _ => True) s s'
  left : s'.left t < s.left t
  others : ∀ t', t' ≠ t → s'.left t' = s.left t'

/-- The phase of one thread has changed. -/
structure Moved (s : State σ Call κ ρ) (t : ℕ) (phase : Phase Call κ ρ) (todo : List Call) (s' : State σ Call κ ρ) :
    Prop where
  phase : s'.phase = Function.update s.phase t phase
  todo : s'.todo = Function.update s.todo t todo

section Moved

variable {t : ℕ} {phase : Phase Call κ ρ} {todo : List Call}

theorem Moved.left_self (h : Moved s t phase todo s') : s'.left t = phase.calls.length + todo.length := by
  unfold State.left
  rw [h.phase, h.todo, Function.update_self, Function.update_self]

theorem Moved.left_other (h : Moved s t phase todo s') {t' : ℕ} (ht : t' ≠ t) : s'.left t' = s.left t' := by
  unfold State.left
  rw [h.phase, h.todo, Function.update_of_ne ht, Function.update_of_ne ht]

/-- A step to a state with the same calls left, before a call returns. -/
theorem Returns.of_step {u : State σ Call κ ρ} {a : Action} (hstep : step M s a = some s') (h : Moved s t phase todo s')
    (hleft : phase.calls.length + todo.length = s.left t) (hu : Returns M s' t u) : Returns M s t u where
  reach := (Reach.single trivial hstep).trans hu.reach
  left := by
    rw [← hleft, ← h.left_self]
    exact hu.left
  others t' ht := (hu.others t' ht).trans (h.left_other ht)

/-- A step that gives the lock back. -/
theorem Returns.of_released {a : Action} (hstep : step M s a = some s') (h : Moved s t .idle (s.todo t) s')
    (hcalls : 0 < (s.phase t).calls.length) : Returns M s t s' where
  reach := Reach.single trivial hstep
  left := by
    rw [h.left_self]
    exact Nat.add_lt_add_right hcalls _
  others t' ht := h.left_other ht

end Moved

section Run

variable {t : ℕ} {c : Call}

theorem left_eq {phase : Phase Call κ ρ} (h : s.phase t = phase) :
    s.left t = phase.calls.length + (s.todo t).length := by
  rw [← h]
  rfl

theorem returns_of_leaving {r : ρ} (hphase : s.phase t = .leaving c r) : ∃ u, Returns M s t u := by
  refine ⟨_, .of_released (step_unlock.mpr ⟨c, r, hphase, rfl⟩) ⟨rfl, (Function.update_eq_self t s.todo).symm⟩ ?_⟩
  rw [hphase]
  exact Nat.one_pos

/-- The owner can go on until it gives the lock back. -/
theorem returns_of_inside {k : κ} {s₁ s₂ : σ} {r : Option ρ} (hruns : Runs M k s₁ r s₂) (hshared : s.shared = s₁)
    (hphase : s.phase t = .inside c k) : ∃ u, Returns M s t u := by
  induction hruns generalizing s with
  | done hdone =>
    obtain rfl := hshared
    obtain ⟨u, hu⟩ := returns_of_leaving (M := M) (s := { s with
      shared := _, phase := Function.update s.phase t (.leaving c _) }) (Function.update_self _ _ _)
    exact ⟨u, hu.of_step (step_step.mpr ⟨c, _, hphase, Or.inr (Or.inl ⟨_, _, hdone, rfl⟩)⟩)
      ⟨rfl, (Function.update_eq_self t s.todo).symm⟩ (left_eq hphase).symm⟩
  | thrown hthrown =>
    obtain rfl := hshared
    refine ⟨_, .of_released (step_step.mpr ⟨c, _, hphase, Or.inr (Or.inr ⟨_, hthrown, rfl⟩)⟩)
      ⟨rfl, (Function.update_eq_self t s.todo).symm⟩ ?_⟩
    rw [hphase]
    exact Nat.one_pos
  | next hnext _ ih =>
    obtain rfl := hshared
    obtain ⟨u, hu⟩ := ih (s := { s with shared := _, phase := Function.update s.phase t (.inside c _) }) rfl
      (Function.update_self _ _ _)
    exact ⟨u, hu.of_step (step_step.mpr ⟨c, _, hphase, Or.inl ⟨_, _, hnext, rfl⟩⟩)
      ⟨rfl, (Function.update_eq_self t s.todo).symm⟩ (left_eq hphase).symm⟩

variable {R : σ → Prop} (hR : R shared) (hkeep : ∀ c s r s', R s → Runs M (M.start c) s r s' → R s')
  (hend : ∀ c ∈ scripts.flatten, ∀ s, R s → ∃ r s', Runs M (M.start c) s r s')

/-- A call in progress is one of the scripts. -/
theorem Inv.mem_scripts (h : Inv M shared scripts s) (hc : c ∈ (s.phase t).calls) : c ∈ scripts.flatten := by
  have hmem : c ∈ scripts[t]?.getD [] := by
    rw [← h.script t]
    simp [hc]
  cases hscript : scripts[t]? with
  | none =>
    rw [hscript] at hmem
    cases hmem
  | some script =>
    rw [hscript] at hmem
    exact List.mem_flatten.mpr ⟨script, List.mem_of_getElem? hscript, hmem⟩

include hR hkeep hend

theorem Inv.returns_of_owner (h : Inv M shared scripts s) (howner : s.owner = some t) : ∃ u, Returns M s t u := by
  have hin := (h.exclusive t).mpr howner
  obtain ⟨s₁, hseq, hbegun⟩ := h.begun hin
  cases hphase : s.phase t with
  | idle =>
    rw [hphase] at hin
    exact hin.elim
  | waiting c =>
    rw [hphase] at hin
    exact hin.elim
  | inside c k =>
    rw [hphase] at hbegun
    have hc : c ∈ scripts.flatten := h.mem_scripts (t := t) (by rw [hphase]; exact List.mem_singleton_self c)
    obtain ⟨r, s₂, hruns⟩ := hend c hc s₁ (hseq.inv hR hkeep)
    exact returns_of_inside (hbegun.rest hruns) rfl hphase
  | leaving c r => exact returns_of_leaving hphase

theorem Inv.returns_of_waiting (h : Inv M shared scripts s) (hphase : s.phase t = .waiting c) (howner : s.owner = none) :
    ∃ u, Returns M s t u := by
  have hlock := (step_lock (M := M)).mpr ⟨c, hphase, howner, rfl⟩
  obtain ⟨u, hu⟩ := (inv_step h hlock).returns_of_owner hR hkeep hend rfl
  exact ⟨u, hu.of_step hlock ⟨rfl, (Function.update_eq_self t s.todo).symm⟩ (left_eq hphase).symm⟩

/-- With the lock free, any thread that has a call left can return from it. -/
theorem Inv.returns_of_free (h : Inv M shared scripts s) (howner : s.owner = none) (hleft : 0 < s.left t) :
    ∃ u, Returns M s t u := by
  have hout : ¬ (s.phase t).InSection := fun hin => by
    rw [(h.exclusive t).mp hin] at howner
    cases howner
  cases hphase : s.phase t with
  | idle =>
    cases htodo : s.todo t with
    | nil =>
      unfold State.left at hleft
      rw [hphase, htodo] at hleft
      exact absurd hleft (lt_irrefl 0)
    | cons c cs =>
      have hcall := (step_call (M := M)).mpr ⟨c, cs, hphase, htodo, rfl⟩
      obtain ⟨u, hu⟩ := (inv_step h hcall).returns_of_waiting hR hkeep hend (Function.update_self _ _ _) howner
      refine ⟨u, hu.of_step hcall ⟨rfl, rfl⟩ ?_⟩
      unfold State.left
      rw [hphase, htodo]
      exact Nat.add_comm 1 cs.length |>.trans (Nat.zero_add _).symm
  | waiting c => exact h.returns_of_waiting hR hkeep hend hphase howner
  | inside c k =>
    rw [hphase] at hout
    exact absurd trivial hout
  | leaving c r =>
    rw [hphase] at hout
    exact absurd trivial hout

/-- **Every run can go on until all calls have returned**, where every section ends. -/
theorem Inv.run_completes (h : Inv M shared scripts s) : ∃ u, Reach (step M) (fun _ _ => True) s u ∧ Complete u := by
  induction hn : ∑ t ∈ Finset.range scripts.length, s.left t using Nat.strong_induction_on generalizing s with
  | _ n ih =>
    -- a call that returns leaves fewer
    have hless : ∀ t, (∃ u, Returns M s t u) → t < scripts.length →
        ∃ u, Reach (step M) (fun _ _ => True) s u ∧ Complete u := by
      rintro t ⟨u, hu⟩ ht
      have hlt : ∑ t ∈ Finset.range scripts.length, u.left t < n := by
        rw [← hn]
        refine Finset.sum_lt_sum (fun t' _ => ?_) ⟨t, Finset.mem_range.mpr ht, hu.left⟩
        by_cases htt : t' = t
        · subst htt
          exact hu.left.le
        · exact (hu.others t' htt).le
      obtain ⟨w, hw, hc⟩ := ih _ hlt (Reach.inv h (fun _ _ _ hinv _ hs => inv_step hinv hs) hu.reach) rfl
      exact ⟨w, hu.reach.trans hw, hc⟩
    -- only threads of the list have calls
    have hthreads : ∀ t, 0 < s.left t → t < scripts.length := by
      intro t hleft
      by_contra hge
      have hscript := h.script t
      rw [List.getElem?_eq_none (not_lt.mp hge), Option.getD_none] at hscript
      have hlen := congrArg List.length hscript
      rw [List.length_append, List.length_append, List.length_nil] at hlen
      unfold State.left at hleft
      omega
    cases howner : s.owner with
    | some t =>
      refine hless t (h.returns_of_owner hR hkeep hend howner) (hthreads t ?_)
      obtain ⟨u, hu⟩ := h.returns_of_owner hR hkeep hend howner
      exact Nat.zero_lt_of_lt hu.left
    | none =>
      by_cases hany : ∃ t, 0 < s.left t
      · obtain ⟨t, hleft⟩ := hany
        exact hless t (h.returns_of_free hR hkeep hend howner hleft) (hthreads t hleft)
      · refine ⟨s, .refl, fun t => ?_⟩
        have hzero : s.left t = 0 := Nat.eq_zero_of_not_pos fun hpos => hany ⟨t, hpos⟩
        unfold State.left at hzero
        obtain ⟨hcalls, htodo⟩ := Nat.add_eq_zero_iff.mp hzero
        refine ⟨?_, List.length_eq_zero_iff.mp htodo⟩
        cases hphase : s.phase t with
        | idle => rfl
        | waiting c => rw [hphase] at hcalls; cases hcalls
        | inside c k => rw [hphase] at hcalls; cases hcalls
        | leaving c r => rw [hphase] at hcalls; cases hcalls

end Run

end Lyli.Locked
