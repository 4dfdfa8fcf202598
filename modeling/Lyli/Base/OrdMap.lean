import Mathlib

/-!
# Ordered maps as sorted entry lists

`OrdMap κ α` is what `std::map` keeps: the entries in strictly increasing key
order (`sorted` is a field, so an unsorted map cannot be built).  `nearest?`
is the lookup both the point grid and the line averaging make: of the two
entries around `lower_bound(q)`, the one whose key has the smaller difference to
`q`.  Differences may be rounded; all that is asked of them is that they grow on
either side of `q` (`Grows`).

    nearest? m diff q = some e  →  e ∈ m.entries ∧ ∀ e' ∈ m.entries, diff e.1 q ≤ diff e'.1 q   (nearest?_le)

`move` erases an entry and inserts it again under another key.  If no other
key lies between the old and the new one (which the choice by `nearest?`
gives, `nearest?_no_between`), the entry keeps its place (`move_entries`).
-/

namespace Lyli

/-- `std::map`: entries in strictly increasing key order. -/
structure OrdMap (κ α : Type) [LinearOrder κ] where
  entries : List (κ × α)
  sorted : entries.Pairwise fun a b => a.1 < b.1

namespace OrdMap

section Order

variable {κ α β : Type} [LinearOrder κ]

theorem ext_entries {m m' : OrdMap κ α} (h : m.entries = m'.entries) : m = m' := by
  cases m; cases m'; cases h; rfl

/-! ## Operations -/

def empty : OrdMap κ α := ⟨[], .nil⟩

instance : Inhabited (OrdMap κ α) := ⟨empty⟩

/-- Sorted insertion that keeps an entry already stored under the key. -/
def emplaceEntries (k : κ) (v : α) : List (κ × α) → List (κ × α)
  | [] => [(k, v)]
  | e :: es =>
    if k < e.1 then (k, v) :: e :: es
    else if e.1 < k then e :: emplaceEntries k v es
    else e :: es

theorem mem_emplaceEntries (k : κ) (v : α) (es : List (κ × α)) (e : κ × α)
    (h : e ∈ emplaceEntries k v es) : e = (k, v) ∨ e ∈ es := by
  induction es with
  | nil => simpa [emplaceEntries] using h
  | cons a es ih =>
    simp only [emplaceEntries] at h
    split_ifs at h
    · simpa using h
    · rcases List.mem_cons.mp h with rfl | h
      · simp
      · rcases ih h with rfl | h
        · simp
        · simp [h]
    · exact Or.inr h

theorem emplaceEntries_sorted (k : κ) (v : α) (es : List (κ × α))
    (hs : es.Pairwise fun a b => a.1 < b.1) :
    (emplaceEntries k v es).Pairwise fun a b => a.1 < b.1 := by
  induction es with
  | nil => simp [emplaceEntries]
  | cons a es ih =>
    obtain ⟨ha, hes⟩ := List.pairwise_cons.mp hs
    simp only [emplaceEntries]
    split_ifs with h1 h2
    · refine List.pairwise_cons.mpr ⟨fun e he => ?_, hs⟩
      rcases List.mem_cons.mp he with rfl | he
      · exact h1
      · exact h1.trans (ha e he)
    · refine List.pairwise_cons.mpr ⟨fun e he => ?_, ih hes⟩
      rcases mem_emplaceEntries k v es e he with rfl | he
      · exact h2
      · exact ha e he
    · exact hs

/-- `emplace` / `insert`: no effect when the key is taken. -/
def emplace (m : OrdMap κ α) (k : κ) (v : α) : OrdMap κ α :=
  ⟨emplaceEntries k v m.entries, emplaceEntries_sorted k v _ m.sorted⟩

def erase (m : OrdMap κ α) (k : κ) : OrdMap κ α :=
  ⟨m.entries.filter fun e => e.1 ≠ k, m.sorted.filter _⟩

/-- Change the value stored under a key in place. -/
def modify (m : OrdMap κ α) (k : κ) (f : α → α) : OrdMap κ α :=
  ⟨m.entries.map fun e => if e.1 = k then (e.1, f e.2) else e, by
    rw [List.pairwise_map]
    exact m.sorted.imp fun h => by split_ifs <;> exact h⟩

/-- Change every value in place. -/
def mapVal (m : OrdMap κ α) (f : α → β) : OrdMap κ β :=
  ⟨m.entries.map fun e => (e.1, f e.2), by
    rw [List.pairwise_map]
    exact m.sorted.imp fun h => h⟩

def values (m : OrdMap κ α) : List α := m.entries.map (·.2)

def keys (m : OrdMap κ α) : List κ := m.entries.map (·.1)

/-- `lower_bound(q)`: the first entry whose key is not below `q`. -/
def lowerBound (m : OrdMap κ α) (q : κ) : Option (κ × α) := m.entries.find? fun e => q ≤ e.1

/-- `std::prev(lower_bound(q))`, if there is one: the last entry whose key is below `q`. -/
def prevBound (m : OrdMap κ α) (q : κ) : Option (κ × α) :=
  (m.entries.filter fun e => e.1 < q).getLast?

/-- Erase the entry under `k` and insert it again as `(k', v)`. -/
def move (m : OrdMap κ α) (k k' : κ) (v : α) : OrdMap κ α := (m.erase k).emplace k' v

/-! ## Lemmas -/

@[simp] theorem empty_entries : (empty : OrdMap κ α).entries = [] := rfl

@[simp] theorem mapVal_entries (m : OrdMap κ α) (f : α → β) :
    (m.mapVal f).entries = m.entries.map fun e => (e.1, f e.2) := rfl

/-- In a split entry list the keys before the middle entry are smaller, those after it larger. -/
theorem sorted_split (m : OrdMap κ α) {l₁ l₂ : List (κ × α)} {e : κ × α}
    (h : m.entries = l₁ ++ e :: l₂) : (∀ a ∈ l₁, a.1 < e.1) ∧ ∀ b ∈ l₂, e.1 < b.1 := by
  have hs := m.sorted
  rw [h, List.pairwise_append, List.pairwise_cons] at hs
  exact ⟨fun a ha => hs.2.2 a ha e List.mem_cons_self, hs.2.1.1⟩

theorem entries_nodup (m : OrdMap κ α) : m.entries.Nodup :=
  m.sorted.imp fun h heq => h.ne (congrArg Prod.fst heq)

/-- Two entries under one key are the same entry. -/
theorem eq_of_key (m : OrdMap κ α) {a b : κ × α} (ha : a ∈ m.entries) (hb : b ∈ m.entries)
    (h : a.1 = b.1) : a = b := by
  obtain ⟨l₁, l₂, hsplit⟩ := List.append_of_mem ha
  obtain ⟨h₁, h₂⟩ := m.sorted_split hsplit
  rw [hsplit, List.mem_append, List.mem_cons] at hb
  rcases hb with hb | rfl | hb
  · exact absurd h (h₁ b hb).ne'
  · rfl
  · exact absurd h (h₂ b hb).ne

theorem emplaceEntries_append (k : κ) (v : α) (l₁ l₂ : List (κ × α))
    (h₁ : ∀ a ∈ l₁, a.1 < k) (h₂ : ∀ b ∈ l₂, k < b.1) :
    emplaceEntries k v (l₁ ++ l₂) = l₁ ++ (k, v) :: l₂ := by
  induction l₁ with
  | nil =>
    cases l₂ with
    | nil => rfl
    | cons b l₂ => simp [emplaceEntries, h₂ b List.mem_cons_self]
  | cons a l₁ ih =>
    have ha : a.1 < k := h₁ a List.mem_cons_self
    have := ih fun a' h => h₁ a' (List.mem_cons_of_mem _ h)
    simp [emplaceEntries, ha, ha.le.not_gt, this]

/-- A key that is not taken splits the entries. -/
theorem exists_split (m : OrdMap κ α) (k : κ) (h : ∀ e ∈ m.entries, e.1 ≠ k) :
    ∃ l₁ l₂, m.entries = l₁ ++ l₂ ∧ (∀ a ∈ l₁, a.1 < k) ∧ ∀ b ∈ l₂, k < b.1 := by
  obtain ⟨es, hs⟩ := m
  simp only at h ⊢
  induction es with
  | nil => exact ⟨[], [], rfl, by simp, by simp⟩
  | cons a es ih =>
    obtain ⟨ha, hes⟩ := List.pairwise_cons.mp hs
    rcases lt_or_gt_of_ne (h a List.mem_cons_self) with hlt | hgt
    · obtain ⟨l₁, l₂, rfl, h₁, h₂⟩ := ih hes fun e he => h e (List.mem_cons_of_mem _ he)
      refine ⟨a :: l₁, l₂, rfl, fun e he => ?_, h₂⟩
      rcases List.mem_cons.mp he with rfl | he
      · exact hlt
      · exact h₁ e he
    · refine ⟨[], a :: es, rfl, by simp, fun e he => ?_⟩
      rcases List.mem_cons.mp he with rfl | he
      · exact hgt
      · exact lt_trans hgt (ha e he)

/-- `emplace` under a free key puts the entry at its place in the order. -/
theorem emplace_entries (m : OrdMap κ α) (k : κ) (v : α) (h : ∀ e ∈ m.entries, e.1 ≠ k) :
    ∃ l₁ l₂, m.entries = l₁ ++ l₂ ∧ (m.emplace k v).entries = l₁ ++ (k, v) :: l₂ := by
  obtain ⟨l₁, l₂, he, h₁, h₂⟩ := m.exists_split k h
  refine ⟨l₁, l₂, he, ?_⟩
  show emplaceEntries k v m.entries = _
  rw [he, emplaceEntries_append k v l₁ l₂ h₁ h₂]

theorem emplaceEntries_of_mem (k : κ) (v : α) (es : List (κ × α))
    (hs : es.Pairwise fun a b => a.1 < b.1) (h : ∃ e ∈ es, e.1 = k) :
    emplaceEntries k v es = es := by
  induction es with
  | nil => simp at h
  | cons a es ih =>
    obtain ⟨ha, hes⟩ := List.pairwise_cons.mp hs
    obtain ⟨e, he, rfl⟩ := h
    rcases List.mem_cons.mp he with rfl | he
    · simp [emplaceEntries]
    · have hlt := ha e he
      simp [emplaceEntries, hlt, hlt.le.not_gt, ih hes ⟨e, he, rfl⟩]

/-- `emplace` under a taken key changes nothing. -/
theorem emplace_of_mem (m : OrdMap κ α) (k : κ) (v : α) (h : ∃ e ∈ m.entries, e.1 = k) :
    m.emplace k v = m :=
  ext_entries (emplaceEntries_of_mem k v _ m.sorted h)

theorem erase_entries (m : OrdMap κ α) {l₁ l₂ : List (κ × α)} {e : κ × α}
    (h : m.entries = l₁ ++ e :: l₂) : (m.erase e.1).entries = l₁ ++ l₂ := by
  obtain ⟨h₁, h₂⟩ := m.sorted_split h
  have f₁ : l₁.filter (fun a => decide (a.1 ≠ e.1)) = l₁ :=
    List.filter_eq_self.mpr fun a ha => by simp [(h₁ a ha).ne]
  have f₂ : l₂.filter (fun a => decide (a.1 ≠ e.1)) = l₂ :=
    List.filter_eq_self.mpr fun a ha => by simp [(h₂ a ha).ne']
  simp only [erase, h, List.filter_append, List.filter_cons, f₁, f₂]
  simp

/-- **A moved entry** is lost when its new key is taken. -/
theorem move_cases (m : OrdMap κ α) {e : κ × α} (he : e ∈ m.entries) (k' : κ) (v : α) :
    ∃ l₁ l₂, m.entries = l₁ ++ e :: l₂ ∧
      (((∃ a ∈ l₁ ++ l₂, a.1 = k') ∧ (m.move e.1 k' v).entries = l₁ ++ l₂) ∨
        ((∀ a ∈ l₁ ++ l₂, a.1 ≠ k') ∧ (m.move e.1 k' v).entries.Perm ((k', v) :: (l₁ ++ l₂)))) := by
  obtain ⟨l₁, l₂, hsplit⟩ := List.append_of_mem he
  have herase := m.erase_entries hsplit
  refine ⟨l₁, l₂, hsplit, ?_⟩
  unfold move
  rw [← herase]
  by_cases htaken : ∃ a ∈ (m.erase e.1).entries, a.1 = k'
  · exact Or.inl ⟨htaken, by rw [emplace_of_mem _ _ _ htaken]⟩
  · push Not at htaken
    obtain ⟨l₁', l₂', hm, hm'⟩ := (m.erase e.1).emplace_entries k' v htaken
    rw [hm, hm']
    rw [hm] at htaken
    exact Or.inr ⟨htaken, List.perm_middle⟩

theorem modify_entries (m : OrdMap κ α) (f : α → α) {l₁ l₂ : List (κ × α)} {k : κ} {v : α}
    (h : m.entries = l₁ ++ (k, v) :: l₂) : (m.modify k f).entries = l₁ ++ (k, f v) :: l₂ := by
  obtain ⟨h₁, h₂⟩ := m.sorted_split h
  have keep : ∀ l : List (κ × α), (∀ a ∈ l, a.1 ≠ k) →
      l.map (fun e => if e.1 = k then (e.1, f e.2) else e) = l := fun l hl =>
    (List.map_congr_left fun a ha => if_neg (hl a ha)).trans (List.map_id' l)
  have f₁ := keep l₁ fun a ha => (h₁ a ha).ne
  have f₂ := keep l₂ fun a ha => (h₂ a ha).ne'
  simp only [modify, h, List.map_append, List.map_cons, if_true, f₁, f₂]

theorem lowerBound_spec (m : OrdMap κ α) (q : κ) {e : κ × α} (h : m.lowerBound q = some e) :
    e ∈ m.entries ∧ q ≤ e.1 ∧ ∀ e' ∈ m.entries, q ≤ e'.1 → e.1 ≤ e'.1 := by
  unfold lowerBound at h
  obtain ⟨hq, l₁, l₂, he, hbefore⟩ := List.find?_eq_some_iff_append.mp h
  obtain ⟨-, h₂⟩ := m.sorted_split he
  refine ⟨by rw [he]; simp, by simpa using hq, fun e' he' hq' => ?_⟩
  rw [he, List.mem_append, List.mem_cons] at he'
  rcases he' with he' | rfl | he'
  · exact absurd hq' (by simpa using hbefore e' he')
  · exact le_rfl
  · exact (h₂ e' he').le

theorem lowerBound_eq_none (m : OrdMap κ α) (q : κ) :
    m.lowerBound q = none ↔ ∀ e ∈ m.entries, e.1 < q := by
  simp [lowerBound]

theorem prevBound_spec (m : OrdMap κ α) (q : κ) {e : κ × α} (h : m.prevBound q = some e) :
    e ∈ m.entries ∧ e.1 < q ∧ ∀ e' ∈ m.entries, e'.1 < q → e'.1 ≤ e.1 := by
  unfold prevBound at h
  obtain ⟨l, hl⟩ := List.getLast?_eq_some_iff.mp h
  have hmem : ∀ e', e' ∈ l ++ [e] ↔ e' ∈ m.entries ∧ e'.1 < q := by
    intro e'; rw [← hl]; simp
  have hs : (l ++ [e]).Pairwise fun a b => a.1 < b.1 := hl ▸ m.sorted.filter _
  obtain ⟨he, hq⟩ := (hmem e).mp (by simp)
  refine ⟨he, hq, fun e' he' hq' => ?_⟩
  rcases List.mem_append.mp ((hmem e').mpr ⟨he', hq'⟩) with h' | h'
  · exact ((List.pairwise_append.mp hs).2.2 e' h' e (by simp)).le
  · rw [List.mem_singleton.mp h']

theorem prevBound_eq_none (m : OrdMap κ α) (q : κ) :
    m.prevBound q = none ↔ ∀ e ∈ m.entries, q ≤ e.1 := by
  simp [prevBound]

end Order

/-! ## The entry nearest to a key -/

section Nearest

variable {κ α δ : Type} [LinearOrder κ] [LinearOrder δ] {diff : κ → κ → δ}

/-- The difference to a key `q` grows on either side of it. -/
structure Grows (diff : κ → κ → δ) : Prop where
  above : ∀ {q a b : κ}, q ≤ a → a ≤ b → diff a q ≤ diff b q
  below : ∀ {q a b : κ}, b ≤ a → a ≤ q → diff a q ≤ diff b q

/-- A key's difference to itself is least. -/
theorem Grows.self_le (hd : Grows diff) (a q : κ) : diff q q ≤ diff a q := by
  rcases le_total q a with h | h
  · exact hd.above le_rfl h
  · exact hd.below h le_rfl

/-- The distance does. -/
theorem distance_grows [AddCommGroup κ] [IsOrderedAddMonoid κ] : Grows fun a q : κ => |a - q| where
  above hqa hab := by
    rw [abs_of_nonneg (sub_nonneg.mpr hqa), abs_of_nonneg (sub_nonneg.mpr (hqa.trans hab))]
    exact sub_le_sub_right hab _
  below hba haq := by
    rw [abs_of_nonpos (sub_nonpos.mpr haq), abs_of_nonpos (sub_nonpos.mpr (hba.trans haq))]
    exact neg_le_neg (sub_le_sub_right hba _)

/-- Difference from a neighbour of `q`; that of a missing neighbour is larger than
any other (`numeric_limits::max()`, which no difference of coordinates reaches). -/
def diffTo (diff : κ → κ → δ) (q : κ) : Option (κ × α) → WithTop δ
  | some e => (diff e.1 q : δ)
  | none => ⊤

/-- `diffLb < diffUb ? lb : ub`; `none` is the end iterator. -/
def nearest? (m : OrdMap κ α) (diff : κ → κ → δ) (q : κ) : Option (κ × α) :=
  let ub := m.lowerBound q
  let lb := m.prevBound q
  if diffTo diff q lb < diffTo diff q ub then lb else ub

/-- The entry found is the last one below `q`, and then `q` is no key, or the first one not below `q`. -/
theorem nearest?_cases (hd : Grows diff) (m : OrdMap κ α) (q : κ) {e : κ × α} (h : m.nearest? diff q = some e) :
    (m.prevBound q = some e ∧ ∀ b, m.lowerBound q = some b → q < b.1 ∧ diff e.1 q < diff b.1 q) ∨
    (m.lowerBound q = some e ∧ ∀ a, m.prevBound q = some a → diff e.1 q ≤ diff a.1 q) := by
  unfold nearest? at h
  by_cases hlt : diffTo diff q (m.prevBound q) < diffTo diff q (m.lowerBound q)
  · rw [if_pos hlt] at h
    refine Or.inl ⟨h, fun b hb => ?_⟩
    rw [h, hb] at hlt
    have hdiff : diff e.1 q < diff b.1 q := WithTop.coe_lt_coe.mp hlt
    obtain ⟨-, hle, -⟩ := m.lowerBound_spec q hb
    refine ⟨lt_of_le_of_ne hle fun heq => ?_, hdiff⟩
    rw [← heq] at hdiff
    exact hdiff.not_ge (hd.self_le e.1 q)
  · rw [if_neg hlt] at h
    refine Or.inr ⟨h, fun a ha => ?_⟩
    rw [h, ha] at hlt
    exact not_lt.mp fun hdiff => hlt (WithTop.coe_lt_coe.mpr hdiff)

/-- **The entry found is nearest.**  Every other entry differs from `q` as much at least. -/
theorem nearest?_le (hd : Grows diff) (m : OrdMap κ α) (q : κ) {e : κ × α} (h : m.nearest? diff q = some e) :
    e ∈ m.entries ∧ ∀ e' ∈ m.entries, diff e.1 q ≤ diff e'.1 q := by
  -- `a` is the last entry below `q` and `b` the first one not below it
  have below : ∀ a, m.prevBound q = some a → ∀ e' ∈ m.entries, e'.1 < q → diff a.1 q ≤ diff e'.1 q := by
    intro a ha e' he' hq'
    obtain ⟨-, haq, hmax⟩ := m.prevBound_spec q ha
    exact hd.below (hmax e' he' hq') haq.le
  have above : ∀ b, m.lowerBound q = some b → ∀ e' ∈ m.entries, q ≤ e'.1 → diff b.1 q ≤ diff e'.1 q := by
    intro b hb e' he' hq'
    obtain ⟨-, hbq, hmin⟩ := m.lowerBound_spec q hb
    exact hd.above hbq (hmin e' he' hq')
  rcases m.nearest?_cases hd q h with ⟨hlb, hub⟩ | ⟨hub, hlb⟩
  · refine ⟨(m.prevBound_spec q hlb).1, fun e' he' => ?_⟩
    rcases lt_or_ge e'.1 q with hq' | hq'
    · exact below e hlb e' he' hq'
    · cases hb : m.lowerBound q with
      | none => exact absurd ((m.lowerBound_eq_none q).mp hb e' he') hq'.not_gt
      | some b => exact (hub b hb).2.le.trans (above b hb e' he' hq')
  · refine ⟨(m.lowerBound_spec q hub).1, fun e' he' => ?_⟩
    rcases lt_or_ge e'.1 q with hq' | hq'
    · cases ha : m.prevBound q with
      | none => exact absurd ((m.prevBound_eq_none q).mp ha e' he') hq'.not_ge
      | some a => exact (hlb a ha).trans (below a ha e' he' hq')
    · exact above e hub e' he' hq'

/-- The order in which the lookup of `q` prefers keys: a smaller difference, and of equal ones the first
key that is not below `q`, then the last one below. -/
def Closer (diff : κ → κ → δ) (q k k' : κ) : Prop :=
  diff k q < diff k' q ∨ diff k q = diff k' q ∧ (q ≤ k ∧ (k' < q ∨ k < k') ∨ k < q ∧ k' < k)

theorem Closer.asymm {q k k' : κ} (h : Closer diff q k k') : ¬ Closer diff q k' k := by
  rcases h with h | ⟨heq, h⟩
  · rintro (h' | ⟨heq', -⟩)
    · exact lt_asymm h h'
    · exact h.ne heq'.symm
  · rintro (h' | ⟨-, h'⟩)
    · exact h'.ne heq.symm
    · rcases h with ⟨hq, h⟩ | ⟨hq, h⟩ <;> rcases h' with ⟨hq', h'⟩ | ⟨hq', h'⟩ <;> grind

/-- **The entry found is preferred to every other one.** -/
theorem nearest?_closer (hd : Grows diff) (m : OrdMap κ α) (q : κ) {e e' : κ × α} (h : m.nearest? diff q = some e)
    (he' : e' ∈ m.entries) (hne : e'.1 ≠ e.1) : Closer diff q e.1 e'.1 := by
  rcases ((m.nearest?_le hd q h).2 e' he').lt_or_eq with hlt | heq
  · exact Or.inl hlt
  · refine Or.inr ⟨heq, ?_⟩
    rcases m.nearest?_cases hd q h with ⟨hlb, hub⟩ | ⟨hub, -⟩
    · -- a key not below `q` differs more
      obtain ⟨-, hq, hmax⟩ := m.prevBound_spec q hlb
      have hq' : e'.1 < q := by
        by_contra hge
        cases hb : m.lowerBound q with
        | none => exact hge ((m.lowerBound_eq_none q).mp hb e' he')
        | some b =>
          obtain ⟨-, hbq, hmin⟩ := m.lowerBound_spec q hb
          have hle := hd.above hbq (hmin e' he' (not_lt.mp hge))
          exact ((hub b hb).2.trans_le hle).ne heq
      exact Or.inr ⟨hq, lt_of_le_of_ne (hmax e' he' hq') hne⟩
    · obtain ⟨-, hq, hmin⟩ := m.lowerBound_spec q hub
      refine Or.inl ⟨hq, ?_⟩
      rcases lt_or_ge e'.1 q with hq' | hq'
      · exact Or.inl hq'
      · exact Or.inr (lt_of_le_of_ne (hmin e' he' hq') hne.symm)

/-- The lookup reaches the end iterator only on an empty map. -/
theorem nearest?_eq_none (m : OrdMap κ α) (q : κ) : m.nearest? diff q = none ↔ m.entries = [] := by
  constructor
  · intro h
    simp only [nearest?] at h
    have hub : m.lowerBound q = none := by
      split_ifs at h with hlt
      · rw [h, diffTo] at hlt; exact absurd hlt not_top_lt
      · exact h
    have hlb : m.prevBound q = none := by
      cases hlb : m.prevBound q with
      | none => rfl
      | some a => simp [hlb, hub, diffTo] at h
    apply List.eq_nil_iff_forall_not_mem.mpr
    intro e he
    exact ((m.lowerBound_eq_none q).mp hub e he).not_ge ((m.prevBound_eq_none q).mp hlb e he)
  · intro h
    simp [nearest?, lowerBound, prevBound, h, diffTo]

variable (diff) in
theorem exists_nearest (m : OrdMap κ α) (q : κ) (h : m.entries ≠ []) :
    ∃ e, m.nearest? diff q = some e :=
  Option.ne_none_iff_exists'.mp fun hn => h ((m.nearest?_eq_none q).mp hn)

/-- **No key on the way.**  No other key lies between the nearest entry's key and `q`. -/
theorem nearest?_no_between (hd : Grows diff) (m : OrdMap κ α) (q : κ) {e e' : κ × α}
    (h : m.nearest? diff q = some e) (he' : e' ∈ m.entries) (hne : e'.1 ≠ e.1) : e'.1 ∉ Set.uIcc e.1 q := by
  intro hb
  rcases m.nearest?_cases hd q h with ⟨hlb, hub⟩ | ⟨hub, -⟩
  · obtain ⟨-, heq, hmax⟩ := m.prevBound_spec q hlb
    rw [Set.uIcc_of_le heq.le] at hb
    rcases hb.2.lt_or_eq with hlt | hq
    · exact hne (le_antisymm (hmax e' he' hlt) hb.1)
    · -- then `q` is a key, and the first one not below it
      cases hb' : m.lowerBound q with
      | none => exact absurd ((m.lowerBound_eq_none q).mp hb' e' he') hq.not_lt
      | some b =>
        obtain ⟨-, -, hmin⟩ := m.lowerBound_spec q hb'
        exact (hub b hb').1.not_ge ((hmin e' he' hq.ge).trans_eq hq)
  · obtain ⟨-, hqe, hmin⟩ := m.lowerBound_spec q hub
    rw [Set.uIcc_of_ge hqe] at hb
    exact hne (le_antisymm hb.2 (hmin e' he' hb.1))

/-- An entry whose key is `q` itself is the one found. -/
theorem nearest?_of_mem (hd : Grows diff) (m : OrdMap κ α) (q : κ) (v : α) (h : (q, v) ∈ m.entries) :
    m.nearest? diff q = some (q, v) := by
  obtain ⟨e, he⟩ := m.exists_nearest diff q (List.ne_nil_of_mem h)
  have hk : q = e.1 := by
    by_contra hne
    exact m.nearest?_no_between hd q he h hne Set.right_mem_uIcc
  rw [he, m.eq_of_key (m.nearest?_le hd q he).1 h hk.symm]

/-- **A moved entry keeps its place** when its new key is on the way from the old
one to `q`, for the entry nearest to `q`. -/
theorem move_entries (hd : Grows diff) (m : OrdMap κ α) (q : κ) {e : κ × α} (h : m.nearest? diff q = some e) (k' : κ)
    (hk' : k' ∈ Set.uIcc e.1 q) (v : α) :
    ∃ l₁ l₂, m.entries = l₁ ++ e :: l₂ ∧ (m.move e.1 k' v).entries = l₁ ++ (k', v) :: l₂ := by
  obtain ⟨l₁, l₂, hsplit⟩ := List.append_of_mem (m.nearest?_le hd q h).1
  obtain ⟨h₁, h₂⟩ := m.sorted_split hsplit
  have sub : Set.uIcc e.1 k' ⊆ Set.uIcc e.1 q := Set.uIcc_subset_uIcc_left hk'
  refine ⟨l₁, l₂, hsplit, ?_⟩
  show emplaceEntries k' v (m.erase e.1).entries = _
  rw [m.erase_entries hsplit]
  refine emplaceEntries_append k' v l₁ l₂ (fun a ha => ?_) (fun b hb => ?_)
  · have hmem : a ∈ m.entries := by rw [hsplit]; simp [ha]
    have hout := m.nearest?_no_between hd q h hmem (h₁ a ha).ne
    by_contra hle
    exact hout (sub (Set.mem_uIcc.mpr (Or.inr ⟨not_lt.mp hle, (h₁ a ha).le⟩)))
  · have hmem : b ∈ m.entries := by rw [hsplit]; simp [hb]
    have hout := m.nearest?_no_between hd q h hmem (h₂ b hb).ne'
    by_contra hle
    exact hout (sub (Set.mem_uIcc.mpr (Or.inl ⟨(h₂ b hb).le, not_lt.mp hle⟩)))

/-- Of two entries at the same distance from `q` the one with the larger key is found. -/
theorem nearest?_tie [AddCommGroup κ] [IsOrderedAddMonoid κ] (m : OrdMap κ α) (q : κ) {e e' : κ × α}
    (h : m.nearest? (fun a q => |a - q|) q = some e) (he' : e' ∈ m.entries) (heq : |e.1 - q| = |e'.1 - q|) :
    e'.1 ≤ e.1 := by
  by_contra hlt
  rw [not_le] at hlt
  rcases m.nearest?_closer distance_grows q h he' hlt.ne' with hless | ⟨-, ⟨hq, -⟩ | ⟨-, hbelow⟩⟩
  · exact hless.ne heq
  · rw [abs_of_nonneg (sub_nonneg.mpr hq), abs_of_nonneg (sub_nonneg.mpr (hq.trans hlt.le))] at heq
    exact hlt.ne (sub_left_injective heq)
  · exact lt_asymm hlt hbelow

end Nearest

end OrdMap

end Lyli
