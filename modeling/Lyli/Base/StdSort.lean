import Mathlib

/-!
# `std::sort`

`std::sort` promises a permutation of its input that the comparator finds
sorted, and nothing about the order of equivalent elements.  `StdSort` is any
function that keeps this promise; results stated for every `S : StdSort` hold
whatever an implementation does with ties.  `StdSort.insertion` is one of them.
-/

namespace Lyli

/-- What `std::sort` asks of its comparator. -/
structure StrictWeak {α : Type} (less : α → α → Bool) : Prop where
  irrefl : ∀ a, less a a = false
  trans : ∀ a b c, less a b = true → less b c = true → less a c = true
  negTrans : ∀ a b c, less a c = true → less a b = true ∨ less b c = true

/-- An implementation of `std::sort`. -/
structure StdSort where
  sort : {α : Type} → (α → α → Bool) → List α → List α
  perm : ∀ {α : Type} (less : α → α → Bool) (l : List α), (sort less l).Perm l
  sorted : ∀ {α : Type} (less : α → α → Bool) (l : List α), StrictWeak less →
    (sort less l).Pairwise fun a b => less b a = false

/-- Comparing by a key in a linear order is a strict weak order. -/
theorem strictWeak_key {α κ : Type} [LinearOrder κ] (f : α → κ) :
    StrictWeak fun a b => decide (f a < f b) where
  irrefl a := by simp
  trans a b c hab hbc := by
    simp only [decide_eq_true_eq] at *
    exact hab.trans hbc
  negTrans a b c hac := by
    simp only [decide_eq_true_eq] at *
    exact (lt_or_ge (f a) (f b)).imp id fun h => h.trans_lt hac

namespace StdSort

variable (S : StdSort) {α κ : Type} [LinearOrder κ]

@[simp] theorem mem_sort (less : α → α → Bool) (l : List α) (a : α) : a ∈ S.sort less l ↔ a ∈ l :=
  (S.perm less l).mem_iff

/-- Sorting by a key leaves the keys in non-decreasing order. -/
theorem sort_key_pairwise (f : α → κ) (l : List α) :
    (S.sort (fun a b => decide (f a < f b)) l).Pairwise fun a b => f a ≤ f b :=
  (S.sorted _ l (strictWeak_key f)).imp fun h => by simpa using h

/-- Sorting by insertion. -/
def insertion : StdSort where
  sort less l := l.insertionSort fun a b => less b a = false
  perm less l := List.perm_insertionSort _ l
  sorted {α} less l h := by
    have total : Std.Total fun a b : α => less b a = false := ⟨fun a b => by
      by_contra hn
      rw [not_or, Bool.not_eq_false, Bool.not_eq_false] at hn
      exact absurd (h.trans _ _ _ hn.1 hn.2) (by simp [h.irrefl])⟩
    have trans : IsTrans α fun a b => less b a = false := ⟨fun a b c hab hbc => by
      by_contra hn
      rcases h.negTrans c b a (by simpa using hn) with h1 | h1
      · rw [hbc] at h1; cases h1
      · rw [hab] at h1; cases h1⟩
    exact List.pairwise_insertionSort _ l

/-- Only elements of the range are compared. -/
def Local : Prop := ∀ {α : Type} (less less' : α → α → Bool) (l : List α),
  (∀ a ∈ l, ∀ b ∈ l, less a b = less' a b) → S.sort less l = S.sort less' l

theorem insertion_local : insertion.Local := by
  intro α less less' l h
  show l.insertionSort (fun a b => less b a = false) = l.insertionSort fun a b => less' b a = false
  induction l with
  | nil => rfl
  | cons a l ih =>
    have htail := ih fun b hb c hc => h b (List.mem_cons_of_mem a hb) c (List.mem_cons_of_mem a hc)
    rw [List.insertionSort_cons, List.insertionSort_cons, htail]
    -- the head is compared with elements of the tail only
    have hinsert : ∀ r : List α, (∀ b ∈ r, b ∈ l) → r.orderedInsert (fun a b => less b a = false) a =
        r.orderedInsert (fun a b => less' b a = false) a := by
      intro r
      induction r with
      | nil => intro _; rfl
      | cons b r ihr =>
        intro hr
        have hb : less b a = less' b a :=
          h b (List.mem_cons_of_mem a (hr b List.mem_cons_self)) a List.mem_cons_self
        rw [List.orderedInsert_cons, List.orderedInsert_cons, ihr fun c hc => hr c (List.mem_cons_of_mem b hc)]
        simp only [hb]
    exact hinsert _ fun b hb => (List.perm_insertionSort _ l).mem_iff.mp hb

end StdSort

end Lyli
