import Mathlib
import Lyli.Base.OrdMap

/-!
# Ordered maps under a shift of the keys

`m.shift d f` has every key `d` higher and every value changed by `f`.  The order of
the keys stays, so every operation finds and moves the same entries where the
differences of the keys stay, too:

    (m.shift d f).nearest? diff (q + d) = (m.nearest? diff q).map (shifted d f)   (nearest?_shift)
    (m.shift d f).move (k + d) (k' + d) (f v) = (m.move k k' v).shift d f         (move_shift)
-/

namespace Lyli.OrdMap

variable {κ α β : Type} [LinearOrder κ] [AddCommGroup κ] [IsOrderedAddMonoid κ]

/-- The entry with its key `d` higher. -/
def shifted (d : κ) (f : α → β) (e : κ × α) : κ × β := (e.1 + d, f e.2)

def shift (d : κ) (f : α → β) (m : OrdMap κ α) : OrdMap κ β :=
  ⟨m.entries.map (shifted d f), by
    rw [List.pairwise_map]
    exact m.sorted.imp fun h => add_lt_add_left h d⟩

variable {d : κ} {f : α → β} (m : OrdMap κ α)

@[simp] theorem shift_entries : (m.shift d f).entries = m.entries.map (shifted d f) := rfl

@[simp] theorem empty_shift : (empty : OrdMap κ α).shift d f = empty := rfl

theorem shift_isEmpty : (m.shift d f).entries.isEmpty = m.entries.isEmpty := by
  rw [shift_entries, List.isEmpty_map]

theorem emplaceEntries_shift (k : κ) (v : α) (es : List (κ × α)) :
    emplaceEntries (k + d) (f v) (es.map (shifted d f)) = (emplaceEntries k v es).map (shifted d f) := by
  induction es with
  | nil => rfl
  | cons e es ih =>
    have hlt : k + d < (shifted d f e).1 ↔ k < e.1 := add_lt_add_iff_right d
    have hgt : (shifted d f e).1 < k + d ↔ e.1 < k := add_lt_add_iff_right d
    rw [List.map_cons, emplaceEntries, emplaceEntries]
    simp only [hlt, hgt]
    split_ifs
    · rfl
    · rw [ih, List.map_cons]
    · rfl

theorem emplace_shift (k : κ) (v : α) : (m.shift d f).emplace (k + d) (f v) = (m.emplace k v).shift d f :=
  ext_entries (emplaceEntries_shift k v m.entries)

theorem erase_shift (k : κ) : (m.shift d f).erase (k + d) = (m.erase k).shift d f := by
  apply ext_entries
  show (m.entries.map (shifted d f)).filter _ = (m.entries.filter _).map (shifted d f)
  rw [List.filter_map]
  refine congrArg (List.map (shifted d f)) (List.filter_congr fun e _ => ?_)
  show decide (e.1 + d ≠ k + d) = decide (e.1 ≠ k)
  rw [decide_eq_decide, ne_eq, add_left_inj]

theorem move_shift (k k' : κ) (v : α) :
    (m.shift d f).move (k + d) (k' + d) (f v) = (m.move k k' v).shift d f := by
  unfold move
  rw [erase_shift, emplace_shift]

theorem modify_shift (k : κ) (g : α → α) (g' : β → β) (h : ∀ v, g' (f v) = f (g v)) :
    (m.shift d f).modify (k + d) g' = (m.modify k g).shift d f := by
  apply ext_entries
  show (m.entries.map (shifted d f)).map _ = (m.entries.map _).map (shifted d f)
  rw [List.map_map, List.map_map]
  refine List.map_congr_left fun e _ => ?_
  show (if e.1 + d = k + d then (e.1 + d, g' (f e.2)) else (e.1 + d, f e.2)) =
    shifted d f (if e.1 = k then (e.1, g e.2) else e)
  by_cases hk : e.1 = k
  · rw [if_pos hk, if_pos (congrArg (· + d) hk), h]
    rfl
  · rw [if_neg hk, if_neg fun heq => hk (add_right_cancel heq)]
    rfl

theorem lowerBound_shift (q : κ) : (m.shift d f).lowerBound (q + d) = (m.lowerBound q).map (shifted d f) := by
  unfold lowerBound
  rw [shift_entries, List.find?_map]
  have hle : (fun e : κ × β => decide (q + d ≤ e.1)) ∘ shifted d f = fun e : κ × α => decide (q ≤ e.1) := by
    funext e
    show decide (q + d ≤ e.1 + d) = decide (q ≤ e.1)
    rw [decide_eq_decide, add_le_add_iff_right]
  rw [hle]

theorem prevBound_shift (q : κ) : (m.shift d f).prevBound (q + d) = (m.prevBound q).map (shifted d f) := by
  unfold prevBound
  rw [shift_entries, List.filter_map, List.getLast?_map]
  have hlt : (fun e : κ × β => decide (e.1 < q + d)) ∘ shifted d f = fun e : κ × α => decide (e.1 < q) := by
    funext e
    show decide (e.1 + d < q + d) = decide (e.1 < q)
    rw [decide_eq_decide, add_lt_add_iff_right]
  rw [hlt]

section Nearest

variable {δ : Type} [LinearOrder δ] {diff : κ → κ → δ} (hdiff : ∀ a q, diff (a + d) (q + d) = diff a q)

include hdiff

omit [LinearOrder κ] [IsOrderedAddMonoid κ] [LinearOrder δ] in
theorem diffTo_shift (q : κ) (e : Option (κ × α)) :
    diffTo diff (q + d) (e.map (shifted d f)) = diffTo diff q e := by
  cases e with
  | none => rfl
  | some e => exact congrArg (WithTop.some) (hdiff e.1 q)

/-- **The nearest entry** is the same one. -/
theorem nearest?_shift (q : κ) :
    (m.shift d f).nearest? diff (q + d) = (m.nearest? diff q).map (shifted d f) := by
  unfold nearest?
  simp only [lowerBound_shift, prevBound_shift, diffTo_shift hdiff]
  split_ifs
  · rfl
  · rfl

end Nearest

theorem values_shift : (m.shift d f).values = m.values.map f := by
  unfold values
  rw [shift_entries, List.map_map, List.map_map]
  rfl

end Lyli.OrdMap
