import Mathlib
import Lyli.Base.FoldM

/-!
# JSON values

The tree a JSON library keeps, with its lenient accessors: the member of a null
value is null, null reads as zero or the empty string, and numbers convert.
`none` is a value of a type that the accessor does not take.

    member (object (members l)) k = the last value l assigns to k      (member_members)
    index (array vs) i = vs[i], or null                                (index_array)

Numbers are exact.  An object keeps its members in the order of their keys.
-/

namespace Lyli

inductive Json
  | null
  | bool (b : Bool)
  | int (n : ℤ)
  | real (x : ℝ)
  | string (s : String)
  | array (values : List Json)
  | object (members : List (String × Json))

namespace Json

/-! ## Writing -/

/-- `members[key] = value` -/
def insertMember (key : String) (value : Json) : List (String × Json) → List (String × Json)
  | [] => [(key, value)]
  | m :: ms =>
    if key < m.1 then (key, value) :: m :: ms
    else if key = m.1 then (key, value) :: ms
    else m :: insertMember key value ms

/-- The members after the given assignments. -/
def members (assignments : List (String × Json)) : List (String × Json) :=
  assignments.foldl (fun ms m => insertMember m.1 m.2 ms) []

/-! ## Reading -/

def isArray : Json → Bool
  | array _ => true
  | _ => false

def size : Json → ℕ
  | array values => values.length
  | object members => members.length
  | _ => 0

/-- `value[key]` -/
def member (key : String) : Json → Option Json
  | null => some null
  | object members => some ((members.lookup key).getD null)
  | _ => none

/-- `value[index]` -/
def index (i : ℕ) : Json → Option Json
  | null => some null
  | array values => some (values[i]?.getD null)
  | _ => none

/-- `f` of every item, in order. -/
def mapItems {α : Type} (f : Json → Option α) (value : Json) : Option (List α) :=
  (List.range value.size).mapM fun i => (value.index i).bind f

/-- Conversion of a floating-point number to an integer, towards zero. -/
noncomputable def truncate (x : ℝ) : ℤ := if 0 ≤ x then ⌊x⌋ else ⌈x⌉

/-- The range of `int`. -/
def IsInt (n : ℤ) : Prop := -2 ^ 31 ≤ n ∧ n < 2 ^ 31

instance (n : ℤ) : Decidable (IsInt n) := inferInstanceAs (Decidable (_ ∧ _))

/-- A number outside the range of `int` has no value there. -/
def toInt (n : ℤ) : Option ℤ := if IsInt n then some n else none

noncomputable def asBool : Json → Option Bool
  | null => some false
  | bool b => some b
  | int n => some (n ≠ 0)
  | real x => some (x ≠ 0)
  | _ => none

noncomputable def asInt : Json → Option ℤ
  | null => some 0
  | bool b => some (if b then 1 else 0)
  | int n => toInt n
  | real x => toInt (truncate x)
  | _ => none

noncomputable def asDouble : Json → Option ℝ
  | null => some 0
  | bool b => some (if b then 1 else 0)
  | int n => some n
  | real x => some x
  | _ => none

/-- Floats are exact. -/
noncomputable def asFloat : Json → Option ℝ := asDouble

/-- `realToString` is how the library prints a floating-point number. -/
def asString (realToString : ℝ → String) : Json → Option String
  | null => some ""
  | bool b => some (if b then "true" else "false")
  | int n => some (toString n)
  | real x => some (realToString x)
  | string s => some s
  | _ => none

/-! ## Reading what was written -/

theorem lookup_cons_eq (key : String) (m : String × Json) (ms : List (String × Json)) :
    (m :: ms).lookup key = if key = m.1 then some m.2 else ms.lookup key := by
  rw [List.lookup_cons]
  by_cases h : key = m.1
  · rw [if_pos h, beq_iff_eq.mpr h]
  · rw [if_neg h, beq_eq_false_iff_ne.mpr h]

theorem lookup_insertMember (key k : String) (value : Json) (ms : List (String × Json)) :
    (insertMember k value ms).lookup key = if key = k then some value else ms.lookup key := by
  induction ms with
  | nil => exact lookup_cons_eq key (k, value) []
  | cons m ms ih =>
    unfold insertMember
    by_cases hlt : k < m.1
    · rw [if_pos hlt]
      exact lookup_cons_eq key (k, value) (m :: ms)
    · rw [if_neg hlt]
      by_cases heq : k = m.1
      · rw [if_pos heq, lookup_cons_eq, lookup_cons_eq, heq]
        by_cases h : key = m.1
        · rw [if_pos h, if_pos h]
        · rw [if_neg h, if_neg h, if_neg h]
      · rw [if_neg heq, lookup_cons_eq, lookup_cons_eq, ih]
        by_cases h : key = k
        · rw [if_pos h, if_pos h, if_neg (by rw [h]; exact heq)]
        · rw [if_neg h, if_neg h]

theorem lookup_members (key : String) (assignments : List (String × Json)) :
    (members assignments).lookup key = assignments.reverse.lookup key := by
  unfold members
  induction assignments using List.reverseRecOn with
  | nil => rfl
  | append_singleton assignments m ih =>
    rw [List.foldl_append, List.foldl_cons, List.foldl_nil, lookup_insertMember, ih, List.reverse_append,
      List.reverse_singleton, List.singleton_append, lookup_cons_eq]

/-- **Members.**  The last assignment to a key counts. -/
theorem member_members {key : String} {assignments : List (String × Json)} {v : Json}
    (h : assignments.reverse.lookup key = some v) : member key (object (members assignments)) = some v := by
  show some (((members assignments).lookup key).getD null) = _
  rw [lookup_members, h]
  rfl

theorem index_array {values : List Json} {i : ℕ} {v : Json} (h : values[i]? = some v) :
    index i (array values) = some v := by
  show some (values[i]?.getD null) = _
  rw [h]
  rfl

theorem index_finRange {n : ℕ} (f : Fin n → Json) (i : Fin n) : index i (array ((List.finRange n).map f)) = some (f i) := by
  apply index_array
  rw [List.getElem?_map, List.getElem?_eq_getElem (by simp), List.getElem_finRange]
  rfl

theorem size_finRange {n : ℕ} (f : Fin n → Json) : (array ((List.finRange n).map f)).size = n := by
  show ((List.finRange n).map f).length = n
  rw [List.length_map, List.length_finRange]

/-- **Items** that are written by `g` and read back by `f`. -/
theorem mapItems_array {α : Type} {f : Json → Option α} {g : α → Json} {l : List α} (h : ∀ a ∈ l, f (g a) = some a) :
    mapItems f (array (l.map g)) = some l := by
  unfold mapItems
  show (List.range (l.map g).length).mapM _ = some l
  rw [List.length_map, mapM_range (g := some) fun k a hk => ?_]
  · have hsome : l.mapM some = some (l.map fun a => a) := mapM_eq_some fun a _ => rfl
    rw [hsome, List.map_id']
  · rw [index_array (by rw [List.getElem?_map, hk]; rfl)]
    exact h a (List.mem_of_getElem? hk)

theorem length_mapItems {α : Type} {f : Json → Option α} {value : Json} {l : List α} (h : value.mapItems f = some l) :
    l.length = value.size := by
  have := mapM_length h
  rwa [List.length_range] at this

theorem toInt_of_isInt {n : ℤ} (h : IsInt n) : toInt n = some n := if_pos h

theorem truncate_intCast (n : ℤ) : truncate n = n := by
  unfold truncate
  rw [Int.floor_intCast, Int.ceil_intCast, ite_self]

end Json

end Lyli
