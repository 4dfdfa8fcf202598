import Mathlib
import Lyli.Base.Json

/-!
# Subscripts that create members

`value[key]` and `value[index]` on a value that is not constant put a null where
there is nothing, and make an object or an array of a null.  So reading changes
the document, but not what is read elsewhere:

    Stable p q  →  touch p v = some v'  →  get q v' = get q v                    (get_touch)
    every order of reads gives what each gives alone  ↔  the paths are stable        (reads_iff)
-/

namespace Lyli.Json

inductive Subscript
  | key (k : String)
  | index (i : ℕ)
deriving DecidableEq

/-! ## Model -/

/-- What a path of subscripts reads. -/
def get : List Subscript → Json → Option Json
  | [], v => some v
  | .key k :: path, v => (member k v).bind (get path)
  | .index i :: path, v => (index i v).bind (get path)

/-- The members of an object, or of a null that becomes one. -/
def asMembers : Json → Option (List (String × Json))
  | null => some []
  | object members => some members
  | _ => none

def asValues : Json → Option (List Json)
  | null => some []
  | array values => some values
  | _ => none

/-- The values with one put at `i`, behind as many nulls as it takes. -/
def putAt (i : ℕ) (v : Json) (values : List Json) : List Json :=
  (values ++ List.replicate (i + 1 - values.length) null).set i v

/-- The document after the subscripts of a path; none if they throw, which they do before they create anything. -/
def touch : List Subscript → Json → Option Json
  | [], v => some v
  | .key k :: path, v => do
    let members ← asMembers v
    let w ← touch path ((members.lookup k).getD null)
    return object (insertMember k w members)
  | .index i :: path, v => do
    let values ← asValues v
    let w ← touch path (values[i]?.getD null)
    return array (putAt i w values)

/-- One read: the value, and the document it leaves. -/
def read (path : List Subscript) (doc : Json) : Option Json × Json :=
  match touch path doc with
  | some doc => (get path doc, doc)
  | none => (none, doc)

/-- A path and the conversion of what is there. -/
structure Reader (α : Type) where
  path : List Subscript
  convert : Json → Option α

/-- What a reader gives on a document that nothing else has read. -/
def Reader.value {α : Type} (r : Reader α) (doc : Json) : Option α := (get r.path doc).bind r.convert

/-- One reader after the other. -/
def reads {α : Type} : List (Reader α) → Json → List (Option α)
  | [], _ => []
  | r :: rs, doc => (read r.path doc).1.bind r.convert :: reads rs (read r.path doc).2

/-- Reading the first path leaves what the second reads. -/
def Stable : List Subscript → List Subscript → Prop
  | [], _ => True
  | .key k :: p, .key k' :: q => k = k' → Stable p q
  | .index i :: p, .index i' :: q => i = i' → Stable p q
  | _, _ => False

instance decidableStable : ∀ p q, Decidable (Stable p q)
  | [], _ => isTrue trivial
  | .key k :: p, .key k' :: q =>
    have := decidableStable p q
    inferInstanceAs (Decidable (k = k' → Stable p q))
  | .index i :: p, .index i' :: q =>
    have := decidableStable p q
    inferInstanceAs (Decidable (i = i' → Stable p q))
  | .key _ :: _, [] => isFalse id
  | .index _ :: _, [] => isFalse id
  | .key _ :: _, .index _ :: _ => isFalse id
  | .index _ :: _, .key _ :: _ => isFalse id

/-! ## One read -/

theorem member_eq (k : String) (v : Json) : member k v = (asMembers v).map fun ms => (ms.lookup k).getD null := by
  cases v <;> rfl

theorem index_eq (i : ℕ) (v : Json) : index i v = (asValues v).map fun vs => vs[i]?.getD null := by
  cases v <;> rfl

theorem getElem?_putAt (i j : ℕ) (v : Json) (values : List Json) :
    (putAt i v values)[j]?.getD null = if i = j then v else values[j]?.getD null := by
  unfold putAt
  rw [List.getElem?_set]
  by_cases h : i = j
  · subst h
    rw [if_pos rfl, if_pos rfl, if_pos (by rw [List.length_append, List.length_replicate]; omega)]
    rfl
  · rw [if_neg h, if_neg h]
    by_cases hj : j < values.length
    · rw [List.getElem?_append_left hj]
    · rw [List.getElem?_append_right (not_lt.mp hj), List.getElem?_replicate, List.getElem?_eq_none (not_lt.mp hj)]
      split_ifs
      · rfl
      · rfl

theorem stable_refl (p : List Subscript) : Stable p p := by
  induction p with
  | nil => trivial
  | cons s p ih =>
    cases s with
    | key k => exact fun _ => ih
    | index i => exact fun _ => ih

theorem touch_key {k : String} {p : List Subscript} {v v' : Json} :
    touch (.key k :: p) v = some v' ↔ ∃ ms w, asMembers v = some ms ∧ touch p ((ms.lookup k).getD null) = some w ∧
      v' = object (insertMember k w ms) := by
  show Option.bind (asMembers v) (fun ms => Option.bind (touch p ((ms.lookup k).getD null)) _) = some v' ↔ _
  simp only [Option.bind_eq_some_iff]
  constructor
  · rintro ⟨ms, hms, w, hw, h⟩
    exact ⟨ms, w, hms, hw, (Option.some.inj h).symm⟩
  · rintro ⟨ms, w, hms, hw, rfl⟩
    exact ⟨ms, hms, w, hw, rfl⟩

theorem touch_index {i : ℕ} {p : List Subscript} {v v' : Json} :
    touch (.index i :: p) v = some v' ↔ ∃ vs w, asValues v = some vs ∧ touch p (vs[i]?.getD null) = some w ∧
      v' = array (putAt i w vs) := by
  show Option.bind (asValues v) (fun vs => Option.bind (touch p (vs[i]?.getD null)) _) = some v' ↔ _
  simp only [Option.bind_eq_some_iff]
  constructor
  · rintro ⟨vs, hvs, w, hw, h⟩
    exact ⟨vs, w, hvs, hw, (Option.some.inj h).symm⟩
  · rintro ⟨vs, w, hvs, hw, rfl⟩
    exact ⟨vs, hvs, w, hw, rfl⟩

/-- **A read leaves what the others read.** -/
theorem get_touch {p q : List Subscript} (h : Stable p q) {v v' : Json} (ht : touch p v = some v') :
    get q v' = get q v := by
  induction p generalizing q v v' with
  | nil =>
    obtain rfl : v = v' := Option.some.inj ht
    rfl
  | cons s p ih =>
    cases s with
    | key k =>
      obtain ⟨ms, w, hms, hw, rfl⟩ := touch_key.mp ht
      match q, h with
      | .key k' :: q, h =>
        unfold get
        rw [member_eq, member_eq, hms]
        show get q (((insertMember k w ms).lookup k').getD null) = get q ((ms.lookup k').getD null)
        rw [lookup_insertMember]
        by_cases hk : k' = k
        · subst hk
          rw [if_pos rfl]
          exact ih (h rfl) hw
        · rw [if_neg hk]
    | index i =>
      obtain ⟨vs, w, hvs, hw, rfl⟩ := touch_index.mp ht
      match q, h with
      | .index j :: q, h =>
        unfold get
        rw [index_eq, index_eq, hvs]
        show get q ((putAt i w vs)[j]?.getD null) = get q (vs[j]?.getD null)
        rw [getElem?_putAt]
        by_cases hj : i = j
        · subst hj
          rw [if_pos rfl]
          exact ih (h rfl) hw
        · rw [if_neg hj]

/-- The subscripts throw where there is nothing to read. -/
theorem touch_none {p : List Subscript} {v : Json} (h : touch p v = none) : get p v = none := by
  induction p generalizing v with
  | nil => cases h
  | cons s p ih =>
    cases s with
    | key k =>
      unfold get
      rw [member_eq]
      cases hms : asMembers v with
      | none => rfl
      | some ms =>
        refine ih (Option.eq_none_iff_forall_ne_some.mpr fun w hw => ?_)
        rw [touch_key.mpr ⟨ms, w, hms, hw, rfl⟩] at h
        cases h
    | index i =>
      unfold get
      rw [index_eq]
      cases hvs : asValues v with
      | none => rfl
      | some vs =>
        refine ih (Option.eq_none_iff_forall_ne_some.mpr fun w hw => ?_)
        rw [touch_index.mpr ⟨vs, w, hvs, hw, rfl⟩] at h
        cases h

/-- A read gives what its path reads. -/
theorem read_fst (p : List Subscript) (doc : Json) : (read p doc).1 = get p doc := by
  unfold read
  cases h : touch p doc with
  | none => exact (touch_none h).symm
  | some doc' => exact get_touch (stable_refl p) h

theorem get_read {p q : List Subscript} (h : Stable p q) (doc : Json) : get q (read p doc).2 = get q doc := by
  unfold read
  cases ht : touch p doc with
  | none => rfl
  | some doc' => exact get_touch h ht

/-! ## All reads -/

section Reads

variable {α : Type} {readers : List (Reader α)}

/-- **Reads in any order**, on a document of any shape. -/
theorem reads_eq (h : ∀ r ∈ readers, ∀ r' ∈ readers, Stable r.path r'.path) (doc : Json) :
    reads readers doc = readers.map (·.value doc) := by
  induction readers generalizing doc with
  | nil => rfl
  | cons r readers ih =>
    unfold reads
    rw [ih (fun a ha b hb => h a (List.mem_cons_of_mem _ ha) b (List.mem_cons_of_mem _ hb)), read_fst, List.map_cons]
    refine congrArg (r.value doc :: ·) (List.map_congr_left fun r' hr' => ?_)
    unfold Reader.value
    rw [get_read (h r List.mem_cons_self r' (List.mem_cons_of_mem _ hr'))]

/-- On an empty document every path reads null. -/
theorem get_null (q : List Subscript) : get q null = some null := by
  induction q with
  | nil => rfl
  | cons s q ih =>
    cases s with
    | key k => exact ih
    | index i => exact ih

/-- **Paths that are not stable**: on an empty document, after the first the second reads a container, or throws. -/
theorem get_touch_null {p q : List Subscript} (h : ¬ Stable p q) {v w : Json} (ht : touch p null = some v)
    (hw : get q v = some w) : (∃ ms, w = object ms) ∨ ∃ vs, w = array vs := by
  induction p generalizing q v with
  | nil => exact absurd trivial h
  | cons s p ih =>
    cases s with
    | key k =>
      obtain ⟨ms, u, hms, hu, rfl⟩ := touch_key.mp ht
      obtain rfl := Option.some.inj hms
      match q, h with
      | [], _ => exact Or.inl ⟨_, (Option.some.inj hw).symm⟩
      | .index _ :: _, _ => cases hw
      | .key k' :: q, h =>
        obtain ⟨rfl, hstable⟩ := Classical.not_imp.mp h
        unfold get at hw
        rw [member_eq] at hw
        change get q (((insertMember k u []).lookup k).getD null) = some w at hw
        rw [lookup_insertMember, if_pos rfl] at hw
        exact ih hstable hu hw
    | index i =>
      obtain ⟨vs, u, hvs, hu, rfl⟩ := touch_index.mp ht
      obtain rfl := Option.some.inj hvs
      match q, h with
      | [], _ => exact Or.inr ⟨_, (Option.some.inj hw).symm⟩
      | .key _ :: _, _ => cases hw
      | .index j :: q, h =>
        obtain ⟨rfl, hstable⟩ := Classical.not_imp.mp h
        unfold get at hw
        rw [index_eq] at hw
        change get q ((putAt i u [])[i]?.getD null) = some w at hw
        rw [getElem?_putAt, if_pos rfl] at hw
        exact ih hstable hu hw

/-- A conversion that takes null, and no container. -/
structure Scalar (convert : Json → Option α) : Prop where
  null : ∃ a, convert null = some a
  object : ∀ members, convert (object members) = none
  array : ∀ values, convert (array values) = none

/-- **Reads give what each gives alone**, in every order and on every document, iff their paths are stable. -/
theorem reads_iff (hscalar : ∀ r ∈ readers, Scalar r.convert) :
    (∀ calls, (∀ r ∈ calls, r ∈ readers) → ∀ doc, reads calls doc = calls.map (·.value doc)) ↔
      ∀ r ∈ readers, ∀ r' ∈ readers, Stable r.path r'.path := by
  constructor
  · intro h r hr r' hr'
    by_contra hunstable
    -- first `r`, then `r'`, on an empty document
    have hcalls := h [r, r'] (by simp [hr, hr']) null
    have hsecond : (read r'.path (read r.path null).2).1.bind r'.convert = r'.value null :=
      (List.cons.inj (List.cons.inj hcalls).2).1
    rw [read_fst] at hsecond
    obtain ⟨a, ha⟩ := (hscalar r' hr').null
    have halone : r'.value null = some a := by
      unfold Reader.value
      rw [get_null]
      exact ha
    cases ht : touch r.path null with
    | none =>
      have hnone := touch_none ht
      rw [get_null] at hnone
      cases hnone
    | some v =>
      have hdoc : (read r.path null).2 = v := by
        unfold read
        rw [ht]
      rw [hdoc, halone] at hsecond
      obtain ⟨w, hw, hconvert⟩ := Option.bind_eq_some_iff.mp hsecond
      rcases get_touch_null hunstable ht hw with ⟨ms, rfl⟩ | ⟨vs, rfl⟩
      · rw [(hscalar r' hr').object] at hconvert
        cases hconvert
      · rw [(hscalar r' hr').array] at hconvert
        cases hconvert
  · intro h calls hcalls doc
    exact reads_eq (fun r hr r' hr' => h r (hcalls r hr) r' (hcalls r' hr')) doc

end Reads

end Lyli.Json
