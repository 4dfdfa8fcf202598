import Mathlib
import Lyli.Base.JsonSubscript
import Lyli.Pycppjson.JsonAccess

/-!
# What the generated accessors return

An accessor returns `(*m_root)["a"][0]["b"].asInt()`, where `m_root` is not a
pointer to a constant: each subscript creates what is missing.  So calls change
the document that all objects of the class share.

    a description is written  →  its accessors read the paths of its values, and
      calls in any order return what each returns alone
        ↔  no value is at a path of another, and no path goes on both by word and by index
                                                                        (accessors_read_iff)
-/

namespace Lyli.Pycppjson

open PyString Json

/-! ## Expressions -/

/-- Inside of a subscript. -/
inductive Lex
  | outside
  | opened
  | key (word : Str)
  | quoted (word : Str)
  | index (n : ℕ)

/-- The subscripts of an expression: plain words in quotes, and decimal numbers. -/
def lex : Lex → Str → Option (List Subscript)
  | .outside, [] => some []
  | .outside, c :: s => if c = '[' then lex .opened s else none
  | .opened, c :: s =>
    if c = '"' then lex (.key []) s
    else if c.isDigit then lex (.index (c.toNat - '0'.toNat)) s else none
  | .key word, c :: s =>
    if c = '"' then lex (.quoted word) s
    else if c = '\\' then none else lex (.key (word ++ [c])) s
  | .quoted word, c :: s => if c = ']' then (lex .outside s).map (.key (String.ofList word) :: ·) else none
  | .index n, c :: s =>
    if c = ']' then (lex .outside s).map (.index n :: ·)
    else if c.isDigit then lex (.index (10 * n + (c.toNat - '0'.toNat))) s else none
  | _, [] => none

def subscripts (pathaccess : Str) : Option (List Subscript) := lex .outside pathaccess

section Methods

variable (realToString : ℝ → String)

/-- The methods that are called on what is read. -/
noncomputable def methods : List (Str × (Json → Option Json)) :=
  [("asBool()".toList, fun value => (asBool value).map .bool),
   ("asInt()".toList, fun value => (asInt value).map .int),
   ("asFloat()".toList, fun value => (asFloat value).map .real),
   ("asString()".toList, fun value => (asString realToString value).map .string)]

/-- What a getter of the source does: it reads what is there, by a method. -/
noncomputable def SrcGen.Item.reader : SrcGen.Item → Option (Reader Json)
  | .valueGetter _ _ _ pathaccess access => do
    let path ← subscripts pathaccess
    let method ← (methods realToString).lookup access
    return ⟨path, method⟩
  | _ => none

/-- How a value of the type is read. -/
noncomputable def PrimitiveType.convert : PrimitiveType → Json → Option Json
  | .bool => fun value => (asBool value).map .bool
  | .int => fun value => (asInt value).map .int
  | .float => fun value => (asFloat value).map .real
  | .string => fun value => (asString realToString value).map .string

end Methods

section Description

variable {u : Unicode}

/-- Down by the word, and by the index. -/
def Segment.subscripts (segment : Segment u) : List Subscript :=
  .key (String.ofList segment.word) :: (segment.index.map Subscript.index).toList

/-- Where a value is in a document. -/
def Value.path (value : Value u) : List Subscript := value.segments.flatMap Segment.subscripts

noncomputable def Value.reader (realToString : ℝ → String) (value : Value u) : Reader Json :=
  ⟨value.path, value.type.convert realToString⟩

/-! ## The text of an access -/

theorem lex_index {digits : Str} (hdigits : ∀ c ∈ digits, c.isDigit = true) (n : ℕ) (s : Str) :
    lex (.index n) (digits ++ ']' :: s) = (lex .outside s).map (.index (Nat.ofDigitChars 10 digits n) :: ·) := by
  induction digits generalizing n with
  | nil =>
    rw [List.nil_append, lex, if_pos rfl]
    rfl
  | cons c digits ih =>
    have hc := hdigits c List.mem_cons_self
    have hne : c ≠ ']' := by
      rintro rfl
      cases hc
    rw [List.cons_append, lex, if_neg hne, if_pos hc, ih fun d hd => hdigits d (List.mem_cons_of_mem c hd)]
    rfl

theorem lex_key {word : Str} (hword : ∀ c ∈ word, isWord u c = true) (before s : Str) :
    lex (.key before) (word ++ '"' :: ']' :: s) =
      (lex .outside s).map (.key (String.ofList (before ++ word)) :: ·) := by
  induction word generalizing before with
  | nil =>
    rw [List.nil_append, List.append_nil, lex, if_pos rfl, lex, if_pos rfl]
  | cons c word ih =>
    have hc := hword c List.mem_cons_self
    have hquote : c ≠ '"' := isWord_ne hc (by decide) (by decide)
    have hescape : c ≠ '\\' := isWord_ne hc (by decide) (by decide)
    rw [List.cons_append, lex, if_neg hquote, if_neg hescape, ih fun d hd => hword d (List.mem_cons_of_mem c hd),
      List.append_assoc, List.singleton_append]

/-- The index of an array, if there is one. -/
theorem lex_indexText (index : Option ℕ) (s : Str) :
    lex .outside (Segment.indexText index ++ s) =
      (lex .outside s).map ((index.map Subscript.index).toList ++ ·) := by
  cases index with
  | none =>
    show lex .outside s = (lex .outside s).map id
    rw [Option.map_id_fun, id]
  | some k =>
    have hdigits : ∀ c ∈ Nat.toDigits 10 k, c.isDigit = true := fun c hc =>
      Nat.isDigit_of_mem_toDigits (by decide) (by decide) hc
    have hvalue : Nat.ofDigitChars 10 (Nat.toDigits 10 k) 0 = k := Nat.ofDigitChars_ten_toDigits
    unfold Segment.indexText
    rw [List.cons_append, List.append_assoc, List.singleton_append, lex, if_pos rfl]
    cases hk : Nat.toDigits 10 k with
    | nil => exact absurd hk Nat.toDigits_ne_nil
    | cons c digits =>
      rw [hk] at hdigits hvalue
      have hc := hdigits c List.mem_cons_self
      have hquote : c ≠ '"' := by
        rintro rfl
        cases hc
      rw [List.cons_append, lex, if_neg hquote, if_pos hc,
        lex_index fun d hd => hdigits d (List.mem_cons_of_mem c hd)]
      rw [Nat.ofDigitChars_cons, Nat.mul_zero, Nat.zero_add] at hvalue
      rw [hvalue]
      rfl

theorem lex_access (segment : Segment u) (s : Str) :
    lex .outside (segment.access ++ s) = (lex .outside s).map (segment.subscripts ++ ·) := by
  have haccess : segment.access ++ s =
      '[' :: '"' :: (segment.word ++ '"' :: ']' :: (Segment.indexText segment.index ++ s)) := by
    unfold Segment.access
    simp
  rw [haccess, lex, if_pos rfl, lex, if_pos rfl, lex_key segment.isWord, lex_indexText, Option.map_map]
  rfl

/-- **What the access of a path indexes.** -/
theorem subscripts_access (segments : List (Segment u)) :
    subscripts (segments.flatMap Segment.access) = some (segments.flatMap Segment.subscripts) := by
  unfold subscripts
  induction segments with
  | nil => rfl
  | cons segment segments ih =>
    rw [List.flatMap_cons, List.flatMap_cons, lex_access, ih]
    rfl

/-! ## Accessors -/

section Readers

variable (realToString : ℝ → String)

theorem lookup_methods (type : PrimitiveType) :
    (methods realToString).lookup type.access = some (type.convert realToString) := by
  cases type <;> rfl

theorem accessor_reader (classname : Str) (value : Value u) :
    (value.accessor classname).reader realToString = some (value.reader realToString) := by
  show (subscripts (value.segments.flatMap Segment.access)).bind _ = _
  rw [subscripts_access, Option.bind_some, lookup_methods]
  rfl

/-- Null is false, zero or the empty string. -/
theorem PrimitiveType.scalar (type : PrimitiveType) : Scalar (type.convert realToString) := by
  cases type with
  | bool => exact ⟨⟨_, rfl⟩, fun _ => rfl, fun _ => rfl⟩
  | int => exact ⟨⟨_, rfl⟩, fun _ => rfl, fun _ => rfl⟩
  | float => exact ⟨⟨_, rfl⟩, fun _ => rfl, fun _ => rfl⟩
  | string => exact ⟨⟨_, rfl⟩, fun _ => rfl, fun _ => rfl⟩

theorem accessors_readers (classname : Str) (values : List (Value u)) :
    (values.map (Value.accessor classname)).mapM (SrcGen.Item.reader realToString) =
      some (values.map (Value.reader realToString)) := by
  rw [List.mapM_map]
  exact mapM_eq_some fun value _ => accessor_reader realToString classname value

end Readers

end Description

/-- **What the accessors return.**  The accessors of a description read its values at their paths; and their calls,
in every order and on every document, return what each returns alone, iff reading one path leaves what another
reads. -/
theorem accessors_read_iff (u : Unicode) (realToString : ℝ → String) (classname : Str) (ds : List (Desc u))
    (lines : List Str) (h : Written ds lines) :
    ∃ items readers, ((parse u lines).bind (SrcGen.acceptAll u [classname])) = some items ∧
      (accessors items).mapM (SrcGen.Item.reader realToString) = some readers ∧
      readers = (valuesAll [] [] ds).map (Value.reader realToString) ∧
      ((∀ calls, (∀ r ∈ calls, r ∈ readers) → ∀ doc, reads calls doc = calls.map (·.value doc)) ↔
        ∀ v ∈ valuesAll [] [] ds, ∀ w ∈ valuesAll [] [] ds, Stable v.path w.path) := by
  obtain ⟨items, hitems, haccessors⟩ := acceptAll_values classname [] [] ds
  refine ⟨items, _, ?_, ?_, rfl, ?_⟩
  · rw [h.parse]
    exact hitems
  · rw [haccessors]
    exact accessors_readers realToString classname _
  · rw [reads_iff fun r hr => ?_]
    · constructor
      · intro hstable v hv w hw
        exact hstable _ (List.mem_map_of_mem hv) _ (List.mem_map_of_mem hw)
      · intro hstable r hr r' hr'
        obtain ⟨v, hv, rfl⟩ := List.mem_map.mp hr
        obtain ⟨w, hw, rfl⟩ := List.mem_map.mp hr'
        exact hstable v hv w hw
    · obtain ⟨v, -, rfl⟩ := List.mem_map.mp hr
      exact v.type.scalar realToString

def height : Segment .ascii := ⟨"height".toList, none, by simp, List.all_eq_true.mp (by decide)⟩

/-- Two values of a frame, whose calls leave each other alone. -/
def frameDescription : List (Desc .ascii) := [.cls [frameArray] frame [.primitive .int width, .primitive .int height]]

theorem frame_stable :
    ∀ v ∈ valuesAll [] [] frameDescription, ∀ w ∈ valuesAll [] [] frameDescription, Stable v.path w.path := by
  decide

theorem accessors_read_iff_frame :
    ∃ items readers, ((parse .ascii (linesAll frameDescription)).bind (SrcGen.acceptAll .ascii ["Metadata".toList])) =
        some items ∧
      (accessors items).mapM (SrcGen.Item.reader fun _ => "") = some readers ∧
      (∀ calls, (∀ r ∈ calls, r ∈ readers) → ∀ doc, reads calls doc = calls.map (·.value doc)) := by
  obtain ⟨items, readers, hitems, hreaders, -, hiff⟩ :=
    accessors_read_iff .ascii (fun _ => "") "Metadata".toList frameDescription _ (written_linesAll frameDescription)
  exact ⟨items, readers, hitems, hreaders, hiff.mpr frame_stable⟩

end Lyli.Pycppjson
