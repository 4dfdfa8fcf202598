import Mathlib
import Lyli.Base.PyString
import Lyli.Pycppjson.JsonParser
import Lyli.Pycppjson.JsonGen

/-!
# From a description to the accessors

What a description says, without lines and paths: classes with the segments of
their addresses, and primitives with one segment.  `Written ds lines` spells it
out, with comments between the lines.  A path is kept as a string by the parser
and taken apart by the generator; in between it is the segments from the root:

    at the path of `segments`, the lines of `ds` add the nodes of `ds`      (Written.foldlM)
    pathAccess (pathText segments) = the access of each, in order       (pathAccess_pathText)
    every ds can be written                                     (written_linesAll)
    Written ds lines → the tree of `ds` is read, and each value's accessor
      indexes the root by the segments around it and its own              (written_accessors)
-/

namespace Lyli.Pycppjson

open PyString

/-! ## Descriptions -/

/-- A word, with an index if it is an array. -/
structure Segment (u : Unicode) where
  word : Str
  index : Option ℕ
  ne_nil : word ≠ []
  isWord : ∀ c ∈ word, isWord u c = true

namespace Segment

variable {u : Unicode}

def indexText : Option ℕ → Str
  | none => []
  | some k => '[' :: (Nat.toDigits 10 k ++ [']'])

def text (segment : Segment u) : Str := segment.word ++ indexText segment.index

/-- Indexing by the word, and by the index. -/
def access (segment : Segment u) : Str := "[\"".toList ++ segment.word ++ "\"]".toList ++ indexText segment.index

end Segment

inductive PrimitiveType
  | bool
  | int
  | float
  | string

def PrimitiveType.text : PrimitiveType → Str
  | .bool => "bool".toList
  | .int => "int".toList
  | .float => "float".toList
  | .string => "string".toList

/-- The C++ type. -/
def PrimitiveType.cppType : PrimitiveType → Str
  | .bool => "bool".toList
  | .int => "int".toList
  | .float => "float".toList
  | .string => "std::string".toList

/-- The method that reads it. -/
def PrimitiveType.access : PrimitiveType → Str
  | .bool => "asBool()".toList
  | .int => "asInt()".toList
  | .float => "asFloat()".toList
  | .string => "asString()".toList

/-- A class has the segments of its address, of which the last is its name. -/
inductive Desc (u : Unicode)
  | cls (outer : List (Segment u)) (last : Segment u) (members : List (Desc u))
  | primitive (type : PrimitiveType) (name : Segment u)

section Description

variable {u : Unicode}

def addressText (outer : List (Segment u)) (last : Segment u) : Str :=
  ['/'].intercalate ((outer ++ [last]).map Segment.text)

/-- The lines spell out the descriptions, one item a line. -/
inductive Written : List (Desc u) → List Str → Prop
  | nil : Written [] []
  | comment {ds : List (Desc u)} {line : Str} {lines : List Str} (hline : Comment line) (h : Written ds lines) :
    Written ds (line :: lines)
  | primitive {type : PrimitiveType} {name : Segment u} {ds : List (Desc u)} {line : Str} {lines : List Str}
    (hline : Spaced [type.text, name.text] line) (h : Written ds lines) :
    Written (.primitive type name :: ds) (line :: lines)
  | cls {outer : List (Segment u)} {last : Segment u} {members ds : List (Desc u)} {line close : Str}
    {body lines : List Str} (hline : Spaced ["class".toList, addressText outer last, ['{']] line)
    (hbody : Written members body) (hclose : Spaced [['}']] close) (h : Written ds lines) :
    Written (.cls outer last members :: ds) (line :: (body ++ close :: lines))

/-! ## What is expected -/

/-- A path from the root. -/
def pathText (segments : List (Segment u)) : Str := '/' :: segments.flatMap fun segment => '/' :: segment.text

mutual

/-- The tree, in classes with these segments. -/
def Desc.node (segments : List (Segment u)) : Desc u → Node
  | .cls outer last members => .cls last.word (nodes (segments ++ (outer ++ [last])) members)
  | .primitive type name => .primitive type.text name.word (pathText (segments ++ [name]))

def nodes (segments : List (Segment u)) : List (Desc u) → List Node
  | [] => []
  | d :: ds => d.node segments :: nodes segments ds

end

/-- A primitive in its place. -/
structure Value (u : Unicode) where
  /-- the names of the classes around it, outermost first -/
  classes : List Str
  /-- the segments of their addresses, and its own -/
  segments : List (Segment u)
  type : PrimitiveType
  name : Str

mutual

/-- The primitives of a description, in order. -/
def Desc.values (classes : List Str) (segments : List (Segment u)) : Desc u → List (Value u)
  | .cls outer last members => valuesAll (classes ++ [last.word]) (segments ++ (outer ++ [last])) members
  | .primitive type name => [⟨classes, segments ++ [name], type, name.word⟩]

def valuesAll (classes : List Str) (segments : List (Segment u)) : List (Desc u) → List (Value u)
  | [] => []
  | d :: ds => d.values classes segments ++ valuesAll classes segments ds

end

/-- The accessor of a value: the root indexed by the segments. -/
def Value.accessor (classname : Str) (value : Value u) : SrcGen.Item :=
  .valueGetter (classname :: value.classes.map u.title) value.type.cppType (u.title value.name)
    (value.segments.flatMap Segment.access) value.type.access

/-- The accessors of values among the items of a source. -/
def accessors (items : List SrcGen.Item) : List SrcGen.Item :=
  items.filter fun
    | .valueGetter _ _ _ _ _ => true
    | _ => false

/-! ## Segments -/

namespace Segment

variable (segment : Segment u)

/-- The characters of a segment are those of words, and brackets. -/
theorem mem_text {c : Char} (h : c ∈ segment.text) : PyString.isWord u c = true ∨ c = '[' ∨ c = ']' := by
  rcases List.mem_append.mp h with h | h
  · exact Or.inl (segment.isWord c h)
  · cases hindex : segment.index with
    | none =>
      rw [hindex] at h
      cases h
    | some k =>
      rw [hindex] at h
      rcases List.mem_cons.mp h with rfl | h
      · exact Or.inr (Or.inl rfl)
      · rcases List.mem_append.mp h with h | h
        · exact Or.inl (isWord_digit (Nat.isDigit_of_mem_toDigits (by decide) (by decide) h))
        · exact Or.inr (Or.inr (List.mem_singleton.mp h))

theorem slash_not_mem : '/' ∉ segment.text := by
  intro hmem
  rcases segment.mem_text hmem with hword | hbracket | hbracket
  · exact isWord_ne hword (by decide) (by decide) rfl
  · cases hbracket
  · cases hbracket

theorem text_ne_nil : segment.text ≠ [] := by
  intro h
  exact segment.ne_nil (List.append_eq_nil_iff.mp h).1

theorem isToken : IsToken segment.text := by
  refine ⟨segment.text_ne_nil, fun c hc => ?_⟩
  rcases segment.mem_text hc with hword | rfl | rfl
  · exact isWord_not_space hword
  · rfl
  · rfl

/-- `getName` of the last part of an address. -/
theorem wordPrefix_text : wordPrefix u segment.text = some segment.word := by
  refine wordPrefix_append segment.ne_nil segment.isWord ?_
  cases segment.index with
  | none => simp [indexText]
  | some k =>
    intro c hc
    obtain rfl := Option.some.inj hc
    rw [isWord_ascii (by decide)]
    decide

/-- **What an element adds to an access** is the word, and its index as another. -/
theorem elemAccess_text : SrcGen.elemAccess segment.text = segment.access := by
  have hword : ∀ c ∈ segment.word, c ≠ '[' ∧ c ≠ '\n' := by
    intro c hc
    have hc := segment.isWord c hc
    exact ⟨isWord_ne hc (by decide) (by decide), isWord_ne hc (by decide) (by decide)⟩
  unfold SrcGen.elemAccess text access
  cases segment.index with
  | none =>
    have hbracket : '[' ∉ segment.word := fun hmem => (hword _ hmem).1 rfl
    simp only [indexText, List.append_nil, matchIndexed_none hbracket]
  | some k =>
    have hdigits : ∀ c ∈ Nat.toDigits 10 k, c ≠ '[' ∧ c ≠ ']' ∧ c ≠ '\n' := by
      intro c hc
      have hdigit : PyString.isWord u c = true := isWord_digit (Nat.isDigit_of_mem_toDigits (by decide) (by decide) hc)
      exact ⟨isWord_ne hdigit (by decide) (by decide), isWord_ne hdigit (by decide) (by decide),
        isWord_ne hdigit (by decide) (by decide)⟩
    simp only [indexText, matchIndexed_indexed (fun c hc => (hword c hc).2) hdigits]
    simp

end Segment

/-! ## Paths -/

theorem addressText_split (outer : List (Segment u)) (last : Segment u) :
    (addressText outer last).splitOn '/' = (outer ++ [last]).map Segment.text := by
  refine List.splitOn_intercalate '/' ?_ (by simp)
  intro l hl
  obtain ⟨segment, -, rfl⟩ := List.mem_map.mp hl
  exact segment.slash_not_mem

theorem getName_addressText (outer : List (Segment u)) (last : Segment u) :
    getName u (addressText outer last) = some last.word := by
  unfold getName
  rw [addressText_split, List.map_append, List.map_singleton, List.getLast?_concat]
  exact last.wordPrefix_text

theorem getName_text (segment : Segment u) : getName u segment.text = some segment.word := by
  unfold getName
  rw [List.splitOn_eq_singleton segment.slash_not_mem]
  exact segment.wordPrefix_text

/-- An address with a slash in front of each segment. -/
theorem slash_addressText (outer : List (Segment u)) (last : Segment u) :
    '/' :: addressText outer last = (outer ++ [last]).flatMap fun segment => '/' :: segment.text := by
  unfold addressText
  induction outer with
  | nil => simp
  | cons segment outer ih =>
    rw [List.cons_append, List.map_cons, List.flatMap_cons, ← ih, List.intercalate_cons_of_ne_nil (by simp)]
    simp

/-- An address under a path. -/
theorem pathText_address (segments outer : List (Segment u)) (last : Segment u) :
    pathText segments ++ '/' :: addressText outer last = pathText (segments ++ (outer ++ [last])) := by
  unfold pathText
  rw [slash_addressText, List.cons_append, ← List.flatMap_append]

theorem pathText_text (segments : List (Segment u)) (name : Segment u) :
    pathText segments ++ '/' :: name.text = pathText (segments ++ [name]) := by
  unfold pathText
  simp

/-- **Taking a path apart** gives the segments it was made of. -/
theorem pathText_split (segments : List (Segment u)) :
    ((pathText segments).splitOn '/').filter (· ≠ []) = segments.map Segment.text := by
  have hparts : ∀ segments : List (Segment u), ((segments.flatMap fun segment => '/' :: segment.text).splitOn '/').filter
      (· ≠ []) = segments.map Segment.text := by
    intro segments
    induction segments using List.reverseRecOn with
    | nil => rfl
    | append_singleton segments segment ih =>
      rw [List.flatMap_append, List.flatMap_singleton, List.splitOn_append_cons_self, List.filter_append, ih,
        List.splitOn_eq_singleton segment.slash_not_mem, List.filter_cons_of_pos (by simpa using segment.text_ne_nil),
        List.map_append]
      rfl
  have hroot := List.splitOn_append_cons_self [] (segments.flatMap fun segment => '/' :: segment.text) (a := '/')
  unfold pathText
  rw [List.nil_append] at hroot
  rw [hroot, List.filter_append, hparts]
  rfl

/-- **The access of a path.** -/
theorem pathAccess_pathText (segments : List (Segment u)) :
    SrcGen.pathAccess (pathText segments) = segments.flatMap Segment.access := by
  unfold SrcGen.pathAccess
  rw [pathText_split, List.flatMap_map]
  simp only [Segment.elemAccess_text]

/-! ## Every description can be written -/

theorem isToken_class : IsToken "class".toList := isToken_of_all (by decide) (by decide)

theorem isToken_open : IsToken ['{'] := isToken_of_all (by decide) (by decide)

theorem isToken_close : IsToken ['}'] := isToken_of_all (by decide) (by decide)

theorem PrimitiveType.isToken (type : PrimitiveType) : IsToken type.text := by
  cases type <;> exact isToken_of_all (by decide) (by decide)

theorem isToken_addressText (outer : List (Segment u)) (last : Segment u) : IsToken (addressText outer last) := by
  have hmem : ∀ c ∈ '/' :: addressText outer last, PyString.isSpace c = false := by
    intro c hc
    rw [slash_addressText] at hc
    obtain ⟨segment, -, hc⟩ := List.mem_flatMap.mp hc
    rcases List.mem_cons.mp hc with rfl | hc
    · rfl
    · exact segment.isToken.solid c hc
  refine ⟨fun hnil => ?_, fun c hc => hmem c (List.mem_cons_of_mem _ hc)⟩
  have hsplit := addressText_split outer last
  rw [hnil, List.map_append, List.map_singleton] at hsplit
  have hlast := congrArg List.getLast? hsplit
  rw [List.getLast?_concat] at hlast
  exact last.text_ne_nil (Option.some.inj hlast).symm

mutual

/-- A description without comments, with single spaces. -/
def Desc.lines : Desc u → List Str
  | .cls outer last members =>
    ("class".toList ++ ' ' :: (addressText outer last ++ " \x7b".toList)) :: (linesAll members ++ [['}']])
  | .primitive type name => [type.text ++ ' ' :: name.text]

def linesAll : List (Desc u) → List Str
  | [] => []
  | d :: ds => d.lines ++ linesAll ds

end

theorem spaced_primitive (type : PrimitiveType) (name : Segment u) :
    Spaced [type.text, name.text] (type.text ++ ' ' :: name.text) := type.isToken.spaced_cons name.isToken.spaced

theorem spaced_class (outer : List (Segment u)) (last : Segment u) :
    Spaced ["class".toList, addressText outer last, ['{']]
      ("class".toList ++ ' ' :: (addressText outer last ++ " \x7b".toList)) :=
  isToken_class.spaced_cons ((isToken_addressText outer last).spaced_cons isToken_open.spaced)

theorem spaced_close : Spaced [['}']] ['}'] := isToken_close.spaced

mutual

theorem Desc.written_lines (d : Desc u) {ds : List (Desc u)} {lines : List Str} (h : Written ds lines) :
    Written (d :: ds) (d.lines ++ lines) := by
  cases d with
  | cls outer last members =>
    rw [Desc.lines, List.cons_append, List.append_assoc]
    exact .cls (spaced_class outer last) (written_linesAll members) spaced_close h
  | primitive type name => exact .primitive (spaced_primitive type name) h

/-- **Every description** is spelled out by lines. -/
theorem written_linesAll (ds : List (Desc u)) : Written ds (linesAll ds) := by
  cases ds with
  | nil => exact .nil
  | cons d ds => exact d.written_lines (written_linesAll ds)

end

/-! ## Reading -/

/-- A line by its tokens, if it is no comment. -/
theorem readItem_tokens {type line : Str} {tokens : List Str} (h : Spaced (type :: tokens) line)
    (hcomment : type.head? ≠ some '#') (address : Str) :
    readItem u line address =
      if type = "class".toList then do
        let token ← tokens.head?
        let name ← getName u token
        return .opens name (address ++ '/' :: token)
      else if type.getLast? = some ']' then do
        let node ← parseArray u type tokens address
        return .leaf node
      else do
        let node ← parsePrimitive u type tokens address
        return .leaf node := by
  have hhead : (strip line).head? = type.head? := by rw [head?_strip, h.head]
  have htokens : splitWhitespace (strip line) = type :: tokens := by rw [splitWhitespace_strip, h.split]
  unfold readItem
  cases hstrip : strip line with
  | nil =>
    rw [hstrip] at htokens
    cases htokens
  | cons c cs =>
    have hc : c ≠ '#' := by
      rintro rfl
      rw [hstrip] at hhead
      exact hcomment hhead.symm
    rw [hstrip] at htokens
    simp only [if_neg hc, htokens]

/-- The first character of a type, which is no mark. -/
theorem PrimitiveType.head_text (type : PrimitiveType) :
    ∃ c, type.text.head? = some c ∧ c ≠ '#' ∧ c ≠ '}' := by
  cases type <;> exact ⟨_, rfl, by decide, by decide⟩

theorem step_primitive {type : PrimitiveType} {name : Segment u} {line : Str} {s : State} {segments : List (Segment u)}
    (hline : Spaced [type.text, name.text] line) (hs : s.frame.address = pathText segments) :
    step u s line = some (s.addAll [.primitive type.text name.word (pathText (segments ++ [name]))]) := by
  obtain ⟨c, hc, hcomment, hbrace⟩ := type.head_text
  have hclass : type.text ≠ "class".toList := by cases type <;> decide
  have harray : type.text.getLast? ≠ some ']' := by cases type <;> decide
  rw [step_item (hline.head.trans hc) hbrace, readItem_tokens hline (by simpa [hc] using hcomment), if_neg hclass,
    if_neg harray, hs]
  unfold parsePrimitive
  simp [getName_text, pathText_text, State.apply]

theorem step_class {outer : List (Segment u)} {last : Segment u} {line : Str} {s : State} {segments : List (Segment u)}
    (hline : Spaced ["class".toList, addressText outer last, ['{']] line) (hs : s.frame.address = pathText segments) :
    step u s line = some (s.push last.word (pathText (segments ++ (outer ++ [last])))) := by
  rw [step_item (hline.head.trans rfl) (by decide), readItem_tokens hline (by decide), if_pos rfl, hs]
  simp [getName_addressText, pathText_address, State.apply]

/-- **The lines of descriptions** add their nodes, in any class. -/
theorem Written.foldlM {ds : List (Desc u)} {lines : List Str} (h : Written ds lines) (segments : List (Segment u))
    (s : State) (hs : s.frame.address = pathText segments) :
    lines.foldlM (step u) s = some (s.addAll (nodes segments ds)) := by
  induction h generalizing segments s with
  | nil =>
    rw [nodes, addAll_nil]
    rfl
  | comment hline _ ih =>
    rw [List.foldlM_cons, comment_keeps hline]
    exact ih segments s hs
  | primitive hline _ ih =>
    rw [List.foldlM_cons, step_primitive hline hs]
    show List.foldlM (step u) (s.addAll _) _ = _
    rw [ih segments (s.addAll _) hs, ← addAll_append]
    rfl
  | @cls outer last members ds line close body lines hline _ hclose _ ihbody ih =>
    -- the class is opened, filled, and closed into one node
    have hopened := ihbody (segments ++ (outer ++ [last]))
      (s.push last.word (pathText (segments ++ (outer ++ [last])))) rfl
    have hclosed := step_close (u := u) (s := (s.push last.word (pathText (segments ++ (outer ++ [last])))).addAll
      (nodes (segments ++ (outer ++ [last])) members)) (List.cons_ne_nil _ _) (hclose.head.trans rfl)
    rw [close_push] at hclosed
    rw [List.foldlM_cons, step_class hline hs]
    show List.foldlM (step u) _ (body ++ close :: lines) = _
    rw [List.foldlM_append, hopened]
    show List.foldlM (step u) _ (close :: lines) = _
    rw [List.foldlM_cons, hclosed]
    show List.foldlM (step u) (s.addAll _) lines = _
    rw [ih segments (s.addAll _) hs, ← addAll_append]
    rfl

/-- The parser reads the tree. -/
theorem Written.parse {ds : List (Desc u)} {lines : List Str} (h : Written ds lines) :
    parse u lines = some (nodes [] ds) := by
  rw [parse_eq_run, run, h.foldlM [] .init rfl]
  rfl

/-! ## Writing -/

theorem PrimitiveType.lookup (type : PrimitiveType) :
    typeMap.lookup type.text = some type.cppType ∧ accessMap.lookup type.text = some type.access := by
  cases type <;> exact ⟨rfl, rfl⟩

theorem accessors_append (items items' : List SrcGen.Item) :
    accessors (items ++ items') = accessors items ++ accessors items' :=
  List.filter_append ..

mutual

/-- **The accessors of a description.** -/
theorem accept_values (classname : Str) (classes : List Str) (segments : List (Segment u)) (d : Desc u) :
    ∃ items, SrcGen.accept u (classname :: classes.map u.title) (d.node segments) = some items ∧
      accessors items = (d.values classes segments).map (Value.accessor classname) := by
  cases d with
  | cls outer last members =>
    obtain ⟨items, hitems, haccessors⟩ :=
      acceptAll_values classname (classes ++ [last.word]) (segments ++ (outer ++ [last])) members
    have hpath : classname :: (classes ++ [last.word]).map u.title =
        classname :: classes.map u.title ++ [u.title last.word] := by
      rw [List.map_append]
      rfl
    rw [hpath] at hitems
    refine ⟨_, by rw [Desc.node, SrcGen.accept, hitems]; rfl, ?_⟩
    rw [accessors_append, accessors_append, haccessors]
    exact List.append_nil _
  | primitive type name =>
    refine ⟨_, by rw [Desc.node, SrcGen.accept, type.lookup.1, type.lookup.2, pathAccess_pathText]; rfl, rfl⟩

theorem acceptAll_values (classname : Str) (classes : List Str) (segments : List (Segment u)) (ds : List (Desc u)) :
    ∃ items, SrcGen.acceptAll u (classname :: classes.map u.title) (nodes segments ds) = some items ∧
      accessors items = (valuesAll classes segments ds).map (Value.accessor classname) := by
  cases ds with
  | nil => exact ⟨[], rfl, rfl⟩
  | cons d ds =>
    obtain ⟨items₁, hitems₁, haccessors₁⟩ := accept_values classname classes segments d
    obtain ⟨items₂, hitems₂, haccessors₂⟩ := acceptAll_values classname classes segments ds
    refine ⟨items₁ ++ items₂, by rw [nodes, SrcGen.acceptAll, hitems₁, hitems₂]; rfl, ?_⟩
    rw [accessors_append, haccessors₁, haccessors₂, valuesAll, List.map_append]

end

end Description

/-- **From a description to the accessors.**  The parser reads the tree that is written, and the accessor of each
primitive indexes the root by the segments of the addresses around it, outermost first, and by its own. -/
theorem written_accessors (u : Unicode) (classname : Str) (ds : List (Desc u)) (lines : List Str) (h : Written ds lines) :
    parse u lines = some (nodes [] ds) ∧ ∃ items, SrcGen.acceptAll u [classname] (nodes [] ds) = some items ∧
      accessors items = (valuesAll [] [] ds).map (Value.accessor classname) :=
  ⟨h.parse, acceptAll_values classname [] [] ds⟩

def frameArray : Segment .ascii := ⟨"frameArray".toList, some 0, by simp, List.all_eq_true.mp (by decide)⟩

def frame : Segment .ascii := ⟨"frame".toList, none, by simp, List.all_eq_true.mp (by decide)⟩

def width : Segment .ascii := ⟨"width".toList, none, by simp, List.all_eq_true.mp (by decide)⟩

/-- A class with an index in its address, and a comment before its member. -/
theorem frame_written :
    Written [.cls [frameArray] frame [.primitive .int width]]
      ["class frameArray[0]/frame \x7b".toList, "# in pixels".toList, "int width".toList, "\x7d".toList] := by
  have hcomment : Comment "# in pixels".toList := rfl
  exact .cls (spaced_class [frameArray] frame) (.comment hcomment (.primitive (spaced_primitive .int width) .nil))
    spaced_close .nil

theorem written_accessors_frame :
    parse .ascii ["class frameArray[0]/frame \x7b".toList, "# in pixels".toList, "int width".toList, "\x7d".toList] =
        some [.cls "frame".toList [.primitive "int".toList "width".toList "//frameArray[0]/frame/width".toList]] ∧
      ∃ items, SrcGen.acceptAll .ascii ["Metadata".toList] (nodes [] [.cls [frameArray] frame [.primitive .int width]]) =
        some items ∧ accessors items = [.valueGetter ["Metadata".toList, "Frame".toList] "int".toList "Width".toList
          "[\"frameArray\"][0][\"frame\"][\"width\"]".toList "asInt()".toList] := by
  exact written_accessors .ascii "Metadata".toList _ _ frame_written

end Lyli.Pycppjson
