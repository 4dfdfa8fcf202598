import Mathlib
import Lyli.Pycppjson.JsonParser

/-!
# The generated accessors (`tools/pycppjson/jsongen.py`)

Two visitors walk the tree: one writes the class declarations of the header,
nested by their braces, the other the definitions, qualified by a path that is
pushed and popped on the way.  Output is kept item by item; `text` is what is
written for an item.  `none` is a `KeyError`.

    what is declared is what is defined, and a pointer for each array     (declared_splits)
    the functions declared are those defined  ↔  the tree has no array      (declared_eq_defined_iff)
-/

namespace Lyli.Pycppjson

open PyString

/-- `TYPE_MAP`. -/
def typeMap : List (Str × Str) :=
  [("bool".toList, "bool".toList), ("int".toList, "int".toList), ("float".toList, "float".toList),
   ("string".toList, "std::string".toList)]

/-- `ACCESS_MAP`. -/
def accessMap : List (Str × Str) :=
  [("bool".toList, "asBool()".toList), ("int".toList, "asInt()".toList), ("float".toList, "asFloat()".toList),
   ("string".toList, "asString()".toList)]

/-! ## The header -/

namespace HdrGen

inductive Item
  | blank
  | openClass (title : Str)
  | publicLabel
  | defaultConstructor (title : Str)
  | copyConstructor (title : Str)
  | rootConstructor (title : Str)
  | privateLabel
  | rootMember
  | closeClass
  | classGetter (title : Str)
  | valueGetter (type title : Str)
  | arrayGetter (type title : Str)

def Item.text : Item → Str
  | .blank => []
  | .openClass title => "class ".toList ++ title ++ " \x7b".toList
  | .publicLabel => "public:".toList
  | .defaultConstructor title => "\t".toList ++ title ++ "() = default;".toList
  | .copyConstructor title => "\t".toList ++ title ++ "(const ".toList ++ title ++ "& other) = default;".toList
  | .rootConstructor title => "\t".toList ++ title ++ "(const ValuePtr &root);".toList
  | .privateLabel => "private:".toList
  | .rootMember => "\tValuePtr m_root;".toList
  | .closeClass => "\x7d;".toList
  | .classGetter title => title ++ " get".toList ++ title ++ "() const;".toList
  | .valueGetter type title => type ++ " get".toList ++ title ++ "() const;".toList
  | .arrayGetter type title => type ++ "* get".toList ++ title ++ "() const;".toList

/-- `gen`: a line at an indentation level. -/
def gen (line : ℕ × Item) : Str :=
  match line.2.text with
  | [] => ['\n']
  | text => List.replicate line.1 '\t' ++ text ++ ['\n']

mutual

def accept (u : Unicode) (level : ℕ) : Node → Option (List (ℕ × Item))
  | .cls name members => do
    let title := u.title name
    let body ← acceptAll u (level + 1) members
    return [(level, .blank), (level, .openClass title), (level, .publicLabel), (level, .defaultConstructor title),
      (level, .copyConstructor title), (level, .rootConstructor title), (level, .blank)] ++ body ++
      [(level, .privateLabel), (level, .rootMember), (level, .closeClass), (level, .classGetter title)]
  | .primitive type name _ => do
    let type ← typeMap.lookup type
    return [(level, .valueGetter type (u.title name))]
  | .array type _ name _ => do
    let type ← typeMap.lookup type
    return [(level, .arrayGetter type (u.title name))]

def acceptAll (u : Unicode) (level : ℕ) : List Node → Option (List (ℕ × Item))
  | [] => some []
  | node :: nodes => do
    let lines ← accept u level node
    let rest ← acceptAll u level nodes
    return lines ++ rest

end

/-- The generated part of the header. -/
def code (u : Unicode) (root : List Node) : Option Str := (acceptAll u 1 root).map fun lines => lines.flatMap gen

end HdrGen

/-! ## The source -/

namespace SrcGen

inductive Item
  | constructor (path : List Str) (title : Str)
  | classGetter (path : List Str) (title : Str)
  | valueGetter (path : List Str) (type title pathaccess access : Str)

def genPath (path : List Str) : Str := "::".toList.intercalate path

def Item.text : Item → Str
  | .constructor path title =>
    genPath path ++ "::".toList ++ title ++ "(const ValuePtr &root) : m_root(root) \x7b\n\n\x7d\n\n".toList
  | .classGetter path title =>
    genPath path ++ "::".toList ++ title ++ " ".toList ++ genPath path ++ "::get".toList ++ title ++
      "() const \x7b\n\treturn ".toList ++ title ++ "(m_root);\n\x7d\n\n".toList
  | .valueGetter path type title pathaccess access =>
    type ++ " ".toList ++ genPath path ++ "::get".toList ++ title ++
      "() const \x7b\n\treturn (*m_root)".toList ++ pathaccess ++ ".".toList ++ access ++ ";\n\x7d\n\n".toList

/-- What an element of a path adds to an access. -/
def elemAccess (elem : Str) : Str :=
  match matchIndexed elem with
  | some (g, k) => "[\"".toList ++ g ++ "\"]".toList ++ "[".toList ++ k ++ "]".toList
  | none => "[\"".toList ++ elem ++ "\"]".toList

def pathAccess (path : Str) : Str := ((path.splitOn '/').filter (· ≠ [])).flatMap elemAccess

mutual

def accept (u : Unicode) (path : List Str) : Node → Option (List Item)
  | .cls name members => do
    let title := u.title name
    let body ← acceptAll u (path ++ [title]) members
    return [.constructor (path ++ [title]) title] ++ body ++ [.classGetter path title]
  | .primitive type name fullpath => do
    let cppType ← typeMap.lookup type
    let access ← accessMap.lookup type
    return [.valueGetter path cppType (u.title name) (pathAccess fullpath) access]
  -- TODO in the source: nothing is written
  | .array _ _ _ _ => some []

def acceptAll (u : Unicode) (path : List Str) : List Node → Option (List Item)
  | [] => some []
  | node :: nodes => do
    let items ← accept u path node
    let rest ← acceptAll u path nodes
    return items ++ rest

end

/-- The generated part of the source. -/
def code (u : Unicode) (classname : Str) (root : List Node) : Option Str :=
  (acceptAll u [classname] root).map fun items => items.flatMap Item.text

end SrcGen

/-! ## Member functions -/

/-- What a getter returns: an object of a class, a value, or a pointer to values. -/
inductive Returns
  | object (path : List Str)
  | value (type : Str)
  | pointer (type : Str)

/-- A function by its class, what it returns and its name. -/
inductive Member
  | constructor (path : List Str) (title : Str)
  | getter (path : List Str) (returns : Returns) (title : Str)

/-- The functions that header lines declare without a definition.  A class is open from its brace to the
closing one; a type is that of the innermost class that declares it. -/
def declared : List Str → List (ℕ × HdrGen.Item) → List Member
  | _, [] => []
  | path, (_, .openClass title) :: lines => declared (path ++ [title]) lines
  | path, (_, .closeClass) :: lines => declared path.dropLast lines
  | path, (_, .rootConstructor title) :: lines => .constructor path title :: declared path lines
  | path, (_, .classGetter title) :: lines => .getter path (.object (path ++ [title])) title :: declared path lines
  | path, (_, .valueGetter type title) :: lines => .getter path (.value type) title :: declared path lines
  | path, (_, .arrayGetter type title) :: lines => .getter path (.pointer type) title :: declared path lines
  | path, _ :: lines => declared path lines

/-- The function that an item of the source defines. -/
def defined : SrcGen.Item → Member
  | .constructor path title => .constructor path title
  | .classGetter path title => .getter path (.object (path ++ [title])) title
  | .valueGetter path type title _ _ => .getter path (.value type) title

mutual

/-- The getters of arrays. -/
def pointers (u : Unicode) (path : List Str) : Node → List Member
  | .cls name members => pointersAll u (path ++ [u.title name]) members
  | .primitive _ _ _ => []
  | .array type _ name _ => (typeMap.lookup type).toList.map fun type => .getter path (.pointer type) (u.title name)

def pointersAll (u : Unicode) (path : List Str) : List Node → List Member
  | [] => []
  | node :: nodes => pointers u path node ++ pointersAll u path nodes

end

mutual

/-- There is no array in the tree. -/
def ArrayFree : Node → Prop
  | .cls _ members => ArraysFree members
  | .primitive _ _ _ => True
  | .array _ _ _ _ => False

def ArraysFree : List Node → Prop
  | [] => True
  | node :: nodes => ArrayFree node ∧ ArraysFree nodes

end

/-! ## Declarations and definitions -/

section Agreement

variable {u : Unicode} {path : List Str} {level : ℕ}

/-- Types that are known have an accessor. -/
theorem accessMap_lookup {type cppType : Str} (h : typeMap.lookup type = some cppType) :
    ∃ access, accessMap.lookup type = some access := by
  have hkeys : typeMap.map Prod.fst = accessMap.map Prod.fst := by decide
  have hmem : type ∈ typeMap.map Prod.fst := by
    by_contra hnot
    rw [List.lookup_eq_none_iff.mpr fun p hp => by
      simpa using fun heq : type = p.1 => hnot (heq ▸ List.mem_map_of_mem hp)] at h
    cases h
  rw [hkeys] at hmem
  cases hlookup : accessMap.lookup type with
  | some access => exact ⟨access, rfl⟩
  | none =>
    obtain ⟨p, hp, rfl⟩ := List.mem_map.mp hmem
    have := List.lookup_eq_none_iff.mp hlookup p hp
    simp at this

/-- In front of any lines, these declare the functions and leave the class they are in. -/
def Declares (path : List Str) (lines : List (ℕ × HdrGen.Item)) (functions : List Member) : Prop :=
  ∀ rest, declared path (lines ++ rest) = functions ++ declared path rest

theorem Declares.append {lines lines' : List (ℕ × HdrGen.Item)} {functions functions' : List Member}
    (h : Declares path lines functions) (h' : Declares path lines' functions') :
    Declares path (lines ++ lines') (functions ++ functions') := by
  intro rest
  rw [List.append_assoc, h, h', List.append_assoc]

/-- The lines of a class before its members. -/
def opening (level : ℕ) (title : Str) : List (ℕ × HdrGen.Item) :=
  [(level, .blank), (level, .openClass title), (level, .publicLabel), (level, .defaultConstructor title),
   (level, .copyConstructor title), (level, .rootConstructor title), (level, .blank)]

/-- Those after them. -/
def closing (level : ℕ) (title : Str) : List (ℕ × HdrGen.Item) :=
  [(level, .privateLabel), (level, .rootMember), (level, .closeClass), (level, .classGetter title)]

theorem declared_opening (path : List Str) (level : ℕ) (title : Str) (rest : List (ℕ × HdrGen.Item)) :
    declared path (opening level title ++ rest) =
      .constructor (path ++ [title]) title :: declared (path ++ [title]) rest := rfl

theorem declared_closing (path : List Str) (level : ℕ) (title : Str) (rest : List (ℕ × HdrGen.Item)) :
    declared (path ++ [title]) (closing level title ++ rest) =
      .getter path (.object (path ++ [title])) title :: declared path rest := by
  show declared (path ++ [title]).dropLast ((level, .classGetter title) :: rest) = _
  rw [List.dropLast_concat]
  rfl

/-- A class declares its constructor, what its members declare, and outside of it the getter. -/
theorem Declares.cls {title : Str} {body : List (ℕ × HdrGen.Item)} {functions : List Member}
    (h : Declares (path ++ [title]) body functions) :
    Declares path (opening level title ++ body ++ closing level title)
      (.constructor (path ++ [title]) title :: functions ++ [.getter path (.object (path ++ [title])) title]) := by
  intro rest
  rw [List.append_assoc, List.append_assoc, declared_opening, h, declared_closing]
  simp

/-- The functions are those that the items define and the pointers. -/
def Splits (functions : List Member) (items : List SrcGen.Item) (missing : List Member) : Prop :=
  ∀ f, f ∈ functions ↔ f ∈ items.map defined ∨ f ∈ missing

theorem Splits.append {functions functions' missing missing' : List Member} {items items' : List SrcGen.Item}
    (h : Splits functions items missing) (h' : Splits functions' items' missing') :
    Splits (functions ++ functions') (items ++ items') (missing ++ missing') := by
  intro f
  rw [List.map_append, List.mem_append, List.mem_append, List.mem_append, h f, h' f]
  tauto

/-- A class adds the same two functions on both sides. -/
theorem Splits.cls {functions missing : List Member} {items : List SrcGen.Item} (h : Splits functions items missing)
    (path : List Str) (title : Str) :
    Splits (.constructor (path ++ [title]) title :: functions ++ [.getter path (.object (path ++ [title])) title])
      ([.constructor (path ++ [title]) title] ++ items ++ [.classGetter path title]) missing := by
  intro f
  have hf := h f
  simp only [List.map_append, List.map_cons, List.map_nil, List.mem_append, List.mem_cons, List.not_mem_nil, or_false,
    List.cons_append, List.nil_append] at hf ⊢
  simp only [defined]
  tauto

mutual

/-- **The two visitors at a node.** -/
theorem accept_members (u : Unicode) (path : List Str) (level : ℕ) (node : Node) {lines : List (ℕ × HdrGen.Item)}
    (h : HdrGen.accept u level node = some lines) :
    ∃ items, SrcGen.accept u path node = some items ∧
      ∃ functions, Declares path lines functions ∧ Splits functions items (pointers u path node) := by
  cases node with
  | cls name members =>
    obtain ⟨body, hbody, h⟩ := Option.bind_eq_some_iff.mp h
    obtain rfl := Option.some.inj h
    obtain ⟨items, hitems, functions, hdecl, hsplit⟩ :=
      acceptAll_members u (path ++ [u.title name]) (level + 1) members hbody
    refine ⟨_, ?_, _, hdecl.cls, hsplit.cls path (u.title name)⟩
    rw [SrcGen.accept, hitems]
    rfl
  | primitive type name fullpath =>
    obtain ⟨cppType, htype, h⟩ := Option.bind_eq_some_iff.mp h
    obtain rfl := Option.some.inj h
    obtain ⟨access, haccess⟩ := accessMap_lookup htype
    refine ⟨[.valueGetter path cppType (u.title name) (SrcGen.pathAccess fullpath) access], ?_,
      [.getter path (.value cppType) (u.title name)], fun rest => rfl, fun f => ?_⟩
    · rw [SrcGen.accept, htype, haccess]
      rfl
    · simp [defined, pointers]
  | array type size name fullpath =>
    obtain ⟨cppType, htype, h⟩ := Option.bind_eq_some_iff.mp h
    obtain rfl := Option.some.inj h
    refine ⟨[], rfl, [.getter path (.pointer cppType) (u.title name)], fun rest => rfl, fun f => ?_⟩
    rw [pointers, htype]
    simp

theorem acceptAll_members (u : Unicode) (path : List Str) (level : ℕ) (nodes : List Node)
    {lines : List (ℕ × HdrGen.Item)} (h : HdrGen.acceptAll u level nodes = some lines) :
    ∃ items, SrcGen.acceptAll u path nodes = some items ∧
      ∃ functions, Declares path lines functions ∧ Splits functions items (pointersAll u path nodes) := by
  cases nodes with
  | nil =>
    obtain rfl := Option.some.inj h
    exact ⟨[], rfl, [], fun rest => rfl, fun f => by simp [pointersAll]⟩
  | cons node nodes =>
    obtain ⟨lines₁, h₁, h⟩ := Option.bind_eq_some_iff.mp h
    obtain ⟨lines₂, h₂, h⟩ := Option.bind_eq_some_iff.mp h
    obtain rfl := Option.some.inj h
    obtain ⟨items₁, hitems₁, functions₁, hdecl₁, hsplit₁⟩ := accept_members u path level node h₁
    obtain ⟨items₂, hitems₂, functions₂, hdecl₂, hsplit₂⟩ := acceptAll_members u path level nodes h₂
    refine ⟨items₁ ++ items₂, ?_, functions₁ ++ functions₂, hdecl₁.append hdecl₂, hsplit₁.append hsplit₂⟩
    rw [SrcGen.acceptAll, hitems₁, hitems₂]
    rfl

end

/-- What is declared is what is defined and the getters of the arrays. -/
theorem declared_splits {nodes : List Node} {lines : List (ℕ × HdrGen.Item)}
    (h : HdrGen.acceptAll u level nodes = some lines) :
    ∃ items, SrcGen.acceptAll u path nodes = some items ∧
      Splits (declared path lines) items (pointersAll u path nodes) := by
  obtain ⟨items, hitems, functions, hdecl, hsplit⟩ := acceptAll_members u path level nodes h
  have hfunctions := hdecl []
  rw [List.append_nil, declared, List.append_nil] at hfunctions
  rw [hfunctions]
  exact ⟨items, hitems, hsplit⟩

theorem defined_ne_pointer (item : SrcGen.Item) (path : List Str) (type title : Str) :
    defined item ≠ .getter path (.pointer type) title := by
  cases item <;> simp [defined]

mutual

theorem pointers_pointer (u : Unicode) (path : List Str) (node : Node) {f : Member} (h : f ∈ pointers u path node) :
    ∃ path type title, f = .getter path (.pointer type) title := by
  cases node with
  | cls name members => exact pointersAll_pointer u (path ++ [u.title name]) members h
  | primitive type name fullpath => cases h
  | array type size name fullpath =>
    obtain ⟨cppType, -, rfl⟩ := List.mem_map.mp h
    exact ⟨path, cppType, u.title name, rfl⟩

theorem pointersAll_pointer (u : Unicode) (path : List Str) (nodes : List Node) {f : Member}
    (h : f ∈ pointersAll u path nodes) : ∃ path type title, f = .getter path (.pointer type) title := by
  cases nodes with
  | nil => cases h
  | cons node nodes =>
    rcases List.mem_append.mp h with h | h
    · exact pointers_pointer u path node h
    · exact pointersAll_pointer u path nodes h

end

mutual

/-- Where the header is written, each array has its getter. -/
theorem pointers_eq_nil_iff (u : Unicode) (path : List Str) (level : ℕ) (node : Node) {lines : List (ℕ × HdrGen.Item)}
    (h : HdrGen.accept u level node = some lines) : pointers u path node = [] ↔ ArrayFree node := by
  cases node with
  | cls name members =>
    obtain ⟨body, hbody, -⟩ := Option.bind_eq_some_iff.mp h
    rw [pointers, ArrayFree]
    exact pointersAll_eq_nil_iff u (path ++ [u.title name]) (level + 1) members hbody
  | primitive type name fullpath => exact iff_of_true rfl trivial
  | array type size name fullpath =>
    obtain ⟨cppType, htype, -⟩ := Option.bind_eq_some_iff.mp h
    rw [pointers, ArrayFree, htype]
    simp

theorem pointersAll_eq_nil_iff (u : Unicode) (path : List Str) (level : ℕ) (nodes : List Node)
    {lines : List (ℕ × HdrGen.Item)} (h : HdrGen.acceptAll u level nodes = some lines) :
    pointersAll u path nodes = [] ↔ ArraysFree nodes := by
  cases nodes with
  | nil => exact iff_of_true rfl trivial
  | cons node nodes =>
    obtain ⟨lines₁, h₁, h⟩ := Option.bind_eq_some_iff.mp h
    obtain ⟨lines₂, h₂, -⟩ := Option.bind_eq_some_iff.mp h
    rw [pointersAll, ArraysFree, List.append_eq_nil_iff, pointers_eq_nil_iff u path level node h₁,
      pointersAll_eq_nil_iff u path level nodes h₂]

end

end Agreement

/-- **Header and source.**  Where the header is written so is the source, and the functions that the header declares are
those that the source defines just when the tree has no array. -/
theorem declared_eq_defined_iff (u : Unicode) (classname : Str) (nodes : List Node) (lines : List (ℕ × HdrGen.Item))
    (h : HdrGen.acceptAll u 1 nodes = some lines) :
    ∃ items, SrcGen.acceptAll u [classname] nodes = some items ∧
      ({f | f ∈ declared [classname] lines} = {f | f ∈ items.map defined} ↔ ArraysFree nodes) := by
  obtain ⟨items, hitems, hsplit⟩ := @declared_splits u [classname] 1 nodes lines h
  refine ⟨items, hitems, ?_⟩
  rw [← pointersAll_eq_nil_iff u [classname] 1 nodes h]
  constructor
  · intro heq
    by_contra hne
    -- the getter of an array is declared, and no item defines it
    obtain ⟨f, rest, hf⟩ := List.exists_cons_of_ne_nil hne
    have hmem : f ∈ pointersAll u [classname] nodes := by
      rw [hf]
      exact List.mem_cons_self
    have hdefined : f ∈ {f | f ∈ items.map defined} := by
      rw [← heq]
      exact (hsplit f).mpr (Or.inr hmem)
    obtain ⟨path, type, title, rfl⟩ := pointersAll_pointer u [classname] nodes hmem
    obtain ⟨item, -, hitem⟩ := List.mem_map.mp hdefined
    exact defined_ne_pointer item path type title hitem
  · intro hnil
    ext f
    have hf := hsplit f
    rw [hnil] at hf
    simpa using hf

/-- A class with one value. -/
def gammaTree : List Node :=
  [.cls "color".toList [.primitive "float".toList "gamma".toList "//color/gamma".toList]]

theorem declared_eq_defined_iff_gamma :
    ∃ lines items, HdrGen.acceptAll .ascii 1 gammaTree = some lines ∧
      SrcGen.acceptAll .ascii ["Metadata".toList] gammaTree = some items ∧
      ({f | f ∈ declared ["Metadata".toList] lines} = {f | f ∈ items.map defined} ↔ ArraysFree gammaTree) := by
  have hwritten : (HdrGen.acceptAll .ascii 1 gammaTree).isSome = true := by decide +kernel
  obtain ⟨lines, hlines⟩ := Option.isSome_iff_exists.mp hwritten
  obtain ⟨items, hitems, hiff⟩ := declared_eq_defined_iff .ascii "Metadata".toList gammaTree lines hlines
  exact ⟨lines, items, hlines, hitems, hiff⟩

/-- A matrix. -/
def ccmTree : List Node := [.array "float".toList "9".toList "ccm".toList "//ccm".toList]

/-- Its getter is declared and not defined. -/
theorem ccmTree_not_defined :
    ∃ lines items, HdrGen.acceptAll .ascii 1 ccmTree = some lines ∧
      SrcGen.acceptAll .ascii ["Metadata".toList] ccmTree = some items ∧
      {f | f ∈ declared ["Metadata".toList] lines} ≠ {f | f ∈ items.map defined} := by
  have htype : typeMap.lookup "float".toList = some "float".toList := by decide +kernel
  refine ⟨[(1, .arrayGetter "float".toList (Unicode.ascii.title "ccm".toList))], [], ?_, rfl, fun heq => ?_⟩
  · rw [ccmTree, HdrGen.acceptAll, HdrGen.accept, htype]
    rfl
  · have hmem : .getter ["Metadata".toList] (.pointer "float".toList) (Unicode.ascii.title "ccm".toList) ∈
        {f | f ∈ [].map defined} := by
      rw [← heq]
      exact List.mem_cons_self
    cases hmem

end Lyli.Pycppjson
