import Mathlib
import Lyli.Base.FoldM
import Lyli.Base.PyString

/-!
# Metadata descriptions (`tools/pycppjson.py`)

A description lists classes, primitives and arrays, one a line.  The parser is
recursive: the loop of `parseClass` reads lines until a closing one, and hands
the others to `parseLine`, which calls `parseClass` for a nested class.  `none`
is an exception.  The same lines drive a machine with the open classes on a stack:

    parse u lines = run u init lines                             (parse_eq_run)

so that what a line does is a matter of one step.  A comment changes no state; a
blank line changes none at top level and is an error inside a class:

    the tree stays the same with a blank or comment line inserted
      ↔ the line is a comment, or no class is open there         (parse_insert_iff)
-/

namespace Lyli.Pycppjson

open PyString

/-! ## Syntax trees (`jsonast.py`) -/

inductive Node
  | cls (name : Str) (members : List Node)
  | primitive (type name path : Str)
  | array (type size name path : Str)

/-! ## The parser -/

/-- Get name of an object from its address. -/
def getName (u : Unicode) (address : Str) : Option Str := do
  let part ← (address.splitOn '/').getLast?
  wordPrefix u part

def parsePrimitive (u : Unicode) (type : Str) (tokens : List Str) (address : Str) : Option Node := do
  let token ← tokens.head?
  let name ← getName u token
  return .primitive type name (address ++ '/' :: token)

def parseArray (u : Unicode) (type : Str) (tokens : List Str) (address : Str) : Option Node := do
  let (primitive, size) ← matchSized u type
  let token ← tokens.head?
  let name ← getName u token
  return .array primitive size name (address ++ '/' :: token)

/-- The members of a class and the rest of the file; `parseMembers` is the loop over its lines. -/
def parseClass (u : Unicode) (parseMembers : List Str → Str → Option (List Node × List Str)) (file tokens : List Str)
    (address : Str) : Option (Node × List Str) := do
  let token ← tokens.head?
  let name ← getName u token
  let (members, file) ← parseMembers file (address ++ '/' :: token)
  return (.cls name members, file)

/-- The node of a line, if it has one, and the rest of the file. -/
def parseLine (u : Unicode) (parseMembers : List Str → Str → Option (List Node × List Str)) (file : List Str)
    (line address : Str) : Option (Option Node × List Str) :=
  match strip line with
  | [] => some (none, file)
  | c :: _ =>
    if c = '#' then some (none, file)
    else
      match splitWhitespace (strip line) with
      | [] => none
      | type :: tokens =>
        if type = "class".toList then do
          let (node, file) ← parseClass u parseMembers file tokens address
          return (some node, file)
        else if type.getLast? = some ']' then do
          let node ← parseArray u type tokens address
          return (some node, file)
        else do
          let node ← parsePrimitive u type tokens address
          return (some node, file)

/-- Parse lines within class until the closing brace is found, at most `fuel` lines. -/
def parseMembers (u : Unicode) : ℕ → List Str → Str → Option (List Node × List Str)
  | _, [], _ => some ([], [])
  | 0, _ :: _, _ => none
  | fuel + 1, line :: file, address => do
    let first ← (lstrip line).head?
    if first = '}' then return ([], file)
    else
      let (node, file) ← parseLine u (parseMembers u fuel) file line address
      let (members, file) ← parseMembers u fuel file address
      return (node.toList ++ members, file)

/-- The main loop, over at most `fuel` lines. -/
def parseNodes (u : Unicode) : ℕ → List Str → Option (List Node)
  | _, [] => some []
  | 0, _ :: _ => none
  | fuel + 1, line :: file => do
    let (node, file) ← parseLine u (parseMembers u fuel) file line ['/']
    let nodes ← parseNodes u fuel file
    return node.toList ++ nodes

/-- The nodes of the root. -/
def parse (u : Unicode) (lines : List Str) : Option (List Node) := parseNodes u lines.length lines

/-! ## One line at a time -/

/-- What a line is, apart from the one that closes a class. -/
inductive Item
  | skip
  | opens (name address : Str)
  | leaf (node : Node)

def readItem (u : Unicode) (line address : Str) : Option Item :=
  match strip line with
  | [] => some .skip
  | c :: _ =>
    if c = '#' then some .skip
    else
      match splitWhitespace (strip line) with
      | [] => none
      | type :: tokens =>
        if type = "class".toList then do
          let token ← tokens.head?
          let name ← getName u token
          return .opens name (address ++ '/' :: token)
        else if type.getLast? = some ']' then do
          let node ← parseArray u type tokens address
          return .leaf node
        else do
          let node ← parsePrimitive u type tokens address
          return .leaf node

/-- A class being read, or the root. -/
structure Frame where
  name : Str
  address : Str
  members : List Node

structure State where
  frame : Frame
  /-- the open classes around it, innermost first, and the root -/
  outer : List Frame

namespace State

def init : State := ⟨⟨[], ['/'], []⟩, []⟩

def addAll (s : State) (nodes : List Node) : State :=
  { s with frame := { s.frame with members := s.frame.members ++ nodes } }

def push (s : State) (name address : Str) : State := ⟨⟨name, address, []⟩, s.frame :: s.outer⟩

/-- End the innermost class. -/
def close (s : State) : State :=
  match s.outer with
  | [] => s
  | frame :: outer => addAll ⟨frame, outer⟩ [.cls s.frame.name s.frame.members]

def apply (s : State) : Item → State
  | .skip => s
  | .opens name address => s.push name address
  | .leaf node => s.addAll [node]

/-- The root's nodes when the file ends. -/
def finish : Frame → List Frame → List Node
  | frame, [] => frame.members
  | frame, outer :: rest => finish { outer with members := outer.members ++ [.cls frame.name frame.members] } rest

end State

/-- What a line does: a class is closed by a brace, and reads the first character before it looks for a comment. -/
def step (u : Unicode) (s : State) (line : Str) : Option State :=
  if s.outer = [] then (readItem u line s.frame.address).map s.apply
  else do
    let first ← (lstrip line).head?
    if first = '}' then return s.close else (readItem u line s.frame.address).map s.apply

def run (u : Unicode) (s : State) (file : List Str) : Option (List Node) :=
  (file.foldlM (step u) s).map fun s => State.finish s.frame s.outer

section Machine

variable {u : Unicode} {s : State} {file : List Str} {line address : Str}

@[simp] theorem addAll_nil (s : State) : s.addAll [] = s := by
  unfold State.addAll
  rw [List.append_nil]

@[simp] theorem addAll_outer (s : State) (nodes : List Node) : (s.addAll nodes).outer = s.outer := rfl

theorem addAll_append (s : State) (nodes nodes' : List Node) :
    s.addAll (nodes ++ nodes') = (s.addAll nodes).addAll nodes' := by
  unfold State.addAll
  rw [← List.append_assoc]

/-- A class that is read and closed is one more node. -/
theorem close_push (s : State) (name address : Str) (nodes : List Node) :
    ((s.push name address).addAll nodes).close = s.addAll [.cls name nodes] := rfl

theorem finish_close (h : s.outer ≠ []) : State.finish s.close.frame s.close.outer = State.finish s.frame s.outer := by
  obtain ⟨frame, outer⟩ := s
  cases outer with
  | nil => exact absurd rfl h
  | cons o outer => rfl

theorem run_nil (u : Unicode) (s : State) : run u s [] = some (State.finish s.frame s.outer) := rfl

theorem run_cons (u : Unicode) (s : State) (line : Str) (file : List Str) :
    run u s (line :: file) = (step u s line).bind fun s => run u s file := by
  unfold run
  rw [List.foldlM_cons]
  cases step u s line <;> rfl

/-- A line that begins with a brace closes the class. -/
theorem step_close (hs : s.outer ≠ []) (h : (lstrip line).head? = some '}') : step u s line = some s.close := by
  unfold step
  rw [if_neg hs, h]
  rfl

/-- A line that begins with another character is what it is at top level. -/
theorem step_item {first : Char} (h : (lstrip line).head? = some first) (hbrace : first ≠ '}') :
    step u s line = (readItem u line s.frame.address).map s.apply := by
  unfold step
  split_ifs with hs
  · rfl
  · rw [h]
    exact if_neg hbrace

/-- In a class a blank line has no first character. -/
theorem step_blank (hs : s.outer ≠ []) (h : (lstrip line).head? = none) : step u s line = none := by
  unfold step
  rw [if_neg hs, h]
  rfl

/-- `parseLine` as what the line is. -/
theorem parseLine_eq (members : List Str → Str → Option (List Node × List Str)) :
    parseLine u members file line address = (readItem u line address).bind fun item =>
      match item with
      | .skip => some (none, file)
      | .opens name address => (members file address).map fun r => (some (.cls name r.1), r.2)
      | .leaf node => some (some node, file) := by
  unfold parseLine readItem
  cases strip line with
  | nil => rfl
  | cons c cs =>
    dsimp only
    split_ifs with hc
    · rfl
    · cases splitWhitespace (c :: cs) with
      | nil => rfl
      | cons type tokens =>
        dsimp only
        split_ifs
        · unfold parseClass
          cases tokens.head? with
          | none => rfl
          | some token =>
            show ((getName u token).bind _).bind _ = ((getName u token).bind _).bind _
            cases getName u token with
            | none => rfl
            | some name =>
              show ((members file _).bind _).bind _ = (members file _).map _
              cases members file (address ++ '/' :: token) <;> rfl
        · cases parseArray u type tokens address <;> rfl
        · cases parsePrimitive u type tokens address <;> rfl

theorem parseMembers_close (u : Unicode) {fuel : ℕ} (h : (lstrip line).head? = some '}') :
    parseMembers u (fuel + 1) (line :: file) address = some ([], file) := by
  rw [parseMembers, h]
  rfl

/-- What `parseMembers` does with a line that does not close the class. -/
theorem parseMembers_cons {fuel : ℕ} {first : Char} (hfirst : (lstrip line).head? = some first) (hbrace : first ≠ '}') :
    parseMembers u (fuel + 1) (line :: file) address = (parseLine u (parseMembers u fuel) file line address).bind
      fun r => (parseMembers u fuel r.2 address).map fun r' => (r.1.toList ++ r'.1, r'.2) := by
  rw [parseMembers, hfirst]
  show (if first = '}' then _ else _) = _
  rw [if_neg hbrace]
  cases parseLine u (parseMembers u fuel) file line address with
  | none => rfl
  | some r =>
    show (parseMembers u fuel r.2 address).bind _ = (parseMembers u fuel r.2 address).map _
    cases parseMembers u fuel r.2 address <;> rfl

/-! ## The parser as a run -/

/-- What is left of the file after a line is not longer, if this holds of the loop over a class. -/
theorem parseLine_length {members : List Str → Str → Option (List Node × List Str)}
    (hmembers : ∀ file address r, members file address = some r → r.2.length ≤ file.length)
    {r : Option Node × List Str} (h : parseLine u members file line address = some r) : r.2.length ≤ file.length := by
  rw [parseLine_eq] at h
  obtain ⟨item, -, h⟩ := Option.bind_eq_some_iff.mp h
  cases item with
  | skip =>
    obtain rfl := Option.some.inj h
    exact le_rfl
  | opens name address' =>
    obtain ⟨r', hr', rfl⟩ := Option.map_eq_some_iff.mp h
    exact hmembers file address' r' hr'
  | leaf node =>
    obtain rfl := Option.some.inj h
    exact le_rfl

theorem parseMembers_length (u : Unicode) (fuel : ℕ) (file : List Str) (address : Str) (r : List Node × List Str)
    (h : parseMembers u fuel file address = some r) : r.2.length ≤ file.length := by
  induction fuel generalizing file address r with
  | zero =>
    cases file with
    | nil =>
      obtain rfl := Option.some.inj h
      exact le_rfl
    | cons line file => cases h
  | succ fuel ih =>
    cases file with
    | nil =>
      obtain rfl := Option.some.inj h
      exact le_rfl
    | cons line file =>
      obtain ⟨first, hfirst, -⟩ := Option.bind_eq_some_iff.mp h
      by_cases hbrace : first = '}'
      · rw [hbrace] at hfirst
        rw [parseMembers_close u hfirst] at h
        obtain rfl := Option.some.inj h
        exact Nat.le_succ _
      · rw [parseMembers_cons hfirst hbrace] at h
        obtain ⟨r₁, h₁, h⟩ := Option.bind_eq_some_iff.mp h
        obtain ⟨r₂, h₂, rfl⟩ := Option.map_eq_some_iff.mp h
        calc r₂.2.length ≤ r₁.2.length := ih _ _ _ h₂
          _ ≤ file.length := parseLine_length ih h₁
          _ ≤ (line :: file).length := Nat.le_succ _

/-- **One line** that closes nothing: it is read, and the run goes on where `parseLine` stops. -/
theorem run_line {fuel : ℕ}
    (hmembers : ∀ (s : State) (file : List Str), file.length ≤ fuel → s.outer ≠ [] →
      run u s file = (parseMembers u fuel file s.frame.address).bind fun r => run u (s.addAll r.1).close r.2)
    (hfile : file.length ≤ fuel) (s : State) :
    ((readItem u line s.frame.address).map s.apply).bind (fun s => run u s file) =
      (parseLine u (parseMembers u fuel) file line s.frame.address).bind fun r => run u (s.addAll r.1.toList) r.2 := by
  rw [parseLine_eq]
  cases readItem u line s.frame.address with
  | none => rfl
  | some item =>
    cases item with
    | skip =>
      show run u s file = run u (s.addAll []) file
      rw [addAll_nil]
    | opens name address =>
      show run u (s.push name address) file = ((parseMembers u fuel file address).map _).bind _
      rw [hmembers (s.push name address) file hfile (List.cons_ne_nil _ _)]
      show (parseMembers u fuel file address).bind _ = _
      cases parseMembers u fuel file address <;> rfl
    | leaf node => rfl

/-- **The loop of a class** ends where the machine closes it. -/
theorem run_members (u : Unicode) (fuel : ℕ) (s : State) (file : List Str) (hfile : file.length ≤ fuel)
    (hs : s.outer ≠ []) :
    run u s file = (parseMembers u fuel file s.frame.address).bind fun r => run u (s.addAll r.1).close r.2 := by
  induction fuel generalizing s file with
  | zero =>
    obtain rfl := List.length_eq_zero_iff.mp (Nat.le_zero.mp hfile)
    show _ = run u (s.addAll []).close []
    rw [addAll_nil, run_nil, run_nil, finish_close hs]
  | succ fuel ih =>
    cases file with
    | nil =>
      show _ = run u (s.addAll []).close []
      rw [addAll_nil, run_nil, run_nil, finish_close hs]
    | cons line file =>
      have hlen : file.length ≤ fuel := Nat.le_of_succ_le_succ hfile
      rw [run_cons]
      cases hfirst : (lstrip line).head? with
      | none =>
        rw [step_blank hs hfirst, parseMembers, hfirst]
        rfl
      | some first =>
        by_cases hbrace : first = '}'
        · rw [hbrace] at hfirst
          rw [step_close hs hfirst, parseMembers_close u hfirst]
          show run u s.close file = run u (s.addAll []).close file
          rw [addAll_nil]
        · rw [parseMembers_cons hfirst hbrace, step_item hfirst hbrace, run_line ih hlen]
          cases hline : parseLine u (parseMembers u fuel) file line s.frame.address with
          | none => rfl
          | some r =>
            have hrest : r.2.length ≤ fuel := (parseLine_length (parseMembers_length u fuel) hline).trans hlen
            show run u (s.addAll r.1.toList) r.2 = ((parseMembers u fuel r.2 s.frame.address).map _).bind _
            rw [ih (s.addAll r.1.toList) r.2 hrest hs]
            show (parseMembers u fuel r.2 s.frame.address).bind _ = _
            cases parseMembers u fuel r.2 s.frame.address with
            | none => rfl
            | some r' =>
              show run u ((s.addAll r.1.toList).addAll r'.1).close r'.2 = run u (s.addAll (r.1.toList ++ r'.1)).close r'.2
              rw [addAll_append]

/-- **The main loop.** -/
theorem run_nodes (u : Unicode) (fuel : ℕ) (s : State) (file : List Str) (hfile : file.length ≤ fuel)
    (hs : s.outer = []) (haddress : s.frame.address = ['/']) :
    run u s file = (parseNodes u fuel file).map fun nodes => s.frame.members ++ nodes := by
  have hend : run u s [] = some (s.frame.members ++ []) := by
    rw [run_nil, hs, List.append_nil]
    rfl
  induction fuel generalizing s file with
  | zero =>
    obtain rfl := List.length_eq_zero_iff.mp (Nat.le_zero.mp hfile)
    exact hend
  | succ fuel ih =>
    cases file with
    | nil => exact hend
    | cons line file =>
      have hlen : file.length ≤ fuel := Nat.le_of_succ_le_succ hfile
      rw [run_cons, step, if_pos hs, run_line (run_members u fuel) hlen, haddress, parseNodes]
      cases hline : parseLine u (parseMembers u fuel) file line ['/'] with
      | none => rfl
      | some r =>
        have hrest : r.2.length ≤ fuel := (parseLine_length (parseMembers_length u fuel) hline).trans hlen
        have hend' : run u (s.addAll r.1.toList) [] = some ((s.addAll r.1.toList).frame.members ++ []) := by
          rw [run_nil, addAll_outer, hs, List.append_nil]
          rfl
        show run u (s.addAll r.1.toList) r.2 = ((parseNodes u fuel r.2).bind _).map _
        rw [ih (s.addAll r.1.toList) r.2 hrest hs haddress hend']
        cases parseNodes u fuel r.2 with
        | none => rfl
        | some nodes =>
          show some (s.frame.members ++ r.1.toList ++ nodes) = some (s.frame.members ++ (r.1.toList ++ nodes))
          rw [List.append_assoc]

/-- **The parser** is a run from the root. -/
theorem parse_eq_run (u : Unicode) (lines : List Str) : parse u lines = run u .init lines := by
  rw [run_nodes u lines.length .init lines le_rfl rfl rfl]
  unfold parse
  cases parseNodes u lines.length lines <;> rfl

end Machine

/-! ## Blank lines and comments -/

def Blank (line : Str) : Prop := (lstrip line).head? = none

def Comment (line : Str) : Prop := (lstrip line).head? = some '#'

/-- The number of classes open after a line, when `d` were before. -/
def depthAfter (d : ℕ) (line : Str) : ℕ :=
  if 0 < d ∧ (lstrip line).head? = some '}' then d - 1
  else if (splitWhitespace line).head? = some "class".toList then d + 1
  else d

/-- The number of classes that are open after the lines. -/
def depth (lines : List Str) : ℕ := lines.foldl depthAfter 0

section Insertion

variable {u : Unicode} {s s' : State} {line address : Str}

theorem readItem_blank (h : Blank line) : readItem u line address = some .skip := by
  have hnil : strip line = [] := by
    rw [strip_eq_nil, ← List.head?_eq_none_iff]
    exact h
  unfold readItem
  rw [hnil]

theorem readItem_comment (h : Comment line) : readItem u line address = some .skip := by
  obtain ⟨cs, hcs⟩ : ∃ cs, strip line = '#' :: cs := by
    apply List.head?_eq_some_iff.mp
    rw [head?_strip]
    exact h
  unfold readItem
  rw [hcs]
  rfl

theorem comment_keeps (h : Comment line) : step u s line = some s := by
  rw [step_item h (by decide), readItem_comment h]
  rfl

theorem blank_keeps_iff (h : Blank line) : step u s line = some s ↔ s.outer = [] := by
  by_cases hs : s.outer = []
  · rw [step, if_pos hs, readItem_blank h]
    exact iff_of_true rfl hs
  · rw [step_blank hs h]
    exact iff_of_false (by simp) hs

/-- Only a class line opens a class. -/
theorem readItem_depth {item : Item} (h : readItem u line address = some item) :
    (s.apply item).outer.length =
      if (splitWhitespace line).head? = some "class".toList then s.outer.length + 1 else s.outer.length := by
  unfold readItem at h
  cases hstrip : strip line with
  | nil =>
    rw [hstrip] at h
    obtain rfl := Option.some.inj h
    have hnil : splitWhitespace line = [] := by
      rw [← splitWhitespace_strip, hstrip]
      rfl
    rw [hnil]
    rfl
  | cons c cs =>
    rw [hstrip] at h
    dsimp only at h
    obtain ⟨ds, hhead⟩ : ∃ ds, lstrip line = c :: ds := by
      apply List.head?_eq_some_iff.mp
      rw [← head?_strip, hstrip]
      rfl
    obtain ⟨t, ts, htokens⟩ := splitWhitespace_head hhead
    rw [← hstrip, splitWhitespace_strip, htokens] at h
    rw [htokens]
    split_ifs at h with hc
    · -- a comment begins with no class
      obtain rfl := Option.some.inj h
      rw [hc, if_neg (by simp)]
      rfl
    · dsimp only at h
      split_ifs at h with hclass harray
      · obtain ⟨token, -, h⟩ := Option.bind_eq_some_iff.mp h
        obtain ⟨name, -, h⟩ := Option.bind_eq_some_iff.mp h
        obtain rfl := Option.some.inj h
        rw [hclass]
        rfl
      · obtain ⟨node, -, h⟩ := Option.bind_eq_some_iff.mp h
        obtain rfl := Option.some.inj h
        rw [if_neg (by simpa using hclass)]
        rfl
      · obtain ⟨node, -, h⟩ := Option.bind_eq_some_iff.mp h
        obtain rfl := Option.some.inj h
        rw [if_neg (by simpa using hclass)]
        rfl

/-- **The depth of the stack.** -/
theorem step_depth (h : step u s line = some s') : s'.outer.length = depthAfter s.outer.length line := by
  have hitem : (readItem u line s.frame.address).map s.apply = some s' → ¬ (0 < s.outer.length ∧
      (lstrip line).head? = some '}') → s'.outer.length = depthAfter s.outer.length line := by
    intro hmap hopen
    obtain ⟨item, hread, rfl⟩ := Option.map_eq_some_iff.mp hmap
    rw [readItem_depth hread, depthAfter, if_neg hopen]
  by_cases hs : s.outer = []
  · rw [step, if_pos hs] at h
    exact hitem h (by simp [hs])
  · cases hfirst : (lstrip line).head? with
    | none =>
      rw [step_blank hs hfirst] at h
      cases h
    | some first =>
      by_cases hbrace : first = '}'
      · rw [hbrace] at hfirst
        rw [step_close hs hfirst] at h
        obtain rfl := Option.some.inj h
        obtain ⟨frame, outer⟩ := s
        cases outer with
        | nil => exact absurd rfl hs
        | cons o outer =>
          rw [depthAfter, if_pos ⟨Nat.succ_pos _, hfirst⟩]
          rfl
      · rw [step_item hfirst hbrace] at h
        exact hitem h (by simp [hfirst, hbrace])

theorem run_depth {lines : List Str} (h : lines.foldlM (step u) .init = some s) : s.outer.length = depth lines := by
  refine foldlM_inv (fun done s => s.outer.length = depth done) rfl ?_ h
  intro done line rest t t' _ ht hstep
  rw [step_depth hstep, ht]
  unfold depth
  rw [List.foldl_append]
  rfl

/-- A line is inserted where the machine stands in some state. -/
theorem parse_insert {before after : List Str} {ast : List Node} (h : parse u (before ++ after) = some ast) :
    ∃ s, before.foldlM (step u) .init = some s ∧ run u s after = some ast ∧
      parse u (before ++ line :: after) = (step u s line).bind fun s => run u s after := by
  have hsplit : ∀ rest, parse u (before ++ rest) = (before.foldlM (step u) .init).bind fun s => run u s rest := by
    intro rest
    rw [parse_eq_run, run, List.foldlM_append]
    cases before.foldlM (step u) .init <;> rfl
  rw [hsplit] at h
  obtain ⟨s, hs, hrun⟩ := Option.bind_eq_some_iff.mp h
  refine ⟨s, hs, hrun, ?_⟩
  rw [hsplit, hs]
  exact run_cons u s line after

end Insertion

/-- **Blank lines and comments.**  In a description that is accepted, a comment may be inserted anywhere,
and a blank line where no class is open. -/
theorem parse_insert_iff (u : Unicode) (before after : List Str) (line : Str) (ast : List Node)
    (h : parse u (before ++ after) = some ast) (hline : Blank line ∨ Comment line) :
    parse u (before ++ line :: after) = some ast ↔ Comment line ∨ depth before = 0 := by
  obtain ⟨s, hs, hrun, hinsert⟩ := @parse_insert u line before after ast h
  rw [hinsert]
  rcases hline with hblank | hcomment
  · have hnot : ¬ Comment line := by
      intro hcomment
      unfold Blank at hblank
      unfold Comment at hcomment
      rw [hblank] at hcomment
      cases hcomment
    rw [← run_depth hs, List.length_eq_zero_iff]
    by_cases htop : s.outer = []
    · rw [(blank_keeps_iff hblank).mpr htop]
      exact iff_of_true hrun (Or.inr htop)
    · rw [step_blank htop hblank]
      exact iff_of_false (by simp) (by simp [hnot, htop])
  · rw [comment_keeps hcomment]
    exact iff_of_true hrun (Or.inl hcomment)

/-- A comment in a class. -/
theorem parse_insert_iff_comment :
    parse .ascii (["class a \x7b".toList] ++ "# b".toList :: ["\x7d".toList]) = some [.cls "a".toList []] ↔
      Comment "# b".toList ∨ depth ["class a \x7b".toList] = 0 :=
  parse_insert_iff .ascii ["class a \x7b".toList] ["\x7d".toList] "# b".toList [.cls "a".toList []] rfl (Or.inr rfl)

/-- A blank line in a class. -/
theorem blank_line_rejected :
    parse .ascii ["class a \x7b".toList, "\x7d".toList] = some [.cls "a".toList []] ∧ Blank [] ∧
      parse .ascii ["class a \x7b".toList, [], "\x7d".toList] = none := by
  refine ⟨rfl, ?_, rfl⟩
  show (lstrip []).head? = none
  rfl

end Lyli.Pycppjson
