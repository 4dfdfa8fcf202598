import Mathlib

/-!
# Python strings

Strings as lists of characters, with the methods of `str` and the patterns of
`re` that line-driven scripts use.  What Python takes from the Unicode tables
beyond white space is a parameter (`Unicode`), of which the ASCII part and the
white space are fixed.

    tokens separated by white space         →  splitWhitespace l = ts       (Spaced.split)
    words joined by a separator             →  splitOn gives the words      (List.splitOn_intercalate)
    a word, with or without a [k] after it  →  what the patterns find       (wordPrefix_append, matchIndexed_indexed)
-/

namespace Lyli

abbrev Str := List Char

namespace PyString

/-! ## Characters -/

/-- `str.isspace` of a character. -/
def isSpace (c : Char) : Bool :=
  (9 ≤ c.toNat && c.toNat ≤ 13) || (28 ≤ c.toNat && c.toNat ≤ 32) || c.toNat == 0x85 || c.toNat == 0xa0 ||
    c.toNat == 0x1680 || (0x2000 ≤ c.toNat && c.toNat ≤ 0x200a) || c.toNat == 0x2028 || c.toNat == 0x2029 ||
    c.toNat == 0x202f || c.toNat == 0x205f || c.toNat == 0x3000

/-- What the Unicode tables say about letters. -/
structure Unicode where
  /-- `str.isalnum` of a character -/
  isAlnum : Char → Bool
  /-- `str.title` -/
  title : Str → Str
  isAlnum_ascii : ∀ c : Char, c.toNat < 128 → isAlnum c = c.isAlphanum
  isAlnum_space : ∀ c, isSpace c = true → isAlnum c = false

/-- `str.title` of ASCII letters, after a letter or not. -/
def asciiTitle : Bool → Str → Str
  | _, [] => []
  | inWord, c :: s => (if inWord then c.toLower else c.toUpper) :: asciiTitle c.isAlpha s

theorem isAlphanum_range {c : Char} (h : c.isAlphanum = true) : 48 ≤ c.toNat ∧ c.toNat ≤ 122 := by
  simp only [Char.isAlphanum, Char.isAlpha, Char.isUpper, Char.isLower, Char.isDigit, Bool.or_eq_true, Bool.and_eq_true,
    decide_eq_true_eq, ge_iff_le, UInt32.le_iff_toNat_le] at h
  simp at h
  have hval : c.val.toNat = c.toNat := rfl
  omega

theorem isAlphanum_not_space {c : Char} (h : isSpace c = true) : c.isAlphanum = false := by
  by_contra hne
  rw [Bool.not_eq_false] at hne
  have := isAlphanum_range hne
  simp only [isSpace, Bool.or_eq_true, Bool.and_eq_true, decide_eq_true_eq, beq_iff_eq] at h
  omega

/-- The tables without the letters that are not ASCII. -/
def Unicode.ascii : Unicode where
  isAlnum := Char.isAlphanum
  title := asciiTitle false
  isAlnum_ascii _ _ := rfl
  isAlnum_space _ := isAlphanum_not_space

/-- `\w`. -/
def isWord (u : Unicode) (c : Char) : Bool := u.isAlnum c || c == '_'

/-! ## Methods -/

def lstrip (s : Str) : Str := s.dropWhile isSpace

def strip (s : Str) : Str := (lstrip s).rdropWhile isSpace

/-- `str.split()`. -/
def splitWhitespace (s : Str) : List Str := (s.splitOnP isSpace).filter (· ≠ [])

/-- `re.match("\w+", s).group(0)`; no match is an error. -/
def wordPrefix (u : Unicode) (s : Str) : Option Str :=
  match s.takeWhile (isWord u) with
  | [] => none
  | w => some w

/-- `(.*)\]` from the start of `s`: what is before the last bracket of the line. -/
def matchClose : Str → Option Str
  | [] => none
  | c :: s =>
    if c = '\n' then none
    else
      match matchClose s with
      | some g => some (c :: g)
      | none => if c = ']' then some [] else none

/-- `re.match("(.*)\[(.*)\]", s)`: both groups.  The first takes as much as it can. -/
def matchIndexed : Str → Option (Str × Str)
  | [] => none
  | c :: s =>
    if c = '\n' then none
    else
      match matchIndexed s with
      | some (g, k) => some (c :: g, k)
      | none => if c = '[' then (matchClose s).map fun k => ([], k) else none

/-- `re.match("(\w+)\[(.*)\]", s)`: both groups; no match is an error. -/
def matchSized (u : Unicode) (s : Str) : Option (Str × Str) := do
  let w ← wordPrefix u s
  match s.drop w.length with
  | '[' :: rest => (matchClose rest).map fun k => (w, k)
  | _ => none

/-! ## White space -/

theorem lstrip_append {ws : Str} (h : ∀ c ∈ ws, isSpace c = true) (s : Str) : lstrip (ws ++ s) = lstrip s := by
  unfold lstrip
  rw [List.dropWhile_append_of_pos h]

/-- The first character that is not white space. -/
theorem lstrip_head {s : Str} {c : Char} (h : (lstrip s).head? = some c) : isSpace c = false := by
  have := List.head?_dropWhile_not isSpace s
  unfold lstrip at h
  rw [h] at this
  exact this

/-- Stripping the end keeps the first character. -/
theorem head?_strip (s : Str) : (strip s).head? = (lstrip s).head? := by
  unfold strip
  cases h : lstrip s with
  | nil => rfl
  | cons c cs =>
    have hc : isSpace c = false := lstrip_head (by rw [h]; rfl)
    have hne : (c :: cs).rdropWhile isSpace ≠ [] := by
      intro hnil
      have := List.rdropWhile_eq_nil_iff.mp hnil c List.mem_cons_self
      rw [hc] at this
      cases this
    obtain ⟨d, ds, hd⟩ := List.exists_cons_of_ne_nil hne
    obtain ⟨rest, hprefix⟩ := List.rdropWhile_prefix isSpace (c :: cs)
    rw [hd] at hprefix ⊢
    rw [List.cons_append] at hprefix
    rw [(List.cons.inj hprefix).1]
    rfl

theorem strip_eq_nil {s : Str} : strip s = [] ↔ lstrip s = [] := by
  rw [← List.head?_eq_none_iff, head?_strip, List.head?_eq_none_iff]

theorem splitWhitespace_spaces {ws : Str} (h : ∀ c ∈ ws, isSpace c = true) : splitWhitespace ws = [] := by
  unfold splitWhitespace
  induction ws with
  | nil => rfl
  | cons c cs ih =>
    have hsep : (c :: cs).splitOnP isSpace = [] :: cs.splitOnP isSpace := by
      rw [List.splitOnP_cons_eq_if_modifyHead, if_pos (h c List.mem_cons_self)]
    rw [hsep, List.filter_cons_of_neg (by simp)]
    exact ih fun c' hc' => h c' (List.mem_cons_of_mem _ hc')

theorem splitWhitespace_append {c : Char} (hc : isSpace c = true) (s t : Str) :
    splitWhitespace (s ++ c :: t) = splitWhitespace s ++ splitWhitespace t := by
  unfold splitWhitespace
  rw [List.splitOnP_append_cons s t hc, List.filter_append]

theorem splitWhitespace_spaces_append {ws : Str} (h : ∀ c ∈ ws, isSpace c = true) (s : Str) :
    splitWhitespace (ws ++ s) = splitWhitespace s := by
  induction ws with
  | nil => rfl
  | cons c cs ih =>
    have hsplit := splitWhitespace_append (h c List.mem_cons_self) [] (cs ++ s)
    rw [List.nil_append] at hsplit
    rw [List.cons_append, hsplit, ih fun c' hc' => h c' (List.mem_cons_of_mem _ hc')]
    rfl

theorem splitWhitespace_append_spaces {ws : Str} (h : ∀ c ∈ ws, isSpace c = true) (s : Str) :
    splitWhitespace (s ++ ws) = splitWhitespace s := by
  cases ws with
  | nil => rw [List.append_nil]
  | cons c cs =>
    have htail : splitWhitespace cs = [] := splitWhitespace_spaces fun c' hc' => h c' (List.mem_cons_of_mem _ hc')
    rw [splitWhitespace_append (h c List.mem_cons_self), htail, List.append_nil]

/-- Stripping changes no token. -/
theorem splitWhitespace_strip (s : Str) : splitWhitespace (strip s) = splitWhitespace s := by
  have hend : ∀ t : Str, splitWhitespace (t.rdropWhile isSpace) = splitWhitespace t := by
    intro t
    have hsplit := List.rdropWhile_append_rtakeWhile (p := isSpace) (l := t)
    rw [← splitWhitespace_append_spaces (fun c hc => List.mem_rtakeWhile_imp hc) (t.rdropWhile isSpace), hsplit]
  have hstart : splitWhitespace (lstrip s) = splitWhitespace s := by
    have hsplit := List.takeWhile_append_dropWhile (p := isSpace) (l := s)
    unfold lstrip
    rw [← splitWhitespace_spaces_append (fun c hc => List.mem_takeWhile_imp hc) (s.dropWhile isSpace), hsplit]
  unfold strip
  rw [hend, hstart]

/-! ## Tokens -/

/-- Characters without white space. -/
structure IsToken (t : Str) : Prop where
  ne_nil : t ≠ []
  solid : ∀ c ∈ t, isSpace c = false

/-- The line holds the tokens, with white space between them and any around them. -/
inductive Spaced : List Str → Str → Prop
  | blank {ws : Str} (hws : ∀ c ∈ ws, isSpace c = true) : Spaced [] ws
  | last {ws t ws' : Str} (hws : ∀ c ∈ ws, isSpace c = true) (ht : IsToken t) (hws' : ∀ c ∈ ws', isSpace c = true) :
    Spaced [t] (ws ++ t ++ ws')
  | token {ws t : Str} {c : Char} {ts : List Str} {s : Str} (hws : ∀ c ∈ ws, isSpace c = true) (ht : IsToken t)
    (hc : isSpace c = true) (h : Spaced ts s) : Spaced (t :: ts) (ws ++ t ++ c :: s)

theorem isToken_of_all {t : Str} (hne : t ≠ []) (hall : t.all (fun c => !isSpace c) = true) : IsToken t := by
  refine ⟨hne, fun c hc => ?_⟩
  simpa using List.all_eq_true.mp hall c hc

theorem IsToken.spaced {t : Str} (h : IsToken t) : Spaced [t] t := by
  have hspaced := @Spaced.last [] t [] (by simp) h (by simp)
  simpa using hspaced

theorem IsToken.spaced_cons {t s : Str} {ts : List Str} (h : IsToken t) (hs : Spaced ts s) :
    Spaced (t :: ts) (t ++ ' ' :: s) :=
  @Spaced.token [] t ' ' ts s (by simp) h (by decide) hs

theorem IsToken.split {t : Str} (h : IsToken t) : splitWhitespace t = [t] := by
  unfold splitWhitespace
  rw [List.splitOnP_eq_singleton h.solid, List.filter_cons_of_pos (by simpa using h.ne_nil)]
  rfl

/-- **The tokens of a line.** -/
theorem Spaced.split {ts : List Str} {l : Str} (h : Spaced ts l) : splitWhitespace l = ts := by
  induction h with
  | blank hws => exact splitWhitespace_spaces hws
  | last hws ht hws' =>
    rw [splitWhitespace_append_spaces hws', splitWhitespace_spaces_append hws, ht.split]
  | token hws ht hc _ ih =>
    rw [splitWhitespace_append hc, splitWhitespace_spaces_append hws, ht.split, ih]
    rfl

theorem IsToken.lstrip {t : Str} (h : IsToken t) (s : Str) : lstrip (t ++ s) = t ++ s := by
  obtain ⟨c, cs, rfl⟩ := List.exists_cons_of_ne_nil h.ne_nil
  have hc : ¬ isSpace c = true := by simp [h.solid c List.mem_cons_self]
  unfold PyString.lstrip
  rw [List.cons_append, List.dropWhile_cons_of_neg hc]

/-- A line begins with its first token. -/
theorem Spaced.head {t : Str} {ts : List Str} {l : Str} (h : Spaced (t :: ts) l) :
    (PyString.lstrip l).head? = t.head? := by
  have hhead : ∀ {ws : Str}, (∀ c ∈ ws, isSpace c = true) → IsToken t → ∀ s,
      (PyString.lstrip (ws ++ t ++ s)).head? = t.head? := by
    intro ws hws ht s
    obtain ⟨c, cs, rfl⟩ := List.exists_cons_of_ne_nil ht.ne_nil
    rw [List.append_assoc, lstrip_append hws, ht.lstrip]
    rfl
  cases h with
  | last hws ht _ => exact hhead hws ht _
  | token hws ht _ _ => exact hhead hws ht _

/-- The first token begins with the first character that is not white space. -/
theorem splitWhitespace_head {s cs : Str} {c : Char} (h : PyString.lstrip s = c :: cs) :
    ∃ t ts, splitWhitespace s = (c :: t) :: ts := by
  have hc : isSpace c = false := lstrip_head (by rw [h]; rfl)
  have hsplit := List.takeWhile_append_dropWhile (p := isSpace) (l := s)
  unfold PyString.lstrip at h
  rw [h] at hsplit
  rw [← hsplit, splitWhitespace_spaces_append fun c hc => List.mem_takeWhile_imp hc]
  obtain ⟨t, ts, hts⟩ := List.exists_cons_of_ne_nil (List.splitOnP_ne_nil isSpace cs)
  refine ⟨t, ts.filter (· ≠ []), ?_⟩
  unfold splitWhitespace
  rw [List.splitOnP_cons_eq_if_modifyHead, hts]
  simp [hc]

/-! ## Words -/

section Words

variable {u : Unicode}

theorem isWord_ascii {c : Char} (hc : c.toNat < 128) : isWord u c = (c.isAlphanum || c == '_') := by
  unfold isWord
  rw [u.isAlnum_ascii c hc]

/-- Word characters are neither white space nor the characters that separate words. -/
theorem isWord_not_space {c : Char} (h : isWord u c = true) : isSpace c = false := by
  by_contra hs
  rw [Bool.not_eq_false] at hs
  unfold isWord at h
  rw [u.isAlnum_space c hs, Bool.false_or, beq_iff_eq] at h
  rw [h] at hs
  exact absurd hs (by decide)

theorem isWord_ne {c d : Char} (h : isWord u c = true) (hd : d.toNat < 128)
    (hnot : (d.isAlphanum || d == '_') = false) : c ≠ d := by
  rintro rfl
  rw [isWord_ascii hd, hnot] at h
  cases h

theorem isWord_digit {c : Char} (h : c.isDigit = true) : isWord u c = true := by
  have halnum : c.isAlphanum = true := by
    unfold Char.isAlphanum
    rw [h, Bool.or_true]
  have hrange := isAlphanum_range halnum
  rw [isWord_ascii (by omega), halnum, Bool.true_or]

/-- **The word a string begins with.** -/
theorem wordPrefix_append {w rest : Str} (hw : w ≠ []) (hword : ∀ c ∈ w, isWord u c = true)
    (hrest : ∀ c ∈ rest.head?, isWord u c = false) : wordPrefix u (w ++ rest) = some w := by
  have htake : (w ++ rest).takeWhile (isWord u) = w := by
    rw [List.takeWhile_append_of_pos hword]
    cases rest with
    | nil => simp
    | cons c cs =>
      have hc : ¬ isWord u c = true := by simp [hrest c rfl]
      rw [List.takeWhile_cons_of_neg hc, List.append_nil]
  unfold wordPrefix
  rw [htake]
  obtain ⟨c, cs, rfl⟩ := List.exists_cons_of_ne_nil hw
  rfl

/-! ## Brackets -/

theorem matchIndexed_none {s : Str} (h : '[' ∉ s) : matchIndexed s = none := by
  induction s with
  | nil => rfl
  | cons c s ih =>
    rw [List.mem_cons, not_or] at h
    unfold matchIndexed
    rw [ih h.2]
    simp [Ne.symm h.1]

theorem matchClose_append {k : Str} (hk : ∀ c ∈ k, c ≠ ']' ∧ c ≠ '\n') : matchClose (k ++ [']']) = some k := by
  induction k with
  | nil => decide
  | cons c k ih =>
    have hc := hk c List.mem_cons_self
    rw [List.cons_append, matchClose, if_neg hc.2, ih fun c' hc' => hk c' (List.mem_cons_of_mem _ hc')]

/-- **A word with an index.** -/
theorem matchIndexed_indexed {w k : Str} (hw : ∀ c ∈ w, c ≠ '\n')
    (hk : ∀ c ∈ k, c ≠ '[' ∧ c ≠ ']' ∧ c ≠ '\n') : matchIndexed (w ++ '[' :: (k ++ [']'])) = some (w, k) := by
  induction w with
  | nil =>
    have hinner : matchIndexed (k ++ [']']) = none := by
      apply matchIndexed_none
      simp only [List.mem_append, List.mem_singleton, not_or]
      exact ⟨fun hmem => (hk _ hmem).1 rfl, by decide⟩
    rw [List.nil_append, matchIndexed, if_neg (by decide), hinner]
    show (if '[' = '[' then _ else none) = _
    rw [if_pos rfl, matchClose_append fun c hc => (hk c hc).2]
    rfl
  | cons c w ih =>
    rw [List.cons_append, matchIndexed, if_neg (hw c List.mem_cons_self),
      ih fun c' hc' => hw c' (List.mem_cons_of_mem _ hc')]

end Words

end PyString

end Lyli
