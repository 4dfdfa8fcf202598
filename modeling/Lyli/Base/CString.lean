import Mathlib

/-!
# Strings and integers in memory

Memory is the list of the bytes from some address on.  A C string ends at its
first NUL; `scanInt` is the conversion of `sscanf` for integers.

    memories that agree on what is read of a string hold the same string      (stringAt_congr, cString_congr)
    no byte after a NUL is read                                               (StringRead.le)
    h, l hex digits → scanInt 16 2 (h :: l :: s) = 16 h + l                   (scanInt_hex)
-/

namespace Lyli

/-! ## Reading memory -/

/-- The bytes from `q` on, up to a NUL. -/
def stringAt (memory : List UInt8) (q : ℕ) : List UInt8 := (memory.drop q).takeWhile (· ≠ 0)

/-- A string that ends. -/
def cString (memory : List UInt8) (q : ℕ) : Option (List UInt8) :=
  if memory[q + (stringAt memory q).length]? = some 0 then some (stringAt memory q) else none

/-- The little-endian word at `q`. -/
def word32 (memory : List UInt8) (q : ℕ) : Option ℕ := do
  let b0 ← memory[q]?
  let b1 ← memory[q + 1]?
  let b2 ← memory[q + 2]?
  let b3 ← memory[q + 3]?
  return b0.toNat + 2 ^ 8 * b1.toNat + 2 ^ 16 * b2.toNat + 2 ^ 24 * b3.toNat

/-- Looking for the end of the string at `q`, the byte at `i` is read. -/
def StringRead (memory : List UInt8) (q i : ℕ) : Prop := q ≤ i ∧ ∀ j, q ≤ j → j < i → memory[j]? ≠ some 0

section Reading

variable {memory memory' : List UInt8} {q i z : ℕ}

theorem stringAt_cons {b : UInt8} (h : memory[q]? = some b) (hb : b ≠ 0) :
    stringAt memory q = b :: stringAt memory (q + 1) := by
  have hq : q < memory.length := (List.getElem?_eq_some_iff.mp h).1
  have hget : memory[q] = b := (List.getElem?_eq_some_iff.mp h).2
  unfold stringAt
  rw [List.drop_eq_getElem_cons hq, hget]
  exact List.takeWhile_cons_of_pos (by simpa using hb)

theorem stringAt_nil (h : memory[q]? = some 0) : stringAt memory q = [] := by
  have hq : q < memory.length := (List.getElem?_eq_some_iff.mp h).1
  have hget : memory[q] = 0 := (List.getElem?_eq_some_iff.mp h).2
  unfold stringAt
  rw [List.drop_eq_getElem_cons hq, hget]
  exact List.takeWhile_cons_of_neg (by simp)

theorem stringAt_none (h : memory[q]? = none) : stringAt memory q = [] := by
  unfold stringAt
  rw [List.drop_eq_nil_of_le (List.getElem?_eq_none_iff.mp h)]
  rfl

/-- **No byte after a NUL** is read. -/
theorem StringRead.le (h : StringRead memory q i) (hz : memory[z]? = some 0) (hqz : q ≤ z) : i ≤ z := by
  by_contra hlt
  exact h.2 z hqz (by omega) hz

theorem StringRead.of_succ {b : UInt8} (h : memory[q]? = some b) (hb : b ≠ 0) (hi : StringRead memory (q + 1) i) :
    StringRead memory q i := by
  refine ⟨by have := hi.1; omega, fun j hj hji => ?_⟩
  by_cases hjq : j = q
  · rw [hjq, h]
    simpa using hb
  · exact hi.2 j (by omega) hji

/-- The byte that ends the string is read; within the memory it is a NUL. -/
theorem stringRead_end (memory : List UInt8) (q : ℕ) :
    StringRead memory q (q + (stringAt memory q).length) ∧
      ∀ b, memory[q + (stringAt memory q).length]? = some b → b = 0 := by
  -- towards the end of the memory
  induction hn : memory.length - q generalizing q with
  | zero =>
    have hq : memory[q]? = none := List.getElem?_eq_none_iff.mpr (by omega)
    rw [stringAt_none hq]
    refine ⟨⟨by simp, fun j hj hjq => by simp at hjq; omega⟩, fun b hb => ?_⟩
    simp [hq] at hb
  | succ n ih =>
    have hq : memory[q]? = some memory[q] := List.getElem?_eq_getElem (by omega)
    by_cases hb : memory[q] = 0
    · rw [hb] at hq
      rw [stringAt_nil hq]
      refine ⟨⟨by simp, fun j hj hjq => by simp at hjq; omega⟩, fun b hb => ?_⟩
      simpa [hq] using hb.symm
    · have hrest := ih (q + 1) (by omega)
      rw [stringAt_cons hq hb, List.length_cons]
      rw [show q + ((stringAt memory (q + 1)).length + 1) = q + 1 + (stringAt memory (q + 1)).length by omega]
      exact ⟨hrest.1.of_succ hq hb, hrest.2⟩

theorem stringAt_congr (h : ∀ i, StringRead memory q i → memory[i]? = memory'[i]?) :
    stringAt memory q = stringAt memory' q := by
  induction hn : memory.length - q generalizing q with
  | zero =>
    have hq : memory[q]? = none := List.getElem?_eq_none_iff.mpr (by omega)
    have hq' : memory'[q]? = none := by
      rw [← h q ⟨by omega, by omega⟩]
      exact hq
    rw [stringAt_none hq, stringAt_none hq']
  | succ n ih =>
    have hq : memory[q]? = some memory[q] := List.getElem?_eq_getElem (by omega)
    have hq' : memory'[q]? = some memory[q] := by
      rw [← h q ⟨by omega, by omega⟩]
      exact hq
    by_cases hb : memory[q] = 0
    · rw [hb] at hq hq'
      rw [stringAt_nil hq, stringAt_nil hq']
    · rw [stringAt_cons hq hb, stringAt_cons hq' hb]
      rw [ih (fun i hi => h i (hi.of_succ hq hb)) (by omega)]

theorem cString_congr (h : ∀ i, StringRead memory q i → memory[i]? = memory'[i]?) :
    cString memory q = cString memory' q := by
  unfold cString
  rw [h _ (stringRead_end memory q).1, stringAt_congr h]

/-- A NUL ends the string. -/
theorem cString_isSome (hz : memory[z]? = some 0) (hqz : q ≤ z) : cString memory q = some (stringAt memory q) := by
  have hle := (stringRead_end memory q).1.le hz hqz
  have hlt : q + (stringAt memory q).length < memory.length := by
    have := (List.getElem?_eq_some_iff.mp hz).1
    omega
  have hget := List.getElem?_eq_getElem hlt
  unfold cString
  rw [if_pos]
  rw [hget, (stringRead_end memory q).2 _ hget]

theorem word32_congr (h : ∀ i, q ≤ i → i < q + 4 → memory[i]? = memory'[i]?) : word32 memory q = word32 memory' q := by
  unfold word32
  rw [h q (by omega) (by omega), h (q + 1) (by omega) (by omega), h (q + 2) (by omega) (by omega),
    h (q + 3) (by omega) (by omega)]

theorem word32_isSome (h : q + 4 ≤ memory.length) : ∃ w, word32 memory q = some w := by
  unfold word32
  rw [List.getElem?_eq_getElem (by omega), List.getElem?_eq_getElem (by omega), List.getElem?_eq_getElem (by omega),
    List.getElem?_eq_getElem (by omega)]
  exact ⟨_, rfl⟩

theorem lt_length_of_word32 {w : ℕ} (h : word32 memory q = some w) : q + 4 ≤ memory.length := by
  by_contra hlt
  have hnone : memory[q + 3]? = none := List.getElem?_eq_none_iff.mpr (by omega)
  simp [word32, hnone] at h

end Reading

/-! ## `sscanf` -/

def isSpace (b : UInt8) : Bool := b = 32 ∨ 9 ≤ b ∧ b ≤ 13

/-- The value of a digit, `0` to `9` and then the letters. -/
def digitValue (base : ℕ) (b : UInt8) : Option ℕ :=
  let value :=
    if 48 ≤ b ∧ b ≤ 57 then b.toNat - 48
    else if 97 ≤ b ∧ b ≤ 122 then b.toNat - 87
    else if 65 ≤ b ∧ b ≤ 90 then b.toNat - 55
    else base
  if value < base then some value else none

/-- The sign counts in the width. -/
def scanSign (width : ℕ) : List UInt8 → ℤ × ℕ × List UInt8
  | b :: s => if b = 45 then (-1, width - 1, s) else if b = 43 then (1, width - 1, s) else (1, width, b :: s)
  | [] => (1, width, [])

/-- `0x` in front of a hexadecimal number. -/
def scanPrefix (base width : ℕ) : List UInt8 → ℕ × List UInt8
  | b :: c :: s =>
    if base = 16 ∧ 2 ≤ width ∧ b = 48 ∧ (c = 120 ∨ c = 88) then (width - 2, s) else (width, b :: c :: s)
  | s => (width, s)

/-- At most `width` digits. -/
def scanDigits (base : ℕ) : ℕ → List UInt8 → List ℕ × List UInt8
  | 0, s => ([], s)
  | _ + 1, [] => ([], [])
  | width + 1, b :: s =>
    match digitValue base b with
    | some value => (value :: (scanDigits base width s).1, (scanDigits base width s).2)
    | none => ([], b :: s)

/-- A conversion `%<width>d` (`base` 10) or `%<width>x` (`base` 16): the value
and what is left, or no match. -/
def scanInt (base width : ℕ) (s : List UInt8) : Option (ℤ × List UInt8) :=
  let (sign, width, s) := scanSign width (s.dropWhile isSpace)
  let (width, s) := scanPrefix base width s
  let (digits, s) := scanDigits base width s
  if digits = [] then none else some (sign * (digits.foldl (fun n d => base * n + d) 0 : ℕ), s)

/-- Conversions `%d` of the widths, with `sep` between them: the values assigned. -/
def scanFields (sep : UInt8) : List ℕ → List UInt8 → List ℤ
  | [], _ => []
  | width :: widths, s =>
    match scanInt 10 width s with
    | none => []
    | some (value, s) =>
      match s with
      | [] => [value]
      | b :: s => if b = sep then value :: scanFields sep widths s else [value]

theorem digitValue_hex_all : ∀ n, n < 256 → digitValue 16 n.toUInt8 ≠ none →
    isSpace n.toUInt8 = false ∧ n ≠ 0 ∧ n ≠ 45 ∧ n ≠ 43 ∧ n ≠ 120 ∧ n ≠ 88 := by
  decide +kernel

/-- A hex digit is none of the other characters. -/
theorem digitValue_hex {b : UInt8} {d : ℕ} (h : digitValue 16 b = some d) :
    isSpace b = false ∧ b ≠ 0 ∧ b ≠ 45 ∧ b ≠ 43 ∧ b ≠ 120 ∧ b ≠ 88 := by
  have e : b.toNat.toUInt8 = b := by simp
  have := digitValue_hex_all b.toNat b.toNat_lt (by rw [e, h]; simp)
  rw [e] at this
  obtain ⟨hspace, h0, h45, h43, h120, h88⟩ := this
  exact ⟨hspace, fun hb => h0 (by rw [hb]; rfl), fun hb => h45 (by rw [hb]; rfl), fun hb => h43 (by rw [hb]; rfl),
    fun hb => h120 (by rw [hb]; rfl), fun hb => h88 (by rw [hb]; rfl)⟩

theorem scanSign_hex {b : UInt8} {d : ℕ} (h : digitValue 16 b = some d) (width : ℕ) (s : List UInt8) :
    scanSign width (b :: s) = (1, width, b :: s) := by
  have hb := digitValue_hex h
  simp [scanSign, hb]

theorem scanPrefix_hex {c : UInt8} {d : ℕ} (h : digitValue 16 c = some d) (width : ℕ) (b : UInt8) (s : List UInt8) :
    scanPrefix 16 width (b :: c :: s) = (width, b :: c :: s) := by
  have hc := digitValue_hex h
  simp [scanPrefix, hc]

/-- **Two hex digits** are one byte. -/
theorem scanInt_hex {h l : UInt8} {a b : ℕ} (hh : digitValue 16 h = some a) (hl : digitValue 16 l = some b)
    (s : List UInt8) : scanInt 16 2 (h :: l :: s) = some (((16 * a + b : ℕ) : ℤ), s) := by
  have hspace : (h :: l :: s).dropWhile isSpace = h :: l :: s :=
    List.dropWhile_cons_of_neg (by simp [(digitValue_hex hh).1])
  unfold scanInt
  simp only [hspace, scanSign_hex hh, scanPrefix_hex hl]
  simp [scanDigits, hh, hl]

end Lyli
