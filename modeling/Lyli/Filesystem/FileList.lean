import Lyli.Base.CString
import Lyli.Camera

/-!
# The picture list (`filesystemaccess.cpp`)

The camera sends its pictures as a buffer of entries, which `parseFileList` turns
into photos.  The memory is the buffer and whatever lies behind it; nothing
checks the header of the buffer, nor its entries.

    12 ≤ size → (the loop ends ↔ 0 < linelen ∨ size < start)                        (parseFileList_terminates_iff)
    0 < linelen → (nothing behind the buffer is read ↔
                     a NUL from the last entry's byte 107 on, if there is an entry)  (parseFileList_reads_iff)
    124 ≤ linelen, well formed entries → the (size - start) / linelen photos        (parseFileList_photos)
    the camera serves a buffer → its list is the parsed buffer                      (getPictureList_eq)
-/

namespace Lyli.Filesystem

/-! ## Model -/

/-- The `std::tm` of an entry; what `sscanf` did not assign is `none`. -/
structure Tm where
  tm_year : Option ℤ
  tm_mon : Option ℤ
  tm_mday : Option ℤ
  tm_hour : Option ℤ
  tm_min : Option ℤ
  tm_sec : Option ℤ
  deriving DecidableEq

/-- What `Photo` is constructed from; a byte of the hash that `sscanf` did not assign is `none`. -/
structure Photo where
  dirBase : List UInt8
  dirId : ℤ
  fileBase : List UInt8
  fileId : ℤ
  sha1 : List (Option UInt8)
  time : ℤ
  deriving DecidableEq

/-- `uint32_t` to `int` -/
def toInt (w : ℕ) : ℤ := (w : ℤ).bmod (2 ^ 32)

def parseSha1 (memory : List UInt8) (psha1 : ℕ) : List (Option UInt8) :=
  (List.range 20).map fun i => (scanInt 16 2 (stringAt memory (psha1 + 2 * i))).map fun tmp => UInt8.ofInt tmp.1

def parseTime (memory : List UInt8) (ptime : ℕ) : Tm :=
  let date := scanFields 45 [4, 2, 2] (stringAt memory ptime)
  let clock := scanFields 58 [2, 2, 2] (stringAt memory (ptime + 11))
  { tm_year := date[0]?.map (· - 1900)
    tm_mon := date[1]?.map (· - 1)
    tm_mday := date[2]?
    tm_hour := clock[0]?
    tm_min := clock[1]?
    tm_sec := clock[2]? }

/-- `toTime` is `mktime` less the time zone; `none` is a read behind the memory. -/
def parseLine (toTime : Tm → ℤ) (memory : List UInt8) (line : ℕ) : Option Photo := do
  let dirBase ← cString memory line
  let fileBase ← cString memory (line + 8)
  let dirId ← word32 memory (line + 16)
  let fileId ← word32 memory (line + 20)
  return {
    dirBase := dirBase
    dirId := toInt dirId
    fileBase := fileBase
    fileId := toInt fileId
    sha1 := parseSha1 memory (line + 48 + 5)
    time := toTime (parseTime memory (line + 96)) }

/-- The position of the first entry, in 32 bits. -/
def startPos (count : ℕ) : ℕ := (count * 8 + 12) % 2 ^ 32

/-- The loop of `parseFileList`; `none` is a loop that has not ended after `fuel` rounds. -/
def parseLines {α : Type} (parseLine : ℕ → α) (linelen size : ℕ) : ℕ → ℕ → List α → Option (List α)
  | 0, _, _ => none
  | fuel + 1, pos, fileList =>
    if pos + linelen ≤ size then parseLines parseLine linelen size fuel (pos + linelen) (fileList ++ [parseLine pos])
    else some fileList

/-- The buffer with `rest` behind it. -/
def parseFileList (toTime : Tm → ℤ) (fuel : ℕ) (buffer rest : List UInt8) : Option (List (Option Photo)) := do
  let linelen ← word32 (buffer ++ rest) 4
  let count ← word32 (buffer ++ rest) 8
  parseLines (parseLine toTime (buffer ++ rest)) linelen buffer.length fuel (startPos count) []

/-- `FilesystemAccess::getPictureList`: what the camera sends in the state `s`, parsed. -/
def getPictureList {σ : Type} (device : Camera.MSDevice σ) (toTime : Tm → ℤ) (fuel : ℕ) (rest : List UInt8) (s : σ) :
    Option (List (Option Photo)) := do
  let buf ← Camera.getPictureList device fuel s
  parseFileList toTime fuel buf.1 rest

/-! ## The loop -/

section Loop

variable {α : Type} {parse : ℕ → α} {linelen size : ℕ}

/-- With entries of some length the loop visits those that fit. -/
theorem parseLines_eq (hlen : 0 < linelen) (fuel pos : ℕ) (fileList : List α) (hfuel : (size - pos) / linelen < fuel) :
    parseLines parse linelen size fuel pos fileList =
      some (fileList ++ (List.range ((size - pos) / linelen)).map fun k => parse (pos + k * linelen)) := by
  induction fuel generalizing pos fileList with
  | zero => exact absurd hfuel (Nat.not_lt_zero _)
  | succ fuel ih =>
    unfold parseLines
    by_cases hfits : pos + linelen ≤ size
    · have hdiv : (size - pos) / linelen = (size - (pos + linelen)) / linelen + 1 := by
        rw [show size - pos = size - (pos + linelen) + linelen by omega]
        exact Nat.add_div_right _ hlen
      rw [if_pos hfits, ih _ _ (by omega), hdiv, List.range_succ_eq_map, List.map_cons, List.map_map,
        List.append_assoc]
      congr 2
      show _ :: _ = _ :: _
      congr 1
      · simp
      · apply List.map_congr_left
        intro k _
        show parse (pos + linelen + k * linelen) = parse (pos + (k + 1) * linelen)
        congr 1
        ring
    · have hdiv : (size - pos) / linelen = 0 := Nat.div_eq_of_lt (by omega)
      rw [if_neg hfits, hdiv]
      simp

/-- Entries of no length are visited over and over. -/
theorem parseLines_stuck (fuel pos : ℕ) (fileList : List α) (hpos : pos ≤ size) :
    parseLines parse 0 size fuel pos fileList = none := by
  induction fuel generalizing fileList with
  | zero => rfl
  | succ fuel ih =>
    unfold parseLines
    rw [if_pos (by omega)]
    exact ih _

theorem parseLines_beyond (fuel pos : ℕ) (fileList : List α) (hpos : size < pos) :
    parseLines parse linelen size (fuel + 1) pos fileList = some fileList := by
  unfold parseLines
  rw [if_neg (by omega)]

/-- **The loop ends** unless its entries have no length. -/
theorem parseLines_terminates_iff (pos : ℕ) :
    (∃ fuel fileList, parseLines parse linelen size fuel pos [] = some fileList) ↔ 0 < linelen ∨ size < pos := by
  constructor
  · rintro ⟨fuel, fileList, hrun⟩
    by_contra hnot
    have hlen : linelen = 0 := by omega
    rw [hlen, parseLines_stuck fuel pos [] (by omega)] at hrun
    simp at hrun
  · rintro (hlen | hpos)
    · exact ⟨(size - pos) / linelen + 1, _, parseLines_eq hlen _ pos [] (by omega)⟩
    · exact ⟨1, _, parseLines_beyond 0 pos [] hpos⟩

end Loop

/-! ## The header -/

section Header

variable {buffer : List UInt8} {linelen count : ℕ}

theorem getElem?_buffer (rest : List UInt8) {i : ℕ} (hi : i < buffer.length) : (buffer ++ rest)[i]? = buffer[i]? :=
  List.getElem?_append_left hi

theorem word32_buffer (rest : List UInt8) {q w : ℕ} (h : word32 buffer q = some w) :
    word32 (buffer ++ rest) q = some w := by
  rw [← h]
  apply word32_congr
  intro i _ hi
  exact getElem?_buffer rest (by have := lt_length_of_word32 h; omega)

theorem parseFileList_eq (toTime : Tm → ℤ) (fuel : ℕ) (rest : List UInt8) (h4 : word32 buffer 4 = some linelen)
    (h8 : word32 buffer 8 = some count) :
    parseFileList toTime fuel buffer rest =
      parseLines (parseLine toTime (buffer ++ rest)) linelen buffer.length fuel (startPos count) [] := by
  unfold parseFileList
  rw [word32_buffer rest h4, word32_buffer rest h8]
  rfl

end Header

/-! ## Termination -/

/-- **The list ends** unless its entries have no length and the first one starts within the buffer. -/
theorem parseFileList_terminates_iff (toTime : Tm → ℤ) (buffer rest : List UInt8) (hsize : 12 ≤ buffer.length) :
    ∃ linelen count, word32 buffer 4 = some linelen ∧ word32 buffer 8 = some count ∧
      ((∃ fuel fileList, parseFileList toTime fuel buffer rest = some fileList) ↔
        0 < linelen ∨ buffer.length < startPos count) := by
  obtain ⟨linelen, h4⟩ := word32_isSome (show 4 + 4 ≤ buffer.length by omega)
  obtain ⟨count, h8⟩ := word32_isSome (show 8 + 4 ≤ buffer.length by omega)
  refine ⟨linelen, count, h4, h8, ?_⟩
  rw [← parseLines_terminates_iff (startPos count)]
  constructor
  · rintro ⟨fuel, fileList, hrun⟩
    exact ⟨fuel, fileList, (parseFileList_eq toTime fuel rest h4 h8).symm.trans hrun⟩
  · rintro ⟨fuel, fileList, hrun⟩
    exact ⟨fuel, fileList, (parseFileList_eq toTime fuel rest h4 h8).trans hrun⟩

/-- **The list of a camera** is the parsed buffer that it serves, after finitely many packets. -/
theorem getPictureList_eq {σ : Type} {device : Camera.MSDevice σ} {buffer : List UInt8} {P : σ → Prop}
    (h : Camera.Serves device buffer P) (hsize : buffer.length < 2 ^ 24) (toTime : Tm → ℤ) (rest : List UInt8) {s : σ}
    (hs : P (device.sendCommand Camera.endpointOut Camera.cmdReqFilelist s).2) :
    ∃ n, ∀ fuel ≥ n, getPictureList device toTime fuel rest s = parseFileList toTime fuel buffer rest := by
  obtain ⟨n, hn⟩ := Camera.getPictureList_complete h hsize hs
  refine ⟨n, fun fuel hfuel => ?_⟩
  obtain ⟨s', hs'⟩ := hn fuel hfuel
  unfold getPictureList
  rw [hs']
  rfl

/-- 124 NULs behind a header of NULs. -/
def emptyEntries : List UInt8 := List.replicate 136 0

theorem parseFileList_terminates_iff_empty :
    ∃ linelen count, word32 emptyEntries 4 = some linelen ∧ word32 emptyEntries 8 = some count ∧
      ((∃ fuel fileList, parseFileList (fun _ => 0) fuel emptyEntries [] = some fileList) ↔
        0 < linelen ∨ emptyEntries.length < startPos count) :=
  parseFileList_terminates_iff (fun _ => 0) emptyEntries [] (by simp [emptyEntries])

/-- Entries of no length are parsed for ever. -/
theorem emptyEntries_endless : 12 ≤ emptyEntries.length ∧
    ∀ toTime fuel rest, parseFileList toTime fuel emptyEntries rest = none := by
  refine ⟨by simp [emptyEntries], fun toTime fuel rest => ?_⟩
  have h4 : word32 emptyEntries 4 = some 0 := by simp [emptyEntries, word32]
  have h8 : word32 emptyEntries 8 = some 0 := by simp [emptyEntries, word32]
  rw [parseFileList_eq toTime fuel rest h4 h8]
  apply parseLines_stuck
  simp [emptyEntries, startPos]

/-! ## What is read -/

/-- The bytes `parseLine` reads: the strings up to their NUL, those given to `sscanf` too, and the ids. -/
inductive LineRead (memory : List UInt8) (line : ℕ) : ℕ → Prop
  | dirBase {i : ℕ} : StringRead memory line i → LineRead memory line i
  | fileBase {i : ℕ} : StringRead memory (line + 8) i → LineRead memory line i
  | dirId {i : ℕ} : line + 16 ≤ i → i < line + 16 + 4 → LineRead memory line i
  | fileId {i : ℕ} : line + 20 ≤ i → i < line + 20 + 4 → LineRead memory line i
  | sha1 {i k : ℕ} : k < 20 → StringRead memory (line + 48 + 5 + 2 * k) i → LineRead memory line i
  | date {i : ℕ} : StringRead memory (line + 96) i → LineRead memory line i
  | clock {i : ℕ} : StringRead memory (line + 96 + 11) i → LineRead memory line i

/-- The loop gets to an entry at `line`, which fits. -/
def LineAt (linelen size start line : ℕ) : Prop := (∃ k, line = start + k * linelen) ∧ line + linelen ≤ size

/-- The bytes `parseFileList` reads: the two words of the header, and its lines. -/
inductive ListRead (buffer rest : List UInt8) : ℕ → Prop
  | linelen {i : ℕ} : 4 ≤ i → i < 4 + 4 → ListRead buffer rest i
  | count {i : ℕ} : 8 ≤ i → i < 8 + 4 → ListRead buffer rest i
  | line {linelen count line i : ℕ} : word32 (buffer ++ rest) 4 = some linelen →
      word32 (buffer ++ rest) 8 = some count → LineAt linelen buffer.length (startPos count) line →
      LineRead (buffer ++ rest) line i → ListRead buffer rest i

section Congr

variable {memory memory' : List UInt8}

/-- A line is made of what is read of it. -/
theorem parseLine_congr (toTime : Tm → ℤ) {line : ℕ} (h : ∀ i, LineRead memory line i → memory[i]? = memory'[i]?) :
    parseLine toTime memory line = parseLine toTime memory' line := by
  have hdir : cString memory line = cString memory' line := cString_congr fun i hi => h i (.dirBase hi)
  have hfile : cString memory (line + 8) = cString memory' (line + 8) := cString_congr fun i hi => h i (.fileBase hi)
  have hdirId : word32 memory (line + 16) = word32 memory' (line + 16) :=
    word32_congr fun i hi hi' => h i (.dirId hi hi')
  have hfileId : word32 memory (line + 20) = word32 memory' (line + 20) :=
    word32_congr fun i hi hi' => h i (.fileId hi hi')
  have hsha1 : parseSha1 memory (line + 48 + 5) = parseSha1 memory' (line + 48 + 5) := by
    apply List.map_congr_left
    intro k hk
    rw [stringAt_congr fun i hi => h i (.sha1 (List.mem_range.mp hk) hi)]
  have hdate : stringAt memory (line + 96) = stringAt memory' (line + 96) :=
    stringAt_congr fun i hi => h i (.date hi)
  have hclock : stringAt memory (line + 96 + 11) = stringAt memory' (line + 96 + 11) :=
    stringAt_congr fun i hi => h i (.clock hi)
  unfold parseLine parseTime
  rw [hdir, hfile, hdirId, hfileId, hsha1, hdate, hclock]

theorem parseLines_congr {α : Type} {parse parse' : ℕ → α} {linelen size : ℕ} (fuel pos : ℕ) (fileList : List α)
    (h : ∀ line, LineAt linelen size pos line → parse line = parse' line) :
    parseLines parse linelen size fuel pos fileList = parseLines parse' linelen size fuel pos fileList := by
  induction fuel generalizing pos fileList with
  | zero => rfl
  | succ fuel ih =>
    unfold parseLines
    by_cases hfits : pos + linelen ≤ size
    · rw [if_pos hfits, if_pos hfits, h pos ⟨⟨0, by omega⟩, hfits⟩]
      apply ih
      rintro line ⟨⟨k, hk⟩, hline⟩
      refine h line ⟨⟨k + 1, ?_⟩, hline⟩
      rw [hk]
      ring
    · rw [if_neg hfits, if_neg hfits]

/-- **The list is made of what is read**, of a buffer of its size. -/
theorem parseFileList_congr (toTime : Tm → ℤ) (fuel : ℕ) {buffer buffer' rest rest' : List UInt8}
    (hsize : buffer.length = buffer'.length)
    (h : ∀ i, ListRead buffer rest i → (buffer ++ rest)[i]? = (buffer' ++ rest')[i]?) :
    parseFileList toTime fuel buffer rest = parseFileList toTime fuel buffer' rest' := by
  have h4 : word32 (buffer ++ rest) 4 = word32 (buffer' ++ rest') 4 :=
    word32_congr fun i hi hi' => h i (.linelen hi hi')
  have h8 : word32 (buffer ++ rest) 8 = word32 (buffer' ++ rest') 8 :=
    word32_congr fun i hi hi' => h i (.count hi hi')
  unfold parseFileList
  rw [← h4, ← h8, ← hsize]
  cases hlinelen : word32 (buffer ++ rest) 4 with
  | none => rfl
  | some linelen =>
    cases hcount : word32 (buffer ++ rest) 8 with
    | none => rfl
    | some count =>
      apply parseLines_congr
      intro line hline
      apply parseLine_congr
      intro i hi
      exact h i (.line hlinelen hcount hline hi)

end Congr

/-- The last entry that fits. -/
def lastLine (linelen size start : ℕ) : ℕ := start + ((size - start) / linelen - 1) * linelen

section Reads

variable {linelen size start line : ℕ}

theorem lineAt_lastLine (hlen : 0 < linelen) (hfits : start + linelen ≤ size) :
    LineAt linelen size start (lastLine linelen size start) := by
  refine ⟨⟨_, rfl⟩, ?_⟩
  have hn : 1 ≤ (size - start) / linelen := (Nat.one_le_div_iff hlen).mpr (by omega)
  have hmul : (size - start) / linelen * linelen ≤ size - start := Nat.div_mul_le_self _ _
  have hsplit : ((size - start) / linelen - 1) * linelen + linelen = (size - start) / linelen * linelen := by
    rw [← Nat.succ_mul]
    congr 1
    omega
  unfold lastLine
  omega

theorem LineAt.le_lastLine (hlen : 0 < linelen) (h : LineAt linelen size start line) :
    start + linelen ≤ size ∧ line ≤ lastLine linelen size start := by
  obtain ⟨⟨k, hk⟩, hfits⟩ := h
  have hstart : start + linelen ≤ size := by
    have := Nat.zero_le (k * linelen)
    omega
  have hkn : k + 1 ≤ (size - start) / linelen := by
    rw [Nat.le_div_iff_mul_le hlen, Nat.succ_mul]
    omega
  refine ⟨hstart, ?_⟩
  rw [hk]
  exact Nat.add_le_add_left (Nat.mul_le_mul_right linelen (by omega)) start

/-- Nothing of a line is read behind a NUL that ends its last string. -/
theorem LineRead.le {memory : List UInt8} {i z : ℕ} (h : LineRead memory line i) (hz : memory[z]? = some 0)
    (hline : line + 107 ≤ z) : i ≤ z := by
  cases h with
  | dirBase h => exact h.le hz (by omega)
  | fileBase h => exact h.le hz (by omega)
  | dirId _ h => omega
  | fileId _ h => omega
  | sha1 hk h => exact h.le hz (by omega)
  | date h => exact h.le hz (by omega)
  | clock h => exact h.le hz (by omega)

end Reads

/-- **Nothing behind the buffer is read** iff a NUL within the buffer ends the
last string of the last entry. -/
theorem parseFileList_reads_iff (buffer rest : List UInt8) {linelen count : ℕ} (h4 : word32 buffer 4 = some linelen)
    (h8 : word32 buffer 8 = some count) (hlen : 0 < linelen) :
    (∀ i, ListRead buffer rest i → i < buffer.length) ↔
      (startPos count + linelen ≤ buffer.length →
        ∃ z, lastLine linelen buffer.length (startPos count) + 107 ≤ z ∧ buffer[z]? = some 0) := by
  constructor
  · intro hin hfits
    have hlast := lineAt_lastLine hlen hfits
    -- where the search for the end of its last string stops
    obtain ⟨z, hz, hread, hnul⟩ : ∃ z, lastLine linelen buffer.length (startPos count) + 107 ≤ z ∧
        StringRead (buffer ++ rest) (lastLine linelen buffer.length (startPos count) + 96 + 11) z ∧
        ∀ b, (buffer ++ rest)[z]? = some b → b = 0 :=
      ⟨_, Nat.le_add_right _ _, stringRead_end (buffer ++ rest) _⟩
    have hzlt : z < buffer.length := by
      apply hin z
      exact .line (word32_buffer rest h4) (word32_buffer rest h8) hlast (.clock hread)
    have hget : buffer[z]? = some buffer[z] := List.getElem?_eq_getElem hzlt
    refine ⟨z, hz, ?_⟩
    rw [hget, hnul _ ((getElem?_buffer rest hzlt).trans hget)]
  · intro hnul i hi
    have hheader := lt_length_of_word32 h8
    cases hi with
    | linelen _ hi => omega
    | count _ hi => omega
    | line h4' h8' hline hread =>
      rw [word32_buffer rest h4] at h4'
      rw [word32_buffer rest h8] at h8'
      cases h4'
      cases h8'
      obtain ⟨hfits, hle⟩ := hline.le_lastLine hlen
      obtain ⟨z, hlast, hz⟩ := hnul hfits
      have hzlt : z < buffer.length := (List.getElem?_eq_some_iff.mp hz).1
      have := hread.le ((getElem?_buffer rest hzlt).trans hz) (by omega)
      omega

/-- One entry of the documented length. -/
def oneEntry : List UInt8 :=
  [0, 0, 0, 0] ++ [124, 0, 0, 0] ++ [0, 0, 0, 0]
    -- PHOTO, IMG and the ids
    ++ [80, 72, 79, 84, 79, 0, 0, 0] ++ [73, 77, 71, 0, 0, 0, 0, 0] ++ [100, 0, 0, 0] ++ [7, 0, 0, 0]
    ++ List.replicate 24 0
    -- sha1-
    ++ [115, 104, 97, 49, 45] ++ List.replicate 40 97 ++ [0, 0, 0]
    -- 2013-02-20T14:15:16.000Z
    ++ [50, 48, 49, 51, 45, 48, 50, 45, 50, 48, 84, 49, 52, 58, 49, 53, 58, 49, 54, 46, 48, 48, 48, 90] ++ [0, 0, 0, 0]

theorem parseFileList_reads_iff_oneEntry :
    (∀ i, ListRead oneEntry [] i → i < oneEntry.length) ↔
      (startPos 0 + 124 ≤ oneEntry.length →
        ∃ z, lastLine 124 oneEntry.length (startPos 0) + 107 ≤ z ∧ oneEntry[z]? = some 0) :=
  parseFileList_reads_iff oneEntry [] (by decide) (by decide) (by decide)

/-- An entry of one byte. -/
def shortEntry : List UInt8 := [0, 0, 0, 0] ++ [1, 0, 0, 0] ++ [0, 0, 0, 0] ++ [0]

/-- The ids of a short entry are read behind the buffer. -/
theorem shortEntry_reads_behind : 12 ≤ shortEntry.length ∧ word32 shortEntry 4 = some 1 ∧
    ∀ rest, ListRead shortEntry rest 28 ∧ ¬ 28 < shortEntry.length := by
  refine ⟨by decide, by decide, fun rest => ⟨?_, by decide⟩⟩
  have h4 : word32 shortEntry 4 = some 1 := by decide
  have h8 : word32 shortEntry 8 = some 0 := by decide
  have hline : LineAt 1 shortEntry.length (startPos 0) 12 := ⟨⟨0, rfl⟩, by decide⟩
  exact .line (word32_buffer rest h4) (word32_buffer rest h8) hline (.dirId (by decide) (by decide))

/-! ## The documented format -/

/-- The names of an entry end, and its hash is hexadecimal. -/
structure WellFormed (buffer : List UInt8) (line : ℕ) : Prop where
  dirBase : ∃ i < 8, buffer[line + i]? = some 0
  fileBase : ∃ i < 8, buffer[line + 8 + i]? = some 0
  sha1 : ∀ i < 40, ∃ b d, buffer[line + 53 + i]? = some b ∧ digitValue 16 b = some d

/-- What is found at `line` is what the photo is constructed from. -/
structure PhotoAt (buffer : List UInt8) (line : ℕ) (photo : Photo) : Prop where
  dirBase : cString buffer line = some photo.dirBase
  fileBase : cString buffer (line + 8) = some photo.fileBase
  dirId : ∃ w, word32 buffer (line + 16) = some w ∧ photo.dirId = toInt w
  fileId : ∃ w, word32 buffer (line + 20) = some w ∧ photo.fileId = toInt w
  sha1_length : photo.sha1.length = 20
  sha1 : ∀ i < 20, ∃ h l a b, buffer[line + 53 + 2 * i]? = some h ∧ buffer[line + 53 + 2 * i + 1]? = some l ∧
    digitValue 16 h = some a ∧ digitValue 16 l = some b ∧ photo.sha1[i]? = some (some (UInt8.ofNat (16 * a + b)))

section Format

variable {buffer : List UInt8} {line : ℕ}

theorem cString_buffer (rest : List UInt8) {q z : ℕ} (hz : buffer[z]? = some 0) (hqz : q ≤ z) :
    cString (buffer ++ rest) q = cString buffer q := by
  symm
  apply cString_congr
  intro i hi
  have hzlt : z < buffer.length := (List.getElem?_eq_some_iff.mp hz).1
  have := hi.le hz hqz
  exact (getElem?_buffer rest (by omega)).symm

theorem ofInt_natCast (n : ℕ) : UInt8.ofInt (n : ℤ) = UInt8.ofNat n := by
  apply UInt8.toNat_inj.mp
  show (UInt8.ofNat ((n : ℤ) % 2 ^ 8).toNat).toNat = (UInt8.ofNat n).toNat
  rw [UInt8.toNat_ofNat', UInt8.toNat_ofNat']
  omega

/-- A pair of hex digits is a byte of the hash. -/
theorem getElem?_parseSha1 {memory : List UInt8} {psha1 i : ℕ} (hi : i < 20) {h l : UInt8} {a b : ℕ}
    (hh : memory[psha1 + 2 * i]? = some h) (hl : memory[psha1 + 2 * i + 1]? = some l) (ha : digitValue 16 h = some a)
    (hb : digitValue 16 l = some b) : (parseSha1 memory psha1)[i]? = some (some (UInt8.ofNat (16 * a + b))) := by
  have hscan := scanInt_hex ha hb (stringAt memory (psha1 + 2 * i + 2))
  rw [← stringAt_cons hl (digitValue_hex hb).2.1, ← stringAt_cons hh (digitValue_hex ha).2.1] at hscan
  unfold parseSha1
  rw [List.getElem?_map, List.getElem?_range hi]
  show some (Option.map _ (scanInt 16 2 (stringAt memory (psha1 + 2 * i)))) = _
  rw [hscan]
  show some (some (UInt8.ofInt ((16 * a + b : ℕ) : ℤ))) = _
  rw [ofInt_natCast]

/-- **A well formed entry** is parsed, and what it says is in the photo. -/
theorem parseLine_wellFormed (toTime : Tm → ℤ) (rest : List UInt8) (hfits : line + 124 ≤ buffer.length)
    (hline : WellFormed buffer line) :
    ∃ photo, parseLine toTime (buffer ++ rest) line = some photo ∧ PhotoAt buffer line photo := by
  obtain ⟨i, hi, hdirNul⟩ := hline.dirBase
  obtain ⟨j, hj, hfileNul⟩ := hline.fileBase
  have hdir := cString_isSome hdirNul (show line ≤ line + i by omega)
  have hfile := cString_isSome hfileNul (show line + 8 ≤ line + 8 + j by omega)
  obtain ⟨dirId, hdirId⟩ := word32_isSome (show line + 16 + 4 ≤ buffer.length by omega)
  obtain ⟨fileId, hfileId⟩ := word32_isSome (show line + 20 + 4 ≤ buffer.length by omega)
  unfold parseLine
  rw [cString_buffer rest hdirNul (by omega), cString_buffer rest hfileNul (by omega), hdir, hfile,
    word32_buffer rest hdirId, word32_buffer rest hfileId]
  refine ⟨{
    dirBase := stringAt buffer line
    dirId := toInt dirId
    fileBase := stringAt buffer (line + 8)
    fileId := toInt fileId
    sha1 := parseSha1 (buffer ++ rest) (line + 48 + 5)
    time := toTime (parseTime (buffer ++ rest) (line + 96)) }, by simp, ?_⟩
  refine ⟨hdir, hfile, ⟨dirId, hdirId, by simp⟩, ⟨fileId, hfileId, by simp⟩, by simp [parseSha1],
    fun k hk => ?_⟩
  obtain ⟨h, a, hh, ha⟩ := hline.sha1 (2 * k) (by omega)
  obtain ⟨l, b, hl, hb⟩ := hline.sha1 (2 * k + 1) (by omega)
  refine ⟨h, l, a, b, hh, hl, ha, hb, ?_⟩
  apply getElem?_parseSha1 hk _ _ ha hb
  · exact (getElem?_buffer rest (by omega)).trans hh
  · exact (getElem?_buffer rest (by omega)).trans hl

end Format

theorem startPos_eq {count : ℕ} (h : 12 + 8 * count < 2 ^ 32) : startPos count = 12 + 8 * count := by
  unfold startPos
  omega

/-- **The documented format.**  A list of well formed entries is parsed, entry by entry. -/
theorem parseFileList_photos (toTime : Tm → ℤ) (buffer rest : List UInt8) {linelen count : ℕ}
    (h4 : word32 buffer 4 = some linelen) (h8 : word32 buffer 8 = some count) (hlen : 124 ≤ linelen)
    (hcount : 12 + 8 * count < 2 ^ 32) (hstart : 12 + 8 * count ≤ buffer.length)
    (hentries : ∀ k < (buffer.length - 12 - 8 * count) / linelen, WellFormed buffer (12 + 8 * count + k * linelen)) :
    ∃ photos, (∀ fuel > (buffer.length - 12 - 8 * count) / linelen,
        parseFileList toTime fuel buffer rest = some photos) ∧
      photos.length = (buffer.length - 12 - 8 * count) / linelen ∧
      ∀ k < (buffer.length - 12 - 8 * count) / linelen,
        ∃ photo, photos[k]? = some (some photo) ∧ PhotoAt buffer (12 + 8 * count + k * linelen) photo := by
  have hsub : buffer.length - 12 - 8 * count = buffer.length - startPos count := by
    rw [startPos_eq hcount]
    omega
  rw [hsub] at hentries ⊢
  refine ⟨(List.range ((buffer.length - startPos count) / linelen)).map fun k =>
    parseLine toTime (buffer ++ rest) (startPos count + k * linelen), fun fuel hfuel => ?_, by simp, fun k hk => ?_⟩
  · rw [parseFileList_eq toTime fuel rest h4 h8]
    exact parseLines_eq (by omega) fuel (startPos count) [] hfuel
  · have hfits : 12 + 8 * count + k * linelen + 124 ≤ buffer.length := by
      have hmul : (k + 1) * linelen ≤ buffer.length - startPos count := (Nat.le_div_iff_mul_le (by omega)).mp hk
      rw [Nat.succ_mul, startPos_eq hcount] at hmul
      omega
    obtain ⟨photo, hphoto, hat⟩ := parseLine_wellFormed toTime rest hfits (hentries k hk)
    refine ⟨photo, ?_, hat⟩
    rw [List.getElem?_map, List.getElem?_range hk, startPos_eq hcount]
    show some (parseLine toTime (buffer ++ rest) (12 + 8 * count + k * linelen)) = _
    rw [hphoto]

theorem wellFormed_oneEntry : WellFormed oneEntry 12 where
  dirBase := ⟨5, by decide, by decide⟩
  fileBase := ⟨3, by decide, by decide⟩
  sha1 i hi := by
    have hdigit : ∀ i < 40, oneEntry[12 + 53 + i]? = some 97 := by decide
    exact ⟨97, 10, hdigit i hi, by decide⟩

theorem parseFileList_photos_oneEntry :
    ∃ photos, (∀ fuel > (oneEntry.length - 12 - 8 * 0) / 124,
        parseFileList (fun _ => 0) fuel oneEntry [] = some photos) ∧
      photos.length = (oneEntry.length - 12 - 8 * 0) / 124 ∧
      ∀ k < (oneEntry.length - 12 - 8 * 0) / 124,
        ∃ photo, photos[k]? = some (some photo) ∧ PhotoAt oneEntry (12 + 8 * 0 + k * 124) photo := by
  have hlength : oneEntry.length = 136 := by rfl
  apply parseFileList_photos (fun _ => 0) oneEntry [] (by decide) (by decide) (by decide) (by decide) (by omega)
  intro k hk
  have hk0 : k = 0 := by omega
  rw [hk0]
  exact wellFormed_oneEntry

end Lyli.Filesystem
