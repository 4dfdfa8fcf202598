import Mathlib
import Lyli.Base.FoldM
import Lyli.Image.Demosaic

/-!
# `RawImage::RawImage` (`image/rawimage.cpp`)

The stream packs two 12-bit samples in three bytes, big endian.  The constructor
reads three bytes for each pair of neighbouring pixels and stores both samples,
scaled to 16 bits, in the channels of their colors; then it demosaics.

    the stream is packed s … ++ rest  →  sample y * width + x is in its channel of pixel (x, y),
      every other channel is as it was, and rest is left        (unpack_exact)

The invariant ties the stream, the flat position and the pixels to the number of
pairs done, whatever row they are in (`Unpacked.step`).
-/

namespace Lyli.Image

namespace Mat

/-- `data[i] = v` for a `std::size_t` position. -/
def storeAt (m : Mat) (i : ℕ) (v : UInt16) : Option Mat :=
  if i < m.data.size then
    some { m with data := m.data.setIfInBounds i v, size_data := by rw [Array.size_setIfInBounds, m.size_data] }
  else none

end Mat

namespace RawImage

/-! ## Model -/

/-- `std::istream`: the bytes still to come, and the fail bit. -/
structure IStream where
  bytes : List UInt8
  fail : Bool := false

/-- `unsigned char buf[3]`. -/
structure Buf where
  b0 : UInt8
  b1 : UInt8
  b2 : UInt8

/-- `is.read(buf, 3)`: a short read stores what there is and fails, as does every read after it. -/
def IStream.read (is : IStream) (buf : Buf) : IStream × Buf :=
  if is.fail then (is, buf)
  else
    match is.bytes with
    | b0 :: b1 :: b2 :: bytes => ({ bytes }, { b0, b1, b2 })
    | [b0, b1] => ({ bytes := [], fail := true }, { buf with b0, b1 })
    | [b0] => ({ bytes := [], fail := true }, { buf with b0 })
    | [] => ({ bytes := [], fail := true }, buf)

/-- The variables of the constructor's loops. -/
structure Unpack where
  is : IStream
  buf : Buf
  data : Mat
  pos : ℕ := 0

/-- Two pixels, from `x` on. -/
def readPair (u : Unpack) (x y : ℕ) : Option Unpack := do
  let (is, buf) := u.is.read u.buf
  -- mask out the first twelve bits
  let tmp := (buf.b0.toUInt16 <<< 8) ||| (buf.b1 &&& 0xF0).toUInt16
  let data ← u.data.storeAt (u.pos + getColorIndex x y) tmp
  let pos := u.pos + 3
  let x := x + 1
  -- the second 12b
  let tmp := ((buf.b1 &&& 0xF).toUInt16 <<< 12) ||| (buf.b2.toUInt16 <<< 4)
  let data ← data.storeAt (pos + getColorIndex x y) tmp
  return { is, buf, data, pos := pos + 3 }

/-- The loops of the constructor. -/
def unpack (width height : ℕ) (u : Unpack) : Option Unpack :=
  (List.range height).foldlM (fun u y => (steps 0 width).foldlM (fun u x => readPair u x y) u) u

/-- The image and what is left of the stream; `data` and `buf` are what the memory held before. -/
def ofStream (is : IStream) (data : Mat) (buf : Buf) : Option (Mat × IStream) := do
  let u ← unpack data.cols data.rows { is, buf, data }
  let data ← demosaic u.data
  return (data, u.is)

/-! ## Packed samples -/

/-- Two samples of 12 bits in three bytes. -/
def packPair (a b : ℕ) : List UInt8 := [UInt8.ofNat (a / 16), UInt8.ofNat (a % 16 * 16 + b / 256), UInt8.ofNat (b % 256)]

/-- The pairs of samples from the `k`-th on, `n` of them. -/
def packed (s : ℕ → ℕ) (k n : ℕ) : List UInt8 := (List.range' k n).flatMap fun i => packPair (s (2 * i)) (s (2 * i + 1))

theorem packed_succ (s : ℕ → ℕ) (k n : ℕ) :
    packed s k (n + 1) = packPair (s (2 * k)) (s (2 * k + 1)) ++ packed s (k + 1) n := by
  unfold packed
  rw [List.range'_succ, List.flatMap_cons]

theorem length_packed (s : ℕ → ℕ) (k n : ℕ) : (packed s k n).length = 3 * n := by
  induction n generalizing k with
  | zero => rfl
  | succ n ih =>
    rw [packed_succ, List.length_append, ih]
    show 3 + 3 * n = _
    omega

theorem and_high (b : UInt8) : (b &&& 0xF0).toNat = b.toNat / 16 * 16 := by
  have : ∀ n < 256, n &&& 0xF0 = n / 16 * 16 := by decide +kernel
  rw [UInt8.toNat_and]
  exact this b.toNat b.toNat_lt

theorem and_low (b : UInt8) : (b &&& 0xF).toNat = b.toNat % 16 := by
  rw [UInt8.toNat_and]
  exact Nat.and_two_pow_sub_one_eq_mod b.toNat 4

/-- Two parts of a word that do not overlap. -/
theorem or_parts {a b : ℕ} (k : ℕ) (hb : b < 2 ^ k) : a <<< k ||| b = 2 ^ k * a + b := by
  rw [← Nat.shiftLeft_add_eq_or_of_lt hb, Nat.shiftLeft_eq, Nat.mul_comm]

/-- The first sample of three bytes. -/
theorem first_sample {a b : ℕ} (ha : a < 2 ^ 12) (hb : b < 2 ^ 12) :
    ((UInt8.ofNat (a / 16)).toUInt16 <<< 8) ||| (UInt8.ofNat (a % 16 * 16 + b / 256) &&& 0xF0).toUInt16 =
      UInt16.ofNat (16 * a) := by
  apply UInt16.toNat_inj.mp
  rw [UInt16.toNat_or, UInt8.toNat_toUInt16, and_high, UInt16.toNat_shiftLeft, UInt8.toNat_toUInt16]
  show (UInt8.ofNat (a / 16)).toNat <<< 8 % 2 ^ 16 ||| _ = _
  simp only [UInt8.toNat_ofNat', UInt16.toNat_ofNat']
  have h₁ : (a / 16 % 2 ^ 8) <<< 8 % 2 ^ 16 = (a / 16) <<< 8 := by
    rw [Nat.shiftLeft_eq, Nat.shiftLeft_eq]
    omega
  rw [h₁, or_parts 8 (by omega)]
  omega

/-- The second sample of three bytes. -/
theorem second_sample {a b : ℕ} (hb : b < 2 ^ 12) :
    ((UInt8.ofNat (a % 16 * 16 + b / 256) &&& 0xF).toUInt16 <<< 12) ||| ((UInt8.ofNat (b % 256)).toUInt16 <<< 4) =
      UInt16.ofNat (16 * b) := by
  apply UInt16.toNat_inj.mp
  rw [UInt16.toNat_or, UInt16.toNat_shiftLeft, UInt8.toNat_toUInt16, and_low, UInt16.toNat_shiftLeft, UInt8.toNat_toUInt16]
  show ((UInt8.ofNat (a % 16 * 16 + b / 256)).toNat % 16) <<< 12 % 2 ^ 16 |||
    (UInt8.ofNat (b % 256)).toNat <<< 4 % 2 ^ 16 = _
  simp only [UInt8.toNat_ofNat', UInt16.toNat_ofNat']
  have h₁ : ((a % 16 * 16 + b / 256) % 2 ^ 8 % 16) <<< 12 % 2 ^ 16 = (b / 256) <<< 12 := by
    rw [Nat.shiftLeft_eq, Nat.shiftLeft_eq]
    omega
  have h₂ : (b % 256 % 2 ^ 8) <<< 4 % 2 ^ 16 = b % 256 * 16 := by
    rw [Nat.shiftLeft_eq]
    omega
  rw [h₁, h₂, or_parts 12 (by omega)]
  omega

/-! ## The loops -/

/-- After `k` of `n` pairs. -/
structure Unpacked (s : ℕ → ℕ) (n : ℕ) (rest : List UInt8) (data : Mat) (k : ℕ) (u : Unpack) : Prop where
  is : u.is = { bytes := packed s k (n - k) ++ rest }
  pos : u.pos = 6 * k
  rows_eq : u.data.rows = data.rows
  cols_eq : u.data.cols = data.cols
  pixel : ∀ x < data.cols, ∀ y < data.rows, ∀ c < 3, u.data.pixel x y c =
    if y * data.cols + x < 2 * k ∧ c = getColorIndex x y then UInt16.ofNat (16 * s (y * data.cols + x))
    else data.pixel x y c

theorem storeAt_pixel {m : Mat} {i x y c : ℕ} (hx : x < m.cols) (hy : y < m.rows) (hc : c < 3) (hi : i = m.index x y c)
    (v : UInt16) : m.storeAt i v = some (m.setPixel x y c v) := by
  subst hi
  exact if_pos (Mat.index_lt hx hy hc)

/-- A position in row order determines the pixel. -/
theorem position_inj {m : Mat} {x y x' y' : ℕ} (hx : x < m.cols) (hx' : x' < m.cols)
    (h : y * m.cols + x = y' * m.cols + x') : x = x' ∧ y = y' := by
  have hidx : m.index x y 0 = m.index x' y' 0 := by
    unfold Mat.index
    rw [h]
  obtain ⟨hxx, hyy, -⟩ := Mat.index_inj hx hx' (by omega) (by omega) hidx
  exact ⟨hxx, hyy⟩

section Loops

variable {s : ℕ → ℕ} {n : ℕ} {rest : List UInt8} {data : Mat} {u : Unpack}

/-- **One pair**, in any row. -/
theorem Unpacked.step (hs : ∀ i, s i < 2 ^ 12) {x y : ℕ} (hx : x + 1 < data.cols) (hy : y < data.rows) {k : ℕ}
    (hk : 2 * k = y * data.cols + x) (hkn : k < n) (h : Unpacked s n rest data k u) :
    ∃ u', readPair u x y = some u' ∧ Unpacked s n rest data (k + 1) u' := by
  obtain ⟨is, buf, m, pos⟩ := u
  obtain ⟨rfl, rfl, hrows, hcols, hpixel⟩ := h
  simp only at hrows hcols hpixel
  have hn : n - k = n - (k + 1) + 1 := by omega
  -- the bytes of the pair
  have hread : IStream.read { bytes := packed s k (n - k) ++ rest } buf =
      ({ bytes := packed s (k + 1) (n - (k + 1)) ++ rest }, ⟨UInt8.ofNat (s (2 * k) / 16),
        UInt8.ofNat (s (2 * k) % 16 * 16 + s (2 * k + 1) / 256), UInt8.ofNat (s (2 * k + 1) % 256)⟩) := by
    rw [hn, packed_succ]
    rfl
  let m₁ := m.setPixel x y (getColorIndex x y) (UInt16.ofNat (16 * s (2 * k)))
  let m₂ := m₁.setPixel (x + 1) y (getColorIndex (x + 1) y) (UInt16.ofNat (16 * s (2 * k + 1)))
  have hc := getColorIndex_lt x y
  have hc' := getColorIndex_lt (x + 1) y
  have h₁ : m.storeAt (6 * k + getColorIndex x y) (UInt16.ofNat (16 * s (2 * k))) = some m₁ := by
    apply storeAt_pixel (by omega) (by omega) hc
    unfold Mat.index
    rw [hcols]
    omega
  have h₂ : m₁.storeAt (6 * k + 3 + getColorIndex (x + 1) y) (UInt16.ofNat (16 * s (2 * k + 1))) = some m₂ := by
    apply storeAt_pixel (by show x + 1 < m.cols; omega) (by show y < m.rows; omega) hc'
    show _ = (y * m.cols + (x + 1)) * 3 + _
    rw [hcols]
    omega
  have hrun : readPair ⟨⟨packed s k (n - k) ++ rest, false⟩, buf, m, 6 * k⟩ x y =
      some ⟨⟨packed s (k + 1) (n - (k + 1)) ++ rest, false⟩, ⟨UInt8.ofNat (s (2 * k) / 16),
        UInt8.ofNat (s (2 * k) % 16 * 16 + s (2 * k + 1) / 256), UInt8.ofNat (s (2 * k + 1) % 256)⟩, m₂,
        6 * k + 3 + 3⟩ := by
    unfold readPair
    rw [hread]
    simp only [first_sample (hs _) (hs _), second_sample (hs _)]
    rw [h₁]
    simp only [Option.bind_eq_bind, Option.bind_some]
    rw [h₂]
    rfl
  refine ⟨_, hrun, rfl, ?_, hrows, hcols, ?_⟩
  · show 6 * k + 3 + 3 = 6 * (k + 1)
    omega
  · intro x' hx' y' hy' c hcc
    show m₂.pixel x' y' c = _
    have hx₁ : x' < m.cols := by omega
    rw [Mat.setPixel_pixel (m := m₁) (by show x + 1 < m.cols; omega) (by show y < m.rows; omega) hc' _ hx₁ hcc,
      Mat.setPixel_pixel (by omega) (by omega) hc _ hx₁ hcc, hpixel x' hx' y' hy' c hcc]
    by_cases hsecond : x' = x + 1 ∧ y' = y
    · obtain ⟨rfl, rfl⟩ := hsecond
      have hflat : y' * data.cols + (x + 1) = 2 * k + 1 := by omega
      rw [hflat]
      by_cases hcol : c = getColorIndex (x + 1) y'
      · simp [hcol]
        omega
      · simp [hcol]
    · by_cases hfirst : x' = x ∧ y' = y
      · obtain ⟨rfl, rfl⟩ := hfirst
        rw [← hk]
        by_cases hcol : c = getColorIndex x' y'
        · simp [hcol]
        · simp [hcol]
      · have h₁ : y' * data.cols + x' ≠ 2 * k := fun heq =>
          hfirst (position_inj hx' (by omega) (heq.trans hk))
        have h₂ : y' * data.cols + x' ≠ 2 * k + 1 := fun heq =>
          hsecond (position_inj hx' hx (heq.trans (by omega)))
        have hlt : y' * data.cols + x' < 2 * (k + 1) ↔ y' * data.cols + x' < 2 * k := by omega
        rw [if_neg (fun h => hsecond ⟨h.1, h.2.1⟩), if_neg (fun h => hfirst ⟨h.1, h.2.1⟩)]
        simp only [hlt]

theorem range_split {m a : ℕ} {done rest : List ℕ} (h : List.range m = done ++ a :: rest) : a = done.length ∧ a < m := by
  have hget : (List.range m)[done.length]? = some a := by
    rw [h, List.getElem?_append_right le_rfl, Nat.sub_self]
    rfl
  rw [List.getElem?_eq_some_iff] at hget
  obtain ⟨hlt, hget⟩ := hget
  rw [List.getElem_range] at hget
  rw [List.length_range] at hlt
  omega

theorem steps_split {m a : ℕ} {done rest : List ℕ} (h : steps 0 m = done ++ a :: rest) :
    a = 2 * done.length ∧ a < m := by
  have ha : a ∈ steps 0 m := by
    rw [h]
    simp
  have hget : (steps 0 m)[done.length]? = some a := by
    rw [h, List.getElem?_append_right le_rfl, Nat.sub_self]
    rfl
  unfold steps at hget
  rw [List.getElem?_map, Option.map_eq_some_iff] at hget
  obtain ⟨k, hk, rfl⟩ := hget
  rw [List.getElem?_eq_some_iff] at hk
  obtain ⟨hlt, hk⟩ := hk
  rw [List.getElem_range] at hk
  exact ⟨by omega, (mem_steps.mp ha).2.1⟩

/-- **One row** of `w` pairs. -/
theorem Unpacked.row (hs : ∀ i, s i < 2 ^ 12) {w : ℕ} (hw : data.cols = 2 * w) {y : ℕ} (hy : y < data.rows)
    (hn : n = data.rows * w) (h : Unpacked s n rest data (y * w) u) :
    ∃ u', (steps 0 data.cols).foldlM (fun u x => readPair u x y) u = some u' ∧
      Unpacked s n rest data ((y + 1) * w) u' := by
  have hrow : (y + 1) * w ≤ data.rows * w := Nat.mul_le_mul_right w hy
  have hlen : (steps 0 data.cols).length = w := by
    unfold steps
    rw [List.length_map, List.length_range]
    omega
  have hflat : y * data.cols = 2 * (y * w) := by
    rw [hw]
    ring
  rw [Nat.add_mul, Nat.one_mul] at hrow ⊢
  suffices hrun : ∃ u', (steps 0 data.cols).foldlM (fun u x => readPair u x y) u = some u' ∧
      Unpacked s n rest data (y * w + (steps 0 data.cols).length) u' by
    rwa [hlen] at hrun
  refine foldlM_total (fun done u => Unpacked s n rest data (y * w + done.length) u) (by simpa using h) ?_
  intro done x after u hsplit hu
  obtain ⟨hx, hlt⟩ := steps_split hsplit
  have hbound : done.length < w := by
    rw [← hlen, hsplit]
    simp
  obtain ⟨u', hu', hnext⟩ := hu.step hs (x := x) (y := y) (by omega) hy (by omega) (by omega)
  refine ⟨u', hu', ?_⟩
  rw [List.length_append, List.length_singleton, ← Nat.add_assoc]
  exact hnext

end Loops

/-- The samples are stored, scaled to 16 bits; every other channel is as it was, and `rest` is still to be read. -/
structure Stored (s : ℕ → ℕ) (rest : List UInt8) (data : Mat) (u : Unpack) : Prop where
  size : SameSize data u.data
  sample : ∀ x < data.cols, ∀ y < data.rows,
    (u.data.pixel x y (getColorIndex x y)).toNat = 16 * s (y * data.cols + x)
  others : ∀ x < data.cols, ∀ y < data.rows, ∀ c < 3, c ≠ getColorIndex x y → u.data.pixel x y c = data.pixel x y c
  consumed : u.is = { bytes := rest }

/-- **Unpacking is exact** for every even width, and stays inside the array. -/
theorem unpack_exact (s : ℕ → ℕ) (rest : List UInt8) (data : Mat) (buf : Buf) (hs : ∀ i, s i < 2 ^ 12)
    (heven : data.cols % 2 = 0) :
    ∃ u, unpack data.cols data.rows
      { is := { bytes := packed s 0 (data.cols * data.rows / 2) ++ rest }, buf, data } = some u ∧
      Stored s rest data u := by
  obtain ⟨w, hw⟩ : ∃ w, data.cols = 2 * w := ⟨data.cols / 2, by omega⟩
  have hn : data.cols * data.rows / 2 = data.rows * w := by
    rw [hw, Nat.mul_assoc, Nat.mul_div_cancel_left _ (by omega), Nat.mul_comm]
  rw [hn]
  have hstart : Unpacked s (data.rows * w) rest data 0
      { is := { bytes := packed s 0 (data.rows * w) ++ rest }, buf, data } :=
    ⟨rfl, rfl, rfl, rfl, fun x _ y _ c _ => by rw [if_neg (by omega)]⟩
  obtain ⟨u, hu, hdone⟩ := foldlM_total (f := fun u y => (steps 0 data.cols).foldlM (fun u x => readPair u x y) u)
    (l := List.range data.rows) (fun done u => Unpacked s (data.rows * w) rest data (done.length * w) u)
    (by simpa using hstart) (by
      intro done y after u hsplit hu
      obtain ⟨rfl, hy⟩ := range_split hsplit
      obtain ⟨u', hu', hnext⟩ := hu.row hs hw hy rfl
      refine ⟨u', hu', ?_⟩
      rw [List.length_append, List.length_singleton]
      exact hnext)
  rw [List.length_range] at hdone
  have hlast : ∀ x < data.cols, ∀ y < data.rows, y * data.cols + x < 2 * (data.rows * w) := by
    intro x hx y hy
    have hrow : (y + 1) * data.cols ≤ data.rows * data.cols := Nat.mul_le_mul_right data.cols hy
    have hflat : data.rows * data.cols = 2 * (data.rows * w) := by
      rw [hw]
      ring
    rw [Nat.add_mul] at hrow
    omega
  refine ⟨u, hu, ⟨hdone.rows_eq, hdone.cols_eq⟩, ?_, ?_, ?_⟩
  · intro x hx y hy
    have hsample := hs (y * data.cols + x)
    rw [hdone.pixel x hx y hy _ (getColorIndex_lt x y), if_pos ⟨hlast x hx y hy, rfl⟩, UInt16.toNat_ofNat']
    omega
  · intro x hx y hy c hc hne
    rw [hdone.pixel x hx y hy c hc, if_neg fun h => hne h.2]
  · rw [hdone.is, Nat.sub_self]
    rfl

/-- Two rows of two pixels with the samples 1, 2, 3, 4. -/
theorem unpack_exact_two :
    ∃ u, unpack 2 2 ⟨⟨packed (fun i => (i + 1) % 4096) 0 2 ++ [], false⟩, ⟨0, 0, 0⟩, .ofPixels 2 2 fun _ _ _ => 9, 0⟩ =
        some u ∧
      Stored (fun i => (i + 1) % 4096) [] (.ofPixels 2 2 fun _ _ _ => 9) u :=
  unpack_exact (fun i => (i + 1) % 4096) [] (.ofPixels 2 2 fun _ _ _ => 9) ⟨0, 0, 0⟩ (fun _ => Nat.mod_lt _ (by decide))
    (by decide)

/-- **From the stream to the image**: whatever the memory held before, the image is the reference over the samples. -/
theorem ofStream_spec {s : ℕ → ℕ} {rest : List UInt8} {data : Mat} {buf : Buf} (hs : ∀ i, s i < 2 ^ 12)
    (heven : data.cols % 2 = 0) (hrows : 3 ≤ data.rows) (hcols : 3 ≤ data.cols)
    (hfit : IndicesFit data.rows data.cols) :
    ∃ m, ofStream { bytes := packed s 0 (data.cols * data.rows / 2) ++ rest } data buf = some (m, { bytes := rest }) ∧
      Demosaiced (fun x y => UInt16.ofNat (16 * s (y * data.cols + x))) data m := by
  obtain ⟨u, hu, hstored⟩ := unpack_exact s rest data buf hs heven
  obtain ⟨hr, hc⟩ := hstored.size
  have hraw : ∀ x < u.data.cols, ∀ y < u.data.rows,
      u.data.pixel x y (getColorIndex x y) = UInt16.ofNat (16 * s (y * data.cols + x)) := by
    intro x hx y hy
    rw [← hstored.sample x (hc ▸ hx) y (hr ▸ hy), UInt16.ofNat_toNat]
  obtain ⟨m, hm, hspec⟩ := (demosaic_spec_iff _ u.data (hr ▸ hrows) (hc ▸ hcols) hraw).mpr (by rwa [hr, hc])
  refine ⟨m, ?_, ⟨?_, ?_⟩⟩
  · refine Option.bind_eq_some_iff.mpr ⟨u, hu, Option.bind_eq_some_iff.mpr ⟨m, hm, ?_⟩⟩
    show some (m, u.is) = _
    rw [hstored.consumed]
  · exact ⟨hspec.size.1.trans hr, hspec.size.2.trans hc⟩
  · intro x hx y hy c hcc
    rw [hspec.pixel x (hc ▸ hx) y (hr ▸ hy) c hcc, hr, hc]

end RawImage

end Lyli.Image
