import Mathlib

/-!
# `Camera` (`camera.cpp`)

The camera answers commands over USB.  What it serves is read in packets of
65536 bytes until a packet is short.  The device is a parameter: a state, and
what it answers in it.  `none` is a loop that has not ended after `fuel` packets.

    Serves device content P → P s → (downloadData ends with content ↔ content.length < 2 ^ 24)
                                                                    (downloadData_complete_iff)

The packet number is one byte: after packet 255 comes packet 0 again, so larger
contents are read over and over.
-/

namespace Lyli.Camera

/-! ## Model -/

abbrev ByteBuffer := List UInt8

structure CommandBlockWrapper where
  transferLength : ℕ
  flags : UInt8
  lun : UInt8
  command : List UInt8

/-- The mass storage device: what it answers, and its next state. -/
structure MSDevice (σ : Type) where
  sendCommand : UInt8 → CommandBlockWrapper → σ → ByteBuffer × σ
  bulkTransferOut : UInt8 → ByteBuffer → σ → σ
  bulkTransferIn : UInt8 → σ → ByteBuffer × σ

/-- `LIBUSB_ENDPOINT_OUT | 0x02` -/
def endpointOut : UInt8 := 0x00 ||| 0x02

/-- `LIBUSB_ENDPOINT_IN | 0x02` -/
def endpointIn : UInt8 := 0x80 ||| 0x02

def cmdGetLen : CommandBlockWrapper := ⟨65536, 0x80, 0, [0xc6, 0, 0, 0, 0, 0, 0, 0, 0, 0, 0, 0]⟩

def cmdGetData (packet : UInt8) : CommandBlockWrapper := ⟨65536, 0x80, 0, [0xc4, 0, 1, 0, 0, packet, 0, 0, 0, 0, 0, 0]⟩

def cmdReqFilelist : CommandBlockWrapper := ⟨0, 0, 0, [0xc2, 0, 2, 0, 0, 0, 0, 0, 0, 0, 0, 0]⟩

def cmdReqFile (len : ℕ) : CommandBlockWrapper := ⟨len, 0, 0, [0xc2, 0, 1, 0, 0, 0, 0, 0, 0, 0, 0, 0]⟩

variable {σ : Type} (device : MSDevice σ)

/-- The loop of `downloadData`, which counts its packets in an `unsigned char`. -/
def readPackets : ℕ → UInt8 → ByteBuffer → σ → Option (ByteBuffer × σ)
  | 0, _, _, _ => none
  | fuel + 1, packet, result, s =>
    let (response, s) := device.sendCommand endpointOut (cmdGetData packet) s
    let result := result ++ response
    if response.length = 65536 then readPackets fuel (packet + 1) result s else some (result, s)

def downloadData (fuel : ℕ) (s : σ) : Option (ByteBuffer × σ) :=
  -- the expected length is asked for, and not looked at
  let (_, s) := device.sendCommand endpointOut cmdGetLen s
  readPackets device fuel 0 [] s

def getPictureList (fuel : ℕ) (s : σ) : Option (ByteBuffer × σ) :=
  let (_, s) := device.sendCommand endpointOut cmdReqFilelist s
  downloadData device fuel s

/-- The camera is asked for a file; `getBuffer` gives the bytes of a command that is sent as it is. -/
def requestFile (getBuffer : CommandBlockWrapper → ByteBuffer) (fileName : ByteBuffer) (s : σ) : σ :=
  let fileBuf := fileName ++ [0]
  let s := device.bulkTransferOut endpointOut (getBuffer (cmdReqFile fileBuf.length)) s
  let s := device.bulkTransferOut endpointOut fileBuf s
  (device.bulkTransferIn endpointIn s).2

/-- The bytes written to `out`. -/
def getFile (getBuffer : CommandBlockWrapper → ByteBuffer) (fileName : ByteBuffer) (fuel : ℕ) (s : σ) :
    Option (ByteBuffer × σ) := downloadData device fuel (requestFile device getBuffer fileName s)

/-! ## Serving a content -/

/-- In the states `P` the device answers the data command with the packet of the given number. -/
structure Serves (content : ByteBuffer) (P : σ → Prop) : Prop where
  length : ∀ s, P s → P (device.sendCommand endpointOut cmdGetLen s).2
  data : ∀ k s, P s →
    (device.sendCommand endpointOut (cmdGetData k) s).1 = (content.drop (65536 * k.toNat)).take 65536
  next : ∀ k s, P s → P (device.sendCommand endpointOut (cmdGetData k) s).2

/-- More fuel does not change what a loop that ends returns. -/
theorem readPackets_mono {device : MSDevice σ} {fuel : ℕ} (more : ℕ) {packet : UInt8} {result : ByteBuffer} {s : σ}
    {r : ByteBuffer × σ} (h : readPackets device fuel packet result s = some r) :
    readPackets device (fuel + more) packet result s = some r := by
  induction fuel generalizing packet result s with
  | zero => cases h
  | succ fuel ih =>
    rw [show fuel + 1 + more = fuel + more + 1 by omega, readPackets]
    rw [readPackets] at h
    simp only at h ⊢
    by_cases hfull : (device.sendCommand endpointOut (cmdGetData packet) s).1.length = 65536
    · rw [if_pos hfull] at h ⊢
      exact ih h
    · rw [if_neg hfull] at h ⊢
      exact h

section Download

variable {device} {content : ByteBuffer} {P : σ → Prop} (h : Serves device content P)

include h

theorem readPackets_succ {s : σ} (hs : P s) (fuel : ℕ) (packet : UInt8) (result : ByteBuffer) :
    ∃ s', P s' ∧ readPackets device (fuel + 1) packet result s =
      if 65536 * (packet.toNat + 1) ≤ content.length then
        readPackets device fuel (packet + 1) (result ++ (content.drop (65536 * packet.toNat)).take 65536) s'
      else some (result ++ (content.drop (65536 * packet.toNat)).take 65536, s') := by
  refine ⟨_, h.next packet s hs, ?_⟩
  rw [readPackets]
  simp only [h.data packet s hs, List.length_take, List.length_drop]
  by_cases hfull : 65536 * (packet.toNat + 1) ≤ content.length
  · rw [if_pos hfull, if_pos (by omega)]
  · rw [if_neg hfull, if_neg (by omega)]

/-- **The loop is right as long as the packet number does not wrap**: `n` packets are read already. -/
theorem readPackets_complete (hlen : content.length < 2 ^ 24) (fuel n : ℕ) (hn : 65536 * n ≤ content.length)
    (hfuel : content.length < 65536 * (n + fuel)) {s : σ} (hs : P s) :
    ∃ s', readPackets device fuel (UInt8.ofNat n) (content.take (65536 * n)) s = some (content, s') := by
  induction fuel generalizing n s with
  | zero => omega
  | succ fuel ih =>
    have hpacket : (UInt8.ofNat n).toNat = n := UInt8.toNat_ofNat_of_lt' (by
      show n < 256
      omega)
    obtain ⟨s', hs', hstep⟩ := readPackets_succ h hs fuel (UInt8.ofNat n) (content.take (65536 * n))
    rw [hpacket, ← List.take_add] at hstep
    rw [hstep]
    by_cases hfull : 65536 * (n + 1) ≤ content.length
    · rw [if_pos hfull]
      obtain ⟨t, ht⟩ := ih (n + 1) hfull (by omega) hs'
      refine ⟨t, ?_⟩
      rw [← ht, UInt8.ofNat_add]
      rfl
    · rw [if_neg hfull, List.take_of_length_le (by omega)]
      exact ⟨s', rfl⟩

/-- **The loop never ends** where every packet number has a full packet. -/
theorem readPackets_endless (hlen : 2 ^ 24 ≤ content.length) (fuel : ℕ) (packet : UInt8) (result : ByteBuffer) {s : σ}
    (hs : P s) : readPackets device fuel packet result s = none := by
  induction fuel generalizing packet result s with
  | zero => rfl
  | succ fuel ih =>
    obtain ⟨s', hs', hstep⟩ := readPackets_succ h hs fuel packet result
    have hlt : packet.toNat < 256 := packet.toNat_lt
    rw [hstep, if_pos (by omega)]
    exact ih (packet + 1) _ hs'

theorem downloadData_complete (hlen : content.length < 2 ^ 24) {s : σ} (hs : P s) :
    ∃ n, ∀ fuel ≥ n, ∃ s', downloadData device fuel s = some (content, s') := by
  refine ⟨content.length / 65536 + 1, fun fuel hfuel => ?_⟩
  exact readPackets_complete h hlen fuel 0 (Nat.zero_le _) (by omega) (h.length s hs)

theorem downloadData_endless (hlen : 2 ^ 24 ≤ content.length) {s : σ} (hs : P s) (fuel : ℕ) :
    downloadData device fuel s = none := readPackets_endless h hlen fuel 0 [] (h.length s hs)

/-- The loop ends or not, but never with anything else than the content. -/
theorem downloadData_sound {s : σ} (hs : P s) {fuel : ℕ} {result : ByteBuffer} {s' : σ}
    (hd : downloadData device fuel s = some (result, s')) : result = content := by
  have hlen : content.length < 2 ^ 24 := by
    by_contra hlen
    rw [downloadData_endless h (not_lt.mp hlen) hs fuel] at hd
    cases hd
  have hmono : ∀ more, downloadData device (fuel + more) s = some (result, s') := fun more =>
    readPackets_mono more hd
  obtain ⟨n, hn⟩ := downloadData_complete h hlen hs
  obtain ⟨t, ht⟩ := hn (fuel + n) (Nat.le_add_left _ _)
  exact (Prod.mk.inj (Option.some.inj ((hmono n).symm.trans ht))).1

/-- **Download.**  After finitely many packets the content is returned, iff the packet number does not wrap. -/
theorem downloadData_complete_iff {s : σ} (hs : P s) :
    (∃ n, ∀ fuel ≥ n, ∃ s', downloadData device fuel s = some (content, s')) ↔ content.length < 2 ^ 24 := by
  refine ⟨fun ⟨n, hn⟩ => ?_, fun hlen => downloadData_complete h hlen hs⟩
  by_contra hlen
  obtain ⟨s', hs'⟩ := hn n (le_refl n)
  rw [downloadData_endless h (not_lt.mp hlen) hs n] at hs'
  cases hs'

/-- **A file** is written whole, once the camera serves it after the request. -/
theorem getFile_complete (hlen : content.length < 2 ^ 24) (getBuffer : CommandBlockWrapper → ByteBuffer)
    (fileName : ByteBuffer) {s : σ} (hs : P (requestFile device getBuffer fileName s)) :
    ∃ n, ∀ fuel ≥ n, ∃ s', getFile device getBuffer fileName fuel s = some (content, s') :=
  downloadData_complete h hlen hs

theorem getPictureList_complete (hlen : content.length < 2 ^ 24) {s : σ}
    (hs : P (device.sendCommand endpointOut cmdReqFilelist s).2) :
    ∃ n, ∀ fuel ≥ n, ∃ s', getPictureList device fuel s = some (content, s') :=
  downloadData_complete h hlen hs

end Download

/-! ## A camera -/

/-- A camera that serves one content. -/
def serving (content : ByteBuffer) : MSDevice Unit where
  sendCommand _ cmd _ :=
    match cmd.command with
    | op :: _ :: _ :: _ :: _ :: k :: _ => (if op = 0xc4 then (content.drop (65536 * k.toNat)).take 65536 else [], ())
    | _ => ([], ())
  bulkTransferOut _ _ _ := ()
  bulkTransferIn _ _ := ([], ())

theorem serves_serving (content : ByteBuffer) : Serves (serving content) content fun _ => True where
  length _ _ := trivial
  data k _ _ := by
    show (if (0xc4 : UInt8) = 0xc4 then (content.drop (65536 * k.toNat)).take 65536 else []) = _
    rw [if_pos rfl]
  next _ _ _ := trivial

theorem downloadData_complete_iff_serving :
    (∃ n, ∀ fuel ≥ n, ∃ s', downloadData (serving [1, 2, 3]) fuel () = some ([1, 2, 3], s')) ↔
      [1, 2, 3].length < 2 ^ 24 :=
  downloadData_complete_iff (serves_serving [1, 2, 3]) trivial

/-- A file of 16 MiB is read for ever. -/
theorem largeFile_endless : Serves (serving (List.replicate (2 ^ 24) 0)) (List.replicate (2 ^ 24) 0) (fun _ => True) ∧
    ∀ fuel, downloadData (serving (List.replicate (2 ^ 24) 0)) fuel () = none :=
  ⟨serves_serving _, downloadData_endless (serves_serving _) List.length_replicate.ge trivial⟩

end Lyli.Camera
