import Mathlib
import Lyli.Base.Locked
import Lyli.Camera

/-!
# Calls from several threads (`camera.cpp`)

Every call holds `cameraAccessMutex` from its first transfer to its last, and
`std::unique_lock` gives it back when a transfer throws.  A step is one transfer.

    the calls that returned are those of a run without threads, in the order they gave the
    mutex back, and each thread's are in its order                              (sessions_sequential)
    a camera that serves each request  →  every call gets its own content, whatever the others
                                          do, and all can return                  (sessions_content)
-/

namespace Lyli.Camera

open Locked

/-! ## Model -/

structure InquiryResponse where
  vendorIdentification : ByteBuffer
  productIdentification : ByteBuffer
  productRevisionLevel : ByteBuffer

/-- The device with what the other calls ask of it. -/
structure Device (σ : Type) extends MSDevice σ where
  /-- the status of a command without data is `PASSED` -/
  commandPassed : UInt8 → CommandBlockWrapper → σ → Bool × σ
  sendInquiry : UInt8 → UInt8 → σ → InquiryResponse × σ
  /-- the next transfer throws, and leaves the device so -/
  fails : σ → Option σ

def cmdUnitReady : CommandBlockWrapper := ⟨0, 0, 0, [0, 0, 0, 0, 0, 0, 0, 0, 0, 0, 0, 0]⟩

def cmdReqInformation : CommandBlockWrapper := ⟨0, 0, 0, [0xc2, 0, 0, 0, 0, 0, 0, 0, 0, 0, 0, 0]⟩

inductive Call
  | isReady
  | getCameraInformation
  | getPictureList
  | getFile (fileName : ByteBuffer)
deriving DecidableEq

/-- What a call has when it gives the mutex back. -/
inductive Response
  | ready (ready : Bool)
  | information (inquiryresponse : InquiryResponse) (inforesponse : ByteBuffer)
  | data (response : ByteBuffer)

/-- The call that `downloadData` works for. -/
inductive Caller
  | information (inquiryresponse : InquiryResponse)
  | other

def Caller.response (result : ByteBuffer) : Caller → Response
  | .information inquiryresponse => .information inquiryresponse result
  | .other => .data result

/-- The next transfer of a call. -/
inductive Transfer
  | unitReady
  | inquiry
  | reqInformation (inquiryresponse : InquiryResponse)
  | reqFilelist
  | reqFile (fileBuf : ByteBuffer)
  | fileName (fileBuf : ByteBuffer)
  | requestStatus
  | getLen (caller : Caller)
  | getData (caller : Caller) (packet : UInt8) (result : ByteBuffer)

section Model

variable {σ : Type} (device : Device σ) (getBuffer : CommandBlockWrapper → ByteBuffer)

/-- One transfer that does not throw. -/
def transfer : Transfer → σ → Outcome Transfer Response × σ
  | .unitReady, s =>
    let (passed, s) := device.commandPassed endpointOut cmdUnitReady s
    (.done (.ready passed), s)
  | .inquiry, s =>
    let (inquiryresponse, s) := device.sendInquiry 0x02 0 s
    (.next (.reqInformation inquiryresponse), s)
  | .reqInformation inquiryresponse, s =>
    (.next (.getLen (.information inquiryresponse)), (device.sendCommand endpointOut cmdReqInformation s).2)
  | .reqFilelist, s => (.next (.getLen .other), (device.sendCommand endpointOut cmdReqFilelist s).2)
  | .reqFile fileBuf, s =>
    (.next (.fileName fileBuf), device.bulkTransferOut endpointOut (getBuffer (cmdReqFile fileBuf.length)) s)
  | .fileName fileBuf, s => (.next .requestStatus, device.bulkTransferOut endpointOut fileBuf s)
  | .requestStatus, s => (.next (.getLen .other), (device.bulkTransferIn endpointIn s).2)
  | .getLen caller, s => (.next (.getData caller 0 []), (device.sendCommand endpointOut cmdGetLen s).2)
  | .getData caller packet result, s =>
    let (response, s) := device.sendCommand endpointOut (cmdGetData packet) s
    let result := result ++ response
    if response.length = 65536 then (.next (.getData caller (packet + 1) result), s)
    else (.done (caller.response result), s)

/-- The section of each call. -/
def sections : Machine σ Call Transfer Response where
  start
    | .isReady => .unitReady
    | .getCameraInformation => .inquiry
    | .getPictureList => .reqFilelist
    | .getFile fileName => .reqFile (fileName ++ [0])
  step next s :=
    match device.fails s with
    | some s => (.thrown, s)
    | none => transfer device getBuffer next s

/-! ## Without threads -/

def isReady (s : σ) : Bool × σ := device.commandPassed endpointOut cmdUnitReady s

/-- Up to the parsing of the response. -/
def getCameraInformation (fuel : ℕ) (s : σ) : Option (InquiryResponse × ByteBuffer × σ) := do
  let (inquiryresponse, s) := device.sendInquiry 0x02 0 s
  let (_, s) := device.sendCommand endpointOut cmdReqInformation s
  let (inforesponse, s) ← downloadData device.toMSDevice fuel s
  return (inquiryresponse, inforesponse, s)

/-- A call that does not throw. -/
def runCall (fuel : ℕ) : Call → σ → Option (Response × σ)
  | .isReady, s => let (ready, s) := isReady device s; some (.ready ready, s)
  | .getCameraInformation, s => do
    let (inquiryresponse, inforesponse, s) ← getCameraInformation device fuel s
    return (.information inquiryresponse inforesponse, s)
  | .getPictureList, s => do
    let (response, s) ← getPictureList device.toMSDevice fuel s
    return (.data response, s)
  | .getFile fileName, s => do
    let (response, s) ← getFile device.toMSDevice getBuffer fileName fuel s
    return (.data response, s)

/-- The calls one after the other; of one that threw, only some transfers were made. -/
inductive InOrder (s : σ) : List (Call × Option Response) → σ → Prop
  | nil : InOrder s [] s
  | returned {calls : List (Call × Option Response)} {s₁ : σ} {c : Call} {fuel : ℕ} {r : Response} {s₂ : σ} :
    InOrder s calls s₁ → runCall device getBuffer fuel c s₁ = some (r, s₂) → InOrder s (calls ++ [(c, some r)]) s₂
  | threw {calls : List (Call × Option Response)} {s₁ : σ} {c : Call} {next : Transfer} {s₂ s₃ : σ} :
    InOrder s calls s₁ → Steps (sections device getBuffer) ((sections device getBuffer).start c) s₁ next s₂ →
      device.fails s₂ = some s₃ → InOrder s (calls ++ [(c, none)]) s₃

end Model

section Sections

variable {σ : Type} {device : Device σ} {getBuffer : CommandBlockWrapper → ByteBuffer}

/-! ## One section -/

theorem transfer_ne_thrown (next : Transfer) (s s' : σ) : transfer device getBuffer next s ≠ (.thrown, s') := by
  cases next with
  | getData caller packet result =>
    unfold transfer
    dsimp only
    split_ifs
    · nofun
    · nofun
  | _ => nofun

theorem step_of_fails {s s' : σ} (h : device.fails s = some s') (next : Transfer) :
    (sections device getBuffer).step next s = (.thrown, s') := by
  show (match device.fails s with | some s => _ | none => _) = _
  rw [h]

theorem step_of_not_fails {s : σ} (h : device.fails s = none) (next : Transfer) :
    (sections device getBuffer).step next s = transfer device getBuffer next s := by
  show (match device.fails s with | some s => _ | none => _) = _
  rw [h]

theorem fails_of_thrown {next : Transfer} {s s' : σ} (h : (sections device getBuffer).step next s = (.thrown, s')) :
    device.fails s = some s' := by
  cases hfails : device.fails s with
  | none =>
    rw [step_of_not_fails hfails] at h
    exact absurd h (transfer_ne_thrown next s s')
  | some s₁ =>
    rw [step_of_fails hfails] at h
    cases h
    rfl

/-- A step that does not throw is its transfer. -/
theorem transfer_of_step {next : Transfer} {s : σ} {o : Outcome Transfer Response × σ}
    (h : (sections device getBuffer).step next s = o) (ho : o.1 ≠ .thrown) : transfer device getBuffer next s = o := by
  cases hfails : device.fails s with
  | none =>
    rw [step_of_not_fails hfails] at h
    exact h
  | some s₁ =>
    rw [step_of_fails hfails] at h
    rw [← h] at ho
    exact absurd rfl ho

/-- The state once the requests before the download are made. -/
def Transfer.requested (device : Device σ) (getBuffer : CommandBlockWrapper → ByteBuffer) : Transfer → σ → σ
  | .inquiry, s => (device.sendCommand endpointOut cmdReqInformation (device.sendInquiry 0x02 0 s).2).2
  | .reqInformation _, s => (device.sendCommand endpointOut cmdReqInformation s).2
  | .reqFilelist, s => (device.sendCommand endpointOut cmdReqFilelist s).2
  | .reqFile fileBuf, s =>
    let s := device.bulkTransferOut endpointOut (getBuffer (cmdReqFile fileBuf.length)) s
    (device.bulkTransferIn endpointIn (device.bulkTransferOut endpointOut fileBuf s)).2
  | .fileName fileBuf, s => (device.bulkTransferIn endpointIn (device.bulkTransferOut endpointOut fileBuf s)).2
  | .requestStatus, s => (device.bulkTransferIn endpointIn s).2
  | .unitReady, s | .getLen _, s | .getData _ _ _, s => s

/-- For whom the download is made. -/
def Transfer.caller (device : Device σ) : Transfer → σ → Caller
  | .inquiry, s => .information (device.sendInquiry 0x02 0 s).1
  | .reqInformation inquiryresponse, _ => .information inquiryresponse
  | .getLen caller, _ | .getData caller _ _, _ => caller
  | .unitReady, _ | .reqFilelist, _ | .reqFile _, _ | .fileName _, _ | .requestStatus, _ => .other

/-- A request of a download, not yet `getLen`. -/
def Transfer.Request : Transfer → Prop
  | .unitReady | .getLen _ | .getData _ _ _ => False
  | _ => True

variable (device getBuffer) in
/-- **One request** leads to the next, or to `getLen`. -/
theorem transfer_request {next : Transfer} (h : next.Request) (s : σ) :
    ∃ next' s₁, transfer device getBuffer next s = (.next next', s₁) ∧ (next'.Request ∨ ∃ caller, next' = .getLen caller) ∧
      next'.requested device getBuffer s₁ = next.requested device getBuffer s ∧
      next'.caller device s₁ = next.caller device s := by
  cases next with
  | unitReady => exact h.elim
  | getLen _ => exact h.elim
  | getData _ _ _ => exact h.elim
  | inquiry => exact ⟨_, _, rfl, Or.inl trivial, rfl, rfl⟩
  | reqInformation inquiryresponse => exact ⟨_, _, rfl, Or.inr ⟨_, rfl⟩, rfl, rfl⟩
  | reqFilelist => exact ⟨_, _, rfl, Or.inr ⟨_, rfl⟩, rfl, rfl⟩
  | reqFile fileBuf => exact ⟨_, _, rfl, Or.inl trivial, rfl, rfl⟩
  | fileName fileBuf => exact ⟨_, _, rfl, Or.inl trivial, rfl, rfl⟩
  | requestStatus => exact ⟨_, _, rfl, Or.inr ⟨_, rfl⟩, rfl, rfl⟩

/-! ## The download of a section -/

/-- The packets from `packet` on are those of `readPackets`. -/
theorem runs_getData {caller : Caller} {packet : UInt8} {result : ByteBuffer} {s s' : σ} {v : Response}
    (h : Runs (sections device getBuffer) (.getData caller packet result) s (some v) s') :
    ∃ fuel bytes, readPackets device.toMSDevice fuel packet result s = some (bytes, s') ∧ v = caller.response bytes := by
  generalize hnext : Transfer.getData caller packet result = next at h
  generalize hr : some v = r at h
  induction h generalizing packet result with
  | @done _ s _ _ hdone =>
    obtain rfl := hnext
    obtain rfl := Option.some.inj hr
    have htransfer := transfer_of_step hdone (by simp)
    unfold transfer at htransfer
    dsimp only at htransfer
    by_cases hfull : (device.sendCommand endpointOut (cmdGetData packet) s).1.length = 65536
    · rw [if_pos hfull] at htransfer
      cases htransfer
    · rw [if_neg hfull] at htransfer
      cases htransfer
      refine ⟨1, result ++ (device.sendCommand endpointOut (cmdGetData packet) s).1, ?_, rfl⟩
      unfold readPackets
      dsimp only
      rw [if_neg hfull]
  | thrown _ => cases hr
  | @next _ s _ _ _ _ hstep hruns ih =>
    obtain rfl := hnext
    have htransfer := transfer_of_step hstep (by simp)
    unfold transfer at htransfer
    dsimp only at htransfer
    by_cases hfull : (device.sendCommand endpointOut (cmdGetData packet) s).1.length = 65536
    · rw [if_pos hfull] at htransfer
      cases htransfer
      obtain ⟨fuel, bytes, hread, hv⟩ := ih rfl hr
      refine ⟨fuel + 1, bytes, ?_, hv⟩
      unfold readPackets
      dsimp only
      rw [if_pos hfull]
      exact hread
    · rw [if_neg hfull] at htransfer
      cases htransfer

theorem runs_getLen {caller : Caller} {s s' : σ} {v : Response}
    (h : Runs (sections device getBuffer) (.getLen caller) s (some v) s') :
    ∃ fuel bytes, downloadData device.toMSDevice fuel s = some (bytes, s') ∧ v = caller.response bytes := by
  cases h with
  | done hdone => cases transfer_of_step hdone nofun
  | next hstep hruns =>
    cases transfer_of_step hstep nofun
    exact runs_getData hruns

/-- **A section that ends** makes its requests and downloads. -/
theorem runs_download {next : Transfer} (hnext : next.Request) {s s' : σ} {v : Response}
    (h : Runs (sections device getBuffer) next s (some v) s') : ∃ fuel bytes,
      downloadData device.toMSDevice fuel (next.requested device getBuffer s) = some (bytes, s') ∧
        v = (next.caller device s).response bytes := by
  generalize hr : some v = r at h
  induction h with
  | done hdone =>
    obtain ⟨next', s₁, htransfer, -⟩ := transfer_request device getBuffer hnext _
    rw [transfer_of_step hdone nofun] at htransfer
    cases htransfer
  | thrown _ => cases hr
  | next hstep hruns ih =>
    obtain ⟨next', s₁, htransfer, hkind, hreq, hcaller⟩ :=
      transfer_request device getBuffer hnext _
    rw [transfer_of_step hstep nofun] at htransfer
    cases htransfer
    rw [← hreq, ← hcaller]
    rcases hkind with hkind | ⟨caller, rfl⟩
    · exact ih hkind hr
    · obtain rfl := hr
      exact runs_getLen hruns

theorem start_request {c : Call} (h : c ≠ .isReady) : ((sections device getBuffer).start c).Request := by
  cases c with
  | isReady => exact absurd rfl h
  | _ => trivial

theorem runCall_eq {c : Call} (h : c ≠ .isReady) (fuel : ℕ) (s : σ) : runCall device getBuffer fuel c s =
    (downloadData device.toMSDevice fuel (((sections device getBuffer).start c).requested device getBuffer s)).map
      fun r => ((((sections device getBuffer).start c).caller device s).response r.1, r.2) := by
  cases c with
  | isReady => exact absurd rfl h
  | getCameraInformation =>
    generalize hd : downloadData device.toMSDevice fuel (Transfer.requested device getBuffer .inquiry s) = d
    show Option.bind (Option.bind (downloadData device.toMSDevice fuel (Transfer.requested device getBuffer .inquiry s))
      _) _ = Option.map _ (downloadData device.toMSDevice fuel (Transfer.requested device getBuffer .inquiry s))
    rw [hd]
    cases d with
    | none => rfl
    | some r => rfl
  | getPictureList =>
    generalize hd : downloadData device.toMSDevice fuel (Transfer.requested device getBuffer .reqFilelist s) = d
    show Option.bind (downloadData device.toMSDevice fuel (Transfer.requested device getBuffer .reqFilelist s)) _ =
      Option.map _ (downloadData device.toMSDevice fuel (Transfer.requested device getBuffer .reqFilelist s))
    rw [hd]
    cases d with
    | none => rfl
    | some r => rfl
  | getFile fileName =>
    generalize hd : downloadData device.toMSDevice fuel
      (Transfer.requested device getBuffer (.reqFile (fileName ++ [0])) s) = d
    show Option.bind (downloadData device.toMSDevice fuel
      (Transfer.requested device getBuffer (.reqFile (fileName ++ [0])) s)) _ = Option.map _
        (downloadData device.toMSDevice fuel (Transfer.requested device getBuffer (.reqFile (fileName ++ [0])) s))
    rw [hd]
    cases d with
    | none => rfl
    | some r => rfl

/-- **A section is its call**, where no transfer throws. -/
theorem runs_runCall {c : Call} {s s' : σ} {v : Response}
    (h : Runs (sections device getBuffer) ((sections device getBuffer).start c) s (some v) s') :
    ∃ fuel, runCall device getBuffer fuel c s = some (v, s') := by
  by_cases hready : c = .isReady
  · subst hready
    cases h with
    | done hdone =>
      cases transfer_of_step hdone nofun
      exact ⟨0, rfl⟩
    | next hstep _ => cases transfer_of_step hstep nofun
  · obtain ⟨fuel, bytes, hdown, rfl⟩ := runs_download (start_request hready) h
    refine ⟨fuel, ?_⟩
    rw [runCall_eq hready, hdown]
    rfl

/-- A section that throws ends with a transfer that fails. -/
theorem runs_threw {next : Transfer} {s s' : σ} (h : Runs (sections device getBuffer) next s none s') :
    ∃ next' s₁, Steps (sections device getBuffer) next s next' s₁ ∧ device.fails s₁ = some s' := by
  generalize hr : (none : Option Response) = r at h
  induction h with
  | done _ => cases hr
  | thrown hthrown => exact ⟨_, _, .refl, fails_of_thrown hthrown⟩
  | next hstep _ ih =>
    obtain ⟨next', s₁, hsteps, hfails⟩ := ih hr
    exact ⟨next', s₁, .trans (.tail .refl hstep) hsteps, hfails⟩

/-- Sections one after the other are calls without threads. -/
theorem inOrder_of_sequential {s s' : σ} {calls : List (Call × Option Response)}
    (h : Sequential (sections device getBuffer) s calls s') : InOrder device getBuffer s calls s' := by
  induction h with
  | nil => exact .nil
  | @snoc _ _ _ r _ _ hruns ih =>
    cases r with
    | none =>
      obtain ⟨next, s₁, hsteps, hfails⟩ := runs_threw hruns
      exact .threw ih hsteps hfails
    | some v =>
      obtain ⟨fuel, hfuel⟩ := runs_runCall hruns
      exact .returned ih hfuel

end Sections

/-! ## A camera with files -/

/-- A camera whose state is the content it serves; the name of a file is the last buffer it gets. -/
def filing (info list : ByteBuffer) (files : ByteBuffer → ByteBuffer) : Device ByteBuffer where
  sendCommand _ cmd selected :=
    match cmd.command with
    | 0xc4 :: _ :: _ :: _ :: _ :: k :: _ => ((selected.drop (65536 * k.toNat)).take 65536, selected)
    | 0xc2 :: _ :: 0 :: _ => ([], info)
    | 0xc2 :: _ :: 2 :: _ => ([], list)
    | _ => ([], selected)
  bulkTransferOut _ buffer _ := files buffer
  bulkTransferIn _ selected := ([], selected)
  commandPassed _ _ selected := (true, selected)
  sendInquiry _ _ selected := (⟨[], [], []⟩, selected)
  fails _ := none

/-- One thread is in the middle of `getPictureList`, the other has its file. -/
theorem reachable_filing : ∃ s, Reachable (sections (filing [1] [2] fun name => name) fun _ => []) []
    [[.getPictureList, .getFile [65]], [.getFile [66]]] s ∧
      s.history = [⟨1, .getFile [66], some (.data [66, 0])⟩] := by
  obtain ⟨s, hs, hhistory⟩ : ∃ s, [Action.call 0, .call 1, .lock 1, .step 1, .step 1, .step 1, .step 1, .step 1,
      .unlock 1, .lock 0, .step 0].foldlM (step (sections (filing [1] [2] fun name => name) fun _ => []))
        (.init [] [[.getPictureList, .getFile [65]], [.getFile [66]]]) = some s ∧
      s.history = [⟨1, .getFile [66], some (.data [66, 0])⟩] := ⟨_, rfl, rfl⟩
  exact ⟨s, Reach.of_foldlM hs, hhistory⟩

/-! ## All threads -/

/-- **Calls from several threads are calls in some order.**  In every state of every run at most one call
talks to the camera; each thread's calls have returned in its order, and with the others they are, in the order
in which they gave the mutex back, a run without threads, with the same results.  That run has led to the state
of the camera whenever the mutex is free. -/
theorem sessions_sequential {σ : Type} (device : Device σ) (getBuffer : CommandBlockWrapper → ByteBuffer)
    (scripts : List (List Call)) (s₀ : σ) (s : State σ Call Transfer Response)
    (hs : Reachable (sections device getBuffer) s₀ scripts s) :
    (∀ t t', (s.phase t).InSection → (s.phase t').InSection → t = t') ∧
      (∀ t, callsOf t s.history ++ (s.phase t).calls ++ s.todo t = scripts[t]?.getD []) ∧
      ∃ s₁, InOrder device getBuffer s₀ (results s.history) s₁ ∧ (s.owner = none → s.shared = s₁) := by
  have hinv := inv_reachable hs
  obtain ⟨s₁, hseq, hshared⟩ := hinv.serial
  refine ⟨fun _ _ => hinv.owner_unique, hinv.script, s₁, inOrder_of_sequential hseq, fun hfree => ?_⟩
  rw [hfree] at hshared
  exact hshared

theorem sessions_sequential_filing : ∃ s : State ByteBuffer Call Transfer Response,
    s.history = [⟨1, .getFile [66], some (.data [66, 0])⟩] ∧
    (∀ t t', (s.phase t).InSection → (s.phase t').InSection → t = t') ∧
    (∀ t, callsOf t s.history ++ (s.phase t).calls ++ s.todo t =
      [[.getPictureList, .getFile [65]], [.getFile [66]]][t]?.getD []) ∧
    ∃ s₁, InOrder (filing [1] [2] fun name => name) (fun _ => []) [] (results s.history) s₁ ∧
      (s.owner = none → s.shared = s₁) := by
  obtain ⟨s, hs, hhistory⟩ := reachable_filing
  exact ⟨s, hhistory, sessions_sequential (filing [1] [2] fun name => name) (fun _ => [])
    [[.getPictureList, .getFile [65]], [.getFile [66]]] [] s hs⟩

/-! ## A camera that serves its requests -/

def Response.bytes : Response → ByteBuffer
  | .ready _ => []
  | .information _ inforesponse => inforesponse
  | .data response => response

/-- From the states `Ready`, after the requests of a call the camera serves its content, and a failing transfer
leaves it `Ready`. -/
structure ServesCalls {σ : Type} (device : Device σ) (getBuffer : CommandBlockWrapper → ByteBuffer) (Ready : σ → Prop)
    (content : Call → ByteBuffer) (P : Call → σ → Prop) : Prop where
  unitReady : ∀ s, Ready s → Ready (isReady device s).2
  requested : ∀ c, c ≠ .isReady → ∀ s, Ready s →
    P c (((sections device getBuffer).start c).requested device getBuffer s)
  serves : ∀ c, c ≠ .isReady → Serves device.toMSDevice (content c) (P c)
  ready : ∀ c s, P c s → Ready s
  failed : ∀ s s', device.fails s = some s' → Ready s'

section Content

variable {σ : Type} {device : Device σ} {getBuffer : CommandBlockWrapper → ByteBuffer} {Ready : σ → Prop}
  {content : Call → ByteBuffer} {P : Call → σ → Prop} (h : ServesCalls device getBuffer Ready content P)

/-- In a download or before it, with `Q` once the requests are made. -/
def Transfer.Downloads (device : Device σ) (getBuffer : CommandBlockWrapper → ByteBuffer) (Q : σ → Prop)
    (next : Transfer) (s : σ) : Prop :=
  next ≠ .unitReady ∧ Q (next.requested device getBuffer s)

theorem ne_unitReady_of_request {next : Transfer} (h : next.Request) : next ≠ .unitReady := by
  rintro rfl
  exact h

/-- A transfer that fails ends a section; so it is enough that the next one leads to an end. -/
theorem ends_next {next next' : Transfer} {s s₁ : σ} (h : transfer device getBuffer next s = (.next next', s₁))
    (hruns : ∃ r s', Runs (sections device getBuffer) next' s₁ r s') :
    ∃ r s', Runs (sections device getBuffer) next s r s' := by
  cases hfails : device.fails s with
  | some s₂ => exact ⟨none, s₂, .thrown (step_of_fails hfails next)⟩
  | none =>
    obtain ⟨r, s', hruns⟩ := hruns
    exact ⟨r, s', .next ((step_of_not_fails hfails next).trans h) hruns⟩

section Serves

variable {bytes : ByteBuffer} {Q : σ → Prop} (hserves : Serves device.toMSDevice bytes Q)

include hserves

theorem downloads_transfer {next : Transfer} {s : σ} (hd : next.Downloads device getBuffer Q s) :
    (∀ next' s', transfer device getBuffer next s = (.next next', s') → next'.Downloads device getBuffer Q s') ∧
      ∀ v s', transfer device getBuffer next s = (.done v, s') → Q s' := by
  by_cases hreq : next.Request
  · obtain ⟨next', s₁, htransfer, hkind, hrequested, -⟩ :=
      transfer_request device getBuffer hreq s
    rw [htransfer]
    refine ⟨fun n s' h => ?_, nofun⟩
    cases h
    refine ⟨?_, hrequested ▸ hd.2⟩
    rcases hkind with hkind | ⟨caller, rfl⟩
    · exact ne_unitReady_of_request hkind
    · nofun
  · cases next with
    | unitReady => exact absurd rfl hd.1
    | getLen caller =>
      refine ⟨fun next' s' h => ?_, nofun⟩
      cases h
      exact ⟨nofun, hserves.length s hd.2⟩
    | getData caller packet result =>
      have hnext := hserves.next packet s hd.2
      unfold transfer
      dsimp only
      split_ifs
      · refine ⟨fun next' s' h => ?_, nofun⟩
        cases h
        exact ⟨nofun, hnext⟩
      · refine ⟨nofun, fun v s' h => ?_⟩
        cases h
        exact hnext
    | _ => exact absurd trivial hreq

/-- **A download ends**: `n` packets are read already. -/
theorem ends_getData (hlen : bytes.length < 2 ^ 24) (caller : Caller) (result : ByteBuffer) (left n : ℕ)
    (hn : 65536 * n ≤ bytes.length) (hleft : bytes.length < 65536 * (n + left)) {s : σ} (hs : Q s) :
    ∃ r s', Runs (sections device getBuffer) (.getData caller (UInt8.ofNat n) result) s r s' := by
  induction left generalizing n result s with
  | zero => omega
  | succ left ih =>
    have hpacket : (UInt8.ofNat n).toNat = n := UInt8.toNat_ofNat_of_lt' (by
      show n < 256
      omega)
    have hdata := hserves.data (UInt8.ofNat n) s hs
    have hnext := hserves.next (UInt8.ofNat n) s hs
    rw [hpacket] at hdata
    cases hfails : device.fails s with
    | some s₁ => exact ⟨none, s₁, .thrown (step_of_fails hfails _)⟩
    | none =>
      by_cases hfull : (device.sendCommand endpointOut (cmdGetData (UInt8.ofNat n)) s).1.length = 65536
      · refine ends_next ?_ (ih (result ++ (device.sendCommand endpointOut (cmdGetData (UInt8.ofNat n)) s).1)
          (n + 1) ?_ (by omega) hnext)
        · unfold transfer
          dsimp only
          rw [if_pos hfull, UInt8.ofNat_add]
          rfl
        · rw [hdata, List.length_take, List.length_drop] at hfull
          omega
      · have hdone : transfer device getBuffer (.getData caller (UInt8.ofNat n) result) s =
            (.done (caller.response (result ++ (device.sendCommand endpointOut (cmdGetData (UInt8.ofNat n)) s).1)),
              (device.sendCommand endpointOut (cmdGetData (UInt8.ofNat n)) s).2) := by
          unfold transfer
          dsimp only
          rw [if_neg hfull]
        exact ⟨_, _, .done ((step_of_not_fails hfails _).trans hdone)⟩

theorem ends_getLen (hlen : bytes.length < 2 ^ 24) (caller : Caller) {s : σ} (hs : Q s) :
    ∃ r s', Runs (sections device getBuffer) (.getLen caller) s r s' :=
  ends_next rfl
    (ends_getData hserves hlen caller [] (bytes.length / 65536 + 1) 0 (Nat.zero_le _) (by omega) (hserves.length s hs))

end Serves

include h

/-- Every call leaves the camera `Ready`. -/
theorem ready_of_runs (c : Call) (s : σ) (r : Option Response) (s' : σ) (hs : Ready s)
    (hruns : Runs (sections device getBuffer) ((sections device getBuffer).start c) s r s') : Ready s' := by
  by_cases hready : c = .isReady
  · subst hready
    cases hruns with
    | done hdone =>
      cases transfer_of_step hdone nofun
      exact h.unitReady s hs
    | thrown hthrown => exact h.failed _ _ (fails_of_thrown hthrown)
    | next hstep _ => cases transfer_of_step hstep nofun
  · refine hruns.inv (I := Transfer.Downloads device getBuffer (P c))
      ⟨ne_unitReady_of_request (start_request hready), h.requested c hready s hs⟩ ?_ ?_ ?_
    · intro next s next' s' hd hstep
      exact (downloads_transfer (h.serves c hready) hd).1 _ _ (transfer_of_step hstep nofun)
    · intro next s v s' hd hstep
      exact h.ready c s' ((downloads_transfer (h.serves c hready) hd).2 _ _ (transfer_of_step hstep nofun))
    · intro next s s' _ hstep
      exact h.failed _ _ (fails_of_thrown hstep)

/-- Every call ends. -/
theorem ends_of_ready {c : Call} (hlen : c ≠ .isReady → (content c).length < 2 ^ 24) (s : σ) (hs : Ready s) :
    ∃ r s', Runs (sections device getBuffer) ((sections device getBuffer).start c) s r s' := by
  cases c with
  | isReady =>
    cases hfails : device.fails s with
    | some s₁ => exact ⟨none, s₁, .thrown (step_of_fails hfails _)⟩
    | none => exact ⟨_, _, .done (step_of_not_fails hfails .unitReady)⟩
  | getCameraInformation =>
    exact ends_next rfl (ends_next rfl
      (ends_getLen (h.serves .getCameraInformation nofun) (hlen nofun) _ (h.requested .getCameraInformation nofun s hs)))
  | getPictureList =>
    exact ends_next rfl (ends_getLen (h.serves .getPictureList nofun) (hlen nofun) _
      (h.requested .getPictureList nofun s hs))
  | getFile fileName =>
    exact ends_next rfl (ends_next rfl (ends_next rfl
      (ends_getLen (h.serves (.getFile fileName) nofun) (hlen nofun) _ (h.requested (.getFile fileName) nofun s hs))))

/-- A call that returns has its content. -/
theorem bytes_of_runs {c : Call} (hc : c ≠ .isReady) {s s' : σ} (hs : Ready s) {v : Response}
    (hruns : Runs (sections device getBuffer) ((sections device getBuffer).start c) s (some v) s') :
    v.bytes = content c := by
  obtain ⟨fuel, bytes, hdown, rfl⟩ := runs_download (start_request hc) hruns
  rw [← downloadData_sound (h.serves c hc) (h.requested c hc s hs) hdown]
  cases ((sections device getBuffer).start c).caller device s with
  | information inquiryresponse => rfl
  | other => rfl

/-- **Every call gets its own content**, whatever the other threads ask for in the meantime, and however many
transfers fail; and every run can go on until all calls have returned, where the packet numbers of their contents
do not wrap. -/
theorem sessions_content (scripts : List (List Call)) (s₀ : σ) (hs₀ : Ready s₀) (s : State σ Call Transfer Response)
    (hs : Reachable (sections device getBuffer) s₀ scripts s) :
    (∀ e ∈ s.history, e.call ≠ .isReady → ∀ v, e.result = some v → v.bytes = content e.call) ∧
      ((∀ c ∈ scripts.flatten, c ≠ .isReady → (content c).length < 2 ^ 24) →
        ∃ u, Reach (step (sections device getBuffer)) (fun _ _ => True) s u ∧ Complete u) := by
  have hinv := inv_reachable hs
  have hkeep := ready_of_runs h
  constructor
  · intro e he hc v hv
    obtain ⟨s₁, hseq, -⟩ := hinv.serial
    obtain ⟨s₂, s₃, hready, hruns⟩ := hseq.results hs₀ hkeep (e.call, e.result) (List.mem_map.mpr ⟨e, he, rfl⟩)
    rw [hv] at hruns
    exact bytes_of_runs h hc hready hruns
  · exact fun hlen => hinv.run_completes hs₀ hkeep fun c hc => ends_of_ready h (hlen c hc)

end Content

def filed (info list : ByteBuffer) (files : ByteBuffer → ByteBuffer) : Call → ByteBuffer
  | .isReady => []
  | .getCameraInformation => info
  | .getPictureList => list
  | .getFile fileName => files (fileName ++ [0])

theorem servesCalls_filing (info list : ByteBuffer) (files : ByteBuffer → ByteBuffer)
    (getBuffer : CommandBlockWrapper → ByteBuffer) :
    ServesCalls (filing info list files) getBuffer (fun _ => True) (filed info list files)
      fun c selected => selected = filed info list files c where
  unitReady _ _ := trivial
  requested c hc s _ := by
    cases c with
    | isReady => exact absurd rfl hc
    | _ => rfl
  serves c _ :=
    { length := fun s hs => hs
      data := fun k s hs => by rw [← hs]; rfl
      next := fun k s hs => hs }
  ready _ _ _ := trivial
  failed _ _ h := by cases h

theorem sessions_content_filing : ∃ s, s.history = [⟨1, .getFile [66], some (.data [66, 0])⟩] ∧
    (∀ e ∈ s.history, e.call ≠ .isReady → ∀ v, e.result = some v → v.bytes = filed [1] [2] (fun name => name) e.call) ∧
    ((∀ c ∈ [[.getPictureList, .getFile [65]], [.getFile [66]]].flatten, c ≠ .isReady →
        (filed [1] [2] (fun name => name) c).length < 2 ^ 24) →
      ∃ u, Reach (step (sections (filing [1] [2] fun name => name) fun _ => [])) (fun _ _ => True) s u ∧ Complete u) := by
  obtain ⟨s, hs, hhistory⟩ := reachable_filing
  exact ⟨s, hhistory, sessions_content (servesCalls_filing [1] [2] (fun name => name) fun _ => [])
    [[.getPictureList, .getFile [65]], [.getFile [66]]] [] trivial s hs⟩

end Lyli.Camera
