import Mathlib
import Lyli.Base.FoldM
import Lyli.Calibration.Serialization

/-!
# Stored calibrations (`ui/config/lyliconfig.cpp`, `CameraCalibrator::onCameraChanged`)

A calibration is stored in a file named by its serial, which is the one its
images name.  A camera that is connected is calibrated if there is no file of
the serial the camera names.  Files hold JSON values, and serials have no slash.

    after any connections: a serial reads the last calibration stored under it, and
      the i-th camera was calibrated ↔ nothing was stored under its serial before  (connections_calibrated)
-/

namespace Lyli.Ui.LyliConfig

open Calibration

/-! ## Model -/

/-- The directory, and its files by their names. -/
structure ConfigDir where
  isReadable : Bool
  files : String → Option Json

def ConfigDir.init : ConfigDir := ⟨false, fun _ => none⟩

def calibrationFile (serial : String) : String := serial ++ ".json"

/-- The calibration of a serial, if there is one; an exception of the JSON library is none at all. -/
noncomputable def readCalibrationData (realToString : ℝ → String) (serial : String) (config : ConfigDir) :
    Option (Option CalibrationData) :=
  if config.isReadable then
    match config.files (calibrationFile serial) with
    | some root => (CalibrationData.deserialize realToString root .default).map some
    | none => some none
  else some none

/-- The directory is made if it is missing. -/
noncomputable def storeCalibrationData (calibration : CalibrationData) (config : ConfigDir) : ConfigDir :=
  ⟨true, Function.update config.files (calibrationFile calibration.serial) (some calibration.serialize)⟩

/-- A camera, by its serial, and what its calibration returns; none if it is cancelled, or the images differ. -/
structure Connection where
  serial : String
  calibration : Option CalibrationData

/-- `onCameraChanged`, with whether the camera is calibrated. -/
noncomputable def onCameraChanged (realToString : ℝ → String) (s : List Bool × ConfigDir) (connection : Connection) :
    Option (List Bool × ConfigDir) := do
  let stored ← readCalibrationData realToString connection.serial s.2
  if stored.isSome then return (s.1 ++ [false], s.2)
  else
    match connection.calibration with
    | some calibration => return (s.1 ++ [true], storeCalibrationData calibration s.2)
    -- the download or the preprocess was cancelled
    | none => return (s.1 ++ [true], s.2)

noncomputable def connectAll (realToString : ℝ → String) (connections : List Connection) :
    Option (List Bool × ConfigDir) := connections.foldlM (onCameraChanged realToString) ([], .init)

/-! ## The store -/

/-- What the calibrated ones of the connections have stored, in order. -/
def stored (connections : List Connection) (calibrated : List Bool) : List CalibrationData :=
  (connections.zip calibrated).filterMap fun p => if p.2 then p.1.calibration else none

/-- The last one of a serial. -/
def lastOf (serial : String) (calibrations : List CalibrationData) : Option CalibrationData :=
  calibrations.reverse.find? fun calibration => calibration.serial = serial

section Store

variable {realToString : ℝ → String} {config : ConfigDir} {calibration : CalibrationData}

theorem calibrationFile_inj {serial serial' : String} :
    calibrationFile serial = calibrationFile serial' ↔ serial = serial' := by
  unfold calibrationFile
  rw [← String.toList_inj, String.toList_append, String.toList_append, List.append_cancel_right_eq, String.toList_inj]

/-- Storing replaces the calibration of one serial. -/
theorem read_store (h : ∀ lens ∈ calibration.lens, CalibrationData.LensEntry lens) {serial : String}
    {found : Option CalibrationData} (hread : readCalibrationData realToString serial config = some found)
    (hfiles : config.isReadable = false → ∀ name, config.files name = none) :
    readCalibrationData realToString serial (storeCalibrationData calibration config) =
      some (if calibration.serial = serial then some calibration else found) := by
  unfold readCalibrationData storeCalibrationData
  rw [if_pos rfl]
  by_cases hserial : calibration.serial = serial
  · subst hserial
    dsimp only
    rw [Function.update_self, if_pos rfl]
    dsimp only
    rw [CalibrationData.roundTrip realToString calibration h]
    rfl
  · have hne : calibrationFile serial ≠ calibrationFile calibration.serial := fun h => hserial (calibrationFile_inj.mp h).symm
    dsimp only
    rw [Function.update_of_ne hne, if_neg hserial, ← hread]
    unfold readCalibrationData
    by_cases hreadable : config.isReadable = true
    · rw [if_pos hreadable]
    · rw [if_neg hreadable, hfiles (Bool.eq_false_iff.mpr hreadable)]

theorem lastOf_concat (serial : String) (calibrations : List CalibrationData) :
    lastOf serial (calibrations ++ [calibration]) =
      if calibration.serial = serial then some calibration else lastOf serial calibrations := by
  unfold lastOf
  rw [List.reverse_append, List.reverse_singleton, List.singleton_append, List.find?_cons]
  by_cases hserial : calibration.serial = serial
  · rw [if_pos hserial, decide_eq_true hserial]
  · rw [if_neg hserial, decide_eq_false hserial]

theorem lastOf_isSome {serial : String} {calibrations : List CalibrationData} :
    (lastOf serial calibrations).isSome = true ↔ ∃ c ∈ calibrations, c.serial = serial := by
  unfold lastOf
  rw [List.find?_isSome]
  simp

end Store

/-! ## All connections -/

section Connections

variable {realToString : ℝ → String} {done : List Connection} {connection : Connection} {calibrated : List Bool}
  {config : ConfigDir}

theorem stored_concat (hlen : done.length = calibrated.length) (b : Bool) :
    stored (done ++ [connection]) (calibrated ++ [b]) =
      stored done calibrated ++ if b then connection.calibration.toList else [] := by
  unfold stored
  rw [List.zip_append hlen, List.filterMap_append]
  congr 1
  cases b with
  | false => rfl
  | true =>
    cases h : connection.calibration with
    | none => simp [h]
    | some calibration => simp [h]

/-- Nothing was stored under the serial of the `i`-th connection before it. -/
def NoneBefore (connections : List Connection) (calibrated : List Bool) (i : ℕ) (serial : String) : Prop :=
  ∀ c ∈ stored (connections.take i) (calibrated.take i), c.serial ≠ serial

/-- The files are those of the calibrations stored so far. -/
structure Stored (realToString : ℝ → String) (done : List Connection) (calibrated : List Bool) (config : ConfigDir) :
    Prop where
  length : done.length = calibrated.length
  files : config.isReadable = false → ∀ name, config.files name = none
  read : ∀ serial, readCalibrationData realToString serial config = some (lastOf serial (stored done calibrated))
  calibrated : ∀ i c, done[i]? = some c → (calibrated[i]? = some true ↔ NoneBefore done calibrated i c.serial)

/-- The connections before the last are as they were. -/
theorem noneBefore_concat (hlen : done.length = calibrated.length) {b : Bool} {i : ℕ} (hi : i ≤ done.length)
    (serial : String) :
    NoneBefore (done ++ [connection]) (calibrated ++ [b]) i serial ↔ NoneBefore done calibrated i serial := by
  unfold NoneBefore
  rw [List.take_append_of_le_length hi, List.take_append_of_le_length (hlen ▸ hi)]

theorem Stored.concat_calibrated (h : Stored realToString done calibrated config) {b : Bool}
    (hb : b = true ↔ ∀ c ∈ stored done calibrated, c.serial ≠ connection.serial) (i : ℕ) (c : Connection)
    (hc : (done ++ [connection])[i]? = some c) :
    (calibrated ++ [b])[i]? = some true ↔ NoneBefore (done ++ [connection]) (calibrated ++ [b]) i c.serial := by
  by_cases hi : i < done.length
  · rw [List.getElem?_append_left hi] at hc
    rw [List.getElem?_append_left (h.length ▸ hi), noneBefore_concat h.length hi.le]
    exact h.calibrated i c hc
  · obtain rfl : i = done.length := by
      have hlt := (List.getElem?_eq_some_iff.mp hc).1
      rw [List.length_append, List.length_singleton] at hlt
      omega
    rw [List.getElem?_concat_length, Option.some.injEq] at hc
    subst hc
    have hlast : (calibrated ++ [b])[done.length]? = some b := by
      rw [h.length, List.getElem?_concat_length]
    rw [hlast, Option.some.injEq, hb, noneBefore_concat h.length le_rfl]
    unfold NoneBefore
    rw [List.take_length, h.length, List.take_length]

variable (connection) in
/-- **One connection.** -/
theorem Stored.step (h : Stored realToString done calibrated config)
    (hentries : ∀ c ∈ connection.calibration, ∀ lens ∈ c.lens, CalibrationData.LensEntry lens) :
    ∃ b config', onCameraChanged realToString (calibrated, config) connection = some (calibrated ++ [b], config') ∧
      Stored realToString (done ++ [connection]) (calibrated ++ [b]) config' := by
  have hread := h.read connection.serial
  have hlen : ∀ b : Bool, (done ++ [connection]).length = (calibrated ++ [b]).length := by
    intro b
    rw [List.length_append, List.length_append, h.length]
    rfl
  unfold onCameraChanged
  rw [hread]
  by_cases hsome : (lastOf connection.serial (stored done calibrated)).isSome = true
  · refine ⟨false, config, if_pos hsome, ⟨hlen _, h.files, fun serial => ?_, h.concat_calibrated ?_⟩⟩
    · rw [stored_concat h.length, if_neg Bool.false_ne_true, List.append_nil]
      exact h.read serial
    · obtain ⟨c, hc, hserial⟩ := lastOf_isSome.mp hsome
      exact ⟨fun hfalse => absurd hfalse Bool.false_ne_true, fun hall => absurd hserial (hall c hc)⟩
  · have hnew : true = true ↔ ∀ c ∈ stored done calibrated, c.serial ≠ connection.serial :=
      ⟨fun _ c hc hserial => hsome (lastOf_isSome.mpr ⟨c, hc, hserial⟩), fun _ => rfl⟩
    cases hcalibration : connection.calibration with
    | none =>
      refine ⟨true, config, ?_, ⟨hlen _, h.files, fun serial => ?_, h.concat_calibrated hnew⟩⟩
      · show (if _ then _ else _) = _
        rw [if_neg hsome]
        rfl
      · rw [stored_concat h.length, if_pos rfl, hcalibration, Option.toList_none, List.append_nil]
        exact h.read serial
    | some calibration =>
      refine ⟨true, storeCalibrationData calibration config, ?_, ⟨hlen _, nofun, fun serial => ?_,
        h.concat_calibrated hnew⟩⟩
      · show (if _ then _ else _) = _
        rw [if_neg hsome]
        rfl
      · rw [stored_concat h.length, if_pos rfl, hcalibration, Option.toList_some, lastOf_concat]
        exact read_store (hentries calibration hcalibration) (h.read serial) h.files

end Connections

/-- **Calibrations are kept by their serials.**  Whatever cameras are connected, no call throws; a serial reads the
last calibration that was stored under it, as it was stored; and a camera is calibrated when it is connected iff
nothing was stored under its serial before. -/
theorem connections_calibrated (realToString : ℝ → String) (connections : List Connection)
    (hentries : ∀ connection ∈ connections, ∀ c ∈ connection.calibration, ∀ lens ∈ c.lens,
      CalibrationData.LensEntry lens) : ∃ calibrated config,
    connectAll realToString connections = some (calibrated, config) ∧
      (∀ serial, readCalibrationData realToString serial config =
        some (lastOf serial (stored connections calibrated))) ∧
      ∀ i connection, connections[i]? = some connection →
        (calibrated[i]? = some true ↔ NoneBefore connections calibrated i connection.serial) := by
  have hstart : Stored realToString [] [] .init := ⟨rfl, fun _ _ => rfl, fun _ => rfl, nofun⟩
  obtain ⟨⟨calibrated, config⟩, hrun, hstored⟩ := foldlM_total (f := onCameraChanged realToString)
    (b := ([], ConfigDir.init)) (l := connections)
    (fun done s => Stored realToString done s.1 s.2) hstart fun done connection rest s hl h => by
      obtain ⟨b, config', hstep, h'⟩ := h.step connection fun c hc lens hlens =>
        hentries connection (hl ▸ List.mem_append_right _ List.mem_cons_self) c hc lens hlens
      exact ⟨_, hstep, h'⟩
  exact ⟨calibrated, config, hrun, hstored.read, hstored.calibrated⟩

/-- A camera that is cancelled, then calibrated, then connected again. -/
def threeTimes : List Connection :=
  [⟨"A4", none⟩, ⟨"A4", some CalibrationData.narrowData⟩, ⟨"A4", none⟩]

theorem connections_calibrated_threeTimes : ∃ calibrated config,
    connectAll (fun _ => "0") threeTimes = some (calibrated, config) ∧
      (∀ serial, readCalibrationData (fun _ => "0") serial config =
        some (lastOf serial (stored threeTimes calibrated))) ∧
      ∀ i connection, threeTimes[i]? = some connection →
        (calibrated[i]? = some true ↔ NoneBefore threeTimes calibrated i connection.serial) := by
  refine connections_calibrated (fun _ => "0") threeTimes fun connection hconnection c hc lens hlens => ?_
  unfold threeTimes at hconnection
  simp only [List.mem_cons, List.not_mem_nil, or_false] at hconnection
  rcases hconnection with rfl | rfl | rfl
  · cases hc
  · obtain rfl := Option.some.inj hc
    rw [List.mem_singleton.mp hlens]
    exact CalibrationData.narrowLens_entry
  · cases hc

end Lyli.Ui.LyliConfig
