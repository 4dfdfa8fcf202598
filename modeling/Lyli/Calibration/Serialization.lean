import Mathlib
import Lyli.Base.Json
import Lyli.Calibration.Calibrator

/-!
# Calibration data as JSON (`calibration/serialization.cpp`, `linegrid.cpp`, `calibrationdata.cpp`)

Each class writes a JSON value and reads it back.  A reader gets the object it
is called on, since the lines of a grid and the lens table are appended to.
`none` is an exception of the JSON library, a failed assertion or a number that
its type does not hold.

    deserialize (serialize d) into a default object = d                          (CalibrationData.roundTrip)
    deserialize v into d = deserialize v into a default object
      ↔ d has no grid lines and no lenses                                        (CalibrationData.deserialize_replaces_iff)
-/

namespace Lyli.Calibration

/-! ## Numbers -/

/-- The rational number a float or double is. -/
noncomputable def ratOf : ℝ → ℚ := Function.invFun Rat.cast

theorem ratOf_cast (q : ℚ) : ratOf q = q := Function.leftInverse_invFun Rat.cast_injective q

/-- `static_cast<int>(subgrid)` -/
def SubGrid.toInt : SubGrid → ℤ
  | .subgridA => 0
  | .subgridB => 1

/-- `static_cast<SubGrid>(n)`, for the values the enumeration has. -/
def SubGrid.ofInt (n : ℤ) : Option SubGrid :=
  if n = 0 then some .subgridA else if n = 1 then some .subgridB else none

/-! ## `cv::Vec2f` and `cv::Mat` -/

def serializeVec (vec : ℝ × ℝ) : Json := .array [.real vec.1, .real vec.2]

noncomputable def deserializeVec (value : Json) : Option (ℝ × ℝ) := do
  let x ← (← value.index 0).asFloat
  let y ← (← value.index 1).asFloat
  return (x, y)

namespace Mat

noncomputable def serialize (mat : Mat) : Json :=
  .array ((List.finRange mat.rows).map fun i => .array ((List.finRange mat.cols).map fun j => .real (mat.data i j)))

/-- A matrix whose entries are all defined. -/
def ofEntries (rows cols : ℕ) (entry : ℕ → ℕ → Option ℚ) : Option Mat :=
  if h : ∀ (i : Fin rows) (j : Fin cols), (entry i j).isSome then
    some ⟨rows, cols, fun i j => (entry i j).get (h i j)⟩
  else none

noncomputable def deserialize (value : Json) : Option Mat := do
  let first ← value.index 0
  if value.isArray ∧ value.size ≠ 0 ∧ first.isArray then
    ofEntries value.size first.size fun i j => do
      let x ← (← (← value.index i).index j).asDouble
      return ratOf x
  else none

end Mat

/-! ## `LineGrid` -/

namespace LineGrid

noncomputable def Line.serialize (line : Line) : Json :=
  .object (Json.members [("subgrid", .int line.subgrid.toInt), ("position", .real line.position)])

noncomputable def Line.deserialize (value : Json) : Option Line := do
  let subgrid ← SubGrid.ofInt (← (← value.member "subgrid").asInt)
  let position ← (← value.member "position").asFloat
  return ⟨subgrid, ratOf position⟩

noncomputable def serialize (grid : LineGrid) : Json :=
  .object (Json.members [("horizontal", .array (grid.horizonalLines.map Line.serialize)),
    ("vertical", .array (grid.verticalLines.map Line.serialize))])

/-- The lines are appended to those of `grid`. -/
noncomputable def deserialize (value : Json) (grid : LineGrid) : Option LineGrid := do
  let horizontal ← (← value.member "horizontal").mapItems Line.deserialize
  let vertical ← (← value.member "vertical").mapItems Line.deserialize
  return ⟨grid.horizonalLines ++ horizontal, grid.verticalLines ++ vertical⟩

end LineGrid

/-! ## `calibrationdata.cpp` -/

namespace ArrayParameters

noncomputable def serialize (array : ArrayParameters) : Json :=
  .object (Json.members [("translation", serializeVec array.translation), ("rotation", .real array.rotation),
    ("grid", array.grid.serialize)])

noncomputable def deserialize (value : Json) (array : ArrayParameters) : Option ArrayParameters := do
  let translation ← deserializeVec (← value.member "translation")
  let rotation ← (← value.member "rotation").asDouble
  let grid ← LineGrid.deserialize (← value.member "grid") array.grid
  return ⟨grid, translation, rotation⟩

end ArrayParameters

namespace LensParameters

noncomputable def serialize (parameters : LensParameters) : Json :=
  .object (Json.members [("cameraMatrix", parameters.cameraMatrix.serialize),
    ("distCoeffs", parameters.distCoeffs.serialize)])

noncomputable def deserialize (value : Json) : Option LensParameters := do
  let cameraMatrix ← Mat.deserialize (← value.member "cameraMatrix")
  let distCoeffs ← Mat.deserialize (← value.member "distCoeffs")
  return ⟨cameraMatrix, distCoeffs⟩

end LensParameters

namespace LensConfiguration

def serialize (configuration : LensConfiguration) : Json :=
  .object (Json.members [("zoomStep", .int configuration.zoomStep), ("focusStep", .int configuration.focusStep)])

/-- The steps are read as doubles, and converted to `int`. -/
noncomputable def deserialize (value : Json) : Option LensConfiguration := do
  let zoom ← (← value.member "zoomStep").asDouble
  let focus ← (← value.member "focusStep").asDouble
  return ⟨← Json.toInt (Json.truncate zoom), ← Json.toInt (Json.truncate focus)⟩

end LensConfiguration

namespace CalibrationData

/-- A default-constructed object. -/
def default : CalibrationData := ⟨"", ⟨⟨[], []⟩, (0, 0), 0⟩, []⟩

/-- The constructor sorts the lens table. -/
def make (S : StdSort) (serial : String) (array : ArrayParameters) (lens : List (LensConfiguration × LensParameters)) :
    CalibrationData := ⟨serial, array, S.sort Calibrator.lensLess lens⟩

noncomputable def serializeLens (lens : LensConfiguration × LensParameters) : Json :=
  .object (Json.members [("configuration", lens.1.serialize), ("parameters", lens.2.serialize)])

noncomputable def deserializeLens (value : Json) : Option (LensConfiguration × LensParameters) := do
  let configuration ← LensConfiguration.deserialize (← value.member "configuration")
  let parameters ← LensParameters.deserialize (← value.member "parameters")
  return (configuration, parameters)

noncomputable def serialize (data : CalibrationData) : Json :=
  .object (Json.members [("serial", .string data.serial), ("array", data.array.serialize),
    ("lens", .array (data.lens.map serializeLens))])

/-- The lens table is appended to. -/
noncomputable def deserialize (realToString : ℝ → String) (value : Json) (data : CalibrationData) :
    Option CalibrationData := do
  let serial ← (← value.member "serial").asString realToString
  let array ← ArrayParameters.deserialize (← value.member "array") data.array
  let lens ← (← value.member "lens").mapItems deserializeLens
  return ⟨serial, array, data.lens ++ lens⟩

end CalibrationData

/-! ## Round trips -/

theorem SubGrid.ofInt_toInt (subgrid : SubGrid) : SubGrid.ofInt subgrid.toInt = some subgrid := by
  cases subgrid
  · rfl
  · rfl

theorem SubGrid.isInt_toInt (subgrid : SubGrid) : Json.IsInt subgrid.toInt := by
  cases subgrid
  · decide
  · decide

theorem Mat.ofEntries_eq (mat : Mat) {entry : ℕ → ℕ → Option ℚ}
    (h : ∀ (i : Fin mat.rows) (j : Fin mat.cols), entry i j = some (mat.data i j)) :
    Mat.ofEntries mat.rows mat.cols entry = some mat := by
  have hsome : ∀ (i : Fin mat.rows) (j : Fin mat.cols), (entry i j).isSome := fun i j => by
    rw [h i j]
    rfl
  unfold Mat.ofEntries
  rw [dif_pos hsome]
  congr 1
  obtain ⟨rows, cols, data⟩ := mat
  congr 1
  funext i j
  exact Option.get_of_eq_some _ (h i j)

/-- **Matrices** with at least one row; there may be no columns. -/
theorem Mat.roundTrip (mat : Mat) (h : mat.rows ≠ 0) : Mat.deserialize mat.serialize = some mat := by
  have hrow : ∀ i : Fin mat.rows, mat.serialize.index i =
      some (.array ((List.finRange mat.cols).map fun j => .real (mat.data i j))) := Json.index_finRange _
  have hrows : mat.serialize.size = mat.rows := Json.size_finRange _
  unfold Mat.deserialize
  rw [hrow ⟨0, Nat.pos_of_ne_zero h⟩, hrows]
  show (if _ then Mat.ofEntries _ _ _ else none) = _
  rw [if_pos ⟨rfl, h, rfl⟩, Json.size_finRange]
  apply Mat.ofEntries_eq mat
  intro i j
  refine Option.bind_eq_some_iff.mpr ⟨_, hrow i, Option.bind_eq_some_iff.mpr ⟨_, Json.index_finRange _ j, ?_⟩⟩
  show some (ratOf (mat.data i j : ℝ)) = _
  rw [ratOf_cast]

theorem LineGrid.Line.roundTrip (line : LineGrid.Line) : LineGrid.Line.deserialize line.serialize = some line := by
  have hsubgrid : line.serialize.member "subgrid" = some (.int line.subgrid.toInt) := Json.member_members rfl
  have hposition : line.serialize.member "position" = some (.real line.position) := Json.member_members rfl
  unfold LineGrid.Line.deserialize
  rw [hsubgrid, hposition]
  show (Json.toInt line.subgrid.toInt >>= fun n => SubGrid.ofInt n >>= _) = _
  rw [Json.toInt_of_isInt line.subgrid.isInt_toInt]
  show (SubGrid.ofInt line.subgrid.toInt >>= _) = _
  rw [SubGrid.ofInt_toInt]
  show some (LineGrid.Line.mk line.subgrid (ratOf (line.position : ℝ))) = _
  rw [ratOf_cast]

theorem LineGrid.roundTrip (grid : LineGrid) : LineGrid.deserialize grid.serialize ⟨[], []⟩ = some grid := by
  have hhorizontal : grid.serialize.member "horizontal" = some (.array (grid.horizonalLines.map Line.serialize)) :=
    Json.member_members rfl
  have hvertical : grid.serialize.member "vertical" = some (.array (grid.verticalLines.map Line.serialize)) :=
    Json.member_members rfl
  have hlines : ∀ lines : List Line, (Json.array (lines.map Line.serialize)).mapItems Line.deserialize = some lines :=
    fun lines => Json.mapItems_array fun line _ => line.roundTrip
  unfold LineGrid.deserialize
  rw [hhorizontal, hvertical]
  show ((Json.array _).mapItems Line.deserialize).bind _ = _
  rw [hlines, Option.bind_some]
  show ((Json.array _).mapItems Line.deserialize).bind _ = _
  rw [hlines]
  rfl

theorem ArrayParameters.roundTrip (array : ArrayParameters) :
    ArrayParameters.deserialize array.serialize CalibrationData.default.array = some array := by
  have htranslation : array.serialize.member "translation" = some (serializeVec array.translation) :=
    Json.member_members rfl
  have hrotation : array.serialize.member "rotation" = some (.real array.rotation) := Json.member_members rfl
  have hgrid : array.serialize.member "grid" = some array.grid.serialize := Json.member_members rfl
  unfold ArrayParameters.deserialize
  rw [htranslation, hrotation, hgrid]
  show (LineGrid.deserialize array.grid.serialize ⟨[], []⟩).bind _ = _
  rw [LineGrid.roundTrip]
  rfl

/-- The `int`s go through `double` unchanged. -/
theorem LensConfiguration.roundTrip (configuration : LensConfiguration) (hz : Json.IsInt configuration.zoomStep)
    (hf : Json.IsInt configuration.focusStep) :
    LensConfiguration.deserialize configuration.serialize = some configuration := by
  have hzoom : configuration.serialize.member "zoomStep" = some (.int configuration.zoomStep) := Json.member_members rfl
  have hfocus : configuration.serialize.member "focusStep" = some (.int configuration.focusStep) := Json.member_members rfl
  unfold LensConfiguration.deserialize
  rw [hzoom, hfocus]
  show (Json.toInt (Json.truncate (configuration.zoomStep : ℝ))).bind _ = _
  rw [Json.truncate_intCast, Json.toInt_of_isInt hz, Option.bind_some]
  show (Json.toInt (Json.truncate (configuration.focusStep : ℝ))).bind _ = _
  rw [Json.truncate_intCast, Json.toInt_of_isInt hf]
  rfl

theorem LensParameters.roundTrip (parameters : LensParameters) (hc : parameters.cameraMatrix.rows ≠ 0)
    (hd : parameters.distCoeffs.rows ≠ 0) : LensParameters.deserialize parameters.serialize = some parameters := by
  have hcamera : parameters.serialize.member "cameraMatrix" = some parameters.cameraMatrix.serialize :=
    Json.member_members rfl
  have hdist : parameters.serialize.member "distCoeffs" = some parameters.distCoeffs.serialize := Json.member_members rfl
  unfold LensParameters.deserialize
  rw [hcamera, hdist]
  show (Mat.deserialize parameters.cameraMatrix.serialize).bind _ = _
  rw [Mat.roundTrip _ hc, Option.bind_some]
  show (Mat.deserialize parameters.distCoeffs.serialize).bind _ = _
  rw [Mat.roundTrip _ hd]
  rfl

namespace CalibrationData

/-- An entry of a lens table: the steps are `int`s, and the matrices have a row. -/
structure LensEntry (lens : LensConfiguration × LensParameters) : Prop where
  zoomStep : Json.IsInt lens.1.zoomStep
  focusStep : Json.IsInt lens.1.focusStep
  cameraMatrix : lens.2.cameraMatrix.rows ≠ 0
  distCoeffs : lens.2.distCoeffs.rows ≠ 0

theorem lens_roundTrip {lens : LensConfiguration × LensParameters} (h : LensEntry lens) :
    deserializeLens (serializeLens lens) = some lens := by
  have hconfiguration : (serializeLens lens).member "configuration" = some lens.1.serialize := Json.member_members rfl
  have hparameters : (serializeLens lens).member "parameters" = some lens.2.serialize := Json.member_members rfl
  unfold deserializeLens
  rw [hconfiguration, hparameters]
  show (LensConfiguration.deserialize lens.1.serialize).bind _ = _
  rw [LensConfiguration.roundTrip _ h.zoomStep h.focusStep, Option.bind_some]
  show (LensParameters.deserialize lens.2.serialize).bind _ = _
  rw [LensParameters.roundTrip _ h.cameraMatrix h.distCoeffs]
  rfl

theorem roundTrip (realToString : ℝ → String) (data : CalibrationData) (h : ∀ lens ∈ data.lens, LensEntry lens) :
    deserialize realToString data.serialize default = some data := by
  have hserial : data.serialize.member "serial" = some (.string data.serial) := Json.member_members rfl
  have harray : data.serialize.member "array" = some data.array.serialize := Json.member_members rfl
  have hlens : data.serialize.member "lens" = some (.array (data.lens.map serializeLens)) := Json.member_members rfl
  unfold deserialize
  rw [hserial, harray, hlens]
  show (ArrayParameters.deserialize data.array.serialize default.array).bind _ = _
  rw [ArrayParameters.roundTrip, Option.bind_some]
  show ((Json.array (data.lens.map serializeLens)).mapItems deserializeLens).bind _ = _
  rw [Json.mapItems_array fun lens hlens => lens_roundTrip (h lens hlens)]
  rfl

/-- **Calibration data** is read back as it was written, and writes the same value again. -/
theorem deserialize_serialize (S : StdSort) (realToString : ℝ → String) (serial : String) (array : ArrayParameters)
    (lens : List (LensConfiguration × LensParameters)) (h : ∀ l ∈ lens, LensEntry l) :
    ∃ data, deserialize realToString (make S serial array lens).serialize default = some data ∧
      data = make S serial array lens ∧ data.serialize = (make S serial array lens).serialize :=
  ⟨_, roundTrip realToString _ fun l hl => h l ((S.mem_sort _ _ _).mp hl), rfl, rfl⟩

theorem calibrate_lens {S : StdSort} {H : HashOrder} {fitLine : FitLine} {c : Calibrator} {data : CalibrationData}
    (h : Calibrator.calibrate S H fitLine c = some data) : data.lens = c.lensCalib S H := by
  obtain ⟨⟨grid, mappers⟩, -, h⟩ := Option.bind_eq_some_iff.mp h
  obtain ⟨rotation, -, h⟩ := Option.bind_eq_some_iff.mp h
  obtain ⟨translation, -, h⟩ := Option.bind_eq_some_iff.mp h
  rw [← Option.some.inj h]

/-- **What `calibrate` returns** can be saved and loaded. -/
theorem calibrate_roundTrip (realToString : ℝ → String) {S : StdSort} {H : HashOrder} {fitLine : FitLine} {c : Calibrator}
    {data : CalibrationData} (h : Calibrator.calibrate S H fitLine c = some data)
    (hint : ∀ cluster ∈ c.clusterMap, Json.IsInt cluster.1.zoomstep ∧ Json.IsInt cluster.1.focusstep) :
    deserialize realToString data.serialize default = some data := by
  apply roundTrip realToString data
  intro l hl
  rw [calibrate_lens h] at hl
  obtain ⟨cluster, hcluster, rfl⟩ := List.mem_map.mp ((S.mem_sort _ _ _).mp hl)
  obtain ⟨hz, hf⟩ := hint cluster ((H.perm _).mem_iff.mp hcluster)
  exact ⟨hz, hf, three_ne_zero, OfNat.ofNat_ne_zero 8⟩

/-- A lens with a matrix without columns. -/
def narrowLens : LensConfiguration × LensParameters := (⟨2, -1⟩, ⟨⟨1, 0, 0⟩, ⟨1, 1, !![1 / 2]⟩⟩)

theorem narrowLens_entry : LensEntry narrowLens := ⟨by decide, by decide, by decide, by decide⟩

theorem deserialize_serialize_narrow :
    ∃ data, deserialize (fun _ => "0") (make .insertion "A4" ⟨⟨[⟨.subgridA, 1⟩], []⟩, (1, 2), 3⟩ [narrowLens]).serialize
        default = some data ∧
      data = make .insertion "A4" ⟨⟨[⟨.subgridA, 1⟩], []⟩, (1, 2), 3⟩ [narrowLens] ∧
      data.serialize = (make .insertion "A4" ⟨⟨[⟨.subgridA, 1⟩], []⟩, (1, 2), 3⟩ [narrowLens]).serialize :=
  deserialize_serialize .insertion (fun _ => "0") "A4" ⟨⟨[⟨.subgridA, 1⟩], []⟩, (1, 2), 3⟩ [narrowLens] (fun l hl => by
    rw [List.mem_singleton.mp hl]
    exact narrowLens_entry)

end CalibrationData

/-! ## Reading into an object that is not fresh -/

theorem LineGrid.deserialize_append (value : Json) (grid : LineGrid) :
    deserialize value grid = (deserialize value ⟨[], []⟩).map fun fresh =>
      ⟨grid.horizonalLines ++ fresh.horizonalLines, grid.verticalLines ++ fresh.verticalLines⟩ := by
  unfold deserialize
  simp only [Option.bind_eq_bind, Option.map_bind, Option.pure_def, Function.comp_def, Option.map_some,
    List.nil_append]

theorem LineGrid.deserialize_lengths {value : Json} {grid : LineGrid} (h : deserialize value ⟨[], []⟩ = some grid) :
    (value.member "horizontal").map Json.size = some grid.horizonalLines.length ∧
      (value.member "vertical").map Json.size = some grid.verticalLines.length := by
  obtain ⟨horizontal, hh, h⟩ := Option.bind_eq_some_iff.mp h
  obtain ⟨lines, hlines, h⟩ := Option.bind_eq_some_iff.mp h
  obtain ⟨vertical, hv, h⟩ := Option.bind_eq_some_iff.mp h
  obtain ⟨lines', hlines', h⟩ := Option.bind_eq_some_iff.mp h
  rw [← Option.some.inj h, hh, hv]
  simp [Json.length_mapItems hlines, Json.length_mapItems hlines']

theorem ArrayParameters.deserialize_append (value : Json) (array : ArrayParameters) :
    deserialize value array = (deserialize value CalibrationData.default.array).map fun fresh =>
      { fresh with grid := ⟨array.grid.horizonalLines ++ fresh.grid.horizonalLines,
                            array.grid.verticalLines ++ fresh.grid.verticalLines⟩ } := by
  unfold deserialize
  simp only [Option.bind_eq_bind, Option.map_bind, Option.pure_def, Function.comp_def, Option.map_some]
  simp only [LineGrid.deserialize_append _ array.grid, Option.bind_map, Function.comp_def]
  rfl

namespace CalibrationData

/-- `data` after a value was read into it that gives `fresh` in a default object: the lists have grown,
the rest is replaced. -/
def appendTo (data fresh : CalibrationData) : CalibrationData :=
  ⟨fresh.serial,
    { fresh.array with
      grid := ⟨data.array.grid.horizonalLines ++ fresh.array.grid.horizonalLines,
        data.array.grid.verticalLines ++ fresh.array.grid.verticalLines⟩ },
    data.lens ++ fresh.lens⟩

theorem deserialize_append (realToString : ℝ → String) (value : Json) (data : CalibrationData) :
    deserialize realToString value data = (deserialize realToString value default).map data.appendTo := by
  unfold deserialize
  simp only [Option.bind_eq_bind, Option.map_bind, Option.pure_def, Function.comp_def, Option.map_some]
  simp only [ArrayParameters.deserialize_append _ data.array, Option.bind_map, Function.comp_def]
  rfl

/-- Nothing is appended: a list of a grid or a table that was empty stays the new one. -/
theorem appendTo_eq_right_iff {data fresh : CalibrationData} :
    data.appendTo fresh = fresh ↔ data.array.grid = ⟨[], []⟩ ∧ data.lens = [] := by
  obtain ⟨serial, ⟨⟨hor, ver⟩, translation, rotation⟩, lens⟩ := data
  obtain ⟨serial', ⟨⟨hor', ver'⟩, translation', rotation'⟩, lens'⟩ := fresh
  simp [appendTo]

theorem appendTo_appendTo_iff {data fresh : CalibrationData} :
    (data.appendTo fresh).appendTo fresh = data.appendTo fresh ↔ fresh.array.grid = ⟨[], []⟩ ∧ fresh.lens = [] := by
  obtain ⟨serial, ⟨⟨hor, ver⟩, translation, rotation⟩, lens⟩ := data
  obtain ⟨serial', ⟨⟨hor', ver'⟩, translation', rotation'⟩, lens'⟩ := fresh
  simp [appendTo]

/-- How many items the list `key` of the grid has. -/
def gridSize (key : String) (value : Json) : Option ℕ := do
  let array ← value.member "array"
  let grid ← array.member "grid"
  let list ← grid.member key
  return list.size

/-- The value lists no grid line and no lens. -/
def ListsNothing (value : Json) : Prop :=
  gridSize "horizontal" value = some 0 ∧ gridSize "vertical" value = some 0 ∧
    (value.member "lens").map Json.size = some 0

theorem listsNothing_iff {realToString : ℝ → String} {value : Json} {fresh : CalibrationData}
    (h : deserialize realToString value default = some fresh) :
    ListsNothing value ↔ fresh.array.grid = ⟨[], []⟩ ∧ fresh.lens = [] := by
  obtain ⟨_, -, h⟩ := Option.bind_eq_some_iff.mp h
  obtain ⟨serial, -, h⟩ := Option.bind_eq_some_iff.mp h
  obtain ⟨arrayValue, harrayValue, h⟩ := Option.bind_eq_some_iff.mp h
  obtain ⟨array, harray, h⟩ := Option.bind_eq_some_iff.mp h
  obtain ⟨lensValue, hlensValue, h⟩ := Option.bind_eq_some_iff.mp h
  obtain ⟨lens, hlens, h⟩ := Option.bind_eq_some_iff.mp h
  obtain ⟨_, -, harray⟩ := Option.bind_eq_some_iff.mp harray
  obtain ⟨translation, -, harray⟩ := Option.bind_eq_some_iff.mp harray
  obtain ⟨_, -, harray⟩ := Option.bind_eq_some_iff.mp harray
  obtain ⟨rotation, -, harray⟩ := Option.bind_eq_some_iff.mp harray
  obtain ⟨gridValue, hgridValue, harray⟩ := Option.bind_eq_some_iff.mp harray
  obtain ⟨grid, hgrid, harray⟩ := Option.bind_eq_some_iff.mp harray
  obtain ⟨hhor, hver⟩ := LineGrid.deserialize_lengths hgrid
  rw [← Option.some.inj h, ← Option.some.inj harray]
  have hsize : ∀ key, gridSize key value = (gridValue.member key).map Json.size := by
    intro key
    unfold gridSize
    rw [harrayValue, Option.bind_eq_bind, Option.bind_some, hgridValue, Option.bind_some]
    cases gridValue.member key <;> rfl
  unfold ListsNothing
  rw [hsize, hsize, hhor, hver, hlensValue, Option.map_some, ← Json.length_mapItems hlens]
  obtain ⟨hor, ver⟩ := grid
  show _ ↔ (⟨hor, ver⟩ : LineGrid) = ⟨[], []⟩ ∧ [] ++ lens = []
  simp [and_assoc]

/-- **Reading replaces the old state** of objects with no grid lines and no lenses only; reading the same
value again changes nothing only if it lists none. -/
theorem deserialize_replaces_iff (realToString : ℝ → String) {value : Json} {data data' : CalibrationData}
    (h : deserialize realToString value data = some data') :
    (deserialize realToString value default = some data' ↔ data.array.grid = ⟨[], []⟩ ∧ data.lens = []) ∧
      (deserialize realToString value data' = some data' ↔ ListsNothing value) := by
  rw [deserialize_append] at h
  obtain ⟨fresh, hfresh, rfl⟩ := Option.map_eq_some_iff.mp h
  rw [deserialize_append _ _ (data.appendTo fresh), hfresh, listsNothing_iff hfresh, Option.map_some,
    Option.some.injEq, Option.some.injEq, appendTo_appendTo_iff, eq_comm, appendTo_eq_right_iff]
  exact ⟨Iff.rfl, Iff.rfl⟩

/-- An object with one line and one lens. -/
def narrowData : CalibrationData := ⟨"A4", ⟨⟨[⟨.subgridA, 1⟩], []⟩, (1, 0), 1⟩, [narrowLens]⟩

theorem narrowData_fresh : deserialize (fun _ => "0") narrowData.serialize default = some narrowData := by
  apply roundTrip
  intro l hl
  rw [List.mem_singleton.mp hl]
  exact narrowLens_entry

theorem narrowData_again :
    deserialize (fun _ => "0") narrowData.serialize narrowData = some (narrowData.appendTo narrowData) := by
  rw [deserialize_append, narrowData_fresh]
  rfl

theorem deserialize_replaces_iff_narrow :
    (deserialize (fun _ => "0") narrowData.serialize default = some (narrowData.appendTo narrowData) ↔
        narrowData.array.grid = ⟨[], []⟩ ∧ narrowData.lens = []) ∧
      (deserialize (fun _ => "0") narrowData.serialize (narrowData.appendTo narrowData) =
          some (narrowData.appendTo narrowData) ↔ ListsNothing narrowData.serialize) :=
  deserialize_replaces_iff (fun _ => "0") narrowData_again

/-- Read twice, every line and every lens is there twice. -/
theorem narrowData_grows :
    ∃ twice, deserialize (fun _ => "0") narrowData.serialize narrowData = some twice ∧
      deserialize (fun _ => "0") narrowData.serialize default = some narrowData ∧ twice ≠ narrowData ∧
      twice.lens.length = 2 := by
  refine ⟨_, narrowData_again, narrowData_fresh, ?_, rfl⟩
  intro h
  have hlen := congrArg (fun d : CalibrationData => d.lens.length) h
  exact absurd hlen (by decide)

end CalibrationData

end Lyli.Calibration
