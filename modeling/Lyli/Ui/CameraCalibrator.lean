import Mathlib
import Lyli.Camera

/-!
# Downloads of calibration images (`ui/cameraview/cameracalibrator.cpp`)

`downloadCalib` skips the files that exist, so a cancelled session goes on where
it stopped.  A transfer that throws leaves the file it was for, opened and empty,
and no later session asks for it again.  The directory of a camera is only made
together with the cache directory.

    a session completes after any others  →  every file was asked for once, in order, and
      all are whole ↔ no session threw, and the cache directory was new or had the camera's
                                                                  (downloads_complete_iff)
-/

namespace Lyli.Ui.CameraCalibrator

open Camera

abbrev Path := List Char

/-! ## Model -/

/-- `Filesystem::Image`. -/
structure Image where
  fullpath : Path
  basename : Path

def Image.ofPath (path basename : Path) : Image := ⟨path ++ basename, basename⟩

/-- `std::setfill('0') << std::setw(4) << n` -/
def padded (n : ℕ) : Path := (Nat.toDigits 10 n).leftpad 4 '0'

/-- `FilesystemAccess::getCalibrationList`. -/
def getCalibrationList : List Image :=
  (List.range 62).map fun i => .ofPath "C:\\T1CALIB\\".toList ("MOD_".toList ++ padded i)

/-- A file of the directory, and where it comes from on the camera. -/
structure File where
  name : Path
  path : Path
deriving DecidableEq

def Image.metadataFile (image : Image) : File := ⟨image.basename ++ ".TXT".toList, image.fullpath ++ ".TXT".toList⟩

def Image.dataFile (image : Image) : File := ⟨image.basename ++ ".RAW".toList, image.fullpath ++ ".RAW".toList⟩

/-- The cache directory, the directory of the camera in it, with its files, and the files that were asked for. -/
structure Disk where
  cacheDir : Bool
  serialDir : Bool
  files : Path → Option ByteBuffer
  requests : List Path

/-- Ensure the cache directory exists. -/
def openCache (d : Disk) : Disk := if d.cacheDir then d else { d with cacheDir := true, serialDir := true }

/-- The content of a file that is open for writing; without the directory nothing is. -/
def Disk.write (d : Disk) (name : Path) (content : ByteBuffer) : Disk :=
  if d.serialDir then { d with files := Function.update d.files name (some content) } else d

/-- What happens during a download: the transfers that throw, and the images after which it is found cancelled. -/
structure Session where
  throws : Path → Bool
  wasCanceled : ℕ → Bool

inductive Outcome
  | completed
  | cancelled
  | threw
deriving DecidableEq

/-- Download a file unless it exists; false if the transfer throws. -/
def fetch (content : Path → ByteBuffer) (session : Session) (file : File) (d : Disk) : Bool × Disk :=
  if (d.files file.name).isSome then (true, d)
  else
    -- the file is truncated when it is opened
    let d := d.write file.name []
    let d := { d with requests := d.requests ++ [file.path] }
    if session.throws file.path then (false, d) else (true, d.write file.name (content file.path))

/-- The loop of `downloadCalib`, with `done` images handled. -/
def downloadImages (content : Path → ByteBuffer) (session : Session) : ℕ → List Image → Disk → Outcome × Disk
  | _, [], d => (.completed, d)
  | done, image :: fileList, d =>
    match fetch content session image.metadataFile d with
    | (false, d) => (.threw, d)
    | (true, d) =>
      match fetch content session image.dataFile d with
      | (false, d) => (.threw, d)
      | (true, d) =>
        if session.wasCanceled (done + 1) then (.cancelled, d)
        else downloadImages content session (done + 1) fileList d

/-- The download of `onCameraChanged`. -/
def downloadCalib (content : Path → ByteBuffer) (session : Session) (d : Disk) : Outcome × Disk :=
  downloadImages content session 0 getCalibrationList (openCache d)

/-- One session after the other. -/
def downloads (content : Path → ByteBuffer) : List Session → Disk → List Outcome × Disk
  | [], d => ([], d)
  | session :: sessions, d =>
    let (outcome, d) := downloadCalib content session d
    let (outcomes, d) := downloads content sessions d
    (outcome :: outcomes, d)

/-- The files of images, in the order of their download. -/
def imageFiles (images : List Image) : List File := images.flatMap fun image => [image.metadataFile, image.dataFile]

def calibrationFiles : List File := imageFiles getCalibrationList

/-! ## Names -/

theorem padded_injective {m n : ℕ} (h : padded m = padded n) : m = n := by
  have hvalue : ∀ k, Nat.ofDigitChars 10 (padded k) 0 = k := by
    intro k
    unfold padded List.leftpad
    rw [Nat.ofDigitChars_append, Nat.ofDigitChars_replicate_zero, Nat.mul_zero, Nat.ofDigitChars_ten_toDigits]
  rw [← hvalue m, ← hvalue n, h]

theorem extensions_nodup {names : List Path} (h : names.Nodup) :
    (names.flatMap fun name => [name ++ ".TXT".toList, name ++ ".RAW".toList]).Nodup := by
  rw [List.nodup_flatMap]
  constructor
  · intro name _
    rw [List.nodup_cons, List.mem_singleton]
    exact ⟨fun heq => absurd (List.append_cancel_left heq) (by decide), List.nodup_singleton _⟩
  · refine h.imp fun {name other} hne => ?_
    intro file hfile hother
    have hlen : ".TXT".toList.length = ".RAW".toList.length := rfl
    simp only [List.mem_cons, List.not_mem_nil, or_false] at hfile hother
    rcases hfile with rfl | rfl
    · rcases hother with hother | hother
      · exact hne (List.append_inj_left' hother rfl)
      · exact hne (List.append_inj_left' hother rfl)
    · rcases hother with hother | hother
      · exact hne (List.append_inj_left' hother rfl)
      · exact hne (List.append_inj_left' hother rfl)

theorem names_nodup : (calibrationFiles.map (·.name)).Nodup := by
  have hnames : (getCalibrationList.map (·.basename)).Nodup := by
    unfold getCalibrationList
    rw [List.map_map]
    exact List.nodup_range.map fun m n h => padded_injective (List.append_cancel_left h)
  have hfiles := extensions_nodup hnames
  rw [List.flatMap_map] at hfiles
  unfold calibrationFiles imageFiles
  rw [List.map_flatMap]
  exact hfiles

theorem paths_nodup : (calibrationFiles.map (·.path)).Nodup := by
  have hpaths : (getCalibrationList.map (·.fullpath)).Nodup := by
    unfold getCalibrationList
    rw [List.map_map]
    exact List.nodup_range.map fun m n h => padded_injective (List.append_cancel_left (List.append_cancel_left h))
  have hfiles := extensions_nodup hpaths
  rw [List.flatMap_map] at hfiles
  unfold calibrationFiles imageFiles
  rw [List.map_flatMap]
  exact hfiles

/-! ## How far the downloads are -/

section Progress

variable {content : Path → ByteBuffer} {session : Session} {files done : List File} {failed : List Path} {d : Disk}

/-- The files of `done` were asked for; those in `failed` are empty. -/
structure Progress (content : Path → ByteBuffer) (files done : List File) (failed : List Path) (d : Disk) : Prop where
  upTo : done <+: files
  requests : d.requests = done.map (·.path)
  stored : ∀ f ∈ done, d.files f.name = some (if f.path ∈ failed then [] else content f.path)
  missing : ∀ f ∈ files, f ∉ done → d.files f.name = none
  failed : ∀ p ∈ failed, p ∈ done.map (·.path)
  serialDir : d.serialDir = true

theorem write_files (h : d.serialDir = true) (name : Path) (bytes : ByteBuffer) :
    d.write name bytes = { d with files := Function.update d.files name (some bytes) } := if_pos h

/-- What `fetch` does with a file that is not there. -/
theorem fetch_missing (hdir : d.serialDir = true) {f : File} (hmissing : d.files f.name = none) :
    fetch content session f d = (! session.throws f.path, { d with
      files := Function.update d.files f.name (some (if session.throws f.path then [] else content f.path))
      requests := d.requests ++ [f.path] }) := by
  unfold fetch
  rw [hmissing, write_files hdir]
  dsimp only
  cases session.throws f.path with
  | true => rfl
  | false =>
    have hwrite := write_files (d := { d with
      files := Function.update d.files f.name (some [])
      requests := d.requests ++ [f.path] }) hdir f.name (content f.path)
    rw [Function.update_idem] at hwrite
    exact congrArg (Prod.mk true) hwrite

/-- A file that is not there is asked for. -/
theorem Progress.snoc (h : Progress content files done failed d) (hnames : (files.map (·.name)).Nodup)
    (hpaths : (files.map (·.path)).Nodup) {f : File} {rest : List File} (hfiles : files = done ++ f :: rest)
    (throws : Bool) :
    Progress content files (done ++ [f]) (if throws then failed ++ [f.path] else failed) { d with
      files := Function.update d.files f.name (some (if throws then [] else content f.path))
      requests := d.requests ++ [f.path] } := by
  rw [hfiles, List.map_append, List.nodup_append, List.map_cons] at hnames hpaths
  have hname : ∀ g ∈ done, g.name ≠ f.name := fun g hg =>
    hnames.2.2 _ (List.mem_map.mpr ⟨g, hg, rfl⟩) _ List.mem_cons_self
  have hpath : ∀ g ∈ done, g.path ≠ f.path := fun g hg =>
    hpaths.2.2 _ (List.mem_map.mpr ⟨g, hg, rfl⟩) _ List.mem_cons_self
  have hnew : f.path ∉ failed := fun hmem => by
    obtain ⟨g, hg, heq⟩ := List.mem_map.mp (h.failed _ hmem)
    exact hpath g hg heq
  constructor
  · exact ⟨rest, by rw [hfiles, List.append_assoc, List.singleton_append]⟩
  · rw [List.map_append, h.requests]
    rfl
  · intro g hg
    rcases List.mem_append.mp hg with hg | hg
    · show Function.update d.files f.name _ g.name = _
      rw [Function.update_of_ne (hname g hg), h.stored g hg]
      -- the failed ones among the earlier files are the same
      have hsame : (g.path ∈ if throws then failed ++ [f.path] else failed) ↔ g.path ∈ failed := by
        cases throws with
        | true => simp [hpath g hg]
        | false => rfl
      simp only [hsame]
    · obtain rfl := List.mem_singleton.mp hg
      show Function.update d.files g.name _ g.name = _
      rw [Function.update_self]
      cases throws with
      | true => simp
      | false => simp [hnew]
  · intro g hg hdone
    have hne : g.name ≠ f.name := by
      intro heq
      rw [hfiles] at hg
      rcases List.mem_append.mp hg with hg | hg
      · exact hname g hg heq
      · rcases List.mem_cons.mp hg with rfl | hg
        · exact hdone (List.mem_append_right _ (List.mem_singleton_self g))
        · exact (List.nodup_cons.mp hnames.2.1).1 (List.mem_map.mpr ⟨g, hg, heq⟩)
    show Function.update d.files f.name _ g.name = none
    rw [Function.update_of_ne hne]
    exact h.missing g hg fun hmem => hdone (List.mem_append_left _ hmem)
  · intro p hp
    rw [List.map_append, List.mem_append]
    cases throws with
    | true =>
      rcases List.mem_append.mp hp with hp | hp
      · exact Or.inl (h.failed p hp)
      · exact Or.inr hp
    | false => exact Or.inl (h.failed p hp)
  · exact h.serialDir

variable (session) in
/-- A file of the list is skipped, or is the next to be asked for. -/
theorem Progress.fetch (h : Progress content files done failed d) (hnames : (files.map (·.name)).Nodup)
    (hpaths : (files.map (·.path)).Nodup) {pre rest : List File} {f : File} (hfiles : files = pre ++ f :: rest)
    (hpre : pre <+: done) : ∃ done' failed',
      Progress content files done' failed' (fetch content session f d).2 ∧ pre ++ [f] <+: done' ∧
        failed' = if (fetch content session f d).1 then failed else failed ++ [f.path] := by
  have hpref : pre ++ [f] <+: files := ⟨rest, by rw [hfiles, List.append_assoc, List.singleton_append]⟩
  by_cases hlen : pre.length < done.length
  · -- the file was handled before
    have hskip : pre ++ [f] <+: done := List.prefix_of_prefix_length_le hpref h.upTo (by simpa using hlen)
    have hstored := h.stored f (hskip.subset (List.mem_append_right _ (List.mem_singleton_self f)))
    have hfetch : CameraCalibrator.fetch content session f d = (true, d) := by
      unfold CameraCalibrator.fetch
      rw [hstored]
      rfl
    rw [hfetch]
    exact ⟨done, failed, h, hskip, rfl⟩
  · obtain rfl : pre = done := hpre.eq_of_length_le (not_lt.mp hlen)
    have hnot : f ∉ pre := fun hmem => by
      rw [hfiles, List.map_append, List.nodup_append] at hnames
      exact hnames.2.2 _ (List.mem_map.mpr ⟨f, hmem, rfl⟩) _ List.mem_cons_self rfl
    have hmissing := h.missing f (hfiles ▸ List.mem_append_right _ List.mem_cons_self) hnot
    rw [fetch_missing h.serialDir hmissing]
    refine ⟨pre ++ [f], _, h.snoc hnames hpaths hfiles (session.throws f.path), List.prefix_rfl, ?_⟩
    cases session.throws f.path with
    | true => rfl
    | false => rfl

theorem Progress.unique (h : Progress content files done failed d) {done' : List File} {failed' : List Path}
    (h' : Progress content files done' failed' d) : done = done' := by
  have hlen : done.length = done'.length := by
    rw [← List.length_map (f := fun f : File => f.path), ← h.requests, h'.requests, List.length_map]
  exact (List.prefix_of_prefix_length_le h.upTo h'.upTo hlen.le).eq_of_length hlen

theorem downloadImages_cons (n : ℕ) (image : Image) (images : List Image) (d : Disk) :
    downloadImages content session n (image :: images) d =
      if (CameraCalibrator.fetch content session image.metadataFile d).1 then
        let d := (CameraCalibrator.fetch content session image.metadataFile d).2
        if (CameraCalibrator.fetch content session image.dataFile d).1 then
          let d := (CameraCalibrator.fetch content session image.dataFile d).2
          if session.wasCanceled (n + 1) then (.cancelled, d) else downloadImages content session (n + 1) images d
        else (.threw, (CameraCalibrator.fetch content session image.dataFile d).2)
      else (.threw, (CameraCalibrator.fetch content session image.metadataFile d).2) := by
  rw [downloadImages]
  rcases CameraCalibrator.fetch content session image.metadataFile d with ⟨ok₁, d₁⟩
  cases ok₁ with
  | false => rfl
  | true =>
    dsimp only
    rcases CameraCalibrator.fetch content session image.dataFile d₁ with ⟨ok₂, d₂⟩
    cases ok₂ with
    | false => rfl
    | true => rfl

variable (session) in
/-- **One session**: a completed one has handled all files, and one that threw has one more that is empty. -/
theorem Progress.downloadImages (h : Progress content files done failed d) (hnames : (files.map (·.name)).Nodup)
    (hpaths : (files.map (·.path)).Nodup) {pre : List File} {images : List Image}
    (hfiles : files = pre ++ imageFiles images) (hpre : pre <+: done) (n : ℕ) : ∃ done' failed',
      Progress content files done' failed' (downloadImages content session n images d).2 ∧
      ((downloadImages content session n images d).1 = .completed → done' = files) ∧
      failed'.length = failed.length + if (downloadImages content session n images d).1 = .threw then 1 else 0 := by
  induction images generalizing pre done failed d n with
  | nil =>
    refine ⟨done, failed, h, fun _ => h.upTo.eq_of_length_le ?_, rfl⟩
    rw [hfiles]
    simpa [imageFiles] using hpre.length_le
  | cons image images ih =>
    have himage : files = pre ++ image.metadataFile :: (image.dataFile :: imageFiles images) := hfiles
    obtain ⟨done₁, failed₁, h₁, hpre₁, hf₁⟩ := h.fetch session hnames hpaths himage hpre
    rw [downloadImages_cons]
    by_cases hok₁ : (CameraCalibrator.fetch content session image.metadataFile d).1 = true
    · rw [if_pos hok₁] at hf₁ ⊢
      have hdata : files = (pre ++ [image.metadataFile]) ++ image.dataFile :: imageFiles images := by
        rw [himage, List.append_assoc, List.singleton_append]
      obtain ⟨done₂, failed₂, h₂, hpre₂, hf₂⟩ := h₁.fetch session hnames hpaths hdata hpre₁
      dsimp only
      by_cases hok₂ : (CameraCalibrator.fetch content session image.dataFile
          (CameraCalibrator.fetch content session image.metadataFile d).2).1 = true
      · rw [if_pos hok₂] at hf₂ ⊢
        rw [← hf₁, ← hf₂]
        by_cases hcancel : session.wasCanceled (n + 1) = true
        · rw [if_pos hcancel]
          exact ⟨done₂, failed₂, h₂, nofun, rfl⟩
        · rw [if_neg hcancel]
          exact ih h₂ (hdata.trans (List.append_cons _ _ _)) hpre₂ (n + 1)
      · rw [if_neg hok₂] at hf₂ ⊢
        refine ⟨done₂, failed₂, h₂, nofun, ?_⟩
        rw [hf₂, hf₁, List.length_append]
        rfl
    · rw [if_neg hok₁] at hf₁ ⊢
      refine ⟨done₁, failed₁, h₁, nofun, ?_⟩
      rw [hf₁, List.length_append]
      rfl

end Progress

/-! ## All sessions -/

section Sessions

variable {content : Path → ByteBuffer} {done : List File} {failed : List Path} {d : Disk}

/-- What the downloads leave alone. -/
structure SameDirs (d d' : Disk) : Prop where
  cacheDir : d'.cacheDir = d.cacheDir
  serialDir : d'.serialDir = d.serialDir
  /-- nothing is stored without the directory -/
  files : d.serialDir = false → d'.files = d.files

theorem SameDirs.trans {d' d'' : Disk} (h : SameDirs d d') (h' : SameDirs d' d'') : SameDirs d d'' where
  cacheDir := h'.cacheDir.trans h.cacheDir
  serialDir := h'.serialDir.trans h.serialDir
  files hno := (h'.files (h.serialDir.trans hno)).trans (h.files hno)

theorem write_sameDirs (d : Disk) (name : Path) (bytes : ByteBuffer) : SameDirs d (d.write name bytes) := by
  unfold Disk.write
  by_cases hdir : d.serialDir = true
  · rw [if_pos hdir]
    exact ⟨rfl, rfl, fun hno => by rw [hdir] at hno; cases hno⟩
  · rw [if_neg hdir]
    exact ⟨rfl, rfl, fun _ => rfl⟩

variable (content) in
theorem fetch_sameDirs (session : Session) (f : File) (d : Disk) : SameDirs d (fetch content session f d).2 := by
  unfold fetch
  split_ifs
  · exact ⟨rfl, rfl, fun _ => rfl⟩
  · obtain ⟨h₁, h₂, h₃⟩ := write_sameDirs d f.name []
    exact ⟨h₁, h₂, h₃⟩
  · refine SameDirs.trans ?_ (write_sameDirs _ f.name (content f.path))
    obtain ⟨h₁, h₂, h₃⟩ := write_sameDirs d f.name []
    exact ⟨h₁, h₂, h₃⟩

variable (content) in
theorem downloadImages_sameDirs (session : Session) (n : ℕ) (images : List Image) (d : Disk) :
    SameDirs d (downloadImages content session n images d).2 := by
  induction images generalizing n d with
  | nil => exact ⟨rfl, rfl, fun _ => rfl⟩
  | cons image images ih =>
    have h₁ := fetch_sameDirs content session image.metadataFile d
    have h₂ := h₁.trans (fetch_sameDirs content session image.dataFile _)
    rw [downloadImages_cons]
    dsimp only
    split_ifs
    · exact h₂
    · exact h₂.trans (ih (n + 1) _)
    · exact h₂
    · exact h₁

theorem openCache_of_cacheDir (h : d.cacheDir = true) : openCache d = d := if_pos h

variable (content) in
theorem downloads_sameDirs (sessions : List Session) (h : d.cacheDir = true) :
    SameDirs d (downloads content sessions d).2 := by
  induction sessions generalizing d with
  | nil => exact ⟨rfl, rfl, fun _ => rfl⟩
  | cons session sessions ih =>
    have h₁ := downloadImages_sameDirs content session 0 getCalibrationList d
    unfold downloads downloadCalib
    rw [openCache_of_cacheDir h]
    exact h₁.trans (ih (h₁.cacheDir.trans h))

theorem downloads_cons (h : d.cacheDir = true) (session : Session) (sessions : List Session) :
    downloads content (session :: sessions) d =
      ((downloadImages content session 0 getCalibrationList d).1 ::
        (downloads content sessions (downloadImages content session 0 getCalibrationList d).2).1,
        (downloads content sessions (downloadImages content session 0 getCalibrationList d).2).2) := by
  rw [downloads, downloadCalib, openCache_of_cacheDir h]

/-- **All sessions**: as many files are empty as sessions threw. -/
theorem Progress.downloads (h : Progress content calibrationFiles done failed d) (hcache : d.cacheDir = true)
    (sessions : List Session) : ∃ done' failed',
      Progress content calibrationFiles done' failed' (downloads content sessions d).2 ∧
      ((downloads content sessions d).1.getLast? = some .completed → done' = calibrationFiles) ∧
      failed'.length = failed.length + (downloads content sessions d).1.count .threw := by
  induction sessions generalizing done failed d with
  | nil => exact ⟨done, failed, h, nofun, rfl⟩
  | cons session sessions ih =>
    have hall : calibrationFiles = [] ++ imageFiles getCalibrationList := rfl
    obtain ⟨done₁, failed₁, h₁, hcomplete, hlen₁⟩ :=
      h.downloadImages session names_nodup paths_nodup hall List.nil_prefix 0
    have hcache₁ := (downloadImages_sameDirs content session 0 getCalibrationList d).cacheDir.trans hcache
    obtain ⟨done₂, failed₂, h₂, hlast, hlen₂⟩ := ih h₁ hcache₁
    rw [downloads_cons hcache]
    generalize CameraCalibrator.downloadImages content session 0 getCalibrationList d = r at *
    refine ⟨done₂, failed₂, h₂, fun hl => ?_, ?_⟩
    · cases sessions with
      | nil => exact (h₂.unique h₁).trans (hcomplete (Option.some.inj hl))
      | cons s ss =>
        rw [downloads_cons hcache₁] at hl hlast
        exact hlast (List.getLast?_cons_cons.symm.trans hl)
    · rw [hlen₂, hlen₁, List.count_cons]
      cases r.1 with
      | threw => simp; omega
      | completed => simp
      | cancelled => simp

/-- None of the files is there, and none was asked for. -/
structure Fresh (d : Disk) : Prop where
  files : ∀ f ∈ calibrationFiles, d.files f.name = none
  requests : d.requests = []

theorem Fresh.progress (h : Fresh d) (hdir : d.serialDir = true) : Progress content calibrationFiles [] [] d where
  upTo := List.nil_prefix
  requests := h.requests
  stored := nofun
  missing f hf _ := h.files f hf
  failed := nofun
  serialDir := hdir

theorem openCache_fresh (h : Fresh d) : Fresh (openCache d) := by
  unfold openCache
  split_ifs
  · exact h
  · exact ⟨h.files, h.requests⟩

/-- The directory of the camera is there, or is made with the cache directory. -/
theorem openCache_dirs (d : Disk) :
    (openCache d).cacheDir = true ∧ ((openCache d).serialDir = true ↔ d.serialDir = true ∨ d.cacheDir = false) := by
  unfold openCache
  by_cases h : d.cacheDir = true
  · rw [if_pos h, h]
    simp
  · rw [if_neg h, eq_false_of_ne_true h]
    simp

theorem downloads_openCache (sessions : List Session) (hne : sessions ≠ []) :
    downloads content sessions (openCache d) = downloads content sessions d := by
  obtain ⟨session, rest, rfl⟩ := List.exists_cons_of_ne_nil hne
  rw [downloads, downloads, downloadCalib, downloadCalib, openCache_of_cacheDir (openCache_dirs d).1]

end Sessions

/-- **Downloads over several sessions**, cancelled, failed or completed, the last one completed.  All files are
whole iff no session threw and the directory of the camera was there from the first session on; and then, however
often the downloads were interrupted, every file was asked for once, in the order of the list. -/
theorem downloads_complete_iff (content : Path → ByteBuffer) (hcontent : ∀ f ∈ calibrationFiles, content f.path ≠ [])
    (d : Disk) (hd : Fresh d) (sessions : List Session)
    (hlast : (downloads content sessions d).1.getLast? = some .completed) :
    ((∀ f ∈ calibrationFiles, (downloads content sessions d).2.files f.name = some (content f.path)) ↔
      (d.serialDir = true ∨ d.cacheDir = false) ∧ .threw ∉ (downloads content sessions d).1) ∧
    (d.serialDir = true ∨ d.cacheDir = false →
      (downloads content sessions d).2.requests = calibrationFiles.map (·.path)) := by
  have hne : sessions ≠ [] := by
    rintro rfl
    cases hlast
  obtain ⟨hcache, hserial⟩ := openCache_dirs d
  rw [← downloads_openCache sessions hne] at hlast ⊢
  rw [← hserial]
  by_cases hdir : (openCache d).serialDir = true
  · obtain ⟨done, failed, h, hcomplete, hlen⟩ := ((openCache_fresh hd).progress hdir).downloads hcache sessions
    obtain rfl := hcomplete hlast
    refine ⟨?_, fun _ => h.requests⟩
    have hfailed : .threw ∉ (downloads content sessions (openCache d)).1 ↔ failed = [] := by
      rw [← List.count_eq_zero, ← List.length_eq_zero_iff, hlen, List.length_nil, Nat.zero_add]
    rw [hfailed]
    constructor
    · intro hall
      refine ⟨hdir, List.eq_nil_iff_forall_not_mem.mpr fun p hp => ?_⟩
      -- a failed file is empty
      obtain ⟨f, hf, rfl⟩ := List.mem_map.mp (h.failed p hp)
      have hstored := h.stored f hf
      rw [if_pos hp, hall f hf] at hstored
      exact hcontent f hf (Option.some.inj hstored)
    · rintro ⟨_, rfl⟩ f hf
      rw [h.stored f hf, if_neg (List.not_mem_nil)]
  · refine ⟨⟨fun hall => ?_, fun h => absurd h.1 hdir⟩, fun h => absurd h hdir⟩
    -- nothing is stored
    have hfiles := (downloads_sameDirs content sessions hcache).files (eq_false_of_ne_true hdir)
    obtain ⟨f, hf⟩ : ∃ f, f ∈ calibrationFiles := ⟨_, List.mem_cons_self⟩
    have hstored := hall f hf
    rw [hfiles, (openCache_fresh hd).files f hf] at hstored
    cases hstored

/-- No transfer throws, and nobody cancels. -/
def quiet : Session := ⟨fun _ => false, fun _ => false⟩

theorem downloadImages_quiet (content : Path → ByteBuffer) (n : ℕ) (images : List Image) (d : Disk) :
    (downloadImages content quiet n images d).1 = .completed := by
  have hfetch : ∀ (f : File) (d : Disk), (fetch content quiet f d).1 = true := by
    intro f d
    unfold fetch
    by_cases h : (d.files f.name).isSome = true
    · rw [if_pos h]
    · rw [if_neg h]
      rfl
  induction images generalizing n d with
  | nil => rfl
  | cons image images ih =>
    rw [downloadImages_cons, if_pos (hfetch _ _)]
    dsimp only
    rw [if_pos (hfetch _ _)]
    exact ih _ _

theorem downloads_quiet (content : Path → ByteBuffer) (sessions : List Session) (d : Disk) :
    (downloads content (sessions ++ [quiet]) d).1.getLast? = some .completed := by
  induction sessions generalizing d with
  | nil => exact congrArg some (downloadImages_quiet content 0 getCalibrationList (openCache d))
  | cons session sessions ih =>
    rw [List.cons_append, downloads, List.getLast?_cons, ih]
    rfl

/-- One session is cancelled after three images, the next goes on. -/
theorem downloads_complete_iff_resumed :
    ((∀ f ∈ calibrationFiles, (downloads (fun _ => [1]) ([⟨fun _ => false, fun n => n == 3⟩] ++ [quiet])
        ⟨false, false, fun _ => none, []⟩).2.files f.name = some [1]) ↔
      (false = true ∨ false = false) ∧ .threw ∉ (downloads (fun _ => [1])
        ([⟨fun _ => false, fun n => n == 3⟩] ++ [quiet]) ⟨false, false, fun _ => none, []⟩).1) ∧
    (false = true ∨ false = false → (downloads (fun _ => [1]) ([⟨fun _ => false, fun n => n == 3⟩] ++ [quiet])
        ⟨false, false, fun _ => none, []⟩).2.requests = calibrationFiles.map (·.path)) :=
  downloads_complete_iff (fun _ => [1]) (fun _ _ => List.cons_ne_nil _ _) ⟨false, false, fun _ => none, []⟩
    ⟨fun _ _ => rfl, rfl⟩ _ (downloads_quiet _ _ _)

end Lyli.Ui.CameraCalibrator
