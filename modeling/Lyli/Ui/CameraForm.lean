import Mathlib
import Lyli.Base.FoldM
import Lyli.Ui.CameraCalibrator

/-!
# Downloads of photos (`ui/cameraview/cameraform.cpp`, `imagedownloader.cpp`, `imagelistmodel.cpp`)

The window hands each download to one thread, which it starts for it.  The
thread is not told to stop: it waits for events once it is through, and starting
it again does nothing.  A download takes the rows of the list as it is by then,
and names the files of a photo by its time, to the second.

    only what was asked for before the thread has started is downloaded, in order    (begun_prefix)
    a download of all photos of one camera, whatever else is asked for meanwhile:
      every photo is whole  ↔  photos with one name have the same content       (downloads_whole_iff)
-/

namespace Lyli.Ui.CameraForm

open Camera CameraCalibrator

variable {κ : Type}

/-! ## Model -/

/-- `ImageListItem`: a photo, and the camera it is on. -/
structure Photo (κ : Type) where
  camera : κ
  image : Image
  time : ℤ

/-- What the cameras serve, and a time as `yyyy-MM-dd_HH:mm:ss`. -/
structure World (κ : Type) where
  getFile : κ → Path → ByteBuffer
  timeText : ℤ → Path

abbrev Directory := Path → Option ByteBuffer

variable (W : World κ)

def outputFileBase (outputDirectory : Path) (photo : Photo κ) : Path :=
  outputDirectory ++ '/' :: W.timeText photo.time

def metadata (photo : Photo κ) : ByteBuffer := W.getFile photo.camera photo.image.metadataFile.path

def data (photo : Photo κ) : ByteBuffer := W.getFile photo.camera photo.image.dataFile.path

/-- `ImageListModel::downloadFile`. -/
def downloadFile (outputDirectory : Path) (photo : Photo κ) (files : Directory) : Directory :=
  let outputFileBase := outputFileBase W outputDirectory photo
  let files := Function.update files (outputFileBase ++ ".TXT".toList) (some (metadata W photo))
  Function.update files (outputFileBase ++ ".RAW".toList) (some (data W photo))

inductive DownloadMode
  | all
  | selected

/-- `ImageDownloader` -/
structure ImageDownloader where
  mode : DownloadMode
  indices : List ℕ
  outputDir : Path

/-- The rows of a download that begins with so many in the list. -/
def ImageDownloader.rows (downloader : ImageDownloader) (rowCount : ℕ) : List ℕ :=
  match downloader.mode with
  | .all => List.range rowCount
  | .selected => downloader.indices

/-- The rows that are left of a download. -/
structure Job where
  rows : List ℕ
  outputDir : Path

inductive Thread
  | notStarted
  | starting
  /-- a download, and those whose turn comes after it -/
  | running (job : Option Job) (waiting : List ImageDownloader)
  /-- a row past the end of the list was read -/
  | undefined

/-- The list of photos, the downloads connected to `started`, those that have begun, and the files. -/
structure Form (κ : Type) where
  fileList : List (Photo κ)
  connected : List ImageDownloader
  thread : Thread
  begun : List ImageDownloader
  files : Directory

def init (files : Directory) : Form κ := ⟨[], [], .notStarted, [], files⟩

inductive Action (κ : Type)
  /-- `ImageListModel::onCameraChanged` -/
  | cameraChanged (fileList : List (Photo κ))
  /-- `CameraForm::download` -/
  | download (downloader : ImageDownloader)
  /-- the thread emits `started` -/
  | started
  | beginDownload
  | downloadRow
  | finishDownload

/-- Connect a download, and start the thread. -/
def Form.download (s : Form κ) (downloader : ImageDownloader) : Form κ :=
  let s := { s with connected := s.connected ++ [downloader] }
  match s.thread with
  | .notStarted => { s with thread := .starting }
  -- a thread that runs is not started again
  | _ => s

/-- The next row. -/
def Form.downloadRow (s : Form κ) (row : ℕ) (rows : List ℕ) (outputDir : Path) (waiting : List ImageDownloader) :
    Form κ :=
  match s.fileList[row]? with
  | some photo =>
    { s with thread := .running (some ⟨rows, outputDir⟩) waiting, files := downloadFile W outputDir photo s.files }
  | none => { s with thread := .undefined }

def step (s : Form κ) : Action κ → Option (Form κ)
  | .cameraChanged fileList => some { s with fileList }
  | .download downloader => some (s.download downloader)
  | .started =>
    match s.thread with
    | .starting => some { s with thread := .running none s.connected }
    | _ => none
  | .beginDownload =>
    match s.thread with
    | .running none (downloader :: waiting) =>
      let job := ⟨downloader.rows s.fileList.length, downloader.outputDir⟩
      some { s with thread := .running (some job) waiting, begun := s.begun ++ [downloader] }
    | _ => none
  | .downloadRow =>
    match s.thread with
    | .running (some ⟨row :: rows, outputDir⟩) waiting => some (s.downloadRow W row rows outputDir waiting)
    | _ => none
  | .finishDownload =>
    match s.thread with
    | .running (some ⟨[], _⟩) waiting => some { s with thread := .running none waiting }
    | _ => none

def run (actions : List (Action κ)) (s : Form κ) : Option (Form κ) := actions.foldlM (step W) s

/-- The downloads that are asked for. -/
def asked (actions : List (Action κ)) : List ImageDownloader :=
  actions.filterMap fun
    | .download downloader => some downloader
    | _ => none

/-! ## Steps -/

section Steps

/-- What each step needs, and does. -/
inductive Steps (s : Form κ) : Action κ → Form κ → Prop
  | cameraChanged (fileList : List (Photo κ)) : Steps s (.cameraChanged fileList) { s with fileList }
  | download (downloader : ImageDownloader) : Steps s (.download downloader) (s.download downloader)
  | started (h : s.thread = .starting) : Steps s .started { s with thread := .running none s.connected }
  | beginDownload {downloader : ImageDownloader} {waiting : List ImageDownloader}
    (h : s.thread = .running none (downloader :: waiting)) :
    Steps s .beginDownload { s with
      thread := .running (some ⟨downloader.rows s.fileList.length, downloader.outputDir⟩) waiting
      begun := s.begun ++ [downloader] }
  | downloadRow {row : ℕ} {rows : List ℕ} {outputDir : Path} {waiting : List ImageDownloader}
    (h : s.thread = .running (some ⟨row :: rows, outputDir⟩) waiting) :
    Steps s .downloadRow (s.downloadRow W row rows outputDir waiting)
  | finishDownload {outputDir : Path} {waiting : List ImageDownloader}
    (h : s.thread = .running (some ⟨[], outputDir⟩) waiting) :
    Steps s .finishDownload { s with thread := .running none waiting }

variable {W} {s t : Form κ}

theorem steps_of_step {a : Action κ} (h : step W s a = some t) : Steps W s a t := by
  cases a with
  | cameraChanged fileList =>
    obtain rfl := Option.some.inj h
    exact .cameraChanged fileList
  | download downloader =>
    obtain rfl := Option.some.inj h
    exact .download downloader
  | started =>
    unfold step at h
    dsimp only at h
    split at h
    · obtain rfl := Option.some.inj h
      exact .started ‹_›
    · cases h
  | beginDownload =>
    unfold step at h
    dsimp only at h
    split at h
    · obtain rfl := Option.some.inj h
      exact .beginDownload ‹_›
    · cases h
  | downloadRow =>
    unfold step at h
    dsimp only at h
    split at h
    · obtain rfl := Option.some.inj h
      exact .downloadRow ‹_›
    · cases h
  | finishDownload =>
    unfold step at h
    dsimp only at h
    split at h
    · obtain rfl := Option.some.inj h
      exact .finishDownload ‹_›
    · cases h

/-- Asking for a download changes nothing but the connections, and starts the thread at most. -/
theorem download_fields (s : Form κ) (downloader : ImageDownloader) :
    (s.download downloader).fileList = s.fileList ∧ (s.download downloader).connected = s.connected ++ [downloader] ∧
      (s.download downloader).begun = s.begun ∧ (s.download downloader).files = s.files ∧
      ((s.download downloader).thread = s.thread ∨
        s.thread = .notStarted ∧ (s.download downloader).thread = .starting) := by
  unfold Form.download
  dsimp only
  split
  · exact ⟨rfl, rfl, rfl, rfl, Or.inr ⟨‹_›, rfl⟩⟩
  · exact ⟨rfl, rfl, rfl, rfl, Or.inl rfl⟩

theorem asked_append (actions actions' : List (Action κ)) : asked (actions ++ actions') = asked actions ++ asked actions' :=
  List.filterMap_append

end Steps

/-! ## Before the thread has started -/

section Before

variable {W} {s : Form κ} {actions : List (Action κ)}

/-- The thread has not started yet, and will call what was asked for. -/
structure Before (files : Directory) (actions : List (Action κ)) (s : Form κ) : Prop where
  thread : s.thread = .notStarted ∨ s.thread = .starting
  connected : s.connected = asked actions
  begun : s.begun = []
  files : s.files = files

theorem Before.not_running {files : Directory} (h : Before files actions s) {job : Option Job}
    {waiting : List ImageDownloader} : s.thread ≠ .running job waiting := by
  intro hrun
  rcases h.thread with hthread | hthread
  · rw [hthread] at hrun
    cases hrun
  · rw [hthread] at hrun
    cases hrun

theorem run_before {files : Directory} (hstarted : .started ∉ actions) (h : run W actions (init files) = some s) :
    Before files actions s := by
  refine foldlM_inv (fun done s => Before files done s) ⟨Or.inl rfl, rfl, rfl, rfl⟩ ?_ h
  intro done a rest s t hl hinv hstep
  have ha : a ≠ .started := by
    rintro rfl
    exact hstarted (hl ▸ List.mem_append_right _ List.mem_cons_self)
  cases steps_of_step hstep with
  | cameraChanged fileList =>
    refine ⟨hinv.thread, ?_, hinv.begun, hinv.files⟩
    rw [asked_append]
    exact hinv.connected.trans (List.append_nil _).symm
  | download downloader =>
    obtain ⟨-, hconnected, hbegun, hfiles, hthread⟩ := download_fields s downloader
    refine ⟨?_, ?_, hbegun.trans hinv.begun, hfiles.trans hinv.files⟩
    · rcases hthread with hthread | ⟨-, hthread⟩
      · rw [hthread]
        exact hinv.thread
      · exact Or.inr hthread
    · rw [hconnected, hinv.connected, asked_append]
      rfl
  | started _ => exact absurd rfl ha
  | beginDownload hrun => exact absurd hrun hinv.not_running
  | downloadRow hrun => exact absurd hrun hinv.not_running
  | finishDownload hrun => exact absurd hrun hinv.not_running

end Before

/-! ## Which downloads begin -/

section Begun

variable {W} {s : Form κ} {downloaders : List ImageDownloader}

/-- The downloads that have begun and those that wait are the given ones. -/
def Serves (downloaders : List ImageDownloader) (s : Form κ) : Prop :=
  ∃ waiting, s.begun ++ waiting = downloaders ∧ ((∃ job, s.thread = .running job waiting) ∨ s.thread = .undefined)

theorem Serves.waiting {job : Option Job} {waiting : List ImageDownloader} (h : Serves downloaders s)
    (hrun : s.thread = .running job waiting) : s.begun ++ waiting = downloaders := by
  obtain ⟨waiting', hwaiting, ⟨job', hjob⟩ | hundef⟩ := h
  · rw [hrun] at hjob
    cases hjob
    exact hwaiting
  · rw [hrun] at hundef
    cases hundef

theorem step_serves {a : Action κ} {t : Form κ} (h : Serves downloaders s) (hstep : step W s a = some t) :
    Serves downloaders t := by
  cases steps_of_step hstep with
  | cameraChanged fileList => exact h
  | download downloader =>
    obtain ⟨-, -, hbegun, -, hthread⟩ := download_fields s downloader
    obtain ⟨waiting, hwaiting, hrun⟩ := h
    refine ⟨waiting, hbegun ▸ hwaiting, ?_⟩
    rcases hthread with hthread | ⟨hnot, -⟩
    · rwa [hthread]
    · -- the thread was started before
      rcases hrun with ⟨job, hjob⟩ | hundef
      · rw [hnot] at hjob
        cases hjob
      · rw [hnot] at hundef
        cases hundef
  | started hstarting =>
    obtain ⟨waiting, -, ⟨job, hjob⟩ | hundef⟩ := h
    · rw [hstarting] at hjob
      cases hjob
    · rw [hstarting] at hundef
      cases hundef
  | beginDownload hrun => exact ⟨_, by rw [← h.waiting hrun]; simp, Or.inl ⟨_, rfl⟩⟩
  | @downloadRow row rows outputDir waiting hrun =>
    refine ⟨waiting, ?_, ?_⟩
    · rw [← h.waiting hrun]
      unfold Form.downloadRow
      cases s.fileList[row]? with
      | none => rfl
      | some photo => rfl
    · unfold Form.downloadRow
      cases s.fileList[row]? with
      | none => exact Or.inr rfl
      | some photo => exact Or.inl ⟨_, rfl⟩
  | finishDownload hrun => exact ⟨_, h.waiting hrun, Or.inl ⟨_, rfl⟩⟩

end Begun

/-- What leads up to the start of the thread, and on from it. -/
theorem run_started {before after : List (Action κ)} {files : Directory} {s : Form κ} (hbefore : .started ∉ before)
    (h : run W (before ++ .started :: after) (init files) = some s) : ∃ s₀, run W before (init files) = some s₀ ∧
      Before files before s₀ ∧ run W after { s₀ with thread := .running none s₀.connected } = some s := by
  obtain ⟨s₀, hs₀, h⟩ := foldlM_append_some.mp h
  obtain ⟨s₁, hs₁, h⟩ := foldlM_cons_some.mp h
  have hinv := run_before hbefore hs₀
  cases steps_of_step hs₁ with
  | started _ => exact ⟨s₀, hs₀, hinv, h⟩

/-- **Only what was asked for in time.**  The downloads that begin were asked for before the thread has started, and
begin in the order they were asked for, each once; what is asked for later never begins. -/
theorem begun_prefix (files : Directory) (before after : List (Action κ)) (s : Form κ) (hbefore : .started ∉ before)
    (h : run W (before ++ .started :: after) (init files) = some s) : s.begun <+: asked before := by
  obtain ⟨s₀, -, hinv, hafter⟩ := run_started W hbefore h
  have hserves : Serves (asked before) s := by
    refine foldlM_inv (fun _ s => Serves (asked before) s) ?_ (fun _ _ _ _ _ _ hs hstep => step_serves hs hstep) hafter
    refine ⟨s₀.connected, ?_, Or.inl ⟨none, rfl⟩⟩
    rw [hinv.begun, List.nil_append, hinv.connected]
  obtain ⟨waiting, hwaiting, -⟩ := hserves
  exact ⟨waiting, hwaiting⟩

/-! ## What is downloaded -/

/-- The photos of some rows, one after the other. -/
def downloadRows (fileList : List (Photo κ)) (outputDir : Path) (rows : List ℕ) (files : Directory) : Directory :=
  rows.foldl (fun files row =>
    match fileList[row]? with
    | some photo => downloadFile W outputDir photo files
    | none => files) files

/-- Downloads one after the other. -/
def downloadAll (fileList : List (Photo κ)) (downloaders : List ImageDownloader) (files : Directory) : Directory :=
  downloaders.foldl (fun files downloader =>
    downloadRows W fileList downloader.outputDir (downloader.rows fileList.length) files) files

section Downloaded

variable {W} {fileList : List (Photo κ)} {downloaders : List ImageDownloader} {files : Directory} {s : Form κ}

/-- What is left to do leads to the same files as the downloads one after the other. -/
structure Downloading (W : World κ) (fileList : List (Photo κ)) (downloaders : List ImageDownloader) (files : Directory)
    (s : Form κ) : Prop where
  list : s.fileList = fileList
  running : ∃ job waiting, s.thread = .running job waiting ∧
    (∀ j ∈ job, ∀ row ∈ j.rows, row < fileList.length) ∧ (∀ d ∈ waiting, d ∈ downloaders) ∧
    downloadAll W fileList waiting (job.elim s.files fun j => downloadRows W fileList j.outputDir j.rows s.files) =
      downloadAll W fileList downloaders files

theorem step_downloading {a : Action κ} {t : Form κ} (hrows : ∀ d ∈ downloaders, ∀ row ∈ d.rows fileList.length,
      row < fileList.length) (ha : ∀ l, a ≠ .cameraChanged l) (h : Downloading W fileList downloaders files s)
    (hstep : step W s a = some t) : Downloading W fileList downloaders files t := by
  obtain ⟨hlist, job, waiting, hrun, hjob, hwaiting, hfiles⟩ := h
  cases steps_of_step hstep with
  | cameraChanged l => exact absurd rfl (ha l)
  | download downloader =>
    obtain ⟨hlist', -, -, hfiles', hthread⟩ := download_fields s downloader
    rcases hthread with hthread | ⟨hnot, -⟩
    · exact ⟨hlist'.trans hlist, job, waiting, hthread.trans hrun, hjob, hwaiting, by rw [hfiles', hfiles]⟩
    · rw [hnot] at hrun
      cases hrun
  | started hstarting =>
    rw [hstarting] at hrun
    cases hrun
  | @beginDownload downloader rest hbegin =>
    rw [hbegin] at hrun
    cases hrun
    refine ⟨hlist, _, rest, rfl, ?_, fun d hd => hwaiting d (List.mem_cons_of_mem _ hd), ?_⟩
    · rintro j hj row hrow
      obtain rfl := Option.some.inj hj
      rw [hlist] at hrow
      exact hrows downloader (hwaiting downloader List.mem_cons_self) row hrow
    · rw [← hfiles, hlist]
      rfl
  | @downloadRow row rows outputDir rest hnext =>
    rw [hnext] at hrun
    cases hrun
    have hlt := hjob _ rfl row List.mem_cons_self
    have hphoto := List.getElem?_eq_getElem hlt
    have hstep' : s.downloadRow W row rows outputDir waiting = { s with
        thread := .running (some ⟨rows, outputDir⟩) waiting
        files := downloadFile W outputDir fileList[row] s.files } := by
      unfold Form.downloadRow
      rw [hlist, hphoto]
    rw [hstep']
    refine ⟨hlist, _, waiting, rfl, ?_, hwaiting, ?_⟩
    · rintro j hj row' hrow'
      obtain rfl := Option.some.inj hj
      exact hjob _ rfl row' (List.mem_cons_of_mem _ hrow')
    · rw [← hfiles]
      show downloadAll W fileList waiting (downloadRows W fileList outputDir rows _) =
        downloadAll W fileList waiting (downloadRows W fileList outputDir (row :: rows) s.files)
      unfold downloadRows
      rw [List.foldl_cons, hphoto]
  | @finishDownload outputDir rest hlast =>
    rw [hlast] at hrun
    cases hrun
    exact ⟨hlist, none, waiting, rfl, nofun, hwaiting, hfiles⟩

/-- **The files once the thread is through**, if the camera has not changed since it started. -/
theorem run_files {before after : List (Action κ)} {s₀ s : Form κ} (hbefore : .started ∉ before)
    (hs₀ : run W before (init files) = some s₀) (hafter : ∀ l, .cameraChanged l ∉ after)
    (hrows : ∀ d ∈ asked before, ∀ row ∈ d.rows s₀.fileList.length, row < s₀.fileList.length)
    (h : run W (before ++ .started :: after) (init files) = some s) (hdone : s.thread = .running none []) :
    s.files = downloadAll W s₀.fileList (asked before) files := by
  obtain ⟨s₁, hs₁, hinv, hrest⟩ := run_started W hbefore h
  obtain rfl := Option.some.inj (hs₀.symm.trans hs₁)
  have hdownloading : Downloading W s₀.fileList (asked before) files s := by
    refine foldlM_inv (fun _ s => Downloading W s₀.fileList (asked before) files s) ?_ ?_ hrest
    · refine ⟨rfl, none, s₀.connected, rfl, nofun, fun d hd => hinv.connected ▸ hd, ?_⟩
      rw [hinv.connected]
      show downloadAll W s₀.fileList (asked before) s₀.files = _
      rw [hinv.files]
    · intro done a rest s t hl hd hstep
      refine step_downloading hrows (fun l hal => hafter l ?_) hd hstep
      rw [hl, ← hal]
      exact List.mem_append_right _ List.mem_cons_self
  obtain ⟨-, job, waiting, hrun, -, -, hfiles⟩ := hdownloading
  rw [hdone] at hrun
  cases hrun
  exact hfiles

end Downloaded

/-! ## Names -/

section Names

variable {W} {outputDir : Path} {p q : Photo κ}

theorem outputFileBase_inj : outputFileBase W outputDir p = outputFileBase W outputDir q ↔
    W.timeText p.time = W.timeText q.time := by
  unfold outputFileBase
  rw [List.append_cancel_left_eq, List.cons.injEq, and_iff_right rfl]

/-- Both files of a photo hold what its camera serves. -/
def Whole (W : World κ) (outputDir : Path) (files : Directory) (photo : Photo κ) : Prop :=
  files (outputFileBase W outputDir photo ++ ".TXT".toList) = some (metadata W photo) ∧
    files (outputFileBase W outputDir photo ++ ".RAW".toList) = some (data W photo)

/-- The content of its two files. -/
def content (W : World κ) (photo : Photo κ) : ByteBuffer × ByteBuffer := (metadata W photo, data W photo)

/-- The description of a photo and its data have two names. -/
theorem append_txt_ne_raw (base base' : Path) : base ++ ".TXT".toList ≠ base' ++ ".RAW".toList := by
  intro h
  have hext : ".TXT".toList = ".RAW".toList := (List.append_inj' h (by simp)).2
  exact absurd (String.toList_inj.mp hext) (by decide)

theorem downloadFile_txt (files : Directory) :
    downloadFile W outputDir q files (outputFileBase W outputDir p ++ ".TXT".toList) =
      if W.timeText p.time = W.timeText q.time then some (metadata W q)
      else files (outputFileBase W outputDir p ++ ".TXT".toList) := by
  unfold downloadFile
  rw [Function.update_of_ne (append_txt_ne_raw _ _)]
  by_cases htime : W.timeText p.time = W.timeText q.time
  · rw [if_pos htime, outputFileBase_inj.mpr htime, Function.update_self]
  · rw [if_neg htime, Function.update_of_ne fun h => htime (outputFileBase_inj.mp (List.append_cancel_right h))]

theorem downloadFile_raw (files : Directory) :
    downloadFile W outputDir q files (outputFileBase W outputDir p ++ ".RAW".toList) =
      if W.timeText p.time = W.timeText q.time then some (data W q)
      else files (outputFileBase W outputDir p ++ ".RAW".toList) := by
  unfold downloadFile
  by_cases htime : W.timeText p.time = W.timeText q.time
  · rw [if_pos htime, outputFileBase_inj.mpr htime, Function.update_self]
  · rw [if_neg htime, Function.update_of_ne fun h => htime (outputFileBase_inj.mp (List.append_cancel_right h)),
      Function.update_of_ne (append_txt_ne_raw _ _).symm]

/-- A photo is whole after another unless that one has its name, and other content. -/
theorem whole_downloadFile (files : Directory) : Whole W outputDir (downloadFile W outputDir q files) p ↔
    if W.timeText p.time = W.timeText q.time then content W q = content W p else Whole W outputDir files p := by
  unfold Whole content
  rw [downloadFile_txt, downloadFile_raw]
  by_cases htime : W.timeText p.time = W.timeText q.time
  · simp only [if_pos htime, Option.some.injEq, Prod.mk.injEq]
  · simp only [if_neg htime]

/-- **All photos one after the other.** -/
theorem whole_foldl_iff (photos : List (Photo κ)) (files : Directory) :
    (∀ p ∈ photos, Whole W outputDir (photos.foldl (fun files q => downloadFile W outputDir q files) files) p) ↔
      ∀ p ∈ photos, ∀ q ∈ photos, W.timeText p.time = W.timeText q.time → content W p = content W q := by
  constructor
  · intro h p hp q hq htime
    have hbase : outputFileBase W outputDir p = outputFileBase W outputDir q := outputFileBase_inj.mpr htime
    have hwhole := h p hp
    unfold Whole at hwhole
    rw [hbase, (h q hq).1, (h q hq).2, Option.some.injEq, Option.some.injEq] at hwhole
    exact Prod.ext hwhole.1.symm hwhole.2.symm
  · induction photos using List.reverseRecOn with
    | nil =>
      intro _ p hp
      cases hp
    | append_singleton photos q ih =>
      intro h p hp
      have hq : q ∈ photos ++ [q] := List.mem_append_right _ (List.mem_singleton_self q)
      rw [List.foldl_append, List.foldl_cons, List.foldl_nil, whole_downloadFile]
      by_cases htime : W.timeText p.time = W.timeText q.time
      · rw [if_pos htime]
        exact (h p hp q hq htime).symm
      · rw [if_neg htime]
        rcases List.mem_append.mp hp with hp | hp
        · exact ih (fun a ha b hb => h a (List.mem_append_left _ ha) b (List.mem_append_left _ hb)) p hp
        · rw [List.mem_singleton.mp hp] at htime
          exact absurd rfl htime

theorem downloadRows_range (fileList : List (Photo κ)) (files : Directory) :
    downloadRows W fileList outputDir (List.range fileList.length) files =
      fileList.foldl (fun files photo => downloadFile W outputDir photo files) files := by
  have htake : ∀ n ≤ fileList.length, downloadRows W fileList outputDir (List.range n) files =
      (fileList.take n).foldl (fun files photo => downloadFile W outputDir photo files) files := by
    intro n
    induction n with
    | zero => exact fun _ => rfl
    | succ n ih =>
      intro hn
      have hrow := List.getElem?_eq_getElem (show n < fileList.length by omega)
      unfold downloadRows at ih ⊢
      rw [List.range_succ, List.foldl_append, ih (by omega), List.take_add_one, hrow, List.foldl_append]
      simp [hrow]
  rw [htake fileList.length le_rfl, List.take_length]

end Names

/-- **A download of all photos**, and whatever is asked for after it.  Once the thread is through, and if the camera
has not changed since it started, every photo is whole iff photos whose times are written the same have the same
content. -/
theorem downloads_whole_iff (W : World κ) (files : Directory) (before after : List (Action κ)) (s₀ s : Form κ)
    (indices : List ℕ) (outputDir : Path) (hbefore : .started ∉ before)
    (hone : asked before = [⟨.all, indices, outputDir⟩]) (hs₀ : run W before (init files) = some s₀)
    (hafter : ∀ l, .cameraChanged l ∉ after) (h : run W (before ++ .started :: after) (init files) = some s)
    (hdone : s.thread = .running none []) :
    (∀ photo ∈ s₀.fileList, Whole W outputDir s.files photo) ↔
      ∀ p ∈ s₀.fileList, ∀ q ∈ s₀.fileList, W.timeText p.time = W.timeText q.time → content W p = content W q := by
  have hrows : ∀ d ∈ asked before, ∀ row ∈ d.rows s₀.fileList.length, row < s₀.fileList.length := by
    intro d hd row hrow
    rw [hone] at hd
    obtain rfl := List.mem_singleton.mp hd
    exact List.mem_range.mp hrow
  rw [run_files hbefore hs₀ hafter hrows h hdone, hone]
  show (∀ photo ∈ s₀.fileList, Whole W outputDir
    (downloadRows W s₀.fileList outputDir (List.range s₀.fileList.length) files) photo) ↔ _
  rw [downloadRows_range]
  exact whole_foldl_iff s₀.fileList files

/-- A camera that serves its paths, and times in seconds. -/
def secondsWorld : World Unit := ⟨fun _ path => path.map fun c => UInt8.ofNat c.toNat, fun time => Nat.toDigits 10 time.toNat⟩

def firstPhoto : Photo Unit := ⟨(), .ofPath "I:\\DCIM\\100PHOTO\\".toList "IMG_0001".toList, 1⟩

def secondPhoto : Photo Unit := ⟨(), .ofPath "I:\\DCIM\\100PHOTO\\".toList "IMG_0002".toList, 2⟩

/-- All photos, and one of them again after the thread has started. -/
def allPhotos : ImageDownloader := ⟨.all, [], "photos".toList⟩

def oneAgain : ImageDownloader := ⟨.selected, [0], "photos".toList⟩

def beforeStart : List (Action Unit) := [.cameraChanged [firstPhoto, secondPhoto], .download allPhotos]

def afterStart : List (Action Unit) :=
  [.beginDownload, .downloadRow, .downloadRow, .finishDownload, .download oneAgain]

/-- The window after the first of the two downloads; the other one is not begun. -/
def afterBoth : Form Unit where
  fileList := [firstPhoto, secondPhoto]
  connected := [allPhotos, oneAgain]
  thread := .running none []
  begun := [allPhotos]
  files := downloadFile secondsWorld "photos".toList secondPhoto
    (downloadFile secondsWorld "photos".toList firstPhoto fun _ => none)

theorem run_afterBoth :
    run secondsWorld (beforeStart ++ .started :: afterStart) (init fun _ => none) = some afterBoth := rfl

theorem started_notMem_beforeStart : .started ∉ beforeStart := by
  unfold beforeStart
  simp

theorem begun_prefix_afterBoth : afterBoth.begun <+: [allPhotos] :=
  begun_prefix secondsWorld (fun _ => none) beforeStart afterStart afterBoth started_notMem_beforeStart run_afterBoth

theorem downloads_whole_iff_afterBoth :
    Whole secondsWorld "photos".toList afterBoth.files firstPhoto ∧
      Whole secondsWorld "photos".toList afterBoth.files secondPhoto := by
  have hne : secondsWorld.timeText 1 ≠ secondsWorld.timeText 2 := by decide
  have hnone : ∀ l, Action.cameraChanged l ∉ afterStart := by simp [afterStart]
  have whole := (downloads_whole_iff secondsWorld (fun _ => none) beforeStart afterStart
    ⟨[firstPhoto, secondPhoto], [allPhotos], .starting, [], fun _ => none⟩ afterBoth [] "photos".toList
    started_notMem_beforeStart rfl rfl hnone run_afterBoth rfl).mpr ?_
  · exact ⟨whole firstPhoto (by simp), whole secondPhoto (by simp)⟩
  · intro p hp q hq htime
    simp only [List.mem_cons, List.not_mem_nil, or_false] at hp hq
    rcases hp with rfl | rfl
    · rcases hq with rfl | rfl
      · rfl
      · exact absurd htime hne
    · rcases hq with rfl | rfl
      · exact absurd htime.symm hne
      · rfl

end Lyli.Ui.CameraForm
