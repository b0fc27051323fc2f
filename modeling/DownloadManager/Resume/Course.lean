import DownloadManager.Resume.Attempt

/-!
# An attempt nothing goes wrong in

When no file operation fails, the server answers each request in one way, and whether
the stop token is cancelled depends on the disk, an attempt has one course: it can be
computed, and it is one of those its surroundings permit.
-/

namespace DownloadManager

open FileSystem Worker

/-- What an attempt nothing goes wrong in finds. -/
structure Course where
  /-- What the server answers. -/
  reply : HttpRequest → Response
  /-- The content it has. -/
  content : List UInt8
  /-- When the stop token is found cancelled. -/
  stops : Disk → Bool

namespace Course

variable (c : Course)

/-- What an operation does. -/
def handle : (op : Op) → World → op.Reply × World
  | .file op, w => ((performFile w.disk none op).1, { w with disk := (performFile w.disk none op).2 })
  | .send request, w => (.response (c.reply request), { w with served := some ⟨request, c.reply request, c.content⟩ })
  | .pollStop, w => (c.stops w.disk, w)

theorem env_handle {S : Surroundings} (hguard : ∀ op disk, S.guard op disk)
    (hserver : ∀ request, S.server request (c.reply request) c.content) (op : Op) (w : World) :
    S.env op w (c.handle op w).1 (c.handle op w).2 := by
  cases op with
  | file op => exact ⟨hguard op w.disk, ⟨none, nofun, outcome_performFile w.disk none op⟩, rfl⟩
  | send request =>
    refine ⟨rfl, fun response hr => ?_⟩
    cases hr
    exact ⟨c.content, hserver request, rfl⟩
  | pollStop => rfl

/-- The only thing that can happen. -/
abbrev env : Program.Env Op Op.Reply World := fun op w r w' => (r, w') = c.handle op w

theorem env_le {S : Surroundings} (hguard : ∀ op disk, S.guard op disk)
    (hserver : ∀ request, S.server request (c.reply request) c.content) {op : Op} {w w' : World} {r : op.Reply}
    (h : c.env op w r w') : S.env op w r w' := by
  have := c.env_handle hguard hserver op w
  rwa [← h] at this

/-! ### What the steps of an attempt do -/

variable {c} {platform : Platform} {request : Request} {w : World} {β : Type}

theorem performFile_of_isFile (op : FileOp PathBuf UInt8) (disk : Disk) (h : ∀ path ∈ op.paths, path.IsFile) :
    performFile disk none op = op.effect .missing disk := if_pos h

theorem eval_pollStop : Program.eval c.handle pollStop w = (.ok (c.stops w.disk), w) := rfl

/-- A file operation that succeeds. -/
theorem eval_await {op : FileOp PathBuf UInt8} {f : op.Value → Async β} {a : op.Value} {disk : Disk}
    (h : performFile w.disk none op = (.ok a, disk)) :
    Program.eval c.handle ((Fs.await op).bind f) w = Program.eval c.handle (f a) { w with disk := disk } := by
  refine Program.eval_bind_ok _ ?_
  simp only [Fs.await, Program.eval_call, Program.eval_done, handle, h]
  rfl

section

variable (hfile : request.destination.IsFile)
include hfile

theorem eval_checkDestination (h : request.config.overwrite = true ∨ w.disk.file request.destination = none) :
    Program.eval c.handle (checkDestination request) w = (.ok (), w) := by
  have hperform := performFile_of_isFile (.metadata request.destination) w.disk (by simpa [FileOp.paths])
  simp only [checkDestination, Fs.attempt, Program.bind_eq, Program.perform_bind, Program.eval_call, handle, hperform]
  cases hf : w.disk.file request.destination with
  | none => simp [FileOp.effect, hf, IoError.missing]
  | some f => simp [FileOp.effect, hf, h.resolve_right (by simp [hf])]

theorem eval_load : Program.eval c.handle (Manifest.load platform.codec request.destination) w =
    (.ok (storedManifest platform.codec request.destination w.disk), w) := by
  have hmanifest := isFile_manifestPath.mpr hfile
  have hperform := performFile_of_isFile (.read (manifestPath request.destination)) w.disk
    (by simpa [FileOp.paths])
  simp only [Manifest.load, Fs.attempt, Program.bind_eq, Program.perform_bind, Program.eval_call, handle, hperform]
  cases hf : w.disk.file (manifestPath request.destination) with
  | none => simp [FileOp.effect, hf, storedManifest]
  | some f => simp [FileOp.effect, hf, storedManifest]

theorem eval_partLen : Program.eval c.handle (partLen request.destination) w =
    (.ok (partData request.destination w.disk).length, w) := by
  have hpart := isFile_partPath.mpr hfile
  have hperform := performFile_of_isFile (.metadata (partPath request.destination)) w.disk
    (by simpa [FileOp.paths])
  simp only [partLen, Fs.attempt, Program.bind_eq, Program.perform_bind, Program.eval_call, handle, hperform]
  cases hf : w.disk.file (partPath request.destination) with
  | none => simp [FileOp.effect, hf, partData, IoError.missing]
  | some f => simp [FileOp.effect, hf, partData]

/-- Opening a `.part`. -/
theorem eval_open (start : ℕ) (manifest : Manifest) :
    Program.eval c.handle (PartFile.open request.destination start manifest) w =
      let (disk, file) := w.disk.touch (partPath request.destination)
      (.ok ⟨request.destination, file, start, false, manifest⟩,
        { w with disk := disk.update file (·.setLen start) }) := by
  have hpart := isFile_partPath.mpr hfile
  have hparent : Program.eval c.handle (PartFile.createParent request.destination) w = (.ok (), w) := by
    unfold PartFile.createParent
    split
    · next parent _ =>
      simp only [Fs.await, Program.eval_call, handle, performFile]
      split <;> rfl
    · rfl
  refine (Program.eval_bind_ok _ hparent).trans ?_
  refine (eval_await (performFile_of_isFile _ _ (by simpa [FileOp.paths]))).trans ?_
  refine (eval_await (performFile_of_isFile _ _ (by simp [FileOp.paths]))).trans ?_
  exact (eval_await (performFile_of_isFile _ _ (by simp [FileOp.paths]))).trans rfl

end

theorem eval_sendGet {offset : ℕ} {prior : Option Manifest} {httpRequest : HttpRequest} (hstops : c.stops w.disk = false)
    (h : getRequest platform request offset prior = .ok httpRequest) :
    Program.eval c.handle (sendGet platform request offset prior) w =
      (.ok (some (c.reply httpRequest)), { w with served := some ⟨httpRequest, c.reply httpRequest, c.content⟩ }) := by
  unfold sendGet
  refine (Program.eval_bind_ok _ eval_pollStop).trans ?_
  rw [hstops, h]
  rfl

variable {post : Result WorkerResult → World → Prop}

/-- An attempt, up to the request. -/
theorem run_holds (hfile : request.destination.IsFile)
    (h : request.config.overwrite = true ∨ w.disk.file request.destination = none)
    (hresume : (resume platform request (storedManifest platform.codec request.destination w.disk)).Holds c.env anyOp
      post w) : (Worker.run platform request).Holds c.env anyOp post w :=
  Program.holds_bind_of_eval _ (eval_checkDestination hfile h) (Program.holds_bind_of_eval _ (eval_load hfile) hresume)

section

variable {loaded : Option Manifest} {offset : ℕ} {httpRequest : HttpRequest} (hstops : c.stops w.disk = false)
  (hoffset : Program.eval c.handle (resumeFrom request (loaded.filter (·.isResumableFor request.url))) w = (.ok offset, w))
  (hget : getRequest platform request offset (loaded.filter (·.isResumableFor request.url)) = .ok httpRequest)
include hstops hoffset hget

/-- An attempt that is answered. -/
theorem resume_holds_of_ne (h416 : (c.reply httpRequest).status.code ≠ 416)
    (h : (receive platform request offset (c.reply httpRequest)).Holds c.env anyOp post
      { w with served := some ⟨httpRequest, c.reply httpRequest, c.content⟩ }) :
    (resume platform request loaded).Holds c.env anyOp post w := by
  refine Program.holds_bind_of_eval _ hoffset (Program.holds_bind_of_eval _ (eval_sendGet hstops hget) ?_)
  simp only [h416, if_false]
  exact h

/-- An attempt that has asked for too much, and asks again. -/
theorem resume_holds_of_eq {again : HttpRequest} (h416 : (c.reply httpRequest).status.code = 416)
    (hagain : getRequest platform request 0 none = .ok again)
    (h : (receive platform request offset (c.reply again)).Holds c.env anyOp post
      { w with served := some ⟨again, c.reply again, c.content⟩ }) :
    (resume platform request loaded).Holds c.env anyOp post w := by
  refine Program.holds_bind_of_eval _ hoffset (Program.holds_bind_of_eval _ (eval_sendGet hstops hget) ?_)
  simp only [h416, if_true]
  exact Program.holds_bind_of_eval _
    (eval_sendGet (w := ⟨w.disk, some ⟨httpRequest, c.reply httpRequest, c.content⟩⟩) hstops hagain) h

end

/-- What can be computed is one of the courses there are. -/
theorem leads_of_eval {α : Type} {S : Surroundings} {p : Async α} {r : Result α} {w' : World}
    (hguard : ∀ op disk, S.guard op disk) (hserver : ∀ request, S.server request (c.reply request) c.content)
    (h : Program.eval c.handle p w = (r, w')) : p.Leads S.env w r w' := by
  have hleads := Program.leads_eval _ (c.env_handle hguard hserver) p w
  rwa [h] at hleads

/-- What holds of an attempt nothing goes wrong in, some attempt does. -/
theorem exists_leads {S : Surroundings} (hguard : ∀ op disk, S.guard op disk)
    (hserver : ∀ request, S.server request (c.reply request) c.content)
    (h : (Worker.run platform request).Holds c.env anyOp post w) :
    ∃ r w', (Worker.run platform request).Leads S.env w r w' ∧ post r w' :=
  ⟨_, _, leads_of_eval hguard hserver (Prod.eta _).symm, (Program.holds_handler _).mp h⟩

end Course

/-- Any server, and nothing fails. -/
def Surroundings.anyServer : Surroundings := ⟨fun _ _ _ => True, fun _ => False, fun _ _ => True⟩

/-! ### Two bytes -/

/-- A server that has two bytes. -/
def twoBytes (request : HttpRequest) : Response :=
  if request.headers.get Header.range = some (.text (rangeFrom 1)) ∧
      request.headers.get Header.ifRange = some (.text "v1") then .sample .partialContent "v1" [2]
  else .sample .ok "v1" [1, 2]

/-- The attempt is stopped after the first. -/
def Course.stopped : Course where
  reply := twoBytes
  content := [1, 2]
  stops disk := (partData Request.sample.destination disk).length = 1

/-- The attempt is not stopped. -/
def Course.unstopped : Course := { Course.stopped with stops := fun _ => false }

end DownloadManager
