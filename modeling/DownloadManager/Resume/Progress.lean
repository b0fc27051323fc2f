import DownloadManager.Resume.Crash
import Mathlib.Data.List.Infix

/-!
# How much is downloaded again

A transfer makes a checkpoint at most every 4 MiB, so an attempt that is interrupted loses at
most 4 MiB and one buffer, and the next one goes on from the last checkpoint. That is so while
the server honours ranges and keeps its content, and no file operation fails (`InStep`): every
operation of a worker leaves the manifest as it is or moves it forward (`Forward`).

A download whose last byte has been checkpointed asks for a range behind the end, is told that
there is none, and starts again at the first byte.
-/

namespace DownloadManager

open FileSystem Worker

/-- What the manifest on disk vouches for. -/
def storedOffset (codec : Codec) (dest : PathBuf) (disk : Disk) : ℕ :=
  ((storedManifest codec dest disk).map Manifest.resumeOffset).getD 0

/-- How much may be downloaded again: the bytes between two checkpoints, and one buffer. -/
def lossBound : ℕ := PartFile.checkpointBytes + bufferLength

/-- The answer to a request for what comes from an offset on, if there is something. -/
def SendsRest (content : List UInt8) (offset : ℕ) (response : Response) : Prop :=
  response.status.code ≠ 416 ∧
    (response.status.isSuccess → response.status.code = 206 ∧ response.bytes <+: content.drop offset)

instance {content : List UInt8} {offset : ℕ} {response : Response} : Decidable (SendsRest content offset response) :=
  inferInstanceAs (Decidable (_ ∧ _))

/-- **An unchanging resource**: every success has its `ETag` and bytes of its content, and the rest of
it is sent when it is asked for, from before the end. -/
structure Serves (etag : HeaderValue) (content : List UInt8) (httpRequest : HttpRequest) (response : Response) : Prop where
  /-- The `ETag`. -/
  tagged : response.status.isSuccess → response.headers.get Header.etag = some etag
  /-- The body. -/
  bytes : response.status.isSuccess → response.bytes <:+: content
  /-- A range. -/
  ranged : ∀ k < content.length, httpRequest.headers.get Header.range = some (.text (rangeFrom k)) →
    httpRequest.headers.get Header.ifRange = some etag → SendsRest content k response

instance {etag : HeaderValue} {content : List UInt8} {httpRequest : HttpRequest} {response : Response} :
    Decidable (Serves etag content httpRequest response) :=
  decidable_of_iff
    ((response.status.isSuccess → response.headers.get Header.etag = some etag) ∧
      (response.status.isSuccess → response.bytes <:+: content) ∧
      ∀ k < content.length, httpRequest.headers.get Header.range = some (.text (rangeFrom k)) →
        httpRequest.headers.get Header.ifRange = some etag → SendsRest content k response)
    ⟨fun h => ⟨h.1, h.2.1, h.2.2⟩, fun h => ⟨h.tagged, h.bytes, h.ranged⟩⟩

/-- An unchanging resource. What an attempt asks for does not fail, and it is followed until its transfer
is complete. -/
def unfailing (dest : PathBuf) (etag : HeaderValue) (content : List UInt8) : Surroundings where
  server httpRequest response _ := Serves etag content httpRequest response
  faulty op := ¬IsQuery op
  guard op _ := op ≠ .rename (partPath dest) dest

section

variable (platform : Platform) (url : String) (dest : PathBuf) (etag : HeaderValue) (content : List UInt8)

/-- What a download keeps: the manifest is not far behind the `.part`. -/
structure InStep (disk : Disk) : Prop where
  /-- A manifest can be resumed from. -/
  stored : ∀ m, storedManifest platform.codec dest disk = some m →
    dest.IsFile ∧ m.isResumableFor url ∧ m.validator.map .text = some etag
  /-- What it vouches for is there. -/
  le_part : storedOffset platform.codec dest disk ≤ (partData dest disk).length
  /-- What it does not vouch for is bounded. -/
  part_le : (partData dest disk).length ≤
    storedOffset platform.codec dest disk + lossBound
  /-- There is not more than the content. -/
  le_content : (partData dest disk).length ≤ content.length

/-- Before every operation. -/
structure Forward (op : Op) (w : World) : Prop where
  /-- What is kept. -/
  inStep : InStep platform url dest etag content w.disk
  /-- The manifest does not go back. -/
  forward : ∀ r w', (unfailing dest etag content).env op w r w' →
    storedOffset platform.codec dest w.disk ≤ storedOffset platform.codec dest w'.disk
  /-- The `.part` is cut where the manifest says. -/
  cut : ∀ file n, op = .file (.setLen file n) → n = storedOffset platform.codec dest w.disk
  /-- What is being written is not far ahead of it. -/
  written : ∀ file position bytes, op = .file (.writeAll file position bytes) →
    position + bytes.length ≤ storedOffset platform.codec dest w.disk + lossBound

/-- A transfer under way. -/
structure Gaining (disk : Disk) (part : PartFile) : Prop where
  /-- The `.part`. -/
  filling : ∃ data, Filling dest disk part data
  /-- What is kept. -/
  inStep : InStep platform url dest etag content disk
  /-- The last checkpoint. -/
  recorded : part.manifest.resumeOffset = storedOffset platform.codec dest disk
  /-- What the next one will say. -/
  url : part.manifest.url = url
  /-- And of which content. -/
  validator : part.manifest.validator.map .text = some etag
  /-- Something has been written. -/
  pos : part.dirty = true → 0 < part.position

end

section

variable {platform : Platform} {url : String} {dest : PathBuf} {etag : HeaderValue} {content : List UInt8}
  {disk disk' : Disk} {w : World}
  {part : PartFile}

theorem storedOffset_of_some {codec : Codec} {dest : PathBuf} {m : Manifest}
    (h : storedManifest codec dest disk = some m) :
    storedOffset codec dest disk = m.resumeOffset := by
  rw [storedOffset, h, Option.map_some, Option.getD_some]

theorem storedOffset_of_none {codec : Codec} {dest : PathBuf} (h : storedManifest codec dest disk = none) :
    storedOffset codec dest disk = 0 := by
  rw [storedOffset, h, Option.map_none, Option.getD_none]

theorem storedOffset_congr (codec : Codec) {dest : PathBuf} (h : disk.Agree disk' (manifestPath dest)) :
    storedOffset codec dest disk' = storedOffset codec dest disk := by
  rw [storedOffset, storedOffset, storedManifest_congr h]

theorem InStep.congr (h : InStep platform url dest etag content disk)
    (hmanifest : disk.Agree disk' (manifestPath dest))
    (hpart : partData dest disk' = partData dest disk) :
    InStep platform url dest etag content disk' := by
  refine ⟨fun m hm => h.stored m (storedManifest_congr hmanifest ▸ hm), ?_, ?_, ?_⟩
  · rw [storedOffset_congr _ hmanifest, hpart]
    exact h.le_part
  · rw [storedOffset_congr _ hmanifest, hpart]
    exact h.part_le
  · rw [hpart]
    exact h.le_content

/-- An operation that leaves the manifest as it is. -/
theorem InStep.forward (h : InStep platform url dest etag content w.disk) {op : FileOp PathBuf UInt8}
    (hop : ¬op.Modifies w.disk (manifestPath dest))
    (hcut : ∀ file n, op = .setLen file n → n = storedOffset platform.codec dest w.disk)
    (hwritten : ∀ file position bytes, op = .writeAll file position bytes →
      position + bytes.length ≤ storedOffset platform.codec dest w.disk + lossBound) :
    Forward platform url dest etag content (.file op) w := by
  refine ⟨h, fun r w' ⟨_, ⟨fault, _, ho⟩, _⟩ => ?_, fun file n he => hcut file n (Op.file.inj he),
    fun file position bytes he => hwritten file position bytes (Op.file.inj he)⟩
  rw [storedOffset_congr _ (ho.agree hop)]

/-- An operation that changes nothing. -/
theorem InStep.forward_idle (h : InStep platform url dest etag content w.disk) {op : Op} (hop : op.IsIdle) :
    Forward platform url dest etag content op w := by
  cases op with
  | file op =>
    cases op with
    | metadata | read | createDirAll | seek | streamPosition => exact h.forward (fun hm => hm) nofun nofun
    | _ => cases hop
  | send => exact ⟨h, fun r w' ⟨hdisk, _⟩ => by rw [hdisk], nofun, nofun⟩
  | pollStop => exact ⟨h, fun r w' hw => by rw [show w' = w from hw], nofun, nofun⟩

/-! ### Up to the response -/

theorem load_exact (h : InStep platform url dest etag content w.disk) :
    (Manifest.load platform.codec dest).Holds (unfailing dest etag content).env
      (Forward platform url dest etag content)
      (fun r w' => w' = w ∧ r = .ok (storedManifest platform.codec dest w.disk)) w := by
  refine Program.Holds.bind (Q := fun r w' => w' = w ∧ ∃ r', r = .ok r' ∧
    ∀ m, storedManifest platform.codec dest w.disk = m → r'.toOption.bind platform.codec.fromSlice = m) ?_ ?_ ?_
  · refine holds_attempt (h.forward_idle (show Op.IsIdle (.file (.read _)) from trivial))
      fun fault r disk' _ hfault ho => ?_
    refine ⟨by rw [ho.disk_of_isQuery trivial], r, rfl, fun m hm => hm ▸ ?_⟩
    cases ho with
    | effect _ _ hr =>
      subst hr
      unfold storedManifest
      cases hf : w.disk.file (manifestPath dest) <;> simp only [FileOp.effect, hf] <;> rfl
    | fail _ _ hsome => exact absurd trivial (hfault hsome)
    | directory _ hpaths hr =>
      subst hr
      cases hs : storedManifest platform.codec dest w.disk with
      | none => rfl
      | some m =>
        have hfile := (h.stored m hs).1
        refine absurd (fun path hpath => ?_) hpaths
        rw [List.mem_singleton.mp hpath]
        exact isFile_manifestPath.mpr hfile
  · intro r _ h'
    obtain ⟨rfl, r', hr, hstored⟩ := h'
    cases hr
    cases r with
    | error => exact ⟨rfl, congrArg _ (hstored _ rfl)⟩
    | ok bytes => exact ⟨rfl, congrArg _ (hstored _ rfl)⟩
  · intro e _ h'
    obtain ⟨-, r', he, -⟩ := h'
    cases he

theorem partLen_exact (h : InStep platform url dest etag content w.disk) (hfile : dest.IsFile) :
    (partLen dest).Holds (unfailing dest etag content).env
      (Forward platform url dest etag content)
      (fun r w' => w' = w ∧ r = .ok (partData dest w.disk).length) w := by
  refine Program.Holds.bind (Q := fun r w' => w' = w ∧
    ((∃ f, w.disk.file (partPath dest) = some f ∧ r = .ok (.ok f.data.length)) ∨
      w.disk.file (partPath dest) = none ∧ r = .ok (.error .missing))) ?_ ?_ ?_
  · refine holds_attempt (h.forward_idle (show Op.IsIdle (.file (.metadata _)) from trivial))
      fun fault r disk' _ hfault ho => ?_
    refine ⟨by rw [ho.disk_of_isQuery trivial], ?_⟩
    cases ho with
    | effect _ _ hr =>
      subst hr
      cases hf : w.disk.file (partPath dest) with
      | none => exact .inr ⟨rfl, by simp [FileOp.effect, hf]⟩
      | some f => exact .inl ⟨f, rfl, by simp [FileOp.effect, hf]⟩
    | fail _ _ hsome => exact absurd trivial (hfault hsome)
    | directory _ hpaths =>
      refine absurd (fun path hpath => ?_) hpaths
      rw [List.mem_singleton.mp hpath]
      exact isFile_partPath.mpr hfile
  · rintro r _ ⟨rfl, ⟨f, hf, hr⟩ | ⟨hf, hr⟩⟩
    · cases hr
      exact ⟨rfl, by rw [partData_of_file hf]⟩
    · cases hr
      exact ⟨rfl, by simp [partData, hf]⟩
  · rintro e _ ⟨-, ⟨f, -, he⟩ | ⟨-, he⟩⟩ <;> cases he

/-- **A worker asks for what comes after the last checkpoint.** -/
theorem resumeFrom_exact {request : Request}
    (h : InStep platform request.url request.destination etag content w.disk) :
    (resumeFrom request (storedManifest platform.codec request.destination w.disk)).Holds
      (unfailing request.destination etag content).env
      (Forward platform request.url request.destination etag content)
      (fun r w' => w' = w ∧ r = .ok (storedOffset platform.codec request.destination w.disk)) w := by
  cases hs : storedManifest platform.codec request.destination w.disk with
  | none => exact ⟨rfl, by rw [storedOffset_of_none hs]⟩
  | some m =>
    refine (partLen_exact h (h.stored m hs).1).bind ?_ ?_
    · intro n _ h'
      obtain ⟨rfl, hn⟩ := h'
      cases hn
      have hle := h.le_part
      rw [storedOffset_of_some hs] at hle ⊢
      exact ⟨rfl, congrArg _ (Nat.min_eq_left hle)⟩
    · intro e _ h'
      obtain ⟨-, he⟩ := h'
      cases he

theorem sendGet_serves {request : Request} {offset : ℕ} {prior : Option Manifest}
    (h : InStep platform url dest etag content w.disk) :
    (sendGet platform request offset prior).Holds (unfailing dest etag content).env
      (Forward platform url dest etag content)
      (fun r w' => w'.disk = w.disk ∧ ∀ response, r = .ok (some response) → ∃ httpRequest,
        getRequest platform request offset prior = .ok httpRequest ∧ Serves etag content httpRequest response) w := by
  refine Program.Holds.bind (Q := fun _ w' => w' = w)
    (holds_pollStop (h.forward_idle (show Op.IsIdle .pollStop from trivial)) fun _ => rfl) ?_ ?_
  · rintro stop _ rfl
    cases stop with
    | true => exact ⟨rfl, nofun⟩
    | false =>
      simp only [Bool.false_eq_true, if_false]
      split
      · exact ⟨rfl, nofun⟩
      next httpRequest hget =>
      refine ⟨h.forward_idle (show Op.IsIdle (.send _) from trivial), fun r w' ⟨hdisk, hr⟩ => ?_⟩
      cases r with
      | stopped | failed => exact ⟨hdisk, nofun⟩
      | response response =>
        refine ⟨hdisk, fun _ he => ?_⟩
        cases he
        obtain ⟨_, hserves, -⟩ := hr response rfl
        exact ⟨httpRequest, hget, hserves⟩
  · rintro e _ rfl
    exact ⟨rfl, nofun⟩

/-! ### The transfer -/

namespace Gaining

variable (h : Gaining platform url dest etag content disk part)
include h

theorem isFile : dest.IsFile := h.filling.elim fun _ hfilling => hfilling.isFile

theorem dir : disk.dir (partPath dest) = some part.file := h.filling.elim fun _ hfilling => hfilling.dir

theorem length_partData : (partData dest disk).length = part.position := by
  obtain ⟨data, hfilling⟩ := h.filling
  rw [partData_of_file hfilling.file_eq, hfilling.length_data]

/-- Other files are written. -/
theorem congr (hpart : disk.Agree disk' (partPath dest))
    (hmanifest : disk.Agree disk' (manifestPath dest)) :
    Gaining platform url dest etag content disk' part := by
  obtain ⟨data, hfilling⟩ := h.filling
  refine ⟨⟨data, hfilling.congr hpart⟩, h.inStep.congr hmanifest (partData_congr hpart), ?_, h.url, h.validator, h.pos⟩
  rw [h.recorded, storedOffset_congr _ hmanifest]

/-- What happens to the open file leaves the manifest as it is. -/
theorem agree_manifest (f : Inode UInt8 → Inode UInt8) :
    disk.Agree (disk.update part.file f) (manifestPath dest) := by
  obtain ⟨data, hfilling⟩ := h.filling
  exact hfilling.agree_update (partPath_ne_manifestPath h.isFile).symm f

theorem not_manifest : disk.dir (manifestPath dest) ≠ some part.file := fun hdir =>
  partPath_ne_manifestPath h.isFile (disk.dir_inj _ _ _ h.dir hdir)

/-- The data is made durable. -/
theorem sync : Gaining platform url dest etag content (disk.update part.file .sync) part := by
  obtain ⟨data, hfilling⟩ := h.filling
  have hpart : partData dest (disk.update part.file .sync) = partData dest disk := by
    rw [partData_of_file hfilling.sync.file_eq, partData_of_file hfilling.file_eq, hfilling.sync.data_eq,
      hfilling.data_eq]
  refine ⟨⟨data, hfilling.sync⟩, h.inStep.congr (h.agree_manifest _) hpart, ?_, h.url, h.validator, h.pos⟩
  rw [h.recorded, storedOffset_congr _ (h.agree_manifest _)]

/-- Bytes are written, if only some of those that were to be. -/
theorem inStep_append {bytes : List UInt8}
    (hahead : part.position + bytes.length ≤ storedOffset platform.codec dest disk + lossBound)
    (hcontent : part.position + bytes.length ≤ content.length) :
    InStep platform url dest etag content (disk.update part.file (·.writeAt part.position bytes)) := by
  obtain ⟨data, hfilling⟩ := h.filling
  have happend := hfilling.append bytes
  have hlength : (partData dest (disk.update part.file (·.writeAt part.position bytes))).length =
      part.position + bytes.length := by
    rw [partData_of_file happend.file_eq, happend.length_data]
  have hoffset := storedOffset_congr platform.codec (h.agree_manifest (·.writeAt part.position bytes))
  have hle := h.inStep.le_part
  rw [h.length_partData] at hle
  refine ⟨fun m hm => h.inStep.stored m (storedManifest_congr (h.agree_manifest _) ▸ hm), ?_, ?_, ?_⟩
  · rw [hoffset, hlength]
    omega
  · rw [hoffset, hlength]
    exact hahead
  · rw [hlength]
    exact hcontent

/-- Bytes are written. -/
theorem append {bytes : List UInt8} (hne : bytes ≠ [])
    (hahead : part.position + bytes.length ≤ storedOffset platform.codec dest disk + lossBound)
    (hcontent : part.position + bytes.length ≤ content.length) :
    Gaining platform url dest etag content (disk.update part.file (·.writeAt part.position bytes))
      { part with position := part.position + bytes.length, dirty := true } := by
  obtain ⟨data, hfilling⟩ := h.filling
  refine ⟨⟨_, hfilling.append bytes⟩, h.inStep_append hahead hcontent, ?_, h.url, h.validator, fun _ => ?_⟩
  · rw [storedOffset_congr _ (h.agree_manifest _)]
    exact h.recorded
  · have := List.length_pos_iff.mpr hne
    show 0 < part.position + bytes.length
    omega

/-- **A checkpoint has been made.** -/
theorem saved (hdirty : part.dirty = true) (hpart : disk.Agree disk' (partPath dest))
    (hmanifest : storedManifest platform.codec dest disk' =
      some (part.manifest.setContiguous part.position)) :
    Gaining platform url dest etag content disk'
        { part with manifest := part.manifest.setContiguous part.position, dirty := false } ∧
      storedOffset platform.codec dest disk' = part.position := by
  obtain ⟨data, hfilling⟩ := h.filling
  have hoffset : storedOffset platform.codec dest disk' = part.position := by
    rw [storedOffset_of_some hmanifest, Manifest.resumeOffset_setContiguous]
  have hlength : (partData dest disk').length = part.position := by
    rw [partData_congr hpart, h.length_partData]
  refine ⟨⟨⟨data, (hfilling.congr hpart).record _ _⟩, ⟨fun m hm => ?_, by rw [hoffset, hlength], by omega, ?_⟩, ?_, h.url,
    ?_, nofun⟩, hoffset⟩
  · cases hmanifest.symm.trans hm
    obtain ⟨v, hv, -⟩ := Option.map_eq_some_iff.mp h.validator
    refine ⟨h.isFile, Manifest.isResumableFor_iff.mpr ⟨h.url, ?_, v, hv⟩, h.validator⟩
    rw [Manifest.resumeOffset_setContiguous]
    exact h.pos hdirty
  · rw [hlength, ← h.length_partData]
    exact h.inStep.le_content
  · rw [hoffset]
    exact Manifest.resumeOffset_setContiguous _ _
  · exact (congrArg _ (Manifest.validator_setContiguous _ _)).trans h.validator

end Gaining

/-- `fdatasync`, or `fsync`. -/
theorem Gaining.sync_forward {op : FileOp PathBuf UInt8} (hop : op = .syncData part.file ∨ op = .syncAll part.file)
    (h : Gaining platform url dest etag content w.disk part) :
    (Fs.await op).Holds (unfailing dest etag content).env (Forward platform url dest etag content)
      (fun _ w' => Gaining platform url dest etag content w'.disk part) w := by
  rcases hop with rfl | rfl
  all_goals
    refine holds_await (h.inStep.forward h.not_manifest nofun nofun) fun fault r disk' _ _ ho => ?_
    rcases ho.of_paths_eq_nil rfl with ⟨-, -, rfl⟩ | ⟨-, -, written, rfl⟩
    · exact h.sync
    · cases written <;> exact h

/-- Saving the manifest of a checkpoint. -/
theorem Gaining.save_forward (h : Gaining platform url dest etag content w.disk part) (hdirty : part.dirty = true) :
    ((part.manifest.setContiguous part.position).save platform.codec dest).Holds
      (unfailing dest etag content).env (Forward platform url dest etag content)
      (fun r w' => InStep platform url dest etag content w'.disk ∧ (r = .ok () →
        Gaining platform url dest etag content w'.disk
            { part with manifest := part.manifest.setContiguous part.position, dirty := false } ∧
          storedOffset platform.codec dest w'.disk = part.position)) w := by
  have htmp := partPath_ne_tmpPath h.isFile
  have hmanifest := manifestPath_ne_tmpPath h.isFile
  have hpart := partPath_ne_manifestPath h.isFile
  refine save_rule (h.inStep.forward hmanifest nofun nofun) (fun hagree => ?_) fun hagree hstored => ?_
  · have h₁ := h.congr (hagree _ htmp) (hagree _ hmanifest)
    have hle := h₁.inStep.le_part
    rw [h₁.length_partData] at hle
    refine ⟨fun hwritten => ⟨h₁.inStep, fun r w' ⟨_, ⟨fault, _, ho⟩, _⟩ => ?_, nofun, nofun⟩, fun e => ⟨h₁.inStep, nofun⟩⟩
    -- the temporary file becomes the manifest
    rcases ho.rename with ⟨-, hdisk⟩ | ⟨-, -, hdisk⟩
    · have hsaved := h₁.saved hdirty (Disk.agree_rename htmp hpart)
        (storedManifest_of_file (by rw [Disk.file_rename_target, hwritten]) rfl)
      rw [hdisk, hsaved.2]
      exact hle
    · rw [hdisk]
  · have hsaved := h.saved hdirty (hagree _ htmp hpart) (storedManifest_of_file hstored rfl)
    exact ⟨hsaved.1.inStep, fun _ => hsaved⟩

/-- **A checkpoint moves the manifest forward.** -/
theorem Gaining.checkpoint_forward (h : Gaining platform url dest etag content w.disk part) :
    (part.checkpoint platform.codec).Holds (unfailing dest etag content).env
      (Forward platform url dest etag content)
      (fun r w' => InStep platform url dest etag content w'.disk ∧ ∀ part', r = .ok part' →
        Gaining platform url dest etag content w'.disk part' ∧ part'.position = part.position ∧
          (part.dirty = true → storedOffset platform.codec dest w'.disk = part.position)) w := by
  unfold PartFile.checkpoint
  split_ifs with hclean
  · refine ⟨h.inStep, fun part' hp => ?_⟩
    cases hp
    exact ⟨h, rfl, fun hdirty => by simp [hdirty] at hclean⟩
  refine Program.Holds.bind (Q := fun _ w' => w' = w)
    (holds_await_query trivial
      (h.inStep.forward_idle (show Op.IsIdle (.file (.streamPosition _)) from trivial)) fun _ => rfl) ?_
    fun e _ hw => hw ▸ ⟨h.inStep, nofun⟩
  rintro - _ rfl
  refine (h.sync_forward (.inl rfl)).bind ?_ fun e w' h' => ⟨h'.inStep, nofun⟩
  rintro - w₁ h₁
  obtain rfl : part.dest = dest := h.filling.elim fun _ hfilling => hfilling.dest_eq
  refine (h₁.save_forward (by simpa using hclean)).bind ?_ fun e w' h' => ⟨h'.1, nofun⟩
  intro _ w₂ h'
  obtain ⟨-, h₂⟩ := h'
  obtain ⟨h₂, hoffset⟩ := h₂ rfl
  refine ⟨h₂.inStep, fun part' hp => ?_⟩
  cases hp
  exact ⟨h₂, rfl, fun _ => hoffset⟩

/-- **A write, with the checkpoint it may be followed by**: what is not recorded is less than 4 MiB afterwards. -/
theorem Gaining.write_forward {bytes : List UInt8} (h : Gaining platform url dest etag content w.disk part)
    (hne : bytes ≠ []) (hlength : bytes.length ≤ bufferLength)
    (hahead : part.position < storedOffset platform.codec dest w.disk + PartFile.checkpointBytes)
    (hcontent : part.position + bytes.length ≤ content.length) :
    (part.write platform.codec bytes).Holds (unfailing dest etag content).env
      (Forward platform url dest etag content)
      (fun r w' => InStep platform url dest etag content w'.disk ∧ ∀ part', r = .ok part' →
        Gaining platform url dest etag content w'.disk part' ∧ part'.position = part.position + bytes.length ∧
          part'.position < storedOffset platform.codec dest w'.disk + PartFile.checkpointBytes) w := by
  have hbound : part.position + bytes.length ≤ storedOffset platform.codec dest w.disk + lossBound := by
    unfold lossBound
    omega
  unfold PartFile.write
  refine Program.Holds.bind (Q := fun r w' => InStep platform url dest etag content w'.disk ∧ (r = .ok () →
    Gaining platform url dest etag content w'.disk
      { part with position := part.position + bytes.length, dirty := true })) ?_ ?_ fun e w' h' => ⟨h'.1, nofun⟩
  · refine holds_await (h.inStep.forward h.not_manifest nofun fun file position bytes' he => ?_)
      fun fault r disk' _ _ ho => ?_
    · cases he
      exact hbound
    · rcases ho.of_paths_eq_nil rfl with ⟨-, -, rfl⟩ | ⟨-, ⟨e, rfl⟩, written, rfl⟩
      · exact ⟨(h.append hne hbound hcontent).inStep, fun _ => h.append hne hbound hcontent⟩
      · refine ⟨?_, nofun⟩
        cases written with
        | none => exact h.inStep
        | some n =>
          have hle := List.length_take_le' n bytes
          exact h.inStep_append (by omega) (by omega)
  intro _ w₁ h'
  obtain ⟨-, h₁⟩ := h'
  have h₁ := h₁ rfl
  refine Program.Holds.bind (Q := fun _ w' => w' = w₁)
    (holds_await_query trivial
      (h₁.inStep.forward_idle (show Op.IsIdle (.file (.streamPosition _)) from trivial)) fun _ => rfl) ?_
    fun e _ hw => hw ▸ ⟨h₁.inStep, nofun⟩
  rintro - _ rfl
  dsimp only
  split_ifs with hdue
  · refine h₁.checkpoint_forward.mono fun r w' ⟨hstep, hpart⟩ => ⟨hstep, fun part' hp => ?_⟩
    obtain ⟨h', hposition, hoffset⟩ := hpart part' hp
    refine ⟨h', hposition, ?_⟩
    rw [hposition, hoffset rfl]
    exact Nat.lt_add_of_pos_right (by decide)
  · refine ⟨h₁.inStep, fun part' hp => ?_⟩
    cases hp
    have hrecorded : part.manifest.resumeOffset = _ := h₁.recorded
    refine ⟨h₁, rfl, ?_⟩
    dsimp only
    omega

/-- The end of a transfer. -/
theorem Gaining.finalize_forward {post : Result PathBuf → World → Prop}
    (h : Gaining platform url dest etag content w.disk part)
    (herror : ∀ e w', InStep platform url dest etag content w'.disk → post (.error e) w') :
    part.finalize.Holds (unfailing dest etag content).env (Forward platform url dest etag content) post w := by
  have hdest : part.dest = dest := h.filling.elim fun _ hfilling => hfilling.dest_eq
  unfold PartFile.finalize
  refine (h.sync_forward (.inr rfl)).bind ?_ fun e w' h' => herror e w' h'.inStep
  rintro - w₁ h₁
  rw [hdest]
  -- it is not followed any further
  exact ⟨⟨h₁.inStep, fun r w' ⟨hguard, _⟩ => absurd rfl hguard, nofun, nofun⟩, fun r w' ⟨hguard, _⟩ => absurd rfl hguard⟩

/-- What opens a `.part` leaves the manifest as it is. -/
theorem InStep.opens (h : InStep platform url dest etag content w.disk) {op : Op}
    (hop : Opens dest (storedOffset platform.codec dest w.disk) w.disk op) :
    Forward platform url dest etag content op w := by
  cases op with
  | file op =>
    cases op with
    | openFile path =>
      obtain rfl : path = partPath dest := hop
      refine ⟨h, fun r w' ⟨_, ⟨fault, _, ho⟩, _⟩ => ?_, nofun, nofun⟩
      rcases ho.openFile with ⟨hfile, -, hdisk⟩ | ⟨-, hdisk⟩
      · have hfile := isFile_partPath.mp hfile
        rw [hdisk, storedOffset_congr _ (Disk.agree_touch (partPath_ne_manifestPath hfile).symm)]
      · rw [hdisk]
    | setLen file n =>
      obtain ⟨hfile, hdir, rfl⟩ := hop
      refine h.forward (fun hm => partPath_ne_manifestPath hfile (w.disk.dir_inj _ _ _ hdir hm)) ?_ nofun
      rintro _ n ⟨⟩
      rfl
    | _ => exact h.forward_idle hop
  | _ => exact h.forward_idle hop

/-- **The `.part` is opened, and cut where the manifest says.** -/
theorem InStep.open_forward {start : ℕ} {manifest : Manifest} (h : InStep platform url dest etag content w.disk)
    (hstart : start = storedOffset platform.codec dest w.disk) (hurl : manifest.url = url)
    (hvalidator : manifest.validator.map .text = some etag) (hoffset : manifest.resumeOffset = start) :
    (PartFile.open dest start manifest).Holds (unfailing dest etag content).env
      (Forward platform url dest etag content)
      (fun r w' => InStep platform url dest etag content w'.disk ∧ ∀ part, r = .ok part →
        Gaining platform url dest etag content w'.disk part ∧ part.position = start ∧
          start = storedOffset platform.codec dest w'.disk) w := by
  refine open_rule
    (B := fun w => InStep platform url dest etag content w.disk ∧ start = storedOffset platform.codec dest w.disk)
    (A := fun part w => Gaining platform url dest etag content w.disk part ∧ part.position = start ∧
      start = storedOffset platform.codec dest w.disk) ?_ ?_ ?_ ?_ ⟨h, hstart⟩
  · intro w hfile h'
    obtain ⟨h, rfl⟩ := h'
    have hmanifest := Disk.agree_touch (d := w.disk) (partPath_ne_manifestPath hfile).symm
    exact ⟨h.congr hmanifest (partData_touch dest w.disk), (storedOffset_congr _ hmanifest).symm⟩
  · intro w file hfile hdir _ h'
    obtain ⟨h, hstart⟩ := h'
    have hfilling := Filling.of_setLen start manifest hfile hdir
    have hmanifest : w.disk.Agree (w.disk.update file (·.setLen start)) (manifestPath dest) :=
      Disk.agree_update (fun hm => partPath_ne_manifestPath hfile (w.disk.dir_inj _ _ _ hdir hm)) _
    have hcongr := storedOffset_congr platform.codec hmanifest
    have hlength : (partData dest (w.disk.update file (·.setLen start))).length = start := by
      rw [partData_of_file hfilling.file_eq, hfilling.length_data]
    have hpart := h.le_part
    have hcontent := h.le_content
    refine ⟨⟨⟨_, hfilling⟩, ⟨fun m hm => h.stored m (storedManifest_congr hmanifest ▸ hm), ?_, ?_, ?_⟩, ?_, hurl,
      hvalidator, nofun⟩, rfl, hstart.trans hcongr.symm⟩
    · rw [hlength, hcongr, hstart]
    · rw [hlength, hcongr, hstart]
      exact Nat.le_add_right _ _
    · rw [hlength]
      omega
    · rw [hcongr, ← hstart]
      exact hoffset
  · intro w h'
    obtain ⟨h, hstart⟩ := h'
    exact ⟨fun op hop => h.opens (hstart ▸ hop), fun e => ⟨h, nofun⟩⟩
  · intro w part h'
    obtain ⟨hgaining, hposition, hstart⟩ := h'
    refine ⟨fun op hop => hgaining.inStep.forward_idle hop, fun e => ⟨hgaining.inStep, nofun⟩,
      hgaining.inStep, fun part' hp => ?_⟩
    cases hp
    exact ⟨hgaining, hposition, hstart⟩

/-- The transfer loop. -/
theorem Gaining.transfer_forward {bodyError : Option String} {progress : Progress} {chunks : List Chunk}
    (h : Gaining platform url dest etag content w.disk part)
    (hahead : part.position < storedOffset platform.codec dest w.disk + PartFile.checkpointBytes)
    (hbytes : part.position + (chunks.map Chunk.bytes).flatten.length ≤ content.length) :
    (transfer platform bodyError part progress chunks).Holds (unfailing dest etag content).env
      (Forward platform url dest etag content) (fun _ w' => InStep platform url dest etag content w'.disk) w := by
  refine transfer_rule (F := fun part _ chunks w => Gaining platform url dest etag content w.disk part ∧
    part.position < storedOffset platform.codec dest w.disk + PartFile.checkpointBytes ∧
    part.position + (chunks.map Chunk.bytes).flatten.length ≤ content.length) ?_ ?_ ?_ ?_ ?_ ⟨h, hahead, hbytes⟩
  · intro part progress chunks w h'
    obtain ⟨h, -, -⟩ := h'
    exact h.inStep.forward_idle trivial
  · rintro part progress chunks w _ ⟨h, -, -⟩ rfl
    exact h.checkpoint_forward.mono fun _ _ h' => h'.1
  · rintro part progress chunk chunks w _ ⟨h, hahead, hbytes⟩ rfl
    rw [List.map_cons, List.flatten_cons, List.length_append] at hbytes
    refine (h.write_forward chunk.ne_nil chunk.length_le hahead (by omega)).mono fun r w' ⟨hstep, hpart⟩ => ?_
    cases r with
    | error => exact hstep
    | ok part' =>
      obtain ⟨h', hposition, hahead'⟩ := hpart part' rfl
      refine ⟨h', hahead', ?_⟩
      rw [hposition]
      omega
  · rintro part progress w _ error ⟨h, -, -⟩ rfl -
    exact h.checkpoint_forward.mono fun _ _ h' => h'.1
  · rintro part progress w _ ⟨h, -, -⟩ rfl -
    exact h.finalize_forward fun e w' hstep => hstep

/-! ### The attempt -/

/-- **The rest is sent**, unless there is none: what an answer has is written where the manifest says. -/
theorem Serves.continues {request : Request} {httpRequest : HttpRequest} {response : Response}
    (h : InStep platform request.url request.destination etag content disk)
    (hrest : ∀ m ∈ storedManifest platform.codec request.destination disk, m.resumeOffset ≠ content.length)
    (hget : getRequest platform request (storedOffset platform.codec request.destination disk)
      (storedManifest platform.codec request.destination disk) = .ok httpRequest)
    (hserves : Serves etag content httpRequest response) :
    (response.status.code = 416 → storedOffset platform.codec request.destination disk = 0) ∧
      (response.status.isSuccess →
        (if response.status.code = 206 then storedOffset platform.codec request.destination disk else 0) =
          storedOffset platform.codec request.destination disk ∧
        storedOffset platform.codec request.destination disk + response.bytes.length ≤ content.length) := by
  cases hs : storedManifest platform.codec request.destination disk with
  | none =>
    rw [storedOffset_of_none hs]
    exact ⟨fun _ => rfl, fun hsuccess => ⟨ite_self 0, by simpa using (hserves.bytes hsuccess).length_le⟩⟩
  | some m =>
    have hle := h.le_part.trans h.le_content
    rw [hs, storedOffset_of_some hs] at hget
    rw [storedOffset_of_some hs] at hle ⊢
    have hlt : m.resumeOffset < content.length := Nat.lt_of_le_of_ne hle (hrest m hs)
    obtain ⟨-, hresumable, hetag⟩ := h.stored m hs
    obtain ⟨-, hpos, v, hv⟩ := Manifest.isResumableFor_iff.mp hresumable
    rw [hv, Option.map_some, Option.some.injEq] at hetag
    rcases getRequest_cases (fun _ => ⟨m, v, rfl, hv⟩) hget with ⟨hzero, -⟩ | ⟨-, m', v', hm, hv', rfl⟩
    · exact absurd hpos (hzero ▸ Nat.lt_irrefl 0)
    cases hm
    cases hv.symm.trans hv'
    obtain ⟨h416, hsent⟩ := hserves.ranged m.resumeOffset hlt (range_rangedRequest ..)
      (hetag ▸ HeaderMap.get_insert_self ..)
    refine ⟨fun h => absurd h h416, fun hsuccess => ?_⟩
    obtain ⟨h206, hbytes⟩ := hsent hsuccess
    have hlength := hbytes.length_le
    rw [List.length_drop] at hlength
    exact ⟨if_pos h206, by omega⟩

/-- From the response on. -/
theorem InStep.receive_forward {request : Request} {offset : ℕ} {httpRequest : HttpRequest} {response : Response}
    {v : String} (htext : etag.toStr = some v)
    (h : InStep platform request.url request.destination etag content w.disk)
    (hserves : Serves etag content httpRequest response)
    (hstart : response.status.isSuccess → (if response.status.code = 206 then offset else 0) =
        storedOffset platform.codec request.destination w.disk ∧
      storedOffset platform.codec request.destination w.disk + response.bytes.length ≤ content.length) :
    (receive platform request offset response).Holds (unfailing request.destination etag content).env
      (Forward platform request.url request.destination etag content)
      (fun _ w' => InStep platform request.url request.destination etag content w'.disk) w := by
  refine receive_holds (fun _ _ => h) ?_
  rintro start total hsuccess rfl -
  obtain ⟨hoffset, hbytes⟩ := hstart hsuccess
  rw [hoffset]
  have hvalidator : (manifestOf request (storedOffset platform.codec request.destination w.disk) total response).validator.map
      HeaderValue.text = some etag := by
    have hheader : responseHeader response Header.etag = some v := by
      rw [responseHeader, hserves.tagged hsuccess]
      exact htext
    rw [manifestOf, Manifest.validator_setContiguous, Manifest.validator, hheader]
    exact congrArg _ (HeaderValue.text_of_toStr htext)
  refine (h.open_forward rfl rfl hvalidator (Manifest.resumeOffset_setContiguous _ _)).bind ?_ fun e w' h' => h'.1
  intro part w₁ h'
  obtain ⟨-, h₁⟩ := h'
  obtain ⟨hgaining, hposition, hstored⟩ := h₁ part rfl
  refine hgaining.transfer_forward ?_ ?_
  · rw [hposition, ← hstored]
    exact Nat.lt_add_of_pos_right (by decide)
  · rw [hposition]
    exact hbytes

/-- **An attempt keeps the manifest in step with the `.part`**, and goes on where the last one was. -/
theorem InStep.run_forward {request : Request} {v : String} (htext : etag.toStr = some v)
    (h : InStep platform request.url request.destination etag content w.disk)
    (hrest : ∀ m ∈ storedManifest platform.codec request.destination w.disk, m.resumeOffset ≠ content.length) :
    (run platform request).Holds (unfailing request.destination etag content).env
      (Forward platform request.url request.destination etag content)
      (fun _ w' => InStep platform request.url request.destination etag content w'.disk) w := by
  have hkeep : ∀ w' : World, w'.disk = w.disk → InStep platform request.url request.destination etag content w'.disk :=
    fun w' hw => hw ▸ h
  refine (checkDestination_holds fun op hop w' hw => (hkeep w' hw).forward_idle hop).bind ?_ fun e w' hw =>
    hkeep w' (congrArg _ hw)
  rintro - _ rfl
  refine (load_exact h).bind ?_ fun e w' hw => hkeep w' (congrArg _ hw.1)
  intro loaded w h'
  obtain ⟨rfl, hloaded⟩ := h'
  cases hloaded
  unfold resume
  have hfilter : (storedManifest platform.codec request.destination w.disk).filter (·.isResumableFor request.url) =
      storedManifest platform.codec request.destination w.disk := by
    cases hs : storedManifest platform.codec request.destination w.disk with
    | none => rfl
    | some m => exact Option.filter_some_pos (h.stored m hs).2.1
  rw [hfilter]
  refine (resumeFrom_exact h).bind ?_ fun e w' hw => hkeep w' (congrArg _ hw.1)
  intro offset w h'
  obtain ⟨rfl, hoffset⟩ := h'
  cases hoffset
  refine (sendGet_serves h).bind ?_ fun e w' hw => hkeep w' hw.1
  intro response w' h'
  obtain ⟨hdisk, hresponse⟩ := h'
  cases response with
  | none => exact hkeep w' hdisk
  | some response =>
    obtain ⟨httpRequest, hget, hserves⟩ := hresponse response rfl
    obtain ⟨h416, hstart⟩ := hserves.continues h hrest hget
    dsimp only
    split_ifs with hunsatisfiable
    · -- there was nothing to resume: the request is repeated
      refine (sendGet_serves (hkeep w' hdisk)).bind ?_ fun e w'' hw => hkeep w'' (hw.1.trans hdisk)
      intro restarted w'' h'
      obtain ⟨hdisk', hrestarted⟩ := h'
      cases restarted with
      | none => exact hkeep w'' (hdisk'.trans hdisk)
      | some restarted =>
        obtain ⟨httpRequest', -, hserves'⟩ := hrestarted restarted rfl
        refine (hkeep w'' (hdisk'.trans hdisk)).receive_forward htext hserves' fun hsuccess => ?_
        rw [hdisk', hdisk, h416 hunsatisfiable]
        exact ⟨ite_self 0, by simpa using (hserves'.bytes hsuccess).length_le⟩
    · exact (hkeep w' hdisk).receive_forward htext hserves fun hsuccess => by rw [hdisk]; exact hstart hsuccess

end

/-! ### Attempt after attempt -/

namespace Computer

section

variable (platform : Platform) (url : String) (dest : PathBuf) (etag : HeaderValue) (content : List UInt8)

/-- The file operation that comes next. -/
def fileOp (c : Computer) : Option (FileOp PathBuf UInt8) :=
  match c.pending with
  | some (.file op) => some op
  | _ => none

/-- What is moved next, and where. -/
def moved (c : Computer) : Option (PathBuf × PathBuf) :=
  match c.fileOp with
  | some (.rename path path') => some (path, path')
  | _ => none

/-- How many bytes have been received: those that are about to be written are. -/
def received (c : Computer) : ℕ :=
  match c.fileOp with
  | some (.writeAll _ position bytes) => position + bytes.length
  | _ => (partData dest c.disk).length

/-- The attempts are for one URL and one destination, and the resource does not change. The process may be
killed, in the middle of a write too. -/
def Unchanging (c : Computer) : Action → Prop
  | .start request => request.url = url ∧ request.destination = dest
  | .operation (.send (.response response)) => ∀ httpRequest ∈ c.asked, Serves etag content httpRequest response
  | .operation (.file (some _)) => ∀ op ∈ c.fileOp, ¬IsQuery op
  | .powerLoss _ => False
  | _ => True

instance : (c : Computer) → (a : Action) → Decidable (c.Unchanging url dest etag content a)
  | _, .start request => inferInstanceAs (Decidable (request.url = url ∧ request.destination = dest))
  | c, .operation (.send (.response response)) =>
    inferInstanceAs (Decidable (∀ httpRequest ∈ c.asked, Serves etag content httpRequest response))
  | c, .operation (.file (some _)) => inferInstanceAs (Decidable (∀ op ∈ c.fileOp, ¬IsQuery op))
  | _, .operation (.send .stopped) | _, .operation (.send (.failed _)) | _, .operation (.file none)
  | _, .operation (.pollStop _) | _, .kill => .isTrue trivial
  | _, .powerLoss _ => .isFalse id

/-- The condition: no attempt starts when the manifest on disk vouches for the whole content, and the
download has not been moved to its destination. -/
def Unfinished (c : Computer) : Action → Prop
  | .start _ => ∀ m ∈ storedManifest platform.codec dest c.disk, m.resumeOffset ≠ content.length
  | .operation _ => c.moved ≠ some (partPath dest, dest)
  | _ => True

instance : (c : Computer) → (a : Action) → Decidable (c.Unfinished platform dest content a)
  | c, .start _ =>
    inferInstanceAs (Decidable (∀ m ∈ storedManifest platform.codec dest c.disk, m.resumeOffset ≠ content.length))
  | c, .operation _ => inferInstanceAs (Decidable (c.moved ≠ some (partPath dest, dest)))
  | _, .kill | _, .powerLoss _ => .isTrue trivial

/-- The manifest is in step with the `.part`, and whatever is left to do of the attempt. -/
def Steady (c : Computer) : Prop :=
  InStep platform url dest etag content c.disk ∧
    ∀ request program, c.attempt = some (request, program) → ∃ served,
      program.Holds (unfailing dest etag content).env (Forward platform url dest etag content)
        (fun _ w => InStep platform url dest etag content w.disk) ⟨c.disk, served⟩

end

variable {platform : Platform} {url : String} {dest : PathBuf} {etag : HeaderValue} {content : List UInt8}

theorem Steady.pending {c : Computer} {op : Op}
    (h : c.Steady platform url dest etag content) (hop : c.pending = some op) :
    ∃ served, Forward platform url dest etag content op ⟨c.disk, served⟩ := by
  obtain ⟨disk, attempt⟩ := c
  simp only [Computer.pending] at hop
  split at hop
  · cases hop
    obtain ⟨served, hholds⟩ := h.2 _ _ rfl
    exact ⟨served, hholds.1⟩
  · cases hop

theorem pending_of_fileOp {c : Computer} {op : FileOp PathBuf UInt8} (h : c.fileOp = some op) :
    c.pending = some (.file op) := by
  unfold fileOp at h
  split at h
  · next hop =>
    cases h
    exact hop
  · cases h

/-- **No step takes the manifest back.** -/
theorem Steady.step {c c' : Computer} {a : Action} {v : String} (htext : etag.toStr = some v)
    (h : c.Steady platform url dest etag content)
    (ha : c.Unchanging url dest etag content a ∧ c.Unfinished platform dest content a)
    (hstep : c.step platform a = some c') :
    c'.Steady platform url dest etag content ∧
      storedOffset platform.codec dest c.disk ≤ storedOffset platform.codec dest c'.disk := by
  obtain ⟨hin, hholds⟩ := h
  cases a with
  | start request =>
    simp only [Computer.step, Option.ite_none_left_eq_some, Option.some.injEq] at hstep
    obtain ⟨-, rfl⟩ := hstep
    obtain ⟨⟨rfl, rfl⟩, hrest⟩ := ha
    refine ⟨⟨hin, fun _ program hprogram => ?_⟩, Nat.le_refl _⟩
    cases hprogram
    exact ⟨none, hin.run_forward htext hrest⟩
  | kill =>
    cases hstep
    exact ⟨⟨hin, by simp⟩, Nat.le_refl _⟩
  | powerLoss lost => exact ha.1.elim
  | operation choice =>
    obtain ⟨disk, attempt⟩ := c
    simp only [Computer.step] at hstep
    split at hstep
    swap
    · cases hstep
    next request op next =>
    obtain ⟨⟨r, disk'⟩, hperform, rfl⟩ := Option.map_eq_some_iff.mp hstep
    obtain ⟨served, hop⟩ := hholds _ _ rfl
    obtain ⟨served', henv⟩ := Surroundings.env_of_perform (S := unfailing dest etag content) hperform served
      (fun fileOp fault hop' hchoice => by
        subst hop' hchoice
        refine ⟨fun hmoved => ?_, fun hfault => ?_⟩
        · subst hmoved
          exact ha.2 rfl
        · obtain ⟨f, rfl⟩ := Option.isSome_iff_exists.mp hfault
          exact ha.1 fileOp rfl)
      (fun httpRequest response hop' hchoice => by subst hop' hchoice; exact ⟨content, ha.1 httpRequest rfl⟩)
    have hnext := hop.2 r _ henv
    refine ⟨⟨hnext.now (fun _ h => h.inStep) fun _ => id, fun _ program hprogram => ?_⟩, hop.1.forward r _ henv⟩
    cases hprogram
    exact ⟨served', hnext⟩

/-- What has been received is not far ahead of the manifest. -/
theorem Steady.received_le {c : Computer} (h : c.Steady platform url dest etag content) :
    c.received dest ≤ storedOffset platform.codec dest c.disk + lossBound := by
  unfold received
  split
  · next file position bytes hop =>
    obtain ⟨served, hforward⟩ := h.pending (pending_of_fileOp hop)
    exact hforward.written file position bytes rfl
  · exact h.1.part_le

/-- The `.part` is cut where the manifest says. -/
theorem Steady.cut_eq {c : Computer} {n : ℕ} (h : c.Steady platform url dest etag content) (hcut : c.cut = some n) :
    n = storedOffset platform.codec dest c.disk := by
  unfold cut at hcut
  split at hcut
  · next file k hop =>
    cases hcut
    obtain ⟨served, hforward⟩ := h.pending hop
    exact hforward.cut file n rfl
  · cases hcut

/-- **Every attempt goes on from the last checkpoint**, which is at most 4 MiB and a buffer behind what has
been received: in every run whose steps meet the condition, wherever the attempts before are interrupted. -/
theorem loss_bounded {disk : Disk} {as bs : List Action} {c₁ c₂ : Computer} {n : ℕ} {v : String}
    (htext : etag.toStr = some v) (hmanifest : disk.file (manifestPath dest) = none)
    (hpart : disk.file (partPath dest) = none) (h₁ : Machine.exec (step platform) ⟨disk, none⟩ as = some c₁)
    (h₂ : Machine.exec (step platform) c₁ bs = some c₂)
    (hmeets : Machine.Along (step platform) (fun c a =>
      c.Unchanging url dest etag content a ∧ c.Unfinished platform dest content a) ⟨disk, none⟩ (as ++ bs))
    (hcut : c₂.cut = some n) :
    storedOffset platform.codec dest c₁.disk ≤ n ∧ c₁.received dest ≤ n + lossBound := by
  have hinit : Steady platform url dest etag content ⟨disk, none⟩ := by
    have hstored : storedManifest platform.codec dest disk = none := by rw [storedManifest, hmanifest, Option.bind_none]
    have hdata : partData dest disk = [] := by rw [partData, hpart, Option.map_none, Option.getD_none]
    refine ⟨⟨fun m hm => ?_, ?_, ?_, ?_⟩, by simp⟩
    · rw [hstored] at hm
      cases hm
    · rw [storedOffset_of_none hstored]
      exact Nat.zero_le _
    · rw [hdata]
      exact Nat.zero_le _
    · rw [hdata]
      exact Nat.zero_le _
  obtain ⟨has, hbs⟩ := hmeets.of_append _ h₁
  have hsteady₁ := Machine.exec_induct_along (step platform) (fun _ _ _ hc ha h => (hc.step htext ha h).1) as has hinit h₁
  obtain ⟨hsteady₂, hle⟩ := Machine.exec_induct_along (step platform)
    (Q := fun c => c.Steady platform url dest etag content ∧
      storedOffset platform.codec dest c₁.disk ≤ storedOffset platform.codec dest c.disk)
    (fun _ _ _ hc ha h => (hc.1.step htext ha h).imp_right hc.2.trans) bs hbs ⟨hsteady₁, Nat.le_refl _⟩ h₂
  rw [hsteady₂.cut_eq hcut]
  exact ⟨hle, hsteady₁.received_le.trans (Nat.add_le_add_right hle _)⟩

/-- An attempt for two bytes that is stopped after the last: both are checkpointed. -/
def wholeRun : List Action :=
  [.start .sample, file, file, poll false, .operation (.send (.response (.sample .ok "v1" [1, 2]))), file, file, file,
    file, poll false, file, file, poll false, file, file, poll true, file, file, file, file]

/-- The next attempt asks for what comes after the second byte, and then for everything. -/
def restartedRun : List Action :=
  [.start .sample, file, file, file, poll false, .operation (.send (.response .unsatisfiable)), poll false,
    .operation (.send (.response (.sample .ok "v1" [1, 2]))), file, file]

/-- The next attempt after one that was stopped in time. -/
def resumedRun : List Action :=
  [.start .sample, file, file, file, poll false, .operation (.send (.response (.sample .partialContent "v1" [2]))), file,
    file]

/-- The attempt after a stopped one goes on at the second byte. -/
theorem loss_bounded_resumedRun :
    ∃ c₁ c₂, Machine.exec (step .sample) ⟨.empty, none⟩ stoppedRun = some c₁ ∧
      Machine.exec (step .sample) c₁ resumedRun = some c₂ ∧ c₂.cut = some 1 ∧
      storedOffset Json.codec Request.sample.destination c₁.disk ≤ 1 ∧ c₁.received Request.sample.destination ≤ 1 + lossBound := by
  have h : (Machine.exec (step .sample) ⟨.empty, none⟩ (stoppedRun ++ resumedRun)).any (fun c => c.cut = some 1) := by
    decide +kernel
  obtain ⟨c₂, hrun, hcut⟩ := Machine.exists_exec_of_any (step .sample) h
  obtain ⟨c₁, h₁, h₂⟩ := Option.bind_eq_some_iff.mp ((Machine.exec_append ..).symm.trans hrun)
  have hmeets : Machine.Along (step .sample) (fun c a =>
      c.Unchanging Request.sample.url Request.sample.destination (.text "v1") [1, 2] a ∧
        c.Unfinished .sample Request.sample.destination [1, 2] a) ⟨.empty, none⟩ (stoppedRun ++ resumedRun) :=
    Machine.Along.and _ (by decide +kernel) (by decide +kernel)
  exact ⟨c₁, c₂, h₁, h₂, hcut, loss_bounded rfl rfl rfl h₁ h₂ hmeets hcut⟩

/-- **A download that is stopped after its last byte starts again at the first**, although all of it has been
checkpointed. -/
theorem restarted_when_whole :
    ∃ c₁ c₂, Machine.exec (step .sample) ⟨.empty, none⟩ wholeRun = some c₁ ∧
      Machine.exec (step .sample) c₁ restartedRun = some c₂ ∧
      Machine.Along (step .sample) (Unchanging Request.sample.url Request.sample.destination (.text "v1") [1, 2])
        ⟨.empty, none⟩ (wholeRun ++ restartedRun) ∧
      storedOffset Json.codec Request.sample.destination c₁.disk = 2 ∧ c₂.cut = some 0 := by
  have hwhole : (Machine.exec (step .sample) ⟨.empty, none⟩ wholeRun).any (fun c =>
      storedOffset Json.codec Request.sample.destination c.disk = 2) := by decide +kernel
  have h : (Machine.exec (step .sample) ⟨.empty, none⟩ (wholeRun ++ restartedRun)).any (fun c => c.cut = some 0) := by
    decide +kernel
  obtain ⟨c, hc, hstored⟩ := Machine.exists_exec_of_any (step .sample) hwhole
  obtain ⟨c₂, hrun, hcut⟩ := Machine.exists_exec_of_any (step .sample) h
  obtain ⟨c₁, h₁, h₂⟩ := Option.bind_eq_some_iff.mp ((Machine.exec_append ..).symm.trans hrun)
  cases hc.symm.trans h₁
  exact ⟨c, c₂, hc, h₂, by decide +kernel, hstored, hcut⟩

end Computer

end DownloadManager
