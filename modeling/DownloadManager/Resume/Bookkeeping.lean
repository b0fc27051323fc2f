import DownloadManager.Resume.Course
import DownloadManager.Resume.Transfer

/-!
# The bookkeeping of a part file

An open `.part` is used by `write` and `checkpoint` only, in any order. Through all of it the
position is the length of the file, the manifest in memory is behind by less than
`PartFile.checkpointBytes`, and a manifest is saved only for bytes that have just been made
durable (`bookkept`).
-/

namespace DownloadManager

open FileSystem Worker

namespace PartFile

/-- A use of an open `.part`. -/
inductive Call where
  /-- Bytes are written. -/
  | write (bytes : List UInt8)
  /-- A checkpoint is asked for. -/
  | checkpoint
  deriving DecidableEq

/-- The bytes a call writes. -/
def Call.bytes : Call → List UInt8
  | write bytes => bytes
  | checkpoint => []

/-- The bytes some calls write. -/
def written (calls : List Call) : List UInt8 := (calls.map Call.bytes).flatten

section

variable (codec : Codec)

/-- A call. -/
def call (part : PartFile) : Call → Async PartFile
  | .write bytes => part.write codec bytes
  | .checkpoint => part.checkpoint codec

/-- One call after the other. -/
def use (part : PartFile) : List Call → Async PartFile
  | [] => pure part
  | c :: calls => do (← part.call codec c).use calls

/-- Is a manifest only saved for durable bytes, and for all of them? -/
def Persists (dest : PathBuf) : Op → World → Prop
  | .file (.write path bytes), w => path = tmpPath dest ∧ ∃ m f, bytes = codec.toVec m ∧
      w.disk.file (partPath dest) = some f ∧ f.synced = f.data.length ∧ m.resumeOffset = f.synced
  | .file (.rename path path'), w => path = tmpPath dest ∧ path' = manifestPath dest ∧ ∃ m f g,
      w.disk.file (tmpPath dest) = some g ∧ g.data = codec.toVec m ∧
      w.disk.file (partPath dest) = some f ∧ f.synced = f.data.length ∧ m.resumeOffset = f.synced
  | _, _ => True

/-- What is kept of an open `.part`, after some calls. -/
structure Bookkept (dest : PathBuf) (retained : List UInt8) (calls : List Call) (part : PartFile) (disk : Disk) :
    Prop where
  /-- The file is what was retained and what has been written. -/
  filling : Filling dest disk part (retained ++ written calls)
  /-- The manifest is not ahead, and not far behind. -/
  behind : part.manifest.resumeOffset ≤ part.position ∧
    part.position - part.manifest.resumeOffset < checkpointBytes
  /-- When nothing has been written since, it is not behind at all. -/
  clean : part.dirty = false → part.manifest.resumeOffset = part.position
  /-- Nor is the one on disk, if anything has been written. -/
  saved : part.dirty = false → (∃ bytes, .write bytes ∈ calls) →
    ∃ m, storedManifest codec dest disk = some m ∧ m.resumeOffset = part.position

end

variable {codec : Codec} {S : Surroundings} {dest : PathBuf} {data : List UInt8} {part : PartFile} {w : World}

/-- A query of an open `.part`. -/
theorem persists_of_isQuery {op : FileOp PathBuf UInt8} (hop : IsQuery op) : Persists codec dest (.file op) w := by
  cases op <;> first | exact trivial | cases hop

/-- **A checkpoint of a `.part` that has been written to.** -/
theorem checkpoint_persists (h : Filling dest w.disk part data) (hdirty : part.dirty = true) :
    (part.checkpoint codec).Holds S.env (Persists codec dest)
      (fun r w' => ∀ part', r = .ok part' → Filling dest w'.disk part' data ∧ part'.dirty = false ∧
        part'.manifest.resumeOffset = part'.position ∧
        ∃ m, storedManifest codec dest w'.disk = some m ∧ m.resumeOffset = part'.position) w := by
  have hpart := partPath_ne_tmpPath h.isFile
  have hmanifest := partPath_ne_manifestPath h.isFile
  unfold PartFile.checkpoint
  simp only [hdirty, Bool.not_true, Bool.false_eq_true, if_false]
  refine Program.Holds.bind (Q := fun _ w' => w' = w)
    (holds_await_query trivial trivial fun _ => rfl) ?_ fun _ _ _ => by simp
  rintro - w rfl
  refine Program.Holds.bind (Q := fun r w' => ∀ a, r = .ok a → Filling dest w'.disk part data ∧
    (w'.disk.inode part.file).synced = part.position) ?_ ?_ fun _ _ _ => by simp
  · refine holds_await trivial fun fault r disk' _ _ ho a hr => ?_
    rcases ho.of_paths_eq_nil rfl with ⟨-, rfl, rfl⟩ | ⟨-, ⟨e, rfl⟩, -⟩
    · refine ⟨h.sync, ?_⟩
      simp only [FileOp.effect, Disk.inode_update_self, Inode.sync_synced, h.length_data]
    · cases hr
  rintro a w₁ h₁
  obtain ⟨h₁, hsynced⟩ := h₁ a rfl
  have hall : (w₁.disk.inode part.file).synced = (w₁.disk.inode part.file).data.length := by
    rw [hsynced, h₁.length_data]
  have hoffset : (part.manifest.setContiguous part.position).resumeOffset = (w₁.disk.inode part.file).synced := by
    rw [Manifest.resumeOffset_setContiguous, hsynced]
  obtain rfl := h₁.dest_eq
  refine Program.Holds.bind (Q := fun r w' => r = .ok () → Filling part.dest w'.disk part data ∧
    w'.disk.file (manifestPath part.dest) =
      some ⟨codec.toVec (part.manifest.setContiguous part.position), 0⟩) ?_ ?_ fun _ _ _ => by simp
  · refine save_rule ⟨rfl, _, _, rfl, h₁.file_eq, hall, hoffset⟩ (fun hagree => ⟨fun htmp => ?_, fun _ => by simp⟩)
      fun hagree hstored _ => ⟨h₁.congr (hagree _ hpart hmanifest), hstored⟩
    exact ⟨rfl, rfl, _, _, _, htmp, rfl, (hagree _ hpart).2.trans h₁.file_eq, hall, hoffset⟩
  · rintro ⟨⟩ w₂ h₂ part' hr
    obtain ⟨h₂, hstored⟩ := h₂ rfl
    cases hr
    exact ⟨h₂.record _ _, rfl, Manifest.resumeOffset_setContiguous .., _, storedManifest_of_file hstored rfl,
      Manifest.resumeOffset_setContiguous ..⟩

@[simp] theorem written_concat (calls : List Call) (c : Call) : written (calls ++ [c]) = written calls ++ c.bytes := by
  simp [written]

namespace Bookkept

variable {retained : List UInt8} {calls : List Call}

/-- A `.part` that has just been opened. -/
theorem opened {start : ℕ} {disk : Disk} {manifest : Manifest} {file : ℕ}
    (h : Filling dest disk ⟨dest, file, start, false, manifest.setContiguous start⟩ retained) :
    Bookkept codec dest retained [] ⟨dest, file, start, false, manifest.setContiguous start⟩ disk where
  filling := by simpa [written] using h
  behind := by simp [checkpointBytes]
  clean _ := Manifest.resumeOffset_setContiguous ..
  saved := by simp

/-- After a checkpoint. -/
theorem checkpointed {c : Call} {part' : PartFile} {disk : Disk}
    (hfilling : Filling dest disk part' (retained ++ written (calls ++ [c])))
    (hoffset : part'.manifest.resumeOffset = part'.position)
    (hsaved : ∃ m, storedManifest codec dest disk = some m ∧ m.resumeOffset = part'.position) :
    Bookkept codec dest retained (calls ++ [c]) part' disk where
  filling := hfilling
  behind := by simp [hoffset, checkpointBytes]
  clean _ := hoffset
  saved _ _ := hsaved

/-- **A call.** -/
theorem call (h : Bookkept codec dest retained calls part w.disk) (c : Call) :
    (part.call codec c).Holds S.env (Persists codec dest)
      (fun r w' => ∀ part', r = .ok part' → Bookkept codec dest retained (calls ++ [c]) part' w'.disk ∧
        (c = .checkpoint → part'.dirty = false)) w := by
  cases c with
  | checkpoint =>
    cases hdirty : part.dirty with
    | true =>
      have hfilling : Filling dest w.disk part (retained ++ written (calls ++ [.checkpoint])) := by
        simpa [Call.bytes] using h.filling
      refine (checkpoint_persists hfilling hdirty).mono fun r w' h' part' hr => ?_
      obtain ⟨hfilling, hclean, hoffset, hsaved⟩ := h' part' hr
      exact ⟨checkpointed hfilling hoffset hsaved, fun _ => hclean⟩
    | false =>
      -- nothing is done
      simp only [PartFile.call, PartFile.checkpoint, hdirty, Bool.not_false, if_true]
      intro part' hr
      cases hr
      refine ⟨⟨by simpa [Call.bytes] using h.filling, h.behind, h.clean, fun hclean hwrote => ?_⟩, fun _ => hdirty⟩
      exact h.saved hclean (by simpa using hwrote)
  | write bytes =>
    simp only [PartFile.call, PartFile.write]
    have hwritten : written calls ++ bytes = written (calls ++ [.write bytes]) := by simp [Call.bytes]
    have hfilling := h.filling.append bytes
    rw [List.append_assoc, hwritten] at hfilling
    refine Program.Holds.bind (Q := fun r w' => r = .ok () →
      w'.disk = w.disk.update part.file (·.writeAt part.position bytes)) ?_ ?_ fun _ _ _ => by simp
    · refine holds_await trivial fun fault r disk' _ _ ho hr => ?_
      rcases ho.of_paths_eq_nil rfl with ⟨-, rfl, rfl⟩ | ⟨-, ⟨e, rfl⟩, -⟩
      · rfl
      · cases hr
    rintro ⟨⟩ w₁ hdisk
    rw [← hdisk rfl] at hfilling
    refine Program.Holds.bind (Q := fun _ w' => w' = w₁)
      (holds_await_query trivial trivial fun _ => rfl) ?_
      fun _ _ _ => by simp
    rintro - _ rfl
    split_ifs with hdue
    · refine (checkpoint_persists hfilling rfl).mono fun r w' h' part' hr => ?_
      obtain ⟨hfilling, -, hoffset, hsaved⟩ := h' part' hr
      exact ⟨checkpointed hfilling hoffset hsaved, by simp⟩
    · intro part' hr
      cases hr
      exact ⟨⟨hfilling, ⟨Nat.le_add_right_of_le h.behind.1, Nat.not_le.mp hdue⟩, by simp, by simp⟩, by simp⟩

/-- **Any calls**, by induction on what is left of them. -/
theorem use (h : Bookkept codec dest retained calls part w.disk) (more : List Call) :
    (part.use codec more).Holds S.env (Persists codec dest)
      (fun r w' => ∀ part', r = .ok part' → Bookkept codec dest retained (calls ++ more) part' w'.disk ∧
        (more.getLast? = some .checkpoint → part'.dirty = false)) w := by
  induction more generalizing calls part w with
  | nil =>
    intro part' hr
    cases hr
    exact ⟨by simpa using h, by simp⟩
  | cons c more ih =>
    refine (h.call c).bind ?_ fun _ _ _ => by simp
    rintro part₁ w₁ h₁
    obtain ⟨h₁, hclean⟩ := h₁ part₁ rfl
    cases more with
    | nil =>
      intro part' hr
      cases hr
      exact ⟨h₁, fun hc => hclean (by simpa using hc)⟩
    | cons c' more =>
      refine (ih h₁).mono fun r w' h' part' hr => ?_
      obtain ⟨h', hlast⟩ := h' part' hr
      exact ⟨by simpa using h', fun hc => hlast (by simpa using hc)⟩

end Bookkept

/-- **The bookkeeping of a `.part`** that is opened at an offset within it and used in any way that succeeds. The file
is what was retained and what has been written, and the position is its end; the manifest in memory is not ahead, less
than `checkpointBytes` behind, and not behind when nothing has been written since it was last brought up to date; and
after a checkpoint the manifest on disk vouches for the whole file, if anything was written at all. A manifest is only
ever saved for the bytes that have just been made durable, which are all there are. -/
theorem bookkept {offset : ℕ} (hoffset : offset ≤ (partData dest w.disk).length) (manifest : Manifest)
    (calls : List Call) :
    ((PartFile.open dest offset (manifest.setContiguous offset)).bind fun part => part.use codec calls).Holds S.env
      (Persists codec dest)
      (fun r w' => ∀ part, r = .ok part →
        part.position = offset + (written calls).length ∧
        (∃ f, w'.disk.file (partPath dest) = some f ∧ f.data = (partData dest w.disk).take offset ++ written calls ∧
          f.data.length = part.position) ∧
        (part.manifest.resumeOffset ≤ part.position ∧
          part.position - part.manifest.resumeOffset < checkpointBytes) ∧
        (part.dirty = false → part.manifest.resumeOffset = part.position) ∧
        (calls.getLast? = some .checkpoint → (∃ bytes, .write bytes ∈ calls) →
          ∃ m, storedManifest codec dest w'.disk = some m ∧ m.resumeOffset = part.position)) w := by
  refine Program.Holds.bind (Q := fun r w' => ∀ part, r = .ok part →
    Bookkept codec dest ((partData dest w.disk).take offset) [] part w'.disk) ?_ ?_ fun _ _ _ => by simp
  · refine open_rule (B := fun w' => partData dest w'.disk = partData dest w.disk)
      (A := fun part w' => Bookkept codec dest ((partData dest w.disk).take offset) [] part w'.disk)
      (fun _ h => (partData_touch ..).trans h) (fun hfile hdir _ h => ?_) (fun _ => ⟨fun op hop => ?_, by simp⟩)
      (fun h => ⟨fun op hop => ?_, by simp, fun part' hr => by cases hr; exact h⟩) rfl
    · have hfilling := Filling.of_setLen offset (manifest.setContiguous offset) hfile hdir
      rw [partData_of_file (Disk.file_of_dir hdir)] at h
      rw [Inode.setLen_data_of_le (h ▸ hoffset), h] at hfilling
      exact .opened hfilling
    · cases op with
      | file op => cases op <;> first | exact trivial | cases hop
      | send | pollStop => exact trivial
    · cases op with
      | file op => exact persists_of_isQuery hop
      | send | pollStop => exact trivial
  · rintro part₁ w₁ h₁
    refine ((h₁ part₁ rfl).use calls).mono fun r w' h' part' hr => ?_
    obtain ⟨h', hlast⟩ := h' part' hr
    have hposition := h'.filling.position
    rw [List.nil_append, List.length_append, List.length_take, Nat.min_eq_left hoffset] at hposition
    refine ⟨hposition, ⟨_, h'.filling.file_eq, h'.filling.data_eq, h'.filling.length_data⟩, h'.behind, h'.clean,
      fun hc hwrote => h'.saved (hlast hc) hwrote⟩

/-! ### To run -/

/-- Three bytes, two of which are retained. -/
def threeOf : World := ⟨Disk.empty.put (partPath Request.sample.destination) [1, 2, 3], none⟩

/-- Two bytes are written behind them, an empty buffer in between. -/
def twoWritten : Async PartFile :=
  (PartFile.open Request.sample.destination 2 (Manifest.setContiguous ⟨"http://x/y", some "v1", none, none, []⟩ 2)).bind
    fun part => part.use Json.codec [.write [7], .checkpoint, .write [], .write [8], .checkpoint]

/-- Two bytes written behind two that are retained. -/
theorem bookkept_two :
    ∃ part w', twoWritten.Leads Surroundings.anyServer.env threeOf (.ok part) w' ∧ part.position = 4 ∧
      (∃ f, w'.disk.file (partPath Request.sample.destination) = some f ∧ f.data = [1, 2, 7, 8]) ∧
      ∃ m, storedManifest Json.codec Request.sample.destination w'.disk = some m ∧ m.resumeOffset = 4 := by
  cases heval : Program.eval Course.unstopped.handle twoWritten threeOf with
  | mk r w' =>
    have hleads : twoWritten.Leads Surroundings.anyServer.env threeOf r w' :=
      Course.leads_of_eval (fun _ _ => trivial) (fun _ => trivial) heval
    cases r with
    | error =>
      have hok : (Program.eval Course.unstopped.handle twoWritten threeOf).1.isOk = true := by decide +kernel
      rw [heval] at hok
      cases hok
    | ok part =>
      obtain ⟨hposition, ⟨f, hf, hdata, -⟩, -, -, hstored⟩ := hleads.holds (bookkept (by decide +kernel) _ _) part rfl
      have hposition : part.position = 4 := hposition
      refine ⟨part, w', hleads, hposition, ⟨f, hf, ?_⟩, hposition ▸ hstored rfl ⟨[7], by simp⟩⟩
      rw [hdata]
      decide +kernel

end PartFile

end DownloadManager
