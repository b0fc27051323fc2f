import DownloadManager.Resume.Course
import DownloadManager.Resume.Transfer

/-!
# What a finished download holds

A destination with no other writer, attempts one after another, and no crash: an
attempt runs to its end, which may be a stop or an error, but what it writes to the
disk it writes. Between two attempts the bytes the next one would keep are those of
the content the manifest's validator identifies (`Kept`), for the URL of that
manifest, whatever URL the attempts are for.

In an attempt this is not so between the first write and the next checkpoint; a
transfer keeps track of it with its `dirty` flag (`Receiving`).
-/

namespace DownloadManager

open FileSystem Worker

variable (codec : Codec) (ident : String → String → List UInt8) (dest : PathBuf)

/-- The bytes the manifest on disk vouches for are those of the content it identifies. -/
def Kept (disk : Disk) : Prop :=
  ∀ m v, storedManifest codec dest disk = some m → m.validator = some v →
    (partData dest disk).take m.resumeOffset <+: ident m.url v

/-- A transfer that began at `start`, and has `data` of a content now. -/
structure Receiving (start : ℕ) (disk : Disk) (part : PartFile) (data content : List UInt8) : Prop
    extends Filling dest disk part data where
  /-- It is the first part of the content. -/
  isPrefix : data <+: content
  /-- The manifest to be saved vouches for the content. -/
  validator : ∀ v, part.manifest.validator = some v → ident part.manifest.url v = content
  /-- The manifest on disk is right, unless something has been written since the last checkpoint. -/
  clean : part.dirty = false → Kept codec ident dest disk
  /-- It vouches for all the data, unless nothing has been written at all. -/
  recorded : part.dirty = false → part.position = start ∨
    storedManifest codec dest disk = some (part.manifest.setContiguous part.position)

variable {codec ident dest} {disk disk' : Disk} {part : PartFile} {data content : List UInt8} {start : ℕ}

theorem Kept.congr (h : Kept codec ident dest disk) (hmanifest : disk.Agree disk' (manifestPath dest))
    (hpart : partData dest disk' = partData dest disk) : Kept codec ident dest disk' := by
  intro m v hm hv
  rw [hpart]
  exact h m v (storedManifest_congr hmanifest ▸ hm) hv

theorem Kept.of_part_none (h : disk.file (partPath dest) = none) : Kept codec ident dest disk := by
  intro m v _ _
  simp [partData, h]

theorem Kept.touch (h : Kept codec ident dest disk) (hfile : dest.IsFile) :
    Kept codec ident dest (disk.touch (partPath dest)).1 :=
  h.congr (Disk.agree_touch (partPath_ne_manifestPath hfile).symm) (partData_touch dest disk)

namespace Receiving

variable (h : Receiving codec ident dest start disk part data content)
include h

/-- More of the content is written. -/
theorem append {bytes : List UInt8} (hbytes : data ++ bytes <+: content) :
    Receiving codec ident dest start (disk.update part.file (·.writeAt part.position bytes))
      { part with position := part.position + bytes.length, dirty := true } (data ++ bytes) content :=
  ⟨h.toFilling.append bytes, hbytes, h.validator, nofun, nofun⟩

/-- The data is made durable. -/
theorem sync : Receiving codec ident dest start (disk.update part.file .sync) part data content := by
  have hagree := h.agree_update (partPath_ne_manifestPath h.isFile).symm .sync
  refine ⟨h.toFilling.sync, h.isPrefix, h.validator, fun hdirty => (h.clean hdirty).congr hagree ?_, ?_⟩
  · rw [partData_of_file h.toFilling.sync.file_eq, partData_of_file h.file_eq, Disk.inode_update_self, Inode.sync_data]
  · rw [storedManifest_congr hagree]
    exact h.recorded

/-- **A checkpoint**: the manifest is right again. -/
theorem saved {f : Inode UInt8} (hpart : disk.Agree disk' (partPath dest))
    (hmanifest : disk'.file (manifestPath dest) = some f)
    (hf : f.data = codec.toVec (part.manifest.setContiguous part.position)) :
    Receiving codec ident dest start disk'
      { part with manifest := part.manifest.setContiguous part.position, dirty := false } data content := by
  have hfilling := (h.toFilling.congr hpart).record (part.manifest.setContiguous part.position) false
  have hstored : storedManifest codec dest disk' = some (part.manifest.setContiguous part.position) := by
    rw [storedManifest, hmanifest, Option.bind_some, hf, codec.fromSlice_toVec]
  refine ⟨hfilling, h.isPrefix, h.validator, fun _ m v hm hv => ?_, fun _ => .inr hstored⟩
  cases hstored.symm.trans hm
  rw [partData_of_file hfilling.file_eq, hfilling.data_eq]
  exact (List.take_prefix _ _).trans (h.validator v hv ▸ h.isPrefix)

end Receiving

/-! ### What a worker does to the disk -/

/-- The operations before a transfer, and the removal of a manifest. -/
def MayFail : FileOp PathBuf UInt8 → Prop
  | .metadata _ | .read _ | .createDirAll _ | .openFile _ | .setLen _ _ | .seek _ _ | .removeFile _ => True
  | _ => False

/-- What is written is written. -/
def Surroundings.Mild (S : Surroundings) : Prop := ∀ op, S.faulty op → MayFail op

section

variable {S : Surroundings} {platform : Platform} {request : Request} {w : World} {e : Exchange}
  {β : Type}

/-- An operation on the open file, which does not fail, and what comes after it. -/
theorem holds_await_open {op : FileOp PathBuf UInt8} {a : op.Value} {f : op.Value → Async β}
    {post : Result β → World → Prop} (hok : (op.effect IoError.missing w.disk).1 = .ok a) (hop : op.paths = [])
    (hfaulty : ¬S.faulty op)
    (h : (f a).Holds S.env anyOp post { w with disk := (op.effect IoError.missing w.disk).2 }) :
    ((Fs.await op).bind f).Holds S.env anyOp post w := by
  refine Program.holds_bind.mpr (holds_await trivial fun fault r disk' _ hfault ho => ?_)
  rcases ho.of_paths_eq_nil hop with ⟨-, rfl, rfl⟩ | ⟨hsome, -⟩
  · rw [hok]
    exact h
  · exact absurd (hfault hsome) hfaulty

/-- A transfer goes on, with `data`, after a write or a checkpoint. -/
structure Goes (codec : Codec) (ident : String → String → List UInt8) (dest : PathBuf) (start : ℕ)
    (data content : List UInt8) (w : World) (part : PartFile) (w' : World) (part' : PartFile) : Prop where
  /-- The server has not been asked. -/
  served : w'.served = w.served
  /-- The destination has not been touched. -/
  agree : w.disk.Agree w'.disk dest
  /-- The source of the data is the same. -/
  url : part'.manifest.url = part.manifest.url
  /-- So is its validator. -/
  validator_eq : part'.manifest.validator = part.manifest.validator
  /-- The data is there. -/
  receiving : Receiving codec ident dest start w'.disk part' data content

/-- Saving the manifest of a checkpoint. -/
theorem Receiving.save_holds (hmild : S.Mild) (h : Receiving codec ident dest start w.disk part data content) :
    ((part.manifest.setContiguous part.position).save codec dest).Holds S.env anyOp
      (fun r w' => r = .ok () ∧ Goes codec ident dest start data content w part w'
        { part with manifest := part.manifest.setContiguous part.position, dirty := false }) w := by
  have htmp := isFile_tmpPath.mpr h.isFile
  have hmanifest := isFile_manifestPath.mpr h.isFile
  have hne := partPath_ne_tmpPath h.isFile
  have hne' := partPath_ne_manifestPath h.isFile
  have hdest := dest_ne_tmpPath h.isFile
  refine Program.Holds.bind (Q := fun r w' => r = .ok () ∧ w'.served = w.served ∧
    w'.disk = w.disk.put (tmpPath dest) (codec.toVec (part.manifest.setContiguous part.position)))
    ?_ ?_ (fun e w' hr => by cases hr.1)
  · refine holds_await trivial fun fault r disk' _ hfault ho => ?_
    rcases ho.write with ⟨rfl, rfl⟩ | ⟨hsome | hfile, -⟩
    · exact ⟨rfl, rfl, rfl⟩
    · exact (hmild _ (hfault hsome)).elim
    · exact absurd htmp hfile
  · intro _ h' h''
    obtain ⟨_, _⟩ := h'
    obtain ⟨-, rfl, rfl⟩ := h''
    refine holds_await trivial fun fault r disk' _ hfault ho => ?_
    rcases ho.rename with ⟨rfl, rfl⟩ | ⟨hsome | hnone | hfile, -⟩
    · refine ⟨rfl, rfl, (Disk.agree_put hdest _).trans (Disk.agree_rename hdest (dest_ne_manifestPath h.isFile)),
        rfl, rfl, h.saved (f := ⟨codec.toVec (part.manifest.setContiguous part.position), 0⟩)
        ((Disk.agree_put hne _).trans (Disk.agree_rename hne hne')) ?_ rfl⟩
      rw [Disk.file_rename_target, Disk.file_put_self]
    · exact (hmild _ (hfault hsome)).elim
    · have := Disk.file_eq_none.mpr hnone
      rw [Disk.file_put_self] at this
      cases this
    · exact absurd ⟨htmp, hmanifest⟩ hfile

/-- **A checkpoint.** -/
theorem Receiving.checkpoint_holds (hmild : S.Mild) (h : Receiving codec ident dest start w.disk part data content) :
    (part.checkpoint codec).Holds S.env anyOp (fun r w' => ∃ part', r = .ok part' ∧ part'.dirty = false ∧
      Goes codec ident dest start data content w part w' part') w := by
  unfold PartFile.checkpoint
  split_ifs with hdirty
  · exact ⟨part, rfl, by simpa using hdirty, rfl, .refl .., rfl, rfl, h⟩
  refine holds_await_open rfl rfl (fun hf => hmild _ hf) ?_
  refine holds_await_open rfl rfl (fun hf => hmild _ hf) ?_
  have hagree := h.agree_update (dest_ne_partPath h.isFile) .sync
  obtain rfl := h.dest_eq
  refine (h.sync.save_holds hmild).bind ?_ fun e w' hr => by cases hr.1
  intro _ w' h'
  obtain ⟨-, h'⟩ := h'
  exact ⟨_, rfl, rfl, h'.served, hagree.trans h'.agree, h'.url, h'.validator_eq, h'.receiving⟩

/-- A write, with the checkpoint it may be followed by. -/
theorem Receiving.write_holds (hmild : S.Mild) (h : Receiving codec ident dest start w.disk part data content)
    {bytes : List UInt8} (hbytes : data ++ bytes <+: content) :
    (part.write codec bytes).Holds S.env anyOp
      (fun r w' => ∃ part', r = .ok part' ∧ Goes codec ident dest start (data ++ bytes) content w part w' part') w := by
  unfold PartFile.write
  refine holds_await_open rfl rfl (fun hf => hmild _ hf) ?_
  refine holds_await_open rfl rfl (fun hf => hmild _ hf) ?_
  have hagree := h.agree_update (dest_ne_partPath h.isFile) (·.writeAt part.position bytes)
  dsimp only
  split_ifs
  · refine ((h.append hbytes).checkpoint_holds hmild).mono ?_
    intro _ w' h'
    obtain ⟨part', rfl, -, h'⟩ := h'
    exact ⟨part', rfl, h'.served, hagree.trans h'.agree, h'.url, h'.validator_eq, h'.receiving⟩
  · exact ⟨_, rfl, rfl, hagree, rfl, rfl, h.append hbytes⟩

/-- **The end of a transfer.** -/
theorem Receiving.finalize_holds (hmild : S.Mild) (h : Receiving codec ident dest start w.disk part data content) :
    part.finalize.Holds S.env anyOp
      (fun r w' => w'.served = w.served ∧ r = .ok dest ∧ Kept codec ident dest w'.disk ∧
        ∃ f, w'.disk.file dest = some f ∧ f.data = data) w := by
  unfold PartFile.finalize
  refine holds_await_open rfl rfl (fun hf => hmild _ hf) ?_
  have hne := dest_ne_partPath h.isFile
  have hsync := h.sync
  obtain rfl := h.dest_eq
  refine Program.Holds.bind (Q := fun r w' => r = .ok () ∧ w'.served = w.served ∧
    w'.disk = (w.disk.update part.file .sync).rename (partPath part.dest) part.dest) ?_ ?_ (fun e w' hr => by cases hr.1)
  · refine holds_await trivial fun fault r disk' _ hfault ho => ?_
    rcases ho.rename with ⟨rfl, rfl⟩ | ⟨hsome | hnone | hfile, -⟩
    · exact ⟨rfl, rfl, rfl⟩
    · exact (hmild _ (hfault hsome)).elim
    · cases hsync.dir.symm.trans hnone
    · exact absurd ⟨isFile_partPath.mpr h.isFile, h.isFile⟩ hfile
  · intro _ h' h''
    obtain ⟨_, _⟩ := h'
    obtain ⟨-, rfl, rfl⟩ := h''
    have hpart : ((w.disk.update part.file .sync).rename (partPath part.dest) part.dest).file (partPath part.dest) =
        none :=
      Disk.file_rename_source hne.symm
    have hdest := Disk.file_rename_target (w.disk.update part.file .sync) (partPath part.dest) part.dest
    refine Program.Holds.bind (Q := fun r w' => (∃ a, r = .ok a) ∧ w'.served = w.served ∧
      w'.disk.file part.dest = (w.disk.update part.file .sync).file (partPath part.dest) ∧
      w'.disk.file (partPath part.dest) = none) ?_ ?_ (fun e w' hr => by obtain ⟨⟨a, ha⟩, -⟩ := hr; cases ha)
    · refine holds_attempt trivial fun fault r disk' _ _ ho => ⟨⟨r, rfl⟩, rfl, ?_, ?_⟩
      · exact (ho.agree (dest_ne_manifestPath h.isFile)).2.trans hdest
      · exact (ho.agree (partPath_ne_manifestPath h.isFile)).2.trans hpart
    · intro a w' h'
      obtain ⟨-, hserved, hdest, hpart⟩ := h'
      refine ⟨hserved, rfl, .of_part_none hpart, _, hdest.trans hsync.file_eq, hsync.data_eq⟩

/-- The transfer loop: the `.part` becomes `whole`. -/
theorem Receiving.transfer_holds (hmild : S.Mild) {bodyError : Option String} {progress : Progress}
    {chunks : List Chunk} {whole : List UInt8} (h : Receiving platform.codec ident dest start w.disk part data content)
    (hprogress : progress.bytes = data.length) (hwhole : data ++ (chunks.map Chunk.bytes).flatten = whole)
    (hle : whole <+: content) :
    (transfer platform bodyError part progress chunks).Holds S.env anyOp
      (fun r w' => w'.served = w.served ∧ Kept platform.codec ident dest w'.disk ∧
        ∀ result, r = .ok (.finished result) → bodyError = none ∧ dest.IsFile ∧ result = ⟨dest, whole.length⟩ ∧
          ∃ f, w'.disk.file dest = some f ∧ f.data = whole) w := by
  refine transfer_rule (F := fun part progress chunks w' => w'.served = w.served ∧
    ∃ data, Receiving platform.codec ident dest start w'.disk part data content ∧ progress.bytes = data.length ∧
      data ++ (chunks.map Chunk.bytes).flatten = whole) (fun _ => trivial) ?_ ?_ ?_ ?_ ⟨rfl, data, h, hprogress, hwhole⟩
  · rintro part progress chunks w₁ _ ⟨hserved, data, h, -⟩ rfl
    refine (h.checkpoint_holds hmild).mono ?_
    intro _ w₂ h'
    obtain ⟨part', rfl, hdirty, h'⟩ := h'
    exact ⟨h'.served.trans hserved, h'.receiving.clean hdirty, nofun⟩
  · rintro part progress chunk chunks w₁ _ ⟨hserved, data, h, hprogress, hwhole⟩ rfl
    rw [List.map_cons, List.flatten_cons, ← List.append_assoc] at hwhole
    have hbytes : data ++ chunk.bytes <+: content := (List.prefix_append _ _).trans (hwhole ▸ hle)
    refine (h.write_holds hmild hbytes).mono ?_
    intro _ w₂ h'
    obtain ⟨part', rfl, h'⟩ := h'
    refine ⟨h'.served.trans hserved, data ++ chunk.bytes, h'.receiving, ?_, hwhole⟩
    rw [Progress.add, List.length_append, hprogress]
  · rintro part progress w₁ _ error ⟨hserved, data, h, -⟩ rfl -
    refine (h.checkpoint_holds hmild).mono ?_
    intro _ w₂ h'
    obtain ⟨part', rfl, hdirty, h'⟩ := h'
    exact ⟨h'.served.trans hserved, h'.receiving.clean hdirty, nofun⟩
  · rintro part progress w₁ _ ⟨hserved, data, h, hprogress, hwhole⟩ rfl hbody
    rw [List.map_nil, List.flatten_nil, List.append_nil] at hwhole
    subst hwhole
    refine (h.finalize_holds hmild).mono ?_
    intro _ w₂ h'
    obtain ⟨hserved', rfl, hkept, hdest⟩ := h'
    exact ⟨hserved'.trans hserved, hkept, fun result hr => by cases hr; exact ⟨hbody, h.isFile, by rw [hprogress], hdest⟩⟩

/-- **The `.part` is cut where the transfer starts**: what is left is the content so far, and a manifest
that is still on disk has nothing wrong to vouch for. -/
theorem Worker.Starts.receiving {file : ℕ} {manifest : Manifest}
    (h : Starts platform (ident request.url) request disk start e)
    (hkept : Kept platform.codec ident request.destination disk) (hfile : request.destination.IsFile)
    (hdir : disk.dir (partPath request.destination) = some file)
    (hmanifest : ∀ v, manifest.validator = some v → ident manifest.url v = e.content) :
    Receiving platform.codec ident request.destination start (disk.update file (·.setLen start))
      ⟨request.destination, file, start, false, manifest⟩ (e.content.take start) e.content := by
  have hpart := partData_of_file (Disk.file_of_dir hdir)
  have hfilling := h.filling hfile hdir (fun m v hm hresumable hv => by
    have := hkept m v hm hv
    rwa [(Manifest.isResumableFor_iff.mp hresumable).1, hpart] at this) manifest
  refine ⟨hfilling, List.take_prefix _ _, hmanifest, fun _ m v hm hv => ?_, fun _ => .inl rfl⟩
  have hagree : disk.Agree (disk.update file (·.setLen start)) (manifestPath request.destination) :=
    Disk.agree_update (fun hm => partPath_ne_manifestPath hfile (disk.dir_inj _ _ _ hdir hm)) _
  rw [storedManifest_congr hagree] at hm
  rw [partData_of_file hfilling.file_eq, hfilling.data_eq]
  rcases Nat.eq_zero_or_pos start with rfl | hpos
  · simp
  · obtain ⟨m', v', hm', hresumable, hv', -, hident⟩ := h.kept hpos
    cases hm.symm.trans hm'
    cases hv.symm.trans hv'
    rw [(Manifest.isResumableFor_iff.mp hresumable).1, hident]
    exact (List.take_prefix _ _).trans (List.take_prefix _ _)

/-- What an attempt leaves that has received a response: what it keeps is right, and if it has finished,
the destination holds the kept bytes and those received. -/
def Leaves (codec : Codec) (ident : String → String → List UInt8) (dest : PathBuf) (start : ℕ) (e : Exchange)
    (served : Option Exchange) (r : Result WorkerResult) (w : World) : Prop :=
  w.served = served ∧ Kept codec ident dest w.disk ∧ ∀ result, r = .ok (.finished result) →
    e.response.bodyError = none ∧ dest.IsFile ∧ result = ⟨dest, (e.content.take start ++ e.response.bytes).length⟩ ∧
      ∃ f, w.disk.file dest = some f ∧ f.data = e.content.take start ++ e.response.bytes

/-- **From the response on.** -/
theorem Worker.Starts.receive_holds (hmild : S.Mild) {offset : ℕ}
    (hstart : start = if e.response.status.code = 206 then offset else 0)
    (h : Starts platform (ident request.url) request w.disk start e)
    (hkept : Kept platform.codec ident request.destination w.disk) :
    (receive platform request offset e.response).Holds S.env anyOp
      (Leaves platform.codec ident request.destination start e w.served) w := by
  have herror : ∀ {error : Error} {w' : World}, w'.served = w.served →
      Kept platform.codec ident request.destination w'.disk →
      Leaves platform.codec ident request.destination start e w.served (.error error) w' :=
    fun hserved hkept => ⟨hserved, hkept, nofun⟩
  refine Worker.receive_holds (fun _ _ => herror rfl hkept) ?_
  rintro _ total - rfl -
  rw [← hstart]
  have hmanifest : ∀ v, (manifestOf request start total e.response).validator = some v → ident request.url v = e.content :=
    fun v hv => h.validators v (validator_manifestOf hv)
  refine Program.Holds.bind (Q := fun r w' => w'.served = w.served ∧ ((∃ error, r = .error error) ∧
      Kept platform.codec ident request.destination w'.disk ∨ ∃ part, r = .ok part ∧
      Receiving platform.codec ident request.destination start w'.disk part (e.content.take start) e.content)) ?_ ?_ ?_
  · refine open_rule
      (B := fun w' => w'.served = w.served ∧ Kept platform.codec ident request.destination w'.disk ∧
        Starts platform (ident request.url) request w'.disk start e)
      (A := fun part w' => w'.served = w.served ∧
        Receiving platform.codec ident request.destination start w'.disk part (e.content.take start) e.content ∧
        part.dirty = false) ?_ ?_ ?_ ?_ ⟨rfl, hkept, h⟩
    · intro w hfile h'
      obtain ⟨hserved, hkept, hstarts⟩ := h'
      exact ⟨hserved, hkept.touch hfile, hstarts.touch hfile⟩
    · intro w file hfile hdir _ h'
      obtain ⟨hserved, hkept, hstarts⟩ := h'
      exact ⟨hserved, hstarts.receiving hkept hfile hdir hmanifest, rfl⟩
    · intro w h'
      obtain ⟨hserved, hkept, -⟩ := h'
      exact ⟨fun _ _ => trivial, fun error => ⟨hserved, .inl ⟨⟨error, rfl⟩, hkept⟩⟩⟩
    · intro w part h'
      obtain ⟨hserved, hreceiving, hdirty⟩ := h'
      exact ⟨fun _ _ => trivial, fun error => ⟨hserved, .inl ⟨⟨error, rfl⟩, hreceiving.clean hdirty⟩⟩,
        hserved, .inr ⟨part, rfl, hreceiving⟩⟩
  · rintro part w₁ ⟨hserved, ⟨⟨error, hr⟩, -⟩ | ⟨part', hr, hreceiving⟩⟩
    · cases hr
    cases hr
    have hle : e.content.take start ++ e.response.bytes <+: e.content := by
      obtain ⟨rest, hrest⟩ := h.bytes
      exact ⟨rest, by rw [List.append_assoc, hrest, List.take_append_drop]⟩
    refine (hreceiving.transfer_holds hmild ?_ rfl hle).mono ?_
    · rw [List.length_take, Nat.min_eq_left h.le_length]
    · intro r w₂ h'
      obtain ⟨hserved', hkept, hfinished⟩ := h'
      exact ⟨hserved'.trans hserved, hkept, hfinished⟩
  · rintro error w₁ ⟨hserved, ⟨-, hkept⟩ | ⟨part, hr, -⟩⟩
    · exact herror hserved hkept
    · cases hr

/-- What a finished attempt has done: the destination holds the kept bytes and those received, which are
the first ones of the content the last response was taken from. -/
structure Delivered (S : Surroundings) (request : Request) (result : DownloadResult) (w : World) (e : Exchange)
    (start : ℕ) : Prop where
  /-- The last exchange. -/
  served : w.served = some e
  /-- The server has answered. -/
  server : S.server e.request e.response e.content
  /-- It has not refused. -/
  success : e.response.status.isSuccess
  /-- It was asked for the URL of the download. -/
  url : e.request.url = request.url
  /-- What was not asked for is kept. -/
  range : if e.response.status.code = 206 then e.request.headers.get Header.range = some (.text (rangeFrom start))
    else start = 0
  /-- The body was read to its end. -/
  body : e.response.bodyError = none
  /-- The file. -/
  file : ∃ f, w.disk.file request.destination = some f ∧ f.data = e.content.take start ++ e.response.bytes
  /-- The result. -/
  result_eq : result = ⟨request.destination, (e.content.take start ++ e.response.bytes).length⟩

/-- **An attempt**: what it keeps is right, and what it delivers. -/
theorem Kept.run_holds (hmild : S.Mild) (hserver : S.server.Faithful (ident request.url) request)
    (h : Kept platform.codec ident request.destination w.disk) :
    (run platform request).Holds S.env anyOp
      (fun r w' => Kept platform.codec ident request.destination w'.disk ∧
        ∀ result, r = .ok (.finished result) → ∃ e start, Delivered S request result w' e start) w := by
  have hother : ∀ {r : Result WorkerResult} {w' : World}, w'.disk = w.disk → (∀ result, r ≠ .ok (.finished result)) →
      Kept platform.codec ident request.destination w'.disk ∧
        ∀ result, r = .ok (.finished result) → ∃ e start, Delivered S request result w' e start :=
    fun hdisk hr => ⟨hdisk ▸ h, fun result hresult => absurd hresult (hr result)⟩
  refine Worker.run_holds (fun _ _ _ _ => trivial) (fun _ w' hdisk => hother hdisk (by simp))
    (fun w' hdisk => hother hdisk (by simp)) ?_
  intro offset e w' hdisk hserved hanswered
  by_cases hsuccess : e.response.status.isSuccess
  · have hstarts := hdisk ▸ hanswered.starts hserver hsuccess
    refine (hstarts.receive_holds hmild rfl (hdisk ▸ h)).mono ?_
    intro r w₁ h'
    obtain ⟨hserved', hkept, hfinished⟩ := h'
    refine ⟨hkept, fun result hr => ?_⟩
    obtain ⟨hbody, -, hresult, hfile⟩ := hfinished result hr
    refine ⟨e, _, hserved'.trans hserved, hanswered.server, hsuccess, hanswered.url, ?_, hbody, hfile, hresult⟩
    split_ifs with h206
    · exact hanswered.range hserver h206
    · rfl
  · rw [receive, if_pos (by simpa using hsuccess)]
    exact hother hdisk (by simp)

end

/-! ### Attempts one after another -/

/-- **A server whose representation may change** with every request. It answers with the whole content, or,
when it was asked for what comes after the first `k` bytes of just this content, with that; or it refuses. -/
inductive Server.Changing (ident : String → String → List UInt8) (httpRequest : HttpRequest) (response : Response)
    (content : List UInt8) : Prop
  /-- `200`. -/
  | whole (hstatus : response.status.code = 200) (hbytes : response.bytes <+: content)
    (hvalidators : ∀ v ∈ validators response, ident httpRequest.url v = content)
  /-- `206`. -/
  | rest {k : ℕ} {v : String} (hstatus : response.status.code = 206)
    (hrange : httpRequest.headers.get Header.range = some (.text (rangeFrom k)))
    (hifRange : httpRequest.headers.get Header.ifRange = some (.text v)) (hk : k < content.length)
    (hv : ident httpRequest.url v = content) (hbytes : response.bytes <+: content.drop k)
    (hvalidators : ∀ v ∈ validators response, ident httpRequest.url v = content)
  /-- `416`, or an error. -/
  | refused (hstatus : response.status.isSuccess = false)

/-- A request whose caller does not ask for ranges. -/
def Request.Plain (request : Request) : Prop :=
  request.config.headers.get Header.range = none ∧ request.config.headers.get Header.ifRange = none

theorem rangeFrom_injective {k n : ℕ} (h : rangeFrom k = rangeFrom n) : k = n := by
  have h : "bytes=".toList ++ Nat.toDigits 10 k ++ ['-'] = "bytes=".toList ++ Nat.toDigits 10 n ++ ['-'] := by
    simpa [rangeFrom] using congrArg String.toList h
  have := congrArg (Nat.ofDigitChars 10 · 0) (List.append_cancel_left (List.append_cancel_right h))
  simpa [Nat.ofDigitChars_ten_toDigits] using this

theorem Server.Changing.faithful {request : Request} (h : request.Plain) :
    Server.Faithful (Server.Changing ident) (ident request.url) request where
  validator := by
    rintro _ response content hurl (⟨-, -, h⟩ | ⟨-, -, -, -, -, -, h⟩ | h) hsuccess
    · exact hurl ▸ h
    · exact hurl ▸ h
    · rw [h] at hsuccess
      cases hsuccess
  whole := by
    rintro _ response content (⟨-, h, -⟩ | ⟨h206, -⟩ | h) hsuccess hne
    · exact h
    · exact absurd h206 hne
    · rw [h] at hsuccess
      cases hsuccess
  own := by
    rintro response content (⟨h200, -⟩ | ⟨-, hrange, -⟩ | h) h206
    · omega
    · cases h.1.symm.trans hrange
    · simp [StatusCode.isSuccess, h206] at h
  rest := by
    rintro offset v response content (⟨h200, -⟩ | ⟨-, hrange, hifRange, hk, hv, hbytes, -⟩ | h) h206
    · omega
    · rw [range_rangedRequest, Option.some.injEq, HeaderValue.text.injEq] at hrange
      rw [rangedRequest, HeaderMap.get_insert_self, Option.some.injEq, HeaderValue.text.injEq] at hifRange
      cases rangeFrom_injective hrange
      exact ⟨hifRange ▸ hv, hk.le, hbytes⟩
    · simp [StatusCode.isSuccess, h206] at h

/-- What surrounds an attempt that is not killed. -/
def changing (ident : String → String → List UInt8) : Surroundings where
  server := Server.Changing ident
  faulty := MayFail
  guard _ _ := True

/-- Attempts for one destination, one after another. -/
def Attempts (platform : Platform) (ident : String → String → List UInt8) (dest : PathBuf) : World → World → Prop :=
  Relation.ReflTransGen fun w w' => ∃ request r, request.destination = dest ∧ request.Plain ∧
    (run platform request).Leads (changing ident).env w r w'

/-- A body that was delivered in full. -/
def Exchange.Full (e : Exchange) : Prop :=
  if e.response.status.code = 206 then
    ∀ k, e.request.headers.get Header.range = some (.text (rangeFrom k)) → e.response.bytes = e.content.drop k
  else e.response.bytes = e.content

variable {platform : Platform}

theorem Kept.attempts {w w' : World} (h : Kept platform.codec ident dest w.disk)
    (hattempts : Attempts platform ident dest w w') : Kept platform.codec ident dest w'.disk := by
  induction hattempts with
  | refl => exact h
  | tail _ hattempt ih =>
    obtain ⟨request, r, rfl, hplain, hrun⟩ := hattempt
    exact (hrun.holds (Kept.run_holds (fun _ => id) (Server.Changing.faithful hplain) ih)).1

/-- **A finished download is the whole content** the last response was taken from, however often the download
was stopped and for whatever URLs, if the body was delivered in full. -/
theorem Attempts.finished_content {w w' w'' : World} {request : Request} {result : DownloadResult}
    (hfresh : w.disk.file (partPath request.destination) = none)
    (hattempts : Attempts platform ident request.destination w w') (hplain : request.Plain)
    (hrun : (run platform request).Leads (changing ident).env w' (.ok (.finished result)) w'') :
    ∃ e, w''.served = some e ∧ Server.Changing ident e.request e.response e.content ∧ e.request.url = request.url ∧
      (e.Full → result = ⟨request.destination, e.content.length⟩ ∧
        ∃ f, w''.disk.file request.destination = some f ∧ f.data = e.content) := by
  have hkept := (Kept.of_part_none hfresh).attempts hattempts
  obtain ⟨e, start, h⟩ :=
    (hrun.holds (Kept.run_holds (fun _ => id) (Server.Changing.faithful hplain) hkept)).2 result rfl
  refine ⟨e, h.served, h.server, h.url, fun hfull => ?_⟩
  have hwhole : e.content.take start ++ e.response.bytes = e.content := by
    have hrange := h.range
    unfold Exchange.Full at hfull
    split_ifs at hrange hfull
    · rw [hfull start hrange, List.take_append_drop]
    · rw [hrange, hfull, List.take_zero, List.nil_append]
  exact hwhole ▸ ⟨h.result_eq, h.file⟩

theorem changing_twoBytes (request : HttpRequest) :
    Server.Changing (fun _ _ => [1, 2]) request (twoBytes request) [1, 2] := by
  unfold twoBytes
  split_ifs with h
  · exact .rest rfl h.1 h.2 (by decide) rfl (List.prefix_refl [2]) fun _ _ => rfl
  · exact .whole rfl (List.prefix_refl [1, 2]) fun _ _ => rfl

/-- A download of two bytes, stopped after the first. -/
theorem Attempts.finished_content_twoBytes :
    ∃ w w' f, Attempts .sample (fun _ _ => [1, 2]) Request.sample.destination ⟨.empty, none⟩ w ∧
      (run .sample .sample).Leads (changing fun _ _ => [1, 2]).env w
        (.ok (.finished ⟨Request.sample.destination, 2⟩)) w' ∧
      w'.disk.file Request.sample.destination = some f ∧ f.data = [1, 2] := by
  have hfirst := Program.leads_eval Course.stopped.handle
    (Course.stopped.env_handle (S := changing fun _ _ => [1, 2]) (fun _ _ => trivial) changing_twoBytes)
    (run .sample .sample) ⟨.empty, none⟩
  generalize hw : (Program.eval Course.stopped.handle (run .sample .sample) ⟨.empty, none⟩).2 = w at hfirst
  have hsecond := Program.leads_eval Course.unstopped.handle
    (Course.unstopped.env_handle (S := changing fun _ _ => [1, 2]) (fun _ _ => trivial) changing_twoBytes)
    (run .sample .sample) w
  have hfinished : (Program.eval Course.unstopped.handle (run .sample .sample) w).1 =
      .ok (.finished ⟨Request.sample.destination, 2⟩) := by
    rw [← hw]
    decide +kernel
  have hserved : ∀ e ∈ (Program.eval Course.unstopped.handle (run .sample .sample) w).2.served,
      e.response.status.code = 206 ∧ e.request.headers.get Header.range = some (.text (rangeFrom 1)) ∧
        e.response.bytes = [2] ∧ e.content = [1, 2] := by
    rw [← hw]
    decide +kernel
  rw [hfinished] at hsecond
  have hattempts : Attempts .sample (fun _ _ => [1, 2]) Request.sample.destination ⟨.empty, none⟩ w :=
    .single ⟨.sample, _, rfl, ⟨rfl, rfl⟩, hfirst⟩
  obtain ⟨e, he, -, -, hfull⟩ := finished_content rfl hattempts ⟨rfl, rfl⟩ hsecond
  obtain ⟨hstatus, hrange, hbytes, hcontent⟩ := hserved e he
  obtain ⟨-, f, hf, hdata⟩ := hfull (by
    rw [Exchange.Full, if_pos hstatus]
    intro k hk
    cases rangeFrom_injective (HeaderValue.text.inj (Option.some.inj (hrange.symm.trans hk)))
    rw [hbytes, hcontent]
    rfl)
  exact ⟨w, _, f, hattempts, hsecond, hf, hdata.trans hcontent⟩

end DownloadManager
