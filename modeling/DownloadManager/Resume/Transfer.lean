import DownloadManager.Resume.Attempt

/-!
# The transfer

What an open `.part` holds while a body is received (`Filling`), what the operations
on it do to that, and the rule for the transfer loop. The rule takes an invariant that
every chunk keeps and says what has to be shown of each way out of the loop; what
surrounds the worker is left open.
-/

namespace DownloadManager

open FileSystem

/-- The open `.part` holds `data`, and the next bytes are written behind it. -/
structure Filling (dest : PathBuf) (disk : Disk) (part : PartFile) (data : List UInt8) : Prop where
  /-- The destination is a file. -/
  isFile : dest.IsFile
  /-- It is the destination of the transfer. -/
  dest_eq : part.dest = dest
  /-- The open file is the `.part`. -/
  dir : disk.dir (partPath dest) = some part.file
  /-- It holds the data. -/
  data_eq : (disk.inode part.file).data = data
  /-- The position is at its end. -/
  position : part.position = data.length

namespace Filling

variable {dest : PathBuf} {disk disk' : Disk} {part : PartFile} {data : List UInt8}

section

variable (h : Filling dest disk part data)
include h

theorem file_eq : disk.file (partPath dest) = some (disk.inode part.file) := Disk.file_of_dir h.dir

theorem length_data : (disk.inode part.file).data.length = part.position := by rw [h.data_eq, h.position]

/-- What happens to the open file happens to no other. -/
theorem agree_update {path : PathBuf} (hpath : path ≠ partPath dest) (f : Inode UInt8 → Inode UInt8) :
    disk.Agree (disk.update part.file f) path :=
  Disk.agree_update (fun hdir => hpath (disk.dir_inj _ _ _ hdir h.dir)) f

theorem writeAt_data (bytes : List UInt8) :
    ((disk.inode part.file).writeAt part.position bytes).data = data ++ bytes := by
  rw [← h.length_data, Inode.writeAt_length_data, h.data_eq]

/-- Bytes are written. -/
theorem append (bytes : List UInt8) :
    Filling dest (disk.update part.file (·.writeAt part.position bytes))
      { part with position := part.position + bytes.length, dirty := true } (data ++ bytes) :=
  ⟨h.isFile, h.dest_eq, h.dir, by rw [Disk.inode_update_self, h.writeAt_data],
    by rw [List.length_append, ← h.position]⟩

/-- The data is made durable. -/
theorem sync : Filling dest (disk.update part.file .sync) part data :=
  ⟨h.isFile, h.dest_eq, h.dir, by rw [Disk.inode_update_self, Inode.sync_data, h.data_eq], h.position⟩

theorem inode_congr (hpart : disk.Agree disk' (partPath dest)) : disk'.inode part.file = disk.inode part.file := by
  have hfile := hpart.2
  rw [h.file_eq, Disk.file_of_dir (hpart.1.trans h.dir)] at hfile
  exact Option.some.inj hfile

/-- Other files are written. -/
theorem congr (hpart : disk.Agree disk' (partPath dest)) : Filling dest disk' part data :=
  ⟨h.isFile, h.dest_eq, hpart.1.trans h.dir, by rw [h.inode_congr hpart, h.data_eq], h.position⟩

/-- The record of a checkpoint. -/
theorem record (manifest : Manifest) (dirty : Bool) :
    Filling dest disk { part with manifest := manifest, dirty := dirty } data :=
  ⟨h.isFile, h.dest_eq, h.dir, h.data_eq, h.position⟩

end

/-- The `.part` is opened and cut. -/
theorem of_setLen (start : ℕ) (manifest : Manifest) (hfile : dest.IsFile) {file : ℕ}
    (hdir : disk.dir (partPath dest) = some file) :
    Filling dest (disk.update file (·.setLen start)) ⟨dest, file, start, false, manifest⟩
      ((disk.inode file).setLen start).data :=
  ⟨hfile, rfl, hdir, by rw [Disk.inode_update_self], by rw [Inode.length_setLen_data]⟩

end Filling

namespace Worker

section

variable {platform : Platform} {ident : String → List UInt8} {request : Request} {disk disk' : Disk} {start : ℕ}
  {e : Exchange}

theorem storedManifest_congr {codec : Codec} {dest : PathBuf} (h : disk.Agree disk' (manifestPath dest)) :
    storedManifest codec dest disk' = storedManifest codec dest disk := by
  rw [storedManifest, storedManifest, h.2]

theorem storedManifest_of_file {codec : Codec} {dest : PathBuf} {f : Inode UInt8} {m : Manifest}
    (h : disk.file (manifestPath dest) = some f) (hf : f.data = codec.toVec m) :
    storedManifest codec dest disk = some m := by
  rw [storedManifest, h, Option.bind_some, hf, codec.fromSlice_toVec]

theorem partData_congr {dest : PathBuf} (h : disk.Agree disk' (partPath dest)) :
    partData dest disk' = partData dest disk := by
  rw [partData, partData, h.2]

theorem partData_of_file {dest : PathBuf} {f : Inode UInt8} (h : disk.file (partPath dest) = some f) :
    partData dest disk = f.data := by
  rw [partData, h, Option.map_some, Option.getD_some]

@[simp] theorem partData_touch (dest : PathBuf) (disk : Disk) :
    partData dest (disk.touch (partPath dest)).1 = partData dest disk := by
  rw [partData_of_file (Disk.file_of_dir (Disk.dir_touch_self ..)), Disk.inode_touch]
  cases hf : disk.file (partPath dest) <;> simp [partData, hf]

/-- Opening the `.part` changes nothing about where the transfer starts. -/
theorem Starts.touch (h : Starts platform ident request disk start e) (hfile : request.destination.IsFile) :
    Starts platform ident request (disk.touch (partPath request.destination)).1 start e := by
  have hpart := partData_touch request.destination disk
  have hstored : storedManifest platform.codec request.destination (disk.touch (partPath request.destination)).1 =
      storedManifest platform.codec request.destination disk :=
    storedManifest_congr (Disk.agree_touch (partPath_ne_manifestPath hfile).symm)
  exact ⟨h.bytes, h.le_length, by rw [hstored, hpart]; exact h.kept, h.validators⟩

/-- **What is kept when the `.part` is cut is the content so far**, if the kept bytes are those of the
content their validator identifies. -/
theorem Starts.filling (h : Starts platform ident request disk start e) (hfile : request.destination.IsFile)
    {file : ℕ} (hdir : disk.dir (partPath request.destination) = some file)
    (hkept : ∀ m v, storedManifest platform.codec request.destination disk = some m → m.isResumableFor request.url →
      m.validator = some v → (disk.inode file).data.take m.resumeOffset <+: ident v) (manifest : Manifest) :
    Filling request.destination (disk.update file (·.setLen start))
      ⟨request.destination, file, start, false, manifest⟩ (e.content.take start) := by
  have hfilling := Filling.of_setLen start manifest hfile hdir
  suffices hdata : ((disk.inode file).setLen start).data = e.content.take start from hdata ▸ hfilling
  rcases Nat.eq_zero_or_pos start with rfl | hpos
  · rw [Inode.setLen_data_of_le (Nat.zero_le _), List.take_zero, List.take_zero]
  · obtain ⟨m, v, hm, hresumable, hv, hstart, hident⟩ := h.kept hpos
    rw [partData, Disk.file_of_dir hdir, Option.map_some, Option.getD_some] at hstart
    have hprefix := hkept m v hm hresumable hv
    rw [hident, List.take_eq_take_min, ← hstart] at hprefix
    have hlength : start ≤ (disk.inode file).data.length := by omega
    rw [Inode.setLen_data_of_le hlength, List.prefix_iff_eq_take.mp hprefix, List.length_take,
      Nat.min_eq_left hlength]

end

/-- The operations that open a `.part`. -/
def Opens (dest : PathBuf) (start : ℕ) (disk : Disk) : Op → Prop
  | .file (.openFile path) => path = partPath dest
  | .file (.setLen file n) => dest.IsFile ∧ disk.dir (partPath dest) = some file ∧ n = start
  | op => op.IsIdle

/-- **The rule of opening a `.part`**: `B` holds until it is cut, `A` afterwards. -/
theorem open_rule {S : Surroundings} {pre : Op → World → Prop} {post : Result PartFile → World → Prop} {dest : PathBuf}
    {start : ℕ} {manifest : Manifest} {w : World} {B : World → Prop} {A : PartFile → World → Prop}
    (htouch : ∀ {w : World}, dest.IsFile → B w → B { w with disk := (w.disk.touch (partPath dest)).1 })
    (hcut : ∀ {w : World} {file}, dest.IsFile →
      w.disk.dir (partPath dest) = some file → S.guard (.setLen file start) w.disk →
      B w → A ⟨dest, file, start, false, manifest⟩ { w with disk := w.disk.update file (·.setLen start) })
    (hbefore : ∀ {w}, B w → (∀ op, Opens dest start w.disk op → pre op w) ∧ ∀ e, post (.error e) w)
    (hafter : ∀ {w part}, A part w → (∀ op, op.IsIdle → pre op w) ∧ (∀ e, post (.error e) w) ∧
      post (.ok part) w) (h : B w) :
    (PartFile.open dest start manifest).Holds S.env pre post w := by
  unfold PartFile.open
  refine Program.Holds.bind (Q := fun _ w' => w' = w) ?_ ?_ fun e _ hw => hw ▸ (hbefore h).2 e
  · unfold PartFile.createParent
    split
    · next parent _ =>
      exact holds_await_query (show IsQuery (.createDirAll parent) from trivial) ((hbefore h).1 _ trivial) fun _ => rfl
    · exact rfl
  rintro - w rfl
  refine Program.Holds.bind (Q := fun r w' => B w' ∧ ∀ file, r = .ok file → dest.IsFile ∧
    w'.disk.dir (partPath dest) = some file) ?_ ?_ fun e w' hw => (hbefore hw.1).2 e
  · refine holds_await ((hbefore h).1 _ rfl) fun fault r disk' _ _ ho => ?_
    rcases ho.openFile with ⟨hfile, rfl, rfl⟩ | ⟨⟨e, rfl⟩, rfl⟩
    · have hfile := isFile_partPath.mp hfile
      exact ⟨htouch hfile h, fun file hf => ⟨hfile, by cases hf; exact Disk.dir_touch_self ..⟩⟩
    · exact ⟨h, fun _ hf => by cases hf⟩
  intro file w₁ h'
  obtain ⟨h₁, hopened⟩ := h'
  obtain ⟨hfile, hdir⟩ := hopened file rfl
  refine Program.Holds.bind (Q := fun r w' => (r = .ok () ∧ A ⟨dest, file, start, false, manifest⟩ w') ∨
    (∃ e, r = .error e) ∧ B w') ?_ ?_ ?_
  · refine holds_await ((hbefore h₁).1 _ ⟨hfile, hdir, rfl⟩) fun fault r disk' hguard _ ho => ?_
    rcases ho.of_paths_eq_nil rfl with ⟨-, rfl, rfl⟩ | ⟨-, ⟨e, rfl⟩, written, rfl⟩
    · exact .inl ⟨rfl, hcut hfile hdir hguard h₁⟩
    · refine .inr ⟨⟨_, rfl⟩, ?_⟩
      cases written <;> exact h₁
  · rintro a w₂ (⟨-, h₂⟩ | ⟨⟨e, he⟩, -⟩)
    swap
    · cases he
    refine Program.Holds.bind (Q := fun _ w' => w' = w₂) ?_ ?_ fun e _ hw => hw ▸ (hafter h₂).2.1 e
    · exact holds_await_query trivial ((hafter h₂).1 _ trivial) fun _ => rfl
    · rintro - w₂ rfl
      exact (hafter h₂).2.2
  · rintro e w₂ (⟨hr, -⟩ | ⟨-, h₂⟩)
    · cases hr
    · exact (hbefore h₂).2 e

/-- **The rule of saving a manifest**: it is written next to the old one, which it replaces when it is complete. -/
theorem save_rule {S : Surroundings} {pre : Op → World → Prop} {post : Result Unit → World → Prop} {codec : Codec}
    {manifest : Manifest} {dest : PathBuf} {w : World}
    (hwrite : pre (.file (.write (tmpPath dest) (codec.toVec manifest))) w)
    (hwritten : ∀ {w'}, (∀ path, path ≠ tmpPath dest → w.disk.Agree w'.disk path) →
      (w'.disk.file (tmpPath dest) = some ⟨codec.toVec manifest, 0⟩ →
        pre (.file (.rename (tmpPath dest) (manifestPath dest))) w') ∧ ∀ e, post (.error e) w')
    (hsaved : ∀ {w'}, (∀ path, path ≠ tmpPath dest → path ≠ manifestPath dest → w.disk.Agree w'.disk path) →
      w'.disk.file (manifestPath dest) = some ⟨codec.toVec manifest, 0⟩ → post (.ok ()) w') :
    (manifest.save codec dest).Holds S.env pre post w := by
  refine Program.Holds.bind (Q := fun r w' => (∀ path, path ≠ tmpPath dest → w.disk.Agree w'.disk path) ∧
    (r = .ok () → w'.disk.file (tmpPath dest) = some ⟨codec.toVec manifest, 0⟩)) ?_ ?_
    fun e w' h => (hwritten h.1).2 e
  · refine holds_await hwrite fun fault r disk' _ _ ho => ⟨fun path hne => ho.agree hne, fun hr => ?_⟩
    rcases ho.write with ⟨-, rfl⟩ | ⟨-, e, rfl⟩
    · exact Disk.file_put_self ..
    · cases hr
  · intro _ w₁ h'
    obtain ⟨h₁, htmp⟩ := h'
    refine holds_await ((hwritten h₁).1 (htmp rfl)) fun fault r disk' _ _ ho => ?_
    rcases ho.rename with ⟨rfl, rfl⟩ | ⟨-, ⟨e, rfl⟩, rfl⟩
    · refine hsaved (fun path htmp hmanifest => (h₁ path htmp).trans (Disk.agree_rename htmp hmanifest)) ?_
      rw [Disk.file_rename_target, htmp rfl]
    · exact (hwritten h₁).2 _

variable {σ : Type*} {env : Program.Env Op Op.Reply σ} {pre : Op → σ → Prop} {post : Result WorkerResult → σ → Prop}
  {platform : Platform} {bodyError : Option String} {F : PartFile → Progress → List Chunk → σ → Prop}

/-- **The rule of the transfer loop**, by induction on what is left of the body: `F` holds at the head of
the loop. -/
theorem transfer_rule
    (hpoll : ∀ {part progress chunks s}, F part progress chunks s → pre .pollStop s)
    (hstop : ∀ {part progress chunks s s'}, F part progress chunks s → env .pollStop s true s' →
      (part.checkpoint platform.codec).Holds env pre (fun r => post (r.map fun _ => .stopped)) s')
    (hwrite : ∀ {part progress chunk chunks s s'}, F part progress (chunk :: chunks) s → env .pollStop s false s' →
      (part.write platform.codec chunk.bytes).Holds env pre
        (Program.andThen (fun part' => F part' (progress.add chunk.bytes.length) chunks) post) s')
    (hbroken : ∀ {part progress s s' error}, F part progress [] s → env .pollStop s false s' → bodyError = some error →
      (part.checkpoint platform.codec).Holds env pre (fun _ => post (.error (.network error))) s')
    (hfinish : ∀ {part progress s s'}, F part progress [] s → env .pollStop s false s' → bodyError = none →
      part.finalize.Holds env pre (fun r => post (r.map fun path => .finished ⟨path, progress.bytes⟩)) s')
    {part : PartFile} {progress : Progress} {chunks : List Chunk} {s : σ} (h : F part progress chunks s) :
    (transfer platform bodyError part progress chunks).Holds env pre post s := by
  have hstopped : ∀ {part progress chunks s s'}, F part progress chunks s → env .pollStop s true s' →
      ((part.checkpoint platform.codec).bind fun _ => .done (.ok .stopped)).Holds env pre post s' :=
    fun h hs => (hstop h hs).bind (fun _ _ hp => hp) fun _ _ hp => hp
  induction chunks generalizing part progress s with
  | nil =>
    unfold transfer
    refine ⟨hpoll h, fun stop s' hs => ?_⟩
    cases stop with
    | true => exact hstopped h hs
    | false =>
      cases hbody : bodyError with
      | none => exact (hfinish h hs hbody).bind (fun _ _ hp => hp) fun _ _ hp => hp
      | some error => exact (hbroken h hs hbody).attempt_bind fun _ _ hp => hp
  | cons chunk chunks ih =>
    unfold transfer
    refine ⟨hpoll h, fun stop s' hs => ?_⟩
    cases stop with
    | true => exact hstopped h hs
    | false => exact (hwrite h hs).bind (fun part' s'' h'' => ih h'') fun _ _ hp => hp

end Worker

end DownloadManager
