import DownloadManager.Resume.Transfer

/-!
# What a crash leaves behind

The bytes the next attempt will keep are the first ones of the `.part`, as many as
the manifest on disk vouches for. `Durable` says of a disk that they survive a power
loss and belong to the content the manifest's validator identifies.

A worker keeps `Durable` at every operation, failing or not, provided that it never
cuts the `.part` below what the manifest on disk vouches for. The proof follows the
worker: while it writes, what the manifest on disk vouches for is left alone
(`Vouched`), and a checkpoint makes the data durable before it replaces the manifest.
-/

namespace DownloadManager

open FileSystem Worker

variable (codec : Codec) (url : String) (dest : PathBuf) (ident : String → List UInt8)

/-- The bytes the next attempt will keep are durable, and those of the content the
manifest's validator identifies. -/
def Durable (disk : Disk) : Prop :=
  ∀ m, storedManifest codec dest disk = some m → m.isResumableFor url → ∀ f, disk.file (partPath dest) = some f →
    min m.resumeOffset f.data.length ≤ f.synced ∧
      ∀ v, m.validator = some v → f.data.take (min m.resumeOffset f.data.length) <+: ident v

/-- A file that has all the bytes the manifest on disk vouches for. -/
def Vouched (disk : Disk) (f : Inode UInt8) : Prop :=
  ∀ m, storedManifest codec dest disk = some m → m.isResumableFor url →
    m.resumeOffset ≤ f.synced ∧ m.resumeOffset ≤ f.data.length ∧
      ∀ v, m.validator = some v → f.data.take m.resumeOffset <+: ident v

/-- A transfer that has written a part of a content. -/
structure Writing (disk : Disk) (part : PartFile) (content : List UInt8) : Prop
    extends Filling dest disk part (content.take part.position) where
  /-- The manifest to be saved vouches for the content. -/
  validator : ∀ v, part.manifest.validator = some v → ident v = content
  /-- The manifest on disk vouches for no more than what there is. -/
  vouched : Vouched codec url dest ident disk (disk.inode part.file)

variable {codec url dest ident} {disk disk' : Disk} {part : PartFile} {content : List UInt8}

theorem Durable.of_part_none (h : disk.file (partPath dest) = none) : Durable codec url dest ident disk := by
  intro m _ _ f hf
  cases h.symm.trans hf

theorem Vouched.durable (h : Vouched codec url dest ident disk (disk.inode part.file))
    (hdir : disk.dir (partPath dest) = some part.file) : Durable codec url dest ident disk := by
  intro m hm hresumable f hf
  cases (Disk.file_of_dir hdir).symm.trans hf
  obtain ⟨hsynced, hlength, hv⟩ := h m hm hresumable
  rw [Nat.min_eq_left hlength]
  exact ⟨hsynced, hv⟩

theorem Vouched.congr {f : Inode UInt8} (h : Vouched codec url dest ident disk f)
    (hmanifest : disk.Agree disk' (manifestPath dest)) : Vouched codec url dest ident disk' f :=
  fun m hm => h m (storedManifest_congr hmanifest ▸ hm)

/-- What is vouched for stays so when bytes are appended. -/
theorem Vouched.append {f f' : Inode UInt8} {bytes : List UInt8} (h : Vouched codec url dest ident disk f)
    (hdata : f'.data = f.data ++ bytes) (hsynced : min f.synced f.data.length ≤ f'.synced) :
    Vouched codec url dest ident disk f' := by
  intro m hm hresumable
  obtain ⟨h₁, h₂, h₃⟩ := h m hm hresumable
  refine ⟨by omega, by rw [hdata, List.length_append]; omega, fun v hv => ?_⟩
  rw [hdata, List.take_append_of_le_length h₂]
  exact h₃ v hv

/-- **A power loss leaves the kept bytes as they are.** -/
theorem Durable.crash (h : Durable codec url dest ident disk) (lost : ℕ → ℕ → Bool) :
    Durable codec url dest ident (disk.crash lost) := by
  intro m hm hresumable f hf
  obtain ⟨g, lostPart, hg, rfl⟩ := Disk.file_of_crash hf
  obtain ⟨fm, hfm, hm⟩ := Option.bind_eq_some_iff.mp hm
  obtain ⟨gm, lostManifest, hgm, rfl⟩ := Disk.file_of_crash hfm
  have hstored : storedManifest codec dest disk = some m := by
    rcases gm.crash_data_eq_or lostManifest with hdata | hzero
    · rw [storedManifest, hgm, Option.bind_some, ← hdata, hm]
    · rw [codec.fromSlice_of_zero_mem _ hzero] at hm
      cases hm
  obtain ⟨hsynced, hv⟩ := h m hstored hresumable g hg
  rw [Inode.length_crash_data, Inode.crash_synced, Inode.take_crash_data hsynced]
  exact ⟨hsynced, hv⟩

/-! ### What a transfer does to the disk -/

namespace Writing

variable (h : Writing codec url dest ident disk part content)
include h

theorem durable : Durable codec url dest ident disk := h.vouched.durable h.dir

theorem agree_manifest (f : Inode UInt8 → Inode UInt8) : disk.Agree (disk.update part.file f) (manifestPath dest) :=
  h.agree_update (partPath_ne_manifestPath h.isFile).symm f

/-- More of the content is written. -/
theorem append {bytes : List UInt8} (hbytes : bytes <+: content.drop part.position) :
    Writing codec url dest ident (disk.update part.file (·.writeAt part.position bytes))
      { part with position := part.position + bytes.length, dirty := true } content := by
  have htake : content.take part.position ++ bytes = content.take (part.position + bytes.length) := by
    rw [List.take_add, ← List.prefix_iff_eq_take.mp hbytes]
  refine ⟨htake ▸ h.toFilling.append bytes, h.validator, ?_⟩
  rw [Disk.inode_update_self]
  refine (h.vouched.append (?_ : _ = _ ++ bytes) ?_).congr (h.agree_manifest _)
  · rw [h.writeAt_data, h.data_eq]
  · rw [Inode.writeAt_synced, h.length_data]

/-- The data is made durable. -/
theorem sync : Writing codec url dest ident (disk.update part.file .sync) part content := by
  refine ⟨h.toFilling.sync, h.validator, ?_⟩
  rw [Disk.inode_update_self]
  refine (h.vouched.append (?_ : _ = _ ++ []) ?_).congr (h.agree_manifest _)
  · rw [Inode.sync_data, List.append_nil]
  · rw [Inode.sync_synced]
    omega

/-- Other files are written. -/
theorem congr (hpart : disk.Agree disk' (partPath dest)) (hmanifest : disk.Agree disk' (manifestPath dest)) :
    Writing codec url dest ident disk' part content :=
  ⟨h.toFilling.congr hpart, h.validator, h.inode_congr hpart ▸ h.vouched.congr hmanifest⟩

/-- **A manifest is saved for data that is durable.** -/
theorem saved (manifest : Manifest) {f : Inode UInt8} (hpart : disk.Agree disk' (partPath dest))
    (hmanifest : disk'.file (manifestPath dest) = some f) (hf : f.data = codec.toVec manifest)
    (hoffset : manifest.resumeOffset = part.position) (hvalidator : manifest.validator = part.manifest.validator)
    (hsynced : (disk.inode part.file).synced = part.position) :
    Writing codec url dest ident disk' { part with manifest := manifest, dirty := false } content := by
  refine ⟨(h.toFilling.congr hpart).record manifest false, fun v hv => h.validator v (hvalidator ▸ hv), ?_⟩
  intro m hm _
  cases (storedManifest_of_file hmanifest hf).symm.trans hm
  rw [h.inode_congr hpart, hoffset, hsynced, h.length_data]
  refine ⟨Nat.le_refl _, Nat.le_refl _, fun v hv => ?_⟩
  rw [h.validator v (hvalidator ▸ hv), h.data_eq, List.take_take, Nat.min_self]
  exact List.take_prefix _ _

end Writing

/-! ### What a worker does to the disk -/

section

variable {S : Surroundings} {platform : Platform} {request : Request} {w : World}

/-- Before every operation the kept bytes are safe. -/
abbrev safe (codec : Codec) (url : String) (dest : PathBuf) (ident : String → List UInt8) : Op → World → Prop :=
  fun _ w => Durable codec url dest ident w.disk

/-- A query in the middle of a transfer. -/
theorem Writing.await_query (h : Writing codec url dest ident w.disk part content) (op : FileOp PathBuf UInt8)
    (hop : IsQuery op) :
    (Fs.await op).Holds S.env (safe codec url dest ident) (fun _ w' => w' = w) w :=
  holds_await_query hop h.durable fun _ => rfl

theorem Writing.sync_holds {op : FileOp PathBuf UInt8} (hop : op = .syncData part.file ∨ op = .syncAll part.file)
    (h : Writing codec url dest ident w.disk part content) :
    (Fs.await op).Holds S.env (safe codec url dest ident)
      (fun r w' => Writing codec url dest ident w'.disk part content ∧
        ∀ a, r = .ok a → (w'.disk.inode part.file).synced = part.position) w := by
  refine holds_await h.durable fun fault r disk' _ _ ho => ?_
  rcases hop with rfl | rfl
  all_goals
    rcases ho.of_paths_eq_nil rfl with ⟨-, rfl, rfl⟩ | ⟨-, ⟨e, rfl⟩, written, rfl⟩
    · refine ⟨h.sync, fun _ _ => ?_⟩
      simp only [FileOp.effect, Disk.inode_update_self, Inode.sync_synced, h.length_data]
    · refine ⟨?_, fun _ hr => by cases hr⟩
      cases written <;> exact h

/-- Saving a manifest for data that is durable. -/
theorem Writing.save_holds (manifest : Manifest) (h : Writing codec url dest ident w.disk part content)
    (hoffset : manifest.resumeOffset = part.position) (hvalidator : manifest.validator = part.manifest.validator)
    (hsynced : (w.disk.inode part.file).synced = part.position) :
    (manifest.save codec dest).Holds S.env (safe codec url dest ident)
      (fun r w' => Durable codec url dest ident w'.disk ∧
        (r = .ok () →
            Writing codec url dest ident w'.disk { part with manifest := manifest, dirty := false } content)) w := by
  have hne := manifestPath_ne_tmpPath h.isFile
  have hne' := partPath_ne_tmpPath h.isFile
  refine save_rule h.durable (fun hagree => ?_) fun hagree hstored => ?_
  · have hdurable := (h.congr (hagree _ hne') (hagree _ hne)).durable
    exact ⟨fun _ => hdurable, fun e => ⟨hdurable, fun hr => by cases hr⟩⟩
  · have hpart := hagree _ hne' (partPath_ne_manifestPath h.isFile)
    have hsaved := h.saved manifest hpart hstored rfl hoffset hvalidator hsynced
    exact ⟨hsaved.durable, fun _ => hsaved⟩

/-- What a checkpoint or a write leaves: a transfer at the position, unless it failed. -/
def Continues (codec : Codec) (url : String) (dest : PathBuf) (ident : String → List UInt8) (content : List UInt8)
    (position : ℕ) (r : Result PartFile) (w : World) : Prop :=
  Durable codec url dest ident w.disk ∧
    ∀ part, r = .ok part → Writing codec url dest ident w.disk part content ∧ part.position = position

theorem Writing.continues (h : Writing codec url dest ident w.disk part content) :
    Continues codec url dest ident content part.position (.ok part) w :=
  ⟨h.durable, fun part' hr => by cases hr; exact ⟨h, rfl⟩⟩

theorem Durable.continues {e : Error} {position : ℕ} (h : Durable codec url dest ident w.disk) :
    Continues codec url dest ident content position (.error e) w :=
  ⟨h, fun _ hr => by cases hr⟩

/-- **A checkpoint.** -/
theorem Writing.checkpoint_holds (h : Writing codec url dest ident w.disk part content) :
    (part.checkpoint codec).Holds S.env (safe codec url dest ident)
      (Continues codec url dest ident content part.position) w := by
  unfold PartFile.checkpoint
  split_ifs
  · exact h.continues
  refine (h.await_query (.streamPosition part.file) trivial).bind ?_ ?_
  · rintro - w rfl
    refine (h.sync_holds (.inl rfl)).bind ?_ fun e w₁ h₁ => h₁.1.durable.continues
    intro a w₁ h'
    obtain ⟨h₁, hsynced⟩ := h'
    obtain rfl := h.dest_eq
    refine (h₁.save_holds (part.manifest.setContiguous part.position) (by simp) (by simp)
      (hsynced a rfl)).bind ?_ fun e w₂ h₂ => h₂.1.continues
    intro _ w₂ h'
    obtain ⟨-, h₂⟩ := h'
    exact (h₂ rfl).continues
  · rintro e _ rfl
    exact h.durable.continues

/-- A write, with the checkpoint it may be followed by. -/
theorem Writing.write_holds {bytes : List UInt8} (h : Writing codec url dest ident w.disk part content)
    (hbytes : bytes <+: content.drop part.position) :
    (part.write codec bytes).Holds S.env (safe codec url dest ident)
      (Continues codec url dest ident content (part.position + bytes.length)) w := by
  unfold PartFile.write
  refine Program.Holds.bind
    (Q := fun r w' => Durable codec url dest ident w'.disk ∧ (∀ a, r = .ok a → Writing codec url dest ident w'.disk
      { part with position := part.position + bytes.length, dirty := true } content)) ?_ ?_ ?_
  · refine holds_await h.durable fun fault r disk' _ _ ho => ?_
    rcases ho.of_paths_eq_nil rfl with ⟨-, rfl, rfl⟩ | ⟨-, ⟨e, rfl⟩, written, rfl⟩
    · exact ⟨(h.append hbytes).durable, fun _ _ => h.append hbytes⟩
    · refine ⟨?_, fun _ hr => by cases hr⟩
      cases written with
      | none => exact h.durable
      | some n => exact (h.append ((List.take_prefix n bytes).trans hbytes)).durable
  · intro a w₁ h'
    obtain ⟨-, h₁⟩ := h'
    have h₁ := h₁ a rfl
    refine (h₁.await_query (.streamPosition part.file) trivial).bind ?_ ?_
    · rintro - w₁ rfl
      dsimp only
      split_ifs
      · exact h₁.checkpoint_holds
      · exact h₁.continues
    · rintro e _ rfl
      exact h₁.durable.continues
  · intro e w₁ h'
    obtain ⟨h₁, -⟩ := h'
    exact h₁.continues

/-- The end of a transfer. -/
theorem Writing.finalize_holds (h : Writing codec url dest ident w.disk part content) :
    part.finalize.Holds S.env (safe codec url dest ident) (fun _ w' => Durable codec url dest ident w'.disk) w := by
  unfold PartFile.finalize
  refine (h.sync_holds (.inr rfl)).bind ?_ fun e w₁ h₁ => h₁.1.durable
  intro a w₁ h'
  obtain ⟨h₁, -⟩ := h'
  refine Program.Holds.bind (Q := fun r w' => Durable codec url dest ident w'.disk ∧
    (r = .ok () → w'.disk.file (partPath dest) = none)) ?_ ?_ fun e w₂ h₂ => h₂.1
  · refine holds_await h₁.durable fun fault r disk' _ _ ho => ?_
    rw [h.dest_eq] at ho
    rcases ho.rename with ⟨rfl, rfl⟩ | ⟨-, ⟨e, rfl⟩, rfl⟩
    · have hnone := Disk.file_rename_source (d := w₁.disk) (dest_ne_partPath h.isFile).symm
      exact ⟨.of_part_none hnone, fun _ => hnone⟩
    · exact ⟨h₁.durable, fun hr => by cases hr⟩
  · intro _ w₂ h'
    obtain ⟨h₂, hnone⟩ := h'
    refine Program.Holds.bind (Q := fun _ w' => Durable codec url dest ident w'.disk) ?_ (fun _ _ => id) fun _ _ => id
    refine holds_attempt h₂ fun fault r disk' _ _ ho => ?_
    rw [h.dest_eq] at ho
    exact .of_part_none ((ho.agree (partPath_ne_manifestPath h.isFile)).2.trans (hnone rfl))

/-- The transfer loop. -/
theorem Writing.transfer_holds {bodyError : Option String} {progress : Progress} {chunks : List Chunk}
    (h : Writing codec url dest ident w.disk part content)
    (hbytes : (chunks.map Chunk.bytes).flatten <+: content.drop part.position) (hcodec : platform.codec = codec) :
    (transfer platform bodyError part progress chunks).Holds S.env (safe codec url dest ident)
      (fun _ w' => Durable codec url dest ident w'.disk) w := by
  subst hcodec
  refine transfer_rule (F := fun part _ chunks w => Writing platform.codec url dest ident w.disk part content ∧
    (chunks.map Chunk.bytes).flatten <+: content.drop part.position) ?_ ?_ ?_ ?_ ?_ ⟨h, hbytes⟩
  · intro part progress chunks w h'
    obtain ⟨h, -⟩ := h'
    exact h.durable
  · rintro part progress chunks w _ ⟨h, -⟩ rfl
    exact h.checkpoint_holds.mono fun _ _ h' => h'.1
  · rintro part progress chunk chunks w _ ⟨h, hbytes⟩ rfl
    rw [List.map_cons, List.flatten_cons] at hbytes
    refine (h.write_holds ((List.prefix_append _ _).trans hbytes)).mono fun r w' h' => ?_
    cases r with
    | error => exact h'.1
    | ok part' =>
      obtain ⟨h₁, hposition⟩ := h'.2 part' rfl
      refine ⟨h₁, ?_⟩
      obtain ⟨rest, hrest⟩ := hbytes
      refine ⟨rest, ?_⟩
      rw [hposition, ← List.drop_drop, ← hrest, List.append_assoc, List.drop_left]
  · rintro part progress w _ error ⟨h, -⟩ rfl -
    exact h.checkpoint_holds.mono fun _ _ h' => h'.1
  · rintro part progress w _ ⟨h, -⟩ rfl -
    exact h.finalize_holds

/-- The `.part` is opened: what it holds is what it held. -/
theorem Durable.touch (h : Durable codec url dest ident disk) (hfile : dest.IsFile) :
    Durable codec url dest ident (disk.touch (partPath dest)).1 := by
  intro m hm hresumable f hf
  rw [storedManifest_congr (Disk.agree_touch (partPath_ne_manifestPath hfile).symm)] at hm
  rw [Disk.file_of_dir (Disk.dir_touch_self ..), Disk.inode_touch] at hf
  cases hf
  cases hpart : disk.file (partPath dest) with
  | none => exact ⟨by simp, fun v _ => by simp⟩
  | some f => exact h m hm hresumable f hpart

/-- **The `.part` is cut where the transfer starts**: what is left is the content so far, and all
that the manifest on disk vouches for. -/
theorem Worker.Starts.writing {e : Exchange} {start file : ℕ} {manifest : Manifest}
    (h : Starts platform ident request disk start e)
    (hdurable : Durable platform.codec request.url request.destination ident disk) (hfile : request.destination.IsFile)
    (hdir : disk.dir (partPath request.destination) = some file)
    (hcut : ∀ m, storedManifest platform.codec request.destination disk = some m → m.isResumableFor request.url →
      m.resumeOffset ≤ start) (hmanifest : ∀ v, manifest.validator = some v → ident v = e.content) :
    Writing platform.codec request.url request.destination ident (disk.update file (·.setLen start))
      ⟨request.destination, file, start, false, manifest⟩ e.content := by
  have hpart := Disk.file_of_dir hdir
  have hfilling := h.filling hfile hdir (fun m v hm hresumable hv => by
    rw [List.take_eq_take_min]
    exact (hdurable m hm hresumable _ hpart).2 v hv) manifest
  refine ⟨hfilling, hmanifest, fun m hm hresumable => ?_⟩
  have hagree : disk.Agree (disk.update file (·.setLen start)) (manifestPath request.destination) :=
    Disk.agree_update (fun hm => partPath_ne_manifestPath hfile (disk.dir_inj _ _ _ hdir hm)) _
  rw [storedManifest_congr hagree] at hm
  have hoffset := hcut m hm hresumable
  have hpos : 0 < start := Nat.lt_of_lt_of_le (Manifest.isResumableFor_iff.mp hresumable).2.1 hoffset
  obtain ⟨m', v, hm', -, hv, hstart, hident⟩ := h.kept hpos
  cases hm.symm.trans hm'
  rw [partData, hpart, Option.map_some, Option.getD_some] at hstart
  have hsynced := (hdurable m hm hresumable _ hpart).1
  rw [hfilling.data_eq, Disk.inode_update_self, Inode.setLen_synced, ← hfilling.position]
  refine ⟨by omega, by omega, fun v' hv' => ?_⟩
  cases hv.symm.trans hv'
  rw [hident]
  exact (List.take_prefix _ _).trans (List.take_prefix _ _)

/-- The guard a crash-safe worker needs: the `.part` is not cut below what the manifest on disk
vouches for. -/
def CutsAbove (S : Surroundings) (codec : Codec) (url : String) (dest : PathBuf) : Prop :=
  ∀ {file n disk}, S.guard (.setLen file n) disk → ∀ m, storedManifest codec dest disk = some m →
    m.isResumableFor url → m.resumeOffset ≤ n

/-- Opening the `.part`. -/
theorem Worker.Starts.open_holds {e : Exchange} {start : ℕ} {manifest : Manifest}
    (h : Starts platform ident request w.disk start e)
    (hdurable : Durable platform.codec request.url request.destination ident w.disk)
    (hcut : CutsAbove S platform.codec request.url request.destination)
    (hmanifest : ∀ v, manifest.validator = some v → ident v = e.content) :
    (PartFile.open request.destination start manifest).Holds S.env
      (safe platform.codec request.url request.destination ident)
      (Continues platform.codec request.url request.destination ident e.content start) w := by
  refine open_rule
    (B := fun w => Durable platform.codec request.url request.destination ident w.disk ∧
      Starts platform ident request w.disk start e)
    (A := fun part w => Writing platform.codec request.url request.destination ident w.disk part e.content ∧
      part.position = start) ?_ ?_ ?_ ?_ ⟨hdurable, h⟩
  · intro w hfile h'
    obtain ⟨hdurable, h⟩ := h'
    exact ⟨hdurable.touch hfile, h.touch hfile⟩
  · intro w file hfile hdir hguard h'
    obtain ⟨hdurable, h⟩ := h'
    exact ⟨h.writing hdurable hfile hdir (hcut hguard) hmanifest, rfl⟩
  · intro w h'
    obtain ⟨hdurable, -⟩ := h'
    exact ⟨fun _ _ => hdurable, fun _ => hdurable.continues⟩
  · intro w part h'
    obtain ⟨hwriting, rfl⟩ := h'
    exact ⟨fun _ _ => hwriting.durable, fun _ => hwriting.durable.continues, hwriting.continues⟩

/-- **A worker keeps what a crash must not destroy.** -/
theorem Durable.run_holds (h : Durable platform.codec request.url request.destination ident w.disk)
    (hserver : S.server.Faithful ident request) (hcut : CutsAbove S platform.codec request.url request.destination) :
    (run platform request).Holds S.env (safe platform.codec request.url request.destination ident)
      (fun _ w' => Durable platform.codec request.url request.destination ident w'.disk) w := by
  have hkeep : ∀ w' : World, w'.disk = w.disk →
      Durable platform.codec request.url request.destination ident w'.disk := fun w' hw => hw ▸ h
  refine Worker.run_holds (fun _ _ w' hw => hkeep w' hw) (fun _ w' hw => hkeep w' hw) (fun w' hw => hkeep w' hw) ?_
  intro offset e w' hdisk _ hanswered
  refine receive_holds (fun _ _ => hkeep w' hdisk) ?_
  intro start total hsuccess hstart _
  have hstarts : Starts platform ident request w'.disk start e :=
    hstart ▸ hdisk ▸ hanswered.starts hserver hsuccess
  refine (hstarts.open_holds (hkeep w' hdisk) hcut fun v hv => hstarts.validators v (validator_manifestOf hv)).bind ?_
    fun e _ hw => hw.1
  intro part w₁ h'
  obtain ⟨-, h₁⟩ := h'
  obtain ⟨h₁, hposition⟩ := h₁ part rfl
  exact h₁.transfer_holds (hposition ▸ hstarts.bytes) rfl

end

end DownloadManager
