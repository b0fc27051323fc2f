import DownloadManager.System.Alone

/-!
# What a worker records

The operations on the open `.part`, for a worker that has its files to itself: they keep
`Transferring`, or end the attempt with an error that is not retried. A checkpoint that
succeeds records what has been received.
-/

namespace DownloadManager

open FileSystem Worker

variable {platform : Platform} {request : Request} {fails : Traffic → FileOp PathBuf UInt8 → Prop} {part : PartFile}
  {x : Transfer} {l : Local}

theorem Filling.partData_eq {dest : PathBuf} {disk : Disk} {data : List UInt8} (h : Filling dest disk part data) :
    partData dest disk = data := by
  rw [partData_of_file h.file_eq, h.data_eq]

theorem Recorded.of_filling {disk disk' : Disk} (h : Recorded platform request x disk)
    (hfilling : Filling request.destination disk' part x.data)
    (hmanifest : disk.Agree disk' (manifestPath request.destination)) : Recorded platform request x disk' := by
  intro hx
  obtain ⟨-, total, htotal, hstored⟩ := h hx
  exact ⟨hfilling.partData_eq, total, htotal, (storedManifest_congr hmanifest).trans hstored⟩

namespace Transferring

variable (h : Transferring platform request fails part x l)
include h

theorem isFile : request.destination.IsFile := h.filling.isFile

/-- The data is made durable. -/
theorem sync : Transferring platform request fails part x { l with disk := l.disk.update part.file .sync } :=
  ⟨h.transfer, h.filling.sync, h.manifest,
    fun hd => (h.clean hd).of_filling h.filling.sync
      (h.filling.agree_update (partPath_ne_manifestPath h.isFile).symm _),
    h.tidied.congr (h.filling.agree_update (partPath_ne_tmpPath h.isFile).symm _)⟩

/-- Nothing else of what the worker sees matters. -/
theorem congr {l' : Local} (htransfer : l'.traffic.transfer = l.traffic.transfer) (hdisk : l'.disk = l.disk) :
    Transferring platform request fails part x l' := by
  refine ⟨htransfer.trans h.transfer, ?_, h.manifest, ?_, ?_⟩ <;> rw [hdisk]
  exacts [h.filling, h.clean, h.tidied]

/-- An operation on the open file that changes none of its bytes. -/
theorem await {op : FileOp PathBuf UInt8} (hop : (Op.file op).Confined request.destination l) (hpaths : op.paths = [])
    (htraffic : ∀ (l₁ : Local) r disk', (l₁.performed (.file op) r disk').traffic = l₁.traffic)
    (heffect : ∀ {l₁}, Transferring platform request fails part x l₁ →
      Transferring platform request fails part x { l₁ with disk := (op.effect IoError.missing l₁.disk).2 })
    (hok : ∀ (disk : Disk) e, (op.effect IoError.missing disk).1 ≠ .error e)
    (hdamage : ∀ (disk : Disk) written, op.damage disk written = disk) :
    (Fs.await op).Holds (Local.among (Undisturbed (ownPaths request.destination)) fails)
      (Op.Confined request.destination)
      (fun r l' => l'.traffic = l.traffic ∧ Transferring platform request fails part x l' ∧
        ∀ e, r = .error e → e.isRetryable = false ∧ fails l.traffic op) l := by
  refine Local.holds_await hop fun l₁ fault r disk' hrely hfails _ hout => ?_
  have h₁ := h.stable hrely
  have ht := htraffic l₁ r disk'
  refine ⟨ht.trans hrely.traffic, ?_⟩
  rcases hout.of_paths_eq_nil hpaths with ⟨-, hr, rfl⟩ | ⟨hfault, ⟨e, rfl⟩, written, rfl⟩
  · refine ⟨(heffect h₁).congr (congrArg Traffic.transfer ht) rfl, fun e he => ?_⟩
    subst hr
    cases hvalue : (op.effect IoError.missing l₁.disk).1 with
    | ok v => rw [hvalue] at he; cases he
    | error e' => exact absurd hvalue (hok _ _)
  · refine ⟨h₁.congr (congrArg Traffic.transfer ht) (hdamage _ _), fun e' he => ?_⟩
    cases he
    exact ⟨rfl, hrely.traffic ▸ hfails hfault⟩

theorem streamPosition :
    (Fs.await (.streamPosition part.file)).Holds (Local.among (Undisturbed (ownPaths request.destination)) fails)
      (Op.Confined request.destination)
      (fun r l' => l'.traffic = l.traffic ∧ Transferring platform request fails part x l' ∧
        ∀ e, r = .error e → e.isRetryable = false ∧ fails l.traffic (.streamPosition part.file)) l :=
  h.await ⟨.inl trivial, nofun⟩ rfl (fun _ _ _ => rfl) (fun h => h) (fun _ _ => nofun)
    fun _ written => by cases written <;> rfl

theorem syncData :
    (Fs.await (.syncData part.file)).Holds (Local.among (Undisturbed (ownPaths request.destination)) fails)
      (Op.Confined request.destination)
      (fun r l' => l'.traffic = l.traffic ∧ Transferring platform request fails part x l' ∧
        ∀ e, r = .error e → e.isRetryable = false ∧ fails l.traffic (.syncData part.file)) l :=
  h.await ⟨.inl trivial, fun _ hi => by cases hi; exact h.filling.dir⟩ rfl (fun _ _ _ => rfl) (fun h => h.sync)
    (fun _ _ => nofun) fun _ written => by cases written <;> rfl

theorem syncAll :
    (Fs.await (.syncAll part.file)).Holds (Local.among (Undisturbed (ownPaths request.destination)) fails)
      (Op.Confined request.destination)
      (fun r l' => l'.traffic = l.traffic ∧ Transferring platform request fails part x l' ∧
        ∀ e, r = .error e → e.isRetryable = false ∧ fails l.traffic (.syncAll part.file)) l :=
  h.await ⟨.inl trivial, fun _ hi => by cases hi; exact h.filling.dir⟩ rfl (fun _ _ _ => rfl) (fun h => h.sync)
    (fun _ _ => nofun) fun _ written => by cases written <;> rfl

/-- The temporary file is written. -/
theorem writeTmp (bytes : List UInt8) :
    (Fs.await (.write (tmpPath request.destination) bytes)).Holds
      (Local.among (Undisturbed (ownPaths request.destination)) fails) (Op.Confined request.destination)
      (fun r l' => l'.traffic = l.traffic ∧
        (r = .ok () → Filling request.destination l'.disk part x.data ∧
          l'.disk.file (tmpPath request.destination) = some ⟨bytes, 0⟩) ∧
        ∀ e, r = .error e → e.isRetryable = false ∧ (∃ op, fails l.traffic op) ∧
          Tidied fails request.destination l'.disk) l := by
  have hfile := h.isFile
  refine Local.holds_await ⟨.inl rfl, nofun⟩ fun l₁ fault r disk' hrely hfails _ hout => ?_
  refine ⟨hrely.traffic, ?_⟩
  rcases hout.write with ⟨rfl, rfl⟩ | ⟨hfault, e, rfl⟩
  · refine ⟨fun _ => ⟨?_, Disk.file_put_self ..⟩, nofun⟩
    exact (h.stable hrely).filling.congr (Disk.agree_put (partPath_ne_tmpPath hfile) _)
  · have hfault := hfails (hfault.resolve_right (not_not_intro (isFile_tmpPath.mpr hfile)))
    refine ⟨nofun, fun e' he => ?_⟩
    cases he
    exact ⟨rfl, ⟨_, hrely.traffic ▸ hfault⟩, fun htidy => absurd hfault ((htidy _).1 _)⟩

/-- `save`: afterwards the data is recorded. -/
theorem save :
    ((part.manifest.setContiguous part.position).save platform.codec part.dest).Holds
      (Local.among (Undisturbed (ownPaths request.destination)) fails) (Op.Confined request.destination)
      (fun r l' => l'.traffic = l.traffic ∧
        (r = .ok () → Transferring platform request fails
          { part with manifest := part.manifest.setContiguous part.position, dirty := false } x l' ∧
          Noted platform request x l'.disk) ∧
        ∀ e, r = .error e → e.isRetryable = false ∧ (∃ op, fails l.traffic op) ∧
          Tidied fails request.destination l'.disk) l := by
  have hfile := h.isFile
  have htmpFile := isFile_tmpPath.mpr hfile
  have hmanifestFile := isFile_manifestPath.mpr hfile
  obtain ⟨dest, file, position, dirty, manifest⟩ := part
  obtain rfl : dest = request.destination := h.filling.dest_eq
  unfold Manifest.save
  refine (h.writeTmp _).bind ?_ fun e l' h' => ⟨h'.1, nofun, h'.2.2⟩
  intro _ l₁ h'
  obtain ⟨ht₁, h₁, -⟩ := h'
  obtain ⟨hfilling₁, htmp₁⟩ := h₁ rfl
  -- it takes the place of the manifest
  refine Local.holds_await ⟨.inl ⟨rfl, rfl⟩, nofun⟩ fun l₂ fault r disk' hrely hfails _ hout => ?_
  have hfilling₂ := hfilling₁.congr (hrely.agree _ part_mem_ownPaths)
  have htmp₂ := (hrely.agree _ tmp_mem_ownPaths).2.trans htmp₁
  refine ⟨hrely.traffic.trans ht₁, ?_⟩
  rcases hout.rename with ⟨rfl, rfl⟩ | ⟨hfault, ⟨e, rfl⟩, rfl⟩
  · refine ⟨fun _ => ?_, nofun⟩
    have hpart := Disk.agree_rename (d := l₂.disk) (partPath_ne_tmpPath hfile) (partPath_ne_manifestPath hfile)
    have hfilling₃ := hfilling₂.congr hpart
    obtain ⟨total, htotal, hmanifest⟩ := h.manifest
    have hnoted : Noted platform request x (l₂.disk.rename (tmpPath request.destination)
        (manifestPath request.destination)) := by
      refine ⟨hfilling₃.partData_eq, total, htotal, ?_⟩
      rw [storedManifest, Disk.file_rename_target, htmp₂, Option.bind_some, platform.codec.fromSlice_toVec,
        hmanifest, show position = x.data.length from h.filling.position]
    refine ⟨⟨?_, hfilling₃.record _ _, ⟨total, htotal, fun n => (hmanifest n)⟩, fun _ _ => hnoted, fun _ => ?_⟩, hnoted⟩
    · exact (congrArg Traffic.transfer (hrely.traffic.trans ht₁)).trans h.transfer
    · exact Disk.file_rename_source (manifestPath_ne_tmpPath hfile).symm
  · have hdir : l₂.disk.dir (tmpPath request.destination) ≠ none := fun hd => by
      rw [Disk.file_eq_none.mpr hd] at htmp₂
      cases htmp₂
    have hfault := hfails (hfault.resolve_right fun hor => hor.elim hdir fun hf => hf ⟨htmpFile, hmanifestFile⟩)
    refine ⟨by simp [Except.mapError], fun e' he => ?_⟩
    cases he
    exact ⟨rfl, ⟨_, ht₁ ▸ hrely.traffic ▸ hfault⟩, fun htidy => absurd hfault (htidy _).2⟩

/-- **A checkpoint** that succeeds: what has been written is noted, if anything has. -/
theorem checkpoint_noted :
    (part.checkpoint platform.codec).Holds (Local.among (Undisturbed (ownPaths request.destination)) fails)
      (Op.Confined request.destination)
      (fun r l' => l'.traffic = l.traffic ∧
        (∀ part', r = .ok part' → Transferring platform request fails part' x l' ∧ part'.dirty = false ∧
          (part.dirty = false ∧ l' = l ∨ Noted platform request x l'.disk)) ∧
        ∀ e, r = .error e → e.isRetryable = false ∧ (∃ op, fails l.traffic op) ∧
          Tidied fails request.destination l'.disk) l := by
  unfold PartFile.checkpoint
  split_ifs with hdirty
  · refine ⟨rfl, fun part' hp => ?_, nofun⟩
    cases hp
    have hclean : part.dirty = false := by simpa using hdirty
    exact ⟨h, hclean, .inl ⟨hclean, rfl⟩⟩
  have herror {op : FileOp PathBuf UInt8} {e : Error} {l' : Local} (h' : l'.traffic = l.traffic ∧
      Transferring platform request fails part x l' ∧
        ∀ e', (.error e : Except Error op.Value) = .error e' → e'.isRetryable = false ∧ fails l.traffic op) :
      l'.traffic = l.traffic ∧ (∀ part', (.error e : Result PartFile) = .ok part' →
        Transferring platform request fails part' x l' ∧ part'.dirty = false ∧
          (part.dirty = false ∧ l' = l ∨ Noted platform request x l'.disk)) ∧
        ∀ e', (.error e : Result PartFile) = .error e' → e'.isRetryable = false ∧ (∃ op, fails l.traffic op) ∧
          Tidied fails request.destination l'.disk := by
    refine ⟨h'.1, nofun, fun e' he => ?_⟩
    cases he
    exact ⟨(h'.2.2 _ rfl).1, ⟨_, (h'.2.2 _ rfl).2⟩, h'.2.1.tidied⟩
  refine h.streamPosition.bind ?_ fun e l' h' => herror h'
  intro _ l₁ h'
  obtain ⟨ht₁, h₁, -⟩ := h'
  refine h₁.syncData.bind ?_ fun e l' h' => herror ⟨h'.1.trans ht₁, h'.2.1, fun e' he => ht₁ ▸ h'.2.2 e' he⟩
  intro _ l₂ h'
  obtain ⟨ht₂', h₂, -⟩ := h'
  have ht₂ := ht₂'.trans ht₁
  refine h₂.save.bind ?_ fun e l' h' => ⟨h'.1.trans ht₂, nofun, fun e' he => ?_⟩
  · intro _ l₃ h'
    obtain ⟨ht₃, h₃, -⟩ := h'
    refine ⟨ht₃.trans ht₂, fun part' hp => ?_, nofun⟩
    cases hp
    exact ⟨(h₃ rfl).1, rfl, .inr (h₃ rfl).2⟩
  · cases he
    exact ht₂ ▸ h'.2.2 _ rfl

/-- **A checkpoint**: the data is recorded, or it fails and the attempt is not retried. -/
theorem checkpoint :
    (part.checkpoint platform.codec).Holds (Local.among (Undisturbed (ownPaths request.destination)) fails)
      (Op.Confined request.destination)
      (fun r l' => l'.traffic = l.traffic ∧
        (∀ part', r = .ok part' → Transferring platform request fails part' x l' ∧ part'.dirty = false) ∧
        ∀ e, r = .error e → e.isRetryable = false ∧ (∃ op, fails l.traffic op) ∧
          Tidied fails request.destination l'.disk) l :=
  h.checkpoint_noted.mono fun _ _ h' =>
    ⟨h'.1, fun part' hp => ⟨(h'.2.1 part' hp).1, (h'.2.1 part' hp).2.1⟩, h'.2.2⟩

/-- A chunk is written, and noted if there is a checkpoint. -/
theorem write_noted (bytes : List UInt8) :
    (part.write platform.codec bytes).Holds (Local.among (Undisturbed (ownPaths request.destination)) fails)
      (Op.Confined request.destination)
      (fun r l' => (∀ part', r = .ok part' →
        Transferring platform request fails part' { x with received := x.received ++ bytes } l' ∧
          (part'.dirty = false → Noted platform request { x with received := x.received ++ bytes } l'.disk)) ∧
        ∀ e, r = .error e → e.isRetryable = false ∧ Tidied fails request.destination l'.disk) l := by
  unfold PartFile.write
  refine Program.Holds.bind (Q := fun r l' => (r = .ok () → Transferring platform request fails
    { part with position := part.position + bytes.length, dirty := true }
    { x with received := x.received ++ bytes } l') ∧
    ∀ e, r = .error e → e.isRetryable = false ∧ Tidied fails request.destination l'.disk) ?_ ?_
    fun e l' h' => ⟨nofun, fun e' he => by cases he; exact h'.2 e rfl⟩
  · refine Local.holds_await ⟨.inl trivial, fun _ hi => by cases hi; exact h.filling.dir⟩
      fun l₁ fault r disk' hrely _ _ hout => ?_
    have h₁ := h.stable hrely
    have hagree (f : Inode UInt8 → Inode UInt8) :=
      h₁.filling.agree_update (partPath_ne_tmpPath h.isFile).symm f
    rcases hout.of_paths_eq_nil rfl with ⟨-, rfl, rfl⟩ | ⟨-, ⟨e, rfl⟩, written, rfl⟩
    · refine ⟨fun _ => ⟨?_, ?_, h.manifest, nofun, h₁.tidied.congr (hagree _)⟩, nofun⟩
      · exact congrArg (Option.map fun x : Transfer => { x with received := x.received ++ bytes }) h₁.transfer
      · have happend := h₁.filling.append bytes
        rwa [Transfer.data, List.append_assoc] at happend
    · refine ⟨nofun, fun e' he => ?_⟩
      cases he
      cases written with
      | none => exact ⟨rfl, h₁.tidied⟩
      | some n => exact ⟨rfl, h₁.tidied.congr (hagree _)⟩
  intro _ l₁ h'
  have h₁ := h'.1 rfl
  refine h₁.streamPosition.bind ?_ fun e l' h' => ⟨nofun, fun e' he => ?_⟩
  · intro _ l₂ h'
    obtain ⟨-, h₂, -⟩ := h'
    dsimp only
    split_ifs
    · refine h₂.checkpoint_noted.mono fun r l' h' => ⟨fun part' hp => ?_, fun e he => ?_⟩
      · obtain ⟨htransferring, -, ⟨hdirty, -⟩ | hnoted⟩ := h'.2.1 part' hp
        · cases hdirty
        · exact ⟨htransferring, fun _ => hnoted⟩
      · exact ⟨(h'.2.2 e he).1, (h'.2.2 e he).2.2⟩
    · refine ⟨fun part' hp => ?_, nofun⟩
      cases hp
      exact ⟨h₂, nofun⟩
  · cases he
    exact ⟨(h'.2.2 e rfl).1, h'.2.1.tidied⟩

/-- A chunk is written. -/
theorem write (bytes : List UInt8) :
    (part.write platform.codec bytes).Holds (Local.among (Undisturbed (ownPaths request.destination)) fails)
      (Op.Confined request.destination)
      (fun r l' => (∀ part', r = .ok part' →
        Transferring platform request fails part' { x with received := x.received ++ bytes } l') ∧
        ∀ e, r = .error e → e.isRetryable = false ∧ Tidied fails request.destination l'.disk) l :=
  (h.write_noted bytes).mono fun _ _ h' => ⟨fun part' hp => (h'.1 part' hp).1, h'.2⟩

end Transferring

end DownloadManager
