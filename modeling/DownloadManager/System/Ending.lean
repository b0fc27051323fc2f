import DownloadManager.System.Recording

/-!
# One attempt of a worker that has its files to itself

How an attempt ends (`Ended`): finished, with the whole body at the destination; or so that it
can be repeated, with what its last transfer has brought recorded; or with an error that is
not retried. What it leaves behind depends on which operations may fail.
-/

namespace DownloadManager

open FileSystem Worker

variable {platform : Platform} {request : Request} {fails : Traffic → FileOp PathBuf UInt8 → Prop} {part : PartFile}
  {x : Transfer} {l : Local}

/-- A finished download. -/
structure Complete (platform : Platform) (request : Request) (fails : Traffic → FileOp PathBuf UInt8 → Prop)
    (result : DownloadResult) (l : Local) : Prop where
  /-- The whole body is at the destination, behind what was retained. -/
  transfer : ∃ x total, l.traffic.transfer = some x ∧ x.response.bodyError = none ∧ x.received = x.response.bytes ∧
    totalLength platform x.retained.length x.response = .ok total ∧
    result = ⟨request.destination, x.data.length⟩ ∧ (l.disk.file request.destination).map Inode.data = some x.data
  /-- The `.part` is gone. -/
  part : l.disk.file (partPath request.destination) = none
  /-- So is the manifest, if it can be removed. -/
  manifest : Clearing fails request.destination → l.disk.file (manifestPath request.destination) = none

/-- How an attempt ends; `base` is the last transfer before it. -/
structure Ended (platform : Platform) (request : Request) (fails : Traffic → FileOp PathBuf UInt8 → Prop)
    (base : Option Transfer) (r : Result WorkerResult) (l : Local) : Prop where
  /-- It is finished. -/
  finished : ∀ result, r = .ok (.finished result) → Complete platform request fails result l
  /-- It can be repeated, and the last transfer is recorded. -/
  kept : Preserving fails → (r = .ok .stopped ∨ ∃ e, r = .error e ∧ e.isRetryable = true) →
    ∀ x ∈ l.traffic.transfer.or base, Recorded platform request x l.disk
  /-- No temporary file. -/
  tidied : Tidied fails request.destination l.disk

variable {base : Option Transfer}

/-- An attempt that is not repeated. -/
theorem Ended.of_final {e : Error} (he : e.isRetryable = false) (htidied : Tidied fails request.destination l.disk) :
    Ended platform request fails base (.error e) l :=
  ⟨nofun, fun _ hr => by rcases hr with hr | ⟨e', hr, hretry⟩ <;> cases hr; simp [he] at hretry, htidied⟩

/-- An attempt that is over when all that was written has been recorded. -/
theorem Ended.of_clean {r : Result WorkerResult} (h : Transferring platform request fails part x l)
    (hclean : part.dirty = false) (hr : ∀ result, r ≠ .ok (.finished result)) :
    Ended platform request fails base r l := by
  refine ⟨fun result he => absurd he (hr result), fun _ _ y hy => ?_, h.tidied⟩
  rw [h.transfer, Option.some_or] at hy
  cases hy
  exact h.clean hclean

theorem Complete.stable {result : DownloadResult} {l' : Local} (h : Complete platform request fails result l)
    (hrely : Undisturbed (ownPaths request.destination) l l') : Complete platform request fails result l' := by
  obtain ⟨x, total, hx, hbody, hreceived, htotal, hresult, hdest⟩ := h.transfer
  refine ⟨⟨x, total, ?_, hbody, hreceived, htotal, hresult, ?_⟩, ?_, fun hclearing => ?_⟩
  · exact (congrArg Traffic.transfer hrely.traffic).trans hx
  · rw [(hrely.agree _ dest_mem_ownPaths).2, hdest]
  · exact (hrely.agree _ part_mem_ownPaths).2.trans h.part
  · exact (hrely.agree _ manifest_mem_ownPaths).2.trans (h.manifest hclearing)

theorem Ended.stable {r : Result WorkerResult} {l' : Local} (h : Ended platform request fails base r l)
    (hrely : Undisturbed (ownPaths request.destination) l l') : Ended platform request fails base r l' :=
  ⟨fun result hr => (h.finished result hr).stable hrely,
    fun hp hr x hx => (h.kept hp hr x (hrely.traffic ▸ hx)).congr (hrely.agree _ part_mem_ownPaths)
      (hrely.agree _ manifest_mem_ownPaths),
    h.tidied.congr (hrely.agree _ tmp_mem_ownPaths)⟩

/-- The stop token has been looked at. -/
theorem Transferring.polled (h : Transferring platform request fails part x l) {stop : Bool} {l' : Local}
    (henv : Local.among (Undisturbed (ownPaths request.destination)) fails .pollStop l stop l') :
    Transferring platform request fails part x l' := by
  obtain ⟨l₁, hrely, -, rfl⟩ := Local.of_among_pollStop henv
  refine (h.stable hrely).congr ?_ rfl
  cases stop <;> rfl

/-- What is removed is gone, or it was not there. -/
theorem Outcome.file_of_removeFile {disk disk' : Disk} {fault : Option (Fault IoError)} {path : PathBuf}
    {r : Except IoError Unit} (h : Outcome disk fault (.removeFile path) r disk') (hfault : ¬fault.isSome)
    (hfile : path.IsFile) : disk'.file path = none := by
  cases h with
  | effect _ _ hr hdisk =>
    cases hdir : disk.dir path with
    | some i =>
      simp only [FileOp.effect, hdir] at hdisk
      exact hdisk ▸ Disk.file_remove_self disk path
    | none =>
      simp only [FileOp.effect, hdir] at hdisk
      exact hdisk ▸ Disk.file_eq_none.mpr hdir
  | fail _ _ h => exact absurd h hfault
  | directory _ hpaths => exact absurd (by simpa [FileOp.paths] using hfile) hpaths

/-- The `.part` becomes the destination, or nothing happens. -/
theorem Transferring.renamed (h : Transferring platform request fails part x l) {fault : Option (Fault IoError)}
    {r : Except IoError Unit} {disk' : Disk}
    (hout : Outcome l.disk fault (.rename (partPath request.destination) request.destination) r disk') :
    (r = .ok () ∧ disk' = l.disk.rename (partPath request.destination) request.destination ∧
      disk'.file (partPath request.destination) = none ∧
      disk'.file request.destination = l.disk.file (partPath request.destination) ∧
      (disk'.file request.destination).map Inode.data = some x.data) ∨ (∃ e, r = .error e) ∧ disk' = l.disk := by
  rcases hout.rename with ⟨rfl, rfl⟩ | ⟨-, herror, rfl⟩
  · refine .inl ⟨rfl, rfl, Disk.file_rename_source (dest_ne_partPath h.isFile).symm, Disk.file_rename_target .., ?_⟩
    rw [Disk.file_rename_target, h.filling.file_eq, Option.map_some, h.filling.data_eq]
  · exact .inr ⟨herror, rfl⟩

/-- The `.part` has become the destination. -/
structure Placed (request : Request) (fails : Traffic → FileOp PathBuf UInt8 → Prop) (x : Transfer) (l : Local) :
    Prop where
  /-- The transfer is over. -/
  transfer : l.traffic.transfer = some x
  /-- The `.part` is gone. -/
  part : l.disk.file (partPath request.destination) = none
  /-- The data is at the destination. -/
  dest : (l.disk.file request.destination).map Inode.data = some x.data
  /-- No temporary file. -/
  tidied : Tidied fails request.destination l.disk

theorem Transferring.place (h : Transferring platform request fails part x l) :
    (Fs.await (.rename (partPath request.destination) request.destination)).Holds
      (Local.among (Undisturbed (ownPaths request.destination)) fails) (Op.Confined request.destination)
      (fun r l' => (r = .ok () → Placed request fails x l') ∧
        ∀ e, r = .error e → e.isRetryable = false ∧ Tidied fails request.destination l'.disk) l := by
  have hfile := h.isFile
  refine Local.holds_await ⟨.inr ⟨rfl, rfl⟩, nofun⟩ fun l₁ fault r disk' hrely _ _ hout => ?_
  have h₁ := h.stable hrely
  rcases h₁.renamed hout with ⟨rfl, rfl, hnone, -, hdata⟩ | ⟨⟨e, rfl⟩, rfl⟩
  · have hagree := Disk.agree_rename (d := l₁.disk) (partPath_ne_tmpPath hfile).symm (dest_ne_tmpPath hfile).symm
    exact ⟨fun _ => ⟨h₁.transfer, hnone, hdata, h₁.tidied.congr hagree⟩, nofun⟩
  · refine ⟨by simp [Except.mapError], fun e' he => ?_⟩
    cases he
    exact ⟨rfl, h₁.tidied⟩

/-- The manifest is removed, or it stays. -/
theorem Placed.removeManifest (h : Placed request fails x l) (hfile : request.destination.IsFile) {total : Option ℕ}
    (htotal : totalLength platform x.retained.length x.response = .ok total) (hbody : x.response.bodyError = none)
    (hreceived : x.received = x.response.bytes) :
    (Fs.attempt (.removeFile (manifestPath request.destination))).Holds
      (Local.among (Undisturbed (ownPaths request.destination)) fails) (Op.Confined request.destination)
      (fun r l' => (∃ a, r = .ok a) ∧
        Complete platform request fails ⟨request.destination, x.data.length⟩ l' ∧ Placed request fails x l') l := by
  refine Local.holds_attempt ⟨.inr rfl, by simp [Op.inode?]⟩ fun l₁ fault r disk' hrely hfails _ hout => ?_
  have hagree (path : PathBuf) (hne : path ≠ manifestPath request.destination)
      (hmem : path ∈ ownPaths request.destination) : l.disk.Agree disk' path :=
    (hrely.agree path hmem).trans (hout.agree hne)
  have htransfer := (congrArg Traffic.transfer hrely.traffic).trans h.transfer
  have hpart := (hagree _ (partPath_ne_manifestPath hfile) part_mem_ownPaths).2.trans h.part
  have hdest := hagree _ (dest_ne_manifestPath hfile) dest_mem_ownPaths
  have hdata : (disk'.file request.destination).map Inode.data = some x.data := by
    rw [hdest.2, h.dest]
  refine ⟨⟨r, rfl⟩, ⟨⟨x, total, htransfer, hbody, hreceived, htotal, rfl, hdata⟩, hpart, fun hclearing => ?_⟩,
    htransfer, hpart, hdata, ?_⟩
  · exact hout.file_of_removeFile (fun hf => hclearing _ (hfails hf)) (isFile_manifestPath.mpr hfile)
  · exact h.tidied.congr (hagree _ (manifestPath_ne_tmpPath hfile).symm tmp_mem_ownPaths)

/-- The last operations. -/
theorem Transferring.finalize (base : Option Transfer) (h : Transferring platform request fails part x l)
    (hbody : x.response.bodyError = none) (hreceived : x.received = x.response.bytes) :
    part.finalize.Holds (Local.among (Undisturbed (ownPaths request.destination)) fails)
      (Op.Confined request.destination)
      (fun r l' => Ended platform request fails base (r.map fun path => .finished ⟨path, x.data.length⟩) l' ∧
        (∀ path, r = .ok path → l'.traffic.transfer = some x) ∧ ∀ e, r = .error e → e.isRetryable = false) l := by
  -- an error ends the attempt
  have herror {e : Error} {l' : Local} (hretry : e.isRetryable = false)
      (htidied : Tidied fails request.destination l'.disk) :
      Ended platform request fails base ((.error e : Result PathBuf).map fun path => .finished ⟨path, x.data.length⟩)
        l' ∧ (∀ path, (.error e : Result PathBuf) = .ok path → l'.traffic.transfer = some x) ∧
        ∀ e', (.error e : Result PathBuf) = .error e' → e'.isRetryable = false := by
    refine ⟨.of_final hretry htidied, by simp, fun e' he => ?_⟩
    cases he
    exact hretry
  obtain ⟨total, htotal, -⟩ := h.manifest
  unfold PartFile.finalize
  refine h.syncAll.bind ?_ fun e l' h' => herror (h'.2.2 e rfl).1 h'.2.1.tidied
  intro _ l₁ h'
  obtain ⟨-, h₁, -⟩ := h'
  rw [h.filling.dest_eq]
  refine h₁.place.bind ?_ fun e l' h' => herror (h'.2 e rfl).1 (h'.2 e rfl).2
  intro _ l₂ h'
  have h₂ := h'.1 rfl
  refine (h₂.removeManifest h.isFile htotal hbody hreceived).bind ?_ fun _ _ h' => by simp at h'
  intro _ l₃ h'
  obtain ⟨-, hcomplete, hplaced⟩ := h'
  refine ⟨⟨fun result hr => ?_, fun _ hr => ?_, hplaced.tidied⟩, fun _ _ => hplaced.transfer, by simp⟩
  · cases hr
    exact hcomplete
  · rcases hr with hr | ⟨e, hr, -⟩ <;> cases hr

/-- A property of the files that holds when what a transfer has written is noted. -/
structure Noting (platform : Platform) (request : Request) (response : Response) (retained : List UInt8)
    (C : Disk → Prop) : Prop where
  /-- The others do not change it. -/
  congr : ∀ {disk disk' : Disk}, C disk → (∀ path ∈ ownPaths request.destination, disk.Agree disk' path) → C disk'
  /-- What has been written is a part of the body. -/
  noted : ∀ {received : List UInt8} {disk : Disk}, received <+: response.bytes →
    Noted platform request ⟨response, retained, received⟩ disk → C disk

/-- How a transfer ends. -/
structure Transferred (platform : Platform) (request : Request) (fails : Traffic → FileOp PathBuf UInt8 → Prop)
    (C : Disk → Prop) (base : Option Transfer) (x : Transfer) (r : Result WorkerResult) (l : Local) : Prop
    extends Ended platform request fails base r l where
  /-- It can be repeated, and the property holds. -/
  upheld : Preserving fails → (r = .ok .stopped ∨ ∃ e, r = .error e ∧ e.isRetryable = true) → C l.disk
  /-- It is the one that has begun. -/
  same : ∀ result, r = .ok (.finished result) →
    ∃ y, l.traffic.transfer = some y ∧ y.response = x.response ∧ y.retained = x.retained

variable {C : Disk → Prop}

theorem Transferred.of_final {e : Error} (he : e.isRetryable = false)
    (htidied : Tidied fails request.destination l.disk) : Transferred platform request fails C base x (.error e) l :=
  ⟨.of_final he htidied, fun _ hr => by rcases hr with hr | ⟨e', hr, hretry⟩ <;> cases hr; simp [he] at hretry, nofun⟩

theorem Transferred.of_clean {r : Result WorkerResult} {y : Transfer} (h : Transferring platform request fails part y l)
    (hclean : part.dirty = false) (hC : C l.disk) (hr : ∀ result, r ≠ .ok (.finished result)) :
    Transferred platform request fails C base x r l :=
  ⟨.of_clean h hclean hr, fun _ _ => hC, fun result he => absurd he (hr result)⟩

/-- At the head of the loop: what has been received and what is left of the body are the body. -/
structure Going (platform : Platform) (request : Request) (fails : Traffic → FileOp PathBuf UInt8 → Prop)
    (C : Disk → Prop) (response : Response) (retained received : List UInt8) (part : PartFile) (progress : Progress)
    (chunks : List Chunk) (l : Local) : Prop where
  /-- The transfer goes on. -/
  transferring : Transferring platform request fails part ⟨response, retained, received⟩ l
  /-- What is left. -/
  rest : received ++ (chunks.map Chunk.bytes).flatten = response.bytes
  /-- What is reported. -/
  bytes : progress.bytes = (⟨response, retained, received⟩ : Transfer).data.length
  /-- The property holds when all that was written is noted. -/
  clean : part.dirty = false → C l.disk

namespace Going

variable {response : Response} {retained received : List UInt8} {progress : Progress} {chunks : List Chunk}

theorem polled (h : Going platform request fails C response retained received part progress chunks l)
    (hC : Noting platform request response retained C) {stop : Bool} {l' : Local}
    (henv : Local.among (Undisturbed (ownPaths request.destination)) fails .pollStop l stop l') :
    Going platform request fails C response retained received part progress chunks l' := by
  refine ⟨h.transferring.polled henv, h.rest, h.bytes, fun hdirty => ?_⟩
  obtain ⟨l₁, hrely, -, rfl⟩ := Local.of_among_pollStop henv
  exact hC.congr (h.clean hdirty) hrely.agree

/-- After a checkpoint that succeeds the property holds. -/
theorem checkpoint (h : Going platform request fails C response retained received part progress chunks l)
    (hC : Noting platform request response retained C) :
    (part.checkpoint platform.codec).Holds (Local.among (Undisturbed (ownPaths request.destination)) fails)
      (Op.Confined request.destination)
      (fun r l' => (∀ part', r = .ok part' →
        Transferring platform request fails part' ⟨response, retained, received⟩ l' ∧ part'.dirty = false ∧ C l'.disk) ∧
        ∀ e, r = .error e → e.isRetryable = false ∧ (∃ op, fails l.traffic op) ∧
          Tidied fails request.destination l'.disk) l := by
  refine h.transferring.checkpoint_noted.mono fun r l' h' => ⟨fun part' hp => ?_, h'.2.2⟩
  obtain ⟨htransferring, hclean, hnoted⟩ := h'.2.1 part' hp
  refine ⟨htransferring, hclean, ?_⟩
  rcases hnoted with ⟨hdirty, rfl⟩ | hnoted
  · exact h.clean hdirty
  · exact hC.noted ⟨_, h.rest⟩ hnoted

theorem write {chunk : Chunk}
    (h : Going platform request fails C response retained received part progress (chunk :: chunks) l)
    (hC : Noting platform request response retained C) :
    (part.write platform.codec chunk.bytes).Holds (Local.among (Undisturbed (ownPaths request.destination)) fails)
      (Op.Confined request.destination)
      (fun r l' => (∀ part', r = .ok part' → Going platform request fails C response retained
        (received ++ chunk.bytes) part' (progress.add chunk.bytes.length) chunks l') ∧
        ∀ e, r = .error e → e.isRetryable = false ∧ Tidied fails request.destination l'.disk) l := by
  have hrest : received ++ chunk.bytes ++ (chunks.map Chunk.bytes).flatten = response.bytes := by
    simpa using h.rest
  refine (h.transferring.write_noted chunk.bytes).mono fun r l' h' => ⟨fun part' hp => ?_, h'.2⟩
  obtain ⟨htransferring, hnoted⟩ := h'.1 part' hp
  refine ⟨htransferring, hrest, ?_, fun hdirty => hC.noted ⟨_, hrest⟩ (hnoted hdirty)⟩
  simp only [Progress.add, h.bytes, Transfer.data, List.length_append, Nat.add_assoc]

theorem received_eq (h : Going platform request fails C response retained received part progress [] l) :
    received = response.bytes := by
  simpa using h.rest

/-- The read behind the last chunk fails. -/
theorem broken (h : Going platform request fails C response retained received part progress [] l) {error : String}
    (hbody : response.bodyError = some error) {l' : Local}
    (henv : Local.among (Undisturbed (ownPaths request.destination)) fails .pollStop l false l') :
    l'.traffic.broken = true := by
  obtain ⟨l₁, hrely, -, rfl⟩ := Local.of_among_pollStop henv
  have htransfer := (h.transferring.stable hrely).transfer
  simp [Local.performed, Traffic.after, htransfer, Transfer.broken, h.received_eq, hbody]

end Going

/-- **The transfer** of an attempt. -/
theorem Transferring.transfer_noted (h : Transferring platform request fails part x l) {progress : Progress}
    (hreceived : x.received = []) (hbytes : progress.bytes = x.data.length)
    (hC : Noting platform request x.response x.retained C) (hclean : part.dirty = false → C l.disk) :
    (Worker.transfer platform x.response.bodyError part progress x.response.body).Holds
      (Local.among (Undisturbed (ownPaths request.destination)) fails) (Op.Confined request.destination)
      (Transferred platform request fails C base x) l := by
  obtain ⟨response, retained, received⟩ := x
  obtain rfl : received = [] := hreceived
  refine transfer_rule (F := fun part progress chunks l => ∃ received,
    Going platform request fails C response retained received part progress chunks l) ?_ ?_ ?_ ?_ ?_
    ⟨[], h, rfl, hbytes, hclean⟩
  · exact fun _ => ⟨.inl trivial, nofun⟩
  · intro part progress chunks l l' hgoing henv
    obtain ⟨received, hgoing⟩ := hgoing
    refine ((hgoing.polled hC henv).checkpoint hC).mono fun r l₂ h₂ => ?_
    cases r with
    | error e => exact .of_final (h₂.2 e rfl).1 (h₂.2 e rfl).2.2
    | ok part' =>
      obtain ⟨htransferring, hclean, hC'⟩ := h₂.1 part' rfl
      exact .of_clean htransferring hclean hC' (by simp [Except.map])
  · intro part progress chunk chunks l l' hgoing henv
    obtain ⟨received, hgoing⟩ := hgoing
    refine ((hgoing.polled hC henv).write hC).mono fun r l₂ h₂ => ?_
    cases r with
    | error e => exact .of_final (h₂.2 e rfl).1 (h₂.2 e rfl).2
    | ok part' => exact ⟨received ++ chunk.bytes, h₂.1 part' rfl⟩
  · intro part progress l l' error hgoing henv hbody
    obtain ⟨received, hgoing⟩ := hgoing
    have hbroken := hgoing.broken hbody henv
    refine ((hgoing.polled hC henv).checkpoint hC).mono fun r l₂ h₂ => ?_
    cases r with
    | error e =>
      obtain ⟨-, ⟨op, hfails⟩, htidied⟩ := h₂.2 e rfl
      have hnot (hpreserving : Preserving fails) : False := by
        rw [hpreserving _ op hfails] at hbroken
        cases hbroken
      exact ⟨⟨by simp, fun hpreserving _ => (hnot hpreserving).elim, htidied⟩,
        fun hpreserving _ => (hnot hpreserving).elim, by simp⟩
    | ok part' =>
      obtain ⟨htransferring, hclean, hC'⟩ := h₂.1 part' rfl
      exact .of_clean htransferring hclean hC' (by simp)
  · intro part progress l l' hgoing henv hbody
    obtain ⟨received, hgoing⟩ := hgoing
    have h₁ := hgoing.polled hC henv
    rw [h₁.bytes]
    refine (h₁.transferring.finalize base hbody h₁.received_eq).mono fun r l₂ h₂ => ?_
    obtain ⟨hended, htransfer, herror⟩ := h₂
    cases r with
    | error e => exact .of_final (herror e rfl) hended.tidied
    | ok path =>
      refine ⟨hended, fun _ hr => ?_, fun _ _ => ⟨_, htransfer path rfl, rfl, rfl⟩⟩
      rcases hr with hr | ⟨e', hr, -⟩
      · cases hr
      · cases hr

theorem Transferring.transfer_holds (h : Transferring platform request fails part x l) {progress : Progress}
    (hreceived : x.received = []) (hbytes : progress.bytes = x.data.length) :
    (Worker.transfer platform x.response.bodyError part progress x.response.body).Holds
      (Local.among (Undisturbed (ownPaths request.destination)) fails) (Op.Confined request.destination)
      (Ended platform request fails base) l :=
  (h.transfer_noted (C := fun _ => True) hreceived hbytes ⟨fun _ _ => trivial, fun _ _ => trivial⟩
    fun _ => trivial).mono fun _ _ h' => h'.toEnded

/-! ### From the beginning -/

/-- Before the transfer; `base` is the last one before. -/
structure Untouched (platform : Platform) (request : Request) (fails : Traffic → FileOp PathBuf UInt8 → Prop)
    (base : Option Transfer) (l : Local) : Prop where
  /-- There is none yet. -/
  transfer : l.traffic.transfer = none
  /-- The last one is recorded. -/
  kept : Preserving fails → ∀ x ∈ base, Recorded platform request x l.disk
  /-- No temporary file. -/
  tidied : Tidied fails request.destination l.disk

/-- The disk has changed elsewhere. -/
theorem Untouched.congr {l' : Local} (h : Untouched platform request fails base l)
    (htransfer : l'.traffic.transfer = l.traffic.transfer)
    (hagree : ∀ path ∈ ownPaths request.destination, l.disk.Agree l'.disk path) :
    Untouched platform request fails base l' :=
  ⟨htransfer.trans h.transfer,
    fun hp x hx => (h.kept hp x hx).congr (hagree _ part_mem_ownPaths) (hagree _ manifest_mem_ownPaths),
    h.tidied.congr (hagree _ tmp_mem_ownPaths)⟩

theorem Traffic.transfer_after_idle {op : Op} (hop : op.IsIdle) {traffic : Traffic} (disk : Disk) (r : op.Reply)
    (h : traffic.transfer = none) : (traffic.after disk op r).transfer = none := by
  cases op with
  | file op =>
    cases op with
    | metadata | read | createDirAll | seek | streamPosition => exact h
    | _ => cases hop
  | send request => cases r <;> exact h
  | pollStop => cases r <;> exact h

/-- An operation that changes nothing is about the files of any destination. -/
theorem Op.IsIdle.confined {op : Op} (h : op.IsIdle) (dest : PathBuf) (l : Local) : op.Confined dest l :=
  ⟨.inl (h.prepares dest), fun i hi => by
    cases op with
    | file op =>
      cases op with
      | setLen | writeAll | syncData | syncAll => cases h
      | _ => cases hi
    | send | pollStop => cases hi⟩

theorem Untouched.keeps : Keeps (Undisturbed (ownPaths request.destination)) fails (Op.Confined request.destination)
    Op.IsIdle (Untouched platform request fails base) where
  stable h hrely := h.congr (congrArg Traffic.transfer hrely.traffic) hrely.agree
  step hop h henv := by
    rw [Local.env_idle hop henv]
    exact h.congr ((Traffic.transfer_after_idle hop _ _ h.transfer).trans h.transfer.symm) fun path _ => .refl _ path
  pre hop _ := hop.confined _ _

/-- An attempt that ends before its transfer. -/
theorem Untouched.ended (h : Untouched platform request fails base l) {r : Result WorkerResult}
    (hr : ∀ result, r ≠ .ok (.finished result)) : Ended platform request fails base r l :=
  ⟨fun result he => absurd he (hr result),
    fun hp _ x hx => h.kept hp x (by rwa [h.transfer, Option.none_or] at hx), h.tidied⟩

/-- The `.part` holds what it held, and the manifest is the one that was there. -/
structure Unchanged (dest : PathBuf) (disk disk' : Disk) : Prop where
  /-- The `.part`. -/
  part : partData dest disk' = partData dest disk
  /-- The manifest. -/
  manifest : disk.Agree disk' (manifestPath dest)

theorem Unchanged.trans {dest : PathBuf} {disk disk' disk'' : Disk} (h : Unchanged dest disk disk')
    (h' : Unchanged dest disk' disk'') : Unchanged dest disk disk'' :=
  ⟨h'.part.trans h.part, h.manifest.trans h'.manifest⟩

theorem Unchanged.of_agree {dest : PathBuf} {disk disk' : Disk} (h : ∀ path ∈ ownPaths dest, disk.Agree disk' path) :
    Unchanged dest disk disk' :=
  ⟨partData_congr (h _ part_mem_ownPaths), h _ manifest_mem_ownPaths⟩

theorem Unchanged.touch {dest : PathBuf} (hfile : dest.IsFile) (disk : Disk) :
    Unchanged dest disk (disk.touch (partPath dest)).1 :=
  ⟨partData_touch _ _, Disk.agree_touch (partPath_ne_manifestPath hfile).symm⟩

/-- What is retained when the `.part` is cut. -/
structure Cuts (dest : PathBuf) (start : ℕ) (disk disk' : Disk) (retained : List UInt8) : Prop where
  /-- It is as long as it is to be. -/
  length : retained.length = start
  /-- It is the first part of what was there. -/
  take : start ≤ (partData dest disk).length → retained = (partData dest disk).take start
  /-- The manifest stays. -/
  manifest : disk.Agree disk' (manifestPath dest)

/-- Until the `.part` is cut nothing is lost; `disk` is the one at the beginning. -/
structure Opening (platform : Platform) (request : Request) (fails : Traffic → FileOp PathBuf UInt8 → Prop)
    (base : Option Transfer) (response : Response) (disk : Disk) (l : Local) : Prop where
  /-- There is no transfer yet. -/
  untouched : Untouched platform request fails base l
  /-- The response has come. -/
  response : l.traffic.response = some response
  /-- The files are what they were. -/
  unchanged : Unchanged request.destination disk l.disk

namespace Opening

variable {response : Response} {disk : Disk} {start : ℕ} {total : Option ℕ}
  (h : Opening platform request fails base response disk l)
include h

theorem stable {l' : Local} (hrely : Undisturbed (ownPaths request.destination) l l') :
    Opening platform request fails base response disk l' :=
  ⟨Untouched.keeps.stable h.untouched hrely, (congrArg Traffic.response hrely.traffic).trans h.response,
    h.unchanged.trans (.of_agree hrely.agree)⟩

/-- Nothing else of what the worker sees matters. -/
theorem congr {l' : Local} (htransfer : l'.traffic.transfer = l.traffic.transfer)
    (hresponse : l'.traffic.response = l.traffic.response) (hdisk : l'.disk = l.disk) :
    Opening platform request fails base response disk l' := by
  refine ⟨⟨htransfer.trans h.untouched.transfer, ?_, ?_⟩, hresponse.trans h.response, ?_⟩ <;> rw [hdisk]
  exacts [h.untouched.kept, h.untouched.tidied, h.unchanged]

/-- The `.part` is created, if there is none. -/
theorem touched (hfile : request.destination.IsFile) :
    Opening platform request fails base response disk
      { l with disk := (l.disk.touch (partPath request.destination)).1 } := by
  have hmanifest := Disk.agree_touch (d := l.disk) (partPath_ne_manifestPath hfile).symm
  refine ⟨⟨h.untouched.transfer, fun hp x hx hne => ?_, ?_⟩, h.response, h.unchanged.trans (.touch hfile _)⟩
  · obtain ⟨hdata, total, htotal, hstored⟩ := h.untouched.kept hp x hx hne
    exact ⟨(partData_touch _ _).trans hdata, total, htotal, (storedManifest_congr hmanifest).trans hstored⟩
  · exact h.untouched.tidied.congr (Disk.agree_touch (partPath_ne_tmpPath hfile).symm)

theorem createParent :
    (PartFile.createParent request.destination).Holds (Local.among (Undisturbed (ownPaths request.destination)) fails)
      (Op.Confined request.destination)
      (fun r l' => Opening platform request fails base response disk l' ∧ ∀ e, r = .error e → e.isRetryable = false)
      l := by
  unfold PartFile.createParent
  split
  · refine Local.holds_await ⟨.inl trivial, nofun⟩ fun l₁ fault r disk' hrely _ _ hout => ?_
    rw [hout.disk_of_isQuery trivial]
    refine ⟨(h.stable hrely).congr rfl rfl rfl, ?_⟩
    cases r <;> simp [Except.mapError, Error.isRetryable]
  · exact ⟨h, nofun⟩

theorem openFile :
    (Fs.await (.openFile (partPath request.destination))).Holds
      (Local.among (Undisturbed (ownPaths request.destination)) fails) (Op.Confined request.destination)
      (fun r l' => Opening platform request fails base response disk l' ∧
        (∀ file, r = .ok file → request.destination.IsFile ∧
          l'.disk.dir (partPath request.destination) = some file) ∧
        ∀ e, r = .error e → e.isRetryable = false) l := by
  refine Local.holds_await ⟨.inl rfl, nofun⟩ fun l₁ fault r disk' hrely _ _ hout => ?_
  have h₁ := h.stable hrely
  rcases hout.openFile with ⟨hfile, rfl, rfl⟩ | ⟨⟨e, rfl⟩, rfl⟩
  · have hfile := isFile_partPath.mp hfile
    refine ⟨(h₁.touched hfile).congr rfl rfl rfl, fun file hf => ⟨hfile, ?_⟩, nofun⟩
    cases hf
    exact Disk.dir_touch_self ..
  · refine ⟨h₁.congr rfl rfl rfl, by simp [Except.mapError], fun e' he => ?_⟩
    cases he
    rfl

/-- **The `.part` is cut**: the transfer begins. -/
theorem setLen {file : ℕ} (hfile : request.destination.IsFile)
    (hdir : l.disk.dir (partPath request.destination) = some file)
    (htotal : totalLength platform start response = .ok total) :
    (Fs.await (.setLen file start)).Holds (Local.among (Undisturbed (ownPaths request.destination)) fails)
      (Op.Confined request.destination)
      (fun r l' => (r = .ok () → ∃ retained, Cuts request.destination start disk l'.disk retained ∧
        Transferring platform request fails
          ⟨request.destination, file, start, false, manifestOf request start total response⟩
          ⟨response, retained, []⟩ l') ∧
        ∀ e, r = .error e → e.isRetryable = false ∧ Tidied fails request.destination l'.disk) l := by
  refine Local.holds_await ⟨.inl trivial, fun i hi => by cases hi; exact hdir⟩
    fun l₁ fault r disk' hrely _ _ hout => ?_
  have h₁ := h.stable hrely
  have hdir₁ := (hrely.agree _ part_mem_ownPaths).1.trans hdir
  rcases hout.of_paths_eq_nil rfl with ⟨-, rfl, rfl⟩ | ⟨-, ⟨e, rfl⟩, written, rfl⟩
  · have hfilling := Filling.of_setLen start (manifestOf request start total response) hfile hdir₁
    have hagree (path : PathBuf) (hne : path ≠ partPath request.destination) :
        l₁.disk.Agree (l₁.disk.update file (·.setLen start)) path :=
      Disk.agree_update (fun hd => hne (l₁.disk.dir_inj _ _ _ hd hdir₁)) _
    refine ⟨fun _ => ⟨((l₁.disk.inode file).setLen start).data, ⟨Inode.length_setLen_data .., fun hle => ?_, ?_⟩,
      ?_, ?_, ?_, ?_, ?_⟩, nofun⟩
    · rw [← h₁.unchanged.part, partData_of_file (Disk.file_of_dir hdir₁)] at hle ⊢
      exact Inode.setLen_data_of_le hle
    · exact h₁.unchanged.manifest.trans (hagree _ (partPath_ne_manifestPath hfile).symm)
    · have hmap := congrArg (Option.map fun r =>
        (⟨r, ((l₁.disk.inode file).setLen start).data, []⟩ : Transfer)) h₁.response
      exact congrArg (·.or l₁.traffic.transfer) hmap
    · rw [Transfer.data, List.append_nil]
      exact hfilling
    · exact ⟨total, by simpa using htotal, fun n => by simp [manifestOf, Manifest.setContiguous]⟩
    · exact fun _ hne => absurd rfl hne
    · exact h₁.untouched.tidied.congr (hagree _ (partPath_ne_tmpPath hfile).symm)
  · refine ⟨by simp [Except.mapError], fun e' he => ?_⟩
    cases he
    cases written <;> exact ⟨rfl, h₁.untouched.tidied⟩

end Opening

/-- **The `.part` is opened and cut**: the transfer begins. -/
theorem Untouched.openPart_cuts {response : Response} {start : ℕ} {total : Option ℕ}
    (h : Untouched platform request fails base l) (hresponse : l.traffic.response = some response)
    (htotal : totalLength platform start response = .ok total) :
    (PartFile.open request.destination start (manifestOf request start total response)).Holds
      (Local.among (Undisturbed (ownPaths request.destination)) fails) (Op.Confined request.destination)
      (fun r l' => (∀ part, r = .ok part → part.dirty = false ∧
        ∃ retained, Cuts request.destination start l.disk l'.disk retained ∧
          Transferring platform request fails part ⟨response, retained, []⟩ l') ∧
        ∀ e, r = .error e → e.isRetryable = false ∧ Tidied fails request.destination l'.disk) l := by
  have hopening : Opening platform request fails base response l.disk l :=
    ⟨h, hresponse, .of_agree fun path _ => .refl _ path⟩
  unfold PartFile.open
  refine hopening.createParent.bind ?_ fun e l' h' => ⟨nofun, fun e' he => ?_⟩
  swap
  · cases he
    exact ⟨h'.2 e rfl, h'.1.untouched.tidied⟩
  intro _ l₁ h₁
  refine h₁.1.openFile.bind ?_ fun e l' h' => ⟨nofun, fun e' he => ?_⟩
  swap
  · cases he
    exact ⟨h'.2.2 e rfl, h'.1.untouched.tidied⟩
  intro file l₂ h'
  obtain ⟨h₂, hopened, -⟩ := h'
  obtain ⟨hfile, hdir⟩ := hopened file rfl
  refine (h₂.setLen hfile hdir htotal).bind ?_ fun e l' h' => ⟨nofun, fun e' he => ?_⟩
  swap
  · cases he
    exact h'.2 e rfl
  intro _ l₃ h'
  obtain ⟨retained, hcuts, h₃⟩ := h'.1 rfl
  refine Program.Holds.bind (Q := fun r l' => Transferring platform request fails
      ⟨request.destination, file, start, false, manifestOf request start total response⟩ ⟨response, retained, []⟩ l' ∧
    (∀ e, r = .error e → e.isRetryable = false) ∧ Cuts request.destination start l.disk l'.disk retained) ?_ ?_
    fun e l' h' => ⟨by simp, fun e' he => by cases he; exact ⟨h'.2.1 e rfl, h'.1.tidied⟩⟩
  · refine Local.holds_await ⟨.inl trivial, by simp [Op.inode?]⟩ fun l₄ fault r disk' hrely _ _ hout => ?_
    rw [hout.disk_of_isQuery trivial]
    refine ⟨(h₃.stable hrely).congr rfl rfl, ?_, hcuts.length, hcuts.take,
      hcuts.manifest.trans (hrely.agree _ manifest_mem_ownPaths)⟩
    cases r <;> simp [Except.mapError, Error.isRetryable]
  · intro _ l₄ h₄
    refine ⟨fun part hp => ?_, by simp⟩
    cases hp
    exact ⟨rfl, retained, h₄.2.2, h₄.1⟩

theorem Untouched.openPart {response : Response} {start : ℕ} {total : Option ℕ}
    (h : Untouched platform request fails base l) (hresponse : l.traffic.response = some response)
    (htotal : totalLength platform start response = .ok total) :
    (PartFile.open request.destination start (manifestOf request start total response)).Holds
      (Local.among (Undisturbed (ownPaths request.destination)) fails) (Op.Confined request.destination)
      (fun r l' => (∀ part, r = .ok part → ∃ retained, retained.length = start ∧
        Transferring platform request fails part ⟨response, retained, []⟩ l') ∧
        ∀ e, r = .error e → e.isRetryable = false ∧ Tidied fails request.destination l'.disk) l :=
  (h.openPart_cuts hresponse htotal).mono fun _ _ h' => ⟨fun part hp => by
    obtain ⟨-, retained, hcuts, htransferring⟩ := h'.1 part hp
    exact ⟨retained, hcuts.length, htransferring⟩, h'.2⟩

/-- **An attempt of a worker that has its files to itself.** -/
theorem Worker.run_ended (h : Untouched platform request fails base l) :
    (run platform request).Holds (Local.among (Undisturbed (ownPaths request.destination)) fails)
      (Op.Confined request.destination) (Ended platform request fails base) l := by
  have hB : Keeps _ fails _ _ (Untouched platform request fails base) := Untouched.keeps
  have hidle : ∀ op : Op, op.IsIdle → op.IsIdle := fun _ hop => hop
  refine (hB.checkDestination hidle l h).bind ?_ fun e l' h' => h'.1.ended nofun
  intro _ l₁ h₁
  refine (hB.load hidle l₁ h₁.1).bind ?_ fun e l' h' => h'.1.ended nofun
  intro loaded l₂ h₂
  refine hB.resume hidle (fun _ h' => h'.ended nofun) (fun _ h' => h'.ended nofun) (fun h₃ hresponse => ?_) h₂.1
  refine receive_holds (fun _ _ => h₃.ended nofun) fun start total _ _ htotal => ?_
  refine (h₃.openPart hresponse htotal).bind ?_ fun e l' h' => .of_final (h'.2 e rfl).1 (h'.2 e rfl).2
  intro part l₄ h'
  obtain ⟨retained, rfl, h₄⟩ := h'.1 part rfl
  exact h₄.transfer_holds rfl (by simp [Transfer.data])

end DownloadManager
