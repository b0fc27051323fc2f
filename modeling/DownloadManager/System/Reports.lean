import DownloadManager.Reporting
import DownloadManager.System.Ending

/-!
# Reports are true

What a worker reports, against what is on the disk. A report tells how long the `.part` is at
that moment, and never takes back an earlier one; when the worker looks for the next bytes,
less than 64 KiB of what is there have not been told; and the last report before the file is
put in place tells how long it is (`reports_truthful`). The others leave the files of the
download alone, but do what they like to any other between two operations of the worker; file
operations may fail, and the server may do what it likes. Otherwise an attempt that reports
comes to what the worker's attempt comes to (`run_ended`).
-/

namespace DownloadManager

open FileSystem Program

/-- A worker that has the files of a destination to itself, where lengths fit. -/
def Local.fitting (fails : Traffic → FileOp PathBuf UInt8 → Prop) (dest : PathBuf) : Env Op Op.Reply Local :=
  fun op l r l' => Reporting.Fits op r ∧ among (Undisturbed (ownPaths dest)) fails op l r l'

/-- The operations a checkpoint consists of, on an open `.part`. -/
def Op.Records (dest : PathBuf) (file : ℕ) : Op → Prop
  | .file (.write path _) => path = tmpPath dest
  | .file (.rename path path') => path = tmpPath dest ∧ path' = manifestPath dest
  | .file (.syncData i) | .file (.syncAll i) => i = file
  | .file op => IsQuery op
  | _ => False

namespace Filling

variable {fails : Traffic → FileOp PathBuf UInt8 → Prop} {codec : Codec} {dest : PathBuf} {part : PartFile}
  {data : List UInt8} {l : Local}

/-- A file operation. -/
abbrev fileOp : Op → Local → Prop := fun op _ => ∃ fileOp, op = .file fileOp

/-- A checkpoint leaves the data alone. -/
theorem keeps :
    Keeps (Undisturbed (ownPaths dest)) fails fileOp (Op.Records dest part.file)
      fun l => Filling dest l.disk part data where
  stable h hrely := h.congr (hrely.agree _ part_mem_ownPaths)
  pre {op _} hop _ := by
    cases op with
    | file op => exact ⟨op, rfl⟩
    | send | pollStop => cases hop
  step {op _ _ _} hop h henv := by
    cases op with
    | send | pollStop => cases hop
    | file op =>
      obtain ⟨choice, -, hperform⟩ := henv
      obtain ⟨fault, disk', -, -, hout, rfl⟩ := Local.perform_file hperform
      show Filling dest disk' part data
      cases op with
      | write path bytes =>
        obtain rfl : path = tmpPath dest := hop
        exact h.congr (hout.agree (partPath_ne_tmpPath h.isFile))
      | rename path path' =>
        obtain ⟨rfl, rfl⟩ := hop
        refine h.congr (hout.agree ?_)
        rintro (hp | hp)
        · exact partPath_ne_tmpPath h.isFile hp
        · exact partPath_ne_manifestPath h.isFile hp
      | syncData i | syncAll i =>
        obtain rfl : i = part.file := hop
        rcases hout.of_paths_eq_nil rfl with ⟨-, -, rfl⟩ | ⟨-, -, written, rfl⟩
        · exact h.sync
        · cases written <;> exact h
      | metadata | read | createDirAll | seek | streamPosition | openFile | setLen | writeAll | removeFile =>
        rwa [hout.disk_of_isQuery hop]

/-- One of its operations. -/
theorem await_records (h : Filling dest l.disk part data) (op : FileOp PathBuf UInt8)
    (hop : Op.Records dest part.file (.file op)) :
    (Fs.await op).Holds (Local.among (Undisturbed (ownPaths dest)) fails) fileOp
      (fun _ l' => Filling dest l'.disk part data) l :=
  (keeps.await hop l h).mono fun _ _ h' => h'.1

/-- The manifest is saved. -/
theorem save_holds (h : Filling dest l.disk part data) (manifest : Manifest) :
    (manifest.save codec dest).Holds (Local.among (Undisturbed (ownPaths dest)) fails) fileOp
      (fun _ l' => Filling dest l'.disk part data) l :=
  (h.await_records (.write (tmpPath dest) (codec.toVec manifest)) rfl).bind
    (fun _ _ h₁ => h₁.await_records (.rename (tmpPath dest) (manifestPath dest)) ⟨rfl, rfl⟩) fun _ _ h₁ => h₁

/-- A checkpoint. -/
theorem checkpoint_holds (h : Filling dest l.disk part data) :
    (part.checkpoint codec).Holds (Local.among (Undisturbed (ownPaths dest)) fails) fileOp
      (fun r l' => ∀ part', r = .ok part' → Filling dest l'.disk part' data) l := by
  unfold PartFile.checkpoint
  split_ifs
  · rintro part' ⟨⟩
    exact h
  obtain rfl := h.dest_eq
  refine (h.await_records (.streamPosition part.file) trivial).bind ?_ fun e l₁ _ part' hr => by cases hr
  intro _ l₁ h₁
  refine (h₁.await_records (.syncData part.file) rfl).bind ?_ fun e l₂ _ part' hr => by cases hr
  intro _ l₂ h₂
  refine (h₂.save_holds (part.manifest.setContiguous part.position)).bind ?_ fun e l₃ _ part' hr => by cases hr
  intro _ l₃ h₃ part' hr
  cases hr
  exact h₃.record _ _

/-- A write, with the checkpoint it may be followed by. -/
theorem write_holds (bytes : List UInt8) (h : Filling dest l.disk part data) :
    (part.write codec bytes).Holds (Local.among (Undisturbed (ownPaths dest)) fails) fileOp
      (fun r l' => ∀ part', r = .ok part' → Filling dest l'.disk part' (data ++ bytes)) l := by
  unfold PartFile.write
  refine Program.Holds.bind (Q := fun r l' => ∀ a, r = .ok a → Filling dest l'.disk
    { part with position := part.position + bytes.length, dirty := true } (data ++ bytes)) ?_ ?_ ?_
  · refine Local.holds_await ⟨_, rfl⟩ fun l₁ fault r disk' hrely _ _ hout => ?_
    have h₁ := h.congr (hrely.agree _ part_mem_ownPaths)
    rcases hout.of_paths_eq_nil rfl with ⟨-, rfl, rfl⟩ | ⟨-, ⟨e, rfl⟩, -⟩
    · exact fun _ _ => h₁.append bytes
    · exact fun _ hr => by cases hr
  · intro a l₁ h₁
    have h₁ := h₁ a rfl
    refine (h₁.await_records (.streamPosition part.file) trivial).bind ?_ fun e l₂ _ part' hr => by cases hr
    intro _ l₂ h₂
    dsimp only
    split_ifs
    · exact h₂.checkpoint_holds
    · rintro part' ⟨⟩
      exact h₂
  · rintro e l₁ - part' hr
    cases hr

/-- The end of a transfer puts the file in place. -/
theorem finalize_holds (h : Filling dest l.disk part data) :
    part.finalize.Holds (Local.among (Undisturbed (ownPaths dest)) fails) fileOp
      (fun r l' => r.isOk → ∃ file, l'.disk.file dest = some file ∧ file.data = data) l := by
  unfold PartFile.finalize
  refine (h.await_records (.syncAll part.file) rfl).bind ?_ fun e l₁ _ hr => by cases hr
  intro _ l₁ h₁
  refine Program.Holds.bind (Q := fun r l' => r = .ok () → ∃ file, l'.disk.file dest = some file ∧ file.data = data)
    ?_ ?_ fun e l₂ _ hr => by cases hr
  · refine Local.holds_await ⟨_, rfl⟩ fun l₂ fault r disk' hrely _ _ hout => ?_
    have h₂ := h₁.congr (hrely.agree _ part_mem_ownPaths)
    rw [h.dest_eq] at hout
    rcases hout.rename with ⟨rfl, rfl⟩ | ⟨-, ⟨e, rfl⟩, -⟩
    · refine fun _ => ⟨_, ?_, h₂.data_eq⟩
      exact (Disk.file_rename_target ..).trans h₂.file_eq
    · exact fun hr => by cases hr
  · rintro ⟨⟩ l₂ h₂
    obtain ⟨file, hfile, hdata⟩ := h₂ rfl
    refine Program.Holds.bind (Q := fun _ l' => l'.disk.file dest = some file) ?_ ?_ ?_
    · refine Local.holds_attempt ⟨_, rfl⟩ fun l₃ fault r disk' hrely _ _ hout => ?_
      rw [h.dest_eq] at hout
      have hagree := (hrely.agree _ dest_mem_ownPaths).trans (hout.agree (dest_ne_manifestPath h.isFile))
      exact hagree.2.trans hfile
    · exact fun _ l₃ h₃ _ => ⟨file, h₃, hdata⟩
    · exact fun e l₃ _ hr => by cases hr

/-- The `.part` is opened. -/
theorem open_holds (start : ℕ) (manifest : Manifest) :
    (PartFile.open dest start manifest).Holds (Local.among (Undisturbed (ownPaths dest)) fails) fileOp
      (fun r l' => ∀ part, r = .ok part → ∃ data, Filling dest l'.disk part data ∧ data.length = start) l := by
  unfold PartFile.open
  refine Program.Holds.bind (Q := fun _ _ => True) ?_ ?_ fun e l₁ _ part hr => by cases hr
  · unfold PartFile.createParent
    split
    · exact Local.holds_await ⟨_, rfl⟩ fun _ _ _ _ _ _ _ _ => trivial
    · trivial
  intro _ l₁ _
  refine Program.Holds.bind (Q := fun r l' => ∀ file, r = .ok file → dest.IsFile ∧
    l'.disk.dir (partPath dest) = some file) ?_ ?_ fun e l₂ _ part hr => by cases hr
  · refine Local.holds_await ⟨_, rfl⟩ fun l₂ fault r disk' _ _ _ hout => ?_
    rcases hout.openFile with ⟨hfile, rfl, rfl⟩ | ⟨⟨e, rfl⟩, rfl⟩
    · rintro file ⟨⟩
      exact ⟨isFile_partPath.mp hfile, Disk.dir_touch_self ..⟩
    · exact fun file hr => by cases hr
  intro file l₂ h₂
  obtain ⟨hfile, hdir⟩ := h₂ file rfl
  refine Program.Holds.bind (Q := fun r l' => r = .ok () → ∃ data,
    Filling dest l'.disk ⟨dest, file, start, false, manifest⟩ data ∧ data.length = start) ?_ ?_
    fun e l₃ _ part hr => by cases hr
  · refine Local.holds_await ⟨_, rfl⟩ fun l₃ fault r disk' hrely _ _ hout => ?_
    have hdir := (hrely.agree _ part_mem_ownPaths).1.trans hdir
    rcases hout.of_paths_eq_nil rfl with ⟨-, rfl, rfl⟩ | ⟨-, ⟨e, rfl⟩, -⟩
    · exact fun _ => ⟨_, .of_setLen start manifest hfile hdir, Inode.length_setLen_data ..⟩
    · exact fun hr => by cases hr
  · rintro ⟨⟩ l₃ h₃
    obtain ⟨data, hfilling, hlength⟩ := h₃ rfl
    refine (hfilling.await_records (.seek file start) trivial).bind ?_ fun e l₄ _ part hr => by cases hr
    intro _ l₄ h₄ part hr
    cases hr
    exact ⟨data, h₄, hlength⟩

end Filling

namespace Reporting

/-- The reports among what has been told. -/
def reports (told : List TellOp) : List Events.Progress := told.filterMap fun
  | .report progress => some progress
  | .now => none

@[simp] theorem reports_now (told : List TellOp) : reports (told ++ [.now]) = reports told := by
  simp [reports]

@[simp] theorem reports_report (told : List TellOp) (progress : Events.Progress) :
    reports (told ++ [.report progress]) = reports told ++ [progress] := by
  simp [reports]

/-- What is so before each operation. A report tells how long the `.part` is, and is not behind an earlier one; before
a read, less than 64 KiB have not been told. -/
def Exact (dest : PathBuf) : Op ⊕ TellOp → Local × List TellOp → Prop
  | .inr (.report progress), (l, told) => progress.bytes.toNat = (partData dest l.disk).length ∧
    ∀ earlier ∈ reports told, earlier.bytes ≤ progress.bytes ∧ earlier.total = progress.total
  | .inl .pollStop, (l, told) => ∀ last ∈ (reports told).getLast?,
    (partData dest l.disk).length < last.bytes.toNat + Events.Progress.minSampleBytes.toNat
  | _, _ => True

/-- What is so at the end: the file is as long as has been told. -/
def Told (dest : PathBuf) (r : Result WorkerResult) (t : Local × List TellOp) : Prop :=
  ∀ result, r = .ok (.finished result) → ∃ last file, (reports t.2).getLast? = some last ∧
    t.1.disk.file dest = some file ∧ last.bytes.toNat = file.data.length ∧ result.bytesDownloaded = file.data.length

/-- A transfer under way. -/
structure Going (dest : PathBuf) (part : PartFile) (progress : Events.Progress) (chunks : List Chunk) (l : Local)
    (told : List TellOp) : Prop where
  /-- The counts do not overflow. -/
  sound : Sound progress chunks
  /-- What there is has been counted. -/
  filling : ∃ data, Filling dest l.disk part data ∧ data.length = progress.bytes.toNat
  /-- The last sample has been told. -/
  last : ∃ last, (reports told).getLast? = some last ∧ last.bytes = progress.lastSampleBytes
  /-- Nothing has to be taken back. -/
  earlier : ∀ earlier ∈ reports told, earlier.bytes ≤ progress.lastSampleBytes ∧ earlier.total = progress.total
  /-- Not much has not been told. -/
  recent : progress.bytes - progress.lastSampleBytes < Events.Progress.minSampleBytes

section

variable {fails : Traffic → FileOp PathBuf UInt8 → Prop} {platform : Platform} {request : Request} {dest : PathBuf}
  {part : PartFile} {progress : Events.Progress} {chunks : List Chunk} {l : Local} {told : List TellOp}

namespace Going

/-- How long the `.part` is. -/
theorem length (h : Going dest part progress chunks l told) :
    progress.bytes.toNat = (partData dest l.disk).length := by
  obtain ⟨data, hfilling, hlength⟩ := h.filling
  rw [Worker.partData_of_file hfilling.file_eq, hfilling.data_eq, hlength]

/-- Other files are written. -/
theorem congr {l' : Local} (h : Going dest part progress chunks l told)
    (hpart : l.disk.Agree l'.disk (partPath dest)) : Going dest part progress chunks l' told := by
  obtain ⟨data, hfilling, hlength⟩ := h.filling
  exact ⟨h.sound, ⟨data, hfilling.congr hpart, hlength⟩, h.last, h.earlier, h.recent⟩

/-- The counts of a sample are those of the last one, and what is new. -/
theorem lastSample_le (h : Going dest part progress chunks l told) :
    progress.lastSampleBytes.toNat ≤ progress.bytes.toNat ∧
      progress.bytes.toNat < progress.lastSampleBytes.toNat + Events.Progress.minSampleBytes.toNat := by
  have hle := UInt64.le_iff_toNat_le.mp h.sound.sampled
  have hlt := UInt64.lt_iff_toNat_lt.mp h.recent
  rw [UInt64.toNat_sub_of_le _ _ h.sound.sampled] at hlt
  omega

/-- Before a read. -/
theorem exact_pollStop (h : Going dest part progress chunks l told) : Exact dest (.inl .pollStop) (l, told) := by
  intro last hlast
  obtain ⟨last', hlast', hbytes⟩ := h.last
  obtain rfl := Option.some.inj (hlast'.symm.trans hlast)
  rw [← h.length, hbytes]
  exact h.lastSample_le.2

/-- An operation on a file. -/
theorem exact_fileOp {op : Op} (hop : Filling.fileOp op l) : Exact dest (.inl op) (l, told) := by
  obtain ⟨fileOp, rfl⟩ := hop
  trivial

/-- **Some bytes are written**: they are counted, and told when a sample is taken. -/
theorem add {chunk : Chunk} {progress' : Events.Progress} {sampled : Bool} {part' : PartFile} {l' : Local}
    {data : List UInt8} (h : Going dest part progress (chunk :: chunks) l told)
    (hlength : data.length = progress.bytes.toNat) (hfilling : Filling dest l'.disk part' (data ++ chunk.bytes))
    (hsound : Sound progress' chunks) (hcounts : progress'.counts = progress.counts.add chunk.bytes.length)
    (htotal : progress'.total = progress.total)
    (hsampled : sampled = true → progress'.lastSampleBytes = progress'.bytes)
    (hrest : sampled = false → progress'.lastSampleBytes = progress.lastSampleBytes ∧
      progress'.bytes - progress'.lastSampleBytes < Events.Progress.minSampleBytes) :
    (∀ earlier ∈ reports told, earlier.bytes ≤ progress'.bytes ∧ earlier.total = progress'.total) ∧
      Going dest part' progress' chunks l'
        (if sampled then told ++ [.now] ++ [.report progress'] else told ++ [.now]) := by
  have hbytes : progress'.bytes.toNat = progress.bytes.toNat + chunk.bytes.length := congrArg Progress.bytes hcounts
  have hdata : ∃ data, Filling dest l'.disk part' data ∧ data.length = progress'.bytes.toNat :=
    ⟨_, hfilling, by rw [List.length_append, hlength, hbytes]⟩
  have hearlier : ∀ earlier ∈ reports told, earlier.bytes ≤ progress'.bytes ∧ earlier.total = progress'.total := by
    intro earlier hmem
    obtain ⟨hle, heq⟩ := h.earlier earlier hmem
    refine ⟨UInt64.le_iff_toNat_le.mpr ?_, heq.trans htotal.symm⟩
    have := UInt64.le_iff_toNat_le.mp hle
    have := h.lastSample_le.1
    omega
  refine ⟨hearlier, ?_⟩
  cases sampled with
  | true =>
    have hlast := hsampled rfl
    refine ⟨hsound, hdata, ⟨progress', ?_, hlast.symm⟩, ?_, by simp [hlast, Events.Progress.minSampleBytes]⟩
    · rw [if_pos rfl, reports_report, List.getLast?_concat]
    intro earlier hmem
    rw [if_pos rfl, reports_report, reports_now, List.mem_append, List.mem_singleton] at hmem
    rw [hlast]
    rcases hmem with hmem | rfl
    · exact hearlier earlier hmem
    · exact ⟨UInt64.le_refl _, rfl⟩
  | false =>
    obtain ⟨hlast, hrecent⟩ := hrest rfl
    refine ⟨hsound, hdata, ?_, ?_, hrecent⟩
    · rw [if_neg Bool.false_ne_true, reports_now, hlast]
      exact h.last
    · rw [if_neg Bool.false_ne_true, reports_now, hlast, htotal]
      exact h.earlier

end Going

/-- A look at the stop token. -/
theorem Going.holds_poll {f : Bool → Reporting WorkerResult} {post : Result WorkerResult → Local × List TellOp → Prop}
    (hgoing : Going dest part progress chunks l told)
    (h : ∀ stop l', Going dest part progress chunks l' told →
      (f stop).Holds (Local.fitting fails dest).recording (Exact dest) post (l', told)) :
    ((pollStop.lift TellOp.Reply).bind f).Holds (Local.fitting fails dest).recording (Exact dest) post (l, told) := by
  refine ⟨hgoing.exact_pollStop, ?_⟩
  intro stop h' h''
  obtain ⟨l', told'⟩ := h'
  obtain ⟨⟨-, hamong⟩, rfl⟩ := h''
  obtain ⟨l₁, hrely, -, hl'⟩ := Local.of_among_pollStop hamong
  refine h stop l' (hgoing.congr ?_)
  rw [show l' = _ from hl']
  exact hrely.agree _ part_mem_ownPaths

/-- File operations, and an end without a result. -/
theorem holds_unfinished {α : Type} {p : Async α} {f : α → Reporting WorkerResult} {r : Result WorkerResult}
    (hp : p.Holds (Local.among (Undisturbed (ownPaths dest)) fails) Filling.fileOp (fun _ _ => True) l)
    (hf : ∀ a, f a = .done r) (hr : ∀ result, r ≠ .ok (.finished result)) :
    ((p.lift TellOp.Reply).bind f).Holds (Local.fitting fails dest).recording (Exact dest) (Told dest) (l, told) := by
  refine Holds.recording_bind (hp.of_env fun _ _ _ _ h => h.2) (fun op t => Going.exact_fileOp) ?_ ?_
  · intro a t _
    rw [hf a]
    exact fun result hresult => absurd hresult (hr result)
  · rintro e t - result hresult
    cases hresult

theorem Going.finish_holds (h : Going dest part progress [] l told) :
    (finish platform part progress).Holds (Local.fitting fails dest).recording (Exact dest) (Told dest) (l, told) := by
  obtain ⟨data, hfilling, hlength⟩ := h.filling
  refine holds_tell trivial fun now => ?_
  obtain ⟨progress', hforce, hcounts, htotal⟩ := h.sound.forceUpdate platform.overflowChecks now
  have hbytes : progress'.bytes = progress.bytes := UInt64.toNat_inj.mp (congrArg Progress.bytes hcounts)
  simp only [Program.pure_eq, Program.done_ok_bind, hforce]
  refine holds_tell ⟨by rw [hbytes, h.length], ?_⟩ fun _ => ?_
  · intro earlier hmem
    rw [reports_now] at hmem
    obtain ⟨hle, heq⟩ := h.earlier earlier hmem
    rw [hbytes, htotal]
    exact ⟨UInt64.le_trans hle h.sound.sampled, heq⟩
  · refine Holds.recording_bind (hfilling.finalize_holds.of_env fun _ _ _ _ h => h.2)
      (fun op t => Going.exact_fileOp) ?_ ?_
    · intro path t ht result hresult
      obtain ⟨file, hfile, hdata⟩ := ht rfl
      cases hresult
      refine ⟨progress', file, ?_, hfile, ?_, ?_⟩
      · rw [reports_report, List.getLast?_concat]
      · rw [hbytes, hdata, hlength]
      · rw [hdata, hlength, hbytes]
    · rintro e t - result hresult
      cases hresult

/-- The transfer loop. -/
theorem Going.transfer_holds {bodyError : Option String} (h : Going dest part progress chunks l told) :
    (transfer platform bodyError part progress chunks).Holds (Local.fitting fails dest).recording (Exact dest)
      (Told dest) (l, told) := by
  induction chunks generalizing part progress l told with
  | nil =>
    unfold transfer
    refine h.holds_poll fun stop l₁ h => ?_
    obtain ⟨data, hfilling, hlength⟩ := h.filling
    cases stop with
    | true =>
      refine holds_unfinished (r := .ok .stopped) ?_ (fun _ => rfl) (by simp)
      exact hfilling.checkpoint_holds.mono fun _ _ _ => trivial
    | false =>
      cases bodyError with
      | none => exact h.finish_holds
      | some error =>
        refine holds_unfinished (r := .error (.network error)) ?_ (fun _ => rfl) (by simp)
        exact holds_attempt.mpr (hfilling.checkpoint_holds.mono fun _ _ _ => trivial)
  | cons chunk chunks ih =>
    unfold transfer
    refine h.holds_poll fun stop l₁ h => ?_
    obtain ⟨data, hfilling, hlength⟩ := h.filling
    cases stop with
    | true =>
      refine holds_unfinished (r := .ok .stopped) ?_ (fun _ => rfl) (by simp)
      exact hfilling.checkpoint_holds.mono fun _ _ _ => trivial
    | false =>
      refine Holds.recording_bind ((hfilling.write_holds chunk.bytes).of_env fun _ _ _ _ h => h.2)
        (fun op t => Going.exact_fileOp) ?_ ?_
      · intro part' l₂ hwritten
        refine holds_tell trivial fun now => ?_
        obtain ⟨progress', sampled, hadd, hsound, hcounts, htotal, hsampled, hrest⟩ :=
          h.sound.add platform.overflowChecks now
        obtain ⟨hearlier, hgoing⟩ :=
          h.add hlength (hwritten part' rfl) hsound hcounts htotal hsampled hrest
        simp only [Program.done_ok_bind, hadd]
        cases sampled with
        | true =>
          refine holds_tell ⟨hgoing.length, ?_⟩ fun _ => ih hgoing
          rw [reports_now]
          exact hearlier
        | false => exact ih hgoing
      · rintro e t - result hresult
        cases hresult

/-- As long as nothing has been told. -/
theorem exact_nil (op : Op) (t : Local) : Exact dest (.inl op) (t, []) := by
  cases op with
  | pollStop => exact fun last hlast => by cases hlast
  | file | send => trivial

/-- A program that is not at an end yet, as long as nothing has been told. -/
theorem holds_first {α : Type} {p : Async α} {P : α → Prop} {f : α → Reporting WorkerResult}
    (hp : p.Returns Fits P)
    (hf : ∀ a l', P a → (f a).Holds (Local.fitting fails dest).recording (Exact dest) (Told dest) (l', [])) :
    ((p.lift TellOp.Reply).bind f).Holds (Local.fitting fails dest).recording (Exact dest) (Told dest) (l, []) := by
  refine Holds.recording_bind (hp.holds fun op s r s' h => h.1) (fun op t _ => exact_nil op t) ?_ ?_
  · exact fun a t ht => hf a t (ht a rfl)
  · rintro e t - result hresult
    cases hresult

theorem receive_holds {offset : ℕ} {response : Response} (hoffset : offset < 2 ^ 63)
    (hresponse : response.bytes.length < 2 ^ 63) :
    (receive platform request offset response).Holds (Local.fitting fails request.destination).recording
      (Exact request.destination) (Told request.destination) (l, []) := by
  unfold receive
  dsimp only
  by_cases hsuccess : (!response.status.isSuccess) = true
  · rw [if_pos hsuccess]
    exact fun result hresult => by cases hresult
  · rw [if_neg hsuccess]
    have hstart : (if response.status.code = 206 then offset else 0) < 2 ^ 63 := by split_ifs <;> omega
    rw [length_bytes] at hresponse
    generalize (if response.status.code = 206 then offset else 0) = start at hstart ⊢
    cases Worker.totalLength platform start response with
    | error panic => exact fun result hresult => by cases hresult
    | ok total =>
      refine Holds.recording_bind ((Filling.open_holds start _).of_env fun _ _ _ _ h => h.2)
        (fun op t _ => exact_nil op t) ?_ ?_
      · intro part l₁ hopened
        obtain ⟨data, hfilling, hlength⟩ := hopened part rfl
        refine holds_tell trivial fun now => ?_
        have hbytes : (Events.Progress.new (.ofNat start) (total.map .ofNat) now).bytes.toNat = start :=
          UInt64.toNat_ofNat_of_lt' (show _ < 2 ^ 64 by omega)
        have hgoing : Going request.destination part (.new (.ofNat start) (total.map .ofNat) now) response.body l₁
            [.now, .report (.new (.ofNat start) (total.map .ofNat) now)] := by
          refine ⟨sound_new now (by omega), ⟨data, hfilling, hlength.trans hbytes.symm⟩, ⟨_, rfl, rfl⟩, ?_, ?_⟩
          · intro earlier hmem
            obtain rfl := List.mem_singleton.mp hmem
            exact ⟨UInt64.le_refl _, rfl⟩
          · simp [Events.Progress.new, Events.Progress.minSampleBytes]
        exact holds_tell ⟨hgoing.length, fun earlier hmem => by cases hmem⟩ fun _ => hgoing.transfer_holds
      · rintro e t - result hresult
        cases hresult

theorem resume_holds (loaded : Option Manifest) :
    (resume platform request loaded).Holds (Local.fitting fails request.destination).recording
      (Exact request.destination) (Told request.destination) (l, []) := by
  unfold resume
  refine holds_first (resumeFrom_returns _) fun offset l₁ hoffset => ?_
  refine holds_first (sendGet_returns offset _) fun sent l₂ hsent => ?_
  cases sent with
  | none => exact fun result hresult => by cases hresult
  | some response =>
    dsimp only
    split_ifs
    · refine holds_first (sendGet_returns 0 none) fun sent l₃ hsent => ?_
      cases sent with
      | none => exact fun result hresult => by cases hresult
      | some response => exact receive_holds hoffset (hsent response rfl)
    · exact receive_holds hoffset (hsent response rfl)

/-- **Reports are true**, in every attempt of a worker that has its files to itself, whatever the others do to other
files and whatever the server, the file operations and the clock do: a report tells how long the `.part` is and never
less than an earlier one; before each read less than 64 KiB have not been told; and when the file has been put in place
it is as long as the last report and the result say. -/
theorem reports_truthful (fails : Traffic → FileOp PathBuf UInt8 → Prop) (platform : Platform) (request : Request)
    (l : Local) :
    (run platform request).Holds (Local.fitting fails request.destination).recording (Exact request.destination)
      (Told request.destination) (l, []) :=
  holds_first (returns_true _) fun _ _ _ => holds_first (returns_true _) fun loaded _ _ => resume_holds loaded

/-- **What an attempt of the worker comes to, one that reports comes to**: the same operations on the same files, the
same end. -/
theorem run_ended {base : Option Transfer} {l : Local} (h : Untouched platform request fails base l) :
    (run platform request).Holds (Local.fitting fails request.destination).telling
      (fun op l => ∀ op', op = .inl op' → op'.Confined request.destination l)
      (Ended platform request fails base) l := by
  have hrefines : Refines Fits (run platform request) (Worker.run platform request) :=
    Refines.lift_bind (returns_true _) fun _ _ =>
      Refines.lift_bind (returns_true _) fun loaded _ => resume_refines loaded
  have hended : (Worker.run platform request).Holds (Local.fitting fails request.destination)
      (Op.Confined request.destination) (Ended platform request fails base) l :=
    (Worker.run_ended h).of_env fun _ _ _ _ henv => henv.2
  exact hrefines.holds (fun _ _ _ _ henv => henv.1) hended

end

end Reporting

end DownloadManager
