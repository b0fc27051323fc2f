import DownloadManager.System.Pausing

/-!
# Cancelled downloads

`discard_partial` removes the `.part` and the manifest. It does not remove the temporary file
that a failed `save` leaves behind; and `finalize` does not tell when it cannot remove the
manifest. `Download::cancel` waits for the result of the download, whatever it is, and takes
every error but `Cancelled` for its own.
-/

namespace DownloadManager

open FileSystem Worker

/-- An operation of `save`. -/
def savesTo (dest : PathBuf) : FileOp PathBuf UInt8 → Bool
  | .write path _ => path = tmpPath dest
  | .rename path path' => path = tmpPath dest ∧ path' = manifestPath dest
  | _ => false

/-- The removal of the manifest. -/
def removesManifest (dest : PathBuf) : FileOp PathBuf UInt8 → Bool
  | .removeFile path => path = manifestPath dest
  | _ => false

/-- `Download::cancel`, once the download has its result. -/
def Download.cancel : Result DownloadResult → Result Unit
  | .ok _ | .error .cancelled => .ok ()
  | .error error => .error error

theorem Download.cancel_eq_ok {value : Result DownloadResult} (h : Download.cancel value = .ok ()) :
    (∃ result, value = .ok result) ∨ value = .error .cancelled := by
  rcases value with e | result
  · cases e <;> first | exact .inr rfl | cases h
  · exact .inl ⟨result, rfl⟩

theorem Download.cancel_eq_error {value : Result DownloadResult} {e : Error} (h : Download.cancel value = .error e) :
    value = .error e ∧ e ≠ .cancelled := by
  rcases value with e' | result
  · cases e' <;> cases h <;> exact ⟨rfl, nofun⟩
  · cases h

namespace System

variable {nextDelay : UInt32 → Except Panic Duration} {platform : Platform} {request : Request} {id : Uuid} {s : System}

/-! ### What a cancelled download leaves behind -/

/-- **A cancelled download leaves nothing behind**, in a run in which nobody else touches its files and every `save` of
its workers succeeds. -/
theorem nothing_left_when_cancelled {maxConcurrent : ℕ+} {disk : Disk} {ms : List Move} {progressTx tx tx' : Sender}
    (hdisk : disk.file (tmpPath request.destination) = none)
    (hms : Machine.Along (step nextDelay) (fun s m => s.Terms nextDelay
      (fun _ op => savesTo request.destination op = false) (fun _ => True) id request.destination m)
      (.new platform maxConcurrent disk) ms)
    (hrun : Machine.exec (step nextDelay) (.new platform maxConcurrent disk) ms = some s)
    (hasked : .enqueue id request progressTx tx ∈ s.thread.handled)
    (hresult : .result id tx' (.error .cancelled) ∈ s.thread.sched.log) :
    s.disk.file (partPath request.destination) = none ∧ s.disk.file (manifestPath request.destination) = none ∧
      s.disk.file (tmpPath request.destination) = none := by
  obtain ⟨hs, hstanding⟩ := standing_of_run (fun _ => hdisk) hms hrun hasked
  have hleft := hstanding.ended tx' _ (Thread.results_of_mem (thread_of_reachable hs) hresult).2
  refine ⟨(hleft.cancelled rfl).1, (hleft.cancelled rfl).2, hleft.tidied fun _ => ⟨fun bytes h => ?_, fun h => ?_⟩⟩
  · simp [savesTo] at h
  · simp [savesTo] at h

/-- A download is cancelled while it receives its body, and its worker makes a checkpoint. -/
def cancelledBreaking : List Move :=
  breaking ++ [.thread (.command (.cancel 0) (fun _ => .ok ()) []), .thread .tryDispatch,
    .worker firstWorker (.pollStop true)] ++ List.replicate 4 (.worker firstWorker (.file none)) ++
    [.yield firstWorker, .cleanup none, .cleanup none, .discarded]

/-- The checkpoint fails when its manifest is written, and only the temporary file is. -/
def cancelledUntidy : List Move :=
  breaking ++ [.thread (.command (.cancel 0) (fun _ => .ok ()) []), .thread .tryDispatch,
    .worker firstWorker (.pollStop true)] ++ List.replicate 3 (.worker firstWorker (.file none)) ++
    [.worker firstWorker (.file (some ⟨⟨false, "disk full"⟩, none⟩)), .yield firstWorker, .cleanup none, .cleanup none,
      .discarded]

/-- With a manifest that has been saved. -/
theorem nothing_left_when_cancelled_breaking :
    ∃ s, Machine.exec (step backoffStrategy.nextDelay) (.new .sample 1 .empty) cancelledBreaking = some s ∧
      .result 0 2 (.error .cancelled) ∈ s.thread.sched.log ∧
      s.disk.file (partPath Request.sample.destination) = none ∧
      s.disk.file (manifestPath Request.sample.destination) = none ∧ s.disk.file (tmpPath Request.sample.destination) = none := by
  have h : (Machine.exec (step backoffStrategy.nextDelay) (.new .sample 1 .empty) cancelledBreaking).any (fun s =>
      .enqueue 0 .sample 1 2 ∈ s.thread.handled ∧ .result 0 2 (.error .cancelled) ∈ s.thread.sched.log) := by decide +kernel
  obtain ⟨s, hs, hasked, hresult⟩ := Machine.exists_exec_of_any _ h
  exact ⟨s, hs, hresult, nothing_left_when_cancelled rfl (by decide +kernel) hs hasked hresult⟩

/-- **A `save` that fails leaves its temporary file behind**, and the download is cancelled all the same. -/
theorem untidy_when_cancelled :
    ∃ s, Machine.exec (step backoffStrategy.nextDelay) (.new .sample 1 .empty) cancelledUntidy = some s ∧
      .result 0 2 (.error .cancelled) ∈ s.thread.sched.log ∧
      (s.disk.file (tmpPath Request.sample.destination)).isSome := by
  have h : (Machine.exec (step backoffStrategy.nextDelay) (.new .sample 1 .empty) cancelledUntidy).any (fun s =>
      .result 0 2 (.error .cancelled) ∈ s.thread.sched.log ∧
      (s.disk.file (tmpPath Request.sample.destination)).isSome) := by decide +kernel
  obtain ⟨s, hs, hresult, htmp⟩ := Machine.exists_exec_of_any _ h
  exact ⟨s, hs, hresult, htmp⟩

/-! ### What `cancel` returns -/

/-- **What `cancel` returns**, in a run in which nobody else touches the files of the download, its workers can remove
its manifest, and it does not end with an error of its worker: an error only if `discard_partial` has failed with it;
and `Ok` only when the download has ended and there is neither a `.part` nor a manifest. -/
theorem cancel_returns {maxConcurrent : ℕ+} {disk : Disk} {ms : List Move} {progressTx tx tx' : Sender}
    {value : Result DownloadResult}
    (hms : Machine.Along (step nextDelay) (fun s m => s.Terms nextDelay
      (fun _ op => removesManifest request.destination op = false) (fun _ => False) id request.destination m)
      (.new platform maxConcurrent disk) ms)
    (hrun : Machine.exec (step nextDelay) (.new platform maxConcurrent disk) ms = some s)
    (hasked : .enqueue id request progressTx tx ∈ s.thread.handled) (hresult : .result id tx' value ∈ s.thread.sched.log) :
    (∀ e, Download.cancel value = .error e → (id, .error e) ∈ s.discarded) ∧
      (Download.cancel value = .ok () → s.thread.sched.jobs.lookup id = none ∧
        s.disk.file (partPath request.destination) = none ∧ s.disk.file (manifestPath request.destination) = none) := by
  obtain ⟨hs, hstanding⟩ := standing_of_run (fun htidy => absurd rfl ((htidy {}).1 [])) hms hrun hasked
  obtain ⟨hjob, hresults⟩ := Thread.results_of_mem (thread_of_reachable hs) hresult
  have hleft := hstanding.ended tx' value hresults
  have hclearing : Clearing (fun _ op => removesManifest request.destination op = false) request.destination :=
    fun _ h => by simp [removesManifest] at h
  constructor
  · intro e he
    obtain ⟨hvalue, hne⟩ := Download.cancel_eq_error he
    exact (hleft.failed e hvalue hne).resolve_right not_false
  · intro hok
    rcases Download.cancel_eq_ok hok with ⟨result, hvalue⟩ | hvalue
    · exact ⟨hjob, (hleft.completed result hvalue).1, (hleft.completed result hvalue).2 hclearing⟩
    · exact ⟨hjob, (hleft.cancelled hvalue).1, (hleft.cancelled hvalue).2⟩

/-- The `.part` cannot be removed. -/
def cancelledStuck : List Move :=
  breaking ++ [.thread (.command (.cancel 0) (fun _ => .ok ()) []), .thread .tryDispatch,
    .worker firstWorker (.pollStop true)] ++ List.replicate 4 (.worker firstWorker (.file none)) ++
    [.yield firstWorker, .cleanup (some ⟨⟨false, "permission denied"⟩, none⟩), .discarded]

/-- The download is not found, and cancelled when that is known. -/
def cancelledLate : List Move :=
  started ++ answered ⟨⟨404, "404 Not Found"⟩, [], [], none⟩ ++
    [.yield firstWorker, .thread .tryDispatch, .thread (.command (.cancel 0) (fun _ => .ok ()) [])]

/-- The download completes while it is being cancelled, and its manifest cannot be removed. -/
def completedStuck : List Move :=
  started ++ answered (.sample .ok "\"a\"" [1]) ++ opened ++ written ++
    [.worker firstWorker (.pollStop false), .thread (.command (.cancel 0) (fun _ => .ok ()) []), .thread .tryDispatch,
      .worker firstWorker (.file none), .worker firstWorker (.file none),
      .worker firstWorker (.file (some ⟨⟨false, "permission denied"⟩, none⟩)), .yield firstWorker]

/-- With a `.part` that cannot be removed. -/
theorem cancel_returns_stuck :
    ∃ s, Machine.exec (step backoffStrategy.nextDelay) (.new .sample 1 .empty) cancelledStuck = some s ∧
      .result 0 2 (.error (.io ⟨false, "permission denied"⟩)) ∈ s.thread.sched.log ∧
      (0, .error (.io ⟨false, "permission denied"⟩)) ∈ s.discarded := by
  have h : (Machine.exec (step backoffStrategy.nextDelay) (.new .sample 1 .empty) cancelledStuck).any (fun s =>
      .enqueue 0 .sample 1 2 ∈ s.thread.handled ∧
      .result 0 2 (.error (.io ⟨false, "permission denied"⟩)) ∈ s.thread.sched.log) := by decide +kernel
  obtain ⟨s, hs, hasked, hresult⟩ := Machine.exists_exec_of_any _ h
  exact ⟨s, hs, hresult, (cancel_returns (by decide +kernel) hs hasked hresult).1 _ rfl⟩

/-- **`cancel` fails though nothing was to be removed**, for a download that has failed before; and **it succeeds though
a manifest is left**, for one that completes. -/
theorem cancel_returns_otherwise :
    (∃ s e, Machine.exec (step backoffStrategy.nextDelay) (.new .sample 1 .empty) cancelledLate = some s ∧
      .result 0 2 (.error e) ∈ s.thread.sched.log ∧ Download.cancel (.error e) = .error e ∧ s.discarded = []) ∧
    ∃ s result, Machine.exec (step backoffStrategy.nextDelay)
        (.new .sample 1 (Disk.empty.put (manifestPath Request.sample.destination) [])) completedStuck = some s ∧
      .result 0 2 (.ok result) ∈ s.thread.sched.log ∧ Download.cancel (.ok result) = .ok () ∧
      (s.disk.file (manifestPath Request.sample.destination)).isSome := by
  constructor
  · have h : (Machine.exec (step backoffStrategy.nextDelay) (.new .sample 1 .empty) cancelledLate).any (fun s =>
        .result 0 2 (.error (.httpStatus ⟨404, "404 Not Found"⟩)) ∈ s.thread.sched.log ∧ s.discarded = []) := by
      decide +kernel
    obtain ⟨s, hs, hresult, hdiscarded⟩ := Machine.exists_exec_of_any _ h
    exact ⟨s, _, hs, hresult, rfl, hdiscarded⟩
  · have h : (Machine.exec (step backoffStrategy.nextDelay)
        (.new .sample 1 (Disk.empty.put (manifestPath Request.sample.destination) [])) completedStuck).any (fun s =>
        .result 0 2 (.ok ⟨Request.sample.destination, 1⟩) ∈ s.thread.sched.log ∧
        (s.disk.file (manifestPath Request.sample.destination)).isSome) := by decide +kernel
    obtain ⟨s, hs, hresult, hmanifest⟩ := Machine.exists_exec_of_any _ h
    exact ⟨s, _, hs, hresult, rfl, hmanifest⟩

end System

end DownloadManager
