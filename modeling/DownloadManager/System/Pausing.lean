import DownloadManager.System.Standing

/-!
# Paused downloads

`Download::pause` waits until the partial state has been preserved. A worker that is stopped
makes a checkpoint, and fails if the checkpoint does. A worker whose body breaks off makes one
too, and fails with the error of the body, whatever becomes of the checkpoint.
-/

namespace DownloadManager

open FileSystem Worker

namespace System

variable {nextDelay : UInt32 → Except Panic Duration} {platform : Platform} {request : Request} {id : Uuid} {s : System}

/-- **What a paused download has received is recorded**, in a run in which nobody else touches its files and no file
operation of its workers fails once a read of the body has failed. -/
theorem recorded_when_paused {maxConcurrent : ℕ+} {disk : Disk} {ms : List Move} {progressTx tx : Sender} {job : Job}
    (hms : Machine.Along (step nextDelay)
      (fun s m => s.Terms nextDelay (fun traffic _ => traffic.broken = false) (fun _ => True) id request.destination m)
      (.new platform maxConcurrent disk) ms)
    (hrun : Machine.exec (step nextDelay) (.new platform maxConcurrent disk) ms = some s)
    (hasked : .enqueue id request progressTx tx ∈ s.thread.handled)
    (hjob : s.thread.sched.jobs.lookup id = some job) (hpaused : job.state = .paused) (hnot : ¬s.Cleans id) :
    ∀ x ∈ s.latest id, x.received ≠ [] → partData request.destination s.disk = x.data ∧
      ∃ total manifest, totalLength platform x.retained.length x.response = .ok total ∧
        storedManifest platform.codec request.destination s.disk = some manifest ∧
        manifest = (manifestOf request x.retained.length total x.response).setContiguous x.data.length ∧
        manifest.resumeOffset = x.data.length := by
  intro x hx hne
  obtain ⟨-, hstanding⟩ := standing_of_run (fun htidy => absurd rfl ((htidy {}).1 [])) hms hrun hasked
  have hrested := hstanding.idle job hjob (by rw [hpaused]; rfl) hnot
  obtain ⟨hdata, total, htotal, hstored⟩ := hrested.kept (fun _ _ h => h) x hx hne
  exact ⟨hdata, total, _, htotal, hstored, rfl, by simp⟩

/-- A response whose body breaks off. -/
def brokenResponse : Response := { Response.sample .ok "\"a\"" [1] with bodyError := some "reset" }

/-- The first worker has written the one byte of it. -/
def breaking : List Move := started ++ answered brokenResponse ++ opened ++ written

/-- It is stopped, and has made its checkpoint. -/
def pausedBreaking : List Move :=
  breaking ++ [.thread (.command (.pause 0 3) (fun _ => .ok ()) []), .thread .tryDispatch,
    .worker firstWorker (.pollStop true)] ++ List.replicate 4 (.worker firstWorker (.file none)) ++ [.yield firstWorker]

/-- It has read the body to its end, is told to stop, and its checkpoint fails. -/
def unrecorded : List Move :=
  breaking ++ [.worker firstWorker (.pollStop false), .thread (.command (.pause 0 3) (fun _ => .ok ()) []),
    .thread .tryDispatch, .worker firstWorker (.file none), .worker firstWorker (.file (some ⟨⟨false, "disk full"⟩, none⟩)),
    .yield firstWorker]

/-- A download is stopped while it receives its body. -/
theorem recorded_when_paused_breaking :
    ∃ s, Machine.exec (step backoffStrategy.nextDelay) (.new .sample 1 .empty) pausedBreaking = some s ∧
      (s.latest 0).map Transfer.received = some [1] ∧
      ∀ x ∈ s.latest 0, x.received ≠ [] → partData Request.sample.destination s.disk = x.data ∧
        ∃ total manifest, totalLength .sample x.retained.length x.response = .ok total ∧
          storedManifest Platform.sample.codec Request.sample.destination s.disk = some manifest ∧
          manifest = (manifestOf .sample x.retained.length total x.response).setContiguous x.data.length ∧
          manifest.resumeOffset = x.data.length := by
  have h : (Machine.exec (step backoffStrategy.nextDelay) (.new .sample 1 .empty) pausedBreaking).any (fun s =>
      (∃ job ∈ s.thread.sched.jobs.lookup 0, job.state = .paused) ∧ s.cleanup.isNone ∧
      .enqueue 0 .sample 1 2 ∈ s.thread.handled ∧ (s.latest 0).map Transfer.received = some [1]) := by decide +kernel
  obtain ⟨s, hs, ⟨job, hjob, hpaused⟩, hcleanup, hasked, hreceived⟩ := Machine.exists_exec_of_any _ h
  exact ⟨s, hs, hreceived, recorded_when_paused (by decide +kernel) hs hasked hjob hpaused
    (not_cleans (Option.isNone_iff_eq_none.mp hcleanup))⟩

/-- **A checkpoint that fails after the body has broken off is not told**: the pause is answered `Ok`, the download is
paused, and nothing is recorded. -/
theorem unrecorded_when_broken :
    ∃ s, Machine.exec (step backoffStrategy.nextDelay) (.new .sample 1 .empty) unrecorded = some s ∧
      (∃ job, s.thread.sched.jobs.lookup 0 = some job ∧ job.state = .paused) ∧ s.cleanup = none ∧
      .ack 0 3 (.ok ()) ∈ s.thread.sched.log ∧ (s.latest 0).map Transfer.received = some [1] ∧
      partData Request.sample.destination s.disk = [1] ∧
      storedManifest Platform.sample.codec Request.sample.destination s.disk = none := by
  have h : (Machine.exec (step backoffStrategy.nextDelay) (.new .sample 1 .empty) unrecorded).any (fun s =>
      (∃ job ∈ s.thread.sched.jobs.lookup 0, job.state = .paused) ∧ s.cleanup.isNone ∧
      .ack 0 3 (.ok ()) ∈ s.thread.sched.log ∧ (s.latest 0).map Transfer.received = some [1] ∧
      partData Request.sample.destination s.disk = [1] ∧
      (storedManifest Platform.sample.codec Request.sample.destination s.disk).isNone) := by decide +kernel
  obtain ⟨s, hs, hjob, hcleanup, hack, hreceived, hdata, hstored⟩ := Machine.exists_exec_of_any _ h
  exact ⟨s, hs, hjob, Option.isNone_iff_eq_none.mp hcleanup, hack, hreceived, hdata, Option.isNone_iff_eq_none.mp hstored⟩

end System

end DownloadManager
