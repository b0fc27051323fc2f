import DownloadManager.Events
import DownloadManager.Request
import DownloadManager.Scheduler.Backoff

/-!
# Jobs

`src/scheduler/job.rs`: the record the scheduler keeps of a download, and the
three ways it leaves a state with something to report (`finalize`, `pause`,
`retry`).

A channel is known by a number: what is sent on it goes to the log `List Output`,
in the order it is sent. The events, the replies to `pause` and `resume` and the
results of downloads are kept in one log so that their order is not lost. The
end of a reply channel carries no data but itself; the log also says which
download a reply is about.
-/

namespace DownloadManager

/-- The sending end of a one-slot channel, or of a progress channel. -/
abbrev Sender := ℕ

/-- `CancellationToken`: a child of the root token, by number. -/
abbrev Token := ℕ

/-- `DownloadResult`. -/
structure DownloadResult where
  /-- Where the file is. -/
  path : PathBuf
  /-- How many bytes it has, a resumed prefix included. -/
  bytesDownloaded : ℕ
  deriving DecidableEq, Repr

/-- `WorkerResult`. -/
inductive WorkerResult where
  /-- The file is in place. -/
  | finished (result : DownloadResult)
  /-- The worker was asked to stop. -/
  | stopped
  deriving DecidableEq, Repr

/-- What the scheduler sends to its clients. -/
inductive Output where
  /-- An event, broadcast. -/
  | event (id : Uuid) (kind : EventKind)
  /-- A reply to a `pause` or a `resume` of download `id`. -/
  | ack (id : Uuid) (tx : Sender) (reply : Result Unit)
  /-- The result of download `id`. -/
  | result (id : Uuid) (tx : Sender) (value : Result DownloadResult)
  deriving DecidableEq, Repr

/-- The download an output is about. -/
def Output.id : Output → Uuid
  | .event id _ => id
  | .ack id _ _ => id
  | .result id _ _ => id

/-- `JobState`. -/
inductive JobState where
  /-- Waiting in `ready`. -/
  | queued
  /-- A worker runs, and stops when `stop` is cancelled. -/
  | running (stop : Token)
  /-- A worker failed; a timer will requeue the job. -/
  | retrying (attempt : UInt32)
  /-- The worker was asked to stop; `waiters` will be told when it has. -/
  | pausing (waiters : List Sender)
  /-- No worker. -/
  | paused
  /-- The worker was asked to stop for good. -/
  | cancelling
  deriving DecidableEq, Repr

/-- `JobEvent`. -/
inductive JobEvent where
  /-- The job is first in `ready` and there is room for a worker. -/
  | dispatch
  /-- The timer of an attempt is up. -/
  | retryElapsed (attempt : UInt32)
  /-- A client wants the job paused. -/
  | pause (ack : Sender)
  /-- A client wants the job resumed. -/
  | resume (ack : Sender)
  /-- A client wants the job cancelled. -/
  | cancel
  /-- The job's worker is done. -/
  | worker (result : Result WorkerResult)
  deriving DecidableEq, Repr

/-- `Job`. -/
structure Job where
  /-- The download. -/
  id : Uuid
  /-- What to fetch and where to put it. -/
  request : Request
  /-- Where the worker reports its progress. -/
  progressTx : Sender
  /-- How many retryable errors have been absorbed. -/
  attempt : UInt32
  /-- Where the result goes. -/
  result : Option Sender
  /-- The state. -/
  state : JobState
  deriving DecidableEq, Repr

/-- What a failed or finished download tells the calls waiting for its pause. -/
def replyOf : Result DownloadResult → Result Unit
  | .ok _ => .ok ()
  | .error e => .error e

/-- The event that reports a result. -/
def kindOf : Result DownloadResult → EventKind
  | .ok _ => .completed
  | .error .cancelled => .cancelled
  | .error e => .failed e.display

namespace Job

/-- `Job::resolve_pause_waiters`: the waiters of a pausing job are drained. -/
def resolvePauseWaiters (job : Job) (result : Result Unit) : Job × List Output :=
  match job.state with
  | .pausing waiters =>
    ({ job with state := .pausing [] }, waiters.map fun waiter => .ack job.id waiter result)
  | _ => (job, [])

/-- `Job::finalize`: the job is consumed. -/
def finalize (job : Job) (result : Result DownloadResult) : List Output :=
  let (job, acks) := job.resolvePauseWaiters (replyOf result)
  acks ++ .event job.id (kindOf result) ::
    match job.result with
    | some resultTx => [.result job.id resultTx result]
    | none => []

/-- `Job::pause`. -/
def pause (job : Job) : Job × List Output :=
  let (job, acks) := job.resolvePauseWaiters (.ok ())
  ({ job with state := .paused }, acks ++ [.event job.id .paused])

/-- `Job::retry`. -/
def retry (job : Job) (delay : Duration) : Job × List Output :=
  let job := { job with attempt := job.attempt + 1 }
  ({ job with state := .retrying job.attempt }, [.event job.id (.retryScheduled job.attempt delay.asMillis)])

/-- The calls waiting for a pausing job to be paused. -/
def waiters (job : Job) : List Sender :=
  match job.state with
  | .pausing waiters => waiters
  | _ => []

/-- Answer every call waiting for the job to be paused. -/
def answer (job : Job) (reply : Result Unit) : List Output :=
  job.waiters.map fun waiter => .ack job.id waiter reply

/-! ### What the three say, without the drained record -/

theorem finalize_eq (job : Job) (result : Result DownloadResult) :
    job.finalize result = job.answer (replyOf result) ++ .event job.id (kindOf result) ::
      job.result.toList.map fun tx => .result job.id tx result := by
  obtain ⟨id, request, progressTx, attempt, resultTx, state⟩ := job
  cases state <;> cases resultTx <;> rfl

theorem pause_eq (job : Job) :
    job.pause = ({ job with state := .paused }, job.answer (.ok ()) ++ [.event job.id .paused]) := by
  obtain ⟨id, request, progressTx, attempt, resultTx, state⟩ := job
  cases state <;> rfl

end Job

end DownloadManager
