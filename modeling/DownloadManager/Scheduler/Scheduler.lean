import DownloadManager.Scheduler.Job
import Mathlib.Data.Finmap
import Mathlib.Data.PNat.Basic

/-!
# The scheduler

`src/scheduler.rs`: the scheduler's collections and the functions that update
them. `delayed` and `workers` are `FuturesUnordered` sets: what is listed has not
been yielded yet, and the order of the lists means nothing. A timer is the pair
it yields; a worker is the job it runs for and what it was started with.

What a function takes from outside is an argument: `nextDelay` is the backoff
strategy, `discarded` the result of `storage::discard_partial` for a job that is
cancelled, and `order` the order in which the job map is visited. A function that
can panic returns `Except Panic`.
-/

namespace DownloadManager

/-- A worker: `run(request, client, progress_tx, stop)`, tagged with the job. -/
structure Worker where
  /-- The job. -/
  id : Uuid
  /-- The request. -/
  request : Request
  /-- Where progress goes. -/
  progressTx : Sender
  /-- The token that stops it. -/
  stop : Token
  deriving DecidableEq, Repr

/-- The job map. -/
abbrev Jobs := Finmap fun _ : Uuid => Job

/-- `SchedulerCmd`. -/
inductive SchedulerCmd where
  /-- A new download. -/
  | enqueue (id : Uuid) (request : Request) (progressTx resultTx : Sender)
  /-- `Download::pause`. -/
  | pause (id : Uuid) (ack : Sender)
  /-- `Download::resume`. -/
  | resume (id : Uuid) (ack : Sender)
  /-- `Download::cancel`. -/
  | cancel (id : Uuid)
  /-- `DownloadManager::cancel_all`. -/
  | cancelAll
  /-- `DownloadManager::set_max_concurrent`. -/
  | setMaxConcurrent (maxConcurrent : ℕ+)
  deriving DecidableEq, Repr

/-- `Scheduler`, with what it uses of `Context`: the root token and the channels'
log. Child tokens are numbered in the order they are handed out. -/
@[ext]
structure Scheduler where
  /-- `ctx.cancel_root` is cancelled. -/
  cancelRoot : Bool
  /-- How many child tokens the root token has handed out. -/
  tokens : ℕ
  /-- The child tokens cancelled one by one. -/
  stopped : Finset Token
  /-- How many workers may run. -/
  maxConcurrent : ℕ+
  /-- The jobs. -/
  jobs : Jobs
  /-- The jobs waiting for a worker, first to start first. -/
  ready : List Uuid
  /-- The timers. -/
  delayed : List (Uuid × UInt32)
  /-- The workers. -/
  workers : List Worker
  /-- Everything sent so far. -/
  log : List Output

namespace Scheduler

/-- `Scheduler::new`. -/
def new (maxConcurrent : ℕ+) : Scheduler where
  cancelRoot := false
  tokens := 0
  stopped := ∅
  maxConcurrent := maxConcurrent
  jobs := ∅
  ready := []
  delayed := []
  workers := []
  log := []

/-- Send outputs. -/
def send (s : Scheduler) (out : List Output) : Scheduler := { s with log := s.log ++ out }

/-- `Scheduler::emit`. -/
def emit (s : Scheduler) (id : Uuid) (kind : EventKind) : Scheduler := s.send [.event id kind]

/-- `Scheduler::schedule`. -/
def schedule (s : Scheduler) (job : Job) : Scheduler :=
  let s := s.emit job.id .queued
  { s with jobs := s.jobs.insert job.id job, ready := s.ready ++ [job.id] }

/-- `Scheduler::cancel_job`. -/
def cancelJob (discarded : Result Unit) (s : Scheduler) (job : Job) : Scheduler :=
  match discarded with
  | .ok () => s.send (job.finalize (.error .cancelled))
  | .error error => s.send (job.finalize (.error error))

/-- The text of `unknown download {id}`. -/
def unknownDownload (id : Uuid) : Error := .unknown ("unknown download " ++ toString id)

variable (nextDelay : UInt32 → Except Panic Duration)

/-- `Scheduler::transition_job`. -/
def transitionJob (discarded : Result Unit) (s : Scheduler) (id : Uuid) (event : JobEvent) :
    Except Panic Scheduler :=
  match event with
  | .dispatch =>
    match s.jobs.lookup id with
    | none => .ok s
    | some job =>
      match job.state with
      | .queued =>
        let stop := s.tokens
        let s := { s with tokens := s.tokens + 1, jobs := s.jobs.insert id { job with state := .running stop } }
        let s := s.emit id .started
        .ok { s with workers := s.workers ++ [⟨id, job.request, job.progressTx, stop⟩] }
      | _ => .ok s
  | .retryElapsed attempt =>
    match s.jobs.lookup id with
    | none => .ok s
    | some job =>
      match job.state with
      | .retrying current =>
        if current = attempt then
          let s := { s with jobs := s.jobs.insert id { job with state := .queued }, ready := s.ready ++ [id] }
          .ok (s.emit id .queued)
        else .ok s
      | _ => .ok s
  | .pause ack =>
    match s.jobs.lookup id with
    | none => .ok (s.send [.ack id ack (.error (unknownDownload id))])
    | some job =>
      match job.state with
      | .queued =>
        let (job, out) := job.pause
        let s := { s with ready := s.ready.filter (· ≠ id), jobs := s.jobs.insert id job }
        .ok (s.send (out ++ [.ack id ack (.ok ())]))
      | .retrying _ =>
        let (job, out) := job.pause
        let s := { s with jobs := s.jobs.insert id job }
        .ok (s.send (out ++ [.ack id ack (.ok ())]))
      | .running stop =>
        let job := { job with state := .pausing [ack] }
        let s := { s with stopped := insert stop s.stopped, jobs := s.jobs.insert id job }
        .ok (s.emit id .pauseStarted)
      | .pausing waiters =>
        .ok { s with jobs := s.jobs.insert id { job with state := .pausing (waiters ++ [ack]) } }
      | .paused => .ok (s.send [.ack id ack (.ok ())])
      | .cancelling =>
        .ok (s.send [.ack id ack (.error (.invalidRequest "download cannot be paused in its current state"))])
  | .resume ack =>
    match s.jobs.lookup id with
    | none => .ok (s.send [.ack id ack (.error (unknownDownload id))])
    | some job =>
      match job.state with
      | .paused =>
        let s := { s with jobs := s.jobs.insert id { job with state := .queued }, ready := s.ready ++ [id] }
        .ok ((s.emit id .queued).send [.ack id ack (.ok ())])
      | .queued | .running _ | .retrying _ => .ok (s.send [.ack id ack (.ok ())])
      | .pausing _ | .cancelling =>
        .ok (s.send [.ack id ack (.error (.invalidRequest "download cannot be resumed in its current state"))])
  | .cancel =>
    match s.jobs.lookup id with
    | none => .ok s
    | some job =>
      match job.state with
      | .running stop =>
        let job := { job with state := .cancelling }
        let s := { s with stopped := insert stop s.stopped, jobs := s.jobs.insert id job }
        .ok (s.emit id .cancellationStarted)
      | .pausing waiters =>
        let s := s.send (waiters.map fun waiter => Output.ack id waiter (.error .cancelled))
        let s := { s with jobs := s.jobs.insert id { job with state := .cancelling } }
        .ok (s.emit id .cancellationStarted)
      | .cancelling => .ok s
      | .queued | .paused | .retrying _ =>
        let s := { s with ready := s.ready.filter (· ≠ id) }
        match s.jobs.lookup id with
        | none => .error .unwrap
        | some job => .ok ({ s with jobs := s.jobs.erase id }.cancelJob discarded job)
  | .worker result =>
    match s.jobs.lookup id with
    | none => .ok s
    | some job =>
      let s := { s with jobs := s.jobs.erase id }
      match job.state, result with
      | _, .ok (.finished result) => .ok (s.send (job.finalize (.ok result)))
      | .cancelling, _ => .ok (s.cancelJob discarded job)
      | .pausing _, .ok .stopped =>
        let (job, out) := job.pause
        .ok { s.send out with jobs := s.jobs.insert id job }
      | .pausing _, .error error =>
        if error.isRetryable then
          if job.request.config.retries ≤ job.attempt then .ok (s.send (job.finalize (.error error)))
          else
            let (job, out) := { job with attempt := job.attempt + 1 }.pause
            .ok { s.send out with jobs := s.jobs.insert id job }
        else .ok (s.send (job.finalize (.error error)))
      | .running _, .ok .stopped => .ok (s.cancelJob discarded job)
      | _, .error error =>
        if error.isRetryable then
          if job.request.config.retries ≤ job.attempt then .ok (s.send (job.finalize (.error error)))
          else
            match nextDelay job.attempt with
            | .error panic => .error panic
            | .ok delay =>
              let (job, out) := job.retry delay
              let s := { s.send out with delayed := s.delayed ++ [(id, job.attempt)] }
              .ok { s with jobs := s.jobs.insert id job }
        else .ok (s.send (job.finalize (.error error)))
      | _, _ => .ok (s.send (job.finalize (.error (.unknown "invalid worker state transition"))))

/-- Cancel the jobs one after the other: the loop of `CancelAll`. -/
def cancelEach (discarded : Uuid → Result Unit) (s : Scheduler) : List Uuid → Except Panic Scheduler
  | [] => .ok s
  | id :: ids =>
    match transitionJob nextDelay (discarded id) s id .cancel with
    | .error panic => .error panic
    | .ok s => cancelEach discarded s ids

/-- `Scheduler::handle_cmd`. `order` is the order in which `CancelAll` visits the keys. -/
def handleCmd (discarded : Uuid → Result Unit) (order : List Uuid) (s : Scheduler) (cmd : SchedulerCmd) :
    Except Panic Scheduler :=
  match cmd with
  | .enqueue id request progressTx resultTx =>
    .ok (s.schedule { id, request, progressTx, attempt := 0, result := some resultTx, state := .queued })
  | .pause id ack => transitionJob nextDelay (discarded id) s id (.pause ack)
  | .resume id ack => transitionJob nextDelay (discarded id) s id (.resume ack)
  | .cancel id => transitionJob nextDelay (discarded id) s id .cancel
  | .cancelAll =>
    match cancelEach nextDelay discarded s order with
    | .error panic => .error panic
    | .ok s => .ok { s with ready := [], delayed := [] }
  | .setMaxConcurrent maxConcurrent => .ok { s with maxConcurrent := maxConcurrent }

end Scheduler

end DownloadManager
