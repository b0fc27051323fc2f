import DownloadManager.Scheduler.Scheduler

/-!
# What one event does to one job

`transitionJob` reads one record of the job map and updates up to five
collections. This module says once what it can do. An `Effect` is a change that
concerns a single job: the record it leaves, what happens to its entry in
`ready`, a timer or a worker it adds, a token it cancels, and what it sends.
`Arm` lists the arms of `transition_job` by the record found, the event and the
effect; `transitionJob_arm` says that a transition is one of the arms, applied.
Everything proved of the scheduler afterwards goes by cases on `Arm` and by the
frame of `Effect.apply`, and never unfolds `transitionJob` again.
-/

namespace DownloadManager

/-- What becomes of a job's entries in `ready`. -/
inductive QueueOp where
  /-- They stay. -/
  | keep
  /-- One more, at the end. -/
  | push
  /-- None is left. -/
  | remove
  deriving DecidableEq, Repr

/-- Update the queue. -/
def QueueOp.apply (op : QueueOp) (id : Uuid) (ready : List Uuid) : List Uuid :=
  match op with
  | keep => ready
  | push => ready ++ [id]
  | remove => ready.filter (· ≠ id)

/-- A change that concerns one job. -/
structure Effect where
  /-- The record it leaves. -/
  job : Option Job
  /-- What becomes of its entries in `ready`. -/
  queue : QueueOp := .keep
  /-- A timer for it. -/
  timer : Option UInt32 := none
  /-- A worker for it, with the token handed out for it. -/
  spawn : Option Worker := none
  /-- A token it cancels. -/
  stop : Option Token := none
  /-- What it sends. -/
  out : List Output := []

namespace Jobs

/-- Leave a record, or none, under an identifier. -/
def put (jobs : Jobs) (id : Uuid) : Option Job → Jobs
  | some job => jobs.insert id job
  | none => jobs.erase id

@[simp] theorem lookup_put_self (jobs : Jobs) (id : Uuid) (job : Option Job) :
    (put jobs id job).lookup id = job := by
  cases job <;> simp [put]

theorem lookup_put_of_ne (jobs : Jobs) {id other : Uuid} (job : Option Job) (h : other ≠ id) :
    (put jobs id job).lookup other = jobs.lookup other := by
  cases job with
  | none => exact Finmap.lookup_erase_ne h
  | some job => exact Finmap.lookup_insert_of_ne _ h

/-- Leaving the record that is there changes nothing. -/
theorem put_lookup (jobs : Jobs) (id : Uuid) : put jobs id (jobs.lookup id) = jobs := by
  apply Finmap.ext_lookup
  intro other
  by_cases h : other = id
  · subst h; simp
  · exact lookup_put_of_ne _ _ h

/-- Taking the record out first makes no difference. -/
theorem put_erase (jobs : Jobs) (id : Uuid) (job : Option Job) :
    put (jobs.erase id) id job = put jobs id job := by
  apply Finmap.ext_lookup
  intro other
  by_cases h : other = id
  · subst h; simp
  · rw [lookup_put_of_ne _ _ h, lookup_put_of_ne _ _ h, Finmap.lookup_erase_ne h]

end Jobs

/-- Make the change. -/
def Effect.apply (e : Effect) (s : Scheduler) (id : Uuid) : Scheduler where
  cancelRoot := s.cancelRoot
  tokens := s.tokens + e.spawn.toList.length
  stopped := e.stop.elim s.stopped fun token => insert token s.stopped
  maxConcurrent := s.maxConcurrent
  jobs := Jobs.put s.jobs id e.job
  ready := e.queue.apply id s.ready
  delayed := s.delayed ++ e.timer.toList.map fun attempt => (id, attempt)
  workers := s.workers ++ e.spawn.toList
  log := s.log ++ e.out

/-- The result of a job that `cancel_job` ends. -/
def cancelResult : Result Unit → Result DownloadResult
  | .ok () => .error .cancelled
  | .error error => .error error

/-- A job with no worker that is not over: `Queued`, `Paused` or `Retrying`. -/
def JobState.idle : JobState → Bool
  | .queued | .paused | .retrying _ => true
  | _ => false

/-- A job with a worker: `Running`, `Pausing` or `Cancelling`. -/
def JobState.active : JobState → Bool
  | .running _ | .pausing _ | .cancelling => true
  | _ => false

/-- A state the arms for `Cancelling` and `Pausing` do not take. -/
def JobState.plain : JobState → Bool
  | .pausing _ | .cancelling => false
  | _ => true

theorem JobState.plain_of {state : JobState} (hc : state = .cancelling → False)
    (hp : ∀ waiters, state = .pausing waiters → False) : state.plain := by
  cases state with
  | pausing waiters => exact (hp waiters rfl).elim
  | cancelling => exact (hc rfl).elim
  | queued | running | retrying | paused => rfl

section

variable (nextDelay : UInt32 → Except Panic Duration) (discarded : Result Unit) (token : Token) (id : Uuid)

/-- The arms of `transition_job`, for the event, the record found under `id` and the
effect. `token` is the next child token. -/
inductive Arm : Option Job → JobEvent → Effect → Prop
  /-- No such job, and nobody to tell. -/
  | unknown {event : JobEvent} (h : ∀ ack, event ≠ .pause ack ∧ event ≠ .resume ack) :
      Arm none event { job := none }
  /-- No such job, and a caller to tell. -/
  | unknownAck {event : JobEvent} {ack : Sender} (h : event = .pause ack ∨ event = .resume ack) :
      Arm none event { job := none, out := [.ack id ack (.error (Scheduler.unknownDownload id))] }
  /-- `Dispatch` of a job that is not queued. -/
  | notQueued {job : Job} (h : job.state ≠ .queued) : Arm (some job) .dispatch { job := some job }
  /-- `Dispatch`. -/
  | start {job : Job} (h : job.state = .queued) :
      Arm (some job) .dispatch
        { job := some { job with state := .running token }
          spawn := some ⟨id, job.request, job.progressTx, token⟩
          out := [.event id .started] }
  /-- `RetryElapsed` for a job not waiting for that timer. -/
  | stale {job : Job} {attempt : UInt32} (h : job.state ≠ .retrying attempt) :
      Arm (some job) (.retryElapsed attempt) { job := some job }
  /-- `RetryElapsed`. -/
  | requeue {job : Job} {attempt : UInt32} (h : job.state = .retrying attempt) :
      Arm (some job) (.retryElapsed attempt)
        { job := some { job with state := .queued }, queue := .push, out := [.event id .queued] }
  /-- `Pause` of a queued job. -/
  | pauseQueued {job : Job} {ack : Sender} (h : job.state = .queued) :
      Arm (some job) (.pause ack)
        { job := some { job with state := .paused }, queue := .remove
          out := [.event job.id .paused, .ack id ack (.ok ())] }
  /-- `Pause` of a retrying job; its timer stays. -/
  | pauseRetrying {job : Job} {ack : Sender} {attempt : UInt32} (h : job.state = .retrying attempt) :
      Arm (some job) (.pause ack)
        { job := some { job with state := .paused }
          out := [.event job.id .paused, .ack id ack (.ok ())] }
  /-- `Pause` of a running job. -/
  | pauseRunning {job : Job} {ack : Sender} {stop : Token} (h : job.state = .running stop) :
      Arm (some job) (.pause ack)
        { job := some { job with state := .pausing [ack] }, stop := some stop
          out := [.event id .pauseStarted] }
  /-- `Pause` of a pausing job. -/
  | pausePausing {job : Job} {ack : Sender} {waiters : List Sender} (h : job.state = .pausing waiters) :
      Arm (some job) (.pause ack) { job := some { job with state := .pausing (waiters ++ [ack]) } }
  /-- `Pause` of a paused job. -/
  | pausePaused {job : Job} {ack : Sender} (h : job.state = .paused) :
      Arm (some job) (.pause ack) { job := some job, out := [.ack id ack (.ok ())] }
  /-- `Pause` of a job being cancelled. -/
  | pauseCancelling {job : Job} {ack : Sender} (h : job.state = .cancelling) :
      Arm (some job) (.pause ack)
        { job := some job
          out := [.ack id ack (.error (.invalidRequest "download cannot be paused in its current state"))] }
  /-- `Resume` of a paused job. -/
  | resumePaused {job : Job} {ack : Sender} (h : job.state = .paused) :
      Arm (some job) (.resume ack)
        { job := some { job with state := .queued }, queue := .push
          out := [.event id .queued, .ack id ack (.ok ())] }
  /-- `Resume` of a job that is not paused or being paused or cancelled. -/
  | resumeLive {job : Job} {ack : Sender} (h : job.state.plain) (hp : job.state ≠ .paused) :
      Arm (some job) (.resume ack) { job := some job, out := [.ack id ack (.ok ())] }
  /-- `Resume` of a job being paused or cancelled. -/
  | resumeBusy {job : Job} {ack : Sender} (h : job.state.plain = false) :
      Arm (some job) (.resume ack)
        { job := some job
          out := [.ack id ack (.error (.invalidRequest "download cannot be resumed in its current state"))] }
  /-- `Cancel` of a job without a worker. -/
  | cancelIdle {job : Job} (h : job.state.idle) :
      Arm (some job) .cancel { job := none, queue := .remove, out := job.finalize (cancelResult discarded) }
  /-- `Cancel` of a running job. -/
  | cancelRunning {job : Job} {stop : Token} (h : job.state = .running stop) :
      Arm (some job) .cancel
        { job := some { job with state := .cancelling }, stop := some stop
          out := [.event id .cancellationStarted] }
  /-- `Cancel` of a pausing job: its worker is being stopped already. -/
  | cancelPausing {job : Job} {waiters : List Sender} (h : job.state = .pausing waiters) :
      Arm (some job) .cancel
        { job := some { job with state := .cancelling }
          out := (waiters.map fun waiter => .ack id waiter (.error .cancelled)) ++
            [.event id .cancellationStarted] }
  /-- `Cancel` of a job being cancelled. -/
  | cancelAgain {job : Job} (h : job.state = .cancelling) : Arm (some job) .cancel { job := some job }
  /-- The worker finished, whatever the state. -/
  | finished {job : Job} {result : DownloadResult} :
      Arm (some job) (.worker (.ok (.finished result))) { job := none, out := job.finalize (.ok result) }
  /-- The worker of a job being cancelled ended otherwise. -/
  | cancelled {job : Job} {result : Result WorkerResult} (h : job.state = .cancelling)
      (hr : ∀ r, result ≠ .ok (.finished r)) :
      Arm (some job) (.worker result) { job := none, out := job.finalize (cancelResult discarded) }
  /-- The worker of a pausing job stopped. -/
  | paused {job : Job} {waiters : List Sender} (h : job.state = .pausing waiters) :
      Arm (some job) (.worker (.ok .stopped))
        { job := some { job with state := .paused }
          out := job.answer (.ok ()) ++ [.event job.id .paused] }
  /-- The worker of a pausing job failed, and the job has retries left. -/
  | pausedRetry {job : Job} {waiters : List Sender} {error : Error} (h : job.state = .pausing waiters)
      (he : error.isRetryable) (ha : job.attempt < job.request.config.retries) :
      Arm (some job) (.worker (.error error))
        { job := some { job with state := .paused, attempt := job.attempt + 1 }
          out := job.answer (.ok ()) ++ [.event job.id .paused] }
  /-- The worker of a running job was stopped, so by the root token. -/
  | stopped {job : Job} {stop : Token} (h : job.state = .running stop) :
      Arm (some job) (.worker (.ok .stopped)) { job := none, out := job.finalize (cancelResult discarded) }
  /-- The worker failed, and the job has retries left. -/
  | retry {job : Job} {error : Error} {delay : Duration} (h : job.state.plain) (he : error.isRetryable)
      (ha : job.attempt < job.request.config.retries) (hd : nextDelay job.attempt = .ok delay) :
      Arm (some job) (.worker (.error error))
        { job := some { job with state := .retrying (job.attempt + 1), attempt := job.attempt + 1 }
          timer := some (job.attempt + 1)
          out := [.event job.id (.retryScheduled (job.attempt + 1) delay.asMillis)] }
  /-- The worker failed for good. -/
  | failed {job : Job} {error : Error} (h : job.state ≠ .cancelling)
      (he : error.isRetryable → job.request.config.retries ≤ job.attempt) :
      Arm (some job) (.worker (.error error)) { job := none, out := job.finalize (.error error) }
  /-- The last arm: a worker stopped that the job does not have. -/
  | invalid {job : Job} (h : job.state.idle) :
      Arm (some job) (.worker (.ok .stopped))
        { job := none, out := job.finalize (.error (.unknown "invalid worker state transition")) }

end

/-! ### A transition is an arm -/

namespace Scheduler

/-- An arm that only sends. -/
theorem send_eq_apply (s : Scheduler) (id : Uuid) (out : List Output) :
    s.send out = ({ job := s.jobs.lookup id, out := out } : Effect).apply s id := by
  simp [send, Effect.apply, QueueOp.apply, Jobs.put_lookup]

/-- An arm that does nothing. -/
theorem eq_apply (s : Scheduler) (id : Uuid) :
    s = ({ job := s.jobs.lookup id } : Effect).apply s id := by
  simp [Effect.apply, QueueOp.apply, Jobs.put_lookup]

/-- An arm that ends the job. -/
theorem erase_send_eq_apply (s : Scheduler) (id : Uuid) (out : List Output) :
    ({ s with jobs := s.jobs.erase id }.send out) = ({ job := none, out := out } : Effect).apply s id := by
  simp [send, Effect.apply, QueueOp.apply, Jobs.put]

theorem cancelJob_eq_send (discarded : Result Unit) (s : Scheduler) (job : Job) :
    s.cancelJob discarded job = s.send (job.finalize (cancelResult discarded)) := by
  cases discarded <;> rfl

theorem insert_erase (jobs : Jobs) (id : Uuid) (job : Job) :
    (jobs.erase id).insert id job = jobs.insert id job := Jobs.put_erase jobs id (some job)

variable {nextDelay : UInt32 → Except Panic Duration} {discarded : Result Unit} {s s' : Scheduler} {id : Uuid}

/-- **A transition is one of the arms**, applied to the scheduler. -/
theorem transitionJob_arm {event : JobEvent} (h : transitionJob nextDelay discarded s id event = .ok s') :
    ∃ e, Arm nextDelay discarded s.tokens id (s.jobs.lookup id) event e ∧ s' = e.apply s id := by
  cases hj : s.jobs.lookup id with
  | none =>
    cases event with
    | pause ack =>
      simp only [transitionJob, hj, Except.ok.injEq] at h
      exact ⟨_, .unknownAck (.inl rfl), by rw [← h, send_eq_apply s id, hj]⟩
    | resume ack =>
      simp only [transitionJob, hj, Except.ok.injEq] at h
      exact ⟨_, .unknownAck (.inr rfl), by rw [← h, send_eq_apply s id, hj]⟩
    | dispatch | retryElapsed | cancel | worker =>
      simp only [transitionJob, hj, Except.ok.injEq] at h
      exact ⟨_, .unknown (by simp), by rw [← h, ← hj]; exact eq_apply s id⟩
  | some job =>
    have hkeep : s = ({ job := some job } : Effect).apply s id := by rw [← hj]; exact eq_apply s id
    have hsend (out : List Output) : s.send out = ({ job := some job, out := out } : Effect).apply s id := by
      rw [← hj]; exact send_eq_apply s id out
    cases event with
    | dispatch =>
      simp only [transitionJob, hj] at h
      split at h
      · rename_i hq
        cases h
        exact ⟨_, .start hq, by simp [emit, send, Effect.apply, QueueOp.apply, Jobs.put]⟩
      · rename_i hq
        cases h
        exact ⟨_, .notQueued hq, hkeep⟩
    | retryElapsed attempt =>
      simp only [transitionJob, hj] at h
      split at h
      · rename_i current hq
        split_ifs at h with hc
        · subst hc
          cases h
          exact ⟨_, .requeue hq, by simp [emit, send, Effect.apply, QueueOp.apply, Jobs.put]⟩
        · cases h
          exact ⟨_, .stale (by rw [hq]; simpa using hc), hkeep⟩
      · rename_i hq
        cases h
        exact ⟨_, .stale (hq attempt), hkeep⟩
    | pause ack =>
      simp only [transitionJob, hj] at h
      split at h <;> cases h
      · rename_i hq
        exact ⟨_, .pauseQueued hq, by
          simp [send, Effect.apply, QueueOp.apply, Jobs.put, Job.pause_eq, Job.answer, Job.waiters, hq]⟩
      · rename_i hq
        exact ⟨_, .pauseRetrying hq, by
          simp [send, Effect.apply, QueueOp.apply, Jobs.put, Job.pause_eq, Job.answer, Job.waiters, hq]⟩
      · rename_i hq
        exact ⟨_, .pauseRunning hq, by simp [emit, send, Effect.apply, QueueOp.apply, Jobs.put]⟩
      · rename_i hq
        exact ⟨_, .pausePausing hq, by simp [Effect.apply, QueueOp.apply, Jobs.put]⟩
      · rename_i hq
        exact ⟨_, .pausePaused hq, hsend _⟩
      · rename_i hq
        exact ⟨_, .pauseCancelling hq, hsend _⟩
    | resume ack =>
      simp only [transitionJob, hj] at h
      split at h <;> cases h
      · rename_i hq
        exact ⟨_, .resumePaused hq, by simp [emit, send, Effect.apply, QueueOp.apply, Jobs.put]⟩
      all_goals rename_i hq
      · exact ⟨_, .resumeLive (by rw [hq]; rfl) (by simp [hq]), hsend _⟩
      · exact ⟨_, .resumeLive (by rw [hq]; rfl) (by simp [hq]), hsend _⟩
      · exact ⟨_, .resumeLive (by rw [hq]; rfl) (by simp [hq]), hsend _⟩
      · exact ⟨_, .resumeBusy (by rw [hq]; rfl), hsend _⟩
      · exact ⟨_, .resumeBusy (by rw [hq]; rfl), hsend _⟩
    | cancel =>
      have hidle : job.state.idle →
          ({ s with ready := s.ready.filter (· ≠ id), jobs := s.jobs.erase id } : Scheduler).cancelJob discarded job =
          ({ job := none, queue := .remove, out := job.finalize (cancelResult discarded) } : Effect).apply s id := by
        intro _
        rw [cancelJob_eq_send]
        simp [send, Effect.apply, QueueOp.apply, Jobs.put]
      simp only [transitionJob, hj] at h
      split at h <;> cases h
      all_goals rename_i hq
      · exact ⟨_, .cancelRunning hq, by simp [emit, send, Effect.apply, QueueOp.apply, Jobs.put]⟩
      · exact ⟨_, .cancelPausing hq, by simp [emit, send, Effect.apply, QueueOp.apply, Jobs.put]⟩
      · exact ⟨_, .cancelAgain hq, hkeep⟩
      · exact ⟨_, .cancelIdle (by rw [hq]; rfl), hidle (by rw [hq]; rfl)⟩
      · exact ⟨_, .cancelIdle (by rw [hq]; rfl), hidle (by rw [hq]; rfl)⟩
      · exact ⟨_, .cancelIdle (by rw [hq]; rfl), hidle (by rw [hq]; rfl)⟩
    | worker result =>
      have hend (out : List Output) : ({ s with jobs := s.jobs.erase id }.send out) =
          ({ job := none, out := out } : Effect).apply s id := erase_send_eq_apply s id out
      simp only [transitionJob, hj] at h
      split at h
      · cases h; exact ⟨_, .finished, hend _⟩
      · rename_i hq hr
        cases h
        exact ⟨_, .cancelled hq hr, by rw [cancelJob_eq_send]; exact hend _⟩
      · rename_i hq
        cases h
        exact ⟨_, .paused hq, by simp [send, Effect.apply, QueueOp.apply, Job.pause_eq, insert_erase, Jobs.put]⟩
      · rename_i hq
        split_ifs at h with he ha <;> cases h
        · exact ⟨_, .failed (by simp [hq]) fun _ => ha, hend _⟩
        · refine ⟨_, .pausedRetry hq he (by simpa using ha), ?_⟩
          simp [send, Effect.apply, QueueOp.apply, Job.pause_eq, insert_erase, Jobs.put, Job.answer, Job.waiters]
        · exact ⟨_, .failed (by simp [hq]) fun h => absurd h he, hend _⟩
      · rename_i hq
        cases h
        exact ⟨_, .stopped hq, by rw [cancelJob_eq_send]; exact hend _⟩
      · rename_i hc hp
        split_ifs at h with he ha
        · cases h
          exact ⟨_, .failed hc fun _ => ha, hend _⟩
        · split at h <;> cases h
          rename_i delay hd
          exact ⟨_, .retry (JobState.plain_of hc hp) he (by simpa using ha) hd, by
            simp [send, Effect.apply, QueueOp.apply, Job.retry, insert_erase, Jobs.put]⟩
        · cases h
          exact ⟨_, .failed hc fun h => absurd h he, hend _⟩
      · rename_i result _ _ hf he hc hp _ hr
        cases h
        cases result with
        | error error => exact (he error rfl).elim
        | ok result =>
          cases result with
          | finished result => exact (hf result rfl).elim
          | stopped =>
            refine ⟨_, .invalid ?_, hend _⟩
            unfold JobState.idle
            cases hq : job.state with
            | queued | retrying | paused => rfl
            | running stop => exact (hr stop hq rfl).elim
            | pausing waiters => exact (hp waiters hq rfl).elim
            | cancelling => exact (hc hq).elim

/-- **The only panic of a transition is the backoff's**: the `unwrap` in the `Cancel`
arm finds the job it has just looked at. -/
theorem transitionJob_panic {event : JobEvent} {panic : Panic}
    (h : transitionJob nextDelay discarded s id event = .error panic) :
    ∃ job error, s.jobs.lookup id = some job ∧ event = .worker (.error error) ∧ job.state.plain ∧
      error.isRetryable ∧ nextDelay job.attempt = .error panic := by
  cases hj : s.jobs.lookup id with
  | none => cases event <;> simp [transitionJob, hj] at h
  | some job =>
    cases event with
    | dispatch | pause | resume | cancel => simp only [transitionJob, hj] at h; split at h <;> cases h
    | retryElapsed attempt =>
      simp only [transitionJob, hj] at h
      split at h
      · split_ifs at h
      · cases h
    | worker result =>
      simp only [transitionJob, hj] at h
      split at h <;> try cases h
      · split_ifs at h
      · rename_i hc hp
        split_ifs at h with he ha
        split at h <;> cases h
        rename_i hd
        exact ⟨job, _, rfl, rfl, JobState.plain_of hc hp, he, hd⟩

end Scheduler

end DownloadManager
