import DownloadManager.Scheduler.Budget

/-!
# How many attempts there are

A download is attempted once for itself, once for each failure that is retried, and once for
each time it is resumed. An attempt is announced by `Started`; between two attempts the download
has waited for a timer, which takes one retry of its budget, or for its client.
-/

namespace DownloadManager

/-- An attempt begins. -/
def EventKind.isStarted : EventKind → Bool
  | .started => true
  | _ => false

/-- A client asks for a download to go on. -/
def SchedulerCmd.isResume : SchedulerCmd → Bool
  | .resume _ _ => true
  | _ => false

/-- The attempts so far. -/
def View.attempts (v : View) : ℕ := v.kinds.countP EventKind.isStarted

/-- How often the download has been asked to go on. -/
def View.resumes (v : View) : ℕ := v.cmds.countP SchedulerCmd.isResume

/-- The attempt a job waits for. -/
def JobState.due : JobState → ℕ
  | .queued | .retrying _ => 1
  | _ => 0

/-- The attempts begun by what is sent. -/
def startsIn (out : List Output) : ℕ := (out.filterMap View.kind?).countP EventKind.isStarted

/-- `Resume`. -/
def JobEvent.resumes : JobEvent → ℕ
  | .resume _ => 1
  | _ => 0

variable {nextDelay : UInt32 → Except Panic Duration} {id : Uuid}

@[simp] theorem startsIn_nil : startsIn [] = 0 := rfl

@[simp] theorem startsIn_append (out out' : List Output) : startsIn (out ++ out') = startsIn out + startsIn out' := by
  simp [startsIn]

@[simp] theorem startsIn_event (i : Uuid) (kind : EventKind) (out : List Output) :
    startsIn (.event i kind :: out) = (if kind.isStarted then 1 else 0) + startsIn out := by
  simp only [startsIn, List.filterMap_cons, View.kind?, List.countP_cons]
  exact Nat.add_comm _ _

@[simp] theorem startsIn_ack (i : Uuid) (tx : Sender) (reply : Result Unit) (out : List Output) :
    startsIn (.ack i tx reply :: out) = startsIn out := rfl

@[simp] theorem startsIn_answer (job : Job) (reply : Result Unit) : startsIn (job.answer reply) = 0 := by
  simp [startsIn]

theorem startsIn_finalize (job : Job) (result : Result DownloadResult) : startsIn (job.finalize result) = 0 := by
  have hkind : (kindOf result).isStarted = false := by
    rcases result with error | result
    · cases error <;> rfl
    · rfl
  simp [startsIn, hkind]

theorem View.attempts_act (e : Effect) (v : View) : (e.act v).attempts = v.attempts + startsIn e.out := by
  rw [attempts, View.kinds_act, List.countP_append, attempts, startsIn]

theorem Takes.resumes_eq {event : JobEvent} {v v' : View} (h : Takes id event v v') :
    v'.resumes = v.resumes + event.resumes := by
  cases h <;> simp [View.resumes, JobEvent.resumes, SchedulerCmd.isResume, List.countP_append, List.countP_cons]

theorem Takes.attempts_eq {event : JobEvent} {v v' : View} (h : Takes id event v v') : v'.attempts = v.attempts :=
  congrArg (List.countP EventKind.isStarted) h.kinds_eq

/-- An arm that ends a job, or finds none, begins no attempt. -/
theorem Arm.startsIn_eq_zero {discarded : Result Unit} {token : Token} {job? : Option Job} {event : JobEvent}
    {e : Effect} (h : Arm nextDelay discarded token id job? event e) (hjob : e.job = none) : startsIn e.out = 0 := by
  cases h with
  | cancelIdle | finished | cancelled | stopped | failed | invalid => exact startsIn_finalize _ _
  | unknown | unknownAck => rfl
  | _ => cases hjob

/-- **What an arm adds**: an attempt is one that was due, and one that is due is paid for by a retry or a `Resume`. -/
theorem Arm.attempts_le {discarded : Result Unit} {token : Token} {job new : Job} {event : JobEvent} {e : Effect}
    (h : Arm nextDelay discarded token id (some job) event e) (hnew : e.job = some new) :
    startsIn e.out + new.state.due + job.attempt.toNat ≤ job.state.due + new.attempt.toNat + event.resumes := by
  have hattempt := (h.attempt_eq hnew).1
  cases h with
  | cancelIdle | finished | cancelled | stopped | failed | invalid => cases hnew
  | pausedRetry _ he | retry _ he =>
    cases hnew
    simp only [JobEvent.isRetryable, he, if_true] at hattempt
    simp [EventKind.isStarted, JobState.due, hattempt]
    omega
  | cancelPausing =>
    cases hnew
    simp [startsIn, EventKind.isStarted, View.kind?, JobState.due, List.filterMap_map, Function.comp_def]
    omega
  | start hs | requeue hs | pauseQueued hs | pauseRetrying hs | pauseRunning hs | resumePaused hs | cancelRunning hs =>
    cases hnew
    simp [EventKind.isStarted, JobState.due, JobEvent.resumes, hs]
    try omega
  | _ =>
    cases hnew
    simp [EventKind.isStarted, JobState.due, JobEvent.resumes]
    try omega

/-- The attempts of a download are paid for. -/
structure Attempted (id : Uuid) (v : View) : Prop where
  /-- While it goes on: by itself, the retries taken, and its client. -/
  job : ∀ job ∈ v.job, v.attempts + job.state.due ≤ 1 + job.attempt.toNat + v.resumes
  /-- At any time: by itself, its budget, and its client. -/
  asked : v.attempts = 0 ∨ ∃ request tx, v.Asked id request tx ∧
    v.attempts ≤ 1 + request.config.retries.toNat + v.resumes

/-- **Every attempt is paid for.** -/
theorem attempted_viewInvariant : ViewInvariant nextDelay fun _ id v => Attempted id v where
  empty := fun _ => ⟨nofun, .inl rfl⟩
  cancelRoot := fun _ h => h
  enqueue := by
    intro root id v request progressTx resultTx hv h hnew
    have hkinds : v.kinds = [] := (hv.unborn hnew).2.2.2.kinds
    have hattempts : (v.enqueued id request progressTx resultTx).attempts = 0 := by
      have : (v.enqueued id request progressTx resultTx).kinds = v.kinds ++ [.queued] := by
        simp [View.kinds, View.enqueued, View.kind?]
      rw [View.attempts, this, hkinds]
      rfl
    refine ⟨?_, .inl hattempts⟩
    intro job hjob
    cases hjob
    rw [hattempts]
    show 0 + 1 ≤ 1 + 0 + _
    omega
  arm := by
    intro root id v v' event e discarded token hv h ht ha
    have hattempts : (e.act v').attempts = v.attempts + startsIn e.out := by rw [View.attempts_act, ht.attempts_eq]
    have hresumes : (e.act v').resumes = v.resumes + event.resumes := ht.resumes_eq
    have hinv := hv.arm ht ha
    have hjob : ∀ new ∈ (e.act v').job,
        (e.act v').attempts + new.state.due ≤ 1 + new.attempt.toNat + (e.act v').resumes := by
      intro new hnew
      rw [ht.job_eq] at ha
      cases hold : v.job with
      | none =>
        rw [hold] at ha
        cases ha <;> cases hnew
      | some old =>
        have hle := h.job old hold
        rw [hold] at ha
        have harm := ha.attempts_le hnew
        omega
    refine ⟨hjob, ?_⟩
    cases hnew : e.job with
    | some new =>
      have hlive := (inv_some (v := e.act v') hnew).mp hinv
      obtain ⟨tx, hasked, -⟩ := hlive.asked
      have hle := hjob new hnew
      have hbudget : new.attempt.toNat ≤ new.request.config.retries.toNat := hlive.attempt_le
      exact .inr ⟨new.request, tx, hasked, by omega⟩
    | none =>
      have hzero := ha.startsIn_eq_zero hnew
      rcases h.asked with hnone | ⟨request, tx, ⟨progressTx, hasked⟩, hle⟩
      · exact .inl (by omega)
      · exact .inr ⟨request, tx, ⟨progressTx, ht.cmds_subset hasked⟩, by omega⟩
  drop := fun _ h _ => ⟨h.job, h.asked⟩
  clear := fun _ h _ => ⟨h.job, h.asked⟩

variable {t t' : Thread}

/-- **How many attempts a download has**: no more than one, its retries, and the times it was asked to go on. -/
theorem Thread.attempts_le (ht : Reachable nextDelay t) {request : Request} {progressTx tx : Sender}
    (hasked : .enqueue id request progressTx tx ∈ t.handled) :
    (t.view id).attempts ≤ 1 + request.config.retries.toNat + (t.view id).resumes := by
  rcases (attempted_viewInvariant.reachable ht id).asked with hnone | ⟨request', tx', ⟨progressTx', hasked'⟩, hle⟩
  · omega
  · obtain rfl := (birth_unique ht hasked hasked').1
    exact hle

end DownloadManager
