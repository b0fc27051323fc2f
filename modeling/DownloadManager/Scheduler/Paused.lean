import DownloadManager.Scheduler.Invariant

/-!
# A pause lasts

A paused job may still be referred to from outside its record: a timer that was
pending when it was paused stays pending. `Sees.resting` goes through what a step
can do to its view and finds that none of it changes the job, short of the commands
that are meant to (`Action.lifts`).
-/

namespace DownloadManager

variable {nextDelay : UInt32 → Except Panic Duration} {t t' : Thread} {id : Uuid} {job : Job}

/-- What ends a pause: `Resume` or `Cancel` of the job, and `CancelAll`. -/
def Action.lifts (id : Uuid) : Action → Bool
  | .command (.resume i _) _ _ | .command (.cancel i) _ _ => i = id
  | .command .cancelAll _ _ | .close _ _ => true
  | _ => false

/-- A job that rests: this is its record, nothing refers to it that could start it, and these
are its events. -/
structure Thread.Resting (t : Thread) (id : Uuid) (job : Job) (kinds : List EventKind) : Prop where
  /-- Its record. -/
  job_eq : t.sched.jobs.lookup id = some job
  /-- It is not in `ready`. -/
  not_ready : id ∉ t.sched.ready
  /-- It has no worker. -/
  no_worker : ∀ w ∈ t.sched.workers, w.id ≠ id
  /-- The events emitted for it. -/
  kinds_eq : (t.view id).kinds = kinds

/-- A paused job rests. -/
theorem Inv.resting (hinv : Inv t.sched.cancelRoot id (t.view id)) (hjob : t.sched.jobs.lookup id = some job)
    (hs : job.state = .paused) : t.Resting id job (t.view id).kinds := by
  have hp := ((inv_some (v := t.view id) hjob).mp hinv).place
  simp only [Place, hs] at hp
  refine ⟨hjob, List.count_eq_zero.mp hp.2, fun w hw hid => ?_, rfl⟩
  have hmem : w.stop ∈ tokensOf id t.sched.workers := hid ▸ mem_tokensOf hw
  have hnil : tokensOf id t.sched.workers = [] := hp.1
  simp [hnil] at hmem

/-- A timer that fires, and another `Pause`, find the job paused and leave it so. -/
theorem Arm.keeps_paused {discarded : Result Unit} {token : Token} {event : JobEvent} {e : Effect}
    (h : Arm nextDelay discarded token id (some job) event e) (hs : job.state = .paused)
    (hevent : event ≠ .cancel) (hresume : ∀ ack, event ≠ .resume ack) (hworker : ∀ result, event ≠ .worker result) :
    e.job = some job ∧ e.out.filterMap View.kind? = [] := by
  cases h with
  | notQueued | stale | pausePaused => simp [View.kind?]
  | cancelIdle | cancelRunning | cancelPausing | cancelAgain => exact absurd rfl hevent
  | resumePaused | resumeLive | resumeBusy => exact absurd rfl (hresume _)
  | finished | cancelled | paused | pausedRetry | stopped | retry | failed | invalid => exact absurd rfl (hworker _)
  | start h | requeue h | pauseQueued h | pauseRetrying h | pauseRunning h | pausePausing h | pauseCancelling h =>
    rw [hs] at h
    cases h

/-- What a step can do to a paused job changes neither its record nor its events. -/
theorem Thread.Sees.paused {a : Action} (h : t.Sees nextDelay id a t')
    (hinv : Inv t.sched.cancelRoot id (t.view id)) (hjob : t.sched.jobs.lookup id = some job)
    (hs : job.state = .paused) (ha : a.lifts id = false) :
    t'.sched.jobs.lookup id = some job ∧ (t'.view id).kinds = (t.view id).kinds := by
  have hlive : Live t.sched.cancelRoot id (t.view id) job := (inv_some (v := t.view id) hjob).mp hinv
  have hp := hlive.place
  simp only [Place, hs] at hp
  cases h with
  | same _ _ hview => exact ⟨(congrArg View.job hview).trans hjob, congrArg View.kinds hview⟩
  | panic => exact ⟨hjob, rfl⟩
  | enqueue hnew =>
    obtain ⟨tx, ⟨progressTx, hmem⟩, -⟩ := hlive.asked
    exact absurd (hnew _ hmem) (by simp [SchedulerCmd.enqueues])
  | drop _ hq => omega
  | cancelAll hall => cases hall <;> cases ha
  | @arm _ event _ _ v e _ hands ht harm hview =>
    rw [ht.job_eq, show (t.view id).job = some job from hjob] at harm
    have hkeep : e.job = some job ∧ e.out.filterMap View.kind? = [] := by
      cases hands with
      | resume | cancel => simp [Action.lifts] at ha
      | worker =>
        -- a worker's result is none of a paused job, which has no worker
        cases ht with
        | worker hperm => simp [hp.1] at hperm
      | pause | retry | dispatch => exact harm.keeps_paused hs (by simp) (by simp) (by simp)
    have hkinds : v.kinds = (t.view id).kinds := by cases ht <;> rfl
    exact ⟨(congrArg View.job hview).trans hkeep.1, by rw [hview, View.kinds_act, hkeep.2, List.append_nil, hkinds]⟩

/-- **A pause lasts.** From a state in which a job is paused, however it came to be, no run without a
`Resume` or `Cancel` of it and without `CancelAll` changes its record, puts it in `ready`, starts a worker for it
or emits an event for it. -/
theorem pause_lasts (ht : Thread.Reachable nextDelay t) (hjob : t.sched.jobs.lookup id = some job)
    (hs : job.state = .paused) {as : List Action} (has : ∀ a ∈ as, a.lifts id = false)
    (h : Machine.exec (Thread.step nextDelay) t as = some t') : t'.Resting id job (t.view id).kinds := by
  induction as generalizing t with
  | nil =>
    cases h
    exact (inv_of_reachable ht id).resting hjob hs
  | cons a as ih =>
    obtain ⟨u, hu, h⟩ := (Machine.exec_cons_eq_some _).mp h
    have hsees := (Thread.next_of_step hu).sees (inv_of_reachable ht) id
    obtain ⟨hjob', hkinds⟩ := hsees.paused (inv_of_reachable ht id) hjob hs (has a List.mem_cons_self)
    rw [← hkinds]
    exact ih (ht.step hu) hjob' (fun b hb => has b (List.mem_cons_of_mem a hb)) h

/-- A download fails and is paused while it waits for its retry. -/
def Thread.pausedInRetry : List Action :=
  [.command (.enqueue 0 sampleRequest 1 2) (fun _ => .ok ()) [], .tryDispatch, .tryDispatch,
    .worker ⟨0, sampleRequest, 1, 0⟩ (.error (.network "reset")) (.ok ()), .tryDispatch,
    .command (.pause 0 3) (fun _ => .ok ()) [], .tryDispatch]

/-- When the timer set before the pause fires. -/
theorem pause_lasts_pausedInRetry :
    ∃ t t' job, Machine.exec (Thread.step backoffStrategy.nextDelay) (.new 1) Thread.pausedInRetry = some t ∧
      Machine.exec (Thread.step backoffStrategy.nextDelay) t [.retry 0 1, .tryDispatch] = some t' ∧
      t'.Resting 0 job (t.view 0).kinds := by
  obtain ⟨t, ht, ⟨hstate, hrun⟩, hr⟩ := Thread.exists_run backoffStrategy.nextDelay 1 Thread.pausedInRetry
    (fun t => (t.sched.jobs.lookup 0).map Job.state = some .paused ∧
      (Machine.exec (Thread.step backoffStrategy.nextDelay) t [.retry 0 1, .tryDispatch]).isSome) (by decide)
  obtain ⟨job, hjob, hs⟩ := Option.map_eq_some_iff.mp hstate
  obtain ⟨t', ht'⟩ := Option.isSome_iff_exists.mp hrun
  exact ⟨t, t', job, ht, ht', pause_lasts hr hjob hs (by decide) ht'⟩

end DownloadManager
