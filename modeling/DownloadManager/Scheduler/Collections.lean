import DownloadManager.Scheduler.Invariant

/-!
# What the collections agree on

`jobs`, `ready`, `delayed` and `workers` are updated one by one, in some thirty
arms. Read off the invariant of each identifier, this module says what they agree
on between two steps: which jobs have a worker (`WorkersAgree`), which are in
`ready` (`ReadyAgrees`), and that no slot is free while a job waits
(`work_conserving`).
-/

namespace DownloadManager

/-- The pending workers are one for each job that is running, pausing or being cancelled. -/
structure Scheduler.WorkersAgree (s : Scheduler) : Prop where
  /-- No two workers are for one job. -/
  nodup : (s.workers.map Worker.id).Nodup
  /-- The jobs with a worker. -/
  mem_iff : ∀ id, id ∈ s.workers.map Worker.id ↔ ∃ job, s.jobs.lookup id = some job ∧ job.state.active

/-- `ready` holds the queued jobs, each once. -/
structure Scheduler.ReadyAgrees (s : Scheduler) : Prop where
  /-- No job is in it twice. -/
  nodup : s.ready.Nodup
  /-- The jobs in it. -/
  mem_iff : ∀ id, id ∈ s.ready ↔ ∃ job, s.jobs.lookup id = some job ∧ job.state = .queued

/-- The patterns of `transition_job` for a worker's result, but for the last one. -/
def JobState.expects : JobState → Result WorkerResult → Bool
  | _, .ok (.finished _) => true
  | .cancelling, _ => true
  | .pausing _, .ok .stopped => true
  | .running _, .ok .stopped => true
  | _, .error _ => true
  | _, _ => false

variable {nextDelay : UInt32 → Except Panic Duration} {t t' : Thread}

/-! ### Workers -/

theorem length_tokensOf (id : Uuid) (workers : List Worker) :
    (tokensOf id workers).length = (workers.map Worker.id).count id := by
  induction workers with
  | nil => rfl
  | cons w l ih =>
    rw [tokensOf_cons, List.map_cons, List.count_cons]
    by_cases h : w.id = id <;> simp [h, ih]

/-- How many workers a job has, by what the map says. -/
theorem Inv.length_workers {root : Bool} {id : Uuid} {v : View} (hv : Inv root id v) :
    v.workers.length ≤ 1 ∧ (0 < v.workers.length ↔ ∃ job, v.job = some job ∧ job.state.active) := by
  rcases v.job.eq_none_or_eq_some with hj | ⟨job, hj⟩
  · simp [hj, ((inv_none hj).mp hv).1]
  · have hp := ((inv_some hj).mp hv).place
    unfold Place at hp
    split at hp <;> rename_i hs <;> simp [hj, hs, JobState.active, hp.1]

/-- **The pending workers and the job map agree**, in every state of every run. -/
theorem workersAgree_of_reachable (ht : Thread.Reachable nextDelay t) : t.sched.WorkersAgree := by
  have hlen (id : Uuid) : (tokensOf id t.sched.workers).length ≤ 1 ∧ (0 < (tokensOf id t.sched.workers).length ↔
      ∃ job, t.sched.jobs.lookup id = some job ∧ job.state.active) := (inv_of_reachable ht id).length_workers
  simp only [length_tokensOf] at hlen
  exact ⟨List.nodup_iff_count_le_one.mpr fun id => (hlen id).1,
    fun id => List.count_pos_iff.symm.trans (hlen id).2⟩

/-- A pending worker's job is in the map, and its result is expected there. -/
theorem Scheduler.WorkersAgree.expects {s : Scheduler} (h : s.WorkersAgree) {w : Worker} (hw : w ∈ s.workers)
    (result : Result WorkerResult) : ∃ job, s.jobs.lookup w.id = some job ∧ job.state.expects result := by
  obtain ⟨job, hjob, hactive⟩ := (h.mem_iff w.id).mp (List.mem_map_of_mem hw)
  refine ⟨job, hjob, ?_⟩
  cases hs : job.state with
  | queued | retrying | paused => simp [hs, JobState.active] at hactive
  | running | pausing | cancelling =>
    cases result with
    | error => rfl
    | ok result => cases result <;> rfl

/-- **The last pattern does not take what is expected**: an error that is reported then is that of the worker, or what
`cancel_job` reports. -/
theorem Scheduler.transitionJob_expected {discarded : Result Unit} {s s' : Scheduler} {id : Uuid} {job : Job}
    {result : Result WorkerResult} (hjob : s.jobs.lookup id = some job) (h : job.state.expects result)
    (hs : s.transitionJob nextDelay discarded id (.worker result) = .ok s') {tx : Sender} {error : Error}
    (hnew : .result id tx (.error error) ∈ s'.log) (hold : .result id tx (.error error) ∉ s.log) :
    result = .error error ∨ cancelResult discarded = .error error := by
  obtain ⟨e, ha, rfl⟩ := transitionJob_arm hs
  rw [hjob] at ha
  have hmem : .result id tx (.error error) ∈ e.out := (List.mem_append.mp hnew).resolve_left hold
  have hout : (tx, .error error) ∈ e.out.filterMap View.result? := List.mem_filterMap.mpr ⟨_, hmem, rfl⟩
  cases ha with
  | finished => simp at hout
  | cancelled | stopped =>
    simp only [View.results_finalize, List.mem_map, Prod.mk.injEq] at hout
    obtain ⟨_, -, -, heq⟩ := hout
    exact .inr heq
  | failed =>
    simp only [View.results_finalize, List.mem_map, Prod.mk.injEq] at hout
    obtain ⟨_, -, -, heq⟩ := hout
    cases heq
    exact .inl rfl
  | paused | pausedRetry | retry => simp [View.result?] at hout
  | invalid hidle => cases hs : job.state <;> simp_all [JobState.idle, JobState.expects]

/-- **No panic but the backoff's** unwinds the thread. -/
theorem panicked_backoff (ht : Thread.Reachable nextDelay t) {panic : Panic} (hp : t.phase = .panicked panic) :
    ∃ attempt, nextDelay attempt = .error panic := by
  refine Machine.Reachable.induct (P := fun t => t.phase = .panicked panic → ∃ attempt, nextDelay attempt = .error panic)
    ?_ ?_ ht hp
  · rintro t ⟨maxConcurrent, rfl⟩ h
    cases h
  · intro t a t' _ ih h hp
    cases Thread.next_of_step h with
    | cancelRoot => exact ih hp
    | panic _ _ hd => cases hp; exact ⟨_, hd⟩
    | worker _ hphase => rcases hphase with ⟨-, rfl⟩ | ⟨-, rfl⟩ <;> cases hp
    | dispatched hphase => simp [hphase] at hp
    | _ => cases hp

/-! ### `ready` -/

/-- No job is in `ready` twice. -/
theorem Inv.queued_le {root : Bool} {id : Uuid} {v : View} (hv : Inv root id v) : v.queued ≤ 1 := by
  rcases v.job.eq_none_or_eq_some with hj | ⟨job, hj⟩
  · simp [((inv_none hj).mp hv).2.1]
  · have hp := ((inv_some hj).mp hv).place
    unfold Place at hp
    split at hp <;> omega

/-- A job with a worker is not in `ready`. -/
theorem Inv.queued_of_worker {root : Bool} {id : Uuid} {v : View} (hv : Inv root id v) (hw : 0 < v.workers.length) :
    v.queued = 0 := by
  rcases v.job.eq_none_or_eq_some with hj | ⟨job, hj⟩
  · exact ((inv_none hj).mp hv).2.1
  · have hp := ((inv_some hj).mp hv).place
    unfold Place at hp
    split at hp <;> simp_all

/-- How often a job is in `ready`, by what the map says. -/
theorem Inv.queued_eq {id : Uuid} {v : View} (hv : Inv false id v) :
    v.queued ≤ 1 ∧ (0 < v.queued ↔ ∃ job, v.job = some job ∧ job.state = .queued) := by
  rcases v.job.eq_none_or_eq_some with hj | ⟨job, hj⟩
  · simp [hj, ((inv_none hj).mp hv).2.1]
  · have hp := ((inv_some hj).mp hv).place
    unfold Place at hp
    split at hp <;> rename_i hs <;> simp_all

/-- **`ready` and the job map agree**, until the root token is cancelled. -/
theorem readyAgrees_of_reachable (ht : Thread.Reachable nextDelay t) (hroot : t.sched.cancelRoot = false) :
    t.sched.ReadyAgrees := by
  have hcount (id : Uuid) : t.sched.ready.count id ≤ 1 ∧ (0 < t.sched.ready.count id ↔
      ∃ job, t.sched.jobs.lookup id = some job ∧ job.state = .queued) := (hroot ▸ inv_of_reachable ht id).queued_eq
  exact ⟨List.nodup_iff_count_le_one.mpr fun id => (hcount id).1,
    fun id => List.count_pos_iff.symm.trans (hcount id).2⟩

/-- **The collections agree** at every loop head and in between, also in the final drain.
No worker's result comes for a job that is not there or in a state that does not expect
it, so it is not taken by the last pattern; and no `unwrap` fails: a panic is the backoff's. -/
theorem collections_agree (ht : Thread.Reachable nextDelay t) :
    t.sched.WorkersAgree ∧ (t.sched.cancelRoot = false → t.sched.ReadyAgrees) ∧
      (∀ w ∈ t.sched.workers, ∀ result, (∃ job, t.sched.jobs.lookup w.id = some job ∧ job.state.expects result) ∧
        ∀ discarded s', { t.sched with workers := t.sched.workers.erase w }.transitionJob nextDelay discarded w.id
          (.worker result) = .ok s' → ∀ tx error, .result w.id tx (.error error) ∈ s'.log →
            .result w.id tx (.error error) ∉ t.sched.log →
              result = .error error ∨ cancelResult discarded = .error error) ∧
      (∀ discarded id, ∃ s', t.sched.transitionJob nextDelay discarded id .cancel = .ok s') ∧
      ∀ panic, t.phase = .panicked panic → ∃ attempt, nextDelay attempt = .error panic := by
  refine ⟨workersAgree_of_reachable ht, readyAgrees_of_reachable ht, fun w hw result => ?_,
    fun discarded id => t.sched.handleCmd_ok nextDelay (fun _ => discarded) [] (.cancel id),
    fun _ => panicked_backoff ht⟩
  obtain ⟨job, hjob, hexpects⟩ := (workersAgree_of_reachable ht).expects hw result
  refine ⟨⟨job, hjob, hexpects⟩, fun discarded s' hs tx error hnew hold => ?_⟩
  have hjob' : { t.sched with workers := t.sched.workers.erase w }.jobs.lookup w.id = some job := hjob
  exact Scheduler.transitionJob_expected hjob' hexpects hs hnew hold

/-- With a download running and another behind it. -/
theorem collections_agree_one_slot :
    ∃ t, Machine.exec (Thread.step backoffStrategy.nextDelay) (.new 1) Thread.oneSlot = some t ∧
      (t.sched.ready = [1] ∧ t.sched.workers.map Worker.id = [0]) ∧ t.sched.WorkersAgree := by
  obtain ⟨t, ht, hfacts, hr⟩ := Thread.exists_run backoffStrategy.nextDelay 1 Thread.oneSlot
    (fun t => t.sched.ready = [1] ∧ t.sched.workers.map Worker.id = [0]) (by decide)
  exact ⟨t, ht, hfacts, (collections_agree hr).1⟩

/-! ### Invariants of the whole scheduler -/

/-- The event has been taken out of where it was: the job has been popped from `ready`, or its worker is out of the set. -/
def Scheduler.Taken (s : Scheduler) (id : Uuid) : JobEvent → Prop
  | .dispatch => id ∉ s.ready
  | .worker _ => id ∉ s.ready ∧ ∀ w ∈ s.workers, w.id ≠ id
  | _ => True

/-- A property of the scheduler as a whole that every step of the thread keeps. -/
structure SchedulerInvariant (nextDelay : UInt32 → Except Panic Duration) (P : Scheduler → Prop) : Prop where
  /-- A new scheduler has it. -/
  new : ∀ maxConcurrent, P (.new maxConcurrent)
  /-- Something is taken out of `ready`, `delayed` or `workers`. -/
  take : ∀ {s s' : Scheduler}, P s → s'.tokens = s.tokens → s'.stopped = s.stopped → s'.jobs = s.jobs →
    s'.log = s.log → s'.ready.Sublist s.ready → s'.workers.Sublist s.workers → P s'
  /-- `Enqueue`, for a new identifier. -/
  schedule : ∀ {s : Scheduler} {job : Job}, P s → job.state = .queued → s.jobs.lookup job.id = none →
    job.id ∉ s.ready → (∀ w ∈ s.workers, w.id ≠ job.id) → P (s.schedule job)
  /-- An arm. -/
  arm : ∀ {s : Scheduler} {id : Uuid} {event : JobEvent} {discarded : Result Unit} {e : Effect}, P s →
    s.Taken id event → Arm nextDelay discarded s.tokens id (s.jobs.lookup id) event e → P (e.apply s id)

namespace SchedulerInvariant

variable {P : Scheduler → Prop} (hP : SchedulerInvariant nextDelay P) {s s' : Scheduler}
include hP

theorem transition {id : Uuid} {event : JobEvent} {discarded : Result Unit}
    (hs : s.transitionJob nextDelay discarded id event = .ok s') (h : P s) (htaken : s.Taken id event) : P s' := by
  obtain ⟨e, ha, rfl⟩ := Scheduler.transitionJob_arm hs
  exact hP.arm h htaken ha

theorem cancelEach {discarded : Uuid → Result Unit} {order : List Uuid} (h : P s)
    (hs : s.cancelEach nextDelay discarded order = .ok s') : P s' := by
  induction order generalizing s with
  | nil => cases hs; exact h
  | cons id ids ih =>
    unfold Scheduler.cancelEach at hs
    split at hs
    · cases hs
    · next s₁ h₁ => exact ih (hP.transition h₁ h trivial) hs

/-- A command; a new download is in none of the collections yet. -/
theorem handleCmd {discarded : Uuid → Result Unit} {order : List Uuid} {cmd : SchedulerCmd} (h : P s)
    (hnew : ∀ id ∈ cmd.enqueues, s.jobs.lookup id = none ∧ id ∉ s.ready ∧ ∀ w ∈ s.workers, w.id ≠ id)
    (hs : s.handleCmd nextDelay discarded order cmd = .ok s') : P s' := by
  cases cmd with
  | enqueue id request progressTx resultTx =>
    cases hs
    obtain ⟨hjob, hready, hworkers⟩ := hnew id rfl
    exact hP.schedule h rfl hjob hready hworkers
  | pause | resume | cancel =>
    simp only [Scheduler.handleCmd] at hs
    exact hP.transition hs h trivial
  | cancelAll =>
    simp only [Scheduler.handleCmd] at hs
    split at hs <;> cases hs
    next s₁ h₁ => exact hP.take (hP.cancelEach h h₁) rfl rfl rfl rfl (List.nil_sublist _) (.refl _)
  | setMaxConcurrent =>
    cases hs
    exact hP.take h rfl rfl rfl rfl (.refl _) (.refl _)

/-- **The step lemma.** -/
theorem next {a : Action} (hinv : ∀ id, Inv t.sched.cancelRoot id (t.view id)) (h : P t.sched)
    (hnext : t.Next nextDelay a t') : P t'.sched := by
  cases hnext with
  | cancelRoot => exact hP.take h rfl rfl rfl rfl (.refl _) (.refl _)
  | stop | disconnected | panic | full | empty | finish => exact h
  | @command cmd _ _ _ _ hfresh _ hs =>
    refine hP.handleCmd h (fun id hid => ?_) hs
    cases cmd with
    | enqueue i request progressTx resultTx =>
      obtain rfl : i = id := Option.some.inj hid
      obtain ⟨hjob, hworkers, hqueued, -⟩ := (hinv i).unborn (hfresh.view t.sched)
      refine ⟨hjob, List.count_eq_zero.mp hqueued, fun w hw he => ?_⟩
      have hmem : w.stop ∈ tokensOf i t.sched.workers := he ▸ mem_tokensOf hw
      have hnone : tokensOf i t.sched.workers = [] := hworkers
      simp [hnone] at hmem
    | _ => simp [SchedulerCmd.enqueues] at hid
  | @worker w _ _ _ _ hw _ hs =>
    refine hP.transition hs (hP.take h rfl rfl rfl rfl (.refl _) List.erase_sublist) ⟨?_, fun w' hw' he => ?_⟩
    · exact List.count_eq_zero.mp ((hinv w.id).queued_of_worker (List.length_pos_of_mem (mem_tokensOf hw)))
    · -- a job has one worker at most
      have hlength := (tokensOf_erase_self hw).length_eq
      have hle : (tokensOf w.id t.sched.workers).length ≤ 1 := (hinv w.id).length_workers.1
      have hmem : w'.stop ∈ tokensOf w.id (t.sched.workers.erase w) := he ▸ mem_tokensOf hw'
      have hpos := List.length_pos_of_mem hmem
      rw [List.length_cons] at hlength
      omega
  | retry _ _ hs => exact hP.transition hs (hP.take h rfl rfl rfl rfl (.refl _) (.refl _)) trivial
  | dropped _ hready => exact hP.take h rfl rfl rfl rfl (hready ▸ List.sublist_cons_self _ _) (.refl _)
  | @dispatched id ready _ _ _ hready hs =>
    refine hP.transition hs (hP.take h rfl rfl rfl rfl (hready ▸ List.sublist_cons_self _ _) (.refl _)) fun hmem => ?_
    -- a job is in `ready` once at most
    have hle : t.sched.ready.count id ≤ 1 := (hinv id).queued_le
    have hpos : 0 < ready.count id := List.count_pos_iff.mpr hmem
    rw [hready, List.count_cons_self] at hle
    omega
  | close _ _ hs => exact hP.handleCmd h (by simp [SchedulerCmd.enqueues]) hs

/-- **The run lemma.** -/
theorem reachable (ht : Thread.Reachable nextDelay t) : P t.sched := by
  refine Machine.Reachable.induct (P := fun t => P t.sched) ?_ ?_ ht
  · rintro t ⟨maxConcurrent, rfl⟩
    exact hP.new maxConcurrent
  · intro t a t' ht h hstep
    exact hP.next (inv_of_reachable ht) h (Thread.next_of_step hstep)

end SchedulerInvariant

end DownloadManager
