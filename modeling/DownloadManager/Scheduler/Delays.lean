import DownloadManager.Scheduler.Budget

/-!
# Retries and their delays

Every `RetryScheduled` event says which retry it is and how long it is waited for. In every run
in which no request asks for more than 64 retries, the delays are those documented, and the thread
does not panic (`delays_announced`): what is said of `BACKOFF_STRATEGY` alone, for the attempts the
scheduler really asks it about.
-/

namespace DownloadManager

variable {nextDelay : UInt32 → Except Panic Duration} {id : Uuid}

/-- A `RetryScheduled` event is for the attempt after one the backoff was asked about, within the budget. -/
def Timed (nextDelay : UInt32 → Except Panic Duration) (id : Uuid) (v : View) : Prop :=
  ∀ attempt delayMs, .retryScheduled attempt delayMs ∈ v.kinds → ∃ request tx failed delay, v.Asked id request tx ∧
    failed < request.config.retries ∧ attempt = failed + 1 ∧ nextDelay failed = .ok delay ∧ delayMs = delay.asMillis

/-- Only an arm that sets a timer announces a retry. -/
theorem Arm.delay {discarded : Result Unit} {token : Token} {job? : Option Job} {event : JobEvent} {e : Effect}
    {attempt : UInt32} {delayMs : ℕ} (h : Arm nextDelay discarded token id job? event e)
    (hmem : .retryScheduled attempt delayMs ∈ e.out.filterMap View.kind?) :
    ∃ (job new : Job) (delay : Duration), e.job = some new ∧ new.request = job.request ∧ job.attempt < job.request.config.retries ∧
      attempt = job.attempt + 1 ∧ nextDelay job.attempt = .ok delay ∧ delayMs = delay.asMillis := by
  have hkind (result : Result DownloadResult) : kindOf result ≠ .retryScheduled attempt delayMs := by
    rcases result with error | result
    · cases error <;> simp [kindOf]
    · simp [kindOf]
  cases h with
  | @retry job error delay _ _ hlt hd =>
    simp only [View.kind?, List.filterMap_cons, List.filterMap_nil, List.mem_singleton, EventKind.retryScheduled.injEq]
      at hmem
    exact ⟨job, _, delay, rfl, rfl, hlt, hmem.1, hd, hmem.2⟩
  | cancelIdle | finished | cancelled | stopped | failed | invalid =>
    rw [View.kinds_finalize, List.mem_singleton] at hmem
    exact absurd hmem.symm (hkind _)
  | paused | pausedRetry => simp [View.kind?] at hmem
  | cancelPausing => simp [View.kind?, List.filterMap_map, Function.comp_def] at hmem
  | _ => simp [View.kind?] at hmem

/-- **The retries announced are timed by the backoff**, whatever it is. -/
theorem timed_viewInvariant : ViewInvariant nextDelay fun _ id v => Timed nextDelay id v where
  empty := fun _ _ _ h => by cases h
  cancelRoot := fun _ h => h
  enqueue := by
    intro root id v request progressTx resultTx hv h hnew attempt delayMs hmem
    have hkinds : v.kinds = [] := (hv.unborn hnew).2.2.2.kinds
    have hkinds' : (v.enqueued id request progressTx resultTx).kinds = v.kinds ++ [.queued] := by
      simp [View.kinds, View.enqueued, View.kind?]
    simp [hkinds', hkinds] at hmem
  arm := by
    intro root id v v' event e discarded token hv h ht ha attempt delayMs hmem
    rw [View.kinds_act, List.mem_append, ht.kinds_eq] at hmem
    rcases hmem with hmem | hmem
    · obtain ⟨request, tx, failed, delay, ⟨progressTx, hasked⟩, hrest⟩ := h attempt delayMs hmem
      exact ⟨request, tx, failed, delay, ⟨progressTx, ht.cmds_subset hasked⟩, hrest⟩
    · obtain ⟨job, new, delay, hnew, hrequest, hlt, hrest⟩ := ha.delay hmem
      obtain ⟨tx, hasked, -⟩ := ((inv_some (v := e.act v') hnew).mp (hv.arm ht ha)).asked
      exact ⟨new.request, tx, job.attempt, delay, hasked, hrequest ▸ hlt, hrest⟩
  drop := fun _ h _ => h
  clear := fun _ h _ => h

namespace Thread

variable {t t' : Thread}

/-- A backoff that has a delay for every retry the requests may ask for. -/
def Served (nextDelay : UInt32 → Except Panic Duration) (handled : List SchedulerCmd) : Prop :=
  ∀ id request progressTx tx, .enqueue id request progressTx tx ∈ handled →
    ∀ attempt < request.config.retries, ∃ delay, nextDelay attempt = .ok delay

/-- The backoff is asked about a worker that fails while its job runs, and within the budget of that. -/
theorem Next.not_panic (ht : Reachable nextDelay t) (hserved : Served nextDelay t.handled) {w : Worker}
    {result : Result WorkerResult} {discarded : Result Unit} {panic : Panic}
    (h : t.step nextDelay (.worker w result discarded) = some { t with phase := .panicked panic }) :
    t.phase = .panicked panic := by
  simp only [step] at h
  split_ifs at h with hc hp
  all_goals
    cases hs : Scheduler.transitionJob nextDelay discarded { t.sched with workers := t.sched.workers.erase w } w.id
      (.worker result) with
    | ok s' =>
      rw [hs] at h
      have hphase := congrArg Thread.phase (Option.some.inj h)
      simp [andThen] at hphase
    | error panic' =>
      obtain ⟨job, error, hjob, hevent, hplain, hretryable, hd⟩ := Scheduler.transitionJob_panic hs
      cases hevent
      have hlive := (inv_some (v := t.view w.id) hjob).mp (inv_of_reachable ht w.id)
      obtain ⟨tx, ⟨progressTx, hasked⟩, -⟩ := hlive.asked
      have hmem : .enqueue w.id job.request progressTx tx ∈ t.handled := (List.mem_filter.mp hasked).1
      have hattempting : job.state.attempting := by
        obtain ⟨job', hjob', hactive⟩ := ((workersAgree_of_reachable ht).mem_iff w.id).mp (List.mem_map_of_mem hc.1)
        cases hjob.symm.trans hjob'
        cases hstate : job.state <;> simp_all [JobState.active, JobState.plain, JobState.attempting]
      by_cases hlt : job.attempt < job.request.config.retries
      · obtain ⟨delay, hdelay⟩ := hserved w.id job.request progressTx tx hmem job.attempt hlt
        rw [hdelay] at hd
        cases hd
      · rw [Scheduler.transitionJob_exhausted hjob hattempting hretryable (UInt32.not_lt.mp hlt)] at hs
        cases hs

/-- **The thread does not panic** when the backoff has a delay for every retry asked for. -/
theorem alive_of_served (ht : Reachable nextDelay t) (hserved : Served nextDelay t.handled) :
    ∀ panic, t.phase ≠ .panicked panic := by
  refine Machine.Reachable.induct (P := fun t => Served nextDelay t.handled → ∀ panic, t.phase ≠ .panicked panic)
    ?_ ?_ ht hserved
  · rintro t ⟨maxConcurrent, rfl⟩ _ panic hp
    cases hp
  · intro t a t' ht ih hstep hserved' panic hp
    have hnext := next_of_step hstep
    have hserved : Served nextDelay t.handled := fun id request progressTx tx hmem =>
      hserved' id request progressTx tx (hnext.handled_eq ▸ List.mem_append_left _ hmem)
    cases hnext with
    | cancelRoot => exact ih hserved panic hp
    | panic => exact ih hserved _ (Next.not_panic ht hserved hstep)
    | worker _ hphase => rcases hphase with ⟨-, rfl⟩ | ⟨-, rfl⟩ <;> cases hp
    | dispatched hphase => simp [hphase] at hp
    | _ => cases hp

/-- The first 64 delays of `BACKOFF_STRATEGY`. -/
theorem backoffStrategy_delay {failed : UInt32} (h : failed.toNat < 64) :
    backoffStrategy.nextDelay failed = .ok (min (10 ^ 9 * 2 ^ failed.toNat) (10 * 10 ^ 9)) := by
  have hpow : 2 ^ failed.toNat < 2 ^ 64 := Nat.pow_lt_pow_right (by omega) h
  have hlt : backoffStrategy.baseDelay * 2 ^ failed.toNat < .fromSecs (2 ^ 64) := by
    show 1 * 10 ^ 9 * 2 ^ failed.toNat < 2 ^ 64 * 10 ^ 9
    rw [Nat.one_mul, Nat.mul_comm]
    exact Nat.mul_lt_mul_of_pos_right hpow (by decide)
  rw [ExponentialBackoff.nextDelay_ok (by omega) hlt]
  rfl

/-- **Retries are announced with the documented delays**, in every run in which no request asks for more than 64 of
them: one second before the first, twice as long before each further one, at most ten. The thread does not panic. -/
theorem delays_announced (ht : Reachable backoffStrategy.nextDelay t)
    (hretries : ∀ id request progressTx tx, .enqueue id request progressTx tx ∈ t.handled →
      request.config.retries ≤ 64) :
    (∀ panic, t.phase ≠ .panicked panic) ∧
      ∀ id attempt delayMs, .event id (.retryScheduled attempt delayMs) ∈ t.sched.log →
        1 ≤ attempt ∧ attempt ≤ 64 ∧ delayMs = min (1000 * 2 ^ (attempt.toNat - 1)) 10000 := by
  have hlt {request : Request} {failed : UInt32} (hle : request.config.retries ≤ 64)
      (hlt : failed < request.config.retries) : failed.toNat < 64 := UInt32.lt_of_lt_of_le hlt hle
  refine ⟨alive_of_served ht fun id request progressTx tx hmem failed hfailed =>
    ⟨_, backoffStrategy_delay (hlt (hretries id request progressTx tx hmem) hfailed)⟩, ?_⟩
  intro id attempt delayMs hmem
  have hkinds : .retryScheduled attempt delayMs ∈ (t.view id).kinds :=
    List.mem_filterMap.mpr ⟨_, List.mem_filter.mpr ⟨hmem, by simp [Output.id]⟩, rfl⟩
  obtain ⟨request, tx, failed, delay, ⟨progressTx, hasked⟩, hfailed, rfl, hdelay, rfl⟩ :=
    timed_viewInvariant.reachable ht id attempt delayMs hkinds
  have hfailed := hlt (hretries id request progressTx tx (List.mem_filter.mp hasked).1) hfailed
  have hattempt : (failed + 1).toNat = failed.toNat + 1 := by
    rw [UInt32.toNat_add, UInt32.toNat_one, Nat.mod_eq_of_lt (by omega)]
  rw [backoffStrategy_delay hfailed, Except.ok.injEq] at hdelay
  subst hdelay
  refine ⟨UInt32.le_iff_toNat_le.mpr (by rw [hattempt, UInt32.toNat_one]; omega),
    UInt32.le_iff_toNat_le.mpr (by rw [hattempt]; exact hfailed), ?_⟩
  rw [hattempt, Nat.add_sub_cancel, Duration.asMillis]
  generalize 2 ^ failed.toNat = power
  omega

/-- A download that failed twice, with two retries. -/
theorem delays_announced_failing_twice :
    ∃ t, Machine.exec (step backoffStrategy.nextDelay) (.new 1) failingTwice = some t ∧
      .event 0 (.retryScheduled 2 2000) ∈ t.sched.log ∧ ∀ panic, t.phase ≠ .panicked panic := by
  obtain ⟨t, ht, ⟨hhandled, hlog⟩, hr⟩ := exists_run backoffStrategy.nextDelay 1 failingTwice
    (fun t => t.handled = [.enqueue 0 sampleRequest 1 2, .pause 0 3, .resume 0 4] ∧
      .event 0 (.retryScheduled 2 2000) ∈ t.sched.log) (by decide)
  refine ⟨t, ht, hlog, (delays_announced hr fun id request progressTx tx hmem => ?_).1⟩
  simp only [hhandled, List.mem_cons, SchedulerCmd.enqueue.injEq, List.not_mem_nil, reduceCtorEq, or_false] at hmem
  obtain ⟨-, rfl, -, -⟩ := hmem
  decide

end Thread

end DownloadManager
