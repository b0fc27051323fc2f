import DownloadManager.Scheduler.Collections

/-!
# How downloads end

The shutdown: `CancelAll` leaves no job that is not being cancelled, the drain ends
these one by one, and when `run` returns nothing is left. With the invariant of each
identifier this gives the law of a whole run: the events of a download are a path of
the lifecycle automaton, and by the end it has had one terminal event and one result
that say the same.
-/

namespace DownloadManager

variable {nextDelay : UInt32 → Except Panic Duration} {t t' : Thread} {id : Uuid}

/-! ### The drain -/

/-- After the loop only jobs that are being cancelled are left, and no worker when `run` returns. -/
structure Thread.Drains (t : Thread) : Prop where
  /-- The jobs left. -/
  cancelling : t.phase = .draining ∨ t.phase = .returned →
    ∀ id job, t.sched.jobs.lookup id = some job → job.state = .cancelling
  /-- The workers left. -/
  workers : t.phase = .returned → t.sched.workers = []

/-- The worker of a job being cancelled ends it. -/
theorem Arm.job_eq_none {discarded : Result Unit} {token : Token} {job : Option Job} {result : Result WorkerResult}
    {e : Effect} (h : Arm nextDelay discarded token id job (.worker result) e)
    (hc : ∀ j ∈ job, j.state = .cancelling) : e.job = none := by
  cases h with
  | unknown | unknownAck | finished | cancelled | stopped | failed | invalid => rfl
  | paused h | pausedRetry h => simp [hc _ rfl] at h
  | retry h => simp [hc _ rfl, JobState.plain] at h

theorem Thread.Next.drains {a : Action} (ht : Thread.Reachable nextDelay t) (hd : t.Drains)
    (h : t.Next nextDelay a t') : t'.Drains := by
  have hid (id : Uuid) : ∀ job ∈ t.sched.jobs.lookup id, job.id = id :=
    fun job hjob => ((inv_some (v := t.view id) hjob).mp (inv_of_reachable ht id)).id_eq
  cases h with
  | cancelRoot => exact ⟨hd.cancelling, hd.workers⟩
  | stop | disconnected | command | panic | retry | full | empty | dropped => exact ⟨by simp, by simp⟩
  | dispatched hp => exact ⟨by simp [hp], by simp [hp]⟩
  | @worker w _ _ s' phase _ hp hs =>
    rcases hp with ⟨-, rfl⟩ | ⟨hp, rfl⟩
    · exact ⟨by simp, by simp⟩
    refine ⟨fun _ id job hjob => ?_, by simp⟩
    have hcancelling := hd.cancelling (.inl hp)
    obtain ⟨e, ha, hself, hother, -⟩ := views_of_transition t.handled hs (hid w.id)
    by_cases hne : id = w.id
    · subst hne
      have hview : (s'.view t.handled w.id).job = some job := hjob
      rw [hself] at hview
      exact absurd (hview.symm.trans (ha.job_eq_none fun j hj => hcancelling w.id j hj)) (by simp)
    · have hview : (s'.view t.handled id).job = some job := hjob
      rw [hother id hne] at hview
      exact hcancelling id job hview
  | close _ horder hs =>
    refine ⟨fun _ id job hjob => ?_, by simp⟩
    obtain ⟨token, e, ha, hview⟩ := (Scheduler.cancelAll_views (inv_of_reachable ht) horder hs).2 id
    have hjob' : (e.act (t.view id)).cleared.job = some job := (congrArg View.job hview).symm.trans hjob
    exact ha.quiet job hjob'
  | finish hp hw => exact ⟨fun _ => hd.cancelling (.inl hp), fun _ => hw⟩

theorem drains_of_reachable (ht : Thread.Reachable nextDelay t) : t.Drains := by
  refine Machine.Reachable.induct (P := Thread.Drains) ?_ ?_ ht
  · rintro t ⟨maxConcurrent, rfl⟩
    exact ⟨by simp [Thread.new], by simp [Thread.new]⟩
  · intro t a t' ht hd h
    exact (Thread.next_of_step h).drains ht hd

/-- **Nothing is left** when `run` returns. -/
theorem nothing_left (ht : Thread.Reachable nextDelay t) (hp : t.phase = .returned) :
    t.sched.jobs = ∅ ∧ t.sched.workers = [] := by
  have hd := drains_of_reachable ht
  have hworkers := hd.workers hp
  refine ⟨Finmap.ext_lookup fun id => ?_, hworkers⟩
  rcases hj : t.sched.jobs.lookup id with _ | job
  · simp
  · have hactive : job.state.active := by rw [hd.cancelling (.inr hp) id job hj]; rfl
    have hmem := ((workersAgree_of_reachable ht).mem_iff id).mpr ⟨job, hj, hactive⟩
    simp [hworkers] at hmem

/-! ### One `Enqueue` for each download -/

/-- The commands that make a download. -/
def View.births (v : View) : List SchedulerCmd := v.cmds.filter fun cmd => cmd.enqueues.isSome

theorem Takes.births_eq {event : JobEvent} {v v' : View} (h : Takes id event v v') : v'.births = v.births := by
  cases h <;> simp [View.births, SchedulerCmd.enqueues]

/-- No identifier is enqueued twice. -/
theorem births_viewInvariant : ViewInvariant nextDelay fun _ _ v => v.births.length ≤ 1 where
  empty := fun _ => by simp [View.births, View.empty]
  cancelRoot := fun _ h => h
  enqueue := by
    intro root id v request progressTx resultTx _ _ hnew
    have hnone : v.births = [] := List.filter_eq_nil_iff.mpr fun cmd hcmd => by simp [hnew cmd hcmd]
    have happ : (v.enqueued id request progressTx resultTx).births =
        v.births ++ [.enqueue id request progressTx resultTx] := by
      simp [View.births, View.enqueued, SchedulerCmd.enqueues]
    simp [happ, hnone]
  arm := fun _ h ht _ => (congrArg List.length ht.births_eq).trans_le h
  drop := fun _ h _ => h
  clear := fun _ h _ => h

/-- Two commands that make the same download are the same. -/
theorem birth_unique (ht : Thread.Reachable nextDelay t) {request request' : Request}
    {progressTx progressTx' tx tx' : Sender} (h : .enqueue id request progressTx tx ∈ t.handled)
    (h' : .enqueue id request' progressTx' tx' ∈ (t.view id).cmds) : request = request' ∧ tx = tx' := by
  have hlen := births_viewInvariant.reachable ht id
  have hmem : SchedulerCmd.enqueue id request progressTx tx ∈ (t.view id).births := by
    simp [View.births, Thread.view, Scheduler.view, h, SchedulerCmd.id?, SchedulerCmd.enqueues]
  have hmem' : SchedulerCmd.enqueue id request' progressTx' tx' ∈ (t.view id).births :=
    List.mem_filter.mpr ⟨h', rfl⟩
  obtain ⟨cmd, hcmd⟩ := List.length_eq_one_iff.mp (Nat.le_antisymm hlen (List.length_pos_of_mem hmem))
  rw [hcmd, List.mem_singleton] at hmem hmem'
  rw [← hmem'] at hmem
  cases hmem
  exact ⟨rfl, rfl⟩

/-! ### The end of a download -/

/-- A download that has ended: one result, and one terminal event, the last, that reports it. -/
structure Settled (v : View) (tx : Sender) (value : Result DownloadResult) : Prop where
  /-- What has been sent to the caller. -/
  results : v.results = [(tx, value)]
  /-- The last event. -/
  last : v.kinds.getLast? = some (kindOf value)
  /-- The terminal events. -/
  once : v.kinds.filter (fun k => k.stage = .terminal) = [kindOf value]

/-- The last event of a path is its only terminal one, if it is terminal. -/
theorem Lifecycle.filter_terminal {kinds : List EventKind} {k : EventKind} (h : Lifecycle kinds)
    (hlast : kinds.getLast? = some k) (hk : k.stage = .terminal) :
    kinds.filter (fun k => k.stage = .terminal) = [k] := by
  obtain ⟨init, rfl⟩ := List.getLast?_eq_some_iff.mp hlast
  have hinit : init.filter (fun k => k.stage = .terminal) = [] :=
    List.filter_eq_nil_iff.mpr fun k' hk' => by simpa using h.not_terminal k' hk'
  simp [hinit, hk]

/-- What the terminal event says is what the result says. -/
theorem kindOf_iff (value : Result DownloadResult) :
    (kindOf value = .completed ↔ ∃ r, value = .ok r) ∧ (kindOf value = .cancelled ↔ value = .error .cancelled) ∧
      ((∃ text, kindOf value = .failed text) ↔ ∃ e, value = .error e ∧ e ≠ .cancelled) := by
  rcases value with e | r
  · cases e <;> simp [kindOf]
  · simp [kindOf]

/-- **The law of a run.** The events of every download are a path of the lifecycle
automaton. When `run` returns there is no job and no worker, and every download has had
one terminal event and one result, which say the same. -/
theorem downloads_settle (ht : Thread.Reachable nextDelay t) :
    (∀ id request progressTx tx, .enqueue id request progressTx tx ∈ t.handled → Lifecycle (t.view id).kinds) ∧
    (t.phase = .returned → t.sched.jobs = ∅ ∧ t.sched.workers = [] ∧
      ∀ id request progressTx tx, .enqueue id request progressTx tx ∈ t.handled →
        ∃ value, Settled (t.view id) tx value ∧ (kindOf value = .completed ↔ ∃ r, value = .ok r) ∧
          (kindOf value = .cancelled ↔ value = .error .cancelled) ∧
          ((∃ text, kindOf value = .failed text) ↔ ∃ e, value = .error e ∧ e ≠ .cancelled)) := by
  have hborn {id : Uuid} {request : Request} {progressTx tx : Sender}
      (h : .enqueue id request progressTx tx ∈ t.handled) : ¬ Unborn (t.view id) := by
    intro hu
    have hmem : SchedulerCmd.enqueue id request progressTx tx ∈ (t.view id).cmds :=
      List.mem_filter.mpr ⟨h, by simp [SchedulerCmd.id?]⟩
    exact absurd (hu.cmds _ hmem) (by simp [SchedulerCmd.enqueues])
  refine ⟨fun id request progressTx tx h => ?_, fun hp => ?_⟩
  · have hv := inv_of_reachable ht id
    rcases (t.view id).job.eq_none_or_eq_some with hj | ⟨job, hj⟩
    · exact (((inv_none hj).mp hv).2.2.2.resolve_left (hborn h)).path
    · exact ((inv_some hj).mp hv).path
  · obtain ⟨hjobs, hworkers⟩ := nothing_left ht hp
    refine ⟨hjobs, hworkers, fun id request progressTx tx h => ?_⟩
    have hj : (t.view id).job = none := by
      show t.sched.jobs.lookup id = none
      rw [hjobs]; exact Finmap.lookup_empty id
    have hover := ((inv_none hj).mp (inv_of_reachable ht id)).2.2.2.resolve_left (hborn h)
    obtain ⟨request', tx', value, ⟨progressTx', hasked⟩, hresults, hlast⟩ := hover.result
    obtain rfl := (birth_unique ht h hasked).2
    exact ⟨value, ⟨hresults, hlast, hover.path.filter_terminal hlast (stage_kindOf value)⟩, kindOf_iff value⟩

/-- For a download that fails twice and is then cancelled by the shutdown. -/
theorem downloads_settle_failing_twice :
    ∃ t, Machine.exec (Thread.step backoffStrategy.nextDelay) (.new 1) Thread.failingTwiceThenStopped = some t ∧
      (t.phase = .returned ∧ .enqueue 0 Thread.sampleRequest 1 2 ∈ t.handled) ∧
      ∃ value, Settled (t.view 0) 2 value := by
  obtain ⟨t, ht, ⟨hp, hmem⟩, hr⟩ := Thread.exists_run backoffStrategy.nextDelay 1 Thread.failingTwiceThenStopped
    (fun t => t.phase = .returned ∧ .enqueue 0 Thread.sampleRequest 1 2 ∈ t.handled) (by decide)
  obtain ⟨value, hvalue, -⟩ := ((downloads_settle hr).2 hp).2.2 0 Thread.sampleRequest 1 2 hmem
  exact ⟨t, ht, ⟨hp, hmem⟩, value, hvalue⟩

end DownloadManager
