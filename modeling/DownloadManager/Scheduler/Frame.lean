import DownloadManager.Scheduler.Tokens

/-!
# What a transition leaves alone

The jobs share a queue, a set of timers, a set of workers and a tree of tokens.
`Frame` says that a change concerns one job: everything the scheduler holds for another is
as it was, and nothing is sent about another. The tokens need more than the frame of
`Effect.apply`: that a job never runs with the token of another's worker, which is part of
`StopsAgree`.

`transition_job` is called when its event has been taken out of where it waited, and in the
loop of `CancelAll` also between two jobs. `Thread.Amid` are the schedulers it is called on.
-/

namespace DownloadManager

namespace Scheduler

/-- The tokens of the workers. -/
structure StopsAgree (s : Scheduler) : Prop where
  /-- A record has the identifier it is kept under. -/
  named : ∀ id job, s.jobs.lookup id = some job → job.id = id
  /-- A job that runs with the token of a worker is the job of that worker. -/
  own : ∀ w ∈ s.workers, ∀ id job, s.jobs.lookup id = some job → job.state = .running w.stop → w.id = id
  /-- A worker whose job does not run any more has been asked to stop. -/
  asked : ∀ w ∈ s.workers, ∀ job, s.jobs.lookup w.id = some job → job.state = .running w.stop ∨ w.stop ∈ s.stopped

/-- From `s` to `s'` nothing happens to any job but `id`. -/
structure Frame (id : Uuid) (s s' : Scheduler) : Prop where
  /-- The records. -/
  jobs : ∀ other, other ≠ id → s'.jobs.lookup other = s.jobs.lookup other
  /-- The queue, in its order. -/
  ready : s'.ready.filter (· ≠ id) = s.ready.filter (· ≠ id)
  /-- The timers. -/
  delayed : (s'.delayed.filter fun timer => timer.1 ≠ id) = s.delayed.filter fun timer => timer.1 ≠ id
  /-- The workers. -/
  workers : (s'.workers.filter fun w => w.id ≠ id) = s.workers.filter fun w => w.id ≠ id
  /-- Their tokens. -/
  stops : ∀ w ∈ s.workers, w.id ≠ id → (w.stop ∈ s'.stopped ↔ w.stop ∈ s.stopped)
  /-- The tokens of the jobs. -/
  running : ∀ other job stop, other ≠ id → s.jobs.lookup other = some job → job.state = .running stop →
    (stop ∈ s'.stopped ↔ stop ∈ s.stopped)
  /-- The root token, which is the parent of them all. -/
  cancelRoot : s'.cancelRoot = s.cancelRoot
  /-- What has been sent is about the job. -/
  sent : ∃ out, s'.log = s.log ++ out ∧ ∀ o ∈ out, o.id = id

end Scheduler

variable {nextDelay : UInt32 → Except Panic Duration} {discarded : Result Unit} {token : Token} {id : Uuid}
  {event : JobEvent} {e : Effect}

/-- An arm that takes a job out of `Running` cancels its token, or is the end of its worker. -/
theorem Arm.running_or_stop {job job' : Job} {stop : Token} (h : Arm nextDelay discarded token id (some job) event e)
    (hevent : ∀ result, event ≠ .worker result) (hnew : e.job = some job') (hs : job.state = .running stop) :
    job'.state = .running stop ∨ e.stop = some stop := by
  cases h with
  | notQueued | stale | pausePaused | pauseCancelling | resumeLive | resumeBusy | cancelAgain =>
    cases hnew
    exact .inl hs
  | pauseRunning h | cancelRunning h =>
    cases hs.symm.trans h
    exact .inr rfl
  | start h | requeue h | pauseQueued h | pauseRetrying h | pausePausing h | resumePaused h | cancelPausing h =>
    cases hs.symm.trans h
  | cancelIdle => cases hnew
  | finished | cancelled | paused | pausedRetry | stopped | retry | failed | invalid => exact absurd rfl (hevent _)

/-- An arm leaves the identifier of its job as it is. -/
theorem Arm.job_id {job? : Option Job} {job' : Job} (h : Arm nextDelay discarded token id job? event e)
    (hnew : e.job = some job') : ∃ job, job? = some job ∧ job'.id = job.id := by
  cases h with
  | unknown | unknownAck | cancelIdle | finished | cancelled | stopped | failed | invalid => cases hnew
  | _ =>
    cases hnew
    exact ⟨_, rfl, rfl⟩

namespace Scheduler

/-- A job that runs after an arm ran before, or has a token that no worker had. -/
theorem StopsAgree.own_of_running {s : Scheduler} (hagree : s.Agree) (h : s.StopsAgree) {w : Worker}
    (hw : w ∈ s.workers) {job' : Job} (hnew : e.job = some job') (hrunning : job'.state = .running w.stop)
    (hstep : s.TokenStep id (s.jobs.lookup id) e) : w.id = id := by
  cases hstep with
  | start _ hjob =>
    cases hjob.symm.trans hnew
    exact absurd (JobState.running.inj hrunning).symm (hagree.tokens.worker_lt w hw).ne
  | stop _ _ hjob hstate' =>
    cases hjob.symm.trans hnew
    exact absurd hrunning (hstate' _)
  | other hkept =>
    obtain ⟨job, hold, -, hbefore⟩ := hkept job' hnew
    exact h.own w hw id job hold (hbefore _ hrunning)

/-- An arm keeps the tokens of the workers apart, and asks them to stop when their job does not run any more. -/
theorem StopsAgree.apply {s : Scheduler} (hagree : s.Agree) (h : s.StopsAgree) (htaken : s.Taken id event)
    (ha : Arm nextDelay discarded s.tokens id (s.jobs.lookup id) event e) : (e.apply s id).StopsAgree := by
  have hstep := tokenStep_of_arm ha
  have hspawned {w : Worker} (hw : e.spawn = some w) :
      w.stop = s.tokens ∧ w.id = id ∧ ∃ job, e.job = some job ∧ job.state = .running w.stop := by
    cases hstep with
    | start _ hnew hspawn =>
      cases hspawn.symm.trans hw
      exact ⟨rfl, rfl, _, hnew, rfl⟩
    | stop _ _ _ _ _ hspawn => simp [hspawn] at hw
    | other _ hspawn => simp [hspawn] at hw
  have hmem {w : Worker} (hw : w ∈ (e.apply s id).workers) : w ∈ s.workers ∨ e.spawn = some w := by
    simpa [Effect.apply, eq_comm] using hw
  have hself {job : Job} (hj : (e.apply s id).jobs.lookup id = some job) : e.job = some job :=
    (Jobs.lookup_put_self s.jobs id e.job).symm.trans hj
  have hother {other : Uuid} {job : Job} (hne : other ≠ id) (hj : (e.apply s id).jobs.lookup other = some job) :
      s.jobs.lookup other = some job := (Jobs.lookup_put_of_ne s.jobs e.job hne).symm.trans hj
  have hstopped : s.stopped ⊆ (e.apply s id).stopped := by
    cases he : e.stop <;> simp [Effect.apply, he]
  refine ⟨fun other job' hj => ?_, fun w hw other job' hj hrunning => ?_, fun w hw job' hj => ?_⟩
  · by_cases hne : other = id
    · subst hne
      obtain ⟨job, hold, hid⟩ := ha.job_id (hself hj)
      exact hid.trans (h.named other job hold)
    · exact h.named other job' (hother hne hj)
  · rcases hmem hw with hold | hnew
    · by_cases hne : other = id
      · subst hne
        exact h.own_of_running hagree hold (hself hj) hrunning hstep
      · exact h.own w hold other job' (hother hne hj) hrunning
    · -- its token is new, and so is the state of its job
      obtain ⟨hstop, hid, -⟩ := hspawned hnew
      by_contra hne
      have hlt := hagree.tokens.running_lt _ _ _ (hother (fun he => hne (hid.trans he.symm)) hj) hrunning
      exact absurd hstop hlt.ne
  · rcases hmem hw with hold | hnew
    · by_cases hid : w.id = id
      · rw [hid] at hj
        have hnew := hself hj
        cases hlookup : s.jobs.lookup id with
        | none =>
          rw [hlookup] at ha
          cases ha <;> cases hnew
        | some job =>
          rw [hlookup] at ha
          have hevent : ∀ result, event ≠ .worker result := by
            rintro result rfl
            exact htaken.2 w hold hid
          rcases h.asked w hold job (hid ▸ hlookup) with hrunning | hasked
          · rcases ha.running_or_stop hevent hnew hrunning with hrunning' | hstop
            · exact .inl hrunning'
            · exact .inr (by simp [Effect.apply, hstop])
          · exact .inr (hstopped hasked)
      · exact (h.asked w hold job' (hother hid hj)).imp_right fun hasked => hstopped hasked
    · obtain ⟨-, hid, job, hjob, hrunning⟩ := hspawned hnew
      rw [hid] at hj
      cases hjob.symm.trans (hself hj)
      exact .inl hrunning

/-- **The tokens of the workers agree with the jobs** after every step. -/
theorem StopsAgree.invariant : SchedulerInvariant nextDelay fun s => s.Agree ∧ s.StopsAgree where
  new n := ⟨(Agree.invariant : SchedulerInvariant nextDelay Agree).new n, by simp [new], by simp [new], by simp [new]⟩
  take h htokens hstopped hjobs hlog hready hworkers := by
    have hagree : SchedulerInvariant nextDelay Agree := Agree.invariant
    refine ⟨hagree.take h.1 htokens hstopped hjobs hlog hready hworkers, ?_, ?_, ?_⟩
    · rw [hjobs]
      exact h.2.named
    · rw [hjobs]
      exact fun w hw => h.2.own w (hworkers.subset hw)
    · rw [hjobs, hstopped]
      exact fun w hw => h.2.asked w (hworkers.subset hw)
  schedule {s job} h hqueued hjob hready hworkers := by
    have hagree : SchedulerInvariant nextDelay Agree := Agree.invariant
    have hlookup {other : Uuid} {job' : Job} (hj : (s.schedule job).jobs.lookup other = some job') :
        other = job.id ∧ job' = job ∨ s.jobs.lookup other = some job' := by
      by_cases hne : other = job.id
      · subst hne
        exact .inl ⟨rfl, by simpa [schedule, emit, send, eq_comm] using hj⟩
      · exact .inr (by simpa [schedule, emit, send, Finmap.lookup_insert_of_ne _ hne] using hj)
    refine ⟨hagree.schedule h.1 hqueued hjob hready hworkers, fun other job' hj => ?_,
      fun w hw other job' hj hrunning => ?_, fun w hw job' hj => ?_⟩
    · rcases hlookup hj with ⟨rfl, rfl⟩ | hold
      · rfl
      · exact h.2.named other job' hold
    · rcases hlookup hj with ⟨rfl, rfl⟩ | hold
      · cases hqueued.symm.trans hrunning
      · exact h.2.own w hw other job' hold hrunning
    · rcases hlookup hj with ⟨hid, -⟩ | hold
      · exact absurd hid (hworkers w hw)
      · exact h.2.asked w hw job' hold
  arm h htaken ha := ⟨Agree.invariant.arm h.1 htaken ha, h.2.apply h.1 htaken ha⟩

/-- **A transition concerns one job**, where the tokens agree. -/
theorem frame_of_transitionJob {s s' : Scheduler} (hagree : s.Agree) (hstops : s.StopsAgree)
    (hs : s.transitionJob nextDelay discarded id event = .ok s') : s.Frame id s' := by
  obtain ⟨e, ha, rfl⟩ := transitionJob_arm hs
  have hstep := tokenStep_of_arm ha
  have hlocal : e.Local id := ha.local fun job hjob => hstops.named id job hjob
  -- the token that is cancelled, if one is, is that of the job's own worker
  have hstop {stop : Token} (hne : ∀ job, s.jobs.lookup id = some job → job.state ≠ .running stop) :
      stop ∈ (e.apply s id).stopped ↔ stop ∈ s.stopped := by
    cases hstep with
    | stop hold hstate _ _ _ _ hstop =>
      have : stop ≠ _ := fun he => hne _ hold (he ▸ hstate)
      simp [Effect.apply, hstop, this]
    | start _ _ _ hstop => simp [Effect.apply, hstop]
    | other _ _ hstop => simp [Effect.apply, hstop]
  refine ⟨fun other hne => Jobs.lookup_put_of_ne _ _ hne, QueueOp.filter_apply _ _ _, ?_, ?_, ?_, ?_, rfl,
    e.out, rfl, hlocal.out⟩
  · cases htimer : e.timer <;> simp [Effect.apply, htimer]
  · have hspawn : e.spawn.toList.filter (fun w => w.id ≠ id) = [] :=
      List.filter_eq_nil_iff.mpr fun w hw => by simp [hlocal.spawn w (by simpa using hw)]
    simp only [Effect.apply, List.filter_append, hspawn, List.append_nil]
  · intro w hw hne
    exact hstop fun job hjob hrunning => hne (hstops.own w hw id job hjob hrunning)
  · intro other job stop hne hjob hrunning
    exact hstop fun job' hjob' hrunning' => hne (hagree.tokens.running_unique _ _ _ _ _ hjob hjob' hrunning hrunning')

namespace Frame

variable {s s' s'' : Scheduler}

theorem refl (id : Uuid) (s : Scheduler) : s.Frame id s :=
  ⟨fun _ _ => rfl, rfl, rfl, rfl, fun _ _ _ => .rfl, fun _ _ _ _ _ _ => .rfl, rfl, [], (List.append_nil _).symm, nofun⟩

theorem trans (h : s.Frame id s') (h' : s'.Frame id s'') : s.Frame id s'' where
  jobs other hne := (h'.jobs other hne).trans (h.jobs other hne)
  ready := h'.ready.trans h.ready
  delayed := h'.delayed.trans h.delayed
  workers := h'.workers.trans h.workers
  stops w hw hne := by
    have hmem : w ∈ s'.workers.filter fun w => w.id ≠ id := by
      rw [h.workers]
      exact List.mem_filter.mpr ⟨hw, by simpa using hne⟩
    exact (h'.stops w (List.mem_of_mem_filter hmem) hne).trans (h.stops w hw hne)
  running other job stop hne hjob hrunning :=
    (h'.running other job stop hne ((h.jobs other hne).trans hjob) hrunning).trans
      (h.running other job stop hne hjob hrunning)
  cancelRoot := h'.cancelRoot.trans h.cancelRoot
  sent := by
    obtain ⟨out, hlog, hout⟩ := h.sent
    obtain ⟨out', hlog', hout'⟩ := h'.sent
    refine ⟨out ++ out', by rw [hlog', hlog, List.append_assoc], fun o ho => ?_⟩
    exact (List.mem_append.mp ho).elim (hout o) (hout' o)

/-- What waited for a job is taken out. -/
theorem take (s : Scheduler) {ready : List Uuid} {delayed : List (Uuid × UInt32)} {workers : List Worker}
    (hready : ready.filter (· ≠ id) = s.ready.filter (· ≠ id))
    (hdelayed : (delayed.filter fun timer => timer.1 ≠ id) = s.delayed.filter fun timer => timer.1 ≠ id)
    (hworkers : (workers.filter fun w => w.id ≠ id) = s.workers.filter fun w => w.id ≠ id) :
    s.Frame id { s with ready := ready, delayed := delayed, workers := workers } :=
  ⟨fun _ _ => rfl, hready, hdelayed, hworkers, fun _ _ _ => .rfl, fun _ _ _ _ _ _ => .rfl, rfl, [],
    (List.append_nil _).symm, nofun⟩

end Frame

end Scheduler

namespace Thread

variable {t t' : Thread} {a : Action}

/-- The schedulers `transition_job` is called on in a step. -/
inductive Amid (nextDelay : UInt32 → Except Panic Duration) (t : Thread) : Scheduler → Prop
  /-- For a command. -/
  | command : Amid nextDelay t t.sched
  /-- In the loop of `CancelAll`, when some of the jobs have been cancelled. -/
  | cancelling {discarded : Uuid → Result Unit} {ids : List Uuid} {s : Scheduler}
      (h : t.sched.cancelEach nextDelay discarded ids = .ok s) : Amid nextDelay t s
  /-- A worker has been taken out of `workers`. -/
  | worker {w : Worker} (hw : w ∈ t.sched.workers) :
      Amid nextDelay t { t.sched with workers := t.sched.workers.erase w }
  /-- A timer has been taken out of `delayed`. -/
  | retry {timer : Uuid × UInt32} (h : timer ∈ t.sched.delayed) :
      Amid nextDelay t { t.sched with delayed := t.sched.delayed.erase timer }
  /-- A job has been popped from `ready`. -/
  | dispatch {id : Uuid} {ready : List Uuid} (h : t.sched.ready = id :: ready) :
      Amid nextDelay t { t.sched with ready := ready }

/-- The transition a step makes, unless it is one of the loop of `CancelAll`. -/
def transition? (t : Thread) : Action → Option (Uuid × JobEvent)
  | .command (.pause id ack) _ _ => some (id, .pause ack)
  | .command (.resume id ack) _ _ => some (id, .resume ack)
  | .command (.cancel id) _ _ => some (id, .cancel)
  | .worker w result _ => some (w.id, .worker result)
  | .retry id attempt => some (id, .retryElapsed attempt)
  | .tryDispatch => t.sched.ready.head?.map fun id => (id, .dispatch)
  | _ => none

/-- What every step keeps holds at every call. -/
theorem Amid.of_invariant {P : Scheduler → Prop} (hP : SchedulerInvariant nextDelay P) (ht : Reachable nextDelay t)
    {s : Scheduler} (hs : t.Amid nextDelay s) : P s := by
  have h := hP.reachable ht
  cases hs with
  | command => exact h
  | cancelling hcancel => exact hP.cancelEach h hcancel
  | worker => exact hP.take h rfl rfl rfl rfl (.refl _) List.erase_sublist
  | retry => exact hP.take h rfl rfl rfl rfl (.refl _) (.refl _)
  | dispatch hready => exact hP.take h rfl rfl rfl rfl (hready ▸ List.sublist_cons_self _ _) (.refl _)

theorem Amid.frame (ht : Reachable nextDelay t) {s s' : Scheduler} (hs : t.Amid nextDelay s)
    (h : s.transitionJob nextDelay discarded id event = .ok s') : s.Frame id s' := by
  obtain ⟨hagree, hstops⟩ := hs.of_invariant Scheduler.StopsAgree.invariant ht
  exact Scheduler.frame_of_transitionJob hagree hstops h

/-- **A step that makes a transition concerns its job.** -/
theorem Next.frame (ht : Reachable nextDelay t) (h : t.Next nextDelay a t')
    (ha : t.transition? a = some (id, event)) : t.sched.Frame id t'.sched := by
  have hsubject {id' : Uuid} {event' : JobEvent} (he : some (id', event') = some (id, event)) : id' = id :=
    (Prod.mk.inj (Option.some.inj he)).1
  cases h with
  | cancelRoot | stop | disconnected | close | finish => cases ha
  | @command cmd _ _ _ _ _ _ hs =>
    cases cmd with
    | enqueue | cancelAll | setMaxConcurrent => cases ha
    | pause i | resume i | cancel i =>
      obtain rfl : i = id := hsubject ha
      simp only [Scheduler.handleCmd] at hs
      exact Amid.command.frame ht hs
  | @worker w _ _ _ _ hw _ hs =>
    obtain rfl : w.id = id := hsubject ha
    exact (Scheduler.Frame.take t.sched rfl rfl (filter_erase w (by simp) _)).trans ((Amid.worker hw).frame ht hs)
  | panic => exact .refl _ _
  | @retry i attempt _ _ hmem hs =>
    obtain rfl : i = id := hsubject ha
    have htake : t.sched.Frame i { t.sched with delayed := t.sched.delayed.erase (i, attempt) } :=
      .take t.sched rfl (filter_erase (i, attempt) (by simp) _) rfl
    exact htake.trans ((Amid.retry hmem).frame ht hs)
  | full | empty => exact .refl _ _
  | @dropped i _ _ hready =>
    have ha : some (i, JobEvent.dispatch) = some (id, event) := by simpa [transition?, hready] using ha
    obtain rfl : i = id := hsubject ha
    exact Scheduler.Frame.take t.sched (by simp [hready]) rfl rfl
  | @dispatched i _ _ _ _ hready hs =>
    have ha : some (i, JobEvent.dispatch) = some (id, event) := by simpa [transition?, hready] using ha
    obtain rfl : i = id := hsubject ha
    exact (Scheduler.Frame.take t.sched (by simp [hready]) rfl rfl).trans ((Amid.dispatch hready).frame ht hs)

end Thread

/-- **A transition concerns one job**, for every job and every event, in every reachable state and wherever the thread
has come in a step: when a job has been popped from `ready`, when the result of a worker or a timer has been yielded,
and in the loop of `CancelAll`. With what has been taken out, so does the step. -/
theorem transitionJob_frame {t : Thread} (ht : Thread.Reachable nextDelay t) :
    (∀ s discarded id event s', t.Amid nextDelay s → s.transitionJob nextDelay discarded id event = .ok s' →
      s.Frame id s') ∧
    ∀ a t' id event, t.step nextDelay a = some t' → t.transition? a = some (id, event) → t.sched.Frame id t'.sched :=
  ⟨fun _ _ _ _ _ hs h => hs.frame ht h, fun _ _ _ _ hstep ha => (Thread.next_of_step hstep).frame ht ha⟩

/-- The worker of a download fails that is running, while another waits for its slot. -/
theorem transitionJob_frame_one_slot :
    ∃ t t', Machine.exec (Thread.step backoffStrategy.nextDelay) (.new 1) Thread.oneSlot = some t ∧
      ∃ w ∈ t.sched.workers,
        t.step backoffStrategy.nextDelay (.worker w (.error (.network "reset")) (.ok ())) = some t' ∧
        t'.sched.delayed = [(0, 1)] ∧ { t.sched with workers := t.sched.workers.erase w }.Frame w.id t'.sched ∧
        t.sched.Frame w.id t'.sched := by
  obtain ⟨t, ht, ⟨hw, hstep⟩, hr⟩ := Thread.exists_run backoffStrategy.nextDelay 1 Thread.oneSlot
    (fun t => ⟨0, Thread.sampleRequest, 1, 0⟩ ∈ t.sched.workers ∧ (t.step backoffStrategy.nextDelay
      (.worker ⟨0, Thread.sampleRequest, 1, 0⟩ (.error (.network "reset")) (.ok ()))).any (fun t' : Thread =>
        t'.phase = .dispatching ∧ t'.sched.delayed = [(0, 1)]) = true) (by decide)
  obtain ⟨t', ht', hphase⟩ := (Option.any_eq_true _ _).mp hstep
  obtain ⟨hphase, hdelayed⟩ := of_decide_eq_true hphase
  refine ⟨t, t', ht, _, hw, ht', hdelayed, ?_, (transitionJob_frame hr).2 _ _ _ _ ht' rfl⟩
  cases Thread.next_of_step ht' with
  | worker _ _ hs => exact (transitionJob_frame hr).1 _ _ _ _ _ (.worker hw) hs
  | panic => cases hphase

end DownloadManager
