import DownloadManager.Scheduler.Outcome

/-!
# Replies to `pause` and `resume`

Every `Pause` and `Resume` carries a reply channel with room for one reply. The obligation
to use it is met at once or kept in the waiters of a pausing job. The accounting is an
equation of multisets for each identifier: the channels received are those answered and
those waiting (`accounted_viewInvariant`). What a reply says is read off the arms
(`Answer`).
-/

namespace DownloadManager

variable {nextDelay : UInt32 → Except Panic Duration} {t t' : Thread} {id : Uuid}

/-! ### Accounting -/

/-- The channels received are those answered and those waiting. -/
def View.Accounted (v : View) : Prop := v.acks.Perm (v.replied ++ v.waiters)

/-- The reply channel an event brings. -/
def JobEvent.ack? : JobEvent → Option Sender
  | .pause ack | .resume ack => some ack
  | _ => none

/-- Only a pausing job has waiters. -/
theorem Job.waiters_eq_nil {job : Job} (h : ∀ waiters, job.state ≠ .pausing waiters) : job.waiters = [] := by
  unfold waiters
  split
  · exact absurd ‹_› (h _)
  · rfl

theorem Job.waiters_of_idle {job : Job} (h : job.state.idle) : job.waiters = [] :=
  job.waiters_eq_nil fun waiters hs => by simp [hs, JobState.idle] at h

section

variable {discarded : Result Unit} {token : Token} {job : Option Job} {event : JobEvent} {e : Effect}

/-- **No channel is dropped**: what an arm answers and what it leaves waiting is what waited
and what the event brought. -/
theorem Arm.waiters_perm (h : Arm nextDelay discarded token id job event e) :
    (e.out.filterMap View.replied? ++ e.job.elim [] Job.waiters).Perm
      (job.elim [] Job.waiters ++ event.ack?.toList) := by
  cases h with
  | unknown hne =>
    cases event with
    | pause ack => exact absurd rfl (hne ack).1
    | resume ack => exact absurd rfl (hne ack).2
    | dispatch | retryElapsed | cancel | worker => simp [JobEvent.ack?]
  | unknownAck hack => rcases hack with rfl | rfl <;> simp [View.replied?, JobEvent.ack?]
  | resumeLive | resumeBusy => simpa [View.replied?, JobEvent.ack?] using (List.perm_append_singleton _ _).symm
  | cancelIdle hj => simp [Job.waiters_of_idle hj, JobEvent.ack?]
  | cancelPausing hj =>
    simp [hj, View.replied?, Job.waiters, List.filterMap_map, List.filterMap_cons, Function.comp_def, JobEvent.ack?]
  | retry hj =>
    rw [Option.elim_some, Option.elim_some, Job.waiters_eq_nil (by simp),
      Job.waiters_eq_nil fun waiters hs => by simp [hs, JobState.plain] at hj]
    simp [View.replied?, JobEvent.ack?]
  | _ => simp_all [View.replied?, Job.waiters, JobEvent.ack?, List.filterMap_cons]

end

theorem Takes.acks_eq {event : JobEvent} {v v' : View} (h : Takes id event v v') :
    v'.acks = v.acks ++ event.ack?.toList ∧ v'.replied = v.replied ∧ v'.waiters = v.waiters := by
  cases h <;> simp [View.acks, View.replied, View.waiters, SchedulerCmd.ack?, JobEvent.ack?]

/-- **The accounts are in order**, in every state of every run. -/
theorem accounted_viewInvariant : ViewInvariant nextDelay fun _ _ v => v.Accounted where
  empty := fun _ => by simp [View.Accounted, View.acks, View.replied, View.waiters, View.empty]
  cancelRoot := fun _ h => h
  enqueue := by
    intro root id v request progressTx resultTx hv h hnew
    have hjob := (hv.unborn hnew).1
    simpa [View.Accounted, View.acks, View.replied, View.waiters, View.enqueued, hjob, SchedulerCmd.ack?,
      View.replied?, Job.waiters, List.filterMap_cons] using h
  arm := by
    intro root id v v' event e discarded token _ h ht ha
    obtain ⟨hacks, hreplied, hwaiters⟩ := ht.acks_eq
    have hold : v'.acks.Perm (v'.replied ++ (v'.waiters ++ event.ack?.toList)) := by
      rw [hacks, hreplied, hwaiters, ← List.append_assoc]
      exact h.append_right _
    have hnew := hold.trans (ha.waiters_perm.symm.append_left v'.replied)
    rw [← List.append_assoc, ← View.replied_act] at hnew
    exact hnew
  drop := fun _ h _ => h
  clear := fun _ h _ => h

/-! ### Channels are fresh -/

/-- No channel comes with two commands. -/
theorem acks_nodup (ht : Thread.Reachable nextDelay t) : (t.handled.filterMap SchedulerCmd.ack?).Nodup := by
  refine Machine.Reachable.induct (P := fun t => (t.handled.filterMap SchedulerCmd.ack?).Nodup) ?_ ?_ ht
  · rintro t ⟨maxConcurrent, rfl⟩
    exact .nil
  · intro t a t' _ ih h
    cases Thread.next_of_step h with
    | @command cmd _ _ _ _ hfresh =>
      rw [List.filterMap_append, List.nodup_append']
      cases hack : cmd.ack? with
      | none => simpa [hack] using ih
      | some ack =>
        refine ⟨ih, by simp [hack], ?_⟩
        simp only [List.filterMap_cons, hack, List.filterMap_nil, List.disjoint_singleton, List.mem_filterMap, not_exists,
          not_and]
        exact fun c hc hca => hfresh.2 c hc (by simp [hack]) (hca.trans hack.symm)
    | _ => exact ih

/-- A channel comes with one command. -/
theorem ack_unique (ht : Thread.Reachable nextDelay t) {c c' : SchedulerCmd} {ack : Sender} (hc : c ∈ t.handled)
    (hc' : c' ∈ t.handled) (h : c.ack? = some ack) (h' : c'.ack? = some ack) : c = c' := by
  by_contra hne
  have hpair := List.pairwise_filterMap.mp (acks_nodup ht)
  have : Std.Symm fun c c' : SchedulerCmd => ∀ b, c.ack? = some b → ∀ b', c'.ack? = some b' → b ≠ b' :=
    ⟨fun _ _ h b hb b' hb' heq => h b' hb' b hb heq.symm⟩
  exact hpair.forall hc hc' hne ack h ack h' rfl

/-- The command a reply answers. -/
theorem command_of_reply (ht : Thread.Reachable nextDelay t) {id : Uuid} {ack : Sender} {reply : Result Unit}
    (h : .ack id ack reply ∈ t.sched.log) : ∃ c ∈ t.handled, c.id? = some id ∧ c.ack? = some ack := by
  have hreplied : ack ∈ (t.view id).replied :=
    List.mem_filterMap.mpr ⟨_, List.mem_filter.mpr ⟨h, by simp [Output.id]⟩, rfl⟩
  have hmem : ack ∈ (t.view id).acks :=
    (accounted_viewInvariant.reachable ht id).mem_iff.mpr (List.mem_append_left _ hreplied)
  obtain ⟨c, hc, hack⟩ := List.mem_filterMap.mp hmem
  obtain ⟨hc, hid⟩ := List.mem_filter.mp hc
  exact ⟨c, hc, by simpa using hid, hack⟩

theorem count_replied_filter (id : Uuid) (ack : Sender) (log : List Output)
    (h : ∀ o ∈ log, View.replied? o = some ack → o.id = id) :
    (log.filterMap View.replied?).count ack = ((log.filter fun o => o.id = id).filterMap View.replied?).count ack := by
  induction log with
  | nil => rfl
  | cons o l ih =>
    have ih := ih fun o ho => h o (List.mem_cons_of_mem _ ho)
    have ho := h o List.mem_cons_self
    cases hr : View.replied? o with
    | none => by_cases hid : o.id = id <;> simp [hr, hid, ih]
    | some ack' =>
      by_cases hid : o.id = id
      · simp [hr, hid, ih, List.count_cons]
      · have hne : ack' ≠ ack := fun heq => hid (ho (hr.trans (congrArg some heq)))
        simp [hr, hid, ih, hne]

/-- How often a channel has been answered. -/
def Thread.replies (t : Thread) (ack : Sender) : ℕ := (t.sched.log.filterMap View.replied?).count ack

/-- The channels waiting for a job to be paused. -/
def Thread.waiters (t : Thread) (id : Uuid) : List Sender := (t.sched.jobs.lookup id).elim [] Job.waiters

/-- **Every channel is answered once or waits**, in the record of a pausing job. -/
theorem replies_add_waiters (ht : Thread.Reachable nextDelay t) {cmd : SchedulerCmd} {ack : Sender}
    (hcmd : cmd ∈ t.handled) (hid : cmd.id? = some id) (hack : cmd.ack? = some ack) :
    t.replies ack + (t.waiters id).count ack = 1 := by
  have hlog : ∀ o ∈ t.sched.log, View.replied? o = some ack → o.id = id := by
    intro o ho hr
    cases o with
    | ack id' ack' reply =>
      cases hr
      obtain ⟨c, hc, hcid, hca⟩ := command_of_reply ht ho
      obtain rfl := ack_unique ht hc hcmd hca hack
      exact Option.some.inj (hcid.symm.trans hid)
    | event | result => cases hr
  have hone : (t.view id).acks.count ack = 1 := by
    refine List.count_eq_one_of_mem ?_ ?_
    · exact (acks_nodup ht).sublist (List.filter_sublist.filterMap _)
    · exact List.mem_filterMap.mpr ⟨cmd, List.mem_filter.mpr ⟨hcmd, by simp [hid]⟩, hack⟩
  have hperm := (accounted_viewInvariant.reachable ht id).count_eq ack
  rw [hone, List.count_append] at hperm
  rw [Thread.replies, count_replied_filter id ack _ hlog]
  exact hperm.symm

/-! ### What a reply says -/

/-- Why an arm replies what it does. -/
inductive Answer (id : Uuid) (ack : Sender) (job : Option Job) (event : JobEvent) (e : Effect) : Result Unit → Prop
  /-- The job is paused. -/
  | paused (h : ∃ j ∈ e.job, j.state = .paused) : Answer id ack job event e (.ok ())
  /-- The caller wants the job resumed. -/
  | resumed (h : event = .resume ack) : Answer id ack job event e (.ok ())
  /-- The job is completed. -/
  | completed (h : ∃ j ∈ job, .event j.id .completed ∈ e.out) : Answer id ack job event e (.ok ())
  /-- There is no such job. -/
  | unknown (h : job = none) : Answer id ack job event e (.error (Scheduler.unknownDownload id))
  /-- The job is being paused or cancelled. -/
  | busy {text : String} : Answer id ack job event e (.error (.invalidRequest text))
  /-- The job is being cancelled now. -/
  | cancelled (h : event = .cancel) : Answer id ack job event e (.error .cancelled)
  /-- The job has failed, and is over. -/
  | failed {error : Error} (h : event = .worker (.error error)) (hjob : e.job = none) :
      Answer id ack job event e (.error error)

section

variable {discarded : Result Unit} {token : Token} {job : Option Job} {event : JobEvent} {e : Effect}

theorem Job.mem_finalize {job : Job} {result : Result DownloadResult} {i : Uuid} {ack : Sender} {reply : Result Unit}
    (h : .ack i ack reply ∈ job.finalize result) : ack ∈ job.waiters ∧ reply = replyOf result := by
  rw [Job.finalize_eq, List.mem_append, List.mem_cons, Job.answer, List.mem_map] at h
  rcases h with ⟨waiter, hw, heq⟩ | heq | h
  · cases heq; exact ⟨hw, rfl⟩
  · cases heq
  · obtain ⟨tx, -, heq⟩ := List.mem_map.mp h
    cases heq

/-- **What a reply says**, by the arm that sends it. -/
theorem Arm.answer (h : Arm nextDelay discarded token id job event e)
    {i : Uuid} {ack : Sender} {reply : Result Unit} (hmem : .ack i ack reply ∈ e.out) :
    Answer id ack job event e reply := by
  have hnone {j : Job} (hj : ∀ waiters, j.state ≠ .pausing waiters) {result : Result DownloadResult}
      (h : .ack i ack reply ∈ j.finalize result) : False := by
    have := (Job.mem_finalize h).1
    simp [Job.waiters_eq_nil hj] at this
  cases h with
  | unknown | notQueued | stale | requeue | start | pauseRunning | pausePausing | cancelRunning | cancelAgain | retry =>
    simp at hmem
  | unknownAck => simp at hmem; obtain ⟨-, -, rfl⟩ := hmem; exact .unknown rfl
  | pauseQueued | pauseRetrying => simp at hmem; obtain ⟨-, -, rfl⟩ := hmem; exact .paused ⟨_, rfl, rfl⟩
  | pausePaused hj => simp at hmem; obtain ⟨-, -, rfl⟩ := hmem; exact .paused ⟨_, rfl, hj⟩
  | pauseCancelling | resumeBusy => simp at hmem; obtain ⟨-, -, rfl⟩ := hmem; exact .busy
  | resumePaused | resumeLive => simp at hmem; obtain ⟨-, rfl, rfl⟩ := hmem; exact .resumed rfl
  | cancelIdle hj => exact (hnone (fun waiters hs => by simp [hs, JobState.idle] at hj) hmem).elim
  | cancelPausing => simp at hmem; obtain ⟨-, -, rfl⟩ := hmem; exact .cancelled rfl
  | finished =>
    obtain ⟨-, rfl⟩ := Job.mem_finalize hmem
    exact .completed ⟨_, rfl, by simp [Job.finalize_eq, kindOf]⟩
  | cancelled hj | stopped hj => exact (hnone (by simp [hj]) hmem).elim
  | invalid hj => exact (hnone (fun waiters hs => by simp [hs, JobState.idle] at hj) hmem).elim
  | paused | pausedRetry => simp [Job.answer] at hmem; obtain ⟨-, -, rfl⟩ := hmem; exact .paused ⟨_, rfl, rfl⟩
  | failed =>
    obtain ⟨-, rfl⟩ := Job.mem_finalize hmem
    exact .failed rfl rfl

end

/-- `Cancel` replies to the waiters of a pausing job only. -/
theorem Arm.cancel_reply {discarded : Result Unit} {token : Token} {job : Option Job} {e : Effect}
    (h : Arm nextDelay discarded token id job .cancel e) {i : Uuid} {ack : Sender} {reply : Result Unit}
    (hmem : .ack i ack reply ∈ e.out) : reply = .error .cancelled := by
  cases h with
  | unknownAck hack => rcases hack with hack | hack <;> cases hack
  | cancelPausing => simp at hmem; exact hmem.2.2.symm
  | cancelIdle hj =>
    have := (Job.mem_finalize hmem).1
    simp [Job.waiters_of_idle hj] at this
  | _ => simp at hmem

/-- The event an action hands to `transition_job`, unless it comes from `ready` or `CancelAll`. -/
def Action.event? : Action → Option (Uuid × JobEvent)
  | .command (.pause id ack) _ _ => some (id, .pause ack)
  | .command (.resume id ack) _ _ => some (id, .resume ack)
  | .command (.cancel id) _ _ => some (id, .cancel)
  | .worker w result _ => some (w.id, .worker result)
  | .retry id attempt => some (id, .retryElapsed attempt)
  | _ => none

theorem Action.eq_worker {a : Action} {result : Result WorkerResult} (h : a.event? = some (id, .worker result)) :
    ∃ w discarded, a = .worker w result discarded ∧ w.id = id := by
  unfold event? at h
  split at h <;> cases h
  exact ⟨_, _, rfl, rfl⟩

theorem Action.eq_resume {a : Action} {ack : Sender} (h : a.event? = some (id, .resume ack)) :
    ∃ discarded order, a = .command (.resume id ack) discarded order := by
  unfold event? at h
  split at h <;> cases h
  exact ⟨_, _, rfl⟩

/-- A `Resume` that is handled has been received. -/
theorem Thread.Next.mem_handled_of_resume {a : Action} {ack : Sender} (h : t.Next nextDelay a t')
    (ha : a.event? = some (id, .resume ack)) : .resume id ack ∈ t'.handled := by
  obtain ⟨discarded, order, rfl⟩ := Action.eq_resume ha
  rw [h.handled_eq]
  exact List.mem_append_right _ (List.mem_singleton.mpr rfl)

/-- What a step sends: no reply, what one arm sends, or what `CancelAll` sends. -/
inductive Thread.Sends (nextDelay : UInt32 → Except Panic Duration) (t : Thread) (a : Action) (t' : Thread)
    (out : List Output) : Prop
  /-- No reply. -/
  | quiet (h : ∀ o ∈ out, View.replied? o = none)
  /-- What an arm sends. -/
  | arm {id : Uuid} {event : JobEvent} {e : Effect} {discarded : Result Unit} {token : Token}
      (h : Arm nextDelay discarded token id (t.sched.jobs.lookup id) event e) (hout : out = e.out)
      (hjob : t'.sched.jobs.lookup id = e.job) (ha : event = .dispatch ∨ a.event? = some (id, event))
  /-- What the turns of `CancelAll` send. -/
  | cancelAll (h : ∀ i ack reply, .ack i ack reply ∈ out → reply = .error .cancelled)

theorem Scheduler.cancelEach_replies {discarded : Uuid → Result Unit} {order : List Uuid} {s s' : Scheduler}
    (h : s.cancelEach nextDelay discarded order = .ok s') :
    ∃ out, s'.log = s.log ++ out ∧ ∀ i ack reply, .ack i ack reply ∈ out → reply = .error .cancelled := by
  obtain ⟨out, hlog, hout⟩ := cancelEach_log (Q := fun o => ∀ i ack reply, o = .ack i ack reply → reply = .error .cancelled)
    (fun harm o hmem i ack reply ho => harm.cancel_reply (ho ▸ hmem)) h
  exact ⟨out, hlog, fun i ack reply hmem => hout _ hmem i ack reply rfl⟩

/-- **What a step sends.** -/
theorem Thread.Next.sends {a : Action} (h : t.Next nextDelay a t') :
    ∃ out, t'.sched.log = t.sched.log ++ out ∧ Sends nextDelay t a t' out := by
  -- a transition from a scheduler that differs from `t` only in what the event was taken from
  have htransition {s s' : Scheduler} {discarded : Result Unit} {id : Uuid} {event : JobEvent}
      (hs : s.transitionJob nextDelay discarded id event = .ok s') (hjobs : s.jobs = t.sched.jobs)
      (hlog : s.log = t.sched.log) (ha : event = .dispatch ∨ a.event? = some (id, event)) (ht' : t'.sched = s') :
      ∃ out, t'.sched.log = t.sched.log ++ out ∧ Sends nextDelay t a t' out := by
    obtain ⟨e, harm, rfl⟩ := Scheduler.transitionJob_arm hs
    exact ⟨e.out, by rw [ht', ← hlog]; rfl, .arm (hjobs ▸ harm) rfl (by rw [ht']; simp [Effect.apply]) ha⟩
  cases h with
  | cancelRoot | stop | disconnected | panic | full | empty | dropped | finish =>
    exact ⟨[], by simp, .quiet (by simp)⟩
  | worker _ _ hs => exact htransition hs rfl rfl (.inr rfl) rfl
  | retry _ _ hs => exact htransition hs rfl rfl (.inr rfl) rfl
  | dispatched _ _ _ hs => exact htransition hs rfl rfl (.inl rfl) rfl
  | close _ _ hs =>
    simp only [Scheduler.handleCmd] at hs
    split at hs <;> cases hs
    rename_i s₁ h₁
    obtain ⟨out, hlog, hout⟩ := Scheduler.cancelEach_replies h₁
    exact ⟨out, hlog, .cancelAll hout⟩
  | @command cmd _ _ s' _ _ _ hs =>
    cases cmd with
    | enqueue id => cases hs; exact ⟨[.event id .queued], rfl, .quiet (by simp [View.replied?])⟩
    | setMaxConcurrent => cases hs; exact ⟨[], by simp, .quiet (by simp)⟩
    | pause | resume | cancel =>
      simp only [Scheduler.handleCmd] at hs
      exact htransition hs rfl rfl (.inr rfl) rfl
    | cancelAll =>
      simp only [Scheduler.handleCmd] at hs
      split at hs <;> cases hs
      rename_i s₁ h₁
      obtain ⟨out, hlog, hout⟩ := Scheduler.cancelEach_replies h₁
      exact ⟨out, hlog, .cancelAll hout⟩

/-- A download that has been made and has no record is over. -/
theorem over_of_lookup (ht : Thread.Reachable nextDelay t) {request : Request} {progressTx tx : Sender}
    (h : .enqueue id request progressTx tx ∈ t.handled) (hjob : t.sched.jobs.lookup id = none) :
    ∃ value, (t.view id).results = [(tx, value)] := by
  have hmem : SchedulerCmd.enqueue id request progressTx tx ∈ (t.view id).cmds :=
    List.mem_filter.mpr ⟨h, by simp [SchedulerCmd.id?]⟩
  obtain ⟨-, -, -, hu | ho⟩ := (inv_none (v := t.view id) hjob).mp (inv_of_reachable ht id)
  · exact absurd (hu.cmds _ hmem) (by simp [SchedulerCmd.enqueues])
  · obtain ⟨request', tx', value, ⟨progressTx', hasked⟩, hresults, -⟩ := ho.result
    obtain rfl := (birth_unique ht h hasked).2
    exact ⟨value, hresults⟩

/-- **The law of replies.** Every channel that came with a `Pause` or `Resume` is answered once
or waits in the record of a pausing job, so it is answered once when `run` returns. A
`Pause` is answered `Ok` when the job is paused, without a worker, or completed; a caller
is told that a download that has been made is unknown only if its result has been sent, or
is sent now because a worker failed with these very words. -/
theorem pause_and_resume_answered (ht : Thread.Reachable nextDelay t) :
    (∀ cmd ∈ t.handled, ∀ id ack, cmd.id? = some id → cmd.ack? = some ack →
      t.replies ack + (t.waiters id).count ack = 1 ∧ (t.phase = .returned → t.replies ack = 1)) ∧
    ∀ a t', t.step nextDelay a = some t' → ∃ out, t'.sched.log = t.sched.log ++ out ∧ ∀ id ack,
      (.ack id ack (.ok ()) ∈ out → .pause id ack ∈ t'.handled →
        (∃ job, t'.sched.jobs.lookup id = some job ∧ job.state = .paused ∧ id ∉ t'.sched.workers.map Worker.id) ∨
          .event id .completed ∈ out) ∧
      (.ack id ack (.error (Scheduler.unknownDownload id)) ∈ out →
        ∀ request progressTx tx, .enqueue id request progressTx tx ∈ t.handled →
          (∃ value, (t.view id).results = [(tx, value)]) ∨
            ∃ w discarded, a = .worker w (.error (Scheduler.unknownDownload id)) discarded ∧ w.id = id ∧
              ∃ value, (t'.view id).results = [(tx, value)]) := by
  refine ⟨fun cmd hcmd id ack hid hack => ?_, fun a t' h => ?_⟩
  · have hsum := replies_add_waiters ht hcmd hid hack
    refine ⟨hsum, fun hp => ?_⟩
    have hwaiters : t.waiters id = [] := by simp [Thread.waiters, (nothing_left ht hp).1]
    simpa [hwaiters] using hsum
  · have hnext := Thread.next_of_step h
    have ht' := ht.step h
    obtain ⟨out, hlog, hsends⟩ := hnext.sends
    refine ⟨out, hlog, fun id ack => ?_⟩
    cases hsends with
    | quiet hq => exact ⟨fun hmem => by simpa [View.replied?] using hq _ hmem,
      fun hmem => by simpa [View.replied?] using hq _ hmem⟩
    | cancelAll hc => exact ⟨fun hmem => by simpa using hc _ _ _ hmem,
      fun hmem => by simpa [Scheduler.unknownDownload] using hc _ _ _ hmem⟩
    | @arm i event e _ _ harm hout hjob ha =>
      subst hout
      have hlocal := harm.local fun job hj => ((inv_some (v := t.view i) hj).mp (inv_of_reachable ht i)).id_eq
      refine ⟨fun hmem hpause => ?_, fun hmem request progressTx tx henqueue => ?_⟩
      · obtain rfl : id = i := hlocal.out _ hmem
        cases harm.answer hmem with
        | paused hp =>
          obtain ⟨j, hj, hs⟩ := hp
          refine .inl ⟨j, hjob.trans hj, hs, fun hw => ?_⟩
          obtain ⟨j', hj', hactive⟩ := ((workersAgree_of_reachable ht').mem_iff id).mp hw
          obtain rfl : j' = j := Option.some.inj (hj'.symm.trans (hjob.trans hj))
          simp [hs, JobState.active] at hactive
        | resumed hr =>
          subst hr
          have hresume := hnext.mem_handled_of_resume (ha.resolve_left (by simp))
          cases ack_unique ht' hpause hresume rfl rfl
        | completed hc =>
          obtain ⟨j, -, hmem'⟩ := hc
          obtain rfl : j.id = id := hlocal.out _ hmem'
          exact .inr hmem'
      · obtain rfl : id = i := hlocal.out _ hmem
        have hanswer := harm.answer hmem
        generalize hr : (Except.error (Scheduler.unknownDownload id) : Result Unit) = reply at hanswer
        cases hanswer with
        | paused | resumed | completed | busy | cancelled => cases hr
        | unknown hj => exact .inl (over_of_lookup ht henqueue hj)
        | failed hevent hj =>
          cases hr
          subst hevent
          refine .inr ?_
          obtain ⟨w, discarded, rfl, hw⟩ := Action.eq_worker (ha.resolve_left (by simp))
          exact ⟨w, discarded, rfl, hw, over_of_lookup ht' (by rw [hnext.handled_eq]; exact List.mem_append_left _ henqueue)
            (hjob.trans hj)⟩

/-- For a pause of a download that waits for a retry. -/
theorem pause_and_resume_answered_failing_twice :
    ∃ t, Machine.exec (Thread.step backoffStrategy.nextDelay) (.new 1) Thread.failingTwiceThenStopped = some t ∧
      (t.phase = .returned ∧ .pause 0 3 ∈ t.handled) ∧ t.replies 3 = 1 := by
  obtain ⟨t, ht, ⟨hp, hmem⟩, hr⟩ := Thread.exists_run backoffStrategy.nextDelay 1 Thread.failingTwiceThenStopped
    (fun t => t.phase = .returned ∧ .pause 0 3 ∈ t.handled) (by decide)
  exact ⟨t, ht, ⟨hp, hmem⟩, ((pause_and_resume_answered hr).1 _ hmem 0 3 rfl rfl).2 hp⟩

end DownloadManager
