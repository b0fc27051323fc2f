import DownloadManager.Scheduler.Collections

/-!
# Stop tokens

`Dispatch` hands out a fresh child token; `Pause` and `Cancel` cancel the one of the running
worker and take the job out of `Running`. So no token is handed out twice, and a job is never
`Running` with a token that has been cancelled (`TokensAgree`). With the invariant of each
identifier, the pending worker of a running job has its token (`stop_eq`), and a worker is
tagged with the request of its job (`request_eq`).
-/

namespace DownloadManager

/-- The tokens that have been handed out, those in use, and those cancelled. -/
structure Scheduler.TokensAgree (s : Scheduler) : Prop where
  /-- What is cancelled has been handed out. -/
  stopped_lt : ∀ token ∈ s.stopped, token < s.tokens
  /-- So has what a worker has. -/
  worker_lt : ∀ w ∈ s.workers, w.stop < s.tokens
  /-- So has what a running job has. -/
  running_lt : ∀ id job stop, s.jobs.lookup id = some job → job.state = .running stop → stop < s.tokens
  /-- No two running jobs have one token. -/
  running_unique : ∀ id id' job job' stop, s.jobs.lookup id = some job → s.jobs.lookup id' = some job' →
    job.state = .running stop → job'.state = .running stop → id = id'
  /-- A running job has not been asked to stop. -/
  running_not_stopped : ∀ id job stop, s.jobs.lookup id = some job → job.state = .running stop → stop ∉ s.stopped

/-- The request a worker was started with is that of its job. -/
def Scheduler.RequestsAgree (s : Scheduler) : Prop :=
  ∀ w ∈ s.workers, ∀ job, s.jobs.lookup w.id = some job → w.request = job.request

namespace Scheduler

variable {nextDelay : UInt32 → Except Panic Duration} {s s' : Scheduler} {discarded : Result Unit} {id : Uuid}
  {event : JobEvent}

/-- No job begins to run, and no worker is started. -/
theorem TokensAgree.of_running (h : s.TokensAgree) (htokens : s'.tokens = s.tokens) (hstopped : s'.stopped = s.stopped)
    (hworkers : ∀ w ∈ s'.workers, w ∈ s.workers)
    (hrunning : ∀ id job stop, s'.jobs.lookup id = some job → job.state = .running stop →
      ∃ old, s.jobs.lookup id = some old ∧ old.state = .running stop) : s'.TokensAgree where
  stopped_lt := by
    rw [htokens, hstopped]
    exact h.stopped_lt
  worker_lt w hw := htokens ▸ h.worker_lt w (hworkers w hw)
  running_lt id job stop hj hs := by
    obtain ⟨old, hold, hs⟩ := hrunning id job stop hj hs
    exact htokens ▸ h.running_lt id old stop hold hs
  running_unique id id' job job' stop hj hj' hs hs' := by
    obtain ⟨old, hold, hs⟩ := hrunning id job stop hj hs
    obtain ⟨old', hold', hs'⟩ := hrunning id' job' stop hj' hs'
    exact h.running_unique _ _ _ _ _ hold hold' hs hs'
  running_not_stopped id job stop hj hs := by
    obtain ⟨old, hold, hs⟩ := hrunning id job stop hj hs
    exact hstopped ▸ h.running_not_stopped id old stop hold hs

/-- Fewer workers, and other queues. -/
theorem TokensAgree.congr (h : s.TokensAgree) (htokens : s'.tokens = s.tokens) (hstopped : s'.stopped = s.stopped)
    (hjobs : s'.jobs = s.jobs) (hworkers : ∀ w ∈ s'.workers, w ∈ s.workers) : s'.TokensAgree :=
  h.of_running htokens hstopped hworkers fun _ job _ hj hs => ⟨job, hjobs ▸ hj, hs⟩

/-- The next token is handed out, to a worker and its job. -/
theorem TokensAgree.handOut (h : s.TokensAgree) (htokens : s'.tokens = s.tokens + 1)
    (hstopped : s'.stopped = s.stopped) (hworkers : ∀ w ∈ s'.workers, w ∈ s.workers ∨ w.stop = s.tokens)
    (hrunning : ∀ other job stop, s'.jobs.lookup other = some job → job.state = .running stop →
      other = id ∧ stop = s.tokens ∨ s.jobs.lookup other = some job) : s'.TokensAgree where
  stopped_lt token ht := by
    rw [hstopped] at ht
    rw [htokens]
    exact Nat.lt_succ_of_lt (h.stopped_lt token ht)
  worker_lt w hw := by
    rw [htokens]
    rcases hworkers w hw with hw | hw
    · exact Nat.lt_succ_of_lt (h.worker_lt w hw)
    · rw [hw]
      exact Nat.lt_succ_self _
  running_lt other job stop hj hs := by
    rw [htokens]
    rcases hrunning _ _ _ hj hs with ⟨-, rfl⟩ | hold
    · exact Nat.lt_succ_self _
    · exact Nat.lt_succ_of_lt (h.running_lt _ _ _ hold hs)
  running_unique i i' job job' stop hj hj' hs hs' := by
    -- every other running job has an older one
    rcases hrunning _ _ _ hj hs with ⟨hi, hstop⟩ | hold
    · rcases hrunning _ _ _ hj' hs' with ⟨hi', -⟩ | hold'
      · exact hi.trans hi'.symm
      · exact absurd hstop (Nat.ne_of_lt (h.running_lt _ _ _ hold' hs'))
    · rcases hrunning _ _ _ hj' hs' with ⟨-, hstop⟩ | hold'
      · exact absurd hstop (Nat.ne_of_lt (h.running_lt _ _ _ hold hs))
      · exact h.running_unique _ _ _ _ _ hold hold' hs hs'
  running_not_stopped other job stop hj hs := by
    rw [hstopped]
    rcases hrunning _ _ _ hj hs with ⟨-, rfl⟩ | hold
    · exact fun hmem => absurd (h.stopped_lt _ hmem) (Nat.lt_irrefl _)
    · exact h.running_not_stopped _ _ _ hold hs

/-- The token of a running job is cancelled, and the job does not run any more. -/
theorem TokensAgree.cancelToken (h : s.TokensAgree) {job : Job} {token : Token} (hold : s.jobs.lookup id = some job)
    (hstate : job.state = .running token) (htokens : s'.tokens = s.tokens)
    (hstopped : s'.stopped = insert token s.stopped) (hworkers : ∀ w ∈ s'.workers, w ∈ s.workers)
    (hrunning : ∀ other job stop, s'.jobs.lookup other = some job → job.state = .running stop →
      other ≠ id ∧ s.jobs.lookup other = some job) : s'.TokensAgree where
  stopped_lt t ht := by
    rw [hstopped] at ht
    rw [htokens]
    rcases Finset.mem_insert.mp ht with rfl | ht
    · exact h.running_lt _ _ _ hold hstate
    · exact h.stopped_lt t ht
  worker_lt w hw := htokens ▸ h.worker_lt w (hworkers w hw)
  running_lt other job stop hj hs := htokens ▸ h.running_lt _ _ _ (hrunning _ _ _ hj hs).2 hs
  running_unique i i' job job' stop hj hj' hs hs' :=
    h.running_unique _ _ _ _ _ (hrunning _ _ _ hj hs).2 (hrunning _ _ _ hj' hs').2 hs hs'
  running_not_stopped other job stop hj hs hmem := by
    obtain ⟨hne, hj⟩ := hrunning _ _ _ hj hs
    rw [hstopped] at hmem
    rcases Finset.mem_insert.mp hmem with rfl | hmem
    · exact hne (h.running_unique _ _ _ _ _ hj hold hs hstate)
    · exact h.running_not_stopped _ _ _ hj hs hmem

/-- What an arm does to the tokens: it starts a worker with the next one, it cancels that of its job and takes
the job out of `Running`, or it leaves them alone. -/
inductive TokenStep (s : Scheduler) (id : Uuid) (job? : Option Job) (e : Effect) : Prop
  /-- A worker is started. -/
  | start {job : Job} (hold : job? = some job) (hnew : e.job = some { job with state := .running s.tokens })
      (hspawn : e.spawn = some ⟨id, job.request, job.progressTx, s.tokens⟩) (hstop : e.stop = none)
  /-- A worker is asked to stop. -/
  | stop {job job' : Job} {token : Token} (hold : job? = some job) (hstate : job.state = .running token)
      (hnew : e.job = some job') (hstate' : ∀ stop, job'.state ≠ .running stop) (hrequest : job'.request = job.request)
      (hspawn : e.spawn = none) (hstop : e.stop = some token)
  /-- Neither; a job that is running was so before. -/
  | other (hnew : ∀ job' ∈ e.job, ∃ job, job? = some job ∧ job'.request = job.request ∧
        ∀ stop, job'.state = .running stop → job.state = .running stop)
      (hspawn : e.spawn = none) (hstop : e.stop = none)

theorem tokenStep_of_arm {job? : Option Job} {e : Effect} (h : Arm nextDelay discarded s.tokens id job? event e) :
    s.TokenStep id job? e := by
  cases h with
  | start => exact .start rfl rfl rfl rfl
  | pauseRunning h | cancelRunning h => exact .stop rfl h rfl (by simp) rfl rfl rfl
  | notQueued | stale | pausePaused | pauseCancelling | resumeLive | resumeBusy | cancelAgain =>
    exact .other (fun _ hj => by cases hj; exact ⟨_, rfl, rfl, fun _ h => h⟩) rfl rfl
  | requeue | pauseQueued | pauseRetrying | pausePausing | resumePaused | cancelPausing | paused | pausedRetry
  | retry =>
    exact .other (fun _ hj => by cases hj; exact ⟨_, rfl, rfl, by simp⟩) rfl rfl
  | unknown | unknownAck | cancelIdle | finished | cancelled | stopped | failed | invalid =>
    exact .other (by simp) rfl rfl

/-- **An arm keeps the agreement of the tokens.** -/
theorem TokensAgree.apply {e : Effect} (h : s.TokensAgree) (hstep : s.TokenStep id (s.jobs.lookup id) e) :
    (e.apply s id).TokensAgree := by
  have hother {other : Uuid} {job : Job} (hne : other ≠ id) (hj : (e.apply s id).jobs.lookup other = some job) :
      s.jobs.lookup other = some job := (Jobs.lookup_put_of_ne s.jobs e.job hne).symm.trans hj
  have hself {job : Job} (hj : (e.apply s id).jobs.lookup id = some job) : e.job = some job :=
    (Jobs.lookup_put_self s.jobs id e.job).symm.trans hj
  cases hstep with
  | @start job hold hnew hspawn hstop =>
    have hrunning (other : Uuid) (job' : Job) (stop : Token) (hj : (e.apply s id).jobs.lookup other = some job')
        (hs : job'.state = .running stop) : other = id ∧ stop = s.tokens ∨ s.jobs.lookup other = some job' := by
      by_cases hne : other = id
      · subst hne
        cases hnew.symm.trans (hself hj)
        cases hs
        exact .inl ⟨rfl, rfl⟩
      · exact .inr (hother hne hj)
    refine h.handOut (by simp [Effect.apply, hspawn]) (by simp [Effect.apply, hstop]) (fun w hw => ?_) hrunning
    simp only [Effect.apply, hspawn, Option.toList_some, List.mem_append, List.mem_singleton] at hw
    exact hw.imp_right fun he => by rw [he]
  | stop hold hstate hnew hstate' hrequest hspawn hstop =>
    refine h.cancelToken hold hstate (by simp [Effect.apply, hspawn]) (by simp [Effect.apply, hstop])
      (by simp [Effect.apply, hspawn]) ?_
    intro other job₁ stop hj hs
    by_cases hne : other = id
    · subst hne
      cases hnew.symm.trans (hself hj)
      exact absurd hs (hstate' stop)
    · exact ⟨hne, hother hne hj⟩
  | other hnew hspawn hstop =>
    refine h.of_running (by simp [Effect.apply, hspawn]) (by simp [Effect.apply, hstop])
      (by simp [Effect.apply, hspawn]) ?_
    intro other job₁ stop hj hs
    by_cases hne : other = id
    · subst hne
      obtain ⟨job, hold, -, hkeep⟩ := hnew _ (hself hj)
      exact ⟨job, hold, hkeep stop hs⟩
    · exact ⟨job₁, hother hne hj, hs⟩

/-- **An arm keeps the agreement of the requests.** -/
theorem RequestsAgree.apply {e : Effect} (h : s.RequestsAgree) (hstep : s.TokenStep id (s.jobs.lookup id) e) :
    (e.apply s id).RequestsAgree := by
  intro w hw job' hj
  have hmem : w ∈ s.workers ∨ e.spawn = some w := by
    simpa [Effect.apply, eq_comm] using hw
  by_cases hid : w.id = id
  · have hj' : e.job = some job' := by
      rw [hid] at hj
      exact (Jobs.lookup_put_self s.jobs id e.job).symm.trans hj
    cases hstep with
    | @start job hold hnew hspawn hstop =>
      cases hnew.symm.trans hj'
      rcases hmem with hmem | hmem
      · exact h w hmem job (hid ▸ hold)
      · cases hspawn.symm.trans hmem
        rfl
    | stop hold _ hnew _ hrequest hspawn =>
      cases hnew.symm.trans hj'
      exact (h w (hmem.resolve_right (by simp [hspawn])) _ (hid ▸ hold)).trans hrequest.symm
    | other hnew hspawn =>
      obtain ⟨job, hold, hrequest, -⟩ := hnew job' hj'
      exact (h w (hmem.resolve_right (by simp [hspawn])) job (hid ▸ hold)).trans hrequest.symm
  · have hold : s.jobs.lookup w.id = some job' := (Jobs.lookup_put_of_ne s.jobs e.job hid).symm.trans hj
    rcases hmem with hmem | hmem
    · exact h w hmem job' hold
    · cases hstep with
      | start _ _ hspawn => cases hspawn.symm.trans hmem; exact absurd rfl hid
      | stop _ _ _ _ _ hspawn => simp [hspawn] at hmem
      | other _ hspawn => simp [hspawn] at hmem

/-- What the tokens and the requests agree on. -/
structure Agree (s : Scheduler) : Prop where
  /-- The tokens. -/
  tokens : s.TokensAgree
  /-- The requests. -/
  requests : s.RequestsAgree

theorem Agree.congr (h : s.Agree) (htokens : s'.tokens = s.tokens) (hstopped : s'.stopped = s.stopped)
    (hjobs : s'.jobs = s.jobs) (hworkers : ∀ w ∈ s'.workers, w ∈ s.workers) : s'.Agree :=
  ⟨h.tokens.congr htokens hstopped hjobs hworkers, fun w hw job hj => h.requests w (hworkers w hw) job (hjobs ▸ hj)⟩

/-- **The agreement is kept by every step.** -/
theorem Agree.invariant : SchedulerInvariant nextDelay Agree where
  new _ := ⟨⟨by simp [new], by simp [new], by simp [new], by simp [new], by simp [new]⟩, by simp [RequestsAgree, new]⟩
  take h htokens hstopped hjobs _ _ hworkers := h.congr htokens hstopped hjobs fun _ hw => hworkers.subset hw
  schedule {s job} h hqueued _ _ hnew := by
    refine ⟨h.tokens.of_running rfl rfl (fun _ hw => hw) ?_, fun w hw job' hj => ?_⟩
    · intro other job' stop hj hrunning
      by_cases hne : other = job.id
      · subst hne
        simp only [schedule, emit, send, Finmap.lookup_insert, Option.some.injEq] at hj
        subst hj
        cases hqueued.symm.trans hrunning
      · exact ⟨job', by simpa [schedule, emit, send, Finmap.lookup_insert_of_ne _ hne] using hj, hrunning⟩
    · refine h.requests w hw job' ?_
      simpa [schedule, emit, send, Finmap.lookup_insert_of_ne _ (hnew w hw)] using hj
  arm h _ ha := ⟨h.tokens.apply (tokenStep_of_arm ha), h.requests.apply (tokenStep_of_arm ha)⟩

/-! ### What only grows -/

/-- What a scheduler is later: tokens stay handed out and cancelled, and a new worker has a new token. -/
structure Later (s s' : Scheduler) : Prop where
  /-- Tokens handed out. -/
  tokens : s.tokens ≤ s'.tokens
  /-- Tokens cancelled. -/
  stopped : s.stopped ⊆ s'.stopped
  /-- The root token. -/
  cancelRoot : s.cancelRoot = true → s'.cancelRoot = true
  /-- Workers. -/
  workers : ∀ w ∈ s'.workers, w ∈ s.workers ∨ s.tokens ≤ w.stop

theorem Later.refl (s : Scheduler) : s.Later s := ⟨le_rfl, Finset.Subset.refl _, id, fun _ => .inl⟩

theorem Later.trans {s'' : Scheduler} (h : s.Later s') (h' : s'.Later s'') : s.Later s'' :=
  ⟨h.tokens.trans h'.tokens, h.stopped.trans h'.stopped, fun hc => h'.cancelRoot (h.cancelRoot hc), fun w hw =>
    (h'.workers w hw).elim (h.workers w) fun hlt => .inr (h.tokens.trans hlt)⟩

theorem Later.transition (hs : s.transitionJob nextDelay discarded id event = .ok s') : s.Later s' := by
  obtain ⟨e, ha, rfl⟩ := transitionJob_arm hs
  have hstep := tokenStep_of_arm ha
  refine ⟨Nat.le_add_right _ _, ?_, fun h => h, fun w hw => ?_⟩
  · cases he : e.stop with
    | none => simp [Effect.apply, he]
    | some token => simp [Effect.apply, he]
  · rcases List.mem_append.mp hw with hw | hw
    · exact .inl hw
    · refine .inr ?_
      rw [Option.mem_toList] at hw
      cases hstep with
      | start _ _ hspawn => cases hspawn.symm.trans hw; exact le_rfl
      | stop _ _ _ _ _ hspawn => simp [hspawn] at hw
      | other _ hspawn => simp [hspawn] at hw

theorem Later.cancelEach {results : Uuid → Result Unit} {order : List Uuid}
    (hs : s.cancelEach nextDelay results order = .ok s') : s.Later s' := by
  induction order generalizing s with
  | nil => cases hs; exact .refl _
  | cons id ids ih =>
    unfold Scheduler.cancelEach at hs
    split at hs
    · cases hs
    · next s₁ h₁ => exact (Later.transition h₁).trans (ih hs)

theorem Later.handleCmd {results : Uuid → Result Unit} {order : List Uuid} {cmd : SchedulerCmd}
    (hs : s.handleCmd nextDelay results order cmd = .ok s') : s.Later s' := by
  cases cmd with
  | enqueue | setMaxConcurrent =>
    cases hs
    exact ⟨le_rfl, Finset.Subset.refl _, fun h => h, fun _ => .inl⟩
  | pause | resume | cancel =>
    simp only [Scheduler.handleCmd] at hs
    exact .transition hs
  | cancelAll =>
    simp only [Scheduler.handleCmd] at hs
    split at hs <;> cases hs
    next s₁ h₁ =>
      have h := Later.cancelEach h₁
      exact ⟨h.tokens, h.stopped, h.cancelRoot, h.workers⟩

end Scheduler

namespace Thread

variable {nextDelay : UInt32 → Except Panic Duration} {t t' : Thread} {a : Action}

theorem Next.later (h : t.Next nextDelay a t') : t.sched.Later t'.sched := by
  cases h with
  | cancelRoot => exact ⟨le_rfl, Finset.Subset.refl _, fun _ => rfl, fun _ => .inl⟩
  | dropped => exact ⟨le_rfl, Finset.Subset.refl _, fun h => h, fun _ => .inl⟩
  | stop | disconnected | panic | full | empty | finish => exact .refl _
  | command _ _ _ hs | close _ _ hs => exact .handleCmd hs
  | worker _ _ hs =>
    obtain ⟨h₁, h₂, h₃, h₄⟩ := Scheduler.Later.transition hs
    exact ⟨h₁, h₂, h₃, fun w hw => (h₄ w hw).imp_left List.mem_of_mem_erase⟩
  | retry _ _ hs | dispatched _ _ _ hs =>
    obtain ⟨h₁, h₂, h₃, h₄⟩ := Scheduler.Later.transition hs
    exact ⟨h₁, h₂, h₃, h₄⟩

/-- **The tokens and the requests agree** in every state of every run. -/
theorem agree_of_reachable (ht : Reachable nextDelay t) : t.sched.Agree := Scheduler.Agree.invariant.reachable ht

/-- The job of a pending worker: it has the worker's request, and if it runs, the worker's token. -/
theorem job_of_worker (ht : Reachable nextDelay t) {w : Worker} (hw : w ∈ t.sched.workers) :
    ∃ job, t.sched.jobs.lookup w.id = some job ∧ job.state.active ∧ w.request = job.request ∧
      ∀ stop, job.state = .running stop → w.stop = stop := by
  obtain ⟨job, hjob, hactive⟩ := ((workersAgree_of_reachable ht).mem_iff w.id).mp (List.mem_map_of_mem hw)
  refine ⟨job, hjob, hactive, (agree_of_reachable ht).requests w hw job hjob, fun stop hs => ?_⟩
  have hplace := ((inv_some (v := t.view w.id) hjob).mp (inv_of_reachable ht w.id)).place
  simp only [Place, hs] at hplace
  have hmem : w.stop ∈ (t.view w.id).workers := mem_tokensOf hw
  rw [hplace.1] at hmem
  exact List.mem_singleton.mp hmem

end Thread

end DownloadManager
