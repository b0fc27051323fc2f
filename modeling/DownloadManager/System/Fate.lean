import DownloadManager.Scheduler.Outcome
import DownloadManager.System.System

/-!
# What a step of the thread does to one download

`Thread.Sees` says which arm is taken. Here it is said what that means for the files of a
download (`Fate`): whether it has a worker and keeps it, gets one, or loses it; and when it
ends, why it ends, and with which result. A download whose partial files the thread removes
ends in that step, with what `discard_partial` has returned.
-/

namespace DownloadManager

/-- What `discard_partial` has returned for a job, as an action has it. -/
def Action.discardedFor (id : Uuid) : Action → Result Unit
  | .command _ discarded _ | .close discarded _ => discarded id
  | .worker _ _ discarded => discarded
  | _ => .ok ()

/-- What matters of a record to the files: whose they are, and whether there is a worker. -/
def Job.holding (job : Job) : Request × Bool := (job.request, job.state.active)

/-- Only `Cancel` and a worker's result remove files. -/
theorem JobState.discards_eq_false (state : JobState) {event : JobEvent} (hcancel : event ≠ .cancel)
    (hworker : ∀ r, event ≠ .worker r) : state.discards event = false := by
  cases event with
  | cancel => exact absurd rfl hcancel
  | worker r => exact absurd rfl (hworker r)
  | dispatch | retryElapsed | pause | resume => cases state <;> rfl

theorem JobState.active_eq (state : JobState) : state.active = !state.idle := by cases state <;> rfl

namespace Thread

variable {nextDelay : UInt32 → Except Panic Duration} {t t' : Thread} {a : Action} {id : Uuid} {job : Job}

/-- Why a download ends, and with which result. -/
inductive Ends (t : Thread) (id : Uuid) (job : Job) : Action → Result DownloadResult → Prop
  /-- Its worker is finished. -/
  | finished {w : Worker} {result : DownloadResult} {discarded : Result Unit} (hw : w ∈ t.sched.workers) (hid : w.id = id) :
      Ends t id job (.worker w (.ok (.finished result)) discarded) (.ok result)
  /-- Its worker has failed for good. -/
  | failed {w : Worker} {error : Error} {discarded : Result Unit} (hw : w ∈ t.sched.workers) (hid : w.id = id)
      (hstate : job.state ≠ .cancelling) (hretry : error.isRetryable → job.request.config.retries ≤ job.attempt) :
      Ends t id job (.worker w (.error error) discarded) (.error error)
  /-- Its partial files have been removed. -/
  | discarded {a : Action} (hmem : (id, job.request.destination) ∈ t.discards a) :
      Ends t id job a (cancelResult (a.discardedFor id))

/-- **What a step does to a download.** -/
inductive Fate (t : Thread) (id : Uuid) : Action → Thread → Prop
  /-- It keeps its worker, or has none. -/
  | rests {a : Action} {t' : Thread}
      (hjob : (t'.sched.jobs.lookup id).map Job.holding = (t.sched.jobs.lookup id).map Job.holding)
      (hworkers : ∀ w ∈ t'.sched.workers, w.id = id → w ∈ t.sched.workers)
      (hresults : (t'.view id).results = (t.view id).results) (hbirths : (t'.view id).births = (t.view id).births)
      (hdiscards : ∀ dest, (id, dest) ∉ t.discards a) : Fate t id a t'
  /-- It is made. -/
  | made {request : Request} {progressTx tx : Sender} {discarded : Uuid → Result Unit} {order : List Uuid} {t' : Thread}
      {job : Job} (hold : t.sched.jobs.lookup id = none) (hbirths : (t.view id).births = [])
      (hnew : t'.sched.jobs.lookup id = some job) (hrequest : job.request = request) (hidle : job.state.idle) :
      Fate t id (.command (.enqueue id request progressTx tx) discarded order) t'
  /-- It gets a worker. -/
  | starts {t' : Thread} {job job' : Job} (hold : t.sched.jobs.lookup id = some job) (hidle : job.state.idle)
      (hnew : t'.sched.jobs.lookup id = some job') (hrequest : job'.request = job.request) (hactive : job'.state.active)
      (hresults : (t'.view id).results = (t.view id).results) : Fate t id .tryDispatch t'
  /-- Its worker has stopped, or has failed and will be replaced. -/
  | returns {w : Worker} {r : Result WorkerResult} {discarded : Result Unit} {t' : Thread} {job job' : Job}
      (hw : w ∈ t.sched.workers) (hid : w.id = id) (hr : r = .ok .stopped ∨ ∃ e, r = .error e ∧ e.isRetryable = true)
      (hold : t.sched.jobs.lookup id = some job) (hdiscards : job.state.discards (.worker r) = false)
      (hnew : t'.sched.jobs.lookup id = some job') (hrequest : job'.request = job.request) (hidle : job'.state.idle)
      (hresults : (t'.view id).results = (t.view id).results) : Fate t id (.worker w r discarded) t'
  /-- It ends. -/
  | ends {a : Action} {t' : Thread} {job : Job} {tx : Sender} {value : Result DownloadResult}
      (hold : t.sched.jobs.lookup id = some job) (hnew : t'.sched.jobs.lookup id = none)
      (hresults : (t'.view id).results = [(tx, value)]) (hends : t.Ends id job a value) : Fate t id a t'

/-! ### Whose partial files are removed -/

theorem mem_discards {i : Uuid} {event : JobEvent} {dest : PathBuf} {s : Scheduler} :
    (id, dest) ∈ (s.discards i event).toList ↔
      i = id ∧ ∃ job, s.jobs.lookup id = some job ∧ job.state.discards event = true ∧ dest = job.request.destination := by
  rw [Option.mem_toList, Scheduler.discards, Option.bind_eq_some_iff]
  constructor
  · intro h'
    obtain ⟨job, hjob, h⟩ := h'
    split_ifs at h with hd
    cases h
    exact ⟨rfl, job, hjob, hd, rfl⟩
  · intro h'
    obtain ⟨rfl, job, hjob, hd, rfl⟩ := h'
    exact ⟨job, hjob, by rw [if_pos hd]⟩

/-- For an event that is handed to the job. -/
theorem mem_discards_of_hands {event : JobEvent} {discarded : Result Unit} {dest : PathBuf}
    (h : t.Hands a id event discarded) :
    (id, dest) ∈ t.discards a ↔
      ∃ job, t.sched.jobs.lookup id = some job ∧ job.state.discards event = true ∧ dest = job.request.destination := by
  cases h with
  | cancel | worker => exact mem_discards.trans (and_iff_right rfl)
  | pause | resume | retry | dispatch =>
    refine iff_of_false (by simp [discards]) ?_
    intro h'
    obtain ⟨job, -, hd, -⟩ := h'
    cases hstate : job.state <;> simp [hstate, JobState.discards] at hd

/-- For `CancelAll`. -/
theorem mem_discards_of_cancelsAll {discarded : Uuid → Result Unit} {dest : PathBuf} (h : a.CancelsAll discarded)
    (hnext : t.Next nextDelay a t') :
    (id, dest) ∈ t.discards a ↔
      ∃ job, t.sched.jobs.lookup id = some job ∧ job.state.discards .cancel = true ∧ dest = job.request.destination := by
  have hmem {order : List Uuid} (horder : Visits order t.sched.jobs) :
      (id, dest) ∈ order.filterMap (fun i => t.sched.discards i .cancel) ↔
        ∃ job, t.sched.jobs.lookup id = some job ∧ job.state.discards .cancel = true ∧ dest = job.request.destination := by
    rw [List.mem_filterMap]
    constructor
    · intro h'
      obtain ⟨i, -, hi⟩ := h'
      exact (mem_discards.mp (Option.mem_toList.mpr hi)).2
    · intro h'
      obtain ⟨job, hjob, hd⟩ := h'
      refine ⟨id, ?_, Option.mem_toList.mp (mem_discards.mpr ⟨rfl, job, hjob, hd⟩)⟩
      rw [horder.mem_iff, ← Finmap.lookup_isSome, hjob]
      rfl
  cases h with
  | command =>
    cases hnext with
    | command _ _ horder => exact hmem (horder rfl)
  | close =>
    cases hnext with
    | close _ horder => exact hmem horder

/-- When the backoff panics nothing has been removed. -/
theorem discards_of_panicked {w : Worker} {r : Result WorkerResult} {discarded : Result Unit} {panic : Panic}
    (h : t.step nextDelay (.worker w r discarded) = some { t with phase := .panicked panic }) :
    t.discards (.worker w r discarded) = [] := by
  simp only [step] at h
  split_ifs at h with hw hp
  all_goals
    cases hs : Scheduler.transitionJob nextDelay discarded { t.sched with workers := t.sched.workers.erase w } w.id
      (.worker r) with
    | ok s' =>
      rw [hs] at h
      cases congrArg (Option.map Thread.phase) h
    | error panic' =>
      obtain ⟨job, error, hjob, hr, hplain, -⟩ := Scheduler.transitionJob_panic hs
      cases hr
      have hjob : t.sched.jobs.lookup w.id = some job := hjob
      have hnot : job.state.discards (.worker (.error error)) = false := by
        cases hstate : job.state <;> simp [hstate, JobState.plain] at hplain <;> rfl
      simp [discards, Scheduler.discards, hjob, hnot]

/-! ### The step -/

/-- No worker is started for a download that gets no token. -/
theorem worker_old (ht : Reachable nextDelay t) (hnext : t.Next nextDelay a t')
    (htokens : ∀ token ∈ (t'.view id).workers, token ∈ (t.view id).workers) :
    ∀ w ∈ t'.sched.workers, w.id = id → w ∈ t.sched.workers := by
  rintro w hw rfl
  rcases hnext.later.workers w hw with hold | hnew
  · exact hold
  · obtain ⟨w', hw', hstop⟩ := List.mem_map.mp (htokens w.stop (mem_tokensOf hw))
    have hlt := (agree_of_reachable ht).tokens.worker_lt w' (List.mem_of_mem_filter hw')
    exact absurd (hstop ▸ hlt) (Nat.not_lt.mpr hnew)

/-- The worker of a job is pending while the job is active. -/
theorem active_of_worker (ht : Reachable nextDelay t) {w : Worker} (hw : w ∈ t.sched.workers) (hid : w.id = id)
    (hjob : t.sched.jobs.lookup id = some job) : job.state.active = true := by
  obtain ⟨job', hjob', hactive, -⟩ := job_of_worker ht hw
  subst hid
  cases hjob.symm.trans hjob'
  exact hactive

/-- What the arm of an event means. -/
theorem fate_of_arm (ht : Reachable nextDelay t) (hnext : t.Next nextDelay a t') {event : JobEvent} {token : Token}
    {e : Effect} (ha : Arm nextDelay (a.discardedFor id) token id (t.sched.jobs.lookup id) event e)
    (hjob : t'.sched.jobs.lookup id = e.job)
    (hresults : (t'.view id).results = (t.view id).results ++ e.out.filterMap View.result?)
    (hbirths : (t'.view id).births = (t.view id).births)
    (htokens : e.spawn = none → ∀ token ∈ (t'.view id).workers, token ∈ (t.view id).workers)
    (hdiscards : ∀ dest, (id, dest) ∈ t.discards a ↔ ∃ job, t.sched.jobs.lookup id = some job ∧
      job.state.discards event = true ∧ dest = job.request.destination)
    (hworker : ∀ r, event = .worker r → ∃ w discarded, a = .worker w r discarded ∧ w ∈ t.sched.workers ∧ w.id = id)
    (hdispatch : event = .dispatch → a = .tryDispatch) : t.Fate id a t' := by
  generalize hold : t.sched.jobs.lookup id = job? at ha
  have hrests (hholding : e.job.map Job.holding = job?.map Job.holding) (hspawn : e.spawn = none)
      (hout : e.out.filterMap View.result? = [])
      (hd : ∀ job ∈ job?, job.state.discards event = false) : t.Fate id a t' := by
    refine .rests (by rw [hjob, hold, hholding]) (worker_old ht hnext (htokens hspawn))
      (by rw [hresults, hout, List.append_nil])
      hbirths fun dest hmem => ?_
    obtain ⟨job, hj, hdiscards, -⟩ := (hdiscards dest).mp hmem
    rw [hd job (hold.symm.trans hj)] at hdiscards
    cases hdiscards
  have hends {job : Job} {value : Result DownloadResult} (hj : job? = some job) (hnone : e.job = none)
      (hout : e.out = job.finalize value) (hreason : t.Ends id job a value) : t.Fate id a t' := by
    subst hj
    have hlive := (inv_some (v := t.view id) hold).mp (inv_of_reachable ht id)
    obtain ⟨tx, -, htx⟩ := hlive.asked
    refine .ends hold (hjob.trans hnone) (show (t'.view id).results = [(tx, value)] from ?_) hreason
    rw [hresults, hlive.results, hout, View.results_finalize, htx]
    rfl
  have hdiscarded {job : Job} (hj : job? = some job) (hnone : e.job = none)
      (hout : e.out = job.finalize (cancelResult (a.discardedFor id))) (hd : job.state.discards event = true) :
      t.Fate id a t' :=
    hends hj hnone hout (.discarded ((hdiscards _).mpr ⟨job, hold.trans hj, hd, rfl⟩))
  have hreturns {r : Result WorkerResult} {job job' : Job} (hevent : event = .worker r)
      (hr : r = .ok .stopped ∨ ∃ e, r = .error e ∧ e.isRetryable = true) (hj : job? = some job) (hnew : e.job = some job')
      (hrequest : job'.request = job.request) (hidle : job'.state.idle) (hd : job.state.discards (.worker r) = false)
      (hout : e.out.filterMap View.result? = []) : t.Fate id a t' := by
    obtain ⟨w, discarded, rfl, hw, hid⟩ := hworker r hevent
    exact .returns hw hid hr (hold.trans hj) hd (hjob.trans hnew) hrequest hidle (by rw [hresults, hout, List.append_nil])
  cases ha with
  | unknown => exact hrests rfl rfl rfl nofun
  | unknownAck => exact hrests rfl rfl rfl nofun
  | notQueued | stale | pausePaused | pauseCancelling | resumeLive | resumeBusy =>
    exact hrests rfl rfl rfl fun job _ => job.state.discards_eq_false nofun nofun
  | requeue h | pauseQueued h | pauseRetrying h | pauseRunning h | pausePausing h | resumePaused h =>
    refine hrests ?_ rfl rfl fun job _ => job.state.discards_eq_false nofun nofun
    simp [Job.holding, h, JobState.active]
  | cancelRunning h =>
    refine hrests ?_ rfl rfl fun job hj => by cases hj; rw [h]; rfl
    simp [Job.holding, h, JobState.active]
  | cancelPausing h =>
    refine hrests ?_ rfl ?_ fun job hj => by cases hj; rw [h]; rfl
    · simp [Job.holding, h, JobState.active]
    · simp [List.filterMap_map, Function.comp_def, View.result?]
  | cancelAgain h => exact hrests rfl rfl rfl fun job hj => by cases hj; rw [h]; rfl
  | start h =>
    obtain rfl := hdispatch rfl
    exact .starts hold (by rw [h]; rfl) hjob rfl rfl (by rw [hresults]; simp [View.result?])
  | cancelIdle h => exact hdiscarded rfl rfl rfl ((JobState.discards_cancel _).trans h)
  | @finished job result =>
    obtain ⟨w, discarded, rfl, hw, hid⟩ := hworker _ rfl
    exact hends rfl rfl rfl (.finished hw hid)
  | @cancelled job r h hr =>
    refine hdiscarded rfl rfl rfl ?_
    rw [h]
    rcases r with e | (result | _)
    · rfl
    · exact absurd rfl (hr result)
    · rfl
  | stopped h => exact hdiscarded rfl rfl rfl (by rw [h]; rfl)
  | paused h =>
    refine hreturns rfl (.inl rfl) rfl rfl rfl rfl (by rw [h]; rfl) ?_
    simp [List.filterMap_append, View.result?]
  | pausedRetry h he =>
    refine hreturns rfl (.inr ⟨_, rfl, he⟩) rfl rfl rfl rfl (by rw [h]; rfl) ?_
    simp [List.filterMap_append, View.result?]
  | @retry job error delay h he =>
    refine hreturns rfl (.inr ⟨_, rfl, he⟩) rfl rfl rfl rfl ?_ rfl
    cases hs : job.state <;> simp [hs, JobState.plain] at h <;> rfl
  | failed h he =>
    obtain ⟨w, discarded, rfl, hw, hid⟩ := hworker _ rfl
    exact hends rfl rfl rfl (.failed hw hid h he)
  | @invalid job h =>
    obtain ⟨w, discarded, rfl, hw, hid⟩ := hworker _ rfl
    have hactive := active_of_worker ht hw hid hold
    rw [JobState.active_eq, h] at hactive
    cases hactive

/-- **Every step of the thread is one of these**, for every download. -/
theorem fate_of_step (ht : Reachable nextDelay t) (h : t.step nextDelay a = some t') (id : Uuid) : t.Fate id a t' := by
  have hnext := next_of_step h
  have hinv := inv_of_reachable ht
  have hrests (hview : t'.view id = t.view id) (hdiscards : ∀ dest, (id, dest) ∉ t.discards a) : t.Fate id a t' :=
    .rests (congrArg (Option.map Job.holding) (congrArg View.job hview))
      (worker_old ht hnext fun token htoken => congrArg View.workers hview ▸ htoken) (congrArg View.results hview)
      (congrArg View.births hview) hdiscards
  cases hnext.sees hinv id with
  | same hands hall hview =>
    refine hrests hview fun dest hmem => ?_
    unfold discards at hmem
    split at hmem
    · obtain ⟨rfl, -⟩ := mem_discards.mp hmem
      exact hands _ _ .cancel
    · exact hall _ .command
    · exact hall _ .close
    · obtain ⟨rfl, -⟩ := mem_discards.mp hmem
      have hw := by cases hnext <;> assumption
      exact hands _ _ (.worker hw)
    · cases hmem
  | panic hd => exact hrests rfl fun dest hmem => by rw [discards_of_panicked h] at hmem; cases hmem
  | @enqueue request progressTx resultTx _ _ _ hnew hview =>
    refine .made ((hinv id).unborn hnew).1 ?_ (congrArg View.job hview) rfl rfl
    exact List.filter_eq_nil_iff.mpr fun cmd hcmd => by simp [hnew cmd hcmd]
  | drop hroot hqueued hview =>
    refine .rests (congrArg (Option.map Job.holding) (congrArg View.job hview))
      (worker_old ht hnext fun token htoken => ?_) ?_ ?_ (by simp [discards])
    · rw [hview] at htoken
      exact htoken
    · rw [hview]
      rfl
    · rw [hview]
      rfl
  | @cancelAll _ discarded token e _ hall ha hview =>
    have hdiscarded : discarded id = a.discardedFor id := by cases hall <;> rfl
    refine fate_of_arm ht hnext (hdiscarded ▸ ha) (congrArg View.job hview) ?_ ?_ ?_
      (fun dest => mem_discards_of_cancelsAll hall hnext) nofun nofun
    · rw [hview]
      exact View.results_act e (t.view id)
    · rw [hview]
      rfl
    · intro hspawn token htoken
      rw [hview] at htoken
      simpa [View.cleared, Effect.act, hspawn] using htoken
  | @arm _ event discarded token v e _ hands htakes ha hview =>
    have hdiscarded : discarded = a.discardedFor id := by cases hands <;> rfl
    have hresults : v.results = (t.view id).results := by cases htakes <;> rfl
    have htokens : ∀ token ∈ v.workers, token ∈ (t.view id).workers := by
      cases htakes with
      | worker hperm => exact fun token htoken => hperm.mem_iff.mpr (List.mem_cons_of_mem _ htoken)
      | dispatch | retryElapsed | pause | resume | cancel | cancelAll => exact fun _ h => h
    rw [htakes.job_eq] at ha
    refine fate_of_arm ht hnext (hdiscarded ▸ ha) (congrArg View.job hview) ?_ ?_ (fun hspawn token htoken => ?_)
      (fun dest => mem_discards_of_hands hands) ?_ ?_
    · rw [hview, View.results_act, hresults]
    · rw [hview]
      exact htakes.births_eq
    · rw [hview] at htoken
      exact htokens token (by simpa [Effect.act, hspawn] using htoken)
    · rintro r rfl
      cases hands with
      | worker hw => exact ⟨_, _, rfl, hw, rfl⟩
    · rintro rfl
      cases hands
      rfl

end Thread

end DownloadManager
