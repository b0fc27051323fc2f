import DownloadManager.Scheduler.Outcome
import DownloadManager.System.Workers

/-!
# Partial files are removed only on request

`Stopped` is read by the state the job is in when the result is handled: in `Running` it means
that the root token was cancelled, and the partial files go. A `Pause` cancels only the token
of the worker it stops and takes the job out of `Running`, and the next `Dispatch` hands out
another one; so a `Stopped` that a `Pause` caused is never handled in `Running`. From this it
follows that nothing is removed for a job, and that it is not reported cancelled, before
someone asks for it.
-/

namespace DownloadManager

/-- What is no `Cancel` of this job, and neither `CancelAll` nor the end of the loop. -/
def Action.spares (id : Uuid) : Action → Bool
  | .cancelRoot | .stop | .disconnected | .close _ _ | .command .cancelAll _ _ => false
  | .command (.cancel i) _ _ => i ≠ id
  | _ => true

theorem Action.spares_withDiscarded (results : Uuid → Result Unit) (action : Action) (id : Uuid) :
    (action.withDiscarded results).spares id = action.spares id := by
  cases action with
  | command cmd => cases cmd <;> rfl
  | _ => rfl

/-- A move that asks for no cancellation of this job. -/
def Move.spares (id : Uuid) : Move → Bool
  | .thread action => action.spares id
  | _ => true

/-- What tells a client that a download was cancelled. -/
def Output.isCancellation : Output → Bool
  | .event _ .cancelled | .result _ _ (.error .cancelled) => true
  | _ => false

section

variable {nextDelay : UInt32 → Except Panic Duration} {id : Uuid}

theorem Job.finalize_not_cancellation (job : Job) {result : Result DownloadResult} (h : result ≠ .error .cancelled) :
    ∀ o ∈ job.finalize result, o.isCancellation = false := by
  have hkind : kindOf result ≠ .cancelled := fun hk => h ((kindOf_iff result).2.1.mp hk)
  intro o ho
  rw [finalize_eq, List.mem_append, List.mem_cons, List.mem_map] at ho
  rcases ho with ho | rfl | ⟨tx, -, rfl⟩
  · obtain ⟨waiter, -, rfl⟩ := List.mem_map.mp ho
    rfl
  · unfold Output.isCancellation
    split <;> simp_all
  · unfold Output.isCancellation
    split <;> simp_all

/-- An arm for anything but `Cancel` leaves a job alone that is not being cancelled, unless its worker has been
stopped without a pause. -/
theorem Arm.spared {discarded : Result Unit} {token : Token} {job? : Option Job} {event : JobEvent} {e : Effect}
    (h : Arm nextDelay discarded token id job? event e) (hjob : ∀ job ∈ job?, job.state ≠ .cancelling)
    (hevent : event ≠ .cancel)
    (hworker : ∀ r, event = .worker r → r ≠ .error .cancelled ∧
      (r = .ok .stopped → ∀ job ∈ job?, ∀ stop, job.state ≠ .running stop)) :
    (∀ job ∈ e.job, job.state ≠ .cancelling) ∧ ∀ o ∈ e.out, o.isCancellation = false := by
  cases h with
  | unknown | unknownAck => simp [Output.isCancellation]
  | notQueued | stale | pausePaused | resumeLive | resumeBusy =>
    exact ⟨fun job hj => hjob job hj, by simp [Output.isCancellation]⟩
  | start | requeue | pauseQueued | pauseRetrying | pauseRunning | pausePausing | resumePaused | retry =>
    simp [Output.isCancellation]
  | paused | pausedRetry =>
    refine ⟨by simp, fun o ho => ?_⟩
    rcases List.mem_append.mp ho with ho | ho
    · obtain ⟨waiter, -, rfl⟩ := List.mem_map.mp ho
      rfl
    · rw [List.mem_singleton.mp ho]
      rfl
  | cancelIdle | cancelRunning | cancelPausing | cancelAgain => exact absurd rfl hevent
  | pauseCancelling h | cancelled h => exact absurd h (hjob _ rfl)
  | stopped h => exact absurd h ((hworker _ rfl).2 rfl _ rfl _)
  | finished => exact ⟨by simp, Job.finalize_not_cancellation _ (by simp)⟩
  | failed => exact ⟨by simp, Job.finalize_not_cancellation _ (by simpa using (hworker _ rfl).1)⟩
  | invalid => exact ⟨by simp, Job.finalize_not_cancellation _ (by simp)⟩

/-- Nobody has asked for the cancellation of a job. -/
structure Thread.Spared (t : Thread) (id : Uuid) : Prop where
  /-- The root token is not cancelled. -/
  cancelRoot : t.sched.cancelRoot = false
  /-- The job is not being cancelled. -/
  state : ∀ job, t.sched.jobs.lookup id = some job → job.state ≠ .cancelling
  /-- Nothing has been sent that says it was. -/
  out : ∀ o ∈ (t.view id).out, o.isCancellation = false

/-- A worker's result that is no cancellation, for the job it is handed to. -/
def Thread.Harmless (t : Thread) (id : Uuid) (action : Action) : Prop :=
  ∀ w r discarded, action = .worker w r discarded → w.id = id → r ≠ .error .cancelled ∧
    (r = .ok .stopped → ∀ job, t.sched.jobs.lookup id = some job → ∀ stop, job.state ≠ .running stop)

theorem Thread.Spared.step {t t' : Thread} {action : Action} (h : t.Spared id) (ht : Reachable nextDelay t)
    (hspares : action.spares id = true) (htakes : t.Harmless id action) (hstep : t.step nextDelay action = some t') :
    t'.Spared id := by
  have hnext := next_of_step hstep
  have hroot : t'.sched.cancelRoot = false := by
    rcases hnext.cancelRoot_eq (inv_of_reachable ht) with hroot | ⟨rfl, -⟩
    · exact hroot.trans h.cancelRoot
    · cases hspares
  have hview : ∀ v, t'.view id = v → (∀ job ∈ v.job, job.state ≠ .cancelling) → (∀ o ∈ v.out, o.isCancellation = false) →
      t'.Spared id := fun v hv hstate hout => ⟨hroot, fun job hj => hstate job (hv ▸ hj), hv ▸ hout⟩
  cases hnext.sees (inv_of_reachable ht) id with
  | same _ _ hsame => exact hview _ hsame h.state h.out
  | panic => exact ⟨hroot, h.state, h.out⟩
  | enqueue _ hnew =>
    refine hview _ hnew (by simp [View.enqueued]) fun o ho => ?_
    rcases List.mem_append.mp ho with ho | ho
    · exact h.out o ho
    · rw [List.mem_singleton.mp ho]
      rfl
  | drop _ _ hdrop => exact hview _ hdrop h.state h.out
  | cancelAll hall => cases hall <;> cases hspares
  | @arm _ event discarded token v e _ hands hevent ha hact =>
    rw [hevent.job_eq] at ha
    have hout : v.out = (t.view id).out := by cases hevent <;> rfl
    have harm := ha.spared (fun job hj => h.state job hj) ?_ ?_
    · refine hview _ hact harm.1 fun o ho => ?_
      rcases List.mem_append.mp ho with ho | ho
      · exact h.out o (hout ▸ ho)
      · exact harm.2 o ho
    · rintro rfl
      cases hands with
      | cancel => simp [Action.spares] at hspares
    · rintro r rfl
      cases hands with
      | worker => exact htakes _ _ _ rfl rfl

end

namespace System

variable {nextDelay : UInt32 → Except Panic Duration} {platform : Platform} {s s' : System} {m : Move} {id : Uuid}

/-- Nobody has asked for the cancellation of a job, and nothing is or was removed for it. -/
structure Spared (s : System) (id : Uuid) : Prop where
  /-- The scheduler. -/
  thread : s.thread.Spared id
  /-- What the thread waits for. -/
  cleanup : ∀ c ∈ s.cleanup, c.action.spares id = true ∧ (∀ w r discarded, c.action = .worker w r discarded → w.id ≠ id) ∧
    c.id ≠ id ∧ ∀ dest, (id, dest) ∉ c.todo
  /-- What it has waited for. -/
  discarded : ∀ r, (id, r) ∉ s.discarded

/-- **A worker that stops for a pause does not find its job running.** -/
theorem takes_of_spared (hs : s.Reachable nextDelay platform) (h : s.thread.Spared id) {w : Worker}
    {r : Result WorkerResult} (hw : w ∈ s.thread.sched.workers) (hid : w.id = id) (hprogram : s.program w = .done r) :
    r ≠ .error .cancelled ∧ ∀ job, s.thread.sched.jobs.lookup id = some job → r = .ok .stopped →
      ∀ stop, job.state ≠ .running stop := by
  have hmeets := regardless_of_reachable hs hw
  rw [Meets, hprogram] at hmeets
  refine ⟨hmeets.ne_cancelled, fun job hjob hr stop hstate => ?_⟩
  subst hid
  have ht := thread_of_reachable hs
  obtain ⟨job', hjob', -, -, hstop⟩ := Thread.job_of_worker ht hw
  cases hjob.symm.trans hjob'
  have hcancelled : s.cancelled w = true := hmeets.stopped hr
  rw [System.cancelled, h.cancelRoot, Bool.false_or, decide_eq_true_eq, hstop stop hstate] at hcancelled
  exact (Thread.agree_of_reachable ht).tokens.running_not_stopped _ _ _ hjob hstate hcancelled

/-- What the thread is asked to do removes nothing of the job's. -/
theorem Spared.asks (h : s.Spared id) (hs : s.Reachable nextDelay platform) (hm : m.spares id = true) {action : Action}
    (hasks : s.Asks m action) {t : Thread} (ht : s.thread.step nextDelay action = some t) :
    action.spares id = true ∧ s.thread.Harmless id action ∧ ∀ dest, (id, dest) ∉ s.thread.discards action := by
  have hscheduler : ∀ i event dest, i ≠ id → (id, dest) ∉ (s.thread.sched.discards i event).toList := by
    intro i event dest hne hmem
    rw [Option.mem_toList, Scheduler.discards, Option.bind_eq_some_iff] at hmem
    obtain ⟨job, -, hjob⟩ := hmem
    split_ifs at hjob
    cases hjob
    exact hne rfl
  cases hasks with
  | thread hworker =>
    refine ⟨hm, fun w r discarded he => absurd he (hworker w r discarded), fun dest hmem => ?_⟩
    unfold Thread.discards at hmem
    split at hmem
    · exact hscheduler _ _ dest (by simpa [Move.spares, Action.spares] using hm) hmem
    · cases hm
    · cases hm
    · next w r discarded => exact hworker w r discarded rfl
    · cases hmem
  | @yield w r hprogram =>
    have hw : w ∈ s.thread.sched.workers := by
      cases Thread.next_of_step ht with
      | worker hw | panic hw => exact hw
    refine ⟨rfl, fun w' r' discarded he hid => ?_, fun dest hmem => ?_⟩
    · cases he
      obtain ⟨hne, hstate⟩ := takes_of_spared hs h.thread hw hid hprogram
      exact ⟨hne, fun hr job hjob => hstate job hjob hr⟩
    · by_cases hid : w.id = id
      · obtain ⟨hne, hstate⟩ := takes_of_spared hs h.thread hw hid hprogram
        subst hid
        simp only [Thread.discards, Option.mem_toList, Scheduler.discards, Option.bind_eq_some_iff] at hmem
        obtain ⟨job, hjob, hdiscards⟩ := hmem
        split_ifs at hdiscards with hd
        rcases (JobState.discards_worker hd).2 with hc | ⟨⟨stop, hrunning⟩, hr⟩
        · exact h.thread.state job hjob hc
        · exact hstate job hjob hr stop hrunning
      · exact hscheduler _ _ dest hid hmem

/-- **A step that asks for no cancellation of the job.** -/
theorem Spared.step (h : s.Spared id) (hs : s.Reachable nextDelay platform) (hm : m.spares id = true)
    (hnext : s.Next nextDelay m s') : s'.Spared id := by
  have hreachable := thread_of_reachable hs
  cases hnext with
  | cancelRoot => cases hm
  | act hasks _ _ ht =>
    obtain ⟨hspares, htakes, -⟩ := h.asks hs hm hasks ht
    exact ⟨h.thread.step hreachable hspares htakes ht, h.cleanup, h.discarded⟩
  | @wait _ action _ i dest todo hasks _ hdiscards ht =>
    obtain ⟨hspares, -, hnone⟩ := h.asks hs hm hasks ht
    rw [hdiscards] at hnone
    have hi : i ≠ id := fun he => hnone dest (by simp [he])
    refine ⟨h.thread, fun c hc => ?_, h.discarded⟩
    cases hc
    refine ⟨hspares, fun w r discarded he => ?_, hi, fun d hd => hnone d (List.mem_cons_of_mem _ hd)⟩
    -- the job whose files go first is that of the worker
    subst he
    have hmem : (i, dest) ∈ s.thread.discards (.worker w r discarded) := by rw [hdiscards]; exact List.mem_cons_self
    simp only [Thread.discards, Option.mem_toList, Scheduler.discards, Option.bind_eq_some_iff] at hmem
    obtain ⟨job, -, hjob⟩ := hmem
    split_ifs at hjob
    cases hjob
    exact hi
  | worker | outside => exact ⟨h.thread, h.cleanup, h.discarded⟩
  | cleanup hcleanup =>
    obtain ⟨h₁, h₂, h₃, h₄⟩ := h.cleanup _ hcleanup
    exact ⟨h.thread, fun c hc => by cases hc; exact ⟨h₁, h₂, h₃, h₄⟩, h.discarded⟩
  | @again c r i dest todo hcleanup _ htodo =>
    obtain ⟨h₁, h₂, h₃, h₄⟩ := h.cleanup _ hcleanup
    rw [htodo] at h₄
    refine ⟨h.thread, fun c hc => ?_, ?_⟩
    · cases hc
      exact ⟨h₁, h₂, fun he : i = id => h₄ dest (by simp [he]), fun d hd => h₄ d (List.mem_cons_of_mem _ hd)⟩
    · simpa [or_imp, forall_and, h₃.symm] using h.discarded
  | @resume c r t hcleanup _ _ ht =>
    obtain ⟨h₁, h₂, h₃, -⟩ := h.cleanup _ hcleanup
    refine ⟨h.thread.step hreachable ((Action.spares_withDiscarded ..).trans h₁) ?_ ht, by simp, ?_⟩
    · rintro w r' discarded he hid
      cases ha : c.action <;> rw [ha] at he <;> cases he
      exact absurd hid (h₂ _ _ _ ha)
    · simpa [or_imp, forall_and, h₃.symm] using h.discarded

/-- **Partial files are removed only on request.** In a run without `Cancel` of a job, `CancelAll`, the root token
being cancelled and the channel being closed, `discard_partial` is not called for the job and it is not reported
cancelled; and no `Stopped` of its worker is handled while it is `Running`. -/
theorem discards_on_request {maxConcurrent : ℕ+} {disk : Disk} {ms : List Move} (hms : ∀ m ∈ ms, m.spares id = true)
    (hrun : Machine.exec (step nextDelay) (.new platform maxConcurrent disk) ms = some s) :
    (∀ c ∈ s.cleanup, c.id ≠ id ∧ ∀ dest, (id, dest) ∉ c.todo) ∧ (∀ r, (id, r) ∉ s.discarded) ∧
      (∀ o ∈ s.thread.sched.log, o.id = id → o.isCancellation = false) ∧
      ∀ w ∈ s.thread.sched.workers, w.id = id → ∀ job stop, s.thread.sched.jobs.lookup id = some job →
        job.state = .running stop → s.program w ≠ .done (.ok .stopped) := by
  obtain ⟨hs, hspared⟩ : s.Reachable nextDelay platform ∧ s.Spared id := by
    refine Machine.exec_induct_along (step nextDelay) (P := fun _ m => m.spares id = true)
      (Q := fun s => s.Reachable nextDelay platform ∧ s.Spared id) ?_ ms
      (Machine.along_of_forall _ (fun m hm _ => hms m hm) _) ⟨.init ⟨_, _, rfl⟩, ?_⟩ hrun
    · rintro s m s' ⟨hs, h⟩ hm hstep
      exact ⟨hs.step hstep, h.step hs hm (next_of_step hstep)⟩
    · exact ⟨⟨rfl, by simp [new, Thread.new, Scheduler.new],
        by simp [new, Thread.new, Scheduler.new, Thread.view, Scheduler.view]⟩,
        by simp [new], by simp [new]⟩
  refine ⟨fun c hc => (hspared.cleanup c hc).2.2, hspared.discarded, fun o ho hid => ?_, ?_⟩
  · exact hspared.thread.out o (List.mem_filter.mpr ⟨ho, by simpa using hid⟩)
  · intro w hw hid job stop hjob hstate hprogram
    exact (takes_of_spared hs hspared.thread hw hid hprogram).2 job hjob rfl stop hstate

/-! ### A pause -/

/-- It is paused while its worker waits for the client. -/
def pausedEarly : List Move :=
  started ++ [.worker firstWorker (.file none), .worker firstWorker (.file none), .worker firstWorker (.pollStop false),
    .thread (.command (.pause 0 3) (fun _ => .ok ()) []), .thread .tryDispatch, .worker firstWorker (.send .stopped),
    .yield firstWorker, .thread .tryDispatch]

/-- The worker that a pause has stopped does not cost the download its files. -/
theorem discards_on_request_pausedEarly :
    ∃ s, Machine.exec (step backoffStrategy.nextDelay) (.new .sample 1 .empty) pausedEarly = some s ∧
      (s.thread.sched.jobs.lookup 0).map Job.state = some .paused ∧ s.discarded = [] ∧
      (∀ r, (0, r) ∉ s.discarded) ∧ ∀ o ∈ s.thread.sched.log, o.id = 0 → o.isCancellation = false := by
  have h : (Machine.exec (step backoffStrategy.nextDelay) (.new .sample 1 .empty) pausedEarly).any
      (fun s => (s.thread.sched.jobs.lookup 0).map Job.state = some .paused ∧ s.discarded = []) := by decide +kernel
  obtain ⟨s, hs, hstate, hdiscarded⟩ := Machine.exists_exec_of_any _ h
  obtain ⟨-, hnone, hlog, -⟩ := discards_on_request (show ∀ m ∈ pausedEarly, m.spares 0 = true by decide) hs
  exact ⟨s, hs, hstate, hdiscarded, hnone, hlog⟩

end System

end DownloadManager
