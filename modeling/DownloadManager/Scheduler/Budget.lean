import DownloadManager.Scheduler.Outcome
import DownloadManager.Scheduler.Retries

/-!
# The retry budget

`attempt` counts the retryable errors a job has got over. It goes up in two arms, one
for a running and one for a pausing job, and has to survive everything in between:
pauses, resumptions, requeueing. `Next.attempt_eq` says what one step adds to it, and
`attempt_eq_count` that over a run it is the number of such errors handed to the job.
-/

namespace DownloadManager

variable {nextDelay : UInt32 → Except Panic Duration} {t t' : Thread} {id : Uuid} {job : Job}

/-- A job whose worker's result is not ignored: `Running` or `Pausing`. -/
def JobState.attempting : JobState → Bool
  | .running _ | .pausing _ => true
  | _ => false

/-- The event is a retryable error. -/
def JobEvent.isRetryable : JobEvent → Bool
  | .worker (.error error) => error.isRetryable
  | _ => false

/-- The action hands a retryable error to a job that is running or pausing. -/
def Thread.fails (id : Uuid) (t : Thread) : Action → Bool
  | .worker w (.error error) _ =>
    w.id = id && error.isRetryable && (t.sched.jobs.lookup id).any fun job => job.state.attempting
  | _ => false

theorem Thread.fails_iff {a : Action} : t.fails id a = true ↔
    ∃ w error discarded job, a = .worker w (.error error) discarded ∧
    w.id = id ∧ error.isRetryable ∧ t.sched.jobs.lookup id = some job ∧ job.state.attempting := by
  constructor
  · intro h
    unfold fails at h
    split at h
    · next w error discarded =>
      simp only [Bool.and_eq_true, decide_eq_true_eq, Option.any_eq_true] at h
      obtain ⟨⟨hid, hretryable⟩, job, hjob, hs⟩ := h
      exact ⟨w, error, discarded, job, rfl, hid, hretryable, hjob, hs⟩
    · cases h
  · rintro ⟨w, error, discarded, job, rfl, hid, hretryable, hjob, hs⟩
    simp [fails, hid, hretryable, hjob, hs]

/-! ### The counter -/

/-- **What an arm adds to the counter**: one for a retryable error, if the job goes on. The request stays. -/
theorem Arm.attempt_eq {discarded : Result Unit} {token : Token} {event : JobEvent} {e : Effect} {new : Job}
    (h : Arm nextDelay discarded token id (some job) event e) (hnew : e.job = some new) :
    new.attempt.toNat = job.attempt.toNat + (if event.isRetryable then 1 else 0) ∧ new.request = job.request := by
  have hsucc : job.attempt < job.request.config.retries → (job.attempt + 1).toNat = job.attempt.toNat + 1 := by
    intro hlt
    have hlt : job.attempt.toNat < job.request.config.retries.toNat := hlt
    have := job.request.config.retries.toNat_lt
    rw [UInt32.toNat_add, UInt32.toNat_one]
    omega
  cases h with
  | cancelIdle | finished | cancelled | stopped | failed | invalid => cases hnew
  | pausedRetry _ he hlt | retry _ he hlt =>
    cases hnew
    exact ⟨by rw [hsucc hlt]; simp [JobEvent.isRetryable, he], rfl⟩
  | _ =>
    cases hnew
    simp [JobEvent.isRetryable]

/-- A job that has a worker and is not being cancelled is running or pausing. -/
theorem Live.attempting {root : Bool} {v v' : View} {result : Result WorkerResult} (h : Live root id v job)
    (ht : Takes id (.worker result) v v') (hs : job.state ≠ .cancelling) : job.state.attempting := by
  have hp := h.place
  cases ht with
  | worker hperm =>
    unfold Place at hp
    unfold JobState.attempting
    cases hstate : job.state with
    | running | pausing => rfl
    | cancelling => exact absurd hstate hs
    | queued | retrying | paused => simp [hstate] at hp; simp [hp.1] at hperm

/-- **What a step adds to the counter** of a job that goes on: one, if it hands it a retryable error. A job that
was not there before has just been made. -/
theorem Thread.Next.attempt_eq {a : Action} (ht : Thread.Reachable nextDelay t) (h : t.Next nextDelay a t')
    (halive : ∀ panic, t'.phase ≠ .panicked panic) {new : Job} (hnew : t'.sched.jobs.lookup id = some new) :
    (∃ job, t.sched.jobs.lookup id = some job ∧
      new.attempt.toNat = job.attempt.toNat + if t.fails id a then 1 else 0) ∨
    ((∀ cmd ∈ (t.view id).cmds, cmd.enqueues = none) ∧ new.attempt = 0) := by
  have hinv := inv_of_reachable ht id
  have hquiet (job : Job) (hjob : t.sched.jobs.lookup id = some job) (hattempt : new.attempt = job.attempt)
      (hfails : t.fails id a = false) : ∃ job, t.sched.jobs.lookup id = some job ∧
        new.attempt.toNat = job.attempt.toNat + if t.fails id a then 1 else 0 :=
    ⟨job, hjob, by simp [hattempt, hfails]⟩
  have harm {discarded : Result Unit} {token : Token} {event : JobEvent} {e : Effect}
      (ha : Arm nextDelay discarded token id (t.view id).job event e) (hjob : e.job = some new) :
      ∃ job, t.sched.jobs.lookup id = some job ∧
        new.attempt.toNat = job.attempt.toNat + if event.isRetryable then 1 else 0 := by
    cases hold : t.sched.jobs.lookup id with
    | none =>
      rw [show (t.view id).job = none from hold] at ha
      cases ha <;> cases hjob
    | some job =>
      rw [show (t.view id).job = some job from hold] at ha
      exact ⟨job, rfl, (ha.attempt_eq hjob).1⟩
  cases h.sees (inv_of_reachable ht) id with
  | same hands _ hview =>
    refine .inl (hquiet new ((congrArg View.job hview).symm.trans hnew) rfl ?_)
    by_contra hfails
    obtain ⟨w, error, discarded, job, rfl, rfl, -⟩ := Thread.fails_iff.mp (by simpa using hfails)
    cases h with
    | worker hw => exact hands _ _ (.worker hw)
    | panic hw => exact hands _ _ (.worker hw)
  | panic => exact absurd rfl (halive _)
  | enqueue hfresh hview =>
    refine .inr ⟨hfresh, ?_⟩
    have hjob := (congrArg View.job hview).symm.trans hnew
    cases hjob
    rfl
  | drop _ _ hview => exact .inl (hquiet new ((congrArg View.job hview).symm.trans hnew) rfl rfl)
  | @cancelAll _ _ _ e _ hall ha hview =>
    have hjob : e.job = some new := (congrArg View.job hview).symm.trans hnew
    have hfails : t.fails id a = false := by cases hall <;> rfl
    obtain ⟨job, hold, hattempt⟩ := harm ha hjob
    exact .inl ⟨job, hold, by simpa [JobEvent.isRetryable, hfails] using hattempt⟩
  | @arm _ event _ _ v e _ hands htakes ha hview =>
    have hjob : e.job = some new := (congrArg View.job hview).symm.trans hnew
    rw [htakes.job_eq] at ha
    obtain ⟨job, hold, hattempt⟩ := harm ha hjob
    refine .inl ⟨job, hold, ?_⟩
    have hfails : t.fails id a = event.isRetryable := by
      cases hands with
      | pause | resume | cancel | retry | dispatch => rfl
      | @worker w result _ hw =>
        cases result with
        | ok => rfl
        | error error =>
          have hne : job.state ≠ .cancelling := by
            intro hs
            have hnone := ha.job_eq_none (by
              intro j hj
              obtain rfl : job = j := Option.some.inj (hold.symm.trans hj)
              exact hs)
            rw [hnone] at hjob
            cases hjob
          have hlive := (inv_some (v := t.view w.id) hold).mp (inv_of_reachable ht w.id)
          simp [fails, JobEvent.isRetryable, hold, hlive.attempting htakes hne]
    rw [hattempt, hfails]

/-- A thread that has panicked stays so. -/
theorem Thread.Next.alive {a : Action} (h : t.Next nextDelay a t') (halive : ∀ panic, t'.phase ≠ .panicked panic)
    (panic : Panic) : t.phase ≠ .panicked panic := by
  intro hp
  cases h with
  | cancelRoot => exact halive panic hp
  | worker _ hphase => rcases hphase with ⟨h, -⟩ | ⟨h, -⟩ <;> simp [hp] at h
  | panic _ h => simp [hp] at h
  | stop h | disconnected h | command h | retry h | full h | empty h | dropped h | dispatched h | close h | finish h =>
    simp [hp] at h

/-- **The counter counts** the retryable errors handed to a job while it was running or pausing. -/
theorem attempt_eq_count {maxConcurrent : ℕ+} {as : List Action}
    (h : Machine.exec (Thread.step nextDelay) (.new maxConcurrent) as = some t)
    (halive : ∀ panic, t.phase ≠ .panicked panic) (hjob : t.sched.jobs.lookup id = some job) :
    job.attempt.toNat = Machine.count (Thread.step nextDelay) (Thread.fails id) (.new maxConcurrent) as := by
  let count := Machine.count (Thread.step nextDelay) (Thread.fails id) (.new maxConcurrent)
  -- before the download is made there is nothing to count
  have hcount := Machine.exec_history (Thread.step nextDelay)
    (P := fun as t => ((∀ cmd ∈ (t.view id).cmds, cmd.enqueues = none) → count as = 0) ∧
      ((∀ panic, t.phase ≠ .panicked panic) →
        ∀ job, t.sched.jobs.lookup id = some job → job.attempt.toNat = count as)) ?_ ?_ as h
  · exact hcount.2 halive job hjob
  · exact ⟨fun _ => rfl, fun _ job hjob => by simp [Thread.new, Scheduler.new] at hjob⟩
  · rintro as s a u hs ⟨hborn, hattempt⟩ hu
    have hreach : Thread.Reachable nextDelay s := .exec (.init ⟨maxConcurrent, rfl⟩) hs
    have hnext := Thread.next_of_step hu
    have hconcat : count (as ++ [a]) = count as + if s.fails id a then 1 else 0 :=
      Machine.count_concat (Thread.step nextDelay) (Thread.fails id) hs hu
    have hnone : (∀ cmd ∈ (s.view id).cmds, cmd.enqueues = none) → s.fails id a = false := by
      intro hnew
      by_contra hfails
      obtain ⟨-, -, -, job, -, -, -, hjob, -⟩ := Thread.fails_iff.mp (by simpa using hfails)
      have hunborn := (inv_of_reachable hreach id).unborn hnew
      exact absurd (hjob.symm.trans hunborn.1) (by simp)
    refine ⟨fun hnew => ?_, fun halive job hjob => ?_⟩
    · have hnew' : ∀ cmd ∈ (s.view id).cmds, cmd.enqueues = none := by
        intro cmd hcmd
        obtain ⟨hmem, hid⟩ := List.mem_filter.mp hcmd
        exact hnew cmd (List.mem_filter.mpr ⟨hnext.handled_eq ▸ List.mem_append_left _ hmem, hid⟩)
      rw [hconcat, hborn hnew', hnone hnew']
      rfl
    · rcases hnext.attempt_eq hreach halive hjob with ⟨old, hold, hadd⟩ | ⟨hnew, hzero⟩
      · have halive' : ∀ panic, s.phase ≠ .panicked panic := fun panic hp => hnext.alive halive panic hp
        rw [hadd, hattempt halive' old hold, hconcat]
      · rw [hzero, hconcat, hborn hnew, hnone hnew]
        rfl

/-! ### What a retryable error does -/

/-- A retryable error that the budget does not cover ends the job. -/
theorem Scheduler.transitionJob_exhausted {discarded : Result Unit} {s : Scheduler} {error : Error}
    (hjob : s.jobs.lookup id = some job) (hs : job.state.attempting) (he : error.isRetryable)
    (hle : job.request.config.retries ≤ job.attempt) :
    s.transitionJob nextDelay discarded id (.worker (.error error)) =
      .ok ({ s with jobs := s.jobs.erase id }.send (job.finalize (.error error))) := by
  unfold JobState.attempting at hs
  cases hstate : job.state <;> simp_all [transitionJob]

/-- What a retryable error, handed to a job that is running or pausing, does to it. -/
structure Absorbs (t' : Thread) (id : Uuid) (job : Job) (error : Error) : Prop where
  /-- It fails the job if and only if the budget is used up. -/
  fails_iff : (t'.sched.jobs.lookup id = none ∧ ∃ tx, (t'.view id).results = [(tx, .error error)]) ↔
    job.attempt = job.request.config.retries
  /-- Otherwise, unless the backoff panics, the job goes on with one retry less; the counter does not wrap. -/
  absorbed : job.attempt ≠ job.request.config.retries → (∀ panic, t'.phase ≠ .panicked panic) →
    ∃ new, t'.sched.jobs.lookup id = some new ∧ new.attempt.toNat = job.attempt.toNat + 1 ∧
      job.attempt.toNat + 1 < 2 ^ 32 ∧ (new.state = .paused ∨ new.state = .retrying new.attempt)

/-- **A retryable error fails the job when the budget is used up**, and is got over before. -/
theorem Thread.absorbs (ht : Thread.Reachable nextDelay t) {w : Worker} {error : Error} {discarded : Result Unit}
    (hjob : t.sched.jobs.lookup id = some job) (hfails : t.fails id (.worker w (.error error) discarded))
    (h : t.step nextDelay (.worker w (.error error) discarded) = some t') : Absorbs t' id job error := by
  obtain ⟨w, error, discarded, job, ha, rfl, he, hjob', hs⟩ := Thread.fails_iff.mp hfails
  cases ha
  cases hjob.symm.trans hjob'
  have hlive := (inv_some (v := t.view w.id) hjob).mp (inv_of_reachable ht w.id)
  obtain ⟨tx, -, htx⟩ := hlive.asked
  have hview : (t.view w.id).job = some job := hjob
  have hbound : job.attempt.toNat ≤ job.request.config.retries.toNat := hlive.attempt_le
  have hne_of_lt : job.attempt < job.request.config.retries → job.attempt ≠ job.request.config.retries :=
    fun hlt heq => UInt32.lt_irrefl _ (heq ▸ hlt)
  have hgoes_on (hlt : job.attempt < job.request.config.retries) (new : Job)
        (hnew : t'.sched.jobs.lookup w.id = some new) (hattempt : new.attempt = job.attempt + 1)
      (hstate : new.state = .paused ∨ new.state = .retrying new.attempt) : Absorbs t' w.id job error := by
    have hlt' : job.attempt.toNat < job.request.config.retries.toNat := hlt
    have := job.request.config.retries.toNat_lt
    refine ⟨⟨fun h => absurd (hnew.symm.trans h.1) (by simp), fun h => absurd h (hne_of_lt hlt)⟩, fun _ _ => ?_⟩
    refine ⟨new, hnew, ?_, by omega, hstate⟩
    rw [hattempt, UInt32.toNat_add, UInt32.toNat_one]
    omega
  have hnext := Thread.next_of_step h
  have hw : w ∈ t.sched.workers := by cases hnext <;> assumption
  cases hnext.sees (inv_of_reachable ht) w.id with
  | same hands => exact absurd (.worker hw) (hands _ _)
  | @panic _ _ _ attempt panic hd =>
    have hlt : job.attempt < job.request.config.retries := by
      by_contra hle
      have hexhausted : ({ t.sched with workers := t.sched.workers.erase w } : Scheduler).transitionJob nextDelay
          discarded w.id (.worker (.error error)) = .ok _ :=
        Scheduler.transitionJob_exhausted hjob hs he (UInt32.not_lt.mp hle)
      simp only [step, hexhausted] at h
      split_ifs at h <;> simp [andThen] at h
    have hresults : ∀ tx, (t.view w.id).results ≠ [(tx, .error error)] := by simp [hlive.results]
    exact ⟨⟨fun h => h.2.elim fun tx h => absurd h (hresults tx), fun h => absurd h (hne_of_lt hlt)⟩,
      fun _ halive => absurd rfl (halive panic)⟩
  | cancelAll hall => cases hall
  | @arm _ event _ _ v e _ hands htakes ha hview' =>
    cases hands
    have hresults : (t'.view w.id).results = e.out.filterMap View.result? := by
      have hv : v.results = [] := by
        rw [← hlive.results]
        cases htakes
        rfl
      rw [hview', View.results_act, hv, List.nil_append]
    have hnew : t'.sched.jobs.lookup w.id = e.job := congrArg View.job hview'
    rw [htakes.job_eq, hview] at ha
    cases ha with
    | cancelled hc => simp [hc, JobState.attempting] at hs
    | pausedRetry _ _ hlt => exact hgoes_on hlt _ hnew rfl (.inl rfl)
    | retry _ _ hlt => exact hgoes_on hlt _ hnew rfl (.inr rfl)
    | failed _ hle =>
      have heq : job.attempt = job.request.config.retries := UInt32.le_antisymm hlive.attempt_le (hle he)
      refine ⟨⟨fun _ => heq, fun _ => ⟨hnew, tx, ?_⟩⟩, fun hne => absurd heq hne⟩
      rw [hresults, View.results_finalize, htx]
      rfl

/-! ### The attempts announced -/

/-- The attempt a `RetryScheduled` announces. -/
def EventKind.retry? : EventKind → Option UInt32
  | .retryScheduled attempt _ => some attempt
  | _ => none

/-- The attempts announced, oldest first. -/
def View.retries (v : View) : List UInt32 := v.kinds.filterMap EventKind.retry?

/-- The attempts announced for a download increase, and stay within its budget. -/
structure Announced (id : Uuid) (v : View) : Prop where
  /-- They increase. -/
  increasing : v.retries.Pairwise (· < ·)
  /-- They count from one. -/
  pos : ∀ attempt ∈ v.retries, 1 ≤ attempt
  /-- None is ahead of the counter. -/
  le_attempt : ∀ attempt ∈ v.retries, ∀ job ∈ v.job, attempt ≤ job.attempt
  /-- None is beyond the budget. -/
  le_retries : ∀ attempt ∈ v.retries, ∃ request tx, v.Asked id request tx ∧ attempt ≤ request.config.retries

/-- An arm announces the retry it sets a timer for, and no other. -/
theorem Arm.retries {discarded : Result Unit} {token : Token} {job : Option Job} {event : JobEvent} {e : Effect}
    (h : Arm nextDelay discarded token id job event e) :
    (e.out.filterMap View.kind?).filterMap EventKind.retry? = e.timer.toList := by
  have hkind (result : Result DownloadResult) : EventKind.retry? (kindOf result) = none := by
    rcases result with error | result
    · cases error <;> rfl
    · rfl
  cases h with
  | cancelIdle | finished | cancelled | stopped | failed | invalid => simp [hkind]
  | unknownAck | start | requeue | pauseQueued | pauseRetrying | pauseRunning | pausePaused | pauseCancelling
  | resumePaused | resumeLive | resumeBusy | cancelRunning | retry =>
    simp [View.kind?, EventKind.retry?, List.filterMap_cons]
  | cancelPausing => simp [View.kind?, EventKind.retry?, List.filterMap_map, Function.comp_def]
  | paused | pausedRetry => simp [View.kind?, EventKind.retry?, List.filterMap_cons]
  | unknown | notQueued | stale | pausePausing | cancelAgain => rfl

/-- A timer is for the attempt the record has reached. -/
theorem Arm.attempt_of_timer {discarded : Result Unit} {token : Token} {job : Option Job} {event : JobEvent} {e : Effect}
    (h : Arm nextDelay discarded token id job event e) :
    ∀ attempt ∈ e.timer, ∃ new, e.job = some new ∧ new.attempt = attempt := by
  cases h with
  | retry => rintro _ ⟨⟩; exact ⟨_, rfl, rfl⟩
  | _ => exact nofun

theorem Takes.kinds_eq {event : JobEvent} {v v' : View} (h : Takes id event v v') : v'.kinds = v.kinds := by
  cases h <;> rfl

/-- **The attempts announced increase within the budget.** -/
theorem announced_viewInvariant : ViewInvariant nextDelay fun _ id v => Announced id v where
  empty := fun _ => ⟨.nil, nofun, nofun, nofun⟩
  cancelRoot := fun _ h => h
  enqueue := by
    intro root id v request progressTx resultTx hv h hnew
    have hkinds : v.kinds = [] := (hv.unborn hnew).2.2.2.kinds
    have hretries : (v.enqueued id request progressTx resultTx).retries = [] := by
      have : (v.enqueued id request progressTx resultTx).kinds = v.kinds ++ [.queued] := by
        simp [View.kinds, View.enqueued, View.kind?]
      rw [View.retries, this, hkinds]
      rfl
    exact ⟨by simp [hretries], by simp [hretries], by simp [hretries], by simp [hretries]⟩
  arm := by
    intro root id v v' event e discarded token hv h ht ha
    have hretries : (e.act v').retries = v.retries ++ e.timer.toList := by
      rw [View.retries, View.kinds_act, List.filterMap_append, ha.retries, ht.kinds_eq, View.retries]
    have hinv := hv.arm ht ha
    obtain ⟨htimer, hjob⟩ := ha.attempt_le
    rw [ht.job_eq] at htimer hjob
    have hnew (attempt : UInt32) (hattempt : attempt ∈ e.timer) : ∃ new, e.job = some new ∧ new.attempt = attempt :=
      ha.attempt_of_timer attempt hattempt
    refine ⟨?_, ?_, ?_, ?_⟩
    · rw [hretries, List.pairwise_append]
      refine ⟨h.increasing, by cases e.timer <;> simp, fun a ha b hb => ?_⟩
      obtain ⟨old, hold, hlt⟩ := htimer b (by simpa using hb)
      exact UInt32.lt_of_le_of_lt (h.le_attempt a ha old hold) hlt
    all_goals
      intro a hmem
      rw [hretries, List.mem_append, Option.mem_toList] at hmem
    · rcases hmem with hmem | hmem
      · exact h.pos a hmem
      · obtain ⟨old, -, hlt⟩ := htimer a hmem
        have hlt : old.attempt.toNat < a.toNat := hlt
        exact UInt32.le_iff_toNat_le.mpr (by simp only [UInt32.toNat_one]; omega)
    · intro new hn
      rcases hmem with hmem | hmem
      · obtain ⟨old, hold, hle⟩ := hjob new hn
        exact UInt32.le_trans (h.le_attempt a hmem old hold) hle
      · obtain ⟨new', hn', rfl⟩ := hnew a hmem
        obtain rfl : new' = new := Option.some.inj (hn'.symm.trans hn)
        exact UInt32.le_refl _
    · rcases hmem with hmem | hmem
      · obtain ⟨request, tx, ⟨progressTx, hasked⟩, hle⟩ := h.le_retries a hmem
        exact ⟨request, tx, ⟨progressTx, ht.cmds_subset hasked⟩, hle⟩
      · obtain ⟨new, hn, rfl⟩ := hnew a hmem
        have hlive := (inv_some (v := e.act v') hn).mp hinv
        obtain ⟨tx, hasked, -⟩ := hlive.asked
        exact ⟨new.request, tx, hasked, hlive.attempt_le⟩
  drop := fun _ h _ => ⟨h.increasing, h.pos, h.le_attempt, h.le_retries⟩
  clear := fun _ h _ => ⟨h.increasing, h.pos, h.le_attempt, h.le_retries⟩

/-- **The retry budget is kept.** In every state of every run the counter of a job is the number of retryable errors
handed to it while it was running or pausing, and within its limit. Another such error fails the job if and only if
the limit is reached, so that a job that is failed has got over exactly as many as its limit; otherwise the counter
goes up by one, without wrapping. The attempts announced for a download increase strictly, from one up to its limit. -/
theorem retry_budget_kept {maxConcurrent : ℕ+} {as : List Action}
    (h : Machine.exec (Thread.step nextDelay) (.new maxConcurrent) as = some t) :
    (∀ id job, t.sched.jobs.lookup id = some job → (∀ panic, t.phase ≠ .panicked panic) →
      job.attempt.toNat = Machine.count (Thread.step nextDelay) (Thread.fails id) (.new maxConcurrent) as ∧
      job.attempt ≤ job.request.config.retries) ∧
    (∀ id job w error discarded t', t.sched.jobs.lookup id = some job → t.fails id (.worker w (.error error) discarded) →
      t.step nextDelay (.worker w (.error error) discarded) = some t' →
      Absorbs t' id job error ∧ (job.attempt = job.request.config.retries ↔ job.request.config.retries.toNat =
        Machine.count (Thread.step nextDelay) (Thread.fails id) (.new maxConcurrent) as)) ∧
    ∀ id request progressTx tx, .enqueue id request progressTx tx ∈ t.handled →
      (t.view id).retries.Pairwise (· < ·) ∧
        ∀ attempt ∈ (t.view id).retries, 1 ≤ attempt ∧ attempt ≤ request.config.retries := by
  have hreach : Thread.Reachable nextDelay t := .exec (.init ⟨maxConcurrent, rfl⟩) h
  refine ⟨fun id job hjob halive => ?_, fun id job w error discarded t' hjob hfails hstep => ?_,
    fun id request progressTx tx hasked => ?_⟩
  · exact ⟨attempt_eq_count h halive hjob, ((inv_some (v := t.view id) hjob).mp (inv_of_reachable hreach id)).attempt_le⟩
  · refine ⟨Thread.absorbs hreach hjob hfails hstep, ?_⟩
    have halive : ∀ panic, t.phase ≠ .panicked panic := by
      intro panic hp
      cases Thread.next_of_step hstep with
      | worker _ hphase => rcases hphase with ⟨h, -⟩ | ⟨h, -⟩ <;> simp [hp] at h
      | panic _ h => simp [hp] at h
    rw [← attempt_eq_count h halive hjob, eq_comm, UInt32.toNat_inj]
  · have hannounced := announced_viewInvariant.reachable hreach id
    refine ⟨hannounced.increasing, fun attempt hmem => ⟨hannounced.pos attempt hmem, ?_⟩⟩
    obtain ⟨request', tx', ⟨progressTx', hasked'⟩, hle⟩ := hannounced.le_retries attempt hmem
    obtain rfl := (birth_unique hreach hasked hasked').1
    exact hle

/-- For a download that fails twice, with a pause in between. -/
theorem retry_budget_kept_failing_twice :
    ∃ t, Machine.exec (Thread.step backoffStrategy.nextDelay) (.new 1) Thread.failingTwice = some t ∧
      .enqueue 0 Thread.sampleRequest 1 2 ∈ t.handled ∧ (t.view 0).retries = [1, 2] ∧
      ∀ attempt ∈ (t.view 0).retries, 1 ≤ attempt ∧ attempt ≤ Thread.sampleRequest.config.retries := by
  obtain ⟨t, ht, ⟨hmem, hretries⟩, -⟩ := Thread.exists_run backoffStrategy.nextDelay 1 Thread.failingTwice
    (fun t => .enqueue 0 Thread.sampleRequest 1 2 ∈ t.handled ∧ (t.view 0).retries = [1, 2]) (by decide)
  exact ⟨t, ht, hmem, hretries, ((retry_budget_kept ht).2.2 0 Thread.sampleRequest 1 2 hmem).2⟩

end DownloadManager
