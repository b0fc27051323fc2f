import DownloadManager.Scheduler.Waiting
import Mathlib.Data.Fintype.EquivFin

/-!
# No job is stuck

While the loop runs, every job in the map can still be completed, whatever has been done so far:
it is enough that workers finish, that timers fire, and that the job is resumed if it is paused
(`can_complete`). So no order of commands, failures and retries leads to a state in which a job
waits for something that cannot happen any more.
-/

namespace DownloadManager

/-- What has to happen for a job to go on. -/
def Action.Forwards (id : Uuid) : Action → Prop
  | .worker _ (.ok (.finished _)) _ | .retry _ _ | .tryDispatch => True
  | .command (.resume id' _) _ _ => id' = id
  | _ => False

namespace Thread

variable (nextDelay : UInt32 → Except Panic Duration)

/-- The job can be completed. -/
def Completes (id : Uuid) (t : Thread) : Prop :=
  ∃ as u, Machine.exec (step nextDelay) t as = some u ∧ (∀ a ∈ as, a.Forwards id) ∧ .event id .completed ∈ u.sched.log

variable {nextDelay} {t t' : Thread} {id : Uuid} {job : Job}

theorem Completes.of_exec {as : List Action} (h : t'.Completes nextDelay id)
    (hrun : Machine.exec (step nextDelay) t as = some t') (has : ∀ a ∈ as, a.Forwards id) : t.Completes nextDelay id := by
  obtain ⟨bs, u, hu, hbs, hlog⟩ := h
  refine ⟨as ++ bs, u, ?_, ?_, hlog⟩
  · rw [Machine.exec_append, hrun]
    exact hu
  · intro a ha
    rcases List.mem_append.mp ha with ha | ha
    · exact has a ha
    · exact hbs a ha

theorem Completes.of_step {a : Action} (h : t'.Completes nextDelay id) (hstep : t.step nextDelay a = some t')
    (ha : a.Forwards id) : t.Completes nextDelay id :=
  h.of_exec ((Machine.exec_cons_eq_some _).mpr ⟨_, hstep, rfl⟩) fun _ hb => List.mem_singleton.mp hb ▸ ha

/-- A worker finishes. -/
theorem step_finished (nextDelay : UInt32 → Except Panic Duration) (hp : t.phase = .head)
    {w : Worker} (hw : w ∈ t.sched.workers) (hjob : t.sched.jobs.lookup w.id = some job) (result : DownloadResult) :
    t.step nextDelay (.worker w (.ok (.finished result)) (.ok ())) =
      some { t with phase := .dispatching, sched := { t.sched with
        workers := t.sched.workers.erase w
        jobs := t.sched.jobs.erase w.id
        log := t.sched.log ++ job.finalize (.ok result) } } := by
  simp [step, hw, hp, Scheduler.transitionJob, hjob, andThen, Scheduler.send]

/-- A job with a worker is completed when that finishes. -/
theorem completes_active (ht : Reachable nextDelay t) (hp : t.phase = .head)
    (hjob : t.sched.jobs.lookup id = some job) (hactive : job.state.active) : t.Completes nextDelay id := by
  obtain ⟨w, hw, rfl⟩ := List.mem_map.mp (((workersAgree_of_reachable ht).mem_iff id).mpr ⟨job, hjob, hactive⟩)
  have hid : job.id = w.id := ((inv_some (v := t.view w.id) hjob).mp (inv_of_reachable ht w.id)).id_eq
  refine ⟨[.worker w (.ok (.finished ⟨w.request.destination, 0⟩)) (.ok ())], _,
    (Machine.exec_cons_eq_some _).mpr ⟨_, step_finished nextDelay hp hw hjob _, rfl⟩, ?_, ?_⟩
  · intro a ha
    rw [List.mem_singleton.mp ha]
    trivial
  · simp [Job.finalize_eq, kindOf, hid]

/-- A job that waits for a worker can be completed: workers finish until it is its turn. The induction is on how many
workers run and how many jobs are ahead of it. -/
theorem completes_queued (ht : Reachable nextDelay t) (hp : t.phase = .head) (hroot : t.sched.cancelRoot = false)
    (hmem : id ∈ t.sched.ready) : t.Completes nextDelay id := by
  induction hn : t.sched.workers.length + t.sched.place id using Nat.strong_induction_on generalizing t with
  | _ n ih =>
    have hagree := readyAgrees_of_reachable ht hroot
    obtain ⟨job, hjob, hqueued⟩ := (hagree.mem_iff id).mp hmem
    -- no slot is free, so there is a worker, of another job
    have hfull : (t.sched.maxConcurrent : ℕ) ≤ t.sched.workers.length :=
      (saturated_of_reachable ht hp hroot).resolve_left (List.ne_nil_of_mem hmem)
    obtain ⟨w, rest, hworkers⟩ := List.exists_cons_of_length_pos (t.sched.maxConcurrent.pos.trans_le hfull)
    have hw : w ∈ t.sched.workers := by simp [hworkers]
    obtain ⟨other, hother, hactive⟩ := ((workersAgree_of_reachable ht).mem_iff w.id).mp (List.mem_map_of_mem hw)
    have hne : id ≠ w.id := by
      rintro rfl
      cases hjob.symm.trans hother
      simp [hqueued, JobState.active] at hactive
    -- it finishes, and a pass starts as many jobs as there is room for
    have hfinished := step_finished nextDelay hp hw hother ⟨w.request.destination, 0⟩
    obtain ⟨u, hu, hup, hstarted⟩ := pass_runs (ht.step hfinished) rfl hroot
    have hur := (ht.step hfinished).exec hu
    have hpass : u.Completes nextDelay id → t.Completes nextDelay id := by
      intro h
      refine (h.of_exec hu fun a ha => ?_).of_step hfinished trivial
      rw [List.eq_of_mem_replicate ha]
      trivial
    refine hpass ?_
    generalize hroom : Scheduler.room _ = k at hstarted
    have hready := hstarted.ready
    by_cases htake : id ∈ t.sched.ready.take k
    · have hrunning := hstarted.started id htake
      rw [Finmap.lookup_erase_ne hne, hjob] at hrunning
      exact completes_active hur hup hrunning rfl
    · have hdrop : id ∈ t.sched.ready.drop k := by
        rw [← List.take_append_drop k t.sched.ready, List.mem_append] at hmem
        exact hmem.resolve_left htake
      have hplace : k ≤ t.sched.ready.idxOf id := by
        rw [List.mem_take_iff_idxOf_lt hmem] at htake
        omega
      have hplace' : u.sched.place id + k = t.sched.place id := by
        rw [Scheduler.place, hready]
        exact idxOf_drop hplace
      have hlength : u.sched.workers.length ≤ t.sched.workers.length - 1 + k := by
        rw [hstarted.workers, List.length_append, List.length_erase_of_mem hw]
        exact Nat.add_le_add_left ((List.length_filterMap_le _ _).trans (List.length_take_le ..)) _
      have hpos := t.sched.maxConcurrent.pos
      exact ih _ (by omega) hur hup (hstarted.stopped.2.trans hroot) (hready ▸ hdrop) rfl

/-- A pass starts a job or leaves it as it is. -/
theorem completes_of_pass (ht : Reachable nextDelay t) (hp : t.phase = .dispatching) (hroot : t.sched.cancelRoot = false)
    (hjob : t.sched.jobs.lookup id = some job) (hcompletes : ∀ u, Reachable nextDelay u → u.phase = .head →
      u.sched.cancelRoot = false → u.sched.jobs.lookup id = some job → u.Completes nextDelay id) :
    t.Completes nextDelay id := by
  obtain ⟨u, hu, hup, hstarted⟩ := pass_runs ht hp hroot
  refine (?_ : u.Completes nextDelay id).of_exec hu fun a ha => ?_
  · by_cases htake : id ∈ t.sched.ready.take t.sched.room
    · have hrunning := hstarted.started id htake
      rw [hjob] at hrunning
      exact completes_active (ht.exec hu) hup hrunning rfl
    · exact hcompletes u (ht.exec hu) hup (hstarted.stopped.2.trans hroot) ((hstarted.others id htake).trans hjob)
  · rw [List.eq_of_mem_replicate ha]
    trivial

/-- A job that has just been queued. -/
theorem completes_requeued (ht : Reachable nextDelay t) (hp : t.phase = .dispatching) (hroot : t.sched.cancelRoot = false)
    (hjob : t.sched.jobs.lookup id = some job) (hqueued : job.state = .queued) : t.Completes nextDelay id := by
  refine completes_of_pass ht hp hroot hjob fun u hu hup huroot hujob => ?_
  exact completes_queued hu hup huroot (((readyAgrees_of_reachable hu huroot).mem_iff id).mpr ⟨job, hujob, hqueued⟩)

/-- At the head of the loop. -/
theorem completes_head (ht : Reachable nextDelay t) (hp : t.phase = .head) (hroot : t.sched.cancelRoot = false)
    (hjob : t.sched.jobs.lookup id = some job) : t.Completes nextDelay id := by
  cases hs : job.state with
  | queued => exact completes_queued ht hp hroot (((readyAgrees_of_reachable ht hroot).mem_iff id).mpr ⟨job, hjob, hs⟩)
  | running | pausing | cancelling => exact completes_active ht hp hjob (by rw [hs]; rfl)
  | paused =>
    -- it is resumed, with a reply channel of its own
    obtain ⟨ack, hack⟩ := Infinite.exists_notMem_finset (t.handled.filterMap SchedulerCmd.ack?).toFinset
    have hfresh : (SchedulerCmd.resume id ack).Fresh t.handled := by
      refine ⟨by simp [SchedulerCmd.enqueues], fun c hc _ heq => hack ?_⟩
      exact List.mem_toFinset.mpr (List.mem_filterMap.mpr ⟨c, hc, heq⟩)
    have hstep : t.step nextDelay (.command (.resume id ack) (fun _ => .ok ()) []) = some
        { t with phase := .dispatching, handled := t.handled ++ [.resume id ack], sched := { t.sched with
          jobs := t.sched.jobs.insert id { job with state := .queued }
          ready := t.sched.ready ++ [id]
          log := t.sched.log ++ [.event id .queued] ++ [.ack id ack (.ok ())] } } := by
      simp [step, hp, hfresh, Scheduler.handleCmd, Scheduler.transitionJob, hjob, hs, andThen, Scheduler.emit,
        Scheduler.send]
    refine Completes.of_step ?_ hstep rfl
    exact completes_requeued (ht.step hstep) rfl hroot (Finmap.lookup_insert _) rfl
  | retrying attempt =>
    -- its timer fires
    have hplace := ((inv_some (v := t.view id) hjob).mp (inv_of_reachable ht id)).place
    simp only [Place, hs] at hplace
    have hmem : (id, attempt) ∈ t.sched.delayed := mem_timersOf.mp hplace.2.2.2
    have hstep : t.step nextDelay (.retry id attempt) = some
        { t with phase := .dispatching, sched := { t.sched with
          delayed := t.sched.delayed.erase (id, attempt)
          jobs := t.sched.jobs.insert id { job with state := .queued }
          ready := t.sched.ready ++ [id]
          log := t.sched.log ++ [.event id .queued] } } := by
      simp [step, hp, hmem, Scheduler.transitionJob, hjob, hs, andThen, Scheduler.emit, Scheduler.send]
    refine Completes.of_step ?_ hstep trivial
    exact completes_requeued (ht.step hstep) rfl hroot (Finmap.lookup_insert _) rfl

/-- **No job is stuck**: from every state of every run, as long as the loop goes on, each job in the map can still be
completed, by workers that finish, timers that fire, and a `Resume` if it is paused. -/
theorem can_complete (ht : Reachable nextDelay t) (hp : t.phase = .head ∨ t.phase = .dispatching)
    (hroot : t.sched.cancelRoot = false) (hjob : t.sched.jobs.lookup id = some job) :
    ∃ as u, Machine.exec (step nextDelay) t as = some u ∧ (∀ a ∈ as, a.Forwards id) ∧
      .event id .completed ∈ u.sched.log := by
  rcases hp with hp | hp
  · exact completes_head ht hp hroot hjob
  · exact completes_of_pass ht hp hroot hjob fun u hu hup huroot hujob => completes_head hu hup huroot hujob

/-- A download that failed twice, and waits for its second retry. -/
theorem can_complete_failing_twice :
    ∃ t, Machine.exec (step backoffStrategy.nextDelay) (.new 1) failingTwice = some t ∧
      ∃ as u, Machine.exec (step backoffStrategy.nextDelay) t as = some u ∧ (∀ a ∈ as, a.Forwards 0) ∧
        .event 0 .completed ∈ u.sched.log := by
  obtain ⟨t, ht, ⟨hp, hroot, hjob⟩, hr⟩ := exists_run backoffStrategy.nextDelay 1 failingTwice
    (fun t => t.phase = .head ∧ t.sched.cancelRoot = false ∧ (t.sched.jobs.lookup 0).isSome) (by decide)
  obtain ⟨job, hjob⟩ := Option.isSome_iff_exists.mp hjob
  exact ⟨t, ht, can_complete hr (.inl hp) hroot hjob⟩

end Thread

end DownloadManager
