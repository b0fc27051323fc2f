import DownloadManager.Scheduler.Order
import DownloadManager.Scheduler.Pass

/-!
# How long a job waits

A job that waits has a place in the queue. Nothing moves it back, and each job that is started
moves it forward; so it is overtaken by no more jobs than were ahead of it, and it waits for no more
workers than those that run and those that are ahead of it (`wait_bounded`).
-/

namespace DownloadManager

/-! ### Places in a list -/

section

variable {α : Type*} [DecidableEq α]

/-- Taking others out moves nothing back. -/
theorem idxOf_filter_le {p : α → Bool} {l : List α} {a : α} (ha : p a = true) : (l.filter p).idxOf a ≤ l.idxOf a := by
  induction l with
  | nil => simp
  | cons b l ih =>
    by_cases hb : b = a
    · subst hb
      simp [ha]
    · rw [List.idxOf_cons_ne _ hb, List.filter_cons]
      split_ifs
      · rw [List.idxOf_cons_ne _ hb]
        omega
      · omega

/-- Taking the first away moves the others forward. -/
theorem idxOf_drop {n : ℕ} {l : List α} {a : α} (h : n ≤ l.idxOf a) : (l.drop n).idxOf a + n = l.idxOf a := by
  induction n generalizing l with
  | zero => rfl
  | succ n ih =>
    cases l with
    | nil => simp at h
    | cons b l =>
      by_cases hb : b = a
      · subst hb
        simp at h
      · rw [List.idxOf_cons_ne _ hb] at h ⊢
        have hle := ih (l := l) (Nat.le_of_succ_le_succ h)
        rw [List.drop_succ_cons]
        omega

end

/-! ### The place of a job -/

/-- The jobs started, by their `Started` events, oldest first. -/
def starts (log : List Output) : List Uuid := log.filterMap (Output.reports? .started)

/-- How many jobs are ahead. -/
def Scheduler.place (s : Scheduler) (id : Uuid) : ℕ := s.ready.idxOf id

/-- A worker's result is handled. -/
def Action.isResult : Action → Bool
  | .worker _ _ _ => true
  | _ => false

/-- The thread has not panicked. -/
def Phase.alive : Phase → Bool
  | .panicked _ => false
  | _ => true

/-- The job is in the queue of a manager that goes on. -/
structure Thread.Waits (id : Uuid) (t : Thread) : Prop where
  /-- It is in the queue. -/
  mem : id ∈ t.sched.ready
  /-- The manager is not shutting down. -/
  root : t.sched.cancelRoot = false
  /-- The thread runs. -/
  alive : t.phase.alive

@[simp] theorem starts_append (log log' : List Output) : starts (log ++ log') = starts log ++ starts log' :=
  List.filterMap_append

theorem starts_eq_nil {out : List Output} (h : ∀ id, .event id .started ∉ out) : starts out = [] := by
  refine List.filterMap_eq_nil_iff.mpr fun o ho => ?_
  cases o with
  | event id kind =>
    refine if_neg ?_
    rintro rfl
    exact h id ho
  | ack | result => rfl

variable {nextDelay : UInt32 → Except Panic Duration} {t t' : Thread} {id : Uuid}

/-- What a step may do to the place of a job, and to the number of workers. -/
structure Scheduler.Moves (id : Uuid) (s s' : Scheduler) : Prop where
  /-- Each job that is started moves it forward. -/
  started : (starts s'.log).length + s'.place id ≤ (starts s.log).length + s.place id
  /-- And has a worker. -/
  workers : s'.workers.length + s'.place id ≤ s.workers.length + s.place id

namespace Scheduler

variable {s s' : Scheduler} {discarded : Result Unit}

/-- The end of `CancelAll`. -/
theorem handleCmd_cancelAll_ready {discarded : Uuid → Result Unit} {order : List Uuid}
    (hs : s.handleCmd nextDelay discarded order .cancelAll = .ok s') : s'.ready = [] := by
  simp only [handleCmd] at hs
  split at hs <;> cases hs
  rfl

/-- Only `Dispatch` starts a job, and nothing moves another one back. -/
theorem Moves.transition {other : Uuid} {event : JobEvent} (hevent : event ≠ .dispatch)
    (hs : s.transitionJob nextDelay discarded other event = .ok s') (hmem : id ∈ s.ready) (hmem' : id ∈ s'.ready) :
    s.Moves id s' := by
  obtain ⟨e, harm, rfl⟩ := transitionJob_arm hs
  have hplace : (e.apply s other).place id ≤ s.place id := by
    simp only [place, Effect.apply] at hmem' ⊢
    cases hqueue : e.queue with
    | keep => rfl
    | push => exact (List.idxOf_append_of_mem hmem).le
    | remove =>
      rw [hqueue] at hmem'
      exact idxOf_filter_le (List.mem_filter.mp hmem').2
  constructor
  · simp only [Effect.apply, starts_append, starts_eq_nil (harm.not_started hevent), List.append_nil]
    exact Nat.add_le_add_left hplace _
  · simp only [Effect.apply, harm.spawn_eq_none hevent, Option.toList_none, List.append_nil]
    exact Nat.add_le_add_left hplace _

theorem Moves.refl (s : Scheduler) : s.Moves id s := ⟨le_rfl, le_rfl⟩

/-- A job that is started moves those behind it forward. -/
theorem Moves.dispatch {other : Uuid} {rest : List Uuid} (hnodup : s.ready.Nodup) (hready : s.ready = other :: rest)
    (hs : { s with ready := rest }.transitionJob nextDelay discarded other .dispatch = .ok s') (hmem' : id ∈ s'.ready) :
    s.Moves id s' := by
  obtain ⟨e, harm, rfl⟩ := transitionJob_arm hs
  have hqueue : e.queue = .keep := by
    generalize ({ s with ready := rest } : Scheduler).jobs.lookup other = job? at harm
    cases harm <;> rfl
  have hmem : id ∈ rest := by simpa [Effect.apply, hqueue, QueueOp.apply] using hmem'
  have hne : other ≠ id := fun heq => (List.nodup_cons.mp (hready ▸ hnodup)).1 (heq ▸ hmem)
  have hplace : (e.apply { s with ready := rest } other).place id + 1 = s.place id := by
    simp only [place, Effect.apply, hqueue, QueueOp.apply, hready, List.idxOf_cons_ne _ hne]
  have hout : (starts e.out).length ≤ 1 ∧ e.spawn.toList.length ≤ 1 := by
    refine ⟨?_, by cases e.spawn <;> simp⟩
    generalize ({ s with ready := rest } : Scheduler).jobs.lookup other = job? at harm
    cases harm with
    | start => simp [starts, Output.reports?]
    | notQueued | unknown => simp [starts]
    | unknownAck h => rcases h with h | h <;> cases h
  constructor
  · rw [show (e.apply { s with ready := rest } other).log = s.log ++ e.out from rfl, starts_append, List.length_append]
    omega
  · rw [show (e.apply { s with ready := rest } other).workers = s.workers ++ e.spawn.toList from rfl,
      List.length_append]
    omega

end Scheduler

namespace Thread

/-- **The step lemma**: nothing moves a waiting job back, and a worker that ends makes room. -/
theorem Next.moves (ht : Reachable nextDelay t) {a : Action} (h : t.Next nextDelay a t') (hw : t.Waits id)
    (hw' : t'.Waits id) :
    (starts t'.sched.log).length + t'.sched.place id ≤ (starts t.sched.log).length + t.sched.place id ∧
      t'.sched.workers.length + t'.sched.place id + (if a.isResult then 1 else 0) ≤
        t.sched.workers.length + t.sched.place id := by
  have hmoves {s' : Scheduler} (h : t.sched.Moves id s') :
      (starts s'.log).length + s'.place id ≤ (starts t.sched.log).length + t.sched.place id ∧
        s'.workers.length + s'.place id + 0 ≤ t.sched.workers.length + t.sched.place id := ⟨h.started, h.workers⟩
  cases h with
  | cancelRoot => exact absurd hw'.root (by simp)
  | dropped _ _ hroot => exact absurd hw.root (by simp [hroot])
  | panic => exact absurd hw'.alive Bool.false_ne_true
  | stop | disconnected | full | empty | finish => exact hmoves (.refl _)
  | close _ _ hs => exact absurd hw'.mem (by simp [Scheduler.handleCmd_cancelAll_ready hs])
  | @command cmd _ _ _ _ _ _ hs =>
    cases cmd with
    | enqueue other request progressTx resultTx =>
      cases hs
      have hplace : (t.sched.ready ++ [other]).idxOf id = t.sched.ready.idxOf id := List.idxOf_append_of_mem hw.mem
      refine hmoves ⟨?_, ?_⟩
      · simp [Scheduler.schedule, Scheduler.emit, Scheduler.send, Scheduler.place, hplace, starts, Output.reports?]
      · simp [Scheduler.schedule, Scheduler.emit, Scheduler.send, Scheduler.place, hplace]
    | setMaxConcurrent =>
      cases hs
      exact hmoves ⟨le_rfl, le_rfl⟩
    | pause | resume | cancel =>
      simp only [Scheduler.handleCmd] at hs
      exact hmoves (.transition (by simp) hs hw.mem hw'.mem)
    | cancelAll => exact absurd hw'.mem (by simp [Scheduler.handleCmd_cancelAll_ready hs])
  | retry _ _ hs =>
    have hm := Scheduler.Moves.transition (by simp) hs hw.mem hw'.mem
    exact ⟨hm.started, hm.workers⟩
  | @worker w _ _ _ _ hmem _ hs =>
    have hm := Scheduler.Moves.transition (by simp) hs hw.mem hw'.mem
    have hlength : (t.sched.workers.erase w).length + 1 = t.sched.workers.length := by
      rw [List.length_erase_of_mem hmem]
      have := List.length_pos_of_mem hmem
      omega
    have hworkers := hm.workers
    refine ⟨hm.started, ?_⟩
    simp only [Action.isResult, if_true, Scheduler.place] at hworkers ⊢
    omega
  | dispatched _ _ hready hs =>
    exact hmoves (.dispatch (readyAgrees_of_reachable ht hw.root).nodup hready hs hw'.mem)

instance (id : Uuid) : DecidablePred (Waits id) := fun t =>
  decidable_of_iff (id ∈ t.sched.ready ∧ t.sched.cancelRoot = false ∧ t.phase.alive)
    ⟨fun h => ⟨h.1, h.2.1, h.2.2⟩, fun h => ⟨h.mem, h.root, h.alive⟩⟩

/-- **How long a job waits.** In every run in which it waits all the time, the jobs started are no more than those that
were ahead of it; and at the head of the loop, the workers that have ended, the limit, and the jobs still ahead of it
are together no more than the workers that ran and the jobs that were ahead of it. So it does not wait for more workers
to end than there were, less the limit, and those of the jobs ahead of it. -/
theorem wait_bounded (ht : Reachable nextDelay t) {as : List Action} {u : Thread}
    (hrun : Machine.exec (step nextDelay) t as = some u) (hwaits : Machine.Throughout (step nextDelay) (Waits id) t as) :
    (starts u.sched.log).length + u.sched.place id ≤ (starts t.sched.log).length + t.sched.place id ∧
    (u.phase = .head → as.countP Action.isResult + u.sched.maxConcurrent + u.sched.place id ≤
      t.sched.workers.length + t.sched.place id) := by
  have hlast := hwaits.last (step nextDelay) hrun
  refine ⟨?_, fun hp => ?_⟩
  · have hle := Machine.countP_add_le_of_throughout (step nextDelay) (Q := Reachable nextDelay)
      (f := fun t => (starts t.sched.log).length + t.sched.place id) (c := fun _ => false)
      (fun s a t' hs hw hw' hstep => ⟨hs.step hstep, ((next_of_step hstep).moves hs hw hw').1⟩) as hwaits ht hrun
    simpa using hle
  · have hle := Machine.countP_add_le_of_throughout (step nextDelay) (Q := Reachable nextDelay)
      (f := fun t => t.sched.workers.length + t.sched.place id) (c := Action.isResult)
      (fun s a t' hs hw hw' hstep => ⟨hs.step hstep, ((next_of_step hstep).moves hs hw hw').2⟩) as hwaits ht hrun
    -- no slot is free while a job waits
    have hfull : (u.sched.maxConcurrent : ℕ) ≤ u.sched.workers.length :=
      (saturated_of_reachable (ht.exec hrun) hp hlast.root).resolve_left (List.ne_nil_of_mem hlast.mem)
    omega

/-- When the first is over the second is started, and none is ahead of the third any more. -/
theorem wait_bounded_thirdInLine :
    ∃ t u, Machine.exec (step backoffStrategy.nextDelay) (.new 1) thirdInLine = some t ∧
      Machine.exec (step backoffStrategy.nextDelay) t
        [.worker ⟨0, sampleRequest, 1, 0⟩ (.error .cancelled) (.ok ()), .tryDispatch, .tryDispatch] = some u ∧
      (starts u.sched.log).length + u.sched.place 2 ≤ (starts t.sched.log).length + t.sched.place 2 ∧
      1 + u.sched.maxConcurrent + u.sched.place 2 ≤ t.sched.workers.length + t.sched.place 2 := by
  obtain ⟨t, ht, ⟨hwaits, hsome⟩, hr⟩ := exists_run backoffStrategy.nextDelay 1 thirdInLine
    (fun t => Machine.Throughout (step backoffStrategy.nextDelay) (Waits 2) t
        [.worker ⟨0, sampleRequest, 1, 0⟩ (.error .cancelled) (.ok ()), .tryDispatch, .tryDispatch] ∧
      (Machine.exec (step backoffStrategy.nextDelay) t
        [.worker ⟨0, sampleRequest, 1, 0⟩ (.error .cancelled) (.ok ()), .tryDispatch, .tryDispatch]).any
          (fun u : Thread => u.phase = .head) = true) (by decide)
  obtain ⟨u, hu, hphase⟩ := Machine.exists_exec_of_any _ hsome
  obtain ⟨hstarted, hended⟩ := wait_bounded hr hu hwaits
  exact ⟨t, u, ht, hu, hstarted, hended hphase⟩

end Thread

end DownloadManager
