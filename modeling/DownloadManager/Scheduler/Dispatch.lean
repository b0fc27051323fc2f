import DownloadManager.Scheduler.Collections

/-!
# The concurrency limit

`try_dispatch` is the only place where a worker starts. `Next.workers` says so of a
single step; from it follow the bound on the number of workers, for a step and for
a whole turn of the loop, and that the loop never waits with a slot free and a job
queued.
-/

namespace DownloadManager

variable {nextDelay : UInt32 → Except Panic Duration} {t t' : Thread}

/-! ### Who starts workers -/

section

variable {discarded : Result Unit} {token : Token} {s s' : Scheduler} {id : Uuid}

/-- Only `Dispatch` starts a worker. -/
theorem Arm.spawn_eq_none {job : Option Job} {event : JobEvent} {e : Effect}
    (h : Arm nextDelay discarded token id job event e) (hevent : event ≠ .dispatch) : e.spawn = none := by
  cases h <;> first | rfl | exact (hevent rfl).elim

/-- A transition that is not a `Dispatch` leaves the workers as they are. -/
theorem Scheduler.transitionJob_workers {event : JobEvent} (hevent : event ≠ .dispatch)
    (h : s.transitionJob nextDelay discarded id event = .ok s') :
    s'.workers = s.workers ∧ s'.maxConcurrent = s.maxConcurrent := by
  obtain ⟨e, ha, rfl⟩ := transitionJob_arm h
  simp [Effect.apply, ha.spawn_eq_none hevent]

/-- A `Dispatch` starts one worker or none. -/
theorem Scheduler.transitionJob_dispatch_workers (h : s.transitionJob nextDelay discarded id .dispatch = .ok s') :
    (s'.workers = s.workers ∨ ∃ w, s'.workers = s.workers ++ [w]) ∧ s'.maxConcurrent = s.maxConcurrent := by
  obtain ⟨e, -, rfl⟩ := transitionJob_arm h
  refine ⟨?_, rfl⟩
  cases hw : e.spawn with
  | none => exact .inl (by simp [Effect.apply, hw])
  | some w => exact .inr ⟨w, by simp [Effect.apply, hw]⟩

theorem Scheduler.cancelEach_workers {discarded : Uuid → Result Unit} {order : List Uuid}
    (h : s.cancelEach nextDelay discarded order = .ok s') : s'.workers = s.workers := by
  induction order generalizing s with
  | nil => cases h; rfl
  | cons id ids ih =>
    unfold cancelEach at h
    split at h
    · cases h
    rename_i s₁ h₁
    exact (ih h).trans (transitionJob_workers (by simp) h₁).1

/-- No command starts or ends a worker. -/
theorem Scheduler.handleCmd_workers {discarded : Uuid → Result Unit} {order : List Uuid} {cmd : SchedulerCmd}
    (h : s.handleCmd nextDelay discarded order cmd = .ok s') : s'.workers = s.workers := by
  cases cmd with
  | enqueue | setMaxConcurrent => cases h; rfl
  | pause | resume | cancel =>
    simp only [handleCmd] at h
    exact (transitionJob_workers (by simp) h).1
  | cancelAll =>
    simp only [handleCmd] at h
    split at h <;> cases h
    rename_i s₁ h₁
    have hworkers : s₁.workers = s.workers := cancelEach_workers h₁
    exact hworkers

end

/-- **What a step does to the workers**: it takes some out, or it is a turn of `try_dispatch`
below the limit and adds one. -/
theorem Thread.Next.workers {a : Action} (h : t.Next nextDelay a t') :
    t'.sched.workers.Sublist t.sched.workers ∨
      a = .tryDispatch ∧ t.sched.workers.length < t.sched.maxConcurrent ∧
        t'.sched.maxConcurrent = t.sched.maxConcurrent ∧ ∃ w, t'.sched.workers = t.sched.workers ++ [w] := by
  cases h with
  | cancelRoot | stop | disconnected | panic | full | empty | dropped | finish => exact .inl (.refl _)
  | command _ _ _ hs | close _ _ hs => exact .inl (Scheduler.handleCmd_workers hs ▸ .refl _)
  | worker _ _ hs =>
    refine .inl ?_
    rw [(Scheduler.transitionJob_workers (by simp) hs).1]
    exact List.erase_sublist
  | retry _ _ hs =>
    refine .inl ?_
    rw [(Scheduler.transitionJob_workers (by simp) hs).1]
  | dispatched _ hlt _ hs =>
    obtain ⟨heq | hw, hmax⟩ := Scheduler.transitionJob_dispatch_workers hs
    · exact .inl (heq ▸ .refl _)
    · exact .inr ⟨rfl, hlt, hmax, hw⟩

/-- A step leaves no more workers than there were, or than the limit allows. -/
theorem Thread.Next.length_workers_le {a : Action} (h : t.Next nextDelay a t') :
    t'.sched.workers.length ≤ max t.sched.workers.length t'.sched.maxConcurrent := by
  rcases h.workers with hsub | ⟨-, hlt, hmax, w, hw⟩
  · exact le_max_of_le_left hsub.length_le
  · rw [hw, hmax, List.length_append, List.length_singleton]
    exact le_max_of_le_right hlt

/-- What happens in a turn of the loop once its event has been handled. -/
def Action.IsDispatch : Action → Prop
  | .tryDispatch | .cancelRoot => True
  | _ => False

theorem Thread.Next.maxConcurrent_eq {a : Action} (h : t.Next nextDelay a t') (ha : a.IsDispatch) :
    t'.sched.maxConcurrent = t.sched.maxConcurrent := by
  cases h with
  | cancelRoot | full | empty | dropped => rfl
  | dispatched _ _ _ hs => exact (Scheduler.transitionJob_dispatch_workers hs).2
  | stop | disconnected | command | worker | panic | retry | close | finish => exact ha.elim

/-- The loop of `try_dispatch` keeps the limit, which is the same throughout. -/
theorem Thread.exec_dispatch_length_le {dispatch : List Action} (hdispatch : ∀ a ∈ dispatch, a.IsDispatch)
    (h : Machine.exec (step nextDelay) t dispatch = some t') :
    t'.sched.workers.length ≤ max t.sched.workers.length t.sched.maxConcurrent ∧
      t'.sched.maxConcurrent = t.sched.maxConcurrent := by
  induction dispatch generalizing t with
  | nil => cases h; exact ⟨le_max_left _ _, rfl⟩
  | cons a as ih =>
    obtain ⟨u, hu, h⟩ := (Machine.exec_cons_eq_some _).mp h
    have hmax := (next_of_step hu).maxConcurrent_eq (hdispatch a (by simp))
    have hle := (next_of_step hu).length_workers_le
    obtain ⟨h1, h2⟩ := ih (fun b hb => hdispatch b (by simp [hb])) h
    rw [hmax] at h1 h2 hle
    exact ⟨h1.trans (max_le hle (le_max_right _ _)), h2⟩

/-- So does a whole turn of the loop: an event, and then `try_dispatch`. -/
theorem Thread.turn_length_workers_le {a : Action} {dispatch : List Action}
    (hdispatch : ∀ a ∈ dispatch, a.IsDispatch) (h : Machine.exec (step nextDelay) t (a :: dispatch) = some t') :
    t'.sched.workers.length ≤ max t.sched.workers.length t'.sched.maxConcurrent := by
  obtain ⟨u, hu, h⟩ := (Machine.exec_cons_eq_some _).mp h
  have hfirst := (next_of_step hu).length_workers_le
  obtain ⟨hrest, hmax⟩ := exec_dispatch_length_le hdispatch h
  rw [hmax]
  exact hrest.trans (max_le hfirst (le_max_right _ _))

/-! ### Work conservation -/

/-- At the loop head nothing is left to dispatch, or no slot is free, unless the manager is
shutting down. -/
def Thread.Saturated (t : Thread) : Prop :=
  t.phase = .head → t.sched.cancelRoot = false → t.sched.ready = [] ∨ t.sched.maxConcurrent ≤ t.sched.workers.length

/-- The loop head is only reached through `try_dispatch`, which leaves nothing to do. -/
theorem Thread.Next.saturated {a : Action} (h : t.Next nextDelay a t') : t'.Saturated := by
  cases h with
  | cancelRoot => exact fun _ hroot => by cases hroot
  | full _ hfull => exact fun _ _ => .inr hfull
  | empty _ hready => exact fun _ _ => .inl hready
  | dropped _ _ hroot => exact fun _ h => absurd h (by simp [hroot])
  | dispatched hp => exact fun h => by simp [hp] at h
  | worker _ hp => rcases hp with ⟨-, rfl⟩ | ⟨-, rfl⟩ <;> exact nofun
  | stop | disconnected | command | panic | retry | close | finish => exact nofun

theorem saturated_of_reachable (ht : Thread.Reachable nextDelay t) : t.Saturated := by
  refine Machine.Reachable.induct (P := Thread.Saturated) ?_ ?_ ht
  · rintro t ⟨maxConcurrent, rfl⟩ _ _
    exact .inl rfl
  · intro t a t' _ _ h
    exact (Thread.next_of_step h).saturated

/-- **The limit is kept and no slot is wasted.** A step takes workers out, or adds one as a
turn of `try_dispatch` with fewer workers than the limit; so neither a step nor a whole
turn of the loop leaves more workers than there were before, or than the limit allows. At
the loop head no job is queued or no slot is free, until the manager shuts down. -/
theorem dispatch_bounded_and_conserving (ht : Thread.Reachable nextDelay t) :
    (∀ a t', t.step nextDelay a = some t' →
      (t'.sched.workers.Sublist t.sched.workers ∨
        a = .tryDispatch ∧ t.sched.workers.length < t.sched.maxConcurrent ∧
          ∃ w, t'.sched.workers = t.sched.workers ++ [w]) ∧
      t'.sched.workers.length ≤ max t.sched.workers.length t'.sched.maxConcurrent) ∧
    (∀ a dispatch t', (∀ a ∈ dispatch, a.IsDispatch) →
      Machine.exec (Thread.step nextDelay) t (a :: dispatch) = some t' →
      t'.sched.workers.length ≤ max t.sched.workers.length t'.sched.maxConcurrent) ∧
    (t.phase = .head → t.sched.cancelRoot = false →
      (∀ id job, t.sched.jobs.lookup id = some job → job.state ≠ .queued) ∨
        t.sched.maxConcurrent ≤ t.sched.workers.length) := by
  refine ⟨fun a t' h => ?_, fun a dispatch t' hd h => Thread.turn_length_workers_le hd h, fun hp hroot => ?_⟩
  · have hnext := Thread.next_of_step h
    refine ⟨hnext.workers.imp_right ?_, hnext.length_workers_le⟩
    rintro ⟨ha, hlt, -, hw⟩
    exact ⟨ha, hlt, hw⟩
  · rcases saturated_of_reachable ht hp hroot with hready | hfull
    · refine .inl fun id job hjob hqueued => ?_
      have hmem := ((readyAgrees_of_reachable ht hroot).mem_iff id).mpr ⟨job, hjob, hqueued⟩
      simp [hready] at hmem
    · exact .inr hfull

/-- With one slot, taken, and a job behind it. -/
theorem dispatch_bounded_and_conserving_one_slot :
    ∃ t, Machine.exec (Thread.step backoffStrategy.nextDelay) (.new 1) Thread.oneSlot = some t ∧
      (t.phase = .head ∧ t.sched.cancelRoot = false) ∧
      ((∀ id job, t.sched.jobs.lookup id = some job → job.state ≠ .queued) ∨
        t.sched.maxConcurrent ≤ t.sched.workers.length) := by
  obtain ⟨t, ht, ⟨hp, hroot⟩, hr⟩ := Thread.exists_run backoffStrategy.nextDelay 1 Thread.oneSlot
    (fun t => t.phase = .head ∧ t.sched.cancelRoot = false) (by decide)
  exact ⟨t, ht, ⟨hp, hroot⟩, (dispatch_bounded_and_conserving hr).2.2 hp hroot⟩

end DownloadManager
