import DownloadManager.Scheduler.Invariant

/-!
# Retries and their timers

A timer is never taken back: a job that is paused while it waits for a retry leaves its
timer behind, and stale timers are told from the current one by the attempt they
carry. What makes this work is that attempts only grow, so that a timer that has
fired (`Spent`) never comes back.
-/

namespace DownloadManager

variable {nextDelay : UInt32 → Except Panic Duration} {t t₁ : Thread} {id : Uuid} {attempt : UInt32}

/-! ### Attempts only grow -/

/-- A timer an arm adds is for a later attempt than the record's, and the record's attempt
does not go back. -/
theorem Arm.attempt_le {discarded : Result Unit} {token : Token} {job : Option Job} {event : JobEvent} {e : Effect}
    (h : Arm nextDelay discarded token id job event e) :
    (∀ a ∈ e.timer, ∃ old ∈ job, old.attempt < a) ∧ ∀ new ∈ e.job, ∃ old ∈ job, old.attempt ≤ new.attempt := by
  cases h with
  | retry _ _ hlt | pausedRetry _ _ hlt =>
    have hsucc := attempt_succ hlt
    simp [hsucc.1, UInt32.le_of_lt hsucc.1]
  | _ => simp

/-- A timer that has fired: it is not pending, no attempt is before it, and the download it
was for is not new. -/
structure Spent (attempt : UInt32) (v : View) : Prop where
  /-- It is not pending. -/
  timers : attempt ∉ v.timers
  /-- The attempts made reach it. -/
  attempt_le : ∀ job ∈ v.job, attempt ≤ job.attempt
  /-- The download has been made. -/
  made : ∃ cmd ∈ v.cmds, cmd.enqueues ≠ none

theorem Takes.timers_subset {event : JobEvent} {v v' : View} (h : Takes id event v v') : v'.timers ⊆ v.timers := by
  cases h with
  | retryElapsed => exact List.erase_subset
  | _ => exact fun _ h => h

theorem Takes.cmds_subset {event : JobEvent} {v v' : View} (h : Takes id event v v') : v.cmds ⊆ v'.cmds := by
  cases h with
  | pause | resume | cancel => exact List.subset_append_left _ _
  | _ => exact fun _ h => h

/-- What is taken for a job does not bring a timer back. -/
theorem Spent.takes {event : JobEvent} {v v' : View} (h : Spent attempt v) (ht : Takes id event v v') :
    Spent attempt v' := by
  obtain ⟨cmd, hcmd, hne⟩ := h.made
  exact ⟨fun hmem => h.timers (ht.timers_subset hmem), ht.job_eq ▸ h.attempt_le, cmd, ht.cmds_subset hcmd, hne⟩

/-- An arm does not bring a timer back. -/
theorem Spent.act {discarded : Result Unit} {token : Token} {event : JobEvent} {v : View} {e : Effect}
    (h : Spent attempt v) (ha : Arm nextDelay discarded token id v.job event e) : Spent attempt (e.act v) := by
  obtain ⟨htimer, hjob⟩ := ha.attempt_le
  refine ⟨fun hmem => ?_, fun job hnew => ?_, h.made⟩
  · rcases List.mem_append.mp hmem with hmem | hmem
    · exact h.timers hmem
    · obtain ⟨old, hold, hlt⟩ := htimer attempt (by simpa using hmem)
      exact UInt32.not_le.mpr hlt (h.attempt_le old hold)
  · obtain ⟨old, hold, hle⟩ := hjob job hnew
    exact UInt32.le_trans (h.attempt_le old hold) hle

/-- **A timer that has fired stays fired.** -/
theorem spent_viewStable (id : Uuid) (attempt : UInt32) :
    ViewStable nextDelay fun _ id' v => id' = id → Spent attempt v where
  cancelRoot := fun _ h => h
  enqueue := by
    rintro root id' v request progressTx resultTx - h hnew rfl
    obtain ⟨cmd, hcmd, hne⟩ := (h rfl).made
    exact (hne (hnew cmd hcmd)).elim
  arm := fun _ h ht ha hid => ((h hid).takes ht).act ha
  drop := fun _ h _ hid => ⟨(h hid).timers, (h hid).attempt_le, (h hid).made⟩
  clear := fun _ h _ hid => ⟨List.not_mem_nil, (h hid).attempt_le, (h hid).made⟩

/-- Taking a timer out spends it. -/
theorem Inv.spent {root : Bool} {v : View} (hv : Inv root id v) (hmem : attempt ∈ v.timers) :
    Spent attempt { v with timers := v.timers.erase attempt } := by
  rcases v.job.eq_none_or_eq_some with hj | ⟨job, hj⟩
  · obtain ⟨-, -, hnodup, hu | ho⟩ := (inv_none hj).mp hv
    · simp [hu.timers] at hmem
    · obtain ⟨request, tx, value, ⟨progressTx, hasked⟩, -⟩ := ho.result
      exact ⟨hnodup.not_mem_erase, fun job hjob => by simp [hj] at hjob, _, hasked, by simp [SchedulerCmd.enqueues]⟩
  · have R := ((inv_some hj).mp hv).toRecord
    obtain ⟨tx, ⟨progressTx, hasked⟩, -⟩ := R.asked
    refine ⟨R.timers_nodup.not_mem_erase, fun job' hjob' => ?_, _, hasked, by simp [SchedulerCmd.enqueues]⟩
    obtain rfl : job = job' := Option.some.inj (hj.symm.trans hjob')
    exact R.timers_le attempt hmem

/-! ### What a timer does -/

/-- A timer requeues the job that waits for it, and does nothing else. -/
theorem Scheduler.transitionJob_retryElapsed {discarded : Result Unit} {s s' : Scheduler}
    (h : s.transitionJob nextDelay discarded id (.retryElapsed attempt) = .ok s') :
    (∃ job, s.jobs.lookup id = some job ∧ job.state = .retrying attempt) ∨ s' = s := by
  simp only [transitionJob] at h
  split at h
  · cases h; exact .inr rfl
  rename_i job hjob
  split at h
  · rename_i current hs
    split_ifs at h with hc
    · subst hc; exact .inl ⟨job, hjob, hs⟩
    · cases h; exact .inr rfl
  · cases h; exact .inr rfl

/-- **A timer fires once**: after it, it is pending in no state of the run. -/
theorem Thread.Next.retry_spent (ht : Thread.Reachable nextDelay t) (h : t.Next nextDelay (.retry id attempt) t₁) :
    Spent attempt (t₁.view id) := by
  cases h with
  | @retry _ _ s' _ hmem hs =>
    have hv := inv_of_reachable ht id
    have hid : ∀ job ∈ t.sched.jobs.lookup id, job.id = id :=
      fun job hjob => ((inv_some (v := t.view id) hjob).mp hv).id_eq
    have hmem' : attempt ∈ (t.view id).timers := mem_timersOf.mpr hmem
    have hview : ({ t.sched with delayed := t.sched.delayed.erase (id, attempt) } : Scheduler).view t.handled id =
        { t.view id with timers := (t.view id).timers.erase attempt } := by
      apply View.ext <;> first | rfl | exact timersOf_erase_self _ _ _
    obtain ⟨e, ha, hself, -⟩ := views_of_transition t.handled hs hid
    show Spent attempt (s'.view t.handled id)
    rw [hself, hview]
    rw [hview] at ha
    exact (hv.spent hmem').act ha

theorem count_timersOf (id : Uuid) (attempt : UInt32) (delayed : List (Uuid × UInt32)) :
    (timersOf id delayed).count attempt = delayed.count (id, attempt) := by
  induction delayed with
  | nil => rfl
  | cons timer l ih =>
    obtain ⟨i, a⟩ := timer
    rw [timersOf_cons, List.count_cons]
    by_cases hi : i = id
    · simp [hi, List.count_cons, ih]
    · simp [hi, ih]

/-- The timers of an identifier are distinct, whatever has become of it. -/
theorem Inv.timers_nodup {root : Bool} {v : View} (hv : Inv root id v) : v.timers.Nodup := by
  rcases v.job.eq_none_or_eq_some with hj | ⟨job, hj⟩
  · exact ((inv_none hj).mp hv).2.2.1
  · exact ((inv_some hj).mp hv).timers_nodup

/-- **A retry waits for its own timer.** In every state of every run, a job that waits for a
retry has one pending timer, that of its attempt; no two timers are the same and none is
ahead of its job. A timer that fires requeues the job whose last event scheduled this very
retry, or leaves everything as it is, and fires no second time. -/
theorem retry_waits_for_its_timer (ht : Thread.Reachable nextDelay t) :
    (∀ id job a, t.sched.jobs.lookup id = some job → job.state = .retrying a →
      job.attempt = a ∧ t.sched.delayed.count (id, a) = 1) ∧
    t.sched.delayed.Nodup ∧
    (∀ id job a, t.sched.jobs.lookup id = some job → (id, a) ∈ t.sched.delayed → a ≤ job.attempt) ∧
    ∀ id a t₁, t.step nextDelay (.retry id a) = some t₁ →
      ((∃ job delay, t.sched.jobs.lookup id = some job ∧ job.state = .retrying a ∧
          (t.view id).kinds.getLast? = some (.retryScheduled a delay)) ∨
        t₁ = { t with sched := { t.sched with delayed := t.sched.delayed.erase (id, a) }, phase := .dispatching }) ∧
      ∀ as t₂, Machine.exec (Thread.step nextDelay) t₁ as = some t₂ → (id, a) ∉ t₂.sched.delayed := by
  have hnodup : t.sched.delayed.Nodup := by
    rw [List.nodup_iff_count_le_one]
    rintro ⟨id, a⟩
    rw [← count_timersOf]
    exact List.nodup_iff_count_le_one.mp (inv_of_reachable ht id).timers_nodup a
  have hlive {id : Uuid} {job : Job} (hjob : t.sched.jobs.lookup id = some job) :
      Live t.sched.cancelRoot id (t.view id) job :=
    (inv_some (v := t.view id) hjob).mp (inv_of_reachable ht id)
  refine ⟨?_, hnodup, ?_, ?_⟩
  · intro id job a hjob hs
    have hp := (hlive hjob).place
    simp only [Place, hs] at hp
    exact ⟨hp.2.2.1.symm, List.count_eq_one_of_mem hnodup (mem_timersOf.mp hp.2.2.2)⟩
  · exact fun id job a hjob hmem => (hlive hjob).timers_le a (mem_timersOf.mpr hmem)
  · intro id a t₁ h
    have hnext := Thread.next_of_step h
    have hspent := hnext.retry_spent ht
    refine ⟨?_, fun as t₂ hexec hmem => ?_⟩
    · cases hnext with
      | retry _ _ hs =>
        rcases Scheduler.transitionJob_retryElapsed hs with ⟨job, hjob, hstate⟩ | rfl
        · obtain ⟨k, hlast, hrep⟩ := (hlive hjob).last
          rw [hstate] at hrep
          cases k with
          | retryScheduled a' delay => cases hrep; exact .inl ⟨job, delay, hjob, hstate, hlast⟩
          | _ => exact hrep.elim
        · exact .inr rfl
    · have hholds : t₁.sched.Holds (fun _ id' v => id' = id → Spent a v) t₁.handled := by
        refine fun id' => ⟨inv_of_reachable (ht.step h) id', ?_⟩
        rintro rfl
        exact hspent
      exact (((spent_viewStable id a).exec hholds hexec id).2 rfl).timers (mem_timersOf.mpr hmem)

/-- With the timer of an earlier retry left behind. -/
theorem retry_waits_for_its_timer_failing_twice :
    ∃ t, Machine.exec (Thread.step backoffStrategy.nextDelay) (.new 1) Thread.failingTwice = some t ∧
      (t.sched.delayed = [(0, 1), (0, 2)] ∧ (t.sched.jobs.lookup 0).map Job.state = some (.retrying 2)) ∧
      ∀ id job a, t.sched.jobs.lookup id = some job → job.state = .retrying a →
        job.attempt = a ∧ t.sched.delayed.count (id, a) = 1 := by
  obtain ⟨t, ht, hfacts, hr⟩ := Thread.exists_run backoffStrategy.nextDelay 1 Thread.failingTwice
    (fun t => t.sched.delayed = [(0, 1), (0, 2)] ∧ (t.sched.jobs.lookup 0).map Job.state = some (.retrying 2))
    (by decide)
  exact ⟨t, ht, hfacts, (retry_waits_for_its_timer hr).1⟩

end DownloadManager
