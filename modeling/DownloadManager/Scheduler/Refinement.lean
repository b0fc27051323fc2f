import DownloadManager.Library.Slots
import DownloadManager.Scheduler.Order
import DownloadManager.Scheduler.Pass

/-!
# The scheduler as slots with a queue

What the scheduler is for can be said without its collections: downloads share a number of slots
(`Library.Slots`). Its events report what stage a download comes to, its commands how many slots
there are, and every run of the thread is a history the slots can have, with the same reports in
the same order (`run_refines_slots`). The queue of the slots is `ready` and those who hold one are
the pending workers: the job map, the timers and the tokens are how the thread gets there.

The step is proved for what the reports say alone: after it, who waits and who holds a slot can be
read off the last event of each download (`mem_ready_iff`, `mem_workers_iff`), so that only the
order of the two lists is left to follow.
-/

namespace DownloadManager

/-- What the stages of a download mean for the slots. -/
def Stage.rules : SlotRules Stage where
  waits x := x = .queued
  holds
    | .started | .pauseStarted | .cancellationStarted => true
    | _ => false
  follows
    | none, x => x = .queued
    | some x, y => x.Follows y

/-- The stage an output reports. -/
def Output.stage? : Output → Option (Uuid × Stage)
  | .event id kind => some (id, kind.stage)
  | _ => none

/-- The limit a command sets. -/
def SchedulerCmd.limit? : SchedulerCmd → Option ℕ
  | .setMaxConcurrent maxConcurrent => some maxConcurrent
  | _ => none

/-- The stage of a download, by its last event. -/
def View.stage (v : View) : Option Stage := v.kinds.getLast?.map EventKind.stage

/-- What the slots show of the scheduler. -/
structure Scheduler.Shown (s : Scheduler) (slots : Slots Uuid Stage) : Prop where
  /-- The state of every job in the map. -/
  live : ∀ id job, s.jobs.lookup id = some job → slots.stage id = some job.state.stage
  /-- Another download has never been made, or is over. -/
  gone : ∀ id, s.jobs.lookup id = none → slots.stage id = none ∨ slots.stage id = some .terminal
  /-- The pending workers. -/
  held : slots.held = s.workers.map Worker.id
  /-- The jobs that wait, unless the manager shuts down. -/
  queue : s.cancelRoot = false → slots.queue = s.ready
  /-- The limit. -/
  limit : slots.limit = s.maxConcurrent

/-! ### Lists -/

section

variable {α : Type*}

/-- A part of a list without repetitions is given by its members. -/
theorem eq_filter_of_sublist {p : α → Bool} {l l' : List α} (h : l'.Sublist l) (hnodup : l.Nodup)
    (hp : ∀ a ∈ l, a ∈ l' ↔ p a) : l.filter p = l' := by
  induction h with
  | slnil => rfl
  | @cons l' l a h ih =>
    obtain ⟨ha, hnodup⟩ := List.nodup_cons.mp hnodup
    have hpa : ¬p a := fun hpa => ha (h.subset ((hp a List.mem_cons_self).mpr hpa))
    rw [List.filter_cons_of_neg hpa]
    exact ih hnodup fun b hb => hp b (List.mem_cons_of_mem _ hb)
  | @cons_cons l' l a h ih =>
    obtain ⟨ha, hnodup⟩ := List.nodup_cons.mp hnodup
    rw [List.filter_cons_of_pos ((hp a List.mem_cons_self).mp List.mem_cons_self)]
    refine congrArg _ (ih hnodup fun b hb => ?_)
    rw [← hp b (List.mem_cons_of_mem _ hb), List.mem_cons]
    exact ⟨.inr, fun h => h.resolve_left (ne_of_mem_of_not_mem hb ha)⟩

theorem eq_singleton_of_forall {l : List α} {a : α} (hnodup : l.Nodup) (ha : a ∈ l) (h : ∀ b ∈ l, b = a) : l = [a] := by
  cases l with
  | nil => cases ha
  | cons b l =>
    obtain rfl := h b List.mem_cons_self
    cases l with
    | nil => rfl
    | cons c l =>
      obtain rfl := h c (by simp)
      simp at hnodup

end

/-! ### What the last event says -/

variable {nextDelay : UInt32 → Except Panic Duration} {t t' : Thread} {id : Uuid} {a : Action}

/-- The stages reported for one download. -/
theorem stages_eq (log : List Output) (id : Uuid) : ((log.filterMap Output.stage?).filter (·.1 = id)).map Prod.snd =
    ((log.filter fun o => o.id = id).filterMap View.kind?).map EventKind.stage := by
  induction log with
  | nil => rfl
  | cons o log ih =>
    cases o with
    | event i kind =>
      rw [List.filterMap_cons_some (f := Output.stage?) rfl, List.filter_cons, List.filter_cons]
      by_cases hi : i = id
      · simp [hi, Output.id, View.kind?, ih]
      · simp [hi, Output.id, ih]
    | ack i | result i =>
      rw [List.filterMap_cons_none (f := Output.stage?) rfl, ih, List.filter_cons]
      split
      · rw [List.filterMap_cons_none (f := View.kind?) rfl]
      · rfl

/-- The last event of a job says in which state it is. -/
theorem Inv.stage {root : Bool} {v : View} (hv : Inv root id v) :
    (∀ job, v.job = some job → v.stage = some job.state.stage) ∧
      (v.job = none → v.stage = none ∨ v.stage = some .terminal) := by
  constructor
  · intro job hjob
    obtain ⟨k, hlast, hrep⟩ := ((inv_some hjob).mp hv).last
    rw [View.stage, hlast, Option.map_some, hrep.stage_eq]
  · intro hjob
    rcases ((inv_none hjob).mp hv).2.2.2 with hunborn | ⟨⟨_, _, value, _, _, hlast⟩, _⟩
    · exact .inl (by rw [View.stage, hunborn.kinds]; rfl)
    · exact .inr (by rw [View.stage, hlast, Option.map_some, stage_kindOf])

/-- The jobs with a worker are those whose last event says so. -/
theorem mem_workers_iff (ht : Thread.Reachable nextDelay t) :
    id ∈ t.sched.workers.map Worker.id ↔ ∃ x, (t.view id).stage = some x ∧ Stage.rules.holds x := by
  obtain ⟨hlive, hgone⟩ := (inv_of_reachable ht id).stage
  rw [(workersAgree_of_reachable ht).mem_iff]
  constructor
  · rintro ⟨job, hjob, hactive⟩
    refine ⟨_, hlive job hjob, ?_⟩
    cases hs : job.state <;> simp_all [JobState.active, JobState.stage, Stage.rules]
  · rintro ⟨x, hx, hholds⟩
    cases hjob : (t.view id).job with
    | none =>
      rcases hgone hjob with h | h
      · cases h.symm.trans hx
      · cases h.symm.trans hx
        cases hholds
    | some job =>
      obtain rfl := Option.some.inj ((hlive job hjob).symm.trans hx)
      refine ⟨job, hjob, ?_⟩
      cases hs : job.state <;> simp_all [JobState.active, JobState.stage, Stage.rules]

/-- The jobs that wait are those whose last event says so. -/
theorem mem_ready_iff (ht : Thread.Reachable nextDelay t) (hroot : t.sched.cancelRoot = false) :
    id ∈ t.sched.ready ↔ (t.view id).stage = some .queued := by
  obtain ⟨hlive, hgone⟩ := (inv_of_reachable ht id).stage
  rw [(readyAgrees_of_reachable ht hroot).mem_iff]
  constructor
  · rintro ⟨job, hjob, hqueued⟩
    rw [hlive job hjob, hqueued]
    rfl
  · intro hx
    cases hjob : (t.view id).job with
    | none => rcases hgone hjob with h | h <;> cases h.symm.trans hx
    | some job =>
      refine ⟨job, hjob, ?_⟩
      have hstage := Option.some.inj ((hlive job hjob).symm.trans hx)
      cases hs : job.state <;> simp_all [JobState.stage]

/-! ### What a step reports -/

/-- An arm reports one stage at most. -/
theorem Arm.length_kinds_le {discarded : Result Unit} {token : Token} {job? : Option Job} {event : JobEvent}
    {e : Effect} (h : Arm nextDelay discarded token id job? event e) : (e.out.filterMap View.kind?).length ≤ 1 := by
  cases h with
  | cancelPausing => simp [View.kind?, List.filterMap_map, Function.comp_def]
  | cancelIdle | finished | cancelled | stopped | failed | invalid => simp
  | _ => simp [View.kind?, List.filterMap_cons]

/-- And so does a step, of each download. -/
theorem Thread.Sees.kinds (h : t.Sees nextDelay id a t') :
    ∃ ks, (t'.view id).kinds = (t.view id).kinds ++ ks ∧ ks.length ≤ 1 := by
  cases h with
  | same _ _ hview => exact ⟨[], by rw [hview, List.append_nil], Nat.zero_le _⟩
  | panic => exact ⟨[], (List.append_nil _).symm, Nat.zero_le _⟩
  | enqueue _ hview => exact ⟨[.queued], by rw [hview]; simp [View.kinds, View.enqueued, View.kind?], le_rfl⟩
  | @arm _ event _ _ v e _ _ ht ha hview =>
    have hout : v.out = (t.view id).out := by cases ht <;> rfl
    exact ⟨_, by rw [hview, View.kinds_act, View.kinds, hout, View.kinds], ha.length_kinds_le⟩
  | drop _ _ hview => exact ⟨[], by rw [hview, List.append_nil]; rfl, Nat.zero_le _⟩
  | @cancelAll _ _ _ e _ _ ha hview =>
    have hkinds : (e.act (t.view id)).cleared.kinds = (e.act (t.view id)).kinds := rfl
    exact ⟨_, by rw [hview, hkinds, View.kinds_act], ha.length_kinds_le⟩

/-- The last event of a path follows the one before it. -/
theorem Lifecycle.follows {kinds : List EventKind} {k : EventKind} (h : Lifecycle (kinds ++ [k])) :
    Stage.rules.follows (kinds.getLast?.map EventKind.stage) k.stage := by
  obtain ⟨hhead, hchain⟩ := h
  rcases List.eq_nil_or_concat' kinds with rfl | ⟨ks, k₀, rfl⟩
  · cases Option.some.inj hhead
    rfl
  · rw [List.isChain_append] at hchain
    rw [List.getLast?_concat]
    exact hchain.2.2 k₀ (by simp) k rfl

/-- What has been reported of a download is a path. -/
theorem Inv.lifecycle {root : Bool} {v : View} (hv : Inv root id v) (hne : v.kinds ≠ []) : Lifecycle v.kinds := by
  cases hjob : v.job with
  | none =>
    rcases ((inv_none hjob).mp hv).2.2.2 with hunborn | hover
    · exact absurd hunborn.kinds hne
    · exact hover.path
  | some job => exact ((inv_some hjob).mp hv).path

/-- What a step reports. -/
structure Thread.Reports (t : Thread) (ms : List (Uuid × Stage)) (t' : Thread) : Prop where
  /-- Each download comes to one stage at most. -/
  nodup : (ms.map Prod.fst).Nodup
  /-- It may come next. -/
  follows : ∀ m ∈ ms, Stage.rules.follows (t.view m.1).stage m.2
  /-- And is the last. -/
  stage : ∀ m ∈ ms, (t'.view m.1).stage = some m.2
  /-- The others stay where they are. -/
  others : ∀ id ∉ ms.map Prod.fst, (t'.view id).stage = (t.view id).stage

/-- **The reports of a step**, whatever it is. -/
theorem Thread.Next.reports (ht : Reachable nextDelay t) (ht' : Reachable nextDelay t') (h : t.Next nextDelay a t')
    (out : List Output) (hlog : t'.sched.log = t.sched.log ++ out) : t.Reports (out.filterMap Output.stage?) t' := by
  -- of each download, nothing or one stage
  have hkinds (id : Uuid) :
      (t'.view id).kinds = (t.view id).kinds ++ (out.filter fun o => o.id = id).filterMap View.kind? := by
    show (t'.sched.log.filter _).filterMap _ = _
    rw [hlog, List.filter_append, List.filterMap_append]
    rfl
  have hle (id : Uuid) : ((out.filter fun o => o.id = id).filterMap View.kind?).length ≤ 1 := by
    obtain ⟨ks, hks, hlength⟩ := (h.sees (inv_of_reachable ht) id).kinds
    rwa [List.append_cancel_left ((hkinds id).symm.trans hks)]
  have hone (m : Uuid × Stage) (hm : m ∈ out.filterMap Output.stage?) :
      ∃ k, k.stage = m.2 ∧ (t'.view m.1).kinds = (t.view m.1).kinds ++ [k] := by
    have hmem : m.2 ∈ ((out.filterMap Output.stage?).filter (·.1 = m.1)).map Prod.snd :=
      List.mem_map_of_mem (List.mem_filter.mpr ⟨hm, decide_eq_true rfl⟩)
    rw [stages_eq] at hmem
    obtain ⟨k, hk, hstage⟩ := List.mem_map.mp hmem
    obtain ⟨k', hk'⟩ := List.length_eq_one_iff.mp (le_antisymm (hle m.1) (List.length_pos_of_mem hk))
    rw [hk', List.mem_singleton] at hk
    exact ⟨k, hstage, by rw [hkinds, hk', hk]⟩
  refine ⟨?_, fun m hm => ?_, fun m hm => ?_, fun id hid => ?_⟩
  · refine List.nodup_iff_count_le_one.mpr fun id => ?_
    have hlength := congrArg List.length (stages_eq out id)
    rw [List.length_map, List.length_map] at hlength
    rw [List.count, List.countP_map, List.countP_eq_length_filter]
    exact (le_of_eq hlength).trans (hle id)
  · obtain ⟨k, hk, hks⟩ := hone m hm
    have hpath := (inv_of_reachable ht' m.1).lifecycle (by rw [hks]; simp)
    rw [hks] at hpath
    exact hk ▸ hpath.follows
  · obtain ⟨k, hk, hks⟩ := hone m hm
    rw [View.stage, hks, List.getLast?_concat, Option.map_some, hk]
  · have hnone : (out.filter fun o => o.id = id).filterMap View.kind? = [] := by
      have hfilter : (out.filterMap Output.stage?).filter (·.1 = id) = [] :=
        List.filter_eq_nil_iff.mpr fun m hm => by
          simpa using fun heq : m.1 = id => hid (heq ▸ List.mem_map_of_mem hm)
      have heq := stages_eq out id
      rw [hfilter, List.map_nil] at heq
      exact List.map_eq_nil_iff.mp heq.symm
    rw [View.stage, hkinds, hnone, List.append_nil, View.stage]

/-! ### The two lists after a step -/

/-- Only a turn of `try_dispatch` takes a job from the front of the queue. -/
theorem Thread.Next.ready (h : t.Next nextDelay a t') (ha : a ≠ .tryDispatch) :
    t'.sched.ready.Sublist t.sched.ready ∨ ∃ id, t'.sched.ready = t.sched.ready ++ [id] := by
  have htransition {s s' : Scheduler} {discarded : Result Unit} {id : Uuid} {event : JobEvent}
      (hs : s.transitionJob nextDelay discarded id event = .ok s') (hready : s.ready = t.sched.ready) :
      s'.ready.Sublist t.sched.ready ∨ ∃ id, s'.ready = t.sched.ready ++ [id] := by
    obtain ⟨e, -, rfl⟩ := Scheduler.transitionJob_arm hs
    rw [← hready]
    cases hqueue : e.queue with
    | keep => exact .inl (by simp [Effect.apply, hqueue, QueueOp.apply])
    | push => exact .inr ⟨id, by simp [Effect.apply, hqueue, QueueOp.apply]⟩
    | remove => exact .inl (by simp only [Effect.apply, hqueue, QueueOp.apply]; exact List.filter_sublist)
  cases h with
  | cancelRoot | stop | disconnected | panic | finish => exact .inl (.refl _)
  | full | empty | dropped | dispatched => exact absurd rfl ha
  | worker _ _ hs | retry _ _ hs => exact htransition hs rfl
  | close _ _ hs =>
    simp only [Scheduler.handleCmd] at hs
    split at hs <;> cases hs
    exact .inl (List.nil_sublist _)
  | @command cmd _ _ _ _ _ _ hs =>
    cases cmd with
    | enqueue id => cases hs; exact .inr ⟨id, rfl⟩
    | setMaxConcurrent => cases hs; exact .inl (.refl _)
    | pause | resume | cancel =>
      simp only [Scheduler.handleCmd] at hs
      exact htransition hs rfl
    | cancelAll =>
      simp only [Scheduler.handleCmd] at hs
      split at hs <;> cases hs
      exact .inl (List.nil_sublist _)

theorem Scheduler.cancelEach_maxConcurrent {discarded : Uuid → Result Unit} {order : List Uuid} {s s' : Scheduler}
    (h : s.cancelEach nextDelay discarded order = .ok s') : s'.maxConcurrent = s.maxConcurrent := by
  induction order generalizing s with
  | nil => cases h; rfl
  | cons id ids ih =>
    unfold cancelEach at h
    split at h
    · cases h
    rename_i s₁ h₁
    exact (ih h).trans (transitionJob_workers (by simp) h₁).2

theorem Scheduler.handleCmd_cancelAll_maxConcurrent {discarded : Uuid → Result Unit} {order : List Uuid}
    {s s' : Scheduler} (h : s.handleCmd nextDelay discarded order .cancelAll = .ok s') :
    s'.maxConcurrent = s.maxConcurrent := by
  simp only [handleCmd] at h
  split at h <;> cases h
  rename_i s₁ h₁
  have hmax := cancelEach_maxConcurrent h₁
  exact hmax

/-- The limit is what the last command about it said. -/
theorem Thread.Next.limit (h : t.Next nextDelay a t') (ha : a ≠ .tryDispatch) :
    t'.sched.maxConcurrent = t.sched.maxConcurrent ∧ a.received.filterMap SchedulerCmd.limit? = [] ∨
      ∃ n : ℕ+, a.received.filterMap SchedulerCmd.limit? = [↑n] ∧ t'.sched = { t.sched with maxConcurrent := n } := by
  cases h with
  | cancelRoot | stop | disconnected | panic | finish => exact .inl ⟨rfl, rfl⟩
  | full | empty | dropped | dispatched => exact absurd rfl ha
  | worker _ _ hs | retry _ _ hs => exact .inl ⟨(Scheduler.transitionJob_workers (by simp) hs).2, rfl⟩
  | close _ _ hs => exact .inl ⟨Scheduler.handleCmd_cancelAll_maxConcurrent hs, rfl⟩
  | @command cmd _ _ _ _ _ _ hs =>
    cases cmd with
    | enqueue => cases hs; exact .inl ⟨rfl, rfl⟩
    | setMaxConcurrent n => cases hs; exact .inr ⟨n, rfl, rfl⟩
    | pause | resume | cancel =>
      simp only [Scheduler.handleCmd] at hs
      exact .inl ⟨(Scheduler.transitionJob_workers (by simp) hs).2, rfl⟩
    | cancelAll => exact .inl ⟨Scheduler.handleCmd_cancelAll_maxConcurrent hs, rfl⟩

namespace Thread.Reports

variable {ms : List (Uuid × Stage)}

/-- A stage that nothing takes a slot for. -/
theorem holds_before (h : t.Reports ms t') (hstarted : ∀ id, (id, .started) ∉ ms) {m : Uuid × Stage} (hm : m ∈ ms)
    (hx : Stage.rules.holds m.2) : ∃ x, (t.view m.1).stage = some x ∧ Stage.rules.holds x := by
  obtain ⟨id, y⟩ := m
  have hfollows := h.follows _ hm
  dsimp only at hfollows hx ⊢
  cases hv : (t.view id).stage with
  | none =>
    rw [hv] at hfollows
    cases y <;> simp_all [Stage.rules]
  | some x =>
    rw [hv] at hfollows
    refine ⟨x, rfl, ?_⟩
    cases y with
    | started => exact absurd hm (hstarted id)
    | pauseStarted | cancellationStarted => cases x <;> first | rfl | cases hfollows
    | queued | retryScheduled | paused | terminal => cases hx

/-- **The workers after a step**: those whose job came to no stage without one. -/
theorem workers_eq (h : t.Reports ms t') (ht : Reachable nextDelay t) (ht' : Reachable nextDelay t')
    (hsub : t'.sched.workers.Sublist t.sched.workers) :
    (t.sched.workers.map Worker.id).filter (fun a => ∀ m ∈ ms, m.1 = a → Stage.rules.holds m.2) =
      t'.sched.workers.map Worker.id := by
  refine eq_filter_of_sublist (hsub.map _) (workersAgree_of_reachable ht).nodup fun id hid => ?_
  rw [mem_workers_iff ht', decide_eq_true_iff]
  by_cases hmem : id ∈ ms.map Prod.fst
  · obtain ⟨m, hm, rfl⟩ := List.mem_map.mp hmem
    rw [h.stage m hm]
    constructor
    · rintro ⟨x, hx, hholds⟩ m' hm' heq
      have hstage := h.stage m' hm'
      rw [heq, h.stage m hm, hx] at hstage
      exact Option.some.inj hstage ▸ hholds
    · exact fun hall => ⟨_, rfl, hall m hm rfl⟩
  · rw [h.others id hmem]
    refine iff_of_true ((mem_workers_iff ht).mp hid) fun m hm heq => absurd (heq ▸ List.mem_map_of_mem hm) hmem

/-- **The queue after a step**: those are left that came to no other stage, and who waits anew is behind them. -/
theorem ready_eq (h : t.Reports ms t') (ht : Reachable nextDelay t) (ht' : Reachable nextDelay t')
    (hroot : t.sched.cancelRoot = false) (hroot' : t'.sched.cancelRoot = false)
    (hready : t'.sched.ready.Sublist t.sched.ready ∨ ∃ id, t'.sched.ready = t.sched.ready ++ [id]) :
    t.sched.ready.filter (· ∉ ms.map Prod.fst) ++ (ms.filter (Stage.rules.waits ·.2)).map Prod.fst =
      t'.sched.ready := by
  -- who comes to wait has not waited before
  have hnew : ∀ id ∈ (ms.filter (Stage.rules.waits ·.2)).map Prod.fst, id ∈ t'.sched.ready ∧ id ∉ t.sched.ready := by
    intro id hid
    obtain ⟨m, hm, rfl⟩ := List.mem_map.mp hid
    obtain ⟨hm, hwaits⟩ := List.mem_filter.mp hm
    have hx : m.2 = .queued := of_decide_eq_true hwaits
    refine ⟨(mem_ready_iff ht' hroot').mpr (hx ▸ h.stage m hm), fun hmem => ?_⟩
    have hfollows := h.follows m hm
    rw [(mem_ready_iff ht hroot).mp hmem, hx] at hfollows
    cases hfollows
  have hkept : ∀ id ∈ t.sched.ready, id ∈ t'.sched.ready ↔ id ∉ ms.map Prod.fst := by
    intro id hid
    rw [mem_ready_iff ht' hroot']
    constructor
    · intro hx hmem
      obtain ⟨m, hm, rfl⟩ := List.mem_map.mp hmem
      have hx : m.2 = .queued := Option.some.inj ((h.stage m hm).symm.trans hx)
      exact (hnew m.1 (List.mem_map_of_mem (List.mem_filter.mpr ⟨hm, decide_eq_true hx⟩))).2 hid
    · exact fun hmem => (h.others id hmem).trans ((mem_ready_iff ht hroot).mp hid)
  have hnodup : ((ms.filter (Stage.rules.waits ·.2)).map Prod.fst).Nodup :=
    h.nodup.sublist (List.filter_sublist.map _)
  rcases hready with hsub | ⟨id, hpush⟩
  · have hnil : (ms.filter (Stage.rules.waits ·.2)).map Prod.fst = [] :=
      List.eq_nil_iff_forall_not_mem.mpr fun id hid => (hnew id hid).2 (hsub.subset (hnew id hid).1)
    rw [hnil, List.append_nil]
    exact eq_filter_of_sublist hsub (readyAgrees_of_reachable ht hroot).nodup fun id hid => by
      rw [hkept id hid, decide_eq_true_iff]
  · have hid : id ∉ t.sched.ready := by
      have hnodup' := (readyAgrees_of_reachable ht' hroot').nodup
      rw [hpush] at hnodup'
      exact fun hmem => List.disjoint_of_nodup_append hnodup' hmem (List.mem_singleton_self id)
    have hfilter : t.sched.ready.filter (· ∉ ms.map Prod.fst) = t.sched.ready := by
      refine List.filter_eq_self.mpr fun other hmem => decide_eq_true ?_
      exact (hkept other hmem).mp (hpush ▸ List.mem_append_left _ hmem)
    have hmem : id ∈ (ms.filter (Stage.rules.waits ·.2)).map Prod.fst := by
      have hx : (t'.view id).stage = some .queued :=
        (mem_ready_iff ht' hroot').mp (hpush ▸ List.mem_append_right _ (List.mem_singleton_self id))
      have hmem : id ∈ ms.map Prod.fst := by
        by_contra hmem
        exact hid ((mem_ready_iff ht hroot).mpr ((h.others id hmem).symm.trans hx))
      obtain ⟨m, hm, rfl⟩ := List.mem_map.mp hmem
      have hwaits : m.2 = .queued := Option.some.inj ((h.stage m hm).symm.trans hx)
      exact List.mem_map_of_mem (List.mem_filter.mpr ⟨hm, decide_eq_true hwaits⟩)
    rw [hfilter, hpush, eq_singleton_of_forall hnodup hmem fun other hother => ?_]
    have hother' := (hnew other hother).1
    rw [hpush, List.mem_append, List.mem_singleton] at hother'
    exact hother'.resolve_left (hnew other hother).2

end Thread.Reports

/-! ### The simulation -/

namespace Thread

/-- The slots have had the reports of the thread, and are where the thread is. -/
structure Matches (t : Thread) (reports : List (Slots.Report Uuid Stage)) (slots : Slots Uuid Stage) : Prop where
  /-- The stages are those of its events. -/
  stages : reports.filterMap Slots.Report.stage? = t.sched.log.filterMap Output.stage?
  /-- The limits are those of its commands. -/
  limits : reports.filterMap Slots.Report.limit? = t.handled.filterMap SchedulerCmd.limit?
  /-- A stage is what the last event says. -/
  stage : ∀ id, slots.stage id = (t.view id).stage
  /-- Those who hold a slot have a worker. -/
  held : slots.held = t.sched.workers.map Worker.id
  /-- Those in the queue are in `ready`. -/
  queue : t.sched.cancelRoot = false → slots.queue = t.sched.ready
  /-- The limit is the same. -/
  limit : slots.limit = t.sched.maxConcurrent

variable {reports : List (Slots.Report Uuid Stage)} {slots : Slots Uuid Stage}

/-- The slots go on to where the thread is. -/
def Followed (reports : List (Slots.Report Uuid Stage)) (slots : Slots Uuid Stage) (t' : Thread) : Prop :=
  ∃ new slots', Machine.exec (Slots.step Stage.rules) slots new = some slots' ∧ t'.Matches (reports ++ new) slots'

/-- They are there already. -/
theorem Followed.refl (h : t.Matches reports slots) : Followed reports slots t :=
  ⟨[], slots, rfl, by rwa [List.append_nil]⟩

theorem Matches.new (maxConcurrent : ℕ+) : (Thread.new maxConcurrent).Matches [] (.new maxConcurrent) :=
  ⟨rfl, rfl, fun _ => rfl, rfl, fun _ => rfl, rfl⟩

/-- Nothing the slots know of has changed. -/
theorem Matches.unchanged (h : t.Matches reports slots) (hlog : t'.sched.log = t.sched.log)
    (hhandled : t'.handled = t.handled) (hworkers : t'.sched.workers = t.sched.workers)
    (hlimit : t'.sched.maxConcurrent = t.sched.maxConcurrent)
    (hqueue : t'.sched.cancelRoot = false → t.sched.cancelRoot = false ∧ t'.sched.ready = t.sched.ready) :
    t'.Matches reports slots := by
  have hstage (id : Uuid) : (t'.view id).stage = (t.view id).stage := by
    have hkinds : (t'.view id).kinds = (t.view id).kinds :=
      congrArg (fun log : List Output => (log.filter fun o : Output => o.id = id).filterMap View.kind?) hlog
    rw [View.stage, hkinds, View.stage]
  refine ⟨hlog ▸ h.stages, hhandled ▸ h.limits, fun id => (h.stage id).trans (hstage id).symm, hworkers ▸ h.held,
    fun hroot => ?_, hlimit ▸ h.limit⟩
  rw [(hqueue hroot).2]
  exact h.queue (hqueue hroot).1

/-- **A step in which nobody takes a slot.** -/
theorem Matches.step (h : t.Matches reports slots) (ht : Reachable nextDelay t) (hstep : t.step nextDelay a = some t')
    (ha : a ≠ .tryDispatch) (hroot : a ≠ .cancelRoot) : Followed reports slots t' := by
  have hnext := next_of_step hstep
  have hroot' : t'.sched.cancelRoot = t.sched.cancelRoot :=
    (hnext.cancelRoot_eq (inv_of_reachable ht)).resolve_right fun hc => hroot hc.1
  rcases hnext.limit ha with ⟨hlimit, hnone⟩ | ⟨n, hn, hsched⟩
  · obtain ⟨out, hlog, hstarted⟩ := hnext.started.resolve_right fun ⟨_, hd, _⟩ => ha hd
    have hreports := hnext.reports ht (ht.step hstep) out hlog
    have hstarted' : ∀ id, (id, .started) ∉ out.filterMap Output.stage? := by
      intro id hmem
      obtain ⟨o, ho, hstage⟩ := List.mem_filterMap.mp hmem
      cases o with
      | event i kind =>
        cases kind <;> cases hstage
        exact hstarted id ho
      | ack | result => cases hstage
    have hworkers := hnext.workers.resolve_right fun ⟨hd, _⟩ => ha hd
    have hstages : t'.sched.log.filterMap Output.stage? =
        t.sched.log.filterMap Output.stage? ++ out.filterMap Output.stage? := by rw [hlog, List.filterMap_append]
    generalize out.filterMap Output.stage? = ms at hreports hstarted' hstages
    have hheld : ∀ m ∈ ms, Stage.rules.holds m.2 → m.1 ∈ slots.held := fun m hm hx => by
      rw [h.held]
      exact (mem_workers_iff ht).mpr (hreports.holds_before hstarted' hm hx)
    have hexec := Slots.exec_stages hreports.nodup (fun m hm => (h.stage m.1).symm ▸ hreports.follows m hm) hheld
    refine ⟨_, _, hexec, ?_, ?_, fun id => ?_, ?_, fun hr => ?_, ?_⟩
    · rw [List.filterMap_append, h.stages, hstages, List.filterMap_map]
      congr 1
      exact List.filterMap_some
    · rw [List.filterMap_append, h.limits, hnext.handled_eq, List.filterMap_append, hnone, List.filterMap_map]
      congr 1
      exact List.filterMap_eq_nil_iff.mpr fun _ _ => rfl
    · rw [Slots.enterAll_stage, h.stage]
      cases hlast : ((ms.filter (·.1 = id)).map Prod.snd).getLast? with
      | none =>
        rw [List.getLast?_eq_none_iff, List.map_eq_nil_iff, List.filter_eq_nil_iff] at hlast
        refine (hreports.others id fun hid => ?_).symm
        obtain ⟨m, hm, rfl⟩ := List.mem_map.mp hid
        exact hlast m hm (decide_eq_true rfl)
      | some x =>
        obtain ⟨m, hm, rfl⟩ := List.mem_map.mp (List.mem_of_getLast? hlast)
        obtain ⟨hm, hid⟩ := List.mem_filter.mp hm
        rw [← of_decide_eq_true hid]
        exact (hreports.stage m hm).symm
    · rw [Slots.enterAll_held hreports.nodup hheld, h.held]
      exact hreports.workers_eq ht (ht.step hstep) hworkers
    · rw [hroot'] at hr
      rw [Slots.enterAll_queue hreports.nodup, h.queue hr]
      exact hreports.ready_eq ht (ht.step hstep) hr (hroot'.trans hr) (hnext.ready ha)
    · rw [hlimit]
      exact (congrArg Slots.limit (Slots.enterAll_limit slots slots.limit ms)).trans h.limit
  · refine ⟨[.limit n], { slots with limit := n }, rfl, ?_, ?_, fun id => ?_, ?_, fun hr => ?_, ?_⟩
    · rw [List.filterMap_append, h.stages, hsched]
      exact List.append_nil _
    · rw [List.filterMap_append, h.limits, hnext.handled_eq, List.filterMap_append, hn]
      rfl
    · have hkinds : (t'.view id).kinds = (t.view id).kinds := by
        simp only [View.kinds, view, Scheduler.view, hsched]
      rw [h.stage id, View.stage, ← hkinds, View.stage]
    · rw [hsched]
      exact h.held
    · rw [hsched]
      exact h.queue (hroot' ▸ hr)
    · rw [hsched]

/-- **A turn of `try_dispatch`**: nobody takes a slot, or the job at the front of the queue does. -/
theorem Matches.tryDispatch (h : t.Matches reports slots) (ht : Reachable nextDelay t)
    (hstep : t.step nextDelay .tryDispatch = some t') : Followed reports slots t' := by
  have hp : t.phase = .dispatching := by
    simp only [Thread.step] at hstep
    split_ifs at hstep with hp
    exact hp
  by_cases hroom : t.sched.room = 0
  · obtain rfl := Option.some.inj ((turn_ends hp hroom).symm.trans hstep)
    exact .refl (h.unchanged rfl rfl rfl rfl fun hroot => ⟨hroot, rfl⟩)
  obtain ⟨hlt, hpos⟩ : t.sched.workers.length < t.sched.maxConcurrent ∧ 0 < t.sched.ready.length := by
    rw [Scheduler.room] at hroom
    omega
  obtain ⟨id, rest, hready⟩ := List.exists_cons_of_length_pos hpos
  cases hroot : t.sched.cancelRoot with
  | true =>
    -- the job is popped in vain
    simp only [Thread.step, hp, if_true, Thread.tryDispatch, hlt, hready, hroot, Option.some.injEq] at hstep
    subst hstep
    exact .refl (h.unchanged rfl rfl rfl rfl fun hc => by cases hc)
  | false =>
    have hagree := readyAgrees_of_reachable ht hroot
    obtain ⟨job, hjob, hqueued⟩ := (hagree.mem_iff id).mp (by simp [hready])
    obtain rfl := Option.some.inj ((turn_starts nextDelay hp hroot hlt hready hjob hqueued).symm.trans hstep)
    have hstage : (t.view id).stage = some .queued := (mem_ready_iff ht hroot).mp (by simp [hready])
    have hid : id ∉ t.sched.workers.map Worker.id := by
      rw [mem_workers_iff ht, hstage]
      simp [Stage.rules]
    have hrest : id ∉ rest := (List.nodup_cons.mp (hready ▸ hagree.nodup)).1
    have hreports := (next_of_step hstep).reports ht (ht.step hstep) [.event id .started] rfl
    have hqueue : slots.queue = id :: rest := (h.queue hroot).trans hready
    have hadmits : slots.Admits id := .inr ⟨by rw [hqueue]; rfl, by rw [h.held, h.limit, List.length_map]; exact hlt⟩
    have haccepts : slots.step Stage.rules (.stage id .started) = some (slots.enter Stage.rules (id, .started)) :=
      Slots.step_stage (by rw [h.stage, hstage]; rfl) fun _ => hadmits
    refine ⟨[.stage id .started], _, (Machine.exec_cons_eq_some _).mpr ⟨_, haccepts, rfl⟩, ?_, ?_, fun other => ?_, ?_,
      fun _ => ?_, h.limit⟩
    · rw [List.filterMap_append, h.stages, Scheduler.startFront, List.filterMap_append]
      rfl
    · rw [List.filterMap_append, h.limits]
      exact List.append_nil _
    · by_cases hother : other = id
      · subst hother
        exact (Function.update_self ..).trans (hreports.stage _ List.mem_cons_self).symm
      · refine (Function.update_of_ne hother _ _).trans ((h.stage other).trans (hreports.others other ?_).symm)
        exact fun hmem => hother (List.mem_singleton.mp hmem)
    · simp [Slots.enter, Stage.rules, h.held, hid, Scheduler.startFront]
    · have hfilter : rest.filter (· ≠ id) = rest :=
        List.filter_eq_self.mpr fun other hmem => decide_eq_true (ne_of_mem_of_not_mem hmem hrest)
      simpa [Slots.enter, Stage.rules, hqueue, Scheduler.startFront] using hfilter

/-- **A step of the thread is one of the slots, or none.** -/
theorem Matches.next (h : t.Matches reports slots) (ht : Reachable nextDelay t)
    (hstep : t.step nextDelay a = some t') : Followed reports slots t' := by
  by_cases ha : a = .tryDispatch
  · subst ha
    exact h.tryDispatch ht hstep
  by_cases hroot : a = .cancelRoot
  · subst hroot
    cases hstep
    exact .refl (h.unchanged rfl rfl rfl rfl nofun)
  · exact h.step ht hstep ha hroot

/-- What the slots show. -/
theorem Matches.shown (h : t.Matches reports slots) (ht : Reachable nextDelay t) : t.sched.Shown slots where
  live id job hjob := (h.stage id).trans ((inv_of_reachable ht id).stage.1 job hjob)
  gone id hjob := by
    rw [h.stage id]
    exact (inv_of_reachable ht id).stage.2 hjob
  held := h.held
  queue := h.queue
  limit := h.limit

/-- A run is matched by one of the slots. -/
theorem exists_matches {maxConcurrent : ℕ+} {as : List Action}
    (hrun : Machine.exec (step nextDelay) (.new maxConcurrent) as = some t) :
    ∃ reports slots, Machine.exec (Slots.step Stage.rules) (.new maxConcurrent) reports = some slots ∧
      t.Matches reports slots :=
  Machine.exec_simulates (step nextDelay) (Matches.new maxConcurrent)
    (fun _ _ _ _ _ _ hs h hstep => h.next (.exec (.init ⟨maxConcurrent, rfl⟩) hs) hstep) as hrun

/-- **The scheduler refines slots with a queue.** The events of a run, each a stage a download comes to, and the limits
of its commands, in between, are a history the slots accept: each stage may come next, a slot is taken by the first in
the queue, when one is free, and in no other way. At its end the slots are where the scheduler is. -/
theorem run_refines_slots {maxConcurrent : ℕ+} {as : List Action}
    (hrun : Machine.exec (step nextDelay) (.new maxConcurrent) as = some t) :
    ∃ reports slots, Machine.exec (Slots.step Stage.rules) (.new maxConcurrent) reports = some slots ∧
      reports.filterMap Slots.Report.stage? = t.sched.log.filterMap Output.stage? ∧
      reports.filterMap Slots.Report.limit? = t.handled.filterMap SchedulerCmd.limit? ∧ t.sched.Shown slots := by
  obtain ⟨reports, slots, hslots, h⟩ := exists_matches hrun
  exact ⟨reports, slots, hslots, h.stages, h.limits, h.shown (.exec (.init ⟨maxConcurrent, rfl⟩) hrun)⟩

/-- Of a download that fails, is paused and resumed, fails again and is cancelled with the manager. -/
theorem run_refines_slots_failing_twice :
    ∃ t reports slots, Machine.exec (step backoffStrategy.nextDelay) (.new 1) failingTwiceThenStopped = some t ∧
      Machine.exec (Slots.step Stage.rules) (.new 1) reports = some slots ∧
      reports.filterMap Slots.Report.stage? = [(0, .queued), (0, .started), (0, .retryScheduled), (0, .paused),
        (0, .queued), (0, .started), (0, .retryScheduled), (0, .terminal)] ∧ t.sched.Shown slots := by
  obtain ⟨t, ht, hlog, -⟩ := exists_run backoffStrategy.nextDelay 1 failingTwiceThenStopped
    (fun t => t.sched.log.filterMap Output.stage? = [(0, .queued), (0, .started), (0, .retryScheduled), (0, .paused),
      (0, .queued), (0, .started), (0, .retryScheduled), (0, .terminal)]) (by decide)
  obtain ⟨reports, slots, hslots, hstages, -, hshown⟩ := run_refines_slots ht
  exact ⟨t, reports, slots, ht, hslots, hstages.trans hlog, hshown⟩

/-- The slots do not accept that a download is overtaken. -/
example : (Machine.exec (Slots.step Stage.rules) (.new 1)
    [.stage 0 .queued, .stage 1 .queued, .stage 1 .started]).isNone := by decide

end Thread

end DownloadManager
