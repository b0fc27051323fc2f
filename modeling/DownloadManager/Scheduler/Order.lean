import DownloadManager.Scheduler.Collections

/-!
# The order of starts

Three arms push to `ready`, two take a job out of its middle, and `try_dispatch`
pops its front. What they keep is said by the log: `ready` is a part of the jobs in
the order of their latest `Queued` event (`ReadyOrdered`), and while the root token is
not cancelled it is the part that waits. A job that waits is therefore not overtaken by
one queued after it.
-/

namespace DownloadManager

/-! ### The latest occurrences of a list -/

section

variable {α : Type*} [DecidableEq α]

/-- One more occurrence: it becomes the latest. -/
theorem sublist_dedup_concat {l r : List α} {a : α} (h : r.Sublist l.dedup) (ha : a ∉ r) :
    (r ++ [a]).Sublist (l ++ [a]).dedup := by
  induction l generalizing r with
  | nil =>
    rw [List.dedup_nil, List.sublist_nil] at h
    simp [h]
  | cons x l ih =>
    rw [List.cons_append]
    by_cases hx : x ∈ l
    · rw [List.dedup_cons_of_mem hx] at h
      rw [List.dedup_cons_of_mem (List.mem_append_left _ hx)]
      exact ih h ha
    · rw [List.dedup_cons_of_notMem hx] at h
      by_cases hxa : x = a
      · subst hxa
        rw [List.dedup_cons_of_mem (List.mem_append_right _ (List.mem_singleton_self x))]
        refine ih ?_ ha
        cases h with
        | cons _ h => exact h
        | cons_cons => exact absurd List.mem_cons_self ha
      · rw [List.dedup_cons_of_notMem (by simp [hx, hxa])]
        cases h with
        | cons _ h => exact (ih h ha).cons x
        | cons_cons _ h => exact (ih h fun hmem => ha (List.mem_cons_of_mem _ hmem)).cons_cons x

/-- What occurs later comes later. -/
theorem not_sublist_dedup {l l' : List α} {a b : α} (ha : a ∉ l') (hb : b ∈ l') :
    ¬[b, a].Sublist (l ++ a :: l').dedup := by
  induction l with
  | nil =>
    intro h
    rw [List.nil_append, List.dedup_cons_of_notMem ha] at h
    cases h with
    | cons _ h => exact ha (List.mem_dedup.mp (h.subset (by simp)))
    | cons_cons => exact ha hb
  | cons x l ih =>
    intro h
    have hmem : b ∈ l ++ a :: l' := List.mem_append_right _ (List.mem_cons_of_mem _ hb)
    by_cases hx : x ∈ l ++ a :: l'
    · rw [List.cons_append, List.dedup_cons_of_mem hx] at h
      exact ih h
    · rw [List.cons_append, List.dedup_cons_of_notMem hx] at h
      cases h with
      | cons _ h => exact ih h
      | cons_cons => exact hx hmem

end

/-! ### The queue and the log -/

/-- The job an output reports an event of. -/
def Output.reports? (kind : EventKind) : Output → Option Uuid
  | .event id kind' => if kind' = kind then some id else none
  | _ => none

/-- The jobs queued, by their `Queued` events, oldest first. -/
def queuings (log : List Output) : List Uuid := log.filterMap (Output.reports? .queued)

/-- Does the record say that the job waits for a worker? -/
def isWaiting (job : Option Job) : Bool := job.any fun job => job.state = .queued

/-- `ready` is ordered by the latest `Queued` events. -/
structure Scheduler.ReadyOrdered (s : Scheduler) : Prop where
  /-- The jobs in it wait. -/
  waits : ∀ id ∈ s.ready, isWaiting (s.jobs.lookup id)
  /-- Their order. -/
  order : s.ready.Sublist (queuings s.log).dedup

variable {nextDelay : UInt32 → Except Panic Duration} {discarded : Result Unit} {token : Token} {id : Uuid}
  {event : JobEvent} {e : Effect}

@[simp] theorem queuings_append (log log' : List Output) : queuings (log ++ log') = queuings log ++ queuings log' :=
  List.filterMap_append

theorem mem_queuings {log : List Output} : id ∈ queuings log ↔ .event id .queued ∈ log := by
  unfold queuings
  rw [List.mem_filterMap]
  constructor
  · rintro ⟨o, ho, hid⟩
    cases o with
    | event i kind =>
      simp only [Output.reports?, Option.ite_none_right_eq_some, Option.some.injEq] at hid
      obtain ⟨rfl, rfl⟩ := hid
      exact ho
    | ack | result => cases hid
  · exact fun h => ⟨_, h, by simp [Output.reports?]⟩

/-- An end is none of the events on the way. -/
theorem not_mem_finalize {job : Job} {result : Result DownloadResult} {kind : EventKind}
    (hkind : kind.stage ≠ .terminal) :
    .event id kind ∉ job.finalize result := by
  intro h
  rw [Job.finalize_eq, List.mem_append, List.mem_cons] at h
  rcases h with h | h | h
  · simp [Job.answer] at h
  · cases h
    exact hkind (stage_kindOf result)
  · simp at h

theorem queuings_eq_nil {out : List Output} (h : ∀ id, .event id .queued ∉ out) : queuings out = [] :=
  List.eq_nil_iff_forall_not_mem.mpr fun id hid => h id (mem_queuings.mp hid)

namespace Scheduler

/-- What an arm does to the queue, and what it says of it. -/
inductive QueueStep (s : Scheduler) (id : Uuid) (e : Effect) : Prop
  /-- The job is queued, at the end. -/
  | push (hold : isWaiting (s.jobs.lookup id) = false) (hnew : isWaiting e.job)
      (hqueue : e.queue = .push) (hout : queuings e.out = [id])
  /-- The job is taken out. -/
  | remove (hqueue : e.queue = .remove) (hout : queuings e.out = [])
  /-- The job stays where it is. -/
  | keep (hjob : id ∈ s.ready → isWaiting (s.jobs.lookup id) → isWaiting e.job)
      (hqueue : e.queue = .keep) (hout : queuings e.out = [])

theorem queueStep_of_arm {s : Scheduler} (htaken : s.Taken id event)
    (h : Arm nextDelay discarded s.tokens id (s.jobs.lookup id) event e) : s.QueueStep id e := by
  cases hjob : s.jobs.lookup id with
  | none =>
    rw [hjob] at h
    cases h with
    | unknown => exact .keep (fun _ h => by simp [hjob, isWaiting] at h) rfl rfl
    | unknownAck => exact .keep (fun _ h => by simp [hjob, isWaiting] at h) rfl rfl
  | some job =>
    rw [hjob] at h
    have hkeep {job' : Job} (hs : job'.state = job.state) (_ : id ∈ s.ready)
        (hw : isWaiting (s.jobs.lookup id)) : isWaiting (some job') := by
      simpa [hjob, isWaiting, hs] using hw
    cases h with
    | requeue hs | resumePaused hs =>
      refine .push ?_ ?_ rfl rfl
      · simp [hjob, isWaiting, hs]
      · simp [isWaiting]
    | pauseQueued => exact .remove rfl rfl
    | cancelIdle => exact .remove rfl (queuings_eq_nil fun _ => not_mem_finalize (by simp [EventKind.stage]))
    | start | notQueued => exact .keep (fun hmem => absurd hmem htaken) rfl rfl
    | finished | cancelled | stopped | failed | invalid =>
      refine .keep (fun hmem => absurd hmem htaken.1) rfl (queuings_eq_nil fun _ => not_mem_finalize ?_)
      simp [EventKind.stage]
    | paused | pausedRetry =>
      refine .keep (fun hmem => absurd hmem htaken.1) rfl (queuings_eq_nil fun _ => ?_)
      simp [Job.answer]
    | retry => exact .keep (fun hmem => absurd hmem htaken.1) rfl rfl
    | stale | pausePaused | pauseCancelling | resumeLive | resumeBusy | cancelAgain => exact .keep (hkeep rfl) rfl rfl
    | pauseRetrying hs | pauseRunning hs | pausePausing hs | cancelRunning hs =>
      exact .keep (fun _ hw => by simp [hjob, isWaiting, hs] at hw) rfl rfl
    | cancelPausing hs =>
      refine .keep (fun _ hw => by simp [hjob, isWaiting, hs] at hw) rfl (queuings_eq_nil fun _ => ?_)
      simp

/-- **The step of the order**: an arm keeps it. -/
theorem ReadyOrdered.apply {s : Scheduler} (h : s.ReadyOrdered) (hstep : s.QueueStep id e) :
    (e.apply s id).ReadyOrdered := by
  have hother {other : Uuid} (hne : other ≠ id) (hmem : other ∈ s.ready) :
      isWaiting ((e.apply s id).jobs.lookup other) := by
    simp only [Effect.apply, Jobs.lookup_put_of_ne s.jobs e.job hne]
    exact h.waits other hmem
  have hself : (e.apply s id).jobs.lookup id = e.job := Jobs.lookup_put_self s.jobs id e.job
  have hlog : queuings (e.apply s id).log = queuings s.log ++ queuings e.out := queuings_append s.log e.out
  cases hstep with
  | push hold hnew hqueue hout =>
    have hready : (e.apply s id).ready = s.ready ++ [id] := by simp [Effect.apply, hqueue, QueueOp.apply]
    have hid : id ∉ s.ready := fun hmem => by simpa [hold] using h.waits id hmem
    refine ⟨fun other hmem => ?_, ?_⟩
    · rw [hready, List.mem_append, List.mem_singleton] at hmem
      rcases hmem with hmem | rfl
      · exact hother (fun heq => hid (heq ▸ hmem)) hmem
      · rw [hself]
        exact hnew
    · rw [hready, hlog, hout]
      exact sublist_dedup_concat h.order hid
  | remove hqueue hout =>
    have hready : (e.apply s id).ready = s.ready.filter (· ≠ id) := by simp [Effect.apply, hqueue, QueueOp.apply]
    refine ⟨fun other hmem => ?_, ?_⟩
    · rw [hready, List.mem_filter] at hmem
      exact hother (by simpa using hmem.2) hmem.1
    · rw [hready, hlog, hout, List.append_nil]
      exact List.filter_sublist.trans h.order
  | keep hjob hqueue hout =>
    have hready : (e.apply s id).ready = s.ready := by simp [Effect.apply, hqueue, QueueOp.apply]
    refine ⟨fun other hmem => ?_, ?_⟩
    · rw [hready] at hmem
      by_cases hne : other = id
      · subst hne
        rw [hself]
        exact hjob hmem (h.waits other hmem)
      · exact hother hne hmem
    · rw [hready, hlog, hout, List.append_nil]
      exact h.order

/-- **The queue is ordered** after every step. -/
theorem ReadyOrdered.invariant : SchedulerInvariant nextDelay ReadyOrdered where
  new _ := ⟨by simp [new], List.nil_sublist _⟩
  take h _ _ hjobs hlog hready _ := by
    constructor
    · rw [hjobs]
      exact fun id hmem => h.waits id (hready.subset hmem)
    · rw [hlog]
      exact hready.trans h.order
  schedule {s job} h hqueued _ hready _ := by
    refine ⟨fun id hmem => ?_, ?_⟩
    · simp only [schedule, emit, send, List.mem_append, List.mem_singleton] at hmem ⊢
      rcases hmem with hmem | rfl
      · have hne : id ≠ job.id := fun heq => hready (heq ▸ hmem)
        rw [Finmap.lookup_insert_of_ne _ hne]
        exact h.waits id hmem
      · simp [isWaiting, hqueued]
    · simp only [schedule, emit, send, queuings_append]
      exact sublist_dedup_concat h.order hready
  arm h htaken ha := h.apply (queueStep_of_arm htaken ha)

end Scheduler

variable {t t' : Thread}

/-- **The queue is the jobs that wait**, in the order of their latest `Queued` events. -/
theorem ready_eq (ht : Thread.Reachable nextDelay t) (hroot : t.sched.cancelRoot = false) :
    t.sched.ready = (queuings t.sched.log).dedup.filter fun id => isWaiting (t.sched.jobs.lookup id) := by
  have hordered := Scheduler.ReadyOrdered.invariant.reachable ht
  have hagree := readyAgrees_of_reachable ht hroot
  have hsub := hordered.order.filter fun id => isWaiting (t.sched.jobs.lookup id)
  rw [List.filter_eq_self.mpr hordered.waits] at hsub
  refine hsub.eq_of_length_le (List.Subperm.length_le ?_)
  refine ((List.nodup_dedup _).filter _).subperm fun id hmem => ?_
  have hwaits := (List.mem_filter.mp hmem).2
  cases hjob : t.sched.jobs.lookup id with
  | none => simp [hjob, isWaiting] at hwaits
  | some job => exact (hagree.mem_iff id).mpr ⟨job, hjob, by simpa [hjob, isWaiting] using hwaits⟩

/-! ### What a waiting job may see before it starts -/

/-- What comes after a `Queued` event of a job that is neither started nor paused nor ended: nothing. -/
theorem Inv.queued_of_kinds {root : Bool} {v : View} {before after : List EventKind} (hv : Inv root id v)
    (hkinds : v.kinds = before ++ .queued :: after)
    (hafter : ∀ kind, after.head? = some kind → kind ≠ .started ∧ kind ≠ .paused ∧ kind.stage ≠ .terminal) :
    after = [] ∧ ∃ job, v.job = some job ∧ job.state = .queued := by
  have hlife : Lifecycle v.kinds := by
    rcases v.job.eq_none_or_eq_some with hj | ⟨job, hj⟩
    · rcases ((inv_none hj).mp hv).2.2.2 with hu | ho
      · simp [hu.kinds] at hkinds
      · exact ho.path
    · exact ((inv_some hj).mp hv).path
  have hnil : after = [] := by
    cases after with
    | nil => rfl
    | cons kind after =>
      have hchain := hlife.2
      rw [hkinds, List.isChain_append] at hchain
      have hnext := (List.isChain_cons_cons.mp hchain.2.1).1
      have hkind := hafter kind rfl
      cases kind <;> simp_all [EventKind.stage, Stage.Follows]
  have hlast : v.kinds.getLast? = some .queued := by rw [hkinds, hnil, List.getLast?_concat]
  refine ⟨hnil, ?_⟩
  rcases v.job.eq_none_or_eq_some with hj | ⟨job, hj⟩
  · rcases ((inv_none hj).mp hv).2.2.2 with hu | ho
    · simp [hu.kinds] at hkinds
    · obtain ⟨_, _, value, -, -, hend⟩ := ho.result
      have hterminal := stage_kindOf value
      rw [hlast, Option.some.injEq] at hend
      rw [← hend] at hterminal
      cases hterminal
  · refine ⟨job, hj, ?_⟩
    obtain ⟨kind, hend, hrep⟩ := ((inv_some hj).mp hv).last
    rw [hlast, Option.some.injEq] at hend
    subst hend
    cases hs : job.state <;> simp_all [JobState.Reported]

/-- Only `Dispatch` starts a job. -/
theorem Arm.not_started {job? : Option Job} (h : Arm nextDelay discarded token id job? event e)
    (hevent : event ≠ .dispatch)
    (other : Uuid) : .event other .started ∉ e.out := by
  cases h with
  | start | notQueued => exact absurd rfl hevent
  | cancelIdle | finished | cancelled | stopped | failed | invalid => exact not_mem_finalize (by simp [EventKind.stage])
  | paused | pausedRetry => simp [Job.answer]
  | _ => simp

/-- **Who is started**: the job at the front of the queue. -/
theorem Thread.Next.started {a : Action} (h : t.Next nextDelay a t') :
    (∃ out, t'.sched.log = t.sched.log ++ out ∧ ∀ id, .event id .started ∉ out) ∨
      ∃ id, a = .tryDispatch ∧ t.sched.ready.head? = some id ∧ t'.sched.log = t.sched.log ++ [.event id .started] := by
  have htransition {s s' : Scheduler} {discarded : Result Unit} {id : Uuid} {event : JobEvent}
      (hs : s.transitionJob nextDelay discarded id event = .ok s') (hlog : s.log = t.sched.log)
      (hevent : event ≠ .dispatch) : ∃ out, s'.log = t.sched.log ++ out ∧ ∀ id, .event id .started ∉ out := by
    obtain ⟨e, harm, rfl⟩ := Scheduler.transitionJob_arm hs
    exact ⟨e.out, by rw [← hlog]; rfl, harm.not_started hevent⟩
  have hcancelAll {discarded : Uuid → Result Unit} {order : List Uuid} {s' : Scheduler}
      (hs : t.sched.handleCmd nextDelay discarded order .cancelAll = .ok s') :
      ∃ out, s'.log = t.sched.log ++ out ∧ ∀ id, .event id .started ∉ out := by
    simp only [Scheduler.handleCmd] at hs
    split at hs <;> cases hs
    rename_i s₁ h₁
    obtain ⟨out, hlog, hout⟩ := Scheduler.cancelEach_log (Q := fun o => ∀ id, o ≠ .event id .started)
      (fun harm o ho id heq => harm.not_started (by simp) id (heq ▸ ho)) h₁
    exact ⟨out, hlog, fun id hmem => hout _ hmem id rfl⟩
  cases h with
  | cancelRoot | stop | disconnected | panic | full | empty | dropped | finish => exact .inl ⟨[], by simp, by simp⟩
  | worker _ _ hs => exact .inl (htransition hs rfl (by simp))
  | retry _ _ hs => exact .inl (htransition hs rfl (by simp))
  | close _ _ hs => exact .inl (hcancelAll hs)
  | @command cmd _ _ s' _ _ _ hs =>
    refine .inl ?_
    cases cmd with
    | enqueue id => cases hs; exact ⟨[.event id .queued], rfl, by simp⟩
    | setMaxConcurrent => cases hs; exact ⟨[], by simp, by simp⟩
    | pause | resume | cancel =>
      simp only [Scheduler.handleCmd] at hs
      exact htransition hs rfl (by simp)
    | cancelAll => exact hcancelAll hs
  | @dispatched id ready _ _ _ hready hs =>
    obtain ⟨e, harm, rfl⟩ := Scheduler.transitionJob_arm hs
    generalize hjob : ({ t.sched with ready := ready } : Scheduler).jobs.lookup id = job? at harm
    cases harm with
    | start => exact .inr ⟨id, rfl, by simp [hready], rfl⟩
    | notQueued | unknown => exact .inl ⟨[], rfl, by simp⟩
    | unknownAck h => rcases h with h | h <;> cases h

/-- Nothing is started once the root token is cancelled. -/
theorem Thread.tryDispatch_log {a : Action} (ha : a = .tryDispatch) (h : t.step nextDelay a = some t')
    (hroot : t.sched.cancelRoot) : t'.sched.log = t.sched.log := by
  subst ha
  simp only [step] at h
  split_ifs at h
  cases h
  unfold tryDispatch
  split_ifs
  · split
    · rfl
    · simp [hroot]
  · rfl

/-! ### No overtaking -/

/-- The first event of a job in a part of the log. -/
def firstEvent? (id : Uuid) (log : List Output) : Option EventKind :=
  ((log.filter fun o => o.id = id).filterMap View.kind?).head?

/-- In the log, a job `a` queued before a job `b` is started before it, unless the first thing that happens to `a` is
that it is paused, or ends. -/
def NotOvertaken (log : List Output) : Prop :=
  ∀ a b l₁ l₂ l₃ l₄, a ≠ b →
    log = l₁ ++ .event a .queued :: l₂ ++ .event b .queued :: l₃ ++ .event b .started :: l₄ →
    (∀ kind, firstEvent? a (l₂ ++ l₃) = some kind → kind ≠ .paused ∧ kind.stage ≠ .terminal) →
    firstEvent? a (l₂ ++ l₃) = some .started

/-- **The front of the queue** overtakes nobody. -/
theorem started_of_head (ht : Thread.Reachable nextDelay t) (hroot : t.sched.cancelRoot = false) {a b : Uuid}
    {l₁ l₂ l₃ : List Output} (hab : a ≠ b) (hb : t.sched.ready.head? = some b)
    (hlog : t.sched.log = l₁ ++ .event a .queued :: l₂ ++ .event b .queued :: l₃)
    (hquiet : ∀ kind, firstEvent? a (l₂ ++ l₃) = some kind → kind ≠ .paused ∧ kind.stage ≠ .terminal) :
    firstEvent? a (l₂ ++ l₃) = some .started := by
  by_contra hnot
  have hkinds : (t.view a).kinds = (l₁.filter fun o => o.id = a).filterMap View.kind? ++
      .queued :: ((l₂ ++ l₃).filter fun o => o.id = a).filterMap View.kind? := by
    simp [View.kinds, Thread.view, Scheduler.view, hlog, Output.id, View.kind?, hab.symm]
  -- the job waits since its `Queued` event, so it is in the queue
  obtain ⟨hnil, job, hjob, hs⟩ := (inv_of_reachable ht a).queued_of_kinds hkinds fun kind hk =>
    ⟨fun heq => hnot (heq ▸ hk), hquiet kind hk⟩
  have hready : a ∈ t.sched.ready := ((readyAgrees_of_reachable ht hroot).mem_iff a).mpr ⟨job, hjob, hs⟩
  obtain ⟨rest, hrest⟩ := List.head?_eq_some_iff.mp hb
  have hrest' : a ∈ rest := by simpa [hrest, hab] using hready
  -- and it is behind the front, although its event is the older one
  have hsub : [b, a].Sublist (queuings t.sched.log).dedup := by
    refine .trans ?_ (Scheduler.ReadyOrdered.invariant.reachable ht).order
    rw [hrest]
    exact (List.singleton_sublist.mpr hrest').cons_cons b
  have hqueuings : queuings t.sched.log = queuings l₁ ++ a :: queuings (l₂ ++ .event b .queued :: l₃) := by
    simp [hlog, queuings, Output.reports?]
  rw [hqueuings] at hsub
  refine not_sublist_dedup ?_ ?_ hsub
  · intro hqueued
    rw [mem_queuings] at hqueued
    have hlater : .event a .queued ∈ l₂ ++ l₃ := by simpa [hab] using hqueued
    have hkind : EventKind.queued ∈ ((l₂ ++ l₃).filter fun o => o.id = a).filterMap View.kind? :=
      List.mem_filterMap.mpr ⟨_, List.mem_filter.mpr ⟨hlater, by simp [Output.id]⟩, rfl⟩
    rw [hnil] at hkind
    cases hkind
  · exact mem_queuings.mpr (List.mem_append_right _ List.mem_cons_self)

/-- The action pauses or cancels a job. -/
def Action.Withdraws (a : Action) (id : Uuid) : Prop :=
  (∃ ack discarded order, a = .command (.pause id ack) discarded order) ∨
    (∃ discarded order, a = .command (.cancel id) discarded order) ∨ ∃ discarded, a.CancelsAll discarded

/-- **How a job leaves the queue**: it is started, or it is paused or cancelled. -/
theorem Thread.Next.leaves (ht : Reachable nextDelay t) {a : Action} (h : t.Next nextDelay a t')
    (hwaits : isWaiting (t.sched.jobs.lookup id)) (ha : ¬a.Withdraws id) :
    isWaiting (t'.sched.jobs.lookup id) ∨ ∃ job stop, t'.sched.jobs.lookup id = some job ∧ job.state = .running stop := by
  have hinv := inv_of_reachable ht id
  have hstays {v : View} (hview : t'.view id = v) (hv : v.job = t.sched.jobs.lookup id) :
      isWaiting (t'.sched.jobs.lookup id) := by
    have hsame : (t'.view id).job = t.sched.jobs.lookup id := hview ▸ hv
    rw [← hsame] at hwaits
    exact hwaits
  obtain ⟨job, hlookup, hqueued⟩ : ∃ job, t.sched.jobs.lookup id = some job ∧ job.state = .queued := by
    simpa [isWaiting, Option.any_eq_true] using hwaits
  have hjob : (t.view id).job = some job := hlookup
  cases h.sees (inv_of_reachable ht) id with
  | same _ _ hview => exact .inl (hstays hview rfl)
  | panic => exact .inl hwaits
  | enqueue hnew =>
    have hnone : (t.view id).job = none := (hinv.unborn hnew).1
    rw [hnone] at hjob
    cases hjob
  | drop _ _ hview => exact .inl (hstays hview rfl)
  | cancelAll hall => exact absurd (.inr (.inr ⟨_, hall⟩)) ha
  | arm hands htakes harm hview =>
    have hv := htakes.job_eq
    rw [hv, hjob] at harm
    cases hands with
    | pause => exact absurd (.inl ⟨_, _, _, rfl⟩) ha
    | cancel => exact absurd (.inr (.inl ⟨_, _, rfl⟩)) ha
    | dispatch =>
      cases harm with
      | notQueued hnot => exact absurd hqueued hnot
      | start => exact .inr ⟨_, _, congrArg View.job hview, rfl⟩
    | retry =>
      cases harm with
      | stale => exact .inl (hstays hview hjob.symm)
      | requeue hs => simp [hqueued] at hs
    | resume =>
      cases harm with
      | resumePaused hs => simp [hqueued] at hs
      | resumeLive | resumeBusy => exact .inl (hstays hview hjob.symm)
    | worker hw =>
      -- a job that waits has no worker
      have hplace := ((inv_some hjob).mp hinv).place
      simp only [Place, hqueued] at hplace
      have hmem := mem_tokensOf hw
      have hnone : tokensOf _ t.sched.workers = [] := hplace.1
      simp [hnone] at hmem

/-- An output of a log with more sent to it was there before, or is new. -/
theorem mem_or_new {log out l l' : List Output} {o : Output} (h : log ++ out = l ++ o :: l') :
    (∃ l'', log = l ++ o :: l'') ∨ ∃ l'', l = log ++ l'' ∧ out = l'' ++ o :: l' := by
  rcases List.append_eq_append_iff.mp h with ⟨c, hl, hout⟩ | ⟨c, hlog, ho⟩
  · exact .inr ⟨c, hl, hout⟩
  · cases c with
    | nil => exact .inr ⟨[], by simpa using hlog.symm, by simpa using ho.symm⟩
    | cons o' c =>
      rw [List.cons_append, List.cons.injEq] at ho
      obtain ⟨rfl, -⟩ := ho
      exact .inl ⟨c, hlog⟩

/-- The log of every run has it. -/
theorem notOvertaken_of_reachable (ht : Thread.Reachable nextDelay t) : NotOvertaken t.sched.log := by
  refine Machine.Reachable.induct (P := fun t => NotOvertaken t.sched.log) ?_ ?_ ht
  · rintro t ⟨maxConcurrent, rfl⟩ a b l₁ l₂ l₃ l₄ _ hlog
    simp [Thread.new, Scheduler.new] at hlog
  · intro t a t' ht ih hstep x y l₁ l₂ l₃ l₄ hne hlog hquiet
    rcases (Thread.next_of_step hstep).started with ⟨out, hout, hnone⟩ | ⟨id, ha, hhead, hout⟩
    · rw [hout] at hlog
      rcases mem_or_new hlog with ⟨l, hold⟩ | ⟨l, -, hnew⟩
      · exact ih x y l₁ l₂ l₃ l hne hold hquiet
      · exact absurd (hnew ▸ List.mem_append_right l List.mem_cons_self) (hnone y)
    · rw [hout] at hlog
      rcases mem_or_new hlog with ⟨l, hold⟩ | ⟨l, hbefore, hnew⟩
      · exact ih x y l₁ l₂ l₃ l hne hold hquiet
      · obtain ⟨rfl, rfl⟩ : l = [] ∧ id = y := by
          cases l with
          | nil => exact ⟨rfl, by simpa using (List.cons.inj hnew).1⟩
          | cons => simp at hnew
        have hroot : t.sched.cancelRoot = false := by
          by_contra hroot
          rw [Thread.tryDispatch_log ha hstep (by simpa using hroot)] at hout
          simp at hout
        rw [List.append_nil] at hbefore
        exact started_of_head ht hroot hne hhead hbefore.symm hquiet

/-- **Fair starts.** Until the root token is cancelled the queue is the jobs that wait, in the order of their latest
`Queued` events, and in the log of every run no job that waits is overtaken. It waits until it is started, unless a
`Pause`, a `Cancel` or a `CancelAll` comes. -/
theorem started_in_order (ht : Thread.Reachable nextDelay t) :
    (t.sched.cancelRoot = false →
      t.sched.ready = (queuings t.sched.log).dedup.filter fun id => isWaiting (t.sched.jobs.lookup id)) ∧
    NotOvertaken t.sched.log ∧
    ∀ a t' id, t.step nextDelay a = some t' → isWaiting (t.sched.jobs.lookup id) → ¬a.Withdraws id →
      isWaiting (t'.sched.jobs.lookup id) ∨ ∃ job stop, t'.sched.jobs.lookup id = some job ∧ job.state = .running stop :=
  ⟨ready_eq ht, notOvertaken_of_reachable ht, fun _ _ _ h => (Thread.next_of_step h).leaves ht⟩

/-- With one slot and three downloads, of which the second is paused and resumed while it waits. -/
def Thread.resumedBehind : List Action :=
  oneSlot ++ [.command (.enqueue 2 sampleRequest 5 6) (fun _ => .ok ()) [], .tryDispatch,
    .command (.pause 1 7) (fun _ => .ok ()) [], .tryDispatch, .command (.resume 1 8) (fun _ => .ok ()) [], .tryDispatch,
    .worker ⟨0, sampleRequest, 1, 0⟩ (.error .cancelled) (.ok ()), .tryDispatch, .tryDispatch,
    .worker ⟨2, sampleRequest, 5, 1⟩ (.error .cancelled) (.ok ()), .tryDispatch, .tryDispatch]

/-- The third one is started before the second. -/
theorem started_in_order_resumed_behind :
    ∃ t l₁ l₂ l₃ l₄, Machine.exec (Thread.step backoffStrategy.nextDelay) (.new 1) Thread.resumedBehind = some t ∧
      t.sched.log = l₁ ++ .event 2 .queued :: l₂ ++ .event 1 .queued :: l₃ ++ .event 1 .started :: l₄ ∧
      firstEvent? 2 (l₂ ++ l₃) = some .started := by
  obtain ⟨t, ht, hlog, hr⟩ := Thread.exists_run backoffStrategy.nextDelay 1 Thread.resumedBehind
    (fun t => t.sched.log =
      [.event 0 .queued, .event 0 .started, .event 1 .queued] ++ .event 2 .queued ::
      [.event 1 .paused, .ack 1 7 (.ok ())] ++ .event 1 .queued ::
      [.ack 1 8 (.ok ()), .event 0 .cancelled, .result 0 2 (.error .cancelled), .event 2 .started, .event 2 .cancelled,
        .result 2 6 (.error .cancelled)] ++ .event 1 .started :: []) (by decide)
  exact ⟨t, _, _, _, _, ht, hlog, (started_in_order hr).2.1 2 1 _ _ _ _ (by decide) hlog
    (by simp [firstEvent?, Output.id, View.kind?, EventKind.stage])⟩

end DownloadManager
