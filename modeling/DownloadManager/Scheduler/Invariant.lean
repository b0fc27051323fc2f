import DownloadManager.Scheduler.Lifecycle

/-!
# Invariants of a run

What a step of the thread does to the view of each identifier, and the induction
over runs that follows from it. `ViewStable` asks of a property of views that it
is kept by what one job can experience: an arm, being made by `Enqueue`, the root
token being cancelled, being popped from `ready` after that, and the clearing at
the end of `CancelAll`. `Next.sees` is the only place where the steps of the thread
are gone through; `ViewInvariant.reachable` is the induction, and
`inv_of_reachable` its first use.
-/

namespace DownloadManager

variable {nextDelay : UInt32 → Except Panic Duration}

/-! ### Transitions and views -/

section

variable {discarded : Result Unit} {s s' : Scheduler} {id : Uuid} {event : JobEvent}

/-- A transition acts on one view, and on nothing else of the scheduler that other jobs see. -/
theorem views_of_transition (handled : List SchedulerCmd)
    (h : Scheduler.transitionJob nextDelay discarded s id event = .ok s')
    (hid : ∀ job ∈ s.jobs.lookup id, job.id = id) :
    ∃ e, Arm nextDelay discarded s.tokens id (s.view handled id).job event e ∧
      s'.view handled id = e.act (s.view handled id) ∧
      (∀ other, other ≠ id → s'.view handled other = s.view handled other) ∧
      s'.cancelRoot = s.cancelRoot := by
  obtain ⟨e, ha, rfl⟩ := Scheduler.transitionJob_arm h
  have hlocal := ha.local hid
  exact ⟨e, ha, Scheduler.view_apply_self s handled hlocal,
    fun other hne => Scheduler.view_apply_other s handled hlocal hne, rfl⟩

end

theorem Scheduler.transitionJob_cancelRoot {discarded : Result Unit} {s s' : Scheduler} {id : Uuid} {event : JobEvent}
    (h : s.transitionJob nextDelay discarded id event = .ok s') : s'.cancelRoot = s.cancelRoot := by
  obtain ⟨e, -, rfl⟩ := Scheduler.transitionJob_arm h
  rfl

/-! ### What one job can experience -/

/-- The view of an identifier nobody has heard of. -/
def View.empty : View := ⟨none, 0, [], [], [], []⟩

/-- After `Enqueue`. -/
def View.enqueued (v : View) (id : Uuid) (request : Request) (progressTx resultTx : Sender) : View where
  job := some { id, request, progressTx, attempt := 0, result := some resultTx, state := .queued }
  queued := v.queued + 1
  timers := v.timers
  workers := v.workers
  out := v.out ++ [.event id .queued]
  cmds := v.cmds ++ [.enqueue id request progressTx resultTx]

/-- After `ready.clear()` and `delayed.clear()`. -/
def View.cleared (v : View) : View := { v with queued := 0, timers := [] }

/-- What `CancelAll` leaves of a job before it clears: nothing, or a worker asked to stop. -/
def View.Quiet (v : View) : Prop := ∀ job ∈ v.job, job.state = .cancelling

/-- A property of views that everything a job can experience keeps. Each clause may use that
the invariant holds. -/
structure ViewStable (nextDelay : UInt32 → Except Panic Duration) (P : Bool → Uuid → View → Prop) : Prop where
  /-- The root token is cancelled. -/
  cancelRoot : ∀ {root id v}, Inv root id v → P root id v → P true id v
  /-- `Enqueue`, for an identifier that no command made before. -/
  enqueue : ∀ {root id v} (request progressTx resultTx), Inv root id v → P root id v →
    (∀ cmd ∈ v.cmds, cmd.enqueues = none) → P root id (v.enqueued id request progressTx resultTx)
  /-- An arm. -/
  arm : ∀ {root id v v' event e discarded token}, Inv root id v → P root id v → Takes id event v v' →
    Arm nextDelay discarded token id v'.job event e → P root id (e.act v')
  /-- `try_dispatch` pops the job after the root token was cancelled. -/
  drop : ∀ {id v n}, Inv true id v → P true id v → v.queued = n + 1 → P true id { v with queued := n }
  /-- The end of `CancelAll`. -/
  clear : ∀ {root id v}, Inv root id v → P root id v → v.Quiet → P root id v.cleared

/-- One that also holds of an identifier nobody has heard of. -/
structure ViewInvariant (nextDelay : UInt32 → Except Panic Duration) (P : Bool → Uuid → View → Prop) : Prop
    extends ViewStable nextDelay P where
  /-- Before anything has happened. -/
  empty : ∀ id, P false id .empty

/-- The arms of `Cancel` leave no job that is not being cancelled. -/
theorem Arm.quiet {discarded : Result Unit} {token : Token} {id : Uuid} {v : View} {e : Effect}
    (h : Arm nextDelay discarded token id v.job .cancel e) : (e.act v).Quiet := by
  unfold View.Quiet Effect.act
  generalize v.job = job at h
  cases h <;> simp_all

section

variable {root : Bool} {id : Uuid} {v : View}

/-- An identifier that no command made has no record and no result. -/
theorem Inv.unborn (hv : Inv root id v) (hnew : ∀ cmd ∈ v.cmds, cmd.enqueues = none) :
    v.job = none ∧ v.workers = [] ∧ v.queued = 0 ∧ Unborn v := by
  have hasked : ∀ request tx, ¬ v.Asked id request tx := by
    intro request tx h'
    obtain ⟨progressTx, hmem⟩ := h'
    exact absurd (hnew _ hmem) (by simp [SchedulerCmd.enqueues])
  rcases v.job.eq_none_or_eq_some with hj | ⟨job, hj⟩
  · obtain ⟨hw, hq, -, hu | ho⟩ := (inv_none hj).mp hv
    · exact ⟨hj, hw, hq, hu⟩
    · obtain ⟨request, tx, value, h, -⟩ := ho.result
      exact (hasked _ _ h).elim
  · obtain ⟨tx, h, -⟩ := ((inv_some hj).mp hv).asked
    exact (hasked _ _ h).elim

theorem Inv.cancelRoot (hv : Inv root id v) : Inv true id v := by
  rcases v.job.eq_none_or_eq_some with hj | ⟨job, hj⟩
  · exact (inv_none hj).mpr ((inv_none hj).mp hv)
  · obtain ⟨R, hp⟩ := (inv_some hj).mp hv
    refine (inv_some hj).mpr ⟨R, ?_⟩
    cases hs : job.state with
    | queued =>
      simp only [Place, hs] at hp ⊢
      exact ⟨hp.1, hp.2.imp_right fun h => ⟨trivial, h.2⟩⟩
    | running | retrying | pausing | paused | cancelling => simpa only [Place, hs] using hp

theorem Inv.enqueue (hv : Inv root id v) (request : Request) (progressTx resultTx : Sender)
    (hnew : ∀ cmd ∈ v.cmds, cmd.enqueues = none) : Inv root id (v.enqueued id request progressTx resultTx) := by
  obtain ⟨-, hw, hq, hu⟩ := hv.unborn hnew
  have hkinds : (v.enqueued id request progressTx resultTx).kinds = [.queued] := by
    have := hu.kinds
    simp only [View.kinds, View.enqueued, List.filterMap_append] at this ⊢
    rw [this]; rfl
  have hresults : (v.enqueued id request progressTx resultTx).results = [] := by
    have := hu.results
    simp only [View.results, View.enqueued, List.filterMap_append] at this ⊢
    rw [this]; rfl
  refine ⟨⟨rfl, ⟨resultTx, ⟨progressTx, List.mem_append_right _ (List.mem_singleton.mpr rfl)⟩, rfl⟩, hresults,
    hkinds ▸ lifecycle_queued, ⟨.queued, by rw [hkinds]; rfl, trivial⟩, UInt32.zero_le, ?_, ?_⟩, ?_⟩
  · simp [View.enqueued, hu.timers]
  · simp [View.enqueued, hu.timers]
  · exact ⟨hw, .inl (by simp [View.enqueued, hq])⟩

theorem Inv.drop {n : ℕ} (hv : Inv true id v) (hn : v.queued = n + 1) : Inv true id { v with queued := n } := by
  rcases v.job.eq_none_or_eq_some with hj | ⟨job, hj⟩
  · have := ((inv_none hj).mp hv).2.1
    omega
  · obtain ⟨R, hp⟩ := (inv_some hj).mp hv
    refine (inv_some (show ({ v with queued := n } : View).job = some job from hj)).mpr ⟨R.takes (.dispatch hn), ?_⟩
    unfold Place at hp ⊢
    split <;> simp_all

theorem Inv.clear (hv : Inv root id v) (hq : v.Quiet) : Inv root id v.cleared := by
  rcases v.job.eq_none_or_eq_some with hj | ⟨job, hj⟩
  · obtain ⟨hw, -, -, hu | ho⟩ := (inv_none hj).mp hv
    · exact (inv_none (show v.cleared.job = none from hj)).mpr
        ⟨hw, rfl, .nil, .inl ⟨hu.cmds, hu.kinds, hu.results, rfl⟩⟩
    · exact (inv_none (show v.cleared.job = none from hj)).mpr ⟨hw, rfl, .nil, .inr ⟨ho.result, ho.path⟩⟩
  · obtain ⟨R, hp⟩ := (inv_some hj).mp hv
    simp only [Place, hq job hj] at hp
    refine (inv_some (show v.cleared.job = some job from hj)).mpr
      ⟨⟨R.id_eq, R.asked, R.results, R.path, R.last, R.attempt_le, by simp [View.cleared], .nil⟩, ?_⟩
    simp [Place, hq job hj, View.cleared, hp.1]

/-- What an identifier nobody has heard of satisfies. -/
theorem inv_empty (id : Uuid) : Inv false id .empty :=
  ⟨rfl, rfl, .nil, .inl ⟨by simp [View.empty], rfl, rfl, rfl⟩⟩

/-- **The invariant itself is one.** -/
theorem inv_viewInvariant : ViewInvariant nextDelay Inv where
  empty := inv_empty
  cancelRoot := fun hv _ => hv.cancelRoot
  enqueue := fun request progressTx resultTx hv _ hnew => hv.enqueue request progressTx resultTx hnew
  arm := fun hv _ ht ha => hv.arm ht ha
  drop := fun hv _ hn => hv.drop hn
  clear := fun hv _ hq => hv.clear hq

end

/-! ### What a step does to one view -/

section

variable {s₀ s s' : Scheduler} {handled₀ handled : List SchedulerCmd} {id : Uuid}

/-- A transition keeps the invariant, once its event has been taken out of where it was. -/
theorem inv_transition (h₀ : ∀ id, Inv s₀.cancelRoot id (s₀.view handled₀ id))
    {event : JobEvent} {discarded : Result Unit} (ht : Takes id event (s₀.view handled₀ id) (s.view handled id))
    (hother : ∀ other, other ≠ id → s.view handled other = s₀.view handled₀ other)
    (hroot : s.cancelRoot = s₀.cancelRoot) (h : s.transitionJob nextDelay discarded id event = .ok s') :
    (∀ other, Inv s'.cancelRoot other (s'.view handled other)) ∧ s'.cancelRoot = s₀.cancelRoot ∧
      (∃ e, Arm nextDelay discarded s.tokens id (s.view handled id).job event e ∧
        s'.view handled id = e.act (s.view handled id)) ∧
      ∀ other, other ≠ id → s'.view handled other = s₀.view handled₀ other := by
  have hid : ∀ job ∈ s.jobs.lookup id, job.id = id := by
    intro job hjob
    have hview : (s₀.view handled₀ id).job = some job := ht.job_eq.symm.trans hjob
    exact ((inv_some hview).mp (h₀ id)).id_eq
  obtain ⟨e, ha, hself, hrest, hroot'⟩ := views_of_transition handled h hid
  have hrest' : ∀ other, other ≠ id → s'.view handled other = s₀.view handled₀ other :=
    fun other hne => (hrest other hne).trans (hother other hne)
  refine ⟨fun other => ?_, hroot'.trans hroot, ⟨e, ha, hself⟩, hrest'⟩
  rw [hroot', hroot]
  by_cases hne : other = id
  · subst hne
    rw [hself]
    exact (h₀ other).arm ht ha
  · rw [hrest' other hne]
    exact h₀ other

/-- The loop of `CancelAll`: it handles `Cancel` for every job it visits and leaves every other view alone. -/
theorem Scheduler.cancelEach_views (h₀ : ∀ id, Inv s.cancelRoot id (s.view handled id)) {discarded : Uuid → Result Unit}
    {order : List Uuid} (horder : order.Nodup) (h : s.cancelEach nextDelay discarded order = .ok s') :
    s'.cancelRoot = s.cancelRoot ∧
      (∀ id ∈ order, ∃ token e, Arm nextDelay (discarded id) token id (s.view handled id).job .cancel e ∧
        s'.view handled id = e.act (s.view handled id)) ∧
      ∀ id ∉ order, s'.view handled id = s.view handled id := by
  induction order generalizing s with
  | nil =>
    cases h
    exact ⟨rfl, by simp, fun _ _ => rfl⟩
  | cons id ids ih =>
    obtain ⟨hnot, hnodup⟩ := List.nodup_cons.mp horder
    unfold Scheduler.cancelEach at h
    split at h
    · cases h
    rename_i s₁ h₁
    obtain ⟨hinv, hroot, ⟨e, ha, hself⟩, hrest⟩ := inv_transition h₀ .cancelAll (fun _ _ => rfl) rfl h₁
    obtain ⟨hroot', hvisited, hsame⟩ := ih hinv hnodup h
    refine ⟨hroot'.trans hroot, ?_, ?_⟩
    · intro i hi
      rcases List.mem_cons.mp hi with rfl | hi
      · exact ⟨_, e, ha, (hsame i hnot).trans hself⟩
      · have hne : i ≠ id := fun he => hnot (he ▸ hi)
        rw [← hrest i hne]
        exact hvisited i hi
    · intro i hi
      rw [List.mem_cons, not_or] at hi
      rw [hsame i hi.2, hrest i hi.1]

/-- `CancelAll`, whatever the order in which it visits the jobs: it handles `Cancel` for every identifier, and
then clears. -/
theorem Scheduler.cancelAll_views (h₀ : ∀ id, Inv s.cancelRoot id (s.view handled id)) {discarded : Uuid → Result Unit}
    {order : List Uuid} (horder : Visits order s.jobs)
    (h : s.handleCmd nextDelay discarded order .cancelAll = .ok s') :
    s'.cancelRoot = s.cancelRoot ∧
      ∀ id, ∃ token e, Arm nextDelay (discarded id) token id (s.view handled id).job .cancel e ∧
        s'.view handled id = (e.act (s.view handled id)).cleared := by
  simp only [Scheduler.handleCmd] at h
  split at h <;> cases h
  rename_i s₁ h₁
  obtain ⟨hroot, hvisited, hsame⟩ := s.cancelEach_views h₀ horder.1 h₁
  have hcleared (id : Uuid) : ({ s₁ with ready := [], delayed := [] } : Scheduler).view handled id =
      (s₁.view handled id).cleared := rfl
  refine ⟨hroot, fun id => ?_⟩
  rw [hcleared]
  by_cases hmem : id ∈ order
  · obtain ⟨token, e, ha, hview⟩ := hvisited id hmem
    exact ⟨token, e, ha, congrArg _ hview⟩
  · have hjob : (s.view handled id).job = none := by
      exact Finmap.lookup_eq_none.mpr fun hkey => hmem (horder.mem_iff.mpr hkey)
    refine ⟨s.tokens, { job := none }, by rw [hjob]; exact .unknown (by simp), ?_⟩
    rw [hsame id hmem]
    exact congrArg _ (View.ext hjob rfl (by simp [Effect.act]) (by simp [Effect.act]) (by simp [Effect.act]) rfl)

/-- `Enqueue` acts on the view of its identifier. -/
theorem Scheduler.view_schedule_self (s : Scheduler) (handled : List SchedulerCmd) (id : Uuid) (request : Request)
    (progressTx resultTx : Sender) :
    (s.schedule { id, request, progressTx, attempt := 0, result := some resultTx, state := .queued }).view
      (handled ++ [.enqueue id request progressTx resultTx]) id =
      (s.view handled id).enqueued id request progressTx resultTx := by
  apply View.ext <;>
    simp [Scheduler.view, Scheduler.schedule, Scheduler.emit, Scheduler.send, View.enqueued, Output.id, SchedulerCmd.id?]

/-- `Enqueue` leaves every other view alone. -/
theorem Scheduler.view_schedule_other (s : Scheduler) (handled : List SchedulerCmd) {id other : Uuid}
    (request : Request) (progressTx resultTx : Sender) (h : other ≠ id) :
    (s.schedule { id, request, progressTx, attempt := 0, result := some resultTx, state := .queued }).view
      (handled ++ [.enqueue id request progressTx resultTx]) other = s.view handled other := by
  apply View.ext <;>
    simp [Scheduler.view, Scheduler.schedule, Scheduler.emit, Scheduler.send, Output.id, SchedulerCmd.id?,
      Finmap.lookup_insert_of_ne _ h, h.symm]

/-- A command that is received is in the view of the job it is about. -/
theorem Scheduler.view_handled_self (s : Scheduler) (handled : List SchedulerCmd) {cmd : SchedulerCmd} {id : Uuid}
    (h : cmd.id? = some id) :
    s.view (handled ++ [cmd]) id = { s.view handled id with cmds := (s.view handled id).cmds ++ [cmd] } := by
  apply View.ext <;> simp [Scheduler.view, h]

/-- And in no other view. -/
theorem Scheduler.view_handled_other (s : Scheduler) (handled : List SchedulerCmd) {cmd : SchedulerCmd} {id : Uuid}
    (h : cmd.id? ≠ some id) : s.view (handled ++ [cmd]) id = s.view handled id := by
  apply View.ext <;> simp [Scheduler.view, h]

/-- A new identifier is new to the view as well. -/
theorem SchedulerCmd.Fresh.view {request : Request} {progressTx resultTx : Sender}
    (h : (SchedulerCmd.enqueue id request progressTx resultTx).Fresh handled) (s : Scheduler) :
    ∀ cmd ∈ (s.view handled id).cmds, cmd.enqueues = none := by
  intro cmd hcmd
  obtain ⟨hmem, hid⟩ := List.mem_filter.mp hcmd
  have hne := h.1 cmd hmem (by simp [enqueues])
  cases cmd with
  | enqueue i => simp_all [enqueues, SchedulerCmd.id?]
  | pause | resume | cancel | cancelAll | setMaxConcurrent => rfl

end

/-- `CancelAll` is handled, by a command or after the loop. -/
inductive Action.CancelsAll : Action → (Uuid → Result Unit) → Prop
  /-- `DownloadManager::cancel_all`. -/
  | command {discarded : Uuid → Result Unit} {order : List Uuid} :
      CancelsAll (.command .cancelAll discarded order) discarded
  /-- After the loop. -/
  | close {discarded : Uuid → Result Unit} {order : List Uuid} : CancelsAll (.close discarded order) discarded

namespace Thread

variable {t t' : Thread} {a : Action} {id : Uuid}

/-- The event an action hands to one job, and what `discard_partial` would return. -/
inductive Hands (t : Thread) : Action → Uuid → JobEvent → Result Unit → Prop
  /-- `Pause`. -/
  | pause {id : Uuid} {ack : Sender} {discarded : Uuid → Result Unit} {order : List Uuid} :
      Hands t (.command (.pause id ack) discarded order) id (.pause ack) (discarded id)
  /-- `Resume`. -/
  | resume {id : Uuid} {ack : Sender} {discarded : Uuid → Result Unit} {order : List Uuid} :
      Hands t (.command (.resume id ack) discarded order) id (.resume ack) (discarded id)
  /-- `Cancel`. -/
  | cancel {id : Uuid} {discarded : Uuid → Result Unit} {order : List Uuid} :
      Hands t (.command (.cancel id) discarded order) id .cancel (discarded id)
  /-- The result of its worker. -/
  | worker {w : Worker} {result : Result WorkerResult} {discarded : Result Unit} (hw : w ∈ t.sched.workers) :
      Hands t (.worker w result discarded) w.id (.worker result) discarded
  /-- A timer. -/
  | retry {id : Uuid} {attempt : UInt32} : Hands t (.retry id attempt) id (.retryElapsed attempt) (.ok ())
  /-- Its turn in `try_dispatch`. -/
  | dispatch {id : Uuid} {ready : List Uuid} (hready : t.sched.ready = id :: ready)
      (hlt : t.sched.workers.length < t.sched.maxConcurrent) : Hands t .tryDispatch id .dispatch (.ok ())

/-- **What a step can do to the view of one identifier.** -/
inductive Sees (nextDelay : UInt32 → Except Panic Duration) (t : Thread) (id : Uuid) : Action → Thread → Prop
  /-- Nothing: the action is about something else. -/
  | same {a : Action} {t' : Thread} (hands : ∀ event discarded, ¬t.Hands a id event discarded)
      (hall : ∀ discarded, ¬a.CancelsAll discarded) (hview : t'.view id = t.view id) : Sees nextDelay t id a t'
  /-- Nothing: the thread has panicked. -/
  | panic {w : Worker} {result : Result WorkerResult} {discarded : Result Unit} {attempt : UInt32} {panic : Panic}
      (hd : nextDelay attempt = .error panic) :
      Sees nextDelay t id (.worker w result discarded) { t with phase := .panicked panic }
  /-- It is made. -/
  | enqueue {request : Request} {progressTx resultTx : Sender} {discarded : Uuid → Result Unit} {order : List Uuid}
      {t' : Thread} (hnew : ∀ cmd ∈ (t.view id).cmds, cmd.enqueues = none)
      (hview : t'.view id = (t.view id).enqueued id request progressTx resultTx) :
      Sees nextDelay t id (.command (.enqueue id request progressTx resultTx) discarded order) t'
  /-- An event is taken from where it was, and handled. -/
  | arm {a : Action} {event : JobEvent} {discarded : Result Unit} {token : Token} {v : View} {e : Effect} {t' : Thread}
      (hands : t.Hands a id event discarded) (ht : Takes id event (t.view id) v)
      (ha : Arm nextDelay discarded token id v.job event e) (hview : t'.view id = e.act v) : Sees nextDelay t id a t'
  /-- It is popped from `ready` after the root token was cancelled. -/
  | drop {n : ℕ} {t' : Thread} (hroot : t.sched.cancelRoot) (h : (t.view id).queued = n + 1)
      (hview : t'.view id = { t.view id with queued := n }) : Sees nextDelay t id .tryDispatch t'
  /-- `CancelAll`. -/
  | cancelAll {a : Action} {discarded : Uuid → Result Unit} {token : Token} {e : Effect} {t' : Thread}
      (h : a.CancelsAll discarded) (ha : Arm nextDelay (discarded id) token id (t.view id).job .cancel e)
      (hview : t'.view id = (e.act (t.view id)).cleared) : Sees nextDelay t id a t'

/-- Popping the front of `ready` takes one entry out of the view of its job. -/
theorem queued_pop (t : Thread) {ready : List Uuid} {id : Uuid} (hready : t.sched.ready = id :: ready)
    (handled : List SchedulerCmd) : (t.sched.view handled id).queued = ready.count id + 1 := by
  simp [Scheduler.view, hready]

/-- And leaves every other view alone. -/
theorem view_pop_other (t : Thread) {ready : List Uuid} {id other : Uuid} (hready : t.sched.ready = id :: ready)
    (handled : List SchedulerCmd) (hne : other ≠ id) :
    ({ t.sched with ready := ready } : Scheduler).view handled other = t.sched.view handled other := by
  apply View.ext <;> simp [Scheduler.view, hready, List.count_cons_of_ne hne.symm]

/-- Only the drop of the manager and `shutdown` cancel the root token. -/
theorem Next.cancelRoot_eq (h₀ : ∀ id, Inv t.sched.cancelRoot id (t.view id)) (h : t.Next nextDelay a t') :
    t'.sched.cancelRoot = t.sched.cancelRoot ∨ a = .cancelRoot ∧ t'.sched.cancelRoot = true := by
  cases h with
  | cancelRoot => exact .inr ⟨rfl, rfl⟩
  | stop | disconnected | panic | full | empty | dropped | finish => exact .inl rfl
  | @command cmd _ _ _ _ _ horder hs =>
    cases cmd with
    | enqueue | setMaxConcurrent => cases hs; exact .inl rfl
    | pause | resume | cancel =>
      simp only [Scheduler.handleCmd] at hs
      exact .inl (Scheduler.transitionJob_cancelRoot hs)
    | cancelAll => exact .inl (Scheduler.cancelAll_views h₀ (horder rfl) hs).1
  | worker _ _ hs | retry _ _ hs | dispatched _ _ _ hs =>
    have hroot := Scheduler.transitionJob_cancelRoot hs
    exact .inl hroot
  | close _ horder hs => exact .inl (Scheduler.cancelAll_views h₀ horder hs).1

/-- A transition is handed to one identifier and leaves the others alone. -/
theorem sees_transition (h₀ : ∀ id, Inv t.sched.cancelRoot id (t.view id)) {i : Uuid} {event : JobEvent}
    {discarded : Result Unit} {s s' : Scheduler} {phase : Phase} {handled : List SchedulerCmd}
    (hands : t.Hands a i event discarded) (honly : ∀ id, id ≠ i → ∀ event discarded, ¬t.Hands a id event discarded)
    (hall : ∀ discarded, ¬a.CancelsAll discarded) (ht : Takes i event (t.view i) (s.view handled i))
    (hother : ∀ other, other ≠ i → s.view handled other = t.view other) (hroot : s.cancelRoot = t.sched.cancelRoot)
    (hs : s.transitionJob nextDelay discarded i event = .ok s') (id : Uuid) :
    t.Sees nextDelay id a ⟨s', phase, handled⟩ := by
  obtain ⟨-, -, ⟨e, ha, hself⟩, hrest⟩ := inv_transition h₀ ht hother hroot hs
  by_cases hne : id = i
  · subst hne
    exact .arm hands ht ha hself
  · exact .same (honly id hne) hall (hrest id hne)

/-- A command for one job is handed to it. -/
theorem sees_clientCmd (h₀ : ∀ id, Inv t.sched.cancelRoot id (t.view id)) {cmd : SchedulerCmd} {i : Uuid}
    {event : JobEvent} {discarded : Uuid → Result Unit} {order : List Uuid} {s' : Scheduler} {phase : Phase}
    (hcmd : cmd.id? = some i) (hands : t.Hands (.command cmd discarded order) i event (discarded i))
    (ht : ∀ v : View, Takes i event v { v with cmds := v.cmds ++ [cmd] })
    (hs : t.sched.transitionJob nextDelay (discarded i) i event = .ok s') (id : Uuid) :
    t.Sees nextDelay id (.command cmd discarded order) ⟨s', phase, t.handled ++ [cmd]⟩ := by
  refine sees_transition h₀ hands ?_ ?_ ?_ ?_ rfl hs id
  · rintro other hne _ _ h
    cases h <;> cases hcmd <;> exact hne rfl
  · rintro _ ⟨⟩
    cases hcmd
  · show Takes i event _ (t.sched.view (t.handled ++ [cmd]) i)
    rw [t.sched.view_handled_self t.handled hcmd]
    exact ht _
  · exact fun other hne => t.sched.view_handled_other t.handled (by simp [hcmd, hne.symm])

/-- **The step lemma of views**: what a step does to every identifier. -/
theorem Next.sees (h₀ : ∀ id, Inv t.sched.cancelRoot id (t.view id)) (h : t.Next nextDelay a t') (id : Uuid) :
    t.Sees nextDelay id a t' := by
  cases h with
  | cancelRoot | stop | disconnected | finish => exact .same nofun nofun rfl
  | full _ hfull =>
    refine .same (fun _ _ h => ?_) nofun rfl
    cases h with
    | dispatch _ hlt => exact absurd hlt (Nat.not_lt.mpr hfull)
  | empty _ hready =>
    refine .same (fun _ _ h => ?_) nofun rfl
    cases h with
    | dispatch h => simp [hready] at h
  | panic _ _ hd => exact .panic hd
  | @command cmd discarded order s' _ hfresh horder hs =>
    cases cmd with
    | enqueue i request progressTx resultTx =>
      cases hs
      by_cases hne : id = i
      · subst hne
        exact .enqueue (hfresh.view t.sched) (Scheduler.view_schedule_self ..)
      · exact .same nofun nofun (Scheduler.view_schedule_other _ _ _ _ _ hne)
    | pause i ack => exact sees_clientCmd h₀ rfl .pause (fun _ => .pause) hs id
    | resume i ack => exact sees_clientCmd h₀ rfl .resume (fun _ => .resume) hs id
    | cancel i => exact sees_clientCmd h₀ rfl .cancel (fun _ => .cancel) hs id
    | cancelAll =>
      obtain ⟨token, e, ha, hview⟩ := (Scheduler.cancelAll_views h₀ (horder rfl) hs).2 id
      exact .cancelAll .command ha ((s'.view_handled_other t.handled (by simp [SchedulerCmd.id?])).trans hview)
    | setMaxConcurrent n =>
      cases hs
      exact .same nofun nofun (Scheduler.view_handled_other _ t.handled (by simp [SchedulerCmd.id?]))
  | @worker w result discarded s' phase hw _ hs =>
    let s : Scheduler := { t.sched with workers := t.sched.workers.erase w }
    have htakes : Takes w.id (.worker result) (t.view w.id) (s.view t.handled w.id) := .worker (tokensOf_erase_self hw)
    refine sees_transition h₀ (.worker hw) ?_ nofun htakes ?_ rfl hs id
    · rintro other hne _ _ ⟨⟩
      exact hne rfl
    · intro other hne
      apply View.ext <;> first | rfl | exact tokensOf_erase_of_ne hne _
  | @retry i attempt s' _ hmem hs =>
    let s : Scheduler := { t.sched with delayed := t.sched.delayed.erase (i, attempt) }
    have hview : s.view t.handled i = { t.view i with timers := (t.view i).timers.erase attempt } := by
      apply View.ext <;> first | rfl | exact timersOf_erase_self _ _ _
    have htakes : Takes i (.retryElapsed attempt) (t.view i) (s.view t.handled i) := by
      rw [hview]
      exact .retryElapsed (mem_timersOf.mpr hmem)
    refine sees_transition h₀ .retry ?_ nofun htakes ?_ rfl hs id
    · rintro other hne _ _ ⟨⟩
      exact hne rfl
    · intro other hne
      apply View.ext <;> first | rfl | exact timersOf_erase_of_ne hne _ _
  | @dropped i ready _ hready hroot =>
    -- the job is lost from `ready`, but stays in the map for the final `CancelAll`
    by_cases hne : id = i
    · subst hne
      exact .drop hroot (t.queued_pop hready t.handled) rfl
    · refine .same (fun _ _ h => ?_) nofun (t.view_pop_other hready t.handled hne)
      cases h with
      | dispatch h => rw [hready] at h; cases h; exact hne rfl
  | @dispatched i ready s' _ hlt hready hs =>
    let s : Scheduler := { t.sched with ready := ready }
    have htakes : Takes i .dispatch (t.view i) (s.view t.handled i) := .dispatch (t.queued_pop hready t.handled)
    refine sees_transition h₀ (.dispatch hready hlt) ?_ nofun htakes ?_ rfl hs id
    · rintro other hne _ _ h
      cases h with
      | dispatch h => rw [hready] at h; cases h; exact hne rfl
    · exact fun other hne => t.view_pop_other hready t.handled hne
  | @close _ _ s' _ horder hs =>
    obtain ⟨token, e, ha, hview⟩ := (Scheduler.cancelAll_views h₀ horder hs).2 id
    exact .cancelAll .close ha hview

end Thread

/-! ### Runs -/

/-- The invariant and `P`, for every identifier. -/
def Scheduler.Holds (P : Bool → Uuid → View → Prop) (s : Scheduler) (handled : List SchedulerCmd) : Prop :=
  ∀ id, Inv s.cancelRoot id (s.view handled id) ∧ P s.cancelRoot id (s.view handled id)

section

variable {P : Bool → Uuid → View → Prop} {t t' : Thread}

/-- What a step does to a view keeps a view invariant. -/
theorem Thread.Sees.holds (hP : ViewStable nextDelay P) {a : Action} {id : Uuid}
    (hinv : Inv t.sched.cancelRoot id (t.view id)) (h₀ : P t.sched.cancelRoot id (t.view id))
    (h : t.Sees nextDelay id a t') : P t.sched.cancelRoot id (t'.view id) := by
  cases h with
  | same _ _ hview => exact hview ▸ h₀
  | panic => exact h₀
  | enqueue hnew hview => exact hview ▸ hP.enqueue _ _ _ hinv h₀ hnew
  | arm _ ht ha hview => exact hview ▸ hP.arm hinv h₀ ht ha
  | drop hroot h hview =>
    rw [hroot] at hinv h₀ ⊢
    exact hview ▸ hP.drop hinv h₀ h
  | cancelAll _ ha hview =>
    exact hview ▸ hP.clear (hinv.arm .cancelAll ha) (hP.arm hinv h₀ .cancelAll ha) ha.quiet

/-- **The step lemma**: whatever the thread does next keeps a view invariant. -/
theorem Thread.Next.holds (hP : ViewStable nextDelay P) (h₀ : t.sched.Holds P t.handled) {a : Action}
    (h : t.Next nextDelay a t') : t'.sched.Holds P t'.handled := by
  intro id
  have hsees := h.sees (fun id => (h₀ id).1) id
  have hinv := hsees.holds inv_viewInvariant.toViewStable (h₀ id).1 (h₀ id).1
  have hkeep := hsees.holds hP (h₀ id).1 (h₀ id).2
  rcases h.cancelRoot_eq fun id => (h₀ id).1 with hroot | ⟨-, hroot⟩
  · rw [hroot]
    exact ⟨hinv, hkeep⟩
  · rw [hroot]
    exact ⟨hinv.cancelRoot, hP.cancelRoot hinv hkeep⟩

/-- What everything a job can experience keeps, a run keeps. -/
theorem ViewStable.exec (hP : ViewStable nextDelay P) {as : List Action} (h₀ : t.sched.Holds P t.handled)
    (h : Machine.exec (Thread.step nextDelay) t as = some t') : t'.sched.Holds P t'.handled :=
  Machine.exec_induct _ (fun _ _ _ h₀ h => (Thread.next_of_step h).holds hP h₀) as h₀ h

/-- **The run lemma**: a view invariant holds of every identifier, in every state of every run. -/
theorem ViewInvariant.reachable (hP : ViewInvariant nextDelay P) (ht : Thread.Reachable nextDelay t) (id : Uuid) :
    P t.sched.cancelRoot id (t.view id) := by
  obtain ⟨t₀, as, ⟨maxConcurrent, rfl⟩, h⟩ := ht.exists_exec
  exact (hP.toViewStable.exec (fun id => ⟨inv_empty id, hP.empty id⟩) h id).2

/-- The invariant holds of every identifier, in every state of every run. -/
theorem inv_of_reachable (ht : Thread.Reachable nextDelay t) (id : Uuid) : Inv t.sched.cancelRoot id (t.view id) :=
  inv_viewInvariant.reachable ht id

end

end DownloadManager
