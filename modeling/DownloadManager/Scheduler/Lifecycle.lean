import DownloadManager.Scheduler.View

/-!
# The life of a download

A download is told by its events: `Stage` forgets what an event carries and
`Stage.Follows` is the automaton of what may come next. `Inv` is what the
scheduler's collections hold for one identifier at any time: either it was never
enqueued, or its record is in the map and says where else the job is (`Live`),
or it is over, with one result that its last event reports (`Over`).
`Inv.arm` is the invariant's step: an arm keeps it, once the event it handles has
been taken out of the collection it comes from (`Takes`).
-/

namespace DownloadManager

/-! ### Stages -/

/-- What an event says, without what it carries. -/
inductive Stage where
  /-- `Queued`. -/
  | queued
  /-- `Started`. -/
  | started
  /-- `RetryScheduled`. -/
  | retryScheduled
  /-- `PauseStarted`. -/
  | pauseStarted
  /-- `Paused`. -/
  | paused
  /-- `CancellationStarted`. -/
  | cancellationStarted
  /-- `Completed`, `Cancelled` or `Failed`. -/
  | terminal
  deriving DecidableEq, Repr

/-- The stage an event reports. -/
def EventKind.stage : EventKind → Stage
  | .queued => .queued
  | .started => .started
  | .retryScheduled _ _ => .retryScheduled
  | .pauseStarted => .pauseStarted
  | .paused => .paused
  | .cancellationStarted => .cancellationStarted
  | .cancelled | .completed | .failed _ => .terminal

/-- The stage of a job in a state. -/
def JobState.stage : JobState → Stage
  | .queued => .queued
  | .running _ => .started
  | .retrying _ => .retryScheduled
  | .pausing _ => .pauseStarted
  | .paused => .paused
  | .cancelling => .cancellationStarted

/-- **The lifecycle automaton**: what may come next. -/
def Stage.Follows : Stage → Stage → Bool
  | queued, started | queued, paused | queued, terminal => true
  | started, pauseStarted | started, cancellationStarted | started, retryScheduled | started, terminal => true
  | retryScheduled, queued | retryScheduled, paused | retryScheduled, terminal => true
  | pauseStarted, paused | pauseStarted, cancellationStarted | pauseStarted, terminal => true
  | paused, queued | paused, terminal => true
  | cancellationStarted, terminal => true
  | _, _ => false

/-- A path of the automaton: it begins with `Queued`, and each event may follow the
one before it. -/
def Lifecycle (kinds : List EventKind) : Prop :=
  kinds.head? = some .queued ∧ kinds.IsChain fun k k' => k.stage.Follows k'.stage

theorem lifecycle_queued : Lifecycle [.queued] := ⟨rfl, .singleton _⟩

/-- One more event. -/
theorem Lifecycle.snoc {kinds : List EventKind} {k k' : EventKind} (h : Lifecycle kinds)
    (hlast : kinds.getLast? = some k) (hk : k.stage.Follows k'.stage) : Lifecycle (kinds ++ [k']) := by
  obtain ⟨hhead, hchain⟩ := h
  refine ⟨by rw [List.head?_append, hhead]; rfl, ?_⟩
  rw [List.isChain_append]
  refine ⟨hchain, .singleton _, ?_⟩
  intro x hx y hy
  rw [hlast, Option.mem_some_iff] at hx
  rw [List.head?_cons, Option.mem_some_iff] at hy
  subst hx hy
  exact hk

/-- Nothing follows a terminal event. -/
theorem not_follows_terminal (stage : Stage) : Stage.Follows .terminal stage = false := by
  cases stage <;> rfl

/-- **A path has at most one terminal event**, its last. -/
theorem Lifecycle.not_terminal {kinds : List EventKind} {k : EventKind} (h : Lifecycle (kinds ++ [k])) :
    ∀ k' ∈ kinds, k'.stage ≠ .terminal := by
  intro k' hk' hterm
  obtain ⟨l, r, rfl⟩ := List.append_of_mem hk'
  have hchain := h.2
  rw [List.append_assoc, List.isChain_append] at hchain
  have hnext := hchain.2.1
  cases r with
  | nil => simp [hterm, not_follows_terminal] at hnext
  | cons b r => simp [hterm, not_follows_terminal] at hnext

/-- The event that puts a job in a state. -/
def JobState.Reported : JobState → EventKind → Prop
  | .queued, .queued | .running _, .started | .pausing _, .pauseStarted => True
  | .paused, .paused | .cancelling, .cancellationStarted => True
  | .retrying attempt, .retryScheduled attempt' _ => attempt' = attempt
  | _, _ => False

theorem JobState.Reported.stage_eq {state : JobState} {k : EventKind} (h : state.Reported k) :
    k.stage = state.stage := by
  cases state <;> cases k <;> first | rfl | exact h.elim

theorem stage_kindOf (result : Result DownloadResult) : (kindOf result).stage = .terminal := by
  cases result with
  | ok => rfl
  | error e => cases e <;> rfl

/-- A job can be ended in any state. -/
theorem follows_terminal (state : JobState) : state.stage.Follows .terminal := by
  cases state <;> rfl

/-! ### What the arms send -/

namespace View

@[simp] theorem kinds_answer (job : Job) (reply : Result Unit) : (job.answer reply).filterMap kind? = [] := by
  simp [Job.answer, List.filterMap_map, Function.comp_def, kind?]

@[simp] theorem results_answer (job : Job) (reply : Result Unit) : (job.answer reply).filterMap result? = [] := by
  simp [Job.answer, List.filterMap_map, Function.comp_def, result?]

@[simp] theorem replied_answer (job : Job) (reply : Result Unit) :
    (job.answer reply).filterMap replied? = job.waiters := by
  simp [Job.answer, List.filterMap_map, Function.comp_def, replied?]

@[simp] theorem kinds_finalize (job : Job) (result : Result DownloadResult) :
    (job.finalize result).filterMap kind? = [kindOf result] := by
  cases h : job.result <;> simp [Job.finalize_eq, h, kind?]

@[simp] theorem results_finalize (job : Job) (result : Result DownloadResult) :
    (job.finalize result).filterMap result? = job.result.toList.map fun tx => (tx, result) := by
  cases h : job.result <;> simp [Job.finalize_eq, h, List.filterMap_cons, result?]

@[simp] theorem replied_finalize (job : Job) (result : Result DownloadResult) :
    (job.finalize result).filterMap replied? = job.waiters := by
  cases h : job.result <;> simp [Job.finalize_eq, h, replied?]

@[simp] theorem kinds_act (e : Effect) (v : View) : (e.act v).kinds = v.kinds ++ e.out.filterMap kind? := by
  simp [kinds, Effect.act]

@[simp] theorem results_act (e : Effect) (v : View) : (e.act v).results = v.results ++ e.out.filterMap result? := by
  simp [results, Effect.act]

@[simp] theorem replied_act (e : Effect) (v : View) : (e.act v).replied = v.replied ++ e.out.filterMap replied? := by
  simp [replied, Effect.act]

end View

/-! ### The invariant -/

/-- Where a job is besides the map, by its state. -/
def Place (root : Bool) (v : View) (job : Job) : Prop :=
  match job.state with
  | .queued => v.workers = [] ∧ (v.queued = 1 ∨ root = true ∧ v.queued = 0)
  | .running stop => v.workers = [stop] ∧ v.queued = 0
  | .retrying attempt => v.workers = [] ∧ v.queued = 0 ∧ attempt = job.attempt ∧ attempt ∈ v.timers
  | .pausing _ | .cancelling => v.workers.length = 1 ∧ v.queued = 0
  | .paused => v.workers = [] ∧ v.queued = 0

/-- The command that made the download. -/
def View.Asked (v : View) (id : Uuid) (request : Request) (tx : Sender) : Prop :=
  ∃ progressTx, SchedulerCmd.enqueue id request progressTx tx ∈ v.cmds

/-- What holds of the record of a job in the map, and of what has been sent about it. -/
structure Record (id : Uuid) (v : View) (job : Job) : Prop where
  /-- The record is under its own identifier. -/
  id_eq : job.id = id
  /-- It is the record of an `Enqueue`. -/
  asked : ∃ tx, v.Asked id job.request tx ∧ job.result = some tx
  /-- No result has been sent. -/
  results : v.results = []
  /-- The events so far are a path of the automaton. -/
  path : Lifecycle v.kinds
  /-- The last event put the job in its state. -/
  last : ∃ k, v.kinds.getLast? = some k ∧ job.state.Reported k
  /-- The budget is not overdrawn. -/
  attempt_le : job.attempt ≤ job.request.config.retries
  /-- No timer is ahead of the attempts made. -/
  timers_le : ∀ attempt ∈ v.timers, attempt ≤ job.attempt
  /-- No two timers are for one attempt. -/
  timers_nodup : v.timers.Nodup

/-- What holds of a job in the map. -/
structure Live (root : Bool) (id : Uuid) (v : View) (job : Job) : Prop extends Record id v job where
  /-- Where the job is. -/
  place : Place root v job

/-- Never enqueued. -/
structure Unborn (v : View) : Prop where
  /-- No command made it. -/
  cmds : ∀ cmd ∈ v.cmds, cmd.enqueues = none
  /-- No event. -/
  kinds : v.kinds = []
  /-- No result. -/
  results : v.results = []
  /-- No timer. -/
  timers : v.timers = []

/-- Ended: one result has been sent, and the last event reports it. -/
structure Over (id : Uuid) (v : View) : Prop where
  /-- The result went to the channel of the `Enqueue`. -/
  result : ∃ request tx value, v.Asked id request tx ∧ v.results = [(tx, value)] ∧
    v.kinds.getLast? = some (kindOf value)
  /-- The events are a path of the automaton. -/
  path : Lifecycle v.kinds

/-- **The invariant of one identifier.** -/
def Inv (root : Bool) (id : Uuid) (v : View) : Prop :=
  match v.job with
  | some job => Live root id v job
  | none => v.workers = [] ∧ v.queued = 0 ∧ v.timers.Nodup ∧ (Unborn v ∨ Over id v)

theorem inv_some {root : Bool} {id : Uuid} {v : View} {job : Job} (hjob : v.job = some job) :
    Inv root id v ↔ Live root id v job := by
  rw [Inv, hjob]

theorem inv_none {root : Bool} {id : Uuid} {v : View} (hjob : v.job = none) :
    Inv root id v ↔ v.workers = [] ∧ v.queued = 0 ∧ v.timers.Nodup ∧ (Unborn v ∨ Over id v) := by
  rw [Inv, hjob]

/-- Taking an event out of where it comes from: `ready`, `delayed`, `workers` or the
command channel. -/
inductive Takes (id : Uuid) : JobEvent → View → View → Prop
  /-- From the front of `ready`. -/
  | dispatch {v : View} {n : ℕ} (h : v.queued = n + 1) : Takes id .dispatch v { v with queued := n }
  /-- A timer. -/
  | retryElapsed {v : View} {attempt : UInt32} (h : attempt ∈ v.timers) :
      Takes id (.retryElapsed attempt) v { v with timers := v.timers.erase attempt }
  /-- `Pause`. -/
  | pause {v : View} {ack : Sender} : Takes id (.pause ack) v { v with cmds := v.cmds ++ [.pause id ack] }
  /-- `Resume`. -/
  | resume {v : View} {ack : Sender} : Takes id (.resume ack) v { v with cmds := v.cmds ++ [.resume id ack] }
  /-- `Cancel`. -/
  | cancel {v : View} : Takes id .cancel v { v with cmds := v.cmds ++ [.cancel id] }
  /-- The turn of a job in `CancelAll`. -/
  | cancelAll {v : View} : Takes id .cancel v v
  /-- A worker. -/
  | worker {v : View} {token : Token} {rest : List Token} {result : Result WorkerResult}
      (h : v.workers.Perm (token :: rest)) : Takes id (.worker result) v { v with workers := rest }

/-! ### The step -/

section

variable {nextDelay : UInt32 → Except Panic Duration} {discarded : Result Unit} {token : Token}

variable {root : Bool} {id : Uuid} {v v' : View} {job job' : Job}

/-- An arm that keeps the job and emits nothing. -/
theorem Record.keep {e : Effect} (R : Record id v job) (hid : job'.id = job.id) (hrequest : job'.request = job.request)
    (hresult : job'.result = job.result) (hattempt : job'.attempt = job.attempt)
    (hstate : ∀ k, job.state.Reported k → job'.state.Reported k) (hk : e.out.filterMap View.kind? = [])
    (hr : e.out.filterMap View.result? = []) (ht : e.timer = none) : Record id (e.act v) job' := by
  obtain ⟨tx, hasked, htx⟩ := R.asked
  obtain ⟨k, hlast, hrep⟩ := R.last
  have hkinds : (e.act v).kinds = v.kinds := by rw [View.kinds_act, hk, List.append_nil]
  have htimers : (e.act v).timers = v.timers := by simp [Effect.act, ht]
  exact
    { id_eq := hid.trans R.id_eq
      asked := ⟨tx, hrequest ▸ hasked, hresult.trans htx⟩
      results := by rw [View.results_act, hr, R.results]; rfl
      path := hkinds ▸ R.path
      last := ⟨k, hkinds ▸ hlast, hstate k hrep⟩
      attempt_le := by rw [hattempt, hrequest]; exact R.attempt_le
      timers_le := by rw [htimers, hattempt]; exact R.timers_le
      timers_nodup := htimers ▸ R.timers_nodup }

/-- An arm that keeps the job and emits an event. A timer it adds is for a later attempt
than any before. -/
theorem Record.advance {e : Effect} (R : Record id v job) (k : EventKind) (hid : job'.id = job.id)
    (hrequest : job'.request = job.request) (hresult : job'.result = job.result)
    (hattempt : job'.attempt = job.attempt ∧ e.timer = none ∨
      job.attempt < job'.attempt ∧ job'.attempt ≤ job.request.config.retries ∧ ∀ a ∈ e.timer, a = job'.attempt)
    (hfollows : job.state.stage.Follows job'.state.stage) (hstate : job'.state.Reported k)
    (hk : e.out.filterMap View.kind? = [k]) (hr : e.out.filterMap View.result? = []) :
    Record id (e.act v) job' := by
  obtain ⟨tx, hasked, htx⟩ := R.asked
  obtain ⟨k₀, hlast, hrep⟩ := R.last
  have hkinds : (e.act v).kinds = v.kinds ++ [k] := by rw [View.kinds_act, hk]
  have hle : job.attempt ≤ job'.attempt := by
    rcases hattempt with ⟨h, -⟩ | ⟨h, -⟩
    · rw [h]; exact UInt32.le_refl _
    · exact UInt32.le_of_lt h
  exact
    { id_eq := hid.trans R.id_eq
      asked := ⟨tx, hrequest ▸ hasked, hresult.trans htx⟩
      results := by rw [View.results_act, hr, R.results]; rfl
      path := by
        rw [hkinds]
        exact R.path.snoc hlast (by rw [hrep.stage_eq, hstate.stage_eq]; exact hfollows)
      last := ⟨k, by rw [hkinds, List.getLast?_concat], hstate⟩
      attempt_le := by
        rw [hrequest]
        rcases hattempt with ⟨h, -⟩ | ⟨-, h, -⟩
        · rw [h]; exact R.attempt_le
        · exact h
      timers_le := by
        intro a ha
        rcases List.mem_append.mp ha with ha | ha
        · exact UInt32.le_trans (R.timers_le a ha) hle
        · rcases hattempt with ⟨-, h⟩ | ⟨-, -, h⟩
          · simp [h] at ha
          · rw [h a (by simpa using ha)]; exact UInt32.le_refl _
      timers_nodup := by
        rcases hattempt with ⟨-, h⟩ | ⟨hlt, -, h⟩
        · simpa [Effect.act, h] using R.timers_nodup
        · cases ht : e.timer with
          | none => simpa [Effect.act, ht] using R.timers_nodup
          | some a =>
            have hnew : a ∉ v.timers := fun hmem =>
              UInt32.not_le.mpr hlt (h a ht ▸ R.timers_le a hmem)
            simpa [Effect.act, ht, List.nodup_append] using
              ⟨R.timers_nodup, fun b hb hab => hnew (hab ▸ hb)⟩ }

/-- An arm that ends the job. -/
theorem Record.ended {e : Effect} (R : Record id v job) {result : Result DownloadResult}
    (hout : e.out = job.finalize result) : Over id (e.act v) := by
  obtain ⟨tx, hasked, htx⟩ := R.asked
  obtain ⟨k₀, hlast, hrep⟩ := R.last
  have hkinds : (e.act v).kinds = v.kinds ++ [kindOf result] := by
    rw [View.kinds_act, hout, View.kinds_finalize]
  refine ⟨⟨job.request, tx, result, hasked, ?_, by rw [hkinds, List.getLast?_concat]⟩, ?_⟩
  · rw [View.results_act, hout, View.results_finalize, R.results, htx]; rfl
  · rw [hkinds]
    exact R.path.snoc hlast (by rw [hrep.stage_eq, stage_kindOf]; exact follows_terminal _)

/-- The attempt after one that is within the budget is within it too, and is later. -/
theorem attempt_succ {attempt retries : UInt32} (h : attempt < retries) :
    attempt < attempt + 1 ∧ attempt + 1 ≤ retries := by
  have h1 : attempt.toNat < retries.toNat := h
  have h2 : (attempt + 1).toNat = attempt.toNat + 1 := by
    rw [UInt32.toNat_add]
    have := retries.toNat_lt
    simp only [UInt32.toNat_one]
    omega
  exact ⟨by rw [UInt32.lt_iff_toNat_lt]; omega, by rw [UInt32.le_iff_toNat_le]; omega⟩

theorem Takes.job_eq {event : JobEvent} (h : Takes id event v v') : v'.job = v.job := by
  cases h <;> rfl

/-- What a command other than `Enqueue` leaves of an identifier with no record. -/
theorem Unborn.or_over_of_cmd {cmd : SchedulerCmd} (hcmd : cmd.enqueues = none) (hcmds : v'.cmds = v.cmds ++ [cmd])
    (hout : v'.out = v.out) (htimers : v'.timers = v.timers) (h : Unborn v ∨ Over id v) :
    Unborn v' ∨ Over id v' := by
  have hkinds : v'.kinds = v.kinds := by rw [View.kinds, hout, View.kinds]
  have hresults : v'.results = v.results := by rw [View.results, hout, View.results]
  rcases h with h | ⟨⟨request, tx, value, ⟨progressTx, hmem⟩, hr, hl⟩, hp⟩
  · refine .inl ⟨?_, hkinds.trans h.kinds, hresults.trans h.results, htimers.trans h.timers⟩
    intro c hc
    rw [hcmds, List.mem_append, List.mem_singleton] at hc
    rcases hc with hc | rfl
    · exact h.cmds c hc
    · exact hcmd
  · refine .inr ⟨⟨request, tx, value, ⟨progressTx, ?_⟩, hresults.trans hr, hkinds ▸ hl⟩, hkinds ▸ hp⟩
    rw [hcmds]
    exact List.mem_append_left _ hmem

/-- What is taken for an identifier with no record leaves it without one. -/
theorem Inv.takes_none {event : JobEvent} (hv : Inv root id v) (ht : Takes id event v v') (hjob : v.job = none) :
    v'.workers = [] ∧ v'.queued = 0 ∧ v'.timers.Nodup ∧ (Unborn v' ∨ Over id v') := by
  obtain ⟨hw, hq, hn, hlife⟩ := (inv_none hjob).mp hv
  cases ht with
  | dispatch h => omega
  | retryElapsed h =>
    rcases hlife with hu | ho
    · simp [hu.timers] at h
    · exact ⟨hw, hq, hn.erase _, .inr ⟨ho.result, ho.path⟩⟩
  | pause | resume | cancel => exact ⟨hw, hq, hn, Unborn.or_over_of_cmd rfl rfl rfl rfl hlife⟩
  | cancelAll => exact ⟨hw, hq, hn, hlife⟩
  | worker h => simp [hw] at h

/-- An arm that finds no record. -/
theorem Inv.arm_none {event : JobEvent} {e : Effect} (hv : Inv root id v) (ht : Takes id event v v')
    (hjob : v.job = none) (ha : Arm nextDelay discarded token id none event e) : Inv root id (e.act v') := by
  obtain ⟨hw, hq, hn, hlife⟩ := hv.takes_none ht hjob
  have hact : e.job = none ∧ e.queue = .keep ∧ e.timer = none ∧ e.spawn = none ∧
      e.out.filterMap View.kind? = [] ∧ e.out.filterMap View.result? = [] := by
    cases ha <;> simp [View.kind?, View.result?, List.filterMap_cons]
  obtain ⟨h1, h2, h3, h4, h5, h6⟩ := hact
  have hcmds : (e.act v').cmds = v'.cmds := rfl
  have hkinds : (e.act v').kinds = v'.kinds := by rw [View.kinds_act, h5, List.append_nil]
  have hresults : (e.act v').results = v'.results := by rw [View.results_act, h6, List.append_nil]
  have htimers : (e.act v').timers = v'.timers := by simp [Effect.act, h3]
  rw [inv_none (show (e.act v').job = none from h1)]
  refine ⟨by simp [Effect.act, h4, hw], by simp [Effect.act, h2, QueueOp.act, hq], htimers ▸ hn, ?_⟩
  rcases hlife with hu | ⟨⟨request, tx, value, hmem, hr, hl⟩, hp⟩
  · exact .inl ⟨hu.cmds, hkinds.trans hu.kinds, hresults.trans hu.results, htimers.trans hu.timers⟩
  · exact .inr ⟨⟨request, tx, value, hmem, hresults.trans hr, hkinds ▸ hl⟩, hkinds ▸ hp⟩

/-- What is taken for a job leaves its record as it was. -/
theorem Record.takes {event : JobEvent} (R : Record id v job) (ht : Takes id event v v') : Record id v' job := by
  cases ht with
  | dispatch | worker => exact ⟨R.id_eq, R.asked, R.results, R.path, R.last, R.attempt_le, R.timers_le, R.timers_nodup⟩
  | retryElapsed h =>
    exact ⟨R.id_eq, R.asked, R.results, R.path, R.last, R.attempt_le,
      fun a ha => R.timers_le a (List.mem_of_mem_erase ha), R.timers_nodup.erase _⟩
  | cancelAll => exact R
  | pause | resume | cancel =>
    obtain ⟨tx, ⟨progressTx, hmem⟩, htx⟩ := R.asked
    exact ⟨R.id_eq, ⟨tx, ⟨progressTx, List.mem_append_left _ hmem⟩, htx⟩, R.results, R.path, R.last,
      R.attempt_le, R.timers_le, R.timers_nodup⟩

/-- `Place` looks at three parts of a view. -/
theorem Place.congr (h : Place root v job) (hworkers : v'.workers = v.workers) (hqueued : v'.queued = v.queued)
    (htimers : ∀ a, job.state = .retrying a → a ∈ v.timers → a ∈ v'.timers) : Place root v' job := by
  unfold Place at h ⊢
  split at h
  case h_3 hs => exact ⟨hworkers ▸ h.1, hqueued ▸ h.2.1, h.2.2.1, htimers _ hs h.2.2.2⟩
  all_goals simpa only [hworkers, hqueued] using h

/-- An arm that leaves the job as it is. -/
theorem Live.unchanged {e : Effect} (R : Record id v job) (hplace : Place root v job) (hjob : e.job = some job)
    (hq : e.queue = .keep) (ht : e.timer = none) (hs : e.spawn = none)
    (hk : e.out.filterMap View.kind? = []) (hr : e.out.filterMap View.result? = []) : Inv root id (e.act v) := by
  rw [inv_some (show (e.act v).job = some job from hjob)]
  exact ⟨R.keep rfl rfl rfl rfl (fun _ h => h) hk hr ht,
    hplace.congr (by simp [Effect.act, hs]) (by simp [Effect.act, hq, QueueOp.act])
      fun _ _ h => List.mem_append_left _ h⟩

/-- An arm that ends a job without a worker, and leaves none of its entries in `ready`. -/
theorem Record.inv_ended {e : Effect} (R : Record id v job) {result : Result DownloadResult} (hjob : e.job = none)
    (hout : e.out = job.finalize result) (ht : e.timer = none) (hs : e.spawn = none) (hw : v.workers = [])
    (hq : e.queue.act v.queued = 0) : Inv root id (e.act v) := by
  rw [inv_none (show (e.act v).job = none from hjob)]
  exact ⟨by simp [Effect.act, hs, hw], hq, by simpa [Effect.act, ht] using R.timers_nodup, .inr (R.ended hout)⟩

/-- A job with a worker is not in `ready`, and has no other worker. -/
theorem Place.worker {tok : Token} {rest : List Token} (h : Place root v job) (hw : v.workers.Perm (tok :: rest)) :
    rest = [] ∧ v.queued = 0 := by
  have hlen := hw.length_eq
  unfold Place at h
  split at h
  case h_1 | h_3 | h_6 => simp [h.1] at hlen
  all_goals exact ⟨by simpa [h.1] using hlen.symm, h.2⟩

/-- A job with a worker that is not being stopped is running. -/
theorem Place.running {tok : Token} {rest : List Token} (h : Place root v job) (hw : v.workers.Perm (tok :: rest))
    (hplain : job.state.plain) : ∃ stop, job.state = .running stop := by
  have hlen := hw.length_eq
  unfold Place at h
  split at h
  case h_2 stop hs => exact ⟨stop, hs⟩
  case h_1 | h_3 | h_6 => simp [h.1] at hlen
  all_goals rename_i hs; simp [hs, JobState.plain] at hplain

/-- An arm that finds a record. -/
theorem Inv.arm_some {event : JobEvent} {e : Effect} (L : Live root id v job) (ht : Takes id event v v')
    (ha : Arm nextDelay discarded token id (some job) event e) : Inv root id (e.act v') := by
  have R := L.toRecord.takes ht
  have hp := L.place
  cases ha with
  | notQueued h =>
    cases ht with
    | dispatch hd =>
      unfold Place at hp
      split at hp <;> simp_all
  | start h =>
    cases ht with
    | dispatch hd =>
      simp only [Place, h] at hp
      refine ⟨R.advance .started rfl rfl rfl (.inl ⟨rfl, rfl⟩) (by rw [h]; rfl) trivial
        (by simp [View.kind?]) (by simp [View.result?]), ?_⟩
      simp [Place, Effect.act, QueueOp.act, hp.1]
      omega
  | @stale _ attempt h =>
    cases ht with
    | retryElapsed hd =>
      have htimers : ∀ a, job.state = .retrying a → a ∈ v.timers → a ∈ v.timers.erase attempt :=
        fun a hs hm => (List.mem_erase_of_ne (by rintro rfl; exact h hs)).mpr hm
      exact Live.unchanged R (hp.congr rfl rfl htimers) rfl rfl rfl rfl rfl rfl
  | requeue h =>
    cases ht with
    | retryElapsed hd =>
      simp only [Place, h] at hp
      refine ⟨R.advance .queued rfl rfl rfl (.inl ⟨rfl, rfl⟩) (by rw [h]; rfl) trivial
        (by simp [View.kind?]) (by simp [View.result?]), ?_⟩
      simp [Place, Effect.act, QueueOp.act, hp.1, hp.2.1]
  | pauseQueued h =>
    cases ht with
    | pause =>
      simp only [Place, h] at hp
      refine ⟨R.advance .paused rfl rfl rfl (.inl ⟨rfl, rfl⟩) (by rw [h]; rfl) trivial
        (by simp [View.kind?]) (by simp [View.result?]), ?_⟩
      simp [Place, Effect.act, QueueOp.act, hp.1]
  | pauseRetrying h =>
    cases ht with
    | pause =>
      simp only [Place, h] at hp
      refine ⟨R.advance .paused rfl rfl rfl (.inl ⟨rfl, rfl⟩) (by rw [h]; rfl) trivial
        (by simp [View.kind?]) (by simp [View.result?]), ?_⟩
      simp [Place, Effect.act, QueueOp.act, hp.1, hp.2.1]
  | pauseRunning h =>
    cases ht with
    | pause =>
      simp only [Place, h] at hp
      refine ⟨R.advance .pauseStarted rfl rfl rfl (.inl ⟨rfl, rfl⟩) (by rw [h]; rfl) trivial
        (by simp [View.kind?]) (by simp [View.result?]), ?_⟩
      simp [Place, Effect.act, QueueOp.act, hp.1, hp.2]
  | pausePausing h =>
    cases ht with
    | pause =>
      simp only [Place, h] at hp
      refine ⟨R.keep rfl rfl rfl rfl (by rw [h]; intro k hr; cases k <;> exact hr) rfl rfl rfl, ?_⟩
      simp [Place, Effect.act, QueueOp.act, hp.1, hp.2]
  | pausePaused h | pauseCancelling h | resumeLive h hne | resumeBusy h =>
    cases ht
    exact Live.unchanged R (hp.congr rfl rfl fun _ _ h => h) rfl rfl rfl rfl
      (by simp [View.kind?]) (by simp [View.result?])
  | resumePaused h =>
    cases ht with
    | resume =>
      simp only [Place, h] at hp
      refine ⟨R.advance .queued rfl rfl rfl (.inl ⟨rfl, rfl⟩) (by rw [h]; rfl) trivial
        (by simp [View.kind?, List.filterMap_cons]) (by simp [View.result?]), ?_⟩
      simp [Place, Effect.act, QueueOp.act, hp.1, hp.2]
  | cancelIdle h =>
    have hw : v'.workers = [] := by
      unfold Place at hp
      unfold JobState.idle at h
      cases ht <;> split at hp <;> simp_all
    exact R.inv_ended rfl rfl rfl rfl hw rfl
  | cancelRunning h =>
    have hplace : Place root v' job := by cases ht <;> exact hp.congr rfl rfl fun _ _ h => h
    simp only [Place, h] at hplace
    refine ⟨R.advance .cancellationStarted rfl rfl rfl (.inl ⟨rfl, rfl⟩) (by rw [h]; rfl) trivial
      (by simp [View.kind?]) (by simp [View.result?]), ?_⟩
    simp [Place, Effect.act, QueueOp.act, hplace.1, hplace.2]
  | cancelPausing h =>
    have hplace : Place root v' job := by cases ht <;> exact hp.congr rfl rfl fun _ _ h => h
    simp only [Place, h] at hplace
    refine ⟨R.advance .cancellationStarted rfl rfl rfl (.inl ⟨rfl, rfl⟩) (by rw [h]; rfl) trivial
      (by simp [View.kind?]) (by simp [View.result?]), ?_⟩
    simp [Place, Effect.act, QueueOp.act, hplace.1, hplace.2]
  | cancelAgain h =>
    have hplace : Place root v' job := by cases ht <;> exact hp.congr rfl rfl fun _ _ h => h
    exact Live.unchanged R hplace rfl rfl rfl rfl rfl rfl
  | finished | cancelled | stopped | failed | invalid =>
    cases ht with
    | worker hw =>
      obtain ⟨hrest, hq⟩ := hp.worker hw
      exact R.inv_ended rfl rfl rfl rfl hrest hq
  | paused h =>
    cases ht with
    | worker hw =>
      obtain ⟨hrest, hq⟩ := hp.worker hw
      refine ⟨R.advance .paused rfl rfl rfl (.inl ⟨rfl, rfl⟩) (by rw [h]; rfl) trivial
        (by simp [View.kind?]) (by simp [View.result?]), ?_⟩
      simp [Place, Effect.act, QueueOp.act, hrest, hq]
  | pausedRetry h _ hlt =>
    cases ht with
    | worker hw =>
      obtain ⟨hrest, hq⟩ := hp.worker hw
      have hsucc := attempt_succ hlt
      refine ⟨R.advance .paused rfl rfl rfl (.inr ⟨hsucc.1, hsucc.2, by simp⟩) (by rw [h]; rfl) trivial
        (by simp [View.kind?]) (by simp [View.result?]), ?_⟩
      simp [Place, Effect.act, QueueOp.act, hrest, hq]
  | @retry _ _ delay h _ hlt hd =>
    cases ht with
    | worker hw =>
      obtain ⟨hrest, hq⟩ := hp.worker hw
      have hsucc := attempt_succ hlt
      obtain ⟨stop, hrun⟩ := hp.running hw h
      refine ⟨R.advance (.retryScheduled (job.attempt + 1) delay.asMillis) rfl rfl rfl
        (.inr ⟨hsucc.1, hsucc.2, by simp⟩) (by rw [hrun]; rfl) rfl
        (by simp [View.kind?]) (by simp [View.result?]), ?_⟩
      simp [Place, Effect.act, QueueOp.act, hrest, hq]

/-- **The step of the invariant**: an arm keeps it. -/
theorem Inv.arm {event : JobEvent} {e : Effect} (hv : Inv root id v) (ht : Takes id event v v')
    (ha : Arm nextDelay discarded token id v'.job event e) : Inv root id (e.act v') := by
  cases hjob : v'.job with
  | none =>
    rw [hjob] at ha
    exact hv.arm_none ht (ht.job_eq.symm.trans hjob) ha
  | some job =>
    rw [hjob] at ha
    exact Inv.arm_some ((inv_some (ht.job_eq.symm.trans hjob)).mp hv) ht ha

end

end DownloadManager
