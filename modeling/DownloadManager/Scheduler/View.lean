import DownloadManager.Scheduler.Run

/-!
# One job's view of the scheduler

The scheduler's collections are shared by all jobs, but an arm of `transition_job`
touches only the entries of one. `view` is what the collections hold for one
identifier, and `Effect.act` is what an effect does to that view. `view_apply_self`
and `view_apply_other` are the frame: applying an effect for `id` acts on the view
of `id` and leaves every other view alone. An invariant of a single job is
therefore proved on views, with no map and no queue in sight.
-/

namespace DownloadManager

/-- What the scheduler holds for one identifier. -/
@[ext]
structure View where
  /-- Its record. -/
  job : Option Job
  /-- How often it is in `ready`. -/
  queued : ℕ
  /-- The attempts its timers wait for. -/
  timers : List UInt32
  /-- The tokens of its workers. -/
  workers : List Token
  /-- What has been sent about it. -/
  out : List Output
  /-- The commands received about it. -/
  cmds : List SchedulerCmd

namespace View

/-- The kind of an event, if the output is one. -/
def kind? : Output → Option EventKind
  | .event _ kind => some kind
  | _ => none

/-- The reply channel answered, if the output is a reply. -/
def replied? : Output → Option Sender
  | .ack _ tx _ => some tx
  | _ => none

/-- The result sent, if the output is one. -/
def result? : Output → Option (Sender × Result DownloadResult)
  | .result _ tx value => some (tx, value)
  | _ => none

/-- The events emitted, oldest first. -/
def kinds (v : View) : List EventKind := v.out.filterMap kind?

/-- The reply channels answered. -/
def replied (v : View) : List Sender := v.out.filterMap replied?

/-- The results sent. -/
def results (v : View) : List (Sender × Result DownloadResult) := v.out.filterMap result?

/-- The reply channels received. -/
def acks (v : View) : List Sender := v.cmds.filterMap SchedulerCmd.ack?

/-- The waiters of the record. -/
def waiters (v : View) : List Sender := v.job.elim [] Job.waiters

end View

/-- How many entries are left. -/
def QueueOp.act : QueueOp → ℕ → ℕ
  | keep, n => n
  | push, n => n + 1
  | remove, _ => 0

/-- What an effect does to the view of its job. -/
def Effect.act (e : Effect) (v : View) : View where
  job := e.job
  queued := e.queue.act v.queued
  timers := v.timers ++ e.timer.toList
  workers := v.workers ++ e.spawn.toList.map Worker.stop
  out := v.out ++ e.out
  cmds := v.cmds

/-- An effect that sends, and starts a worker, for one identifier only. -/
structure Effect.Local (e : Effect) (id : Uuid) : Prop where
  /-- What it sends. -/
  out : ∀ o ∈ e.out, o.id = id
  /-- The worker it starts. -/
  spawn : ∀ w ∈ e.spawn, w.id = id

/-- The timers of a job. -/
def timersOf (id : Uuid) (delayed : List (Uuid × UInt32)) : List UInt32 :=
  (delayed.filter fun timer => timer.1 = id).map Prod.snd

/-- The tokens of a job's workers. -/
def tokensOf (id : Uuid) (workers : List Worker) : List Token :=
  (workers.filter fun w => w.id = id).map Worker.stop

/-- The view of `id`. -/
def Scheduler.view (s : Scheduler) (handled : List SchedulerCmd) (id : Uuid) : View where
  job := s.jobs.lookup id
  queued := s.ready.count id
  timers := timersOf id s.delayed
  workers := tokensOf id s.workers
  out := s.log.filter fun o => o.id = id
  cmds := handled.filter fun cmd => cmd.id? = some id

/-- The view of `id`. -/
def Thread.view (t : Thread) (id : Uuid) : View := t.sched.view t.handled id

/-! ### The parts of a view -/

theorem QueueOp.count_apply_self (op : QueueOp) (id : Uuid) (ready : List Uuid) :
    (op.apply id ready).count id = op.act (ready.count id) := by
  cases op with
  | keep => rfl
  | push => simp [QueueOp.apply, QueueOp.act]
  | remove => simp [QueueOp.apply, QueueOp.act, List.count_eq_zero]

theorem QueueOp.filter_apply (op : QueueOp) (id : Uuid) (ready : List Uuid) :
    (op.apply id ready).filter (· ≠ id) = ready.filter (· ≠ id) := by
  cases op <;> simp [QueueOp.apply]

theorem QueueOp.count_apply_of_ne (op : QueueOp) {id other : Uuid} (h : other ≠ id) (ready : List Uuid) :
    (op.apply id ready).count other = ready.count other := by
  have hcount (l : List Uuid) : (l.filter (· ≠ id)).count other = l.count other :=
    List.count_filter (by simpa using h)
  rw [← hcount, QueueOp.filter_apply, hcount]

@[simp] theorem timersOf_append (id : Uuid) (l l' : List (Uuid × UInt32)) :
    timersOf id (l ++ l') = timersOf id l ++ timersOf id l' := by
  simp [timersOf]

@[simp] theorem tokensOf_append (id : Uuid) (l l' : List Worker) :
    tokensOf id (l ++ l') = tokensOf id l ++ tokensOf id l' := by
  simp [tokensOf]

theorem mem_timersOf {id : Uuid} {attempt : UInt32} {delayed : List (Uuid × UInt32)} :
    attempt ∈ timersOf id delayed ↔ (id, attempt) ∈ delayed := by
  simp [timersOf]

theorem mem_tokensOf {w : Worker} {workers : List Worker} (h : w ∈ workers) :
    w.stop ∈ tokensOf w.id workers := by
  simp only [tokensOf, List.mem_map, List.mem_filter]
  exact ⟨w, ⟨h, by simp⟩, rfl⟩

theorem timersOf_cons (id : Uuid) (timer : Uuid × UInt32) (l : List (Uuid × UInt32)) :
    timersOf id (timer :: l) = if timer.1 = id then timer.2 :: timersOf id l else timersOf id l := by
  by_cases h : timer.1 = id <;> simp [timersOf, h]

theorem tokensOf_cons (id : Uuid) (w : Worker) (l : List Worker) :
    tokensOf id (w :: l) = if w.id = id then w.stop :: tokensOf id l else tokensOf id l := by
  by_cases h : w.id = id <;> simp [tokensOf, h]

/-- What is taken out is missed only where it was. -/
theorem filter_erase {α : Type} [BEq α] [LawfulBEq α] (a : α) {p : α → Bool} (h : p a = false) (l : List α) :
    (l.erase a).filter p = l.filter p := by
  rw [← List.erase_filter, List.erase_of_not_mem]
  simp [h]

/-- Taking a timer of `id` out takes it out of the view. -/
theorem timersOf_erase_self (id : Uuid) (attempt : UInt32) (delayed : List (Uuid × UInt32)) :
    timersOf id (delayed.erase (id, attempt)) = (timersOf id delayed).erase attempt := by
  induction delayed with
  | nil => rfl
  | cons timer l ih =>
    obtain ⟨i, a⟩ := timer
    rw [List.erase_cons, timersOf_cons]
    by_cases hi : i = id
    · subst hi
      by_cases ha : a = attempt
      · simp [ha]
      · simp [ha, timersOf_cons, ih]
    · simp [hi, timersOf_cons, ih]

theorem timersOf_erase_of_ne {id other : Uuid} (h : other ≠ id) (attempt : UInt32)
    (delayed : List (Uuid × UInt32)) : timersOf other (delayed.erase (id, attempt)) = timersOf other delayed := by
  unfold timersOf
  rw [filter_erase _ (by simpa using h.symm)]

/-- Taking a worker out takes one entry out of the view of its job. -/
theorem tokensOf_erase_self {w : Worker} {workers : List Worker} (hw : w ∈ workers) :
    (tokensOf w.id workers).Perm (w.stop :: tokensOf w.id (workers.erase w)) := by
  have h := (List.perm_cons_erase hw).filter fun w' => w'.id = w.id
  rw [List.filter_cons_of_pos (by simp)] at h
  exact h.map Worker.stop

theorem tokensOf_erase_of_ne {w : Worker} {other : Uuid} (h : other ≠ w.id) (workers : List Worker) :
    tokensOf other (workers.erase w) = tokensOf other workers := by
  unfold tokensOf
  rw [filter_erase _ (by simpa using h.symm)]

/-! ### The frame -/

section

variable (s : Scheduler) (handled : List SchedulerCmd) {e : Effect} {id : Uuid}

/-- Applying an effect acts on the view of its job. -/
theorem Scheduler.view_apply_self (he : e.Local id) :
    (e.apply s id).view handled id = e.act (s.view handled id) := by
  have hout : e.out.filter (fun o => o.id = id) = e.out := List.filter_eq_self.mpr (by simpa using he.out)
  have hspawn : e.spawn.toList.filter (fun w => w.id = id) = e.spawn.toList :=
    List.filter_eq_self.mpr (by simpa using he.spawn)
  apply View.ext
  · simp [view, Effect.apply, Effect.act]
  · exact QueueOp.count_apply_self _ _ _
  · cases h : e.timer <;> simp [view, Effect.apply, Effect.act, h, timersOf]
  · simp [view, Effect.apply, Effect.act, tokensOf, hspawn]
  · simp [view, Effect.apply, Effect.act, hout]
  · rfl

/-- Applying an effect leaves every other view alone. -/
theorem Scheduler.view_apply_other (he : e.Local id) {other : Uuid} (h : other ≠ id) :
    (e.apply s id).view handled other = s.view handled other := by
  have hout : e.out.filter (fun o => o.id = other) = [] :=
    List.filter_eq_nil_iff.mpr fun o ho => by simp [he.out o ho, h.symm]
  have hspawn : e.spawn.toList.filter (fun w => w.id = other) = [] :=
    List.filter_eq_nil_iff.mpr fun w hw => by simp [he.spawn w (by simpa using hw), h.symm]
  apply View.ext
  · simp [view, Effect.apply, Jobs.lookup_put_of_ne _ _ h]
  · exact QueueOp.count_apply_of_ne _ h _
  · cases ht : e.timer <;> simp [view, Effect.apply, ht, timersOf, h.symm]
  · simp [view, Effect.apply, tokensOf, hspawn]
  · simp [view, Effect.apply, hout]
  · rfl

end

/-! ### The arms are local -/

theorem Job.answer_id (job : Job) (reply : Result Unit) : ∀ o ∈ job.answer reply, o.id = job.id := by
  simp only [Job.answer, List.mem_map]
  rintro o ⟨waiter, -, rfl⟩
  rfl

theorem Job.finalize_id (job : Job) (result : Result DownloadResult) : ∀ o ∈ job.finalize result, o.id = job.id := by
  intro o ho
  rw [Job.finalize_eq, List.mem_append, List.mem_cons, List.mem_map] at ho
  rcases ho with ho | rfl | ⟨tx, -, rfl⟩
  · exact job.answer_id _ o ho
  · rfl
  · rfl

variable {nextDelay : UInt32 → Except Panic Duration} {discarded : Result Unit} {token : Token} {id : Uuid}

/-- An arm concerns no job but its own. -/
theorem Arm.local {job? : Option Job} {event : JobEvent} {e : Effect}
    (h : Arm nextDelay discarded token id job? event e) (hid : ∀ job ∈ job?, job.id = id) : e.Local id := by
  cases h with
  | cancelIdle | finished | cancelled | stopped | failed | invalid =>
    exact ⟨fun o ho => (Job.finalize_id _ _ o ho).trans (hid _ rfl), by simp⟩
  | paused | pausedRetry =>
    refine ⟨fun o ho => ?_, by simp⟩
    rcases List.mem_append.mp ho with ho | ho
    · exact (Job.answer_id _ _ o ho).trans (hid _ rfl)
    · rw [List.mem_singleton.mp ho]; exact hid _ rfl
  | pauseQueued | pauseRetrying | retry => constructor <;> simp [Output.id, hid _ rfl]
  | cancelPausing => constructor <;> simp [Output.id]; rintro o (⟨a, -, rfl⟩ | rfl) <;> rfl
  | _ => constructor <;> simp [Output.id]

end DownloadManager
