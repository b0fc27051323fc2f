import DownloadManager.Scheduler.Tokens
import DownloadManager.System.Interference

/-!
# The scheduler, its workers and the disk

The scheduler's thread decides which workers there are; each worker runs `worker::run`, one
operation at a time; `cancel_job` awaits `discard_partial`, and the thread does nothing else
meanwhile; and other programs use the disk too. Every interleaving of these is a run.

Until `discard_partial` is done, what the thread is about to do is kept in `Cleanup`. When
`CancelAll` has several jobs to clean up after, their files are removed first, one job after
the other, and the results are sent when all are done.

`traffic`, `latest` and `discarded` are there for statements only: what each attempt has
learned and done, the last transfer of each job, and the results of `discard_partial`.
-/

namespace DownloadManager

open FileSystem

/-! ### When partial files are removed -/

/-- The arms of `transition_job` that call `cancel_job`. -/
def JobState.discards : JobState → JobEvent → Bool
  | .queued, .cancel | .paused, .cancel | .retrying _, .cancel => true
  | _, .worker (.ok (.finished _)) => false
  | .cancelling, .worker _ => true
  | .running _, .worker (.ok .stopped) => true
  | _, _ => false

theorem JobState.discards_cancel (state : JobState) : state.discards .cancel = state.idle := by
  cases state <;> rfl

/-- For a worker's result: the job is being cancelled, or the worker was stopped without a pause. -/
theorem JobState.discards_worker {state : JobState} {r : Result WorkerResult} (h : state.discards (.worker r) = true) :
    (∀ result, r ≠ .ok (.finished result)) ∧
      (state = .cancelling ∨ (∃ stop, state = .running stop) ∧ r = .ok .stopped) := by
  cases state <;> rcases r with e | (_ | _) <;> simp_all [discards]

/-- The partial files a transition removes: those of the job's destination. -/
def Scheduler.discards (s : Scheduler) (id : Uuid) (event : JobEvent) : Option (Uuid × PathBuf) :=
  (s.jobs.lookup id).bind fun job => if job.state.discards event then some (id, job.request.destination) else none

/-- The partial files an action removes, in order. -/
def Thread.discards (t : Thread) : Action → List (Uuid × PathBuf)
  | .command (.cancel id) _ _ => (t.sched.discards id .cancel).toList
  | .command .cancelAll _ order | .close _ order => order.filterMap fun id => t.sched.discards id .cancel
  | .worker w result _ => (t.sched.discards w.id (.worker result)).toList
  | _ => []

/-- The action, once the results of `discard_partial` are known. -/
def Action.withDiscarded (results : Uuid → Result Unit) : Action → Action
  | .command cmd _ order => .command cmd results order
  | .worker w result _ => .worker w result (results w.id)
  | .close _ order => .close results order
  | action => action

/-- What the thread waits for. -/
structure Cleanup where
  /-- What it is doing. -/
  action : Action
  /-- The job whose files are being removed. -/
  id : Uuid
  /-- What is left to do of that. -/
  program : Async Unit
  /-- The jobs that come after it, with their destinations. -/
  todo : List (Uuid × PathBuf)
  /-- The results so far. -/
  results : List (Uuid × Result Unit)

/-- The scheduler, its workers and the disk. -/
structure System where
  /-- The thread. -/
  thread : Thread
  /-- The disk. -/
  disk : Disk
  /-- What is left to do of each worker. -/
  program : Worker → Async WorkerResult
  /-- What each worker has learned and done. -/
  traffic : Worker → Traffic
  /-- The last transfer of each job. -/
  latest : Uuid → Option Transfer
  /-- What the thread waits for, if it does. -/
  cleanup : Option Cleanup
  /-- The results of `discard_partial` so far. -/
  discarded : List (Uuid × Result Unit)

/-- What happens next. -/
inductive Move where
  /-- The thread goes on, but not with a worker's result. -/
  | thread (action : Action)
  /-- A worker is done, and the thread takes its result. -/
  | yield (w : Worker)
  /-- An operation of a worker. -/
  | worker (w : Worker) (choice : Choice)
  /-- An operation of `discard_partial`. -/
  | cleanup (fault : Option (Fault IoError))
  /-- `discard_partial` returns. -/
  | discarded
  /-- Another program uses the disk. -/
  | outside (op : FileOp PathBuf UInt8) (fault : Option (Fault IoError))

namespace System

/-- A new scheduler, on a disk. -/
def new (platform : Platform) (maxConcurrent : ℕ+) (disk : Disk) : System where
  thread := .new maxConcurrent
  disk := disk
  program w := Worker.run platform w.request
  traffic _ := {}
  latest _ := none
  cleanup := none
  discarded := []

/-- Whether a worker has been asked to stop. -/
def cancelled (s : System) (w : Worker) : Bool := s.thread.sched.cancelRoot || w.stop ∈ s.thread.sched.stopped

/-- What a worker shares with the others. -/
def shared (s : System) (w : Worker) : Local := ⟨s.disk, s.traffic w, s.cancelled w⟩

/-- After an operation of a worker. -/
def performed (s : System) (w : Worker) (program : Async WorkerResult) (l : Local) : System :=
  { s with
    disk := l.disk
    program := Function.update s.program w program
    traffic := Function.update s.traffic w l.traffic
    latest := Function.update s.latest w.id (l.traffic.transfer.or (s.latest w.id)) }

variable (nextDelay : UInt32 → Except Panic Duration)

/-- What the thread does next; it waits first if there are files to remove. -/
def act (s : System) (action : Action) : Option System :=
  match s.thread.discards action with
  | [] => (s.thread.step nextDelay action).map fun t => { s with thread := t }
  | (id, dest) :: todo =>
    if (s.thread.step nextDelay action).isSome then
      some { s with cleanup := some ⟨action, id, discardPartial dest, todo, []⟩ }
    else none

/-- `discard_partial` has returned for a job. -/
def discard (s : System) (c : Cleanup) (r : Result Unit) : Option System :=
  let results := c.results ++ [(c.id, r)]
  let s := { s with discarded := s.discarded ++ [(c.id, r)] }
  match c.todo with
  | (id, dest) :: todo => some { s with cleanup := some ⟨c.action, id, discardPartial dest, todo, results⟩ }
  | [] =>
    (s.thread.step nextDelay (c.action.withDiscarded fun id => (results.lookup id).getD (.ok ()))).map fun t =>
      { s with thread := t, cleanup := none }

/-- A step of anyone. -/
def step (s : System) : Move → Option System
  | .thread .cancelRoot => (s.thread.step nextDelay .cancelRoot).map fun t => { s with thread := t }
  | .thread (.worker _ _ _) => none
  | .thread action => if s.cleanup.isNone then s.act nextDelay action else none
  | .yield w =>
    match s.program w with
    | .done r => if s.cleanup.isNone then s.act nextDelay (.worker w r (.ok ())) else none
    | .call _ _ => none
  | .worker w choice =>
    match s.program w with
    | .done _ => none
    | .call op next =>
      if w ∈ s.thread.sched.workers then
        ((s.shared w).perform op choice).map fun (r, l) => s.performed w (next r) l
      else none
  | .cleanup fault =>
    match s.cleanup with
    | some ⟨action, id, .call (.file op) next, todo, results⟩ =>
      if Truthful s.disk op fault then
        let (r, disk) := performFile s.disk fault op
        some { s with disk := disk, cleanup := some ⟨action, id, next r, todo, results⟩ }
      else none
    | _ => none
  | .discarded =>
    match s.cleanup with
    | some ⟨action, id, .done r, todo, results⟩ => s.discard nextDelay ⟨action, id, .done r, todo, results⟩ r
    | _ => none
  | .outside op fault => some { s with disk := (performFile s.disk fault op).2 }

/-- The states some run leads to, for any initial limit and any disk. -/
abbrev Reachable (platform : Platform) : System → Prop :=
  Machine.Reachable (step nextDelay) fun s => ∃ maxConcurrent disk, s = .new platform maxConcurrent disk

/-- What the thread is asked to do by a move. -/
inductive Asks (s : System) : Move → Action → Prop
  /-- Anything but to take a worker's result. -/
  | thread {action : Action} (hworker : ∀ w r discarded, action ≠ .worker w r discarded) : Asks s (.thread action) action
  /-- To take a worker's result. -/
  | yield {w : Worker} {r : Result WorkerResult} (hprogram : s.program w = .done r) :
      Asks s (.yield w) (.worker w r (.ok ()))

/-- What a step can be. -/
inductive Next (s : System) : Move → System → Prop
  /-- The root token is cancelled. -/
  | cancelRoot {t : Thread} (ht : s.thread.step nextDelay .cancelRoot = some t) : Next s (.thread .cancelRoot) { s with thread := t }
  /-- The thread goes on. -/
  | act {m : Move} {action : Action} {t : Thread} (hasks : s.Asks m action) (hidle : s.cleanup = none)
      (hnone : s.thread.discards action = []) (ht : s.thread.step nextDelay action = some t) : Next s m { s with thread := t }
  /-- The thread begins to wait. -/
  | wait {m : Move} {action : Action} {t : Thread} {id : Uuid} {dest : PathBuf} {todo : List (Uuid × PathBuf)}
      (hasks : s.Asks m action) (hidle : s.cleanup = none) (hdiscards : s.thread.discards action = (id, dest) :: todo)
      (ht : s.thread.step nextDelay action = some t) :
      Next s m { s with cleanup := some ⟨action, id, discardPartial dest, todo, []⟩ }
  /-- A worker goes on. -/
  | worker {w : Worker} {choice : Choice} {op : Op} {next : op.Reply → Async WorkerResult} {r : op.Reply} {l : Local}
      (hw : w ∈ s.thread.sched.workers) (hprogram : s.program w = .call op next)
      (hperform : (s.shared w).perform op choice = some (r, l)) : Next s (.worker w choice) (s.performed w (next r) l)
  /-- `discard_partial` goes on. -/
  | cleanup {c : Cleanup} {fault : Option (Fault IoError)} {op : FileOp PathBuf UInt8}
      {next : Except IoError op.Value → Async Unit} {r : Except IoError op.Value} {disk : Disk}
      (hcleanup : s.cleanup = some c) (hprogram : c.program = .call (.file op) next) (htruthful : Truthful s.disk op fault)
      (hperform : performFile s.disk fault op = (r, disk)) :
      Next s (.cleanup fault) { s with disk := disk, cleanup := some { c with program := next r } }
  /-- `discard_partial` is called for the next job. -/
  | again {c : Cleanup} {r : Result Unit} {id : Uuid} {dest : PathBuf} {todo : List (Uuid × PathBuf)}
      (hcleanup : s.cleanup = some c) (hprogram : c.program = .done r) (htodo : c.todo = (id, dest) :: todo) :
      Next s .discarded
        { s with
          discarded := s.discarded ++ [(c.id, r)]
          cleanup := some ⟨c.action, id, discardPartial dest, todo, c.results ++ [(c.id, r)]⟩ }
  /-- The thread goes on after it has waited. -/
  | resume {c : Cleanup} {r : Result Unit} {t : Thread} (hcleanup : s.cleanup = some c) (hprogram : c.program = .done r)
      (htodo : c.todo = [])
      (ht : s.thread.step nextDelay
        (c.action.withDiscarded fun id => ((c.results ++ [(c.id, r)]).lookup id).getD (.ok ())) = some t) :
      Next s .discarded { s with thread := t, discarded := s.discarded ++ [(c.id, r)], cleanup := none }
  /-- Another program uses the disk. -/
  | outside {op : FileOp PathBuf UInt8} {fault : Option (Fault IoError)} {r : Except IoError op.Value} {disk : Disk}
      (hout : Outcome s.disk fault op r disk) : Next s (.outside op fault) { s with disk := disk }

variable {nextDelay} {s s' : System} {m : Move}

theorem next_of_act {action : Action} (hasks : s.Asks m action) (hidle : s.cleanup = none)
    (h : s.act nextDelay action = some s') : s.Next nextDelay m s' := by
  unfold act at h
  split at h
  · next hnone =>
    obtain ⟨t, ht, rfl⟩ := Option.map_eq_some_iff.mp h
    exact .act hasks hidle hnone ht
  · next hdiscards =>
    split_ifs at h with hsome
    cases h
    obtain ⟨t, ht⟩ := Option.isSome_iff_exists.mp hsome
    exact .wait hasks hidle hdiscards ht

/-- **Inversion of a step**: it is one of these. -/
theorem next_of_step (h : s.step nextDelay m = some s') : s.Next nextDelay m s' := by
  cases m with
  | thread action =>
    cases action with
    | cancelRoot =>
      simp only [step] at h
      obtain ⟨t, ht, rfl⟩ := Option.map_eq_some_iff.mp h
      exact .cancelRoot ht
    | worker => cases h
    | _ =>
      simp only [step] at h
      split_ifs at h with hidle
      exact next_of_act (.thread (by simp)) (Option.isNone_iff_eq_none.mp hidle) h
  | yield w =>
    simp only [step] at h
    split at h
    · next r hprogram =>
      split_ifs at h with hidle
      exact next_of_act (.yield hprogram) (Option.isNone_iff_eq_none.mp hidle) h
    · cases h
  | worker w choice =>
    simp only [step] at h
    split at h
    · cases h
    · next op next hprogram =>
      split_ifs at h with hw
      obtain ⟨⟨r, l⟩, hperform, rfl⟩ := Option.map_eq_some_iff.mp h
      exact .worker hw hprogram hperform
  | cleanup fault =>
    simp only [step] at h
    split at h
    · next action id op next todo results hcleanup =>
      split_ifs at h with htruthful
      cases h
      exact .cleanup hcleanup rfl htruthful rfl
    · cases h
  | discarded =>
    simp only [step] at h
    split at h
    · next action id r todo results hcleanup =>
      unfold discard at h
      dsimp only at h
      split at h
      · cases h
        exact .again hcleanup rfl rfl
      · obtain ⟨t, ht, rfl⟩ := Option.map_eq_some_iff.mp h
        exact .resume hcleanup rfl rfl ht
    · cases h
  | outside op fault =>
    cases h
    exact .outside (outcome_performFile s.disk fault op)

end System

end DownloadManager
