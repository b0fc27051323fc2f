import DownloadManager.Library.Machine
import DownloadManager.Scheduler.Arm

/-!
# The scheduler thread

`Scheduler::run`, as a machine. The loop head takes what `select_biased!` yields:
the root token (`stop`), a failed `recv` (`disconnected`), a command, a worker's
result or a timer; which of them is ready first is up to the clients, the workers
and the clock, so every order is a run. `tryDispatch` is one turn of the loop of
`try_dispatch`, so that another thread can cancel the root token between two
turns. After the loop comes `close`: the command channel is closed and every job
cancelled, and the workers left are waited for.

`handled` lists the commands received so far. It is there to say what a run was
given: identifiers of new downloads are fresh (`Uuid::new_v4`), and so is the
reply channel of every `pause` and `resume`, which is made for the call.
-/

namespace DownloadManager

/-- Where the thread is. -/
inductive Phase where
  /-- At the head of the loop. -/
  | head
  /-- In `try_dispatch`. -/
  | dispatching
  /-- Out of the loop. -/
  | closing
  /-- Waiting for the workers left. -/
  | draining
  /-- `run` has returned. -/
  | returned
  /-- A panic unwound the thread. -/
  | panicked (panic : Panic)
  deriving DecidableEq, Repr

/-- The scheduler and its thread. -/
structure Thread where
  /-- The scheduler. -/
  sched : Scheduler
  /-- Where the thread is. -/
  phase : Phase
  /-- The commands received so far. -/
  handled : List SchedulerCmd

/-- What happens next. -/
inductive Action where
  /-- `shutdown()` or the drop of the manager, on another thread, at any time. -/
  | cancelRoot
  /-- `Next::Stop`. -/
  | stop
  /-- `Next::Command(Err(_))`. -/
  | disconnected
  /-- `Next::Command(Ok(command))`. -/
  | command (cmd : SchedulerCmd) (discarded : Uuid → Result Unit) (order : List Uuid)
  /-- `Next::Worker(Some((id, result)))`, in the loop or after it. -/
  | worker (w : Worker) (result : Result WorkerResult) (discarded : Result Unit)
  /-- `Next::Retry(Some((id, attempt)))`. -/
  | retry (id : Uuid) (attempt : UInt32)
  /-- A turn of the loop of `try_dispatch`. -/
  | tryDispatch
  /-- `cmd_rx.close()` and `CancelAll`. -/
  | close (discarded : Uuid → Result Unit) (order : List Uuid)
  /-- No worker is left. -/
  | finish

/-- The download a command makes. -/
def SchedulerCmd.enqueues : SchedulerCmd → Option Uuid
  | .enqueue id _ _ _ => some id
  | _ => none

/-- The reply channel a command carries. -/
def SchedulerCmd.ack? : SchedulerCmd → Option Sender
  | .pause _ ack | .resume _ ack => some ack
  | _ => none

/-- The download a command is about. -/
def SchedulerCmd.id? : SchedulerCmd → Option Uuid
  | .enqueue id _ _ _ | .pause id _ | .resume id _ | .cancel id => some id
  | .cancelAll | .setMaxConcurrent _ => none

/-- A command that brings nothing used before. -/
def SchedulerCmd.Fresh (cmd : SchedulerCmd) (handled : List SchedulerCmd) : Prop :=
  (∀ c ∈ handled, cmd.enqueues ≠ none → c.enqueues ≠ cmd.enqueues) ∧
    ∀ c ∈ handled, cmd.ack? ≠ none → c.ack? ≠ cmd.ack?

instance (cmd : SchedulerCmd) (handled : List SchedulerCmd) : Decidable (cmd.Fresh handled) :=
  inferInstanceAs (Decidable (_ ∧ _))

/-- An order in which the keys of the job map can be visited. -/
def Visits (order : List Uuid) (jobs : Jobs) : Prop := order.Nodup ∧ order.toFinset = jobs.keys

instance (order : List Uuid) (jobs : Jobs) : Decidable (Visits order jobs) :=
  inferInstanceAs (Decidable (_ ∧ _))

/-- The keys, and no others, are visited. -/
theorem Visits.mem_iff {order : List Uuid} {jobs : Jobs} (h : Visits order jobs) {id : Uuid} :
    id ∈ order ↔ id ∈ jobs := by
  rw [← List.mem_toFinset, h.2, Finmap.mem_keys]

namespace Thread

/-- `Scheduler::run`, about to be polled for the first time. -/
def new (maxConcurrent : ℕ+) : Thread := ⟨.new maxConcurrent, .head, []⟩

/-- Go on with what a function of the scheduler returned, or unwind. -/
def andThen (t : Thread) (phase : Phase) : Except Panic Scheduler → Thread
  | .ok s => { t with sched := s, phase := phase }
  | .error panic => { t with phase := .panicked panic }

variable (nextDelay : UInt32 → Except Panic Duration)

/-- One turn of the loop of `Scheduler::try_dispatch`. -/
def tryDispatch (t : Thread) : Thread :=
  if t.sched.workers.length < t.sched.maxConcurrent then
    match t.sched.ready with
    | [] => { t with phase := .head }
    | id :: ready =>
      let s := { t.sched with ready := ready }
      if s.cancelRoot then { t with sched := s, phase := .head }
      else t.andThen .dispatching (s.transitionJob nextDelay (.ok ()) id .dispatch)
  else { t with phase := .head }

/-- A step of the thread, or of another thread on the root token. -/
def step (t : Thread) : Action → Option Thread
  | .cancelRoot => some { t with sched := { t.sched with cancelRoot := true } }
  | .stop => if t.phase = .head ∧ t.sched.cancelRoot then some { t with phase := .closing } else none
  | .disconnected => if t.phase = .head then some { t with phase := .closing } else none
  | .command cmd discarded order =>
    if t.phase = .head ∧ cmd.Fresh t.handled ∧ (cmd = .cancelAll → Visits order t.sched.jobs) then
      some ({ t with handled := t.handled ++ [cmd] }.andThen .dispatching
        (t.sched.handleCmd nextDelay discarded order cmd))
    else none
  | .worker w result discarded =>
    if w ∈ t.sched.workers ∧ (t.phase = .head ∨ t.phase = .draining) then
      let s := { t.sched with workers := t.sched.workers.erase w }
      some (t.andThen (if t.phase = .head then .dispatching else .draining)
        (s.transitionJob nextDelay discarded w.id (.worker result)))
    else none
  | .retry id attempt =>
    if (id, attempt) ∈ t.sched.delayed ∧ t.phase = .head then
      let s := { t.sched with delayed := t.sched.delayed.erase (id, attempt) }
      some (t.andThen .dispatching (s.transitionJob nextDelay (.ok ()) id (.retryElapsed attempt)))
    else none
  | .tryDispatch => if t.phase = .dispatching then some (t.tryDispatch nextDelay) else none
  | .close discarded order =>
    if t.phase = .closing ∧ Visits order t.sched.jobs then
      some (t.andThen .draining (t.sched.handleCmd nextDelay discarded order .cancelAll))
    else none
  | .finish => if t.phase = .draining ∧ t.sched.workers = [] then some { t with phase := .returned } else none

/-- The states a run of the thread leads to, for any initial limit. -/
abbrev Reachable : Thread → Prop :=
  Machine.Reachable (step nextDelay) fun t => ∃ maxConcurrent, t = .new maxConcurrent

/-- What a step can be, with what its guards say and what the scheduler's function returned. -/
inductive Next (t : Thread) : Action → Thread → Prop
  /-- The root token is cancelled. -/
  | cancelRoot : Next t .cancelRoot { t with sched := { t.sched with cancelRoot := true } }
  /-- The loop is left for the root token. -/
  | stop (hp : t.phase = .head) (hroot : t.sched.cancelRoot) : Next t .stop { t with phase := .closing }
  /-- The loop is left for the command channel. -/
  | disconnected (hp : t.phase = .head) : Next t .disconnected { t with phase := .closing }
  /-- A command has been handled. -/
  | command {cmd : SchedulerCmd} {discarded : Uuid → Result Unit} {order : List Uuid} {s' : Scheduler}
      (hp : t.phase = .head) (hfresh : cmd.Fresh t.handled) (horder : cmd = .cancelAll → Visits order t.sched.jobs)
      (hs : t.sched.handleCmd nextDelay discarded order cmd = .ok s') :
      Next t (.command cmd discarded order) ⟨s', .dispatching, t.handled ++ [cmd]⟩
  /-- A worker's result has been handled, in the loop or after it. -/
  | worker {w : Worker} {result : Result WorkerResult} {discarded : Result Unit} {s' : Scheduler} {phase : Phase}
      (hw : w ∈ t.sched.workers) (hp : t.phase = .head ∧ phase = .dispatching ∨ t.phase = .draining ∧ phase = .draining)
      (hs : { t.sched with workers := t.sched.workers.erase w }.transitionJob nextDelay discarded w.id
        (.worker result) = .ok s') :
      Next t (.worker w result discarded) { t with sched := s', phase := phase }
  /-- Handling a worker's result panicked. -/
  | panic {w : Worker} {result : Result WorkerResult} {discarded : Result Unit} {attempt : UInt32} {panic : Panic}
      (hw : w ∈ t.sched.workers) (hp : t.phase = .head ∨ t.phase = .draining)
      (hd : nextDelay attempt = .error panic) :
      Next t (.worker w result discarded) { t with phase := .panicked panic }
  /-- A timer has been handled. -/
  | retry {id : Uuid} {attempt : UInt32} {s' : Scheduler} (hp : t.phase = .head)
      (hmem : (id, attempt) ∈ t.sched.delayed)
      (hs : { t.sched with delayed := t.sched.delayed.erase (id, attempt) }.transitionJob nextDelay (.ok ()) id
        (.retryElapsed attempt) = .ok s') :
      Next t (.retry id attempt) { t with sched := s', phase := .dispatching }
  /-- No room for a worker. -/
  | full (hp : t.phase = .dispatching) (hfull : t.sched.maxConcurrent ≤ t.sched.workers.length) :
      Next t .tryDispatch { t with phase := .head }
  /-- Nothing to start. -/
  | empty (hp : t.phase = .dispatching) (hready : t.sched.ready = []) :
      Next t .tryDispatch { t with phase := .head }
  /-- A job has been popped in vain. -/
  | dropped {id : Uuid} {ready : List Uuid} (hp : t.phase = .dispatching) (hready : t.sched.ready = id :: ready)
      (hroot : t.sched.cancelRoot) : Next t .tryDispatch { t with sched := { t.sched with ready := ready }, phase := .head }
  /-- A job has been dispatched. -/
  | dispatched {id : Uuid} {ready : List Uuid} {s' : Scheduler} (hp : t.phase = .dispatching)
      (hlt : t.sched.workers.length < t.sched.maxConcurrent) (hready : t.sched.ready = id :: ready)
      (hs : { t.sched with ready := ready }.transitionJob nextDelay (.ok ()) id .dispatch = .ok s') :
      Next t .tryDispatch { t with sched := s' }
  /-- Every job has been cancelled. -/
  | close {discarded : Uuid → Result Unit} {order : List Uuid} {s' : Scheduler} (hp : t.phase = .closing)
      (horder : Visits order t.sched.jobs) (hs : t.sched.handleCmd nextDelay discarded order .cancelAll = .ok s') :
      Next t (.close discarded order) { t with sched := s', phase := .draining }
  /-- `run` returns. -/
  | finish (hp : t.phase = .draining) (hworkers : t.sched.workers = []) : Next t .finish { t with phase := .returned }

end Thread

section

variable (nextDelay : UInt32 → Except Panic Duration)

/-- A transition for anything but a worker's result does not panic. -/
theorem Scheduler.transitionJob_ok (s : Scheduler) (discarded : Result Unit) (id : Uuid) (event : JobEvent)
    (hevent : ∀ result, event ≠ .worker result) :
    ∃ s', s.transitionJob nextDelay discarded id event = .ok s' := by
  cases h : s.transitionJob nextDelay discarded id event with
  | ok s' => exact ⟨s', rfl⟩
  | error panic =>
    obtain ⟨job, error, -, rfl, -⟩ := Scheduler.transitionJob_panic h
    exact (hevent _ rfl).elim

/-- The loop of `CancelAll` does not panic. -/
theorem Scheduler.cancelEach_ok (discarded : Uuid → Result Unit) (order : List Uuid) (s : Scheduler) :
    ∃ s', s.cancelEach nextDelay discarded order = .ok s' := by
  induction order generalizing s with
  | nil => exact ⟨s, rfl⟩
  | cons id ids ih =>
    obtain ⟨s₁, h₁⟩ := s.transitionJob_ok nextDelay (discarded id) id .cancel (by simp)
    obtain ⟨s₂, h₂⟩ := ih s₁
    exact ⟨s₂, by simp only [Scheduler.cancelEach, h₁, h₂]⟩

/-- `handle_cmd` does not panic. -/
theorem Scheduler.handleCmd_ok (s : Scheduler) (discarded : Uuid → Result Unit) (order : List Uuid)
    (cmd : SchedulerCmd) : ∃ s', s.handleCmd nextDelay discarded order cmd = .ok s' := by
  cases cmd with
  | enqueue | setMaxConcurrent => exact ⟨_, rfl⟩
  | pause id ack => exact s.transitionJob_ok nextDelay (discarded id) id (.pause ack) (by simp)
  | resume id ack => exact s.transitionJob_ok nextDelay (discarded id) id (.resume ack) (by simp)
  | cancel id => exact s.transitionJob_ok nextDelay (discarded id) id .cancel (by simp)
  | cancelAll =>
    obtain ⟨s₁, h₁⟩ := s.cancelEach_ok nextDelay discarded order
    exact ⟨{ s₁ with ready := [], delayed := [] }, by simp only [Scheduler.handleCmd, h₁]⟩

end

variable {nextDelay : UInt32 → Except Panic Duration}

/-- What the loop of `CancelAll` sends: what every arm for `Cancel` promises of its outputs. -/
theorem Scheduler.cancelEach_log {Q : Output → Prop} {discarded : Uuid → Result Unit} {order : List Uuid}
    {s s' : Scheduler} (hQ : ∀ {discarded token id job e}, Arm nextDelay discarded token id job .cancel e → ∀ o ∈ e.out, Q o)
    (h : s.cancelEach nextDelay discarded order = .ok s') : ∃ out, s'.log = s.log ++ out ∧ ∀ o ∈ out, Q o := by
  induction order generalizing s with
  | nil => cases h; exact ⟨[], by simp, by simp⟩
  | cons id ids ih =>
    unfold cancelEach at h
    split at h
    · cases h
    rename_i s₁ h₁
    obtain ⟨e, harm, rfl⟩ := transitionJob_arm h₁
    obtain ⟨out, hlog, hout⟩ := ih h
    refine ⟨e.out ++ out, by rw [hlog]; simp [Effect.apply], fun o hmem => ?_⟩
    rcases List.mem_append.mp hmem with hmem | hmem
    · exact hQ harm o hmem
    · exact hout o hmem

/-- **Inversion of a step**: it is one of these. -/
theorem Thread.next_of_step {t t' : Thread} {a : Action} (h : t.step nextDelay a = some t') : t.Next nextDelay a t' := by
  cases a with
  | cancelRoot => cases h; exact .cancelRoot
  | stop =>
    simp only [step] at h
    split_ifs at h with hc
    cases h
    exact .stop hc.1 hc.2
  | disconnected =>
    simp only [step] at h
    split_ifs at h with hc
    cases h
    exact .disconnected hc
  | command cmd discarded order =>
    simp only [step] at h
    split_ifs at h with hc
    cases h
    obtain ⟨s', hs'⟩ := t.sched.handleCmd_ok nextDelay discarded order cmd
    rw [hs']
    exact .command hc.1 hc.2.1 hc.2.2 hs'
  | worker w result discarded =>
    simp only [step] at h
    split_ifs at h with hc hp
    all_goals
      cases h
      cases hs : Scheduler.transitionJob nextDelay discarded _ w.id (.worker result) with
      | ok s' => first | exact .worker hc.1 (.inl ⟨hp, rfl⟩) hs | exact .worker hc.1 (.inr ⟨hc.2.resolve_left hp, rfl⟩) hs
      | error panic =>
        obtain ⟨_, _, _, _, _, _, hd⟩ := Scheduler.transitionJob_panic hs
        exact .panic hc.1 hc.2 hd
  | retry id attempt =>
    simp only [step] at h
    split_ifs at h with hc
    cases h
    obtain ⟨s', hs'⟩ := Scheduler.transitionJob_ok nextDelay
      { t.sched with delayed := t.sched.delayed.erase (id, attempt) } (.ok ()) id (.retryElapsed attempt) (by simp)
    rw [hs']
    exact .retry hc.2 hc.1 hs'
  | tryDispatch =>
    simp only [step] at h
    split_ifs at h with hp
    cases h
    unfold tryDispatch
    split_ifs with hlt
    swap; · exact .full hp (Nat.not_lt.mp hlt)
    split
    · exact .empty hp ‹_›
    rename_i id ready hready
    dsimp only
    split_ifs with hroot
    · exact .dropped hp hready hroot
    · obtain ⟨s', hs'⟩ := Scheduler.transitionJob_ok nextDelay
        { t.sched with ready := ready } (.ok ()) id .dispatch (by simp)
      rw [hs', andThen, ← hp]
      exact .dispatched hp hlt hready hs'
  | close discarded order =>
    simp only [step] at h
    split_ifs at h with hc
    cases h
    obtain ⟨s', hs'⟩ := t.sched.handleCmd_ok nextDelay discarded order .cancelAll
    rw [hs']
    exact .close hc.1 hc.2 hs'
  | finish =>
    simp only [step] at h
    split_ifs at h with hc
    cases h
    exact .finish hc.1 hc.2

/-- The command an action hands to the thread. -/
def Action.received : Action → List SchedulerCmd
  | .command cmd _ _ => [cmd]
  | _ => []

/-- A command that has been handled is one that was received. -/
theorem Thread.Next.handled_eq {t t' : Thread} {a : Action} (h : t.Next nextDelay a t') :
    t'.handled = t.handled ++ a.received := by
  cases h <;> simp [Action.received]

/-! ### Runs -/

namespace Thread

/-- A run from a new scheduler that can be computed leads to a reachable state. -/
theorem exists_run (nextDelay : UInt32 → Except Panic Duration) (maxConcurrent : ℕ+) (as : List Action)
    (P : Thread → Prop) [DecidablePred P]
    (h : (Machine.exec (step nextDelay) (.new maxConcurrent) as).any (fun t => decide (P t))) :
    ∃ t, Machine.exec (step nextDelay) (.new maxConcurrent) as = some t ∧ P t ∧ Reachable nextDelay t := by
  obtain ⟨t, ht, hP⟩ := Machine.exists_exec_of_any (step nextDelay) h
  exact ⟨t, ht, hP, .exec (.init ⟨maxConcurrent, rfl⟩) ht⟩

/-- A request with two retries. -/
def sampleRequest : Request := ⟨"http://x/y", ⟨[], some "y"⟩, { DownloadConfig.default with retries := 2 }⟩

/-- A download is running, and another waits for its slot. -/
def oneSlot : List Action :=
  [.command (.enqueue 0 sampleRequest 1 2) (fun _ => .ok ()) [], .tryDispatch, .tryDispatch,
    .command (.enqueue 1 sampleRequest 3 4) (fun _ => .ok ()) [], .tryDispatch]

/-- A download fails, is paused and resumed while it waits for its retry, and fails again:
the timer of the first failure is left behind, and the pause has been answered. -/
def failingTwice : List Action :=
  [.command (.enqueue 0 sampleRequest 1 2) (fun _ => .ok ()) [], .tryDispatch, .tryDispatch,
    .worker ⟨0, sampleRequest, 1, 0⟩ (.error (.network "reset")) (.ok ()), .tryDispatch,
    .command (.pause 0 3) (fun _ => .ok ()) [], .tryDispatch,
    .command (.resume 0 4) (fun _ => .ok ()) [], .tryDispatch, .tryDispatch,
    .worker ⟨0, sampleRequest, 1, 1⟩ (.error (.network "reset")) (.ok ()), .tryDispatch]

/-- And then the manager shuts down. -/
def failingTwiceThenStopped : List Action :=
  failingTwice ++ [.cancelRoot, .stop, .close (fun _ => .ok ()) [0], .finish]

end Thread

end DownloadManager
