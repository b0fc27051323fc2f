import DownloadManager.Library.Channel
import DownloadManager.Scheduler.Run

/-!
# The manager and its clients

`src/manager.rs` and `src/download.rs` around the scheduler thread: the command channel
and those who hold a sender of it, the manager and every `Download` handle. A client
sends commands, clones and drops handles, shuts the manager down or drops it; the
thread takes commands from the channel and otherwise goes its own way. All
interleavings are runs. `accepted` lists the commands the channel has accepted, and is
there for statements only.
-/

namespace DownloadManager

/-- `DownloadManager`, its handles and its thread. -/
structure Manager where
  /-- The scheduler's thread. -/
  thread : Thread
  /-- The command channel. -/
  channel : Channel SchedulerCmd
  /-- Whether the `DownloadManager` has not been dropped. -/
  alive : Bool
  /-- The `Download` handles, by the download they are for. -/
  handles : List Uuid
  /-- The commands accepted so far. -/
  accepted : List SchedulerCmd

/-- What can happen next. -/
inductive Call where
  /-- A method sends its command. -/
  | send (cmd : SchedulerCmd)
  /-- `Download::clone`. -/
  | clone (id : Uuid)
  /-- The drop of a handle. -/
  | drop (id : Uuid)
  /-- `DownloadManager::shutdown`. -/
  | shutdown
  /-- The drop of the manager. -/
  | dropManager
  /-- A step of the scheduler's thread. -/
  | scheduler (action : Action)

/-- `run` is over: it has returned, or a panic unwound it. -/
def Phase.over : Phase → Bool
  | .returned | .panicked _ => true
  | _ => false

/-- The errors of a command that is not accepted: `From<TrySendError<T>>`. -/
def Error.ofSendRefused : SendRefused → Error
  | .full => .commandQueueFull
  | .closed => .commandChannelClosed

namespace Manager

/-- `DownloadManager::new`. -/
def new (maxConcurrent : ℕ+) : Manager := ⟨.new maxConcurrent, .bounded 1024, true, [], []⟩

/-- Whether someone is there who can send a command: the manager, or a handle of the download. -/
def CanSend (m : Manager) : SchedulerCmd → Prop
  | .enqueue _ _ _ _ | .cancelAll | .setMaxConcurrent _ => m.alive
  | .pause id _ | .resume id _ | .cancel id => id ∈ m.handles

instance (m : Manager) : (cmd : SchedulerCmd) → Decidable (m.CanSend cmd)
  | .enqueue _ _ _ _ | .cancelAll | .setMaxConcurrent _ => inferInstanceAs (Decidable (m.alive = true))
  | .pause id _ | .resume id _ | .cancel id => inferInstanceAs (Decidable (id ∈ m.handles))

/-- Send a command. The method that enqueues a download returns a handle for it. -/
def send (m : Manager) (cmd : SchedulerCmd) : Result Manager :=
  match m.channel.trySend cmd with
  | .error refused => .error (.ofSendRefused refused)
  | .ok channel =>
    let m := { m with accepted := m.accepted ++ [cmd] }
    match cmd.enqueues with
    | some id => .ok { m with channel := channel.cloneSender, handles := id :: m.handles }
    | none => .ok { m with channel := channel }

/-- Cancel the root token. -/
def cancelRoot (m : Manager) : Manager :=
  { m with thread := { m.thread with sched := { m.thread.sched with cancelRoot := true } } }

/-- Go on with the thread in a new state. The receiver goes with `run`. -/
def resume (m : Manager) (channel : Channel SchedulerCmd) (thread : Thread) : Manager :=
  { m with thread := thread, channel := if thread.phase.over then channel.dropReceiver else channel }

variable (nextDelay : UInt32 → Except Panic Duration)

/-- A step of the scheduler's thread: `recv` takes a command from the channel, or fails. -/
def stepScheduler (m : Manager) : Action → Option Manager
  | .cancelRoot => none
  | .command cmd discarded order =>
    match m.channel.tryRecv with
    | none => none
    | some (cmd', channel) =>
      if cmd' = cmd then (m.thread.step nextDelay (.command cmd discarded order)).map (m.resume channel) else none
  | .disconnected =>
    if m.channel.exhausted then (m.thread.step nextDelay .disconnected).map (m.resume m.channel) else none
  | .close discarded order => (m.thread.step nextDelay (.close discarded order)).map (m.resume m.channel.close)
  | action => (m.thread.step nextDelay action).map (m.resume m.channel)

/-- A step of anyone. A command that is refused changes nothing: the method returns the
error, or waits for room. -/
def step (m : Manager) : Call → Option Manager
  | .send cmd =>
    if m.CanSend cmd ∧ cmd.Fresh m.accepted then
      match m.send cmd with
      | .ok m => some m
      | .error _ => some m
    else none
  | .clone id =>
    if id ∈ m.handles then some { m with handles := id :: m.handles, channel := m.channel.cloneSender } else none
  | .drop id =>
    if id ∈ m.handles then some { m with handles := m.handles.erase id, channel := m.channel.dropSender } else none
  | .shutdown => if m.alive then some m.cancelRoot else none
  | .dropManager =>
    if m.alive then some { m.cancelRoot with alive := false, channel := m.channel.dropSender } else none
  | .scheduler action => m.stepScheduler nextDelay action

/-- The states a run leads to, for any initial limit. -/
abbrev Reachable : Manager → Prop :=
  Machine.Reachable (step nextDelay) fun m => ∃ maxConcurrent, m = .new maxConcurrent

end Manager

end DownloadManager
