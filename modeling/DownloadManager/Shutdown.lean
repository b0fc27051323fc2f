import DownloadManager.Manager
import DownloadManager.Scheduler.Acks

/-!
# Who is released by a shutdown

An awaited download waits for a result sender, a `pause` or `resume` for a reply sender.
Each is released when its sender is used or dropped. The scheduler uses those it has
received before `run` returns; those of commands still in the channel live in the
channel's memory, which stays while anyone holds a command sender, as every `Download`
handle does. `all_released_iff` says exactly when nobody is left waiting.
-/

namespace DownloadManager

variable {nextDelay : UInt32 → Except Panic Duration}

/-- The loop has been left and `CancelAll` is done. -/
def Phase.afterClose : Phase → Bool
  | .draining | .returned => true
  | _ => false

/-- A command whose sender someone waits for. -/
def SchedulerCmd.waits : SchedulerCmd → Bool
  | .enqueue _ _ _ _ | .pause _ _ | .resume _ _ => true
  | _ => false

/-- A command that brings nothing an earlier one has brought. -/
def SchedulerCmd.After (d c : SchedulerCmd) : Prop :=
  (d.enqueues ≠ none → c.enqueues ≠ d.enqueues) ∧ (d.ack? ≠ none → c.ack? ≠ d.ack?)

/-- Only the root token moves on a thread that is over. -/
theorem Thread.Next.not_over {t t' : Thread} {a : Action} (h : t.Next nextDelay a t') (ha : a ≠ .cancelRoot) :
    t.phase.over = false := by
  cases h with
  | cancelRoot => exact (ha rfl).elim
  | worker _ hp => rcases hp with ⟨hp, -⟩ | ⟨hp, -⟩ <;> rw [hp] <;> rfl
  | panic _ hp => rcases hp with hp | hp <;> rw [hp] <;> rfl
  | stop hp | disconnected hp | command hp | retry hp | full hp | empty hp | dropped hp | dispatched hp
  | close hp | finish hp => rw [hp]; rfl

/-- Only `close` leads past the loop. -/
theorem Thread.Next.afterClose {t t' : Thread} {a : Action} (h : t.Next nextDelay a t') (ht' : t'.phase.afterClose) :
    (∃ discarded order, a = .close discarded order) ∨ t.phase.afterClose := by
  cases h with
  | close => exact .inl ⟨_, _, rfl⟩
  | cancelRoot => exact .inr ht'
  | finish hp => exact .inr (by rw [hp]; rfl)
  | worker _ hp =>
    rcases hp with ⟨-, rfl⟩ | ⟨hp, rfl⟩
    · cases ht'
    · exact .inr (by rw [hp]; rfl)
  | dispatched hp => simp [hp, Phase.afterClose] at ht'
  | stop | disconnected | command | panic | retry | full | empty | dropped => cases ht'

namespace Manager

/-- The sender of a command has been used. -/
def Used (m : Manager) : SchedulerCmd → Prop
  | .enqueue id _ _ tx => ∃ value, .result id tx value ∈ m.thread.sched.log
  | .pause id ack | .resume id ack => ∃ reply, .ack id ack reply ∈ m.thread.sched.log
  | _ => True

/-- The sender of a command has not been dropped: it is in the channel, or in a record. -/
def Keeps (m : Manager) (cmd : SchedulerCmd) : Prop :=
  cmd ∈ m.channel.held ∨
    match cmd with
    | .enqueue id _ _ tx => ∃ job, m.thread.sched.jobs.lookup id = some job ∧ job.result = some tx
    | .pause id ack | .resume id ack => ack ∈ m.thread.waiters id
    | _ => False

/-- Whoever waits for the sender of a command waits no more. -/
def Released (m : Manager) (cmd : SchedulerCmd) : Prop := m.Used cmd ∨ ¬ m.Keeps cmd

/-! ### What a step does to the channel -/

variable {m m' : Manager}

@[simp] theorem resume_buffer (channel : Channel SchedulerCmd) (thread : Thread) :
    (m.resume channel thread).channel.buffer = channel.buffer := by
  unfold resume
  cases thread.phase.over <;> rfl

@[simp] theorem resume_senders (channel : Channel SchedulerCmd) (thread : Thread) :
    (m.resume channel thread).channel.senders = channel.senders := by
  unfold resume
  cases thread.phase.over <;> rfl

/-- A step of the scheduler's thread is one of the thread, and takes what it receives from
the front of the channel. -/
theorem stepScheduler_spec {a : Action} (h : m.stepScheduler nextDelay a = some m') :
    ∃ t' channel, m.thread.step nextDelay a = some t' ∧ m' = m.resume channel t' ∧
      m.channel.buffer = a.received ++ channel.buffer ∧ channel.senders = m.channel.senders ∧
      channel.receivers = m.channel.receivers ∧ (m.channel.closed → channel.closed) ∧
      ((∃ discarded order, a = .close discarded order) → channel.closed) := by
  cases a with
  | cancelRoot => cases h
  | command cmd discarded order =>
    simp only [stepScheduler] at h
    split at h
    · cases h
    rename_i cmd' channel hrecv
    split_ifs at h with hcmd
    subst hcmd
    obtain ⟨t', ht', rfl⟩ := Option.map_eq_some_iff.mp h
    obtain ⟨hbuffer, hchannel⟩ := Channel.tryRecv_eq_some.mp hrecv
    rw [hchannel] at hbuffer ⊢
    exact ⟨t', _, ht', rfl, hbuffer, rfl, rfl, fun h => h, by simp⟩
  | disconnected =>
    simp only [stepScheduler] at h
    split_ifs at h with hex
    obtain ⟨t', ht', rfl⟩ := Option.map_eq_some_iff.mp h
    exact ⟨t', _, ht', rfl, rfl, rfl, rfl, fun h => h, by simp⟩
  | close discarded order =>
    obtain ⟨t', ht', rfl⟩ := Option.map_eq_some_iff.mp h
    exact ⟨t', _, ht', rfl, rfl, rfl, rfl, fun _ => rfl, fun _ => rfl⟩
  | stop | worker | retry | tryDispatch | finish =>
    obtain ⟨t', ht', rfl⟩ := Option.map_eq_some_iff.mp h
    exact ⟨t', _, ht', rfl, rfl, rfl, rfl, fun h => h, by simp⟩

/-- Sending: refused, or one more message at the end. -/
theorem send_eq_ok {cmd : SchedulerCmd} (h : m.send cmd = .ok m') :
    m.channel.closed = false ∧ m'.thread = m.thread ∧ m'.alive = m.alive ∧ m'.accepted = m.accepted ++ [cmd] ∧
      m'.channel.buffer = m.channel.buffer ++ [cmd] ∧ m'.channel.receivers = m.channel.receivers ∧
      m'.channel.closed = m.channel.closed ∧ m'.channel.senders + m.handles.length =
        m.channel.senders + m'.handles.length := by
  unfold send at h
  split at h
  · cases h
  rename_i channel hsend
  obtain ⟨hclosed, -, rfl⟩ := Channel.trySend_eq_ok.mp hsend
  dsimp only at h
  split at h <;> cases h
  · exact ⟨hclosed, rfl, rfl, rfl, rfl, rfl, rfl, by simp [Channel.cloneSender]; omega⟩
  · exact ⟨hclosed, rfl, rfl, rfl, rfl, rfl, rfl, rfl⟩

/-! ### The invariant -/

/-- What holds of the manager, its clients and its thread together. -/
structure Inv (nextDelay : UInt32 → Except Panic Duration) (m : Manager) : Prop where
  /-- The thread is in a state a run of the thread leads to. -/
  thread : Thread.Reachable nextDelay m.thread
  /-- Nothing is lost or reordered on the way to the thread. -/
  accepted : m.accepted = m.thread.handled ++ m.channel.buffer
  /-- Every command brings what is new. -/
  fresh : m.accepted.Pairwise fun c d => d.After c
  /-- The senders are the manager's and the handles'. -/
  senders : m.channel.senders = m.handles.length + if m.alive then 1 else 0
  /-- The receiver is the thread's. -/
  receivers : m.channel.receivers = if m.thread.phase.over then 0 else 1
  /-- The channel is closed after the loop. -/
  closed : m.thread.phase.afterClose → m.channel.closed

theorem inv_new (maxConcurrent : ℕ+) : Inv nextDelay (.new maxConcurrent) where
  thread := .init ⟨maxConcurrent, rfl⟩
  accepted := rfl
  fresh := .nil
  senders := rfl
  receivers := rfl
  closed := nofun

/-- A command taken by the channel keeps the invariant. -/
theorem Inv.send (hm : Inv nextDelay m) {cmd : SchedulerCmd} (hfresh : cmd.Fresh m.accepted)
    (h : m.send cmd = .ok m') : Inv nextDelay m' := by
  obtain ⟨-, hthread, halive, haccepted, hbuffer, hreceivers, hclosed, hsenders⟩ := send_eq_ok h
  refine ⟨hthread ▸ hm.thread, ?_, ?_, ?_, ?_, ?_⟩
  · rw [haccepted, hbuffer, hthread, hm.accepted, List.append_assoc]
  · rw [haccepted, List.pairwise_append]
    refine ⟨hm.fresh, List.pairwise_singleton _ _, fun c hc d hd => ?_⟩
    rw [List.mem_singleton.mp hd]
    exact ⟨hfresh.1 c hc, hfresh.2 c hc⟩
  · have := hm.senders
    rw [halive]
    omega
  · rw [hreceivers, hthread, hm.receivers]
  · rw [hthread, hclosed]
    exact hm.closed

/-- A step of the thread keeps the invariant. -/
theorem Inv.stepScheduler (hm : Inv nextDelay m) {a : Action} (h : m.stepScheduler nextDelay a = some m') :
    Inv nextDelay m' := by
  obtain ⟨t', channel, ht', rfl, hbuffer, hsenders, hreceivers, hmono, hclose⟩ := stepScheduler_spec h
  have hnext := Thread.next_of_step ht'
  have hlive : m.thread.phase.over = false := hnext.not_over (by rintro rfl; cases h)
  have hrec : channel.receivers = 1 := by rw [hreceivers, hm.receivers, hlive]; rfl
  refine ⟨hm.thread.step ht', ?_, hm.fresh, ?_, ?_, ?_⟩
  · show m.accepted = t'.handled ++ (m.resume channel t').channel.buffer
    rw [hnext.handled_eq, hm.accepted, hbuffer, resume_buffer, List.append_assoc]
  · show (m.resume channel t').channel.senders = _
    rw [resume_senders, hsenders]
    exact hm.senders
  · show (m.resume channel t').channel.receivers = _
    unfold resume
    cases hover : t'.phase.over <;> simp [Channel.dropReceiver, hrec]
  · intro hafter
    show (m.resume channel t').channel.closed
    have hc : channel.closed := by
      rcases hnext.afterClose hafter with hclose' | hafter'
      · exact hclose hclose'
      · exact hmono (hm.closed hafter')
    unfold resume
    cases hover : t'.phase.over <;> simp [Channel.dropReceiver, hc]

/-- **The step of the invariant.** -/
theorem Inv.step (hm : Inv nextDelay m) {call : Call} (h : m.step nextDelay call = some m') : Inv nextDelay m' := by
  cases call with
  | send cmd =>
    simp only [Manager.step] at h
    split_ifs at h with hc
    split at h <;> cases h
    · exact hm.send hc.2 ‹_›
    · exact hm
  | clone id =>
    simp only [Manager.step] at h
    split_ifs at h
    cases h
    refine { hm with senders := ?_ }
    have := hm.senders
    simp only [Channel.cloneSender, List.length_cons]
    omega
  | drop id =>
    simp only [Manager.step] at h
    split_ifs at h with hmem
    cases h
    refine { hm with senders := ?_, closed := fun hp => by simp [Channel.dropSender, hm.closed hp] }
    have := hm.senders
    have := List.length_pos_of_mem hmem
    simp only [Channel.dropSender, List.length_erase_of_mem hmem]
    omega
  | shutdown =>
    simp only [Manager.step] at h
    split_ifs at h
    cases h
    exact { hm with thread := hm.thread.step (a := .cancelRoot) rfl }
  | dropManager =>
    simp only [Manager.step] at h
    split_ifs at h with halive
    cases h
    refine ⟨hm.thread.step (a := .cancelRoot) rfl, hm.accepted, hm.fresh, ?_, hm.receivers,
      fun hp => by simp [Channel.dropSender, hm.closed hp]⟩
    have := hm.senders
    simp only [halive, if_true] at this
    simp [Channel.dropSender, Manager.cancelRoot, this]
  | scheduler a => exact hm.stepScheduler h

theorem inv_of_reachable (h : Reachable nextDelay m) : Inv nextDelay m := by
  refine Machine.Reachable.induct (P := Inv nextDelay) ?_ ?_ h
  · rintro m ⟨maxConcurrent, rfl⟩
    exact inv_new maxConcurrent
  · exact fun m call m' _ hm h => hm.step h

/-! ### Nothing is received after the loop -/

theorem buffer_eq_of_afterClose (hm : Inv nextDelay m) (hp : m.thread.phase.afterClose) {call : Call}
    (h : m.step nextDelay call = some m') : m'.channel.buffer = m.channel.buffer := by
  cases call with
  | send cmd =>
    simp only [Manager.step] at h
    split_ifs at h
    split at h <;> cases h
    · have := (send_eq_ok ‹_›).1
      simp [hm.closed hp] at this
    · rfl
  | clone | drop | shutdown | dropManager =>
    simp only [Manager.step] at h
    split_ifs at h
    cases h
    rfl
  | scheduler a =>
    obtain ⟨t', channel, ht', rfl, hbuffer, -⟩ := stepScheduler_spec h
    rw [resume_buffer, hbuffer]
    cases Thread.next_of_step ht' with
    | command hhead => simp [hhead, Phase.afterClose] at hp
    | _ => rfl

/-- What is in the channel when `run` has returned was there when `close` was called. -/
theorem exists_close {maxConcurrent : ℕ+} {calls : List Call}
    (h : Machine.exec (step nextDelay) (.new maxConcurrent) calls = some m) (hp : m.thread.phase.afterClose) :
    ∃ before discarded order after m₁, calls = before ++ .scheduler (.close discarded order) :: after ∧
      Machine.exec (step nextDelay) (.new maxConcurrent) before = some m₁ ∧
      m.channel.buffer = m₁.channel.buffer := by
  refine Machine.exec_history (step nextDelay) (P := fun calls m => m.thread.phase.afterClose →
    ∃ before discarded order after m₁, calls = before ++ .scheduler (.close discarded order) :: after ∧
      Machine.exec (step nextDelay) (.new maxConcurrent) before = some m₁ ∧
      m.channel.buffer = m₁.channel.buffer) (fun h => by cases h) ?_ calls h hp
  intro calls m call m' hrun ih h hp'
  have hm := inv_of_reachable (Machine.Reachable.exec (.init ⟨maxConcurrent, rfl⟩) hrun)
  by_cases hp : m.thread.phase.afterClose
  · obtain ⟨before, discarded, order, after, m₁, rfl, hm₁, hbuffer⟩ := ih hp
    exact ⟨before, discarded, order, after ++ [call], m₁, by simp, hm₁,
      (buffer_eq_of_afterClose hm hp h).trans hbuffer⟩
  · cases call with
    | scheduler a =>
      obtain ⟨t', channel, ht', rfl, hbuffer, -⟩ := stepScheduler_spec h
      obtain ⟨discarded, order, rfl⟩ := ((Thread.next_of_step ht').afterClose hp').resolve_right hp
      exact ⟨calls, discarded, order, [], m, rfl, hrun, (resume_buffer _ _).trans hbuffer.symm⟩
    | send cmd =>
      simp only [Manager.step] at h
      split_ifs at h
      split at h <;> cases h
      · rw [(send_eq_ok ‹_›).2.1] at hp'
        exact (hp hp').elim
      · exact (hp hp').elim
    | clone | drop | shutdown | dropManager =>
      simp only [Manager.step] at h
      split_ifs at h
      cases h
      exact (hp hp').elim

/-! ### Who is released -/

/-- A command that has been received has had its sender used by the time `run` returns. -/
theorem used_of_handled (hm : Inv nextDelay m) (hp : m.thread.phase = .returned) {cmd : SchedulerCmd}
    (hcmd : cmd ∈ m.thread.handled) : m.Used cmd := by
  have hjobs := (nothing_left hm.thread hp).1
  have hreplied {id : Uuid} {ack : Sender} (hid : cmd.id? = some id) (hack : cmd.ack? = some ack) :
      ∃ reply, .ack id ack reply ∈ m.thread.sched.log := by
    have hone := replies_add_waiters hm.thread hcmd hid hack
    rw [Thread.waiters, hjobs, Finmap.lookup_empty, Option.elim_none, List.count_nil] at hone
    have hmem : ack ∈ m.thread.sched.log.filterMap View.replied? :=
      List.count_pos_iff.mp (by rw [Thread.replies] at hone; omega)
    obtain ⟨o, ho, hr⟩ := List.mem_filterMap.mp hmem
    cases o with
    | ack i ack' reply =>
      cases hr
      obtain ⟨c, hc, hcid, hca⟩ := command_of_reply hm.thread ho
      obtain rfl := ack_unique hm.thread hc hcmd hca hack
      obtain rfl : i = id := Option.some.inj (hcid.symm.trans hid)
      exact ⟨reply, ho⟩
    | event | result => cases hr
  cases cmd with
  | enqueue id request progressTx tx =>
    obtain ⟨value, hvalue⟩ := over_of_lookup hm.thread hcmd (by rw [hjobs]; exact Finmap.lookup_empty id)
    have hmem : (tx, value) ∈ (m.thread.view id).results := by rw [hvalue]; exact List.mem_singleton.mpr rfl
    obtain ⟨o, ho, hr⟩ := List.mem_filterMap.mp hmem
    obtain ⟨hlog, hid⟩ := List.mem_filter.mp ho
    cases o with
    | result i tx' value' =>
      cases hr
      obtain rfl : i = id := of_decide_eq_true hid
      exact ⟨value, hlog⟩
    | event | ack => cases hr
  | pause id ack => exact hreplied rfl rfl
  | resume id ack => exact hreplied rfl rfl
  | cancel | cancelAll | setMaxConcurrent => trivial

/-- The sender of a command that has not been received has not been used. -/
theorem not_used_of_buffered (hm : Inv nextDelay m) {cmd : SchedulerCmd} (hcmd : cmd ∈ m.channel.buffer)
    (hwaits : cmd.waits) : ¬ m.Used cmd := by
  have hfresh : ∀ c ∈ m.thread.handled, cmd.After c :=
    fun c hc => (List.pairwise_append.mp (hm.accepted ▸ hm.fresh)).2.2 c hc cmd hcmd
  have hreplied {id : Uuid} {ack : Sender} (hack : cmd.ack? = some ack) :
      ¬ ∃ reply, .ack id ack reply ∈ m.thread.sched.log := by
    rintro ⟨reply, hmem⟩
    obtain ⟨c, hc, -, hca⟩ := command_of_reply hm.thread hmem
    exact (hfresh c hc).2 (by simp [hack]) (hca.trans hack.symm)
  cases cmd with
  | enqueue id request progressTx tx =>
    rintro ⟨value, hmem⟩
    have hresults : (tx, value) ∈ (m.thread.view id).results :=
      List.mem_filterMap.mpr ⟨_, List.mem_filter.mpr ⟨hmem, by simp [Output.id]⟩, rfl⟩
    -- a result has been sent, so an `Enqueue` for the same identifier has been handled
    have hnew : ∀ c ∈ (m.thread.view id).cmds, c.enqueues = none := by
      intro c hc
      obtain ⟨hc, hid⟩ := List.mem_filter.mp hc
      have hne := (hfresh c hc).1 (by simp [SchedulerCmd.enqueues])
      cases c with
      | enqueue i => simp_all [SchedulerCmd.enqueues, SchedulerCmd.id?]
      | pause | resume | cancel | cancelAll | setMaxConcurrent => rfl
    have hunborn := (DownloadManager.Inv.unborn (DownloadManager.inv_of_reachable hm.thread id) hnew).2.2.2
    simp [hunborn.results] at hresults
  | pause id ack => exact hreplied rfl
  | resume id ack => exact hreplied rfl
  | cancel | cancelAll | setMaxConcurrent => cases hwaits

/-- **When `run` has returned, those are left waiting whose command is still in the channel's
memory.** -/
theorem all_released_iff_held (hm : Inv nextDelay m) (hp : m.thread.phase = .returned) :
    (∀ cmd ∈ m.accepted, m.Released cmd) ↔ ∀ cmd ∈ m.channel.held, cmd.waits = false := by
  have hheld : m.channel.held ⊆ m.channel.buffer := by
    unfold Channel.held
    split_ifs
    · exact List.nil_subset _
    · exact List.Subset.refl _
  constructor
  · intro h cmd hcmd
    by_contra hwaits
    rw [Bool.not_eq_false] at hwaits
    rcases h cmd (by rw [hm.accepted]; exact List.mem_append_right _ (hheld hcmd)) with hused | hkept
    · exact not_used_of_buffered hm (hheld hcmd) hwaits hused
    · exact hkept (.inl hcmd)
  · intro h cmd hcmd
    rw [hm.accepted, List.mem_append] at hcmd
    rcases hcmd with hcmd | hcmd
    · exact .inl (used_of_handled hm hp hcmd)
    · have hjobs := (nothing_left hm.thread hp).1
      by_cases hw : cmd.waits
      · refine .inr ?_
        rintro (hkept | hkept)
        · simp [h cmd hkept] at hw
        · cases cmd <;> simp [hjobs, Thread.waiters] at hkept
      · cases cmd <;> first | exact .inl trivial | exact (hw rfl).elim

/-- **Who is released by a shutdown.** In every run in which the scheduler's `run` returns,
every call whose command was accepted is released if and only if no `Enqueue`, `Pause` or
`Resume` was in the channel when it was closed, or the manager and all its handles are
gone. -/
theorem all_released_iff {maxConcurrent : ℕ+} {calls : List Call}
    (h : Machine.exec (step nextDelay) (.new maxConcurrent) calls = some m) (hp : m.thread.phase = .returned) :
    ∃ before discarded order after m₁, calls = before ++ .scheduler (.close discarded order) :: after ∧
      Machine.exec (step nextDelay) (.new maxConcurrent) before = some m₁ ∧
      ((∀ cmd ∈ m.accepted, m.Released cmd) ↔
        (∀ cmd ∈ m₁.channel.buffer, cmd.waits = false) ∨ m.alive = false ∧ m.handles = []) := by
  have hm := inv_of_reachable (Machine.Reachable.exec (.init ⟨maxConcurrent, rfl⟩) h)
  obtain ⟨before, discarded, order, after, m₁, hcalls, hm₁, hbuffer⟩ := exists_close h (by rw [hp]; rfl)
  refine ⟨before, discarded, order, after, m₁, hcalls, hm₁, ?_⟩
  have hreceivers : m.channel.receivers = 0 := by rw [hm.receivers, hp]; rfl
  have hsenders : m.channel.senders = 0 ↔ m.alive = false ∧ m.handles = [] := by
    rw [hm.senders]
    cases m.alive <;> simp
  rw [all_released_iff_held hm hp, Channel.held_of_receivers hreceivers, ← hsenders, ← hbuffer]
  by_cases hs : m.channel.senders = 0 <;> simp [hs]

/-- A run from a new manager that can be computed. -/
theorem exists_run (nextDelay : UInt32 → Except Panic Duration) (maxConcurrent : ℕ+) (calls : List Call)
    (P : Manager → Prop) [DecidablePred P]
    (h : (Machine.exec (step nextDelay) (.new maxConcurrent) calls).any (fun m => decide (P m))) :
    ∃ m, Machine.exec (step nextDelay) (.new maxConcurrent) calls = some m ∧ P m := by
  cases hm : Machine.exec (step nextDelay) (.new maxConcurrent) calls with
  | none => simp [hm] at h
  | some m => exact ⟨m, rfl, by simpa [hm] using h⟩

/-- A download is enqueued, and everyone goes away before the thread looks. -/
def enqueuedAndLeft : List Call :=
  [.send (.enqueue 0 Thread.sampleRequest 1 2), .drop 0, .dropManager, .scheduler .stop,
    .scheduler (.close (fun _ => .ok ()) []), .scheduler .finish]

theorem all_released_iff_enqueuedAndLeft :
    ∃ m, Machine.exec (step backoffStrategy.nextDelay) (.new 1) enqueuedAndLeft = some m ∧
      m.thread.phase = .returned ∧ ∀ cmd ∈ m.accepted, m.Released cmd := by
  obtain ⟨m, hm, hp, halive, hhandles⟩ := exists_run backoffStrategy.nextDelay 1 enqueuedAndLeft
    (fun m => m.thread.phase = .returned ∧ m.alive = false ∧ m.handles = []) (by decide)
  obtain ⟨_, _, _, _, _, _, _, hiff⟩ := all_released_iff hm hp
  exact ⟨m, hm, hp, hiff.mpr (.inr ⟨halive, hhandles⟩)⟩

/-- A download is enqueued, and the manager shut down before the thread looks. -/
def enqueuedAndShutDown : List Call :=
  [.send (.enqueue 0 Thread.sampleRequest 1 2), .shutdown, .scheduler .stop,
    .scheduler (.close (fun _ => .ok ()) []), .scheduler .finish]

/-- **The handle of that download waits for ever**: the loop is left for the root token, the
`Enqueue` stays in the channel, and its handle keeps the channel in memory. -/
theorem enqueue_stranded_by_shutdown :
    ∃ m, Machine.exec (step backoffStrategy.nextDelay) (.new 1) enqueuedAndShutDown = some m ∧
      m.thread.phase = .returned ∧ m.handles = [0] ∧ ¬ ∀ cmd ∈ m.accepted, m.Released cmd := by
  obtain ⟨m, hm, hp, hhandles, haccepted, hheld, hlog⟩ := exists_run backoffStrategy.nextDelay 1 enqueuedAndShutDown
    (fun m => m.thread.phase = .returned ∧ m.handles = [0] ∧
      m.accepted = [.enqueue 0 Thread.sampleRequest 1 2] ∧
      m.channel.held = [.enqueue 0 Thread.sampleRequest 1 2] ∧ m.thread.sched.log = []) (by decide)
  refine ⟨m, hm, hp, hhandles, fun h => ?_⟩
  rcases h (.enqueue 0 Thread.sampleRequest 1 2) (by simp [haccepted]) with ⟨value, hused⟩ | hkept
  · simp [hlog] at hused
  · exact hkept (.inl (by simp [hheld]))

end Manager

end DownloadManager
