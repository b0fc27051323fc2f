import DownloadManager.Library.BroadcastQueue
import DownloadManager.Shutdown

/-!
# The streams of events

`src/context.rs` and what is read from its channel: `DownloadManager::events` and
`Download::events`. The channel is one of `async_broadcast`, any `BroadcastChannel` that keeps
the laws of one. It has room for 1024 events and gives up the oldest one when it is full. Every
`Download` keeps a receiver of its own, which it never reads; a stream is a new one, for the
events to come.

What a step of the thread has put into the log is broadcast one event at a time (`publish`), and
the thread goes on when all is broadcast. Meanwhile others make streams, read them and drop
them. The channel is closed when its only sender is gone, with the manager and with the thread.

`since`, `got` and `missed` of a stream are there for statements only.
-/

namespace DownloadManager

/-- The event an output is. -/
def Output.event? : Output → Option Event
  | .event id kind => some ⟨id, kind⟩
  | _ => none

/-- A stream of events. -/
structure EventStream where
  /-- The download whose events are passed on, or all are. -/
  download? : Option Uuid
  /-- How many events had been broadcast when it was made. -/
  since : ℕ
  /-- What it has received. -/
  got : List Event := []
  /-- How many events it has missed. -/
  missed : ℕ := 0
  /-- Whether it has ended. -/
  ended : Bool := false

namespace EventStream

/-- The filter of `Download::events`. -/
def passes (s : EventStream) (event : Event) : Bool := s.download?.all fun id => event.id = id

/-- What it has yielded. -/
def items (s : EventStream) : List Event := s.got.filter s.passes

/-- What its receiver has got. -/
def receive (s : EventStream) : Except RecvRefused Event → EventStream
  | .ok event => { s with got := s.got ++ [event] }
  | .error (.overflowed n) => { s with missed := s.missed + n }
  | .error .empty => s
  | .error .closed => { s with ended := true }

end EventStream

/-- The manager, its channel of events and whoever listens. -/
structure EventBus (C : Type) where
  /-- The manager. -/
  manager : Manager
  /-- `Context::events`. -/
  channel : C
  /-- How many of the events in the log have been broadcast. -/
  published : ℕ
  /-- The handles, by receiver. -/
  handles : ℕ → Option Uuid
  /-- The streams, by receiver. -/
  streams : ℕ → Option EventStream
  /-- How many receivers have been made. -/
  receivers : ℕ

namespace EventBus

/-- What happens next. -/
inductive Turn where
  /-- A client's call, or a step of the scheduler's thread. -/
  | call (call : Call)
  /-- `Download::clone`. -/
  | cloneHandle (k : ℕ)
  /-- The drop of a handle. -/
  | dropHandle (k : ℕ)
  /-- The thread broadcasts an event. -/
  | publish
  /-- `Download::events`, or `DownloadManager::events`. -/
  | listen (handle? : Option ℕ)
  /-- A stream looks for its next event. -/
  | poll (k : ℕ)
  /-- The drop of a stream. -/
  | drop (k : ℕ)

variable {C : Type}

/-- The events of the log. -/
def emitted (b : EventBus C) : List Event := b.manager.thread.sched.log.filterMap Output.event?

/-- Those that have been broadcast. -/
def broadcasted (b : EventBus C) : List Event := b.emitted.take b.published

/-- Is `Context` gone? -/
def abandoned (b : EventBus C) : Bool := !b.manager.alive && b.manager.thread.phase.over

variable [BroadcastChannel C ℕ Event]

/-- `DownloadManager::new`. -/
def new (maxConcurrent : ℕ+) : EventBus C where
  manager := .new maxConcurrent
  channel := BroadcastChannel.new 1024 true
  published := 0
  handles _ := none
  streams _ := none
  receivers := 0

/-- The channel's only sender goes with `Context`. -/
def settle (b : EventBus C) : EventBus C :=
  if b.abandoned then { b with channel := BroadcastChannel.close b.channel } else b

/-- A new handle, with its receiver. -/
def addHandle (b : EventBus C) (id : Uuid) : EventBus C :=
  { b with
    channel := BroadcastChannel.subscribe b.channel b.receivers
    handles := Function.update b.handles b.receivers (some id)
    receivers := b.receivers + 1 }

/-- A new stream, with its receiver. -/
def addStream (b : EventBus C) (download? : Option Uuid) : EventBus C :=
  { b with
    channel := BroadcastChannel.subscribe b.channel b.receivers
    streams := Function.update b.streams b.receivers (some { download? := download?, since := b.published })
    receivers := b.receivers + 1 }

variable (nextDelay : UInt32 → Except Panic Duration)

/-- A step of anyone. -/
def step (b : EventBus C) : Turn → Option (EventBus C)
  | .call (.clone _) | .call (.drop _) => none
  | .call (.send cmd) =>
    (b.manager.step nextDelay (.send cmd)).map fun m =>
      match cmd.enqueues, b.manager.send cmd with
      | some id, .ok _ => { b with manager := m }.settle.addHandle id
      | _, _ => { b with manager := m }.settle
  | .call (.scheduler action) =>
    if b.emitted.length ≤ b.published then
      (b.manager.step nextDelay (.scheduler action)).map fun m => { b with manager := m }.settle
    else none
  | .call call => (b.manager.step nextDelay call).map fun m => { b with manager := m }.settle
  | .cloneHandle k =>
    (b.handles k).bind fun id =>
      (b.manager.step nextDelay (.clone id)).map fun m => { b with manager := m }.settle.addHandle id
  | .dropHandle k =>
    (b.handles k).bind fun id => (b.manager.step nextDelay (.drop id)).map fun m =>
      { { b with manager := m }.settle with
        channel := BroadcastChannel.dropReceiver { b with manager := m }.settle.channel k
        handles := Function.update b.handles k none }
  | .publish =>
    b.emitted[b.published]?.map fun event =>
      match BroadcastChannel.tryBroadcast b.channel event with
      | .ok channel => { b with channel := channel, published := b.published + 1 }
      | .error _ => { b with published := b.published + 1 }
  | .listen none => if b.manager.alive then some (b.addStream none) else none
  | .listen (some k) => (b.handles k).map fun id => b.addStream (some id)
  | .poll k =>
    (b.streams k).bind fun s => (BroadcastChannel.tryRecv b.channel k).map fun (r, channel) =>
      { b with channel := channel, streams := Function.update b.streams k (some (s.receive r)) }
  | .drop k =>
    (b.streams k).map fun _ =>
      { b with channel := BroadcastChannel.dropReceiver b.channel k, streams := Function.update b.streams k none }

/-- The states a run leads to, for any initial limit. -/
abbrev Reachable : EventBus C → Prop :=
  Machine.Reachable (step nextDelay) fun b => ∃ maxConcurrent, b = .new maxConcurrent

end EventBus

variable {nextDelay : UInt32 → Except Panic Duration}

/-- The last step of the thread sends nothing. -/
theorem Thread.Next.log_of_over {t t' : Thread} {a : Action} (h : t.Next nextDelay a t') (ha : a ≠ .cancelRoot)
    (hover : t'.phase.over = true) : t'.sched.log = t.sched.log := by
  cases h with
  | finish | panic => rfl
  | cancelRoot => exact absurd rfl ha
  | worker _ hp => rcases hp with ⟨-, rfl⟩ | ⟨-, rfl⟩ <;> cases hover
  | dispatched hp => simp [hp, Phase.over] at hover
  | stop | disconnected | command | retry | full | empty | dropped | close => cases hover

/-- A call that is not a step of the thread broadcasts nothing. -/
theorem Manager.step_quiet {m m' : Manager} {call : Call} (h : m.step nextDelay call = some m')
    (hcall : ∀ action, call ≠ .scheduler action) :
    m'.thread.sched.log = m.thread.sched.log ∧ m'.thread.phase = m.thread.phase ∧
      (m.alive = false → m'.alive = false) := by
  cases call with
  | send cmd =>
    simp only [step] at h
    split_ifs at h
    split at h <;> cases h
    · obtain ⟨-, hthread, halive, -⟩ := send_eq_ok ‹_›
      rw [hthread, halive]
      exact ⟨rfl, rfl, id⟩
    · exact ⟨rfl, rfl, id⟩
  | clone | drop | shutdown | dropManager =>
    simp only [step] at h
    split_ifs at h
    cases h
    exact ⟨rfl, rfl, fun halive => by first | exact halive | rfl⟩
  | scheduler action => exact absurd rfl (hcall action)

namespace EventBus

variable {C : Type} [BroadcastChannel C ℕ Event] {shows : C → BroadcastHistory ℕ Event → Prop}
variable {b b' : EventBus C} {w w' : BroadcastHistory ℕ Event} {turn : Turn}

/-- What a stream has received, where `w` has happened on the channel and `pos` is to be read. -/
structure Follows (b : EventBus C) (w : BroadcastHistory ℕ Event) (pos : ℕ) (s : EventStream) : Prop where
  /-- It was made before now. -/
  since_le : s.since ≤ b.published
  /-- Whatever has been broadcast since then was accepted, and its receiver has read some of it. -/
  account : ∃ origin ≤ w.sent.length, w.sent.drop origin = b.broadcasted.drop s.since ∧
    BroadcastAccount w.sent origin pos s.got s.missed
  /-- It ends when there is nothing left to read, for good. -/
  ended : s.ended = true → w.closed = true ∧ pos = w.sent.length

omit [BroadcastChannel C ℕ Event] in
theorem Follows.congr {pos : ℕ} {s : EventStream} (h : b.Follows w pos s) (hpublished : b'.published = b.published)
    (hbroadcasted : b'.broadcasted = b.broadcasted) (hsent : w'.sent = w.sent)
    (hclosed : w.closed = true → w'.closed = true) : b'.Follows w' pos s where
  since_le := hpublished ▸ h.since_le
  account := hbroadcasted ▸ hsent ▸ h.account
  ended he := ⟨hclosed (h.ended he).1, hsent ▸ (h.ended he).2⟩

/-- What holds of the channel and its receivers. -/
structure Inv (shows : C → BroadcastHistory ℕ Event → Prop) (b : EventBus C) (w : BroadcastHistory ℕ Event) : Prop where
  /-- It is what has happened on the channel. -/
  shown : shows b.channel w
  /-- Its capacity. -/
  capacity : w.capacity = 1024
  /-- It stays open without receivers. -/
  guarded : w.guarded = true
  /-- What has been broadcast was emitted. -/
  published_le : b.published ≤ b.emitted.length
  /-- It is closed with `Context`, and all has been broadcast then. -/
  closed : w.closed = b.abandoned
  /-- Nothing is left to broadcast when the thread is over. -/
  published_eq : b.manager.thread.phase.over = true → b.published = b.emitted.length
  /-- The receivers that have been made. -/
  fresh : ∀ k pos, w.position k = some pos → k < b.receivers
  /-- The handles have receivers of their own. -/
  handles : ∀ k id, b.handles k = some id → b.streams k = none ∧ ∃ pos, w.position k = some pos
  /-- The streams have receivers. -/
  streams : ∀ k s, b.streams k = some s → ∃ pos, w.position k = some pos ∧ b.Follows w pos s

/-- Only the channel may change. -/
theorem settle_eq (b : EventBus C) : b.settle = { b with channel := b.settle.channel } := by
  unfold settle
  split_ifs <;> rfl

@[simp] theorem settle_manager (b : EventBus C) : b.settle.manager = b.manager := by rw [settle_eq]

@[simp] theorem settle_published (b : EventBus C) : b.settle.published = b.published := by rw [settle_eq]

@[simp] theorem settle_handles (b : EventBus C) : b.settle.handles = b.handles := by rw [settle_eq]

@[simp] theorem settle_streams (b : EventBus C) : b.settle.streams = b.streams := by rw [settle_eq]

@[simp] theorem settle_receivers (b : EventBus C) : b.settle.receivers = b.receivers := by rw [settle_eq]

/-- It is closed when `Context` is gone. -/
theorem shows_settle (laws : BroadcastLaws shows) (hshown : shows b.channel w)
    (hclosed : w.closed = true → b.abandoned = true) :
    shows b.settle.channel { w with closed := b.abandoned } := by
  unfold settle
  split_ifs with ha
  · rw [ha]
    exact laws.close hshown
  · have hopen : w.closed = false := Bool.eq_false_iff.mpr (mt hclosed ha)
    rw [Bool.eq_false_iff.mpr ha, ← hopen]
    exact hshown

namespace Inv

/-- The manager goes on, and may have more to broadcast. -/
theorem manager (h : Inv shows b w) (laws : BroadcastLaws shows) {m : Manager} (out : List Output)
    (hlog : m.thread.sched.log = b.manager.thread.sched.log ++ out)
    (hover : m.thread.phase.over = true → b.published = b.emitted.length ∧ out = [])
    (habandoned : b.abandoned = true → { b with manager := m }.abandoned = true) :
    Inv shows { b with manager := m }.settle { w with closed := { b with manager := m }.abandoned } := by
  have hemitted : ({ b with manager := m } : EventBus C).emitted = b.emitted ++ out.filterMap Output.event? := by
    unfold emitted
    rw [hlog, List.filterMap_append]
  have hbroadcasted : ({ b with manager := m } : EventBus C).broadcasted = b.broadcasted := by
    unfold broadcasted
    rw [hemitted, List.take_append_of_le_length h.published_le]
  have hclosed : w.closed = true → ({ b with manager := m } : EventBus C).abandoned = true :=
    fun hc => habandoned (h.closed ▸ hc)
  have hshown := shows_settle (b := { b with manager := m }) laws h.shown hclosed
  rw [settle_eq]
  refine ⟨hshown, h.capacity, h.guarded, ?_, rfl, ?_, h.fresh, h.handles, ?_⟩
  · show b.published ≤ ({ b with manager := m } : EventBus C).emitted.length
    rw [hemitted, List.length_append]
    exact h.published_le.trans (Nat.le_add_right _ _)
  · intro hm
    obtain ⟨hpublished, rfl⟩ := hover hm
    show b.published = ({ b with manager := m } : EventBus C).emitted.length
    rw [hemitted, hpublished]
    simp
  · intro k s hs
    obtain ⟨pos, hpos, hfollows⟩ := h.streams k s hs
    exact ⟨pos, hpos, hfollows.congr rfl hbroadcasted rfl hclosed⟩

omit [BroadcastChannel C ℕ Event] in
/-- The next receiver is new. -/
theorem receivers_fresh (h : Inv shows b w) : w.position b.receivers = none ∧ b.streams b.receivers = none := by
  have hnone : w.position b.receivers = none :=
    Option.eq_none_iff_forall_ne_some.mpr fun pos hpos => absurd (h.fresh _ pos hpos) (lt_irrefl _)
  refine ⟨hnone, Option.eq_none_iff_forall_ne_some.mpr fun s hs => ?_⟩
  obtain ⟨pos, hpos, -⟩ := h.streams _ s hs
  cases hnone.symm.trans hpos

/-- A receiver is made. -/
theorem subscribe (h : Inv shows b w) (laws : BroadcastLaws shows) (handles : ℕ → Option Uuid)
    (hhandles : ∀ k id, handles k = some id → k = b.receivers ∨ b.handles k = some id) :
    Inv shows
      { b with
        channel := BroadcastChannel.subscribe b.channel b.receivers
        handles := handles
        receivers := b.receivers + 1 }
      (w.move b.receivers (some w.sent.length)) := by
  obtain ⟨hnew, hnone⟩ := h.receivers_fresh
  have hfresh : ∀ k pos, w.position k = some pos → k < b.receivers + 1 :=
    fun k pos hpos => (h.fresh k pos hpos).trans (Nat.lt_succ_self _)
  refine ⟨laws.subscribe h.shown hnew, h.capacity, h.guarded, h.published_le, h.closed, h.published_eq,
    BroadcastHistory.lt_of_move hfresh (Nat.lt_succ_self _), fun k id hid => ?_, fun k s hs => ?_⟩
  · rcases hhandles k id hid with rfl | hid
    · exact ⟨hnone, _, BroadcastHistory.move_self _ _⟩
    · obtain ⟨hnone, pos, hpos⟩ := h.handles k id hid
      exact ⟨hnone, pos, (BroadcastHistory.move_of_ne (h.fresh k pos hpos).ne _).trans hpos⟩
  · obtain ⟨pos, hpos, hfollows⟩ := h.streams k s hs
    have hk : k ≠ b.receivers := (h.fresh k pos hpos).ne
    exact ⟨pos, (BroadcastHistory.move_of_ne hk _).trans hpos, hfollows.congr rfl rfl rfl id⟩

/-- A handle is made. -/
theorem addHandle (h : Inv shows b w) (laws : BroadcastLaws shows) (id : Uuid) :
    Inv shows (b.addHandle id) (w.move b.receivers (some w.sent.length)) := by
  refine h.subscribe laws _ fun k id' hid => ?_
  by_cases hk : k = b.receivers
  · exact .inl hk
  · exact .inr ((Function.update_of_ne hk _ _).symm.trans hid)

/-- A stream is made. -/
theorem addStream (h : Inv shows b w) (laws : BroadcastLaws shows) (download? : Option Uuid) :
    Inv shows (b.addStream download?) (w.move b.receivers (some w.sent.length)) := by
  obtain ⟨h1, h2, h3, h4, h5, h6, h7, h8, h9⟩ := h.subscribe laws b.handles fun _ _ => .inr
  refine ⟨h1, h2, h3, h4, h5, h6, h7, fun k id hid => ⟨?_, (h8 k id hid).2⟩, fun k s hs => ?_⟩
  · obtain ⟨hnone, pos, hpos⟩ := h.handles k id hid
    exact (Function.update_of_ne (h.fresh k pos hpos).ne _ _).trans hnone
  by_cases hk : k = b.receivers
  · subst hk
    cases (Function.update_self b.receivers _ _).symm.trans hs
    refine ⟨w.sent.length, BroadcastHistory.move_self _ _, le_rfl, ⟨w.sent.length, le_rfl, ?_, .new _ _⟩, nofun⟩
    show w.sent.drop w.sent.length = b.broadcasted.drop b.published
    rw [List.drop_length, broadcasted, List.drop_take, Nat.sub_self, List.take_zero]
  · obtain ⟨pos, hpos, hfollows⟩ := h9 k s ((Function.update_of_ne hk _ _).symm.trans hs)
    exact ⟨pos, hpos, hfollows.congr rfl rfl rfl id⟩

omit [BroadcastChannel C ℕ Event] in
theorem length_broadcasted (h : Inv shows b w) : b.broadcasted.length = b.published := by
  rw [broadcasted, List.length_take, Nat.min_eq_left h.published_le]

/-- An event is broadcast. -/
theorem publish (h : Inv shows b w) (laws : BroadcastLaws shows) {event : Event}
    (hevent : b.emitted[b.published]? = some event) (hstep : b.step nextDelay .publish = some b') :
    ∃ w', Inv shows b' w' := by
  have hlt := (List.getElem?_eq_some_iff.mp hevent).1
  have hopen : w.closed = false := by
    cases hc : b.abandoned
    · exact h.closed.trans hc
    · simp only [abandoned, Bool.and_eq_true] at hc
      exact absurd (h.published_eq hc.2) hlt.ne
  have hover : b.manager.thread.phase.over = true → b.published + 1 = b.emitted.length :=
    fun hover => absurd (h.published_eq hover) hlt.ne
  have hnext : b.emitted.take (b.published + 1) = b.broadcasted ++ [event] := by
    rw [List.take_add_one, hevent, Option.toList_some, broadcasted]
  have hlength := h.length_broadcasted
  cases hsend : BroadcastChannel.tryBroadcast b.channel event with
  | ok channel =>
    simp only [step, hevent, hsend, Option.map_some, Option.some.injEq] at hstep
    subst hstep
    refine ⟨w.send event, laws.tryBroadcast h.shown hsend, h.capacity, h.guarded, hlt, h.closed, hover, h.fresh,
      h.handles, fun k s hs => ?_⟩
    obtain ⟨pos, hpos, hle, ⟨origin, horigin, hdrop, haccount⟩, hended⟩ := h.streams k s hs
    refine ⟨pos, hpos, hle.trans (Nat.le_succ _), ⟨origin, ?_, ?_, ?_⟩, fun he => ?_⟩
    · simpa [BroadcastHistory.send] using horigin.trans (Nat.le_succ _)
    · show (w.sent ++ [event]).drop origin = (b.emitted.take (b.published + 1)).drop s.since
      rw [hnext, List.drop_append_of_le_length horigin, List.drop_append_of_le_length (by omega), hdrop]
    · exact haccount.append (laws.position_le h.shown hpos) [event]
    · exact absurd (hended he).1 (by simp [hopen])
  | error refused =>
    -- without receivers there are no streams
    simp only [step, hevent, hsend, Option.map_some, Option.some.injEq] at hstep
    subst hstep
    refine ⟨w, h.shown, h.capacity, h.guarded, hlt, h.closed, hover, h.fresh, h.handles, fun k s hs => ?_⟩
    obtain ⟨pos, hpos, -⟩ := h.streams k s hs
    obtain ⟨channel, hok⟩ := laws.accepts h.shown hopen hpos event
    cases hsend.symm.trans hok

/-- A stream has looked for its next event. -/
theorem poll (h : Inv shows b w) (laws : BroadcastLaws shows) {k : ℕ} {s : EventStream} (hs : b.streams k = some s)
    {pos : ℕ} (hpos : w.position k = some pos) (hstep : b.step nextDelay (.poll k) = some b') :
    ∃ r pos', w.Reads pos r pos' ∧ b'.streams = Function.update b.streams k (some (s.receive r)) ∧
      Inv shows b' (w.move k (some pos')) := by
  obtain ⟨r, channel, pos', hrecv, hreads, hshown⟩ := laws.tryRecv h.shown hpos
  simp only [step, hs, hrecv, Option.bind_some, Option.map_some, Option.some.injEq] at hstep
  subst hstep
  refine ⟨r, pos', hreads, rfl, hshown, h.capacity, h.guarded, h.published_le, h.closed, h.published_eq,
    BroadcastHistory.lt_of_move h.fresh (h.fresh k pos hpos), fun k' id hid => ?_, fun k' s' hs' => ?_⟩
  · obtain ⟨hnone, pos'', hpos''⟩ := h.handles k' id hid
    have hk : k' ≠ k := by
      rintro rfl
      cases hnone.symm.trans hs
    exact ⟨(Function.update_of_ne hk _ _).trans hnone, pos'', (BroadcastHistory.move_of_ne hk _).trans hpos''⟩
  · by_cases hk : k' = k
    · subst hk
      cases (Function.update_self k' _ _).symm.trans hs'
      refine ⟨pos', BroadcastHistory.move_self _ _, ?_⟩
      obtain ⟨pos₀, hpos₀, hle, ⟨origin, horigin, hdrop, haccount⟩, hended⟩ := h.streams k' s hs
      cases hpos.symm.trans hpos₀
      cases hreads with
      | message hmessage =>
        refine ⟨hle, ⟨origin, horigin, hdrop, haccount.message hmessage⟩, fun he => ?_⟩
        have hlt := (List.getElem?_eq_some_iff.mp hmessage).1
        exact absurd (hended he).2 hlt.ne
      | @overflowed n hlate =>
        refine ⟨hle, ⟨origin, horigin, hdrop, haccount.overflowed n⟩, fun he => ?_⟩
        have := (hended he).2
        omega
      | empty hend => exact ⟨hle, ⟨origin, horigin, hdrop, haccount⟩, fun he => ⟨(hended he).1, hend⟩⟩
      | closed hend hclosed => exact ⟨hle, ⟨origin, horigin, hdrop, haccount⟩, fun _ => ⟨hclosed, hend⟩⟩
    · obtain ⟨pos'', hpos'', hfollows'⟩ := h.streams k' s' ((Function.update_of_ne hk _ _).symm.trans hs')
      exact ⟨pos'', (BroadcastHistory.move_of_ne hk _).trans hpos'', hfollows'.congr rfl rfl rfl id⟩

/-- A receiver is dropped. -/
theorem dropReceiver (h : Inv shows b w) (laws : BroadcastLaws shows) {k pos₀ : ℕ} (hpos₀ : w.position k = some pos₀)
    {handles : ℕ → Option Uuid} {streams : ℕ → Option EventStream}
    (hhandles : ∀ k' id, handles k' = some id → k' ≠ k ∧ b.handles k' = some id)
    (hstreams : ∀ k' s, streams k' = some s → k' ≠ k ∧ b.streams k' = some s) :
    Inv shows
      { b with channel := BroadcastChannel.dropReceiver b.channel k, handles := handles, streams := streams }
      (w.move k none) := by
  obtain ⟨closed, hshown, hclosed⟩ := laws.dropReceiver h.shown hpos₀
  obtain rfl := hclosed (.inl h.guarded)
  refine ⟨hshown, h.capacity, h.guarded, h.published_le, h.closed, h.published_eq,
    BroadcastHistory.lt_of_move h.fresh (h.fresh k pos₀ hpos₀), fun k' id hid => ?_, fun k' s hs => ?_⟩
  · obtain ⟨hk, hid⟩ := hhandles k' id hid
    obtain ⟨hnone, pos, hpos⟩ := h.handles k' id hid
    refine ⟨Option.eq_none_iff_forall_ne_some.mpr fun s hs => ?_, pos, (BroadcastHistory.move_of_ne hk _).trans hpos⟩
    cases hnone.symm.trans (hstreams k' s hs).2
  · obtain ⟨hk, hs⟩ := hstreams k' s hs
    obtain ⟨pos, hpos, hfollows⟩ := h.streams k' s hs
    exact ⟨pos, (BroadcastHistory.move_of_ne hk _).trans hpos, hfollows.congr rfl rfl rfl id⟩

/-- A call, but for a step of the thread. -/
theorem quiet (h : Inv shows b w) (laws : BroadcastLaws shows) {call : Call} {m : Manager}
    (hm : b.manager.step nextDelay call = some m) (hcall : ∀ action, call ≠ .scheduler action) :
    ∃ w', Inv shows { b with manager := m }.settle w' := by
  obtain ⟨hlog, hphase, halive⟩ := Manager.step_quiet hm hcall
  refine ⟨_, h.manager laws [] (by simpa using hlog) (fun hover => ⟨h.published_eq (hphase ▸ hover), rfl⟩)
    fun ha => ?_⟩
  simp only [abandoned, Bool.and_eq_true, Bool.not_eq_true'] at ha ⊢
  exact ⟨halive ha.1, by rw [hphase]; exact ha.2⟩

/-- A step of the thread. -/
theorem scheduler (h : Inv shows b w) (laws : BroadcastLaws shows) {action : Action} {m : Manager}
    (hpublished : b.emitted.length ≤ b.published) (hm : b.manager.step nextDelay (.scheduler action) = some m) :
    ∃ w', Inv shows { b with manager := m }.settle w' := by
  obtain ⟨t', channel, ht', rfl, -⟩ := Manager.stepScheduler_spec hm
  have hnext := Thread.next_of_step ht'
  have haction : action ≠ .cancelRoot := by
    rintro rfl
    cases hm
  obtain ⟨out, hlog, -⟩ := hnext.sends
  refine ⟨_, h.manager laws _ hlog (fun hover => ⟨le_antisymm h.published_le hpublished, ?_⟩) fun ha => ?_⟩
  · have hsame := hlog.symm.trans (hnext.log_of_over haction hover)
    simpa using hsame
  · simp only [abandoned, hnext.not_over haction, Bool.and_false] at ha
    cases ha

/-- **A step keeps the invariant.** -/
theorem step (h : Inv shows b w) (laws : BroadcastLaws shows) (hstep : b.step nextDelay turn = some b') :
    ∃ w', Inv shows b' w' := by
  cases turn with
  | call call =>
    cases call with
    | clone | drop => cases hstep
    | send cmd =>
      simp only [EventBus.step] at hstep
      obtain ⟨m, hm, rfl⟩ := Option.map_eq_some_iff.mp hstep
      obtain ⟨w', hquiet⟩ := h.quiet laws hm (by simp)
      split
      · exact ⟨_, hquiet.addHandle laws _⟩
      · exact ⟨w', hquiet⟩
    | scheduler action =>
      simp only [EventBus.step] at hstep
      split_ifs at hstep with hpublished
      obtain ⟨m, hm, rfl⟩ := Option.map_eq_some_iff.mp hstep
      exact h.scheduler laws hpublished hm
    | shutdown | dropManager =>
      simp only [EventBus.step] at hstep
      obtain ⟨m, hm, rfl⟩ := Option.map_eq_some_iff.mp hstep
      exact h.quiet laws hm (by simp)
  | cloneHandle k =>
    obtain ⟨id, -, hstep⟩ := Option.bind_eq_some_iff.mp hstep
    obtain ⟨m, hm, rfl⟩ := Option.map_eq_some_iff.mp hstep
    obtain ⟨w', hquiet⟩ := h.quiet laws hm (by simp)
    exact ⟨_, hquiet.addHandle laws id⟩
  | dropHandle k =>
    obtain ⟨id, hid, hstep⟩ := Option.bind_eq_some_iff.mp hstep
    obtain ⟨m, hm, rfl⟩ := Option.map_eq_some_iff.mp hstep
    obtain ⟨w', hquiet⟩ := h.quiet laws hm (by simp)
    obtain ⟨hnone, pos, hpos⟩ := hquiet.handles k id ((congrFun (settle_handles _) k).trans hid)
    refine ⟨_, hquiet.dropReceiver laws hpos (fun k' id' hid' => ?_) fun k' s hs => ⟨?_, hs⟩⟩
    · rw [settle_handles]
      exact eq_some_of_update hid'
    · rintro rfl
      cases hnone.symm.trans hs
  | publish =>
    obtain ⟨event, hevent, -⟩ := Option.map_eq_some_iff.mp hstep
    exact h.publish laws hevent hstep
  | listen handle? =>
    cases handle? with
    | none =>
      simp only [EventBus.step] at hstep
      split_ifs at hstep
      cases hstep
      exact ⟨_, h.addStream laws none⟩
    | some k =>
      obtain ⟨id, -, rfl⟩ := Option.map_eq_some_iff.mp hstep
      exact ⟨_, h.addStream laws (some id)⟩
  | poll k =>
    obtain ⟨s, hs, -⟩ := Option.bind_eq_some_iff.mp hstep
    obtain ⟨pos, hpos, -⟩ := h.streams k s hs
    obtain ⟨r, pos', -, -, h'⟩ := h.poll laws hs hpos hstep
    exact ⟨_, h'⟩
  | drop k =>
    obtain ⟨s, hs, rfl⟩ := Option.map_eq_some_iff.mp hstep
    obtain ⟨pos, hpos, -⟩ := h.streams k s hs
    refine ⟨_, h.dropReceiver laws hpos (fun k' id hid => ⟨?_, hid⟩) fun k' s' => eq_some_of_update⟩
    rintro rfl
    cases (h.handles k' id hid).1.symm.trans hs

end Inv

/-- **The invariant holds** in every state of every run. -/
theorem exists_inv (laws : BroadcastLaws shows) (hb : b.Reachable nextDelay) : ∃ w, Inv shows b w := by
  refine Machine.Reachable.induct (P := fun b => ∃ w, Inv shows b w) ?_ ?_ hb
  · intro b h'
    obtain ⟨maxConcurrent, rfl⟩ := h'
    exact ⟨.new 1024 true, laws.new (by decide) true, rfl, rfl, Nat.zero_le _, rfl, nofun, nofun, nofun, nofun⟩
  · intro b turn b' _ h' hstep
    obtain ⟨w, h⟩ := h'
    exact h.step laws hstep

/-! ### What a stream yields -/

variable {k : ℕ} {s s' : EventStream}

/-- How many events have been broadcast since a stream was made that it has neither got nor missed. -/
def unread (b : EventBus C) (k : ℕ) : ℕ :=
  (b.streams k).elim 0 fun s => (b.broadcasted.drop s.since).length - (s.got.length + s.missed)

omit [BroadcastChannel C ℕ Event] in
theorem Inv.unread_eq (h : Inv shows b w) (hs : b.streams k = some s) :
    b.unread k = b.published - s.since - (s.got.length + s.missed) := by
  rw [unread, hs, Option.elim_some, List.length_drop, h.length_broadcasted]

omit [BroadcastChannel C ℕ Event] in
/-- They are in the channel, ahead of its receiver. -/
theorem Inv.unread_eq_sub (h : Inv shows b w) (hs : b.streams k = some s) {pos : ℕ} (hpos : w.position k = some pos) :
    b.unread k = w.sent.length - pos := by
  obtain ⟨pos', hpos', -, ⟨origin, horigin, hdrop, haccount⟩, -⟩ := h.streams k s hs
  cases hpos.symm.trans hpos'
  have hle := haccount.since_le
  have hgot := haccount.length
  rw [unread, hs, Option.elim_some, ← hdrop, List.length_drop]
  omega

/-- What a stream has received is a part of what has been broadcast since it was made, and the rest it has missed or
is to read. -/
theorem Inv.got_sublist (h : Inv shows b w) (laws : BroadcastLaws shows) (hs : b.streams k = some s) :
    s.got.Sublist (b.broadcasted.drop s.since) ∧
      s.got.length + s.missed + b.unread k = (b.broadcasted.drop s.since).length := by
  obtain ⟨pos, hpos, -, ⟨origin, horigin, hdrop, haccount⟩, -⟩ := h.streams k s hs
  have hlength := congrArg List.length hdrop
  have hle := haccount.since_le
  have hpos_le := laws.position_le h.shown hpos
  have hgot := haccount.length
  refine ⟨haccount.sublist.trans (hdrop ▸ (List.take_sublist pos w.sent).drop origin), ?_⟩
  rw [← hlength, List.length_drop, h.unread_eq_sub hs hpos]
  omega

/-- Without misses it is what came first. -/
theorem Inv.got_prefix (h : Inv shows b w) (laws : BroadcastLaws shows) (hs : b.streams k = some s)
    (hmissed : s.missed = 0) : s.got <+: b.broadcasted.drop s.since := by
  obtain ⟨pos, hpos, -, ⟨origin, horigin, hdrop, haccount⟩, -⟩ := h.streams k s hs
  rw [hmissed] at haccount
  rw [haccount.eq_of_missed (laws.position_le h.shown hpos), List.drop_take, hdrop]
  exact List.take_prefix _ _

/-- Without misses, and with nothing left to read, it is all there was. -/
theorem Inv.got_eq (h : Inv shows b w) (laws : BroadcastLaws shows) (hs : b.streams k = some s) (hmissed : s.missed = 0)
    (hunread : b.unread k = 0) : s.got = b.broadcasted.drop s.since := by
  have hlength := (h.got_sublist laws hs).2
  exact (h.got_prefix laws hs hmissed).eq_of_length (by omega)

/-- **Streams report what happened, in order.** A stream has yielded a part of what has been emitted since it was made,
of its download or of all, in order and none twice. If it has missed nothing, it is what came first. It ends only when
the manager has been dropped and `run` is over, and then it has yielded all there was, but for what it has missed. -/
theorem items_in_order (laws : BroadcastLaws shows) (hb : b.Reachable nextDelay) (hs : b.streams k = some s) :
    s.items.Sublist ((b.emitted.drop s.since).filter s.passes) ∧
      (s.missed = 0 → s.items <+: (b.emitted.drop s.since).filter s.passes) ∧
      (s.ended = true → b.manager.alive = false ∧ b.manager.thread.phase.over = true ∧
        s.got.length + s.missed = (b.emitted.drop s.since).length ∧
        (s.missed = 0 → s.items = (b.emitted.drop s.since).filter s.passes)) := by
  obtain ⟨w, h⟩ := exists_inv laws hb
  have hprefix : b.broadcasted.drop s.since <+: b.emitted.drop s.since := (List.take_prefix _ _).drop s.since
  refine ⟨(((h.got_sublist laws hs).1).trans hprefix.sublist).filter _,
    fun hmissed => ((h.got_prefix laws hs hmissed).trans hprefix).filter _, fun hended => ?_⟩
  obtain ⟨pos, hpos, hfollows⟩ := h.streams k s hs
  obtain ⟨hclosed, hend⟩ := hfollows.ended hended
  have habandoned := h.closed.symm.trans hclosed
  simp only [abandoned, Bool.and_eq_true, Bool.not_eq_true'] at habandoned
  have hunread : b.unread k = 0 := by rw [h.unread_eq_sub hs hpos, hend, Nat.sub_self]
  have hall : b.broadcasted = b.emitted := by rw [broadcasted, h.published_eq habandoned.2, List.take_length]
  refine ⟨habandoned.1, habandoned.2, ?_, fun hmissed => ?_⟩
  · have hlength := (h.got_sublist laws hs).2
    rw [hunread, hall] at hlength
    exact hlength
  · rw [EventStream.items, h.got_eq laws hs hmissed hunread, hall]

/-- A download is made. -/
def enqueued : List Turn := [.call (.send (.enqueue 0 Thread.sampleRequest 1 2))]

/-- It is started, and the first stream of its handle reads both events. -/
def started : List Turn :=
  [.call (.scheduler (.command (.enqueue 0 Thread.sampleRequest 1 2) (fun _ => .ok ()) [])), .publish,
    .call (.scheduler .tryDispatch), .publish, .poll 1, .poll 1]

/-- A stream that has read two events. -/
theorem items_in_order_started :
    ∃ (b : EventBus (BroadcastQueue ℕ Event)) (s : EventStream),
      Machine.exec (step backoffStrategy.nextDelay) (.new 1) (enqueued ++ .listen (some 0) :: started) = some b ∧
      b.streams 1 = some s ∧ s.items.Sublist ((b.emitted.drop s.since).filter s.passes) := by
  have h : (Machine.exec (step backoffStrategy.nextDelay) (.new 1 : EventBus (BroadcastQueue ℕ Event))
      (enqueued ++ .listen (some 0) :: started)).any (fun b => (b.streams 1).isSome = true) := by
    decide +kernel
  obtain ⟨b, hb, hsome⟩ := Machine.exists_exec_of_any _ h
  obtain ⟨s, hs⟩ := Option.isSome_iff_exists.mp hsome
  exact ⟨b, s, hb, hs, (items_in_order BroadcastQueue.shows_laws (.exec (.init ⟨1, rfl⟩) hb) hs).1⟩

/-! ### When a stream misses nothing -/

/-- A stream is left alone, but it may be dropped; and an event may be broadcast. -/
structure Spared (k : ℕ) (b : EventBus C) (turn : Turn) (b' : EventBus C) : Prop where
  /-- Receivers stay made. -/
  receivers : b.receivers ≤ b'.receivers
  /-- The stream is what it was. -/
  stream : ∀ s, b'.streams k = some s → b.streams k = some s
  /-- Only `publish` broadcasts. -/
  published : b'.published = b.published ∨ turn = .publish ∧ b'.published = b.published + 1

theorem Spared.settle (m : Manager) : Spared k b turn { b with manager := m }.settle where
  receivers := by rw [settle_receivers]
  stream s hs := by rwa [settle_streams] at hs
  published := .inl (by rw [settle_published])

theorem Spared.addHandle {b₁ : EventBus C} (h : Spared k b turn b₁) (id : Uuid) :
    Spared k b turn (b₁.addHandle id) where
  receivers := h.receivers.trans (Nat.le_succ _)
  stream := h.stream
  published := h.published

theorem Spared.addStream (hk : k < b.receivers) (download? : Option Uuid) :
    Spared k b turn (b.addStream download?) where
  receivers := Nat.le_succ _
  stream _ hs := (Function.update_of_ne hk.ne _ _).symm.trans hs
  published := .inl rfl

/-- **Only a stream itself reads**: the other steps leave it alone. -/
theorem spared_of_step (hk : k < b.receivers) (hturn : turn ≠ .poll k) (hstep : b.step nextDelay turn = some b') :
    Spared k b turn b' := by
  cases turn with
  | call call =>
    cases call with
    | clone | drop => cases hstep
    | send cmd =>
      simp only [EventBus.step] at hstep
      obtain ⟨m, hm, rfl⟩ := Option.map_eq_some_iff.mp hstep
      split
      · exact (Spared.settle m).addHandle _
      · exact .settle m
    | scheduler action =>
      simp only [EventBus.step] at hstep
      split_ifs at hstep
      obtain ⟨m, hm, rfl⟩ := Option.map_eq_some_iff.mp hstep
      exact .settle m
    | shutdown | dropManager =>
      simp only [EventBus.step] at hstep
      obtain ⟨m, hm, rfl⟩ := Option.map_eq_some_iff.mp hstep
      exact .settle m
  | cloneHandle k₁ =>
    obtain ⟨id, -, hstep⟩ := Option.bind_eq_some_iff.mp hstep
    obtain ⟨m, hm, rfl⟩ := Option.map_eq_some_iff.mp hstep
    exact (Spared.settle m).addHandle id
  | dropHandle k₁ =>
    obtain ⟨id, -, hstep⟩ := Option.bind_eq_some_iff.mp hstep
    obtain ⟨m, hm, rfl⟩ := Option.map_eq_some_iff.mp hstep
    have hspared : Spared k b (.dropHandle k₁) { b with manager := m }.settle := .settle m
    exact ⟨hspared.receivers, hspared.stream, hspared.published⟩
  | publish =>
    obtain ⟨event, hevent, rfl⟩ := Option.map_eq_some_iff.mp hstep
    split
    · exact ⟨le_rfl, fun s => id, .inr ⟨rfl, rfl⟩⟩
    · exact ⟨le_rfl, fun s => id, .inr ⟨rfl, rfl⟩⟩
  | listen handle? =>
    cases handle? with
    | none =>
      simp only [EventBus.step] at hstep
      split_ifs at hstep
      cases hstep
      exact .addStream hk none
    | some k₁ =>
      obtain ⟨id, -, rfl⟩ := Option.map_eq_some_iff.mp hstep
      exact .addStream hk (some id)
  | poll k₁ =>
    -- another stream reads
    have hne : k ≠ k₁ := fun he => hturn (by rw [he])
    obtain ⟨s, -, hstep⟩ := Option.bind_eq_some_iff.mp hstep
    obtain ⟨⟨r, channel⟩, -, rfl⟩ := Option.map_eq_some_iff.mp hstep
    exact ⟨le_rfl, fun s' hs' => (Function.update_of_ne hne _ _).symm.trans hs', .inl rfl⟩
  | drop k₁ =>
    obtain ⟨s, -, rfl⟩ := Option.map_eq_some_iff.mp hstep
    exact ⟨le_rfl, fun s' hs' => (eq_some_of_update hs').2, .inl rfl⟩

/-- Whenever an event is broadcast, the channel has room for one more that a stream has not read. -/
def InTime (k : ℕ) (b : EventBus C) : Turn → Prop
  | .publish => b.unread k < 1024
  | _ => True

instance (k : ℕ) (b : EventBus C) : (turn : Turn) → Decidable (b.InTime k turn)
  | .publish => inferInstanceAs (Decidable (b.unread k < 1024))
  | .call _ | .cloneHandle _ | .dropHandle _ | .listen _ | .poll _ | .drop _ => inferInstanceAs (Decidable True)

/-- A stream that keeps up: it has missed nothing, and no more is unread than the channel has room for. -/
structure KeepsUp (b : EventBus C) (k : ℕ) (download? : Option Uuid) (since : ℕ) : Prop where
  /-- Its receiver was made before now. -/
  lt : k < b.receivers
  /-- It has missed nothing. -/
  missed : ∀ s, b.streams k = some s → s.download? = download? ∧ s.since = since ∧ s.missed = 0
  /-- It has not much to read. -/
  unread : ∀ s, b.streams k = some s → b.unread k ≤ 1024

/-- It reads: what it is to read next is still there. -/
theorem KeepsUp.poll {download? : Option Uuid} {since : ℕ} (h : Inv shows b w) (laws : BroadcastLaws shows)
    (hup : b.KeepsUp k download? since) (hstep : b.step nextDelay (.poll k) = some b') :
    b'.KeepsUp k download? since := by
  obtain ⟨s₀, hs₀, hpoll⟩ := Option.bind_eq_some_iff.mp hstep
  obtain ⟨pos, hpos, -⟩ := h.streams k s₀ hs₀
  obtain ⟨r, pos', hreads, hstreams, h'⟩ := h.poll laws hs₀ hpos hstep
  have hreceivers : b'.receivers = b.receivers := by
    obtain ⟨_, -, rfl⟩ := Option.map_eq_some_iff.mp hpoll
    rfl
  have hunread := hup.unread s₀ hs₀
  have hmissed := hup.missed s₀ hs₀
  rw [h.unread_eq_sub hs₀ hpos] at hunread
  have hkeeps (s : EventStream) (hs : b'.streams k = some s) :
      (s.download? = download? ∧ s.since = since ∧ s.missed = 0) ∧ w.sent.length - pos' ≤ 1024 := by
    rw [hstreams] at hs
    cases (Function.update_self k _ _).symm.trans hs
    cases hreads with
    | message => exact ⟨hmissed, by omega⟩
    | overflowed hlate =>
      rw [h.capacity] at hlate
      omega
    | empty | closed => exact ⟨hmissed, hunread⟩
  refine ⟨hup.lt.trans_eq hreceivers.symm, fun s hs => (hkeeps s hs).1, fun s hs => ?_⟩
  rw [h'.unread_eq_sub hs (BroadcastHistory.move_self k _)]
  exact (hkeeps s hs).2

theorem KeepsUp.step {download? : Option Uuid} {since : ℕ} (h : Inv shows b w) (laws : BroadcastLaws shows)
    (hup : b.KeepsUp k download? since) (hroom : b.InTime k turn) (hstep : b.step nextDelay turn = some b') :
    b'.KeepsUp k download? since := by
  obtain ⟨w', h'⟩ := h.step laws hstep
  by_cases hturn : turn = .poll k
  · subst hturn
    exact hup.poll h laws hstep
  · have hspared := spared_of_step hup.lt hturn hstep
    refine ⟨hup.lt.trans_le hspared.receivers, fun s hs => hup.missed s (hspared.stream s hs), fun s hs => ?_⟩
    have hs' := hspared.stream s hs
    have hunread := hup.unread s hs'
    have hunread_eq := h.unread_eq hs'
    rw [h'.unread_eq hs]
    rcases hspared.published with hpublished | ⟨rfl, hpublished⟩
    · rwa [hpublished, ← hunread_eq]
    · have hroom : b.unread k < 1024 := hroom
      omega

/-- A stream that is made, and is read in time from then on, keeps up. -/
theorem keepsUp_of_listen {turns : List Turn} {handle? : Option ℕ} {b₁ b₂ : EventBus C} (laws : BroadcastLaws shows)
    (hb : b.Reachable nextDelay) (hlisten : b.step nextDelay (.listen handle?) = some b₁)
    (hreads : Machine.Along (EventBus.step nextDelay) (InTime b.receivers) b₁ turns)
    (hrun : Machine.exec (EventBus.step nextDelay) b₁ turns = some b₂) :
    ∃ download?, b₂.Reachable nextDelay ∧ b₂.KeepsUp b.receivers download? b.published ∧
      (handle? = none → download? = none) := by
  have hadd : ∃ download?, b₁ = b.addStream download? ∧ (handle? = none → download? = none) := by
    cases handle? with
    | none =>
      simp only [EventBus.step] at hlisten
      split_ifs at hlisten
      exact ⟨none, (Option.some.inj hlisten).symm, fun _ => rfl⟩
    | some k =>
      obtain ⟨id, -, rfl⟩ := Option.map_eq_some_iff.mp hlisten
      exact ⟨some id, rfl, fun hnone => by cases hnone⟩
  obtain ⟨download?, rfl, hdownload⟩ := hadd
  obtain ⟨w, h⟩ := exists_inv laws hb
  have hself : (b.addStream download?).streams b.receivers = some { download? := download?, since := b.published } :=
    Function.update_self ..
  have hinit : (b.addStream download?).KeepsUp b.receivers download? b.published := by
    refine ⟨Nat.lt_succ_self _, fun s hs => ?_, fun s hs => ?_⟩
    · cases hself.symm.trans hs
      exact ⟨rfl, rfl, rfl⟩
    · rw [(h.addStream laws download?).unread_eq_sub hs (BroadcastHistory.move_self _ _)]
      exact (Nat.sub_self w.sent.length).le.trans (Nat.zero_le _)
  have hb₁ : (b.addStream download?).Reachable nextDelay := hb.step hlisten
  obtain ⟨hb₂, hup⟩ := Machine.exec_induct_along (EventBus.step nextDelay)
    (Q := fun b' => b'.Reachable nextDelay ∧ b'.KeepsUp b.receivers download? b.published)
    (fun c turn c' hc hroom hstep => ⟨hc.1.step hstep, by
      obtain ⟨w', hc'⟩ := exists_inv laws hc.1
      exact hc.2.step hc' laws hroom hstep⟩) turns hreads ⟨hb₁, hinit⟩ hrun
  exact ⟨download?, hb₂, hup, hdownload⟩

/-- When it has read all, it has yielded what has been broadcast since it was made. -/
theorem KeepsUp.items_eq {download? : Option Uuid} {since : ℕ} (hup : b.KeepsUp k download? since)
    (laws : BroadcastLaws shows) (hb : b.Reachable nextDelay) (hs : b.streams k = some s) (hunread : b.unread k = 0) :
    s.items = (b.broadcasted.drop since).filter s.passes := by
  obtain ⟨-, hsince, hmissed⟩ := hup.missed s hs
  obtain ⟨w, h⟩ := exists_inv laws hb
  rw [EventStream.items, h.got_eq laws hs hmissed hunread, hsince]

/-- **Whoever reads in time misses nothing.** A stream is made, and whenever an event is broadcast from then on there
are fewer than 1024 it has not read. Then it has missed nothing, and when it has read all it has yielded every event
broadcast since it was made, of its download or of all. -/
theorem items_of_keepsUp {turns : List Turn} {handle? : Option ℕ} {b₁ b₂ : EventBus C} (laws : BroadcastLaws shows)
    (hb : b.Reachable nextDelay) (hlisten : b.step nextDelay (.listen handle?) = some b₁)
    (hreads : Machine.Along (EventBus.step nextDelay) (InTime b.receivers) b₁ turns)
    (hrun : Machine.exec (EventBus.step nextDelay) b₁ turns = some b₂) (hs : b₂.streams b.receivers = some s) :
    s.missed = 0 ∧ (b₂.unread b.receivers = 0 → s.items = (b₂.broadcasted.drop b.published).filter s.passes) := by
  obtain ⟨download?, hb₂, hup, -⟩ := keepsUp_of_listen laws hb hlisten hreads hrun
  obtain ⟨-, -, hmissed⟩ := hup.missed s hs
  exact ⟨hmissed, hup.items_eq laws hb₂ hs⟩

/-- A stream that reads each event when it has been broadcast. -/
theorem items_of_keepsUp_started :
    ∃ b b₁ b₂ : EventBus (BroadcastQueue ℕ Event), ∃ s,
      b.step backoffStrategy.nextDelay (.listen (some 0)) = some b₁ ∧
      Machine.exec (EventBus.step backoffStrategy.nextDelay) b₁ started = some b₂ ∧ b₂.streams b.receivers = some s ∧
      s.missed = 0 ∧ (b₂.unread b.receivers = 0 → s.items = (b₂.broadcasted.drop b.published).filter s.passes) := by
  have h : (Machine.exec (EventBus.step backoffStrategy.nextDelay) (.new 1 : EventBus (BroadcastQueue ℕ Event))
      enqueued).any (fun b =>
      (Machine.exec (EventBus.step backoffStrategy.nextDelay) b [.listen (some 0)]).any (fun b₁ =>
        Machine.Along (EventBus.step backoffStrategy.nextDelay) (InTime b.receivers) b₁ started ∧
        (Machine.exec (EventBus.step backoffStrategy.nextDelay) b₁ started).any
          (fun b₂ => (b₂.streams b.receivers).isSome = true) = true) = true) := by
    decide +kernel
  obtain ⟨b, hb, h⟩ := Machine.exists_exec_of_any _ h
  obtain ⟨b₁, hb₁, hreads, h⟩ := Machine.exists_exec_of_any _ h
  obtain ⟨b₂, hb₂, hsome⟩ := Machine.exists_exec_of_any _ h
  obtain ⟨s, hs⟩ := Option.isSome_iff_exists.mp hsome
  obtain ⟨_, hlisten, hnil⟩ := (Machine.exec_cons_eq_some _).mp hb₁
  cases hnil
  exact ⟨b, b₁, b₂, s, hlisten, hb₂, hs,
    items_of_keepsUp BroadcastQueue.shows_laws (.exec (.init ⟨1, rfl⟩) hb) hlisten hreads hb₂ hs⟩

end EventBus

end DownloadManager
