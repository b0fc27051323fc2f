import DownloadManager.Scheduler.Refinement
import DownloadManager.Streams

/-!
# What a subscriber knows

Whoever reads a stream of events in time has them all (`Streams`), and they are a history of slots
with a queue (`Scheduler.Refinement`). So it can follow the scheduler by them: `board` is what it
makes of what it has read. Once it has read all there is, the board shows the scheduler as it is,
but for the number of slots, which no event tells (`board_shows`).
-/

namespace DownloadManager

/-- What a subscriber makes of the events it has read. -/
def EventStream.board (s : EventStream) : Slots Uuid Stage :=
  (Slots.new 0).enterAll Stage.rules (s.items.map fun event => (event.id, event.kind.stage))

variable {nextDelay : UInt32 → Except Panic Duration}

/-- An event of the log reports a stage. -/
theorem stages_of_events (log : List Output) :
    (log.filterMap Output.event?).map (fun event => (event.id, event.kind.stage)) = log.filterMap Output.stage? := by
  rw [List.map_filterMap]
  congr 1
  funext o
  cases o <;> rfl

/-- On the board is the last stage read. -/
theorem EventStream.board_stage (s : EventStream) (id : Uuid) :
    s.board.stage id = ((s.items.filter (·.id = id)).map (·.kind.stage)).getLast? := by
  rw [board, Slots.enterAll_stage, List.filter_map, List.map_map]
  exact Option.or_none

/-- A stream passes on all events of a download, or none. -/
theorem EventStream.passes_congr (s : EventStream) {e e' : Event} (h : e.id = e'.id) : s.passes e = s.passes e' := by
  rw [passes, passes, h]

namespace EventBus

variable {C : Type}

/-- The stage of a download is in its last event. -/
theorem view_stage (b : EventBus C) (id : Uuid) :
    (b.manager.thread.view id).stage = ((b.emitted.filter (·.id = id)).map (·.kind.stage)).getLast? := by
  have hstages := stages_eq b.manager.thread.sched.log id
  rw [← stages_of_events, List.filter_map, List.map_map] at hstages
  rw [View.stage, ← List.getLast?_map]
  exact congrArg List.getLast? hstages.symm

variable [BroadcastChannel C ℕ Event] {shows : C → BroadcastHistory ℕ Event → Prop} {b b' : EventBus C} {turn : Turn}

/-- The manager of a bus goes the way of a manager. -/
theorem manager_of_step (h : b.step nextDelay turn = some b') :
    b'.manager = b.manager ∨ ∃ call, b.manager.step nextDelay call = some b'.manager := by
  cases turn with
  | call call =>
    refine .inr ⟨call, ?_⟩
    cases call with
    | clone | drop => cases h
    | send cmd =>
      simp only [step] at h
      obtain ⟨m, hm, rfl⟩ := Option.map_eq_some_iff.mp h
      split <;> simpa [addHandle] using hm
    | scheduler action =>
      simp only [step] at h
      split_ifs at h
      obtain ⟨m, hm, rfl⟩ := Option.map_eq_some_iff.mp h
      simpa using hm
    | shutdown | dropManager =>
      simp only [step] at h
      obtain ⟨m, hm, rfl⟩ := Option.map_eq_some_iff.mp h
      simpa using hm
  | cloneHandle k | dropHandle k =>
    obtain ⟨id, -, h⟩ := Option.bind_eq_some_iff.mp h
    obtain ⟨m, hm, rfl⟩ := Option.map_eq_some_iff.mp h
    exact .inr ⟨_, by simpa [addHandle] using hm⟩
  | publish =>
    obtain ⟨event, -, rfl⟩ := Option.map_eq_some_iff.mp h
    split <;> exact .inl rfl
  | listen handle? =>
    cases handle? with
    | none =>
      simp only [step] at h
      split_ifs at h
      cases h
      exact .inl rfl
    | some k =>
      obtain ⟨id, -, rfl⟩ := Option.map_eq_some_iff.mp h
      exact .inl rfl
  | poll k =>
    obtain ⟨s, -, h⟩ := Option.bind_eq_some_iff.mp h
    obtain ⟨r, -, rfl⟩ := Option.map_eq_some_iff.mp h
    exact .inl rfl
  | drop k =>
    obtain ⟨s, -, rfl⟩ := Option.map_eq_some_iff.mp h
    exact .inl rfl

/-- And its thread the way of a thread. -/
theorem thread_reachable (hb : b.Reachable nextDelay) : b.manager.thread.Reachable nextDelay := by
  have hm : b.manager.Reachable nextDelay := by
    refine Machine.Reachable.induct (P := fun b => b.manager.Reachable nextDelay) ?_ ?_ hb
    · rintro b ⟨maxConcurrent, rfl⟩
      exact .init ⟨maxConcurrent, rfl⟩
    · intro b turn b' _ hm h
      rcases manager_of_step h with heq | ⟨call, hcall⟩
      · exact heq ▸ hm
      · exact hm.step hcall
  exact (Manager.inv_of_reachable hm).thread

/-- **A subscriber that reads in time knows how things are.** A stream is made and read in time from then on, all events
have been broadcast, and it has read them. Then the last event it has yielded of a download says in which state the job
is, or that it is over. A stream of all downloads made before the first event also knows which jobs wait and in which
order, and which have a worker. -/
theorem board_shows {turns : List Turn} {handle? : Option ℕ} {b₁ b₂ : EventBus C} {s : EventStream}
    (laws : BroadcastLaws shows) (hb : b.Reachable nextDelay) (hlisten : b.step nextDelay (.listen handle?) = some b₁)
    (hreads : Machine.Along (EventBus.step nextDelay) (InTime b.receivers) b₁ turns)
    (hrun : Machine.exec (EventBus.step nextDelay) b₁ turns = some b₂) (hs : b₂.streams b.receivers = some s)
    (hunread : b₂.unread b.receivers = 0) (hpublished : b₂.emitted.length ≤ b₂.published) :
    (∀ id x, s.board.stage id = some x →
      (∃ job, b₂.manager.thread.sched.jobs.lookup id = some job ∧ job.state.stage = x) ∨
        b₂.manager.thread.sched.jobs.lookup id = none ∧ x = .terminal) ∧
    (handle? = none → b.emitted = [] →
      b₂.manager.thread.sched.Shown { s.board with limit := b₂.manager.thread.sched.maxConcurrent }) := by
  obtain ⟨download?, hb₂, hup, hdownload⟩ := keepsUp_of_listen laws hb hlisten hreads hrun
  have ht := thread_reachable hb₂
  have hitems : s.items = (b₂.emitted.drop b.published).filter s.passes := by
    rw [hup.items_eq laws hb₂ hs hunread, broadcasted, List.take_of_length_le hpublished]
  constructor
  · intro id x hx
    rw [EventStream.board_stage, hitems] at hx
    -- what it has read of the download is what came last
    obtain ⟨e, he, -⟩ := List.mem_map.mp (List.mem_of_getLast? hx)
    obtain ⟨he, hid⟩ := List.mem_filter.mp he
    have hpasses : ((b₂.emitted.drop b.published).filter s.passes).filter (·.id = id) =
        (b₂.emitted.drop b.published).filter (·.id = id) := by
      rw [List.filter_filter]
      refine List.filter_congr fun e' _ => ?_
      by_cases hid' : e'.id = id
      · rw [s.passes_congr (hid'.trans (of_decide_eq_true hid).symm), (List.mem_filter.mp he).2, Bool.and_true]
      · simp [hid']
    have hstage : (b₂.manager.thread.view id).stage = some x := by
      rw [view_stage, ← List.take_append_drop b.published b₂.emitted, List.filter_append, List.map_append,
        List.getLast?_append, ← hpasses, hx, Option.some_or]
    obtain ⟨hlive, hgone⟩ := (inv_of_reachable ht id).stage
    cases hjob : (b₂.manager.thread.view id).job with
    | none =>
      refine .inr ⟨hjob, ?_⟩
      rcases hgone hjob with h | h
      · cases h.symm.trans hstage
      · exact (Option.some.inj (h.symm.trans hstage)).symm
    | some job => exact .inl ⟨job, hjob, Option.some.inj ((hlive job hjob).symm.trans hstage)⟩
  · intro hnone hemitted
    have hall : s.items = b₂.emitted := by
      obtain ⟨w, h⟩ := exists_inv laws hb
      have hzero : b.published = 0 := by simpa [hemitted] using h.published_le
      have hpasses : ∀ e, s.passes e = true := fun e => by
        rw [EventStream.passes, (hup.missed s hs).1, hdownload hnone]
        rfl
      rw [hitems, hzero, List.drop_zero]
      exact List.filter_eq_self.mpr fun e _ => hpasses e
    obtain ⟨_, as, ⟨maxConcurrent, rfl⟩, has⟩ := ht.exists_exec
    obtain ⟨reports, slots, hslots, h⟩ := Thread.exists_matches has
    have hboard : slots = { s.board with limit := slots.limit } := by
      have hfollow := Slots.exec_enterAll hslots
      rw [h.stages, ← stages_of_events] at hfollow
      have hlimit : s.board = { (Slots.new maxConcurrent).enterAll Stage.rules
          (b₂.emitted.map fun event => (event.id, event.kind.stage)) with limit := 0 } := by
        rw [EventStream.board, hall]
        exact Slots.enterAll_limit (.new maxConcurrent) 0 _
      rw [hlimit]
      exact hfollow
    rw [← h.limit, ← hboard]
    exact h.shown ht

/-- A download is made and started, and a stream of all downloads reads its events. -/
def watched : List Turn :=
  enqueued ++ [.call (.scheduler (.command (.enqueue 0 Thread.sampleRequest 1 2) (fun _ => .ok ()) [])), .publish,
    .poll 0, .call (.scheduler .tryDispatch), .publish, .poll 0]

/-- The stream was made before. -/
theorem board_shows_watched :
    ∃ b₁ b₂ : EventBus (BroadcastQueue ℕ Event), ∃ s,
      (EventBus.new 1).step backoffStrategy.nextDelay (.listen none) = some b₁ ∧
      Machine.exec (EventBus.step backoffStrategy.nextDelay) b₁ watched = some b₂ ∧ b₂.streams 0 = some s ∧
      s.items.length = 2 ∧
      b₂.manager.thread.sched.Shown { s.board with limit := b₂.manager.thread.sched.maxConcurrent } := by
  have h : (Machine.exec (EventBus.step backoffStrategy.nextDelay) (.new 1 : EventBus (BroadcastQueue ℕ Event))
      [.listen none]).any (fun b₁ =>
      Machine.Along (EventBus.step backoffStrategy.nextDelay) (InTime 0) b₁ watched ∧
      (Machine.exec (EventBus.step backoffStrategy.nextDelay) b₁ watched).any (fun b₂ =>
        (b₂.streams 0).any (fun s => s.items.length = 2) ∧ b₂.unread 0 = 0 ∧ b₂.emitted.length ≤ b₂.published) = true)
      = true := by
    decide +kernel
  obtain ⟨b₁, hb₁, hreads, h⟩ := Machine.exists_exec_of_any _ h
  obtain ⟨b₂, hb₂, hs, hunread, hpublished⟩ := Machine.exists_exec_of_any _ h
  obtain ⟨s, hs, hlength⟩ := (Option.any_eq_true _ _).mp hs
  obtain ⟨_, hlisten, hnil⟩ := (Machine.exec_cons_eq_some _).mp hb₁
  cases hnil
  exact ⟨b₁, b₂, s, hlisten, hb₂, hs, of_decide_eq_true hlength,
    (board_shows BroadcastQueue.shows_laws (.init ⟨1, rfl⟩) hlisten hreads hb₂ hs hunread hpublished).2 rfl rfl⟩

end EventBus

end DownloadManager
