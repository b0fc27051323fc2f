import DownloadManager.Library.BroadcastQueue
import DownloadManager.Library.Machine
import DownloadManager.Rates

/-!
# The latest progress

A download's channel of progress: `DownloadManager::enqueue` makes it, with room for one report
and an initial one; the workers of the job report to it; and `Download::progress` gives out a
stream that starts where the receiver of the handle is. No handle ever reads, so the last report
stays for whoever asks. The channel is one of `async_broadcast`, any `BroadcastChannel` that keeps
the laws of one.

A stream that is read between two reports gets the newest one, or has had it already. `reports`
and what the streams have yielded are there for statements only.
-/

namespace DownloadManager

/-- The channel of a download's progress, and whoever listens. -/
structure ProgressChannel (C : Type) where
  /-- The channel. -/
  channel : C
  /-- Whether a sender is left: with the command, the record or a worker. -/
  sender : Bool
  /-- The receivers of handles. -/
  handles : Finset ℕ
  /-- The streams, with what they have yielded. -/
  streams : ℕ → Option (List Events.Progress)
  /-- How many receivers have been made. -/
  receivers : ℕ
  /-- The reports so far. -/
  reports : List Events.Progress

namespace ProgressChannel

/-- What happens next. -/
inductive Turn where
  /-- A worker reports. -/
  | report (progress : Events.Progress)
  /-- The last sender is dropped. -/
  | dropSender
  /-- `Download::clone`. -/
  | cloneHandle (k : ℕ)
  /-- The drop of a handle. -/
  | dropHandle (k : ℕ)
  /-- `Download::progress`. -/
  | progress (k : ℕ)
  /-- A stream is asked for its next report. -/
  | poll (k : ℕ)
  /-- The drop of a stream. -/
  | drop (k : ℕ)

variable {C : Type} [BroadcastChannel C ℕ Events.Progress]

/-- `try_broadcast`, whose error is ignored. -/
def broadcast (channel : C) (progress : Events.Progress) : C :=
  match BroadcastChannel.tryBroadcast channel progress with
  | .ok channel => channel
  | .error _ => channel

/-- What `DownloadManager::enqueue` makes, at a time. -/
def new (now : Events.Instant) : ProgressChannel C where
  channel := broadcast (BroadcastChannel.subscribe (BroadcastChannel.new 1 false) 0) (.new 0 none now)
  sender := true
  handles := {0}
  streams _ := none
  receivers := 1
  reports := [.new 0 none now]

/-- A step of anyone. -/
def step (c : ProgressChannel C) : Turn → Option (ProgressChannel C)
  | .report progress =>
    if c.sender then
      some { c with channel := broadcast c.channel progress, reports := c.reports ++ [progress] }
    else none
  | .dropSender =>
    if c.sender then some { c with channel := BroadcastChannel.close c.channel, sender := false } else none
  | .cloneHandle k =>
    if k ∈ c.handles then
      some { c with
        channel := BroadcastChannel.cloneReceiver c.channel k c.receivers
        handles := insert c.receivers c.handles
        receivers := c.receivers + 1 }
    else none
  | .dropHandle k =>
    if k ∈ c.handles then
      some { c with channel := BroadcastChannel.dropReceiver c.channel k, handles := c.handles.erase k }
    else none
  | .progress k =>
    if k ∈ c.handles then
      some { c with
        channel := BroadcastChannel.cloneReceiver c.channel k c.receivers
        streams := Function.update c.streams c.receivers (some [])
        receivers := c.receivers + 1 }
    else none
  | .poll k =>
    (c.streams k).bind fun got => (BroadcastChannel.pollNext c.channel k).map fun (r, channel) =>
      { c with channel := channel, streams := Function.update c.streams k (some (got ++ r.toOption.toList)) }
  | .drop k =>
    (c.streams k).map fun _ =>
      { c with channel := BroadcastChannel.dropReceiver c.channel k, streams := Function.update c.streams k none }

/-- The states a run leads to, for a download made at any time. -/
abbrev Reachable : ProgressChannel C → Prop := Machine.Reachable step fun c => ∃ now, c = .new now

variable {shows : C → BroadcastHistory ℕ Events.Progress → Prop} {c c' : ProgressChannel C} {turn : Turn} {k : ℕ}
variable {w : BroadcastHistory ℕ Events.Progress} {got : List Events.Progress}

/-- What a stream has yielded: a part of the reports, and the last of them unless it is to read it. -/
structure Follows (reports : List Events.Progress) (pos : ℕ) (got : List Events.Progress) : Prop where
  /-- A part. -/
  sublist : got.Sublist (reports.take pos)
  /-- The last one. -/
  last : pos = reports.length → got.getLast? = reports.getLast?

/-- What holds of the channel and its receivers. -/
structure Inv (shows : C → BroadcastHistory ℕ Events.Progress → Prop) (c : ProgressChannel C)
    (w : BroadcastHistory ℕ Events.Progress) : Prop where
  /-- It is what has happened on the channel. -/
  shown : shows c.channel w
  /-- It has room for one. -/
  capacity : w.capacity = 1
  /-- All is accepted, and the channel is open with a sender, as long as there are receivers. -/
  accepted : ∀ k pos, w.position k = some pos → w.sent = c.reports ∧ (c.sender = true → w.closed = false)
  /-- There is a report. -/
  reports : c.reports ≠ []
  /-- The receivers that have been made. -/
  fresh : ∀ k pos, w.position k = some pos → k < c.receivers
  /-- The handles' receivers have the last report to read. -/
  handles : ∀ k ∈ c.handles, c.streams k = none ∧ ∃ pos < c.reports.length, w.position k = some pos
  /-- The streams' receivers have read what the streams have yielded. -/
  streams : ∀ k got, c.streams k = some got → ∃ pos, w.position k = some pos ∧ Follows c.reports pos got

namespace Inv

theorem follows_le (h : Inv shows c w) (laws : BroadcastLaws shows) {pos : ℕ} (hpos : w.position k = some pos) :
    pos ≤ c.reports.length := (h.accepted k pos hpos).1 ▸ laws.position_le h.shown hpos

/-- A report is broadcast, or nobody listens. -/
theorem report (h : Inv shows c w) (laws : BroadcastLaws shows) (hsender : c.sender = true)
    (progress : Events.Progress) :
    ∃ w', Inv shows { c with channel := broadcast c.channel progress, reports := c.reports ++ [progress] } w' := by
  have hlt {pos : ℕ} (hpos : pos ≤ c.reports.length) : pos < (c.reports ++ [progress]).length := by
    rw [List.length_append, List.length_singleton]
    omega
  unfold broadcast
  cases hsend : BroadcastChannel.tryBroadcast c.channel progress with
  | ok channel =>
    refine ⟨w.send progress, laws.tryBroadcast h.shown hsend, h.capacity, fun k pos hpos => ?_, by simp, h.fresh,
      fun k hk => ?_, fun k got hgot => ?_⟩
    · obtain ⟨hsent, hopen⟩ := h.accepted k pos hpos
      exact ⟨congrArg (· ++ [progress]) hsent, hopen⟩
    · obtain ⟨hnone, pos, hpos, hlook⟩ := h.handles k hk
      exact ⟨hnone, pos, hlt hpos.le, hlook⟩
    · obtain ⟨pos, hlook, hsublist, -⟩ := h.streams k got hgot
      have hle := h.follows_le laws hlook
      refine ⟨pos, hlook, ?_, fun heq => absurd heq (hlt hle).ne⟩
      rwa [List.take_append_of_le_length hle]
  | error refused =>
    have hnobody (k : ℕ) (pos : ℕ) : w.position k ≠ some pos := by
      intro hpos
      obtain ⟨channel, hok⟩ := laws.accepts h.shown ((h.accepted k pos hpos).2 hsender) hpos progress
      cases hsend.symm.trans hok
    refine ⟨w, h.shown, h.capacity, fun k pos hpos => absurd hpos (hnobody k pos), by simp, h.fresh, fun k hk => ?_,
      fun k got hgot => ?_⟩
    · obtain ⟨-, pos, -, hlook⟩ := h.handles k hk
      exact absurd hlook (hnobody k pos)
    · obtain ⟨pos, hlook, -⟩ := h.streams k got hgot
      exact absurd hlook (hnobody k pos)

omit [BroadcastChannel C ℕ Events.Progress] in
/-- The next receiver is new. -/
theorem receivers_fresh (h : Inv shows c w) :
    w.position c.receivers = none ∧ c.receivers ∉ c.handles ∧ c.streams c.receivers = none := by
  have hnone : w.position c.receivers = none :=
    Option.eq_none_iff_forall_ne_some.mpr fun pos hpos => absurd (h.fresh _ pos hpos) (lt_irrefl _)
  refine ⟨hnone, fun hmem => ?_, Option.eq_none_iff_forall_ne_some.mpr fun got hgot => ?_⟩
  · obtain ⟨-, pos, -, hpos⟩ := h.handles _ hmem
    cases hnone.symm.trans hpos
  · obtain ⟨pos, hpos, -⟩ := h.streams _ got hgot
    cases hnone.symm.trans hpos

/-- A receiver is made that starts where a handle's is, for a new handle or for a new stream. -/
theorem addReceiver (h : Inv shows c w) (laws : BroadcastLaws shows) (hk : k ∈ c.handles) {handles : Finset ℕ}
    {streams : ℕ → Option (List Events.Progress)}
    (hhandles : ∀ k' ∈ handles, streams k' = none ∧ (k' ∈ c.handles ∨ k' = c.receivers))
    (hstreams : ∀ k' got, streams k' = some got → c.streams k' = some got ∨ k' = c.receivers ∧ got = []) :
    ∃ w', Inv shows
      { c with
        channel := BroadcastChannel.cloneReceiver c.channel k c.receivers
        handles := handles
        streams := streams
        receivers := c.receivers + 1 } w' := by
  obtain ⟨-, pos, hlt, hpos⟩ := h.handles k hk
  have hne {k' : ℕ} {pos' : ℕ} (hpos' : w.position k' = some pos') : k' ≠ c.receivers := (h.fresh k' pos' hpos').ne
  have hfresh : ∀ k' pos', w.position k' = some pos' → k' < c.receivers + 1 :=
    fun k' pos' hpos' => (h.fresh k' pos' hpos').trans (Nat.lt_succ_self _)
  refine ⟨_, laws.cloneReceiver h.shown hpos h.receivers_fresh.1, h.capacity, fun _ _ _ => h.accepted k pos hpos,
    h.reports, BroadcastHistory.lt_of_move hfresh (Nat.lt_succ_self _), fun k' hk' => ?_, fun k' got hgot => ?_⟩
  · obtain ⟨hnone', hk' | rfl⟩ := hhandles k' hk'
    · obtain ⟨-, pos', hlt', hpos'⟩ := h.handles k' hk'
      exact ⟨hnone', pos', hlt', (BroadcastHistory.move_of_ne (hne hpos') _).trans hpos'⟩
    · exact ⟨hnone', pos, hlt, BroadcastHistory.move_self _ _⟩
  · rcases hstreams k' got hgot with hgot | ⟨rfl, rfl⟩
    · obtain ⟨pos', hpos', hfollows⟩ := h.streams k' got hgot
      exact ⟨pos', (BroadcastHistory.move_of_ne (hne hpos') _).trans hpos', hfollows⟩
    · exact ⟨pos, BroadcastHistory.move_self _ _, List.nil_sublist _, fun heq => absurd heq hlt.ne⟩

/-- A receiver is dropped. -/
theorem dropReceiver (h : Inv shows c w) (laws : BroadcastLaws shows) {pos₀ : ℕ} (hpos₀ : w.position k = some pos₀)
    {handles : Finset ℕ} {streams : ℕ → Option (List Events.Progress)}
    (hhandles : ∀ k' ∈ handles, k' ≠ k ∧ k' ∈ c.handles)
    (hstreams : ∀ k' got, streams k' = some got → k' ≠ k ∧ c.streams k' = some got) :
    ∃ w', Inv shows
      { c with channel := BroadcastChannel.dropReceiver c.channel k, handles := handles, streams := streams } w' := by
  obtain ⟨closed, hshown, hclosed⟩ := laws.dropReceiver h.shown hpos₀
  refine ⟨_, hshown, h.capacity, fun k' pos hpos => ?_, h.reports,
    BroadcastHistory.lt_of_move h.fresh (h.fresh k pos₀ hpos₀), fun k' hk' => ?_, fun k' got hgot => ?_⟩
  · obtain ⟨hk, hpos⟩ := eq_some_of_update hpos
    obtain ⟨hsent, hopen⟩ := h.accepted k' pos hpos
    exact ⟨hsent, fun hs => (hclosed (.inr ⟨k', hk, pos, hpos⟩)).trans (hopen hs)⟩
  · obtain ⟨hne, hk'⟩ := hhandles k' hk'
    obtain ⟨hnone, pos, hlt, hpos⟩ := h.handles k' hk'
    refine ⟨Option.eq_none_iff_forall_ne_some.mpr fun got hgot => ?_, pos, hlt,
      (BroadcastHistory.move_of_ne hne _).trans hpos⟩
    cases hnone.symm.trans (hstreams k' got hgot).2
  · obtain ⟨hne, hgot⟩ := hstreams k' got hgot
    obtain ⟨pos, hpos, hfollows⟩ := h.streams k' got hgot
    exact ⟨pos, (BroadcastHistory.move_of_ne hne _).trans hpos, hfollows⟩

omit [BroadcastChannel C ℕ Events.Progress] in
/-- What the receiver of a stream gets: the last report, or nothing when the stream has had it. -/
theorem next (h : Inv shows c w) {pos pos' : ℕ} {r : Except RecvRefused Events.Progress}
    (hpos : w.position k = some pos) (hfollows : Follows c.reports pos got) (hreads : w.ReadsOn pos r pos') :
    Follows c.reports pos' (got ++ r.toOption.toList) ∧
      ((∃ report, c.reports.getLast? = some report ∧ r.toOption = some report) ∨
        r.toOption = none ∧ got ≠ [] ∧ got.getLast? = c.reports.getLast?) := by
  obtain ⟨hsent, -⟩ := h.accepted k pos hpos
  cases hreads with
  | @message i report hle hreport hkept =>
    -- only the last report is kept
    rw [hsent] at hreport hkept
    rw [h.capacity] at hkept
    have hlt := (List.getElem?_eq_some_iff.mp hreport).1
    have hlast : c.reports.getLast? = some report := by
      rw [List.getLast?_eq_getElem?, show c.reports.length - 1 = i by omega]
      exact hreport
    refine ⟨⟨?_, fun _ => ?_⟩, .inl ⟨report, hlast, rfl⟩⟩
    · rw [List.take_add_one, hreport]
      exact (hfollows.sublist.trans (List.take_sublist_take_left hle)).append (.refl _)
    · rw [hlast]
      exact List.getLast?_concat
  | refused hend =>
    have hlast := hfollows.last (hsent ▸ hend)
    refine ⟨by simpa [Except.toOption] using hfollows, .inr ⟨rfl, ?_, hlast⟩⟩
    rintro rfl
    exact h.reports (List.getLast?_eq_none_iff.mp hlast.symm)

/-- A stream is asked for its next report. -/
theorem poll (h : Inv shows c w) (laws : BroadcastLaws shows) (hgot : c.streams k = some got) :
    ∃ c' w', c.step (.poll k) = some c' ∧ Inv shows c' w' ∧
      ((∃ report, c.reports.getLast? = some report ∧ c'.streams k = some (got ++ [report])) ∨
        c'.streams k = some got ∧ got ≠ [] ∧ got.getLast? = c.reports.getLast?) := by
  obtain ⟨pos, hpos, hfollows⟩ := h.streams k got hgot
  obtain ⟨r, channel, pos', hpoll, hreads, hshown⟩ := laws.pollNext h.shown hpos
  obtain ⟨hfollows', hr⟩ := h.next hpos hfollows hreads
  have hstep : c.step (.poll k) = some { c with
      channel := channel
      streams := Function.update c.streams k (some (got ++ r.toOption.toList)) } := by
    simp only [step, hgot, hpoll, Option.bind_some, Option.map_some]
  refine ⟨_, w.move k (some pos'), hstep,
    ⟨hshown, h.capacity, fun _ _ _ => h.accepted k pos hpos, h.reports,
      BroadcastHistory.lt_of_move h.fresh (h.fresh k pos hpos), fun k' hk' => ?_, fun k' got' hgot' => ?_⟩, ?_⟩
  · obtain ⟨hnone, pos'', hlt, hpos''⟩ := h.handles k' hk'
    have hk : k' ≠ k := by
      rintro rfl
      cases hnone.symm.trans hgot
    exact ⟨(Function.update_of_ne hk _ _).trans hnone, pos'', hlt, (BroadcastHistory.move_of_ne hk _).trans hpos''⟩
  · by_cases hk : k' = k
    · subst hk
      cases (Function.update_self k' _ _).symm.trans hgot'
      exact ⟨pos', BroadcastHistory.move_self _ _, hfollows'⟩
    · obtain ⟨pos'', hpos'', hfollows''⟩ := h.streams k' got' ((Function.update_of_ne hk _ _).symm.trans hgot')
      exact ⟨pos'', (BroadcastHistory.move_of_ne hk _).trans hpos'', hfollows''⟩
  · have hself : Function.update c.streams k (some (got ++ r.toOption.toList)) k =
        some (got ++ r.toOption.toList) := Function.update_self ..
    rcases hr with ⟨report, hlast, hsome⟩ | ⟨hnone, hne, hlast⟩
    · exact .inl ⟨report, hlast, hself.trans (by rw [hsome]; rfl)⟩
    · exact .inr ⟨hself.trans (by simp [hnone]), hne, hlast⟩

/-- **A step keeps the invariant.** -/
theorem step (h : Inv shows c w) (laws : BroadcastLaws shows) (hstep : c.step turn = some c') :
    ∃ w', Inv shows c' w' := by
  cases turn with
  | report progress =>
    simp only [ProgressChannel.step] at hstep
    split_ifs at hstep with hsender
    cases hstep
    exact h.report laws hsender progress
  | dropSender =>
    simp only [ProgressChannel.step] at hstep
    split_ifs at hstep with hsender
    cases hstep
    exact ⟨w.close, laws.close h.shown, h.capacity, fun k pos hpos => ⟨(h.accepted k pos hpos).1, nofun⟩, h.reports,
      h.fresh, h.handles, h.streams⟩
  | cloneHandle k =>
    simp only [ProgressChannel.step] at hstep
    split_ifs at hstep with hk
    cases hstep
    refine h.addReceiver laws hk (fun k' hk' => ?_) fun k' got hgot => .inl hgot
    rcases Finset.mem_insert.mp hk' with rfl | hk'
    · exact ⟨h.receivers_fresh.2.2, .inr rfl⟩
    · exact ⟨(h.handles k' hk').1, .inl hk'⟩
  | dropHandle k =>
    simp only [ProgressChannel.step] at hstep
    split_ifs at hstep with hk
    cases hstep
    obtain ⟨hnone, pos, -, hpos⟩ := h.handles k hk
    refine h.dropReceiver laws hpos (fun k' hk' => Finset.mem_erase.mp hk') fun k' got hgot => ⟨?_, hgot⟩
    rintro rfl
    cases hnone.symm.trans hgot
  | progress k =>
    simp only [ProgressChannel.step] at hstep
    split_ifs at hstep with hk
    cases hstep
    refine h.addReceiver laws hk (fun k' hk' => ⟨?_, .inl hk'⟩) fun k' got hgot => ?_
    · have hne : k' ≠ c.receivers := fun heq => h.receivers_fresh.2.1 (heq ▸ hk')
      exact (Function.update_of_ne hne _ _).trans (h.handles k' hk').1
    · by_cases hne : k' = c.receivers
      · subst hne
        cases (Function.update_self c.receivers _ _).symm.trans hgot
        exact .inr ⟨rfl, rfl⟩
      · exact .inl ((Function.update_of_ne hne _ _).symm.trans hgot)
  | poll k =>
    obtain ⟨got, hgot, -⟩ := Option.bind_eq_some_iff.mp hstep
    obtain ⟨c'', w', hstep', h', -⟩ := h.poll laws hgot
    cases hstep.symm.trans hstep'
    exact ⟨w', h'⟩
  | drop k =>
    obtain ⟨got, hgot, rfl⟩ := Option.map_eq_some_iff.mp hstep
    obtain ⟨pos, hpos, -⟩ := h.streams k got hgot
    refine h.dropReceiver laws hpos (fun k' hk' => ⟨?_, hk'⟩) fun k' got' => eq_some_of_update
    rintro rfl
    cases (h.handles k' hk').1.symm.trans hgot

end Inv

theorem inv_new (laws : BroadcastLaws shows) (now : Events.Instant) : ∃ w, Inv shows (new now) w := by
  have hshown := laws.subscribe (laws.new Nat.one_pos false) (k := 0) rfl
  obtain ⟨channel, hsend⟩ := laws.accepts hshown rfl (BroadcastHistory.move_self 0 _) (.new 0 none now)
  have hchannel : (new now : ProgressChannel C).channel = channel := by
    unfold new broadcast
    rw [hsend]
  have hzero {k pos : ℕ}
      (hpos : ((BroadcastHistory.new 1 false : BroadcastHistory ℕ Events.Progress).move 0 (some 0)).position k =
        some pos) : k = 0 := by
    by_contra hk
    cases (BroadcastHistory.move_of_ne hk _).symm.trans hpos
  refine ⟨_, hchannel ▸ laws.tryBroadcast hshown hsend, rfl, fun _ _ _ => ⟨rfl, fun _ => rfl⟩, by simp [new],
    fun k pos hpos => ?_, fun k hk => ?_, nofun⟩
  · rw [hzero hpos]
    exact Nat.one_pos
  · rw [Finset.mem_singleton.mp hk]
    exact ⟨rfl, 0, Nat.one_pos, rfl⟩

theorem exists_inv (laws : BroadcastLaws shows) (hc : c.Reachable) : ∃ w, Inv shows c w := by
  refine Machine.Reachable.induct (P := fun c => ∃ w, Inv shows c w) ?_ ?_ hc
  · intro c h'
    obtain ⟨now, rfl⟩ := h'
    exact inv_new laws now
  · intro c turn c' _ h' hstep
    obtain ⟨w, h⟩ := h'
    exact h.step laws hstep

/-- **Whoever asks for the progress of a download gets the latest.** In every run, however handles are cloned and
dropped and streams are made, read and dropped between the reports: a stream has yielded a part of the reports, in
order. When it is asked for the next, it yields the latest, or nothing if that is what it has yielded last; so a stream
that is new yields the latest at once. -/
theorem progress_latest (laws : BroadcastLaws shows) (hc : c.Reachable) (hgot : c.streams k = some got) :
    got.Sublist c.reports ∧ ∃ report, c.reports.getLast? = some report ∧ ∃ c', c.step (.poll k) = some c' ∧
      (c'.streams k = some (got ++ [report]) ∨ c'.streams k = some got ∧ got.getLast? = some report) := by
  obtain ⟨w, h⟩ := exists_inv laws hc
  obtain ⟨pos, hpos, hfollows⟩ := h.streams k got hgot
  obtain ⟨report, hreport⟩ := Option.ne_none_iff_exists'.mp (mt List.getLast?_eq_none_iff.mp h.reports)
  obtain ⟨c', w', hc', -, hnext⟩ := h.poll laws hgot
  refine ⟨hfollows.sublist.trans (List.take_sublist _ _), report, hreport, c', hc', ?_⟩
  rcases hnext with ⟨report', hlast, hgot'⟩ | ⟨hgot', -, hlast⟩
  · cases hreport.symm.trans hlast
    exact .inl hgot'
  · exact .inr ⟨hgot', hlast.trans hreport⟩

/-- A stream is made, and a worker that goes on at 40 bytes of 100 reports. -/
def resumedAt40 : List Turn := [.progress 0, .report (.new 40 (some 100) 5)]

/-- A stream that has a report to read. -/
theorem progress_latest_resumedAt40 :
    ∃ (c : ProgressChannel (BroadcastQueue ℕ Events.Progress)) (got : List Events.Progress),
      Machine.exec step (.new 0) resumedAt40 = some c ∧ c.streams 1 = some got ∧
      got.Sublist c.reports ∧ ∃ report, c.reports.getLast? = some report ∧ ∃ c', c.step (.poll 1) = some c' ∧
        (c'.streams 1 = some (got ++ [report]) ∨ c'.streams 1 = some got ∧ got.getLast? = some report) := by
  have h : (Machine.exec step (.new 0 : ProgressChannel (BroadcastQueue ℕ Events.Progress)) resumedAt40).any
      fun c => (c.streams 1).isSome = true := by decide +kernel
  obtain ⟨c, hc, hsome⟩ := Machine.exists_exec_of_any _ h
  obtain ⟨got, hgot⟩ := Option.isSome_iff_exists.mp hsome
  exact ⟨c, got, hc, hgot, progress_latest BroadcastQueue.shows_laws (.exec (.init ⟨0, rfl⟩) hc) hgot⟩

end ProgressChannel

end DownloadManager
