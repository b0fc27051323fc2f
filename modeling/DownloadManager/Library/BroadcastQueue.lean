import DownloadManager.Library.Broadcast
import Mathlib.Data.List.AList

/-!
# A queue that is a broadcast channel

The channel is a queue of the messages still to be read. `head` is the number of the oldest one
kept, and every receiver is a cursor. A message is given up when every receiver has read it, or
for a newer one when the queue is full; a receiver that comes too late goes on with the oldest
one kept.

`Carries` says how a queue comes from the messages it has accepted, and each operation keeps it;
`shows_laws` puts the operations together.
-/

/-- A channel as a queue, with its receivers by name. -/
structure BroadcastQueue (ι α : Type*) where
  /-- The messages kept, oldest first. -/
  queue : List α
  /-- The number of the oldest one. -/
  head : ℕ
  /-- How many there can be. -/
  capacity : ℕ
  /-- Whether messages are refused. -/
  closed : Bool
  /-- Whether the channel stays open without receivers. -/
  guarded : Bool
  /-- The number of the message each receiver reads next. -/
  cursors : AList fun _ : ι => ℕ

namespace BroadcastQueue

/-- The messages left, when those are given up that nobody waits for. -/
def dropRead {α : Type*} (waiting : ℕ → Bool) : ℕ → List α → ℕ × List α
  | head, [] => (head, [])
  | head, message :: queue =>
    if waiting head then (head, message :: queue) else dropRead waiting (head + 1) queue

theorem dropRead_spec {α : Type*} (waiting : ℕ → Bool) (head : ℕ) (queue : List α) :
    ∃ n ≤ queue.length, dropRead waiting head queue = (head + n, queue.drop n) ∧
      ∀ i < n, waiting (head + i) = false := by
  induction queue generalizing head with
  | nil => exact ⟨0, le_rfl, rfl, nofun⟩
  | cons message queue ih =>
    unfold dropRead
    split_ifs with hwaiting
    · exact ⟨0, Nat.zero_le _, rfl, nofun⟩
    · obtain ⟨n, hn, heq, hread⟩ := ih (head + 1)
      refine ⟨n + 1, Nat.succ_le_succ hn, by rw [heq, List.drop_succ_cons, Nat.add_right_comm, Nat.add_assoc], ?_⟩
      rintro (_ | i) hi
      · simpa using hwaiting
      · rw [← Nat.add_assoc, Nat.add_right_comm]
        exact hread i (Nat.lt_of_succ_lt_succ hi)

variable {ι α : Type*} (c : BroadcastQueue ι α)

/-- A channel without receivers. -/
def new (capacity : ℕ) (guarded : Bool) : BroadcastQueue ι α := ⟨[], 0, capacity, false, guarded, ∅⟩

/-- The number of the next message. -/
def tail : ℕ := c.head + c.queue.length

/-- Whether some receiver has not read a message. -/
def waiting (pos : ℕ) : Bool := c.cursors.entries.any fun entry => entry.2 ≤ pos

/-- Give up the messages every receiver has read. -/
def release : BroadcastQueue ι α :=
  let kept := dropRead c.waiting c.head c.queue
  { c with head := kept.1, queue := kept.2 }

/-- Send without waiting; a full queue gives up its oldest message. -/
def tryBroadcast (message : α) : Except BroadcastRefused (BroadcastQueue ι α) :=
  if c.closed then .error .closed
  else if c.cursors.entries.isEmpty then .error .inactive
  else if c.queue.length < c.capacity then .ok { c with queue := c.queue ++ [message] }
  else .ok { c with queue := c.queue.tail ++ [message], head := c.head + 1 }

/-- Refuse messages from now on. -/
def close : BroadcastQueue ι α := { c with closed := true }

variable [DecidableEq ι]

/-- A new receiver, for the messages to come. -/
def subscribe (k : ι) : BroadcastQueue ι α := { c with cursors := c.cursors.insert k c.tail }

/-- A new receiver, for the messages another one has not read. -/
def cloneReceiver (k k' : ι) : BroadcastQueue ι α :=
  match c.cursors.lookup k with
  | some pos => { c with cursors := c.cursors.insert k' pos }
  | none => c

/-- One receiver less; the last one closes the channel, unless it is guarded. -/
def dropReceiver (k : ι) : BroadcastQueue ι α :=
  let c := { c with cursors := c.cursors.erase k }.release
  { c with closed := c.closed || (c.cursors.entries.isEmpty && !c.guarded) }

/-- Receive without waiting; a closed channel still yields what it has. -/
def tryRecv (k : ι) : Option (Except RecvRefused α × BroadcastQueue ι α) :=
  match c.cursors.lookup k with
  | none => none
  | some pos =>
    if pos < c.head then some (.error (.overflowed (c.head - pos)), { c with cursors := c.cursors.insert k c.head })
    else
      match c.queue[pos - c.head]? with
      | some message => some (.ok message, { c with cursors := c.cursors.insert k (pos + 1) }.release)
      | none => some (.error (if c.closed then .closed else .empty), c)

/-! ### What the channel carries -/

variable {c} {c' : BroadcastQueue ι α} {sent : List α} {k : ι} {pos : ℕ}

omit [DecidableEq ι] in
@[simp] theorem release_cursors (c : BroadcastQueue ι α) : c.release.cursors = c.cursors := rfl

omit [DecidableEq ι] in
@[simp] theorem release_capacity (c : BroadcastQueue ι α) : c.release.capacity = c.capacity := rfl

omit [DecidableEq ι] in
@[simp] theorem release_closed (c : BroadcastQueue ι α) : c.release.closed = c.closed := rfl

theorem waiting_eq_false (h : c.waiting pos = false) {p : ℕ} (hp : c.cursors.lookup k = some p) : pos < p := by
  have hmem := AList.mem_lookup_iff.mp (Option.mem_def.mpr hp)
  simpa using (List.any_eq_false.mp h) _ hmem

theorem isEmpty_cursors (hpos : c.cursors.lookup k = some pos) : c.cursors.entries.isEmpty = false := by
  have hmem := AList.mem_lookup_iff.mp (Option.mem_def.mpr hpos)
  cases hentries : c.cursors.entries with
  | nil => simp [hentries] at hmem
  | cons => rfl

/-- An open channel with a receiver accepts every message. -/
theorem exists_tryBroadcast (hopen : c.closed = false) (hpos : c.cursors.lookup k = some pos) (message : α) :
    ∃ c', c.tryBroadcast message = .ok c' := by
  unfold tryBroadcast
  simp only [hopen, isEmpty_cursors hpos, if_neg Bool.false_ne_true]
  split_ifs
  · exact ⟨_, rfl⟩
  · exact ⟨_, rfl⟩

@[simp] theorem dropReceiver_cursors (c : BroadcastQueue ι α) (k : ι) :
    (c.dropReceiver k).cursors = c.cursors.erase k := rfl

/-- A guarded channel is not closed by its last receiver. -/
theorem dropReceiver_closed (hguarded : c.guarded = true) (k : ι) : (c.dropReceiver k).closed = c.closed := by
  have hguarded' : ({ c with cursors := c.cursors.erase k } : BroadcastQueue ι α).release.guarded = true := hguarded
  simp [dropReceiver, hguarded']

/-- Nor is it closed as long as another receiver is left. -/
theorem dropReceiver_closed_of_lookup {k' : ι} (hpos : (c.dropReceiver k).cursors.lookup k' = some pos) :
    (c.dropReceiver k).closed = c.closed := by
  have hsome : (c.cursors.erase k).entries.isEmpty = false := isEmpty_cursors (c := c.dropReceiver k) hpos
  simp [dropReceiver, hsome]

theorem cloneReceiver_eq (hpos : c.cursors.lookup k = some pos) (k' : ι) :
    c.cloneReceiver k k' = { c with cursors := c.cursors.insert k' pos } := by
  unfold cloneReceiver
  rw [hpos]

/-- A channel and the messages it has accepted. -/
structure Carries (c : BroadcastQueue ι α) (sent : List α) : Prop where
  /-- There can be messages. -/
  capacity_pos : 0 < c.capacity
  /-- The last ones are kept. -/
  queue_eq : c.queue = sent.drop c.head
  /-- Those given up were accepted. -/
  head_le : c.head ≤ sent.length
  /-- There is room for those kept. -/
  room : c.queue.length ≤ c.capacity
  /-- Nobody has read what is to come. -/
  cursor_le : ∀ {k pos}, c.cursors.lookup k = some pos → pos ≤ sent.length
  /-- Who has missed messages had more to read than there is room for, and has not missed all. -/
  late : ∀ {k pos}, c.cursors.lookup k = some pos → pos < c.head → pos + c.capacity < sent.length ∧ c.head < sent.length

namespace Carries

theorem tail_eq (h : c.Carries sent) : c.tail = sent.length := by
  rw [tail, h.queue_eq, List.length_drop]
  have := h.head_le
  omega

theorem new {capacity : ℕ} (hcapacity : 0 < capacity) (guarded : Bool) :
    (new capacity guarded : BroadcastQueue ι α).Carries [] where
  capacity_pos := hcapacity
  queue_eq := rfl
  head_le := le_rfl
  room := Nat.zero_le _
  cursor_le h := by simp [BroadcastQueue.new] at h
  late h := by simp [BroadcastQueue.new] at h

theorem close (h : c.Carries sent) : c.close.Carries sent := ⟨h.1, h.2, h.3, h.4, h.5, h.6⟩

/-- Cursors may be changed, as long as nobody is moved back to what is gone. -/
theorem move (h : c.Carries sent) {cursors : AList fun _ : ι => ℕ}
    (hcursors : ∀ k pos, cursors.lookup k = some pos →
      c.cursors.lookup k = some pos ∨
        pos ≤ sent.length ∧ (pos < c.head → pos + c.capacity < sent.length ∧ c.head < sent.length)) :
    { c with cursors := cursors }.Carries sent where
  capacity_pos := h.capacity_pos
  queue_eq := h.queue_eq
  head_le := h.head_le
  room := h.room
  cursor_le hpos := (hcursors _ _ hpos).elim h.cursor_le fun hnew => hnew.1
  late hpos := (hcursors _ _ hpos).elim h.late fun hnew => hnew.2

theorem insert (h : c.Carries sent) (hle : pos ≤ sent.length)
    (hlate : pos < c.head → pos + c.capacity < sent.length ∧ c.head < sent.length) :
    { c with cursors := c.cursors.insert k pos }.Carries sent := by
  refine h.move fun k' pos' hpos' => ?_
  by_cases hk : k' = k
  · subst hk
    rw [AList.lookup_insert, Option.some.injEq] at hpos'
    subst hpos'
    exact .inr ⟨hle, hlate⟩
  · rw [AList.lookup_insert_ne hk] at hpos'
    exact .inl hpos'

theorem release (h : c.Carries sent) : c.release.Carries sent := by
  obtain ⟨n, hn, heq, hread⟩ := dropRead_spec c.waiting c.head c.queue
  have hhead : c.release.head = c.head + n := congrArg Prod.fst heq
  have hqueue : c.release.queue = c.queue.drop n := congrArg Prod.snd heq
  have htail := h.tail_eq
  unfold tail at htail
  constructor
  · exact h.capacity_pos
  · rw [hqueue, hhead, h.queue_eq, List.drop_drop]
  · omega
  · have := h.room
    rw [hqueue, List.length_drop, release_capacity]
    omega
  · exact h.cursor_le
  · intro k pos hpos hlt
    by_cases hn0 : n = 0
    · subst hn0
      rw [hhead] at hlt ⊢
      exact h.late hpos hlt
    · -- nothing is given up that somebody waits for
      have hpos' : ∀ i < n, c.head + i < pos := fun i hi => waiting_eq_false (hread i hi) hpos
      have := hpos' (n - 1) (by omega)
      omega

theorem subscribe (h : c.Carries sent) (k : ι) : (c.subscribe k).Carries sent :=
  h.insert h.tail_eq.le fun hlt => by
    unfold tail at hlt
    omega

theorem cloneReceiver (h : c.Carries sent) (k k' : ι) : (c.cloneReceiver k k').Carries sent := by
  unfold BroadcastQueue.cloneReceiver
  split
  · exact h.insert (h.cursor_le ‹_›) (h.late ‹_›)
  · exact h

theorem dropReceiver (h : c.Carries sent) (k : ι) : (c.dropReceiver k).Carries sent := by
  have herase : { c with cursors := c.cursors.erase k }.Carries sent := by
    refine h.move fun k' pos hpos => .inl ?_
    by_cases hk : k' = k
    · subst hk
      rw [AList.lookup_erase] at hpos
      cases hpos
    · rwa [AList.lookup_erase_ne hk] at hpos
  obtain ⟨h1, h2, h3, h4, h5, h6⟩ := herase.release
  exact ⟨h1, h2, h3, h4, h5, h6⟩

/-- One more message. -/
theorem tryBroadcast (h : c.Carries sent) {message : α} (hsend : c.tryBroadcast message = .ok c') :
    c'.Carries (sent ++ [message]) ∧ c'.cursors = c.cursors ∧ c'.capacity = c.capacity ∧ c'.closed = c.closed ∧
      c'.guarded = c.guarded := by
  have htail := h.tail_eq
  unfold tail at htail
  have hroom := h.room
  unfold BroadcastQueue.tryBroadcast at hsend
  split_ifs at hsend with hclosed hnobody hlt
  all_goals
    cases hsend
    refine ⟨⟨h.capacity_pos, ?_, ?_, ?_, ?_, ?_⟩, rfl, rfl, rfl, rfl⟩
  · rw [h.queue_eq, List.drop_append_of_le_length h.head_le]
  · simpa using h.head_le.trans (Nat.le_succ _)
  · simpa using Nat.succ_le_of_lt hlt
  · intro k pos hpos
    simpa using (h.cursor_le hpos).trans (Nat.le_succ _)
  · intro k pos hpos hlt
    have := h.late hpos hlt
    rw [List.length_append, List.length_singleton]
    dsimp only
    exact ⟨by omega, by omega⟩
  · have hpos : 0 < c.queue.length := by
      have := h.capacity_pos
      omega
    have hle : c.head + 1 ≤ sent.length := by omega
    rw [List.drop_append_of_le_length hle, h.queue_eq, List.tail_drop]
  · dsimp only
    rw [List.length_append, List.length_singleton]
    omega
  · dsimp only
    have := h.capacity_pos
    rw [List.length_append, List.length_tail, List.length_singleton]
    omega
  · intro k pos hpos
    simpa using (h.cursor_le hpos).trans (Nat.le_succ _)
  · intro k pos hpos hlt'
    have := h.late hpos
    have := h.capacity_pos
    rw [List.length_append, List.length_singleton]
    dsimp only at hlt' ⊢
    exact ⟨by omega, by omega⟩

end Carries

/-- A receiver goes on with what is left when it has missed messages. -/
def pollNext (c : BroadcastQueue ι α) (k : ι) : Option (Except RecvRefused α × BroadcastQueue ι α) :=
  match c.tryRecv k with
  | some (.error (.overflowed _), c) => c.tryRecv k
  | r => r

instance : BroadcastChannel (BroadcastQueue ι α) ι α where
  new := new
  subscribe c := c.subscribe
  cloneReceiver c := c.cloneReceiver
  dropReceiver c := c.dropReceiver
  close := close
  tryBroadcast := tryBroadcast
  tryRecv c := c.tryRecv
  pollNext c := c.pollNext

/-! ### What has happened -/

/-- A queue and its history. -/
structure Shows (c : BroadcastQueue ι α) (w : BroadcastHistory ι α) : Prop where
  /-- It carries what it has accepted. -/
  carries : c.Carries w.sent
  /-- How many messages are kept. -/
  capacity : w.capacity = c.capacity
  /-- Whether it is guarded. -/
  guarded : w.guarded = c.guarded
  /-- Whether it is closed. -/
  closed : w.closed = c.closed
  /-- The cursors are where the receivers are. -/
  position : ∀ k, w.position k = c.cursors.lookup k

namespace Shows

variable {w : BroadcastHistory ι α}

theorem release (h : c.Shows w) : c.release.Shows w :=
  ⟨h.carries.release, h.capacity, h.guarded, h.closed, h.position⟩

theorem insert (h : c.Shows w) (hcarries : { c with cursors := c.cursors.insert k pos }.Carries w.sent) :
    { c with cursors := c.cursors.insert k pos }.Shows (w.move k (some pos)) where
  carries := hcarries
  capacity := h.capacity
  guarded := h.guarded
  closed := h.closed
  position k' := by
    by_cases hk : k' = k
    · subst hk
      rw [BroadcastHistory.move_self, AList.lookup_insert]
    · rw [BroadcastHistory.move_of_ne hk, h.position, AList.lookup_insert_ne hk]

theorem dropReceiver (h : c.Shows w) (k : ι) :
    ∃ closed, (c.dropReceiver k).Shows { w.move k none with closed := closed } ∧
      (w.guarded = true ∨ (∃ k' ≠ k, ∃ pos, w.position k' = some pos) → closed = w.closed) := by
  refine ⟨_, ⟨h.carries.dropReceiver k, h.capacity, h.guarded, rfl, fun k' => ?_⟩, fun hopen => ?_⟩
  · rw [dropReceiver_cursors]
    by_cases hk : k' = k
    · subst hk
      exact (BroadcastHistory.move_self k' none).trans (AList.lookup_erase k' c.cursors).symm
    · rw [AList.lookup_erase_ne hk, ← h.position]
      exact BroadcastHistory.move_of_ne hk none
  · rw [h.closed]
    rcases hopen with hguarded | ⟨k', hk, pos, hpos⟩
    · exact dropReceiver_closed (h.guarded.symm.trans hguarded) k
    · exact dropReceiver_closed_of_lookup ((AList.lookup_erase_ne hk).trans ((h.position k').symm.trans hpos))

/-- Whoever comes too late is told so. -/
theorem tryRecv_of_lt (h : c.Shows w) (hpos : w.position k = some pos) (hlt : pos < c.head) :
    c.tryRecv k = some (.error (.overflowed (c.head - pos)), { c with cursors := c.cursors.insert k c.head }) ∧
      w.Reads pos (.error (.overflowed (c.head - pos))) c.head ∧ c.head < w.sent.length ∧
      { c with cursors := c.cursors.insert k c.head }.Shows (w.move k (some c.head)) := by
  rw [h.position] at hpos
  obtain ⟨hlate, hhead⟩ := h.carries.late hpos hlt
  have hreads : w.Reads pos (.error (.overflowed (c.head - pos))) (pos + (c.head - pos)) :=
    .overflowed (h.capacity.symm ▸ hlate)
  rw [Nat.add_sub_cancel' hlt.le] at hreads
  refine ⟨?_, hreads, hhead, h.insert (h.carries.insert h.carries.head_le fun hlt => absurd hlt (lt_irrefl _))⟩
  unfold BroadcastQueue.tryRecv
  simp only [hpos, if_pos hlt]

/-- Whoever does not gets the next message, if there is one. -/
theorem tryRecv_of_le (h : c.Shows w) (hpos : w.position k = some pos) (hle : c.head ≤ pos) :
    ∃ r c' pos', c.tryRecv k = some (r, c') ∧ (∀ n, r ≠ .error (.overflowed n)) ∧ w.Reads pos r pos' ∧
      w.ReadsOn pos r pos' ∧ c'.Shows (w.move k (some pos')) := by
  have hpos' := (h.position k).symm.trans hpos
  have htail : c.head + c.queue.length = w.sent.length := h.carries.tail_eq
  have hroom := h.carries.room
  have hget : c.queue[pos - c.head]? = w.sent[pos]? := by
    rw [h.carries.queue_eq, List.getElem?_drop, Nat.add_sub_cancel' hle]
  unfold BroadcastQueue.tryRecv
  simp only [hpos', if_neg (Nat.not_lt.mpr hle), hget]
  cases hmessage : w.sent[pos]? with
  | some message =>
    have hlt := (List.getElem?_eq_some_iff.mp hmessage).1
    have hkept : w.sent.length ≤ pos + w.capacity := by
      rw [h.capacity]
      omega
    exact ⟨_, _, pos + 1, rfl, nofun, .message hmessage, .message le_rfl hmessage hkept,
      (h.insert (h.carries.insert hlt fun hlt => absurd hlt (by omega))).release⟩
  | none =>
    have hend : pos = w.sent.length :=
      le_antisymm (h.carries.cursor_le hpos') (List.getElem?_eq_none_iff.mp hmessage)
    have hstay : c.Shows (w.move k (some pos)) := by
      rwa [BroadcastHistory.move_eq_self hpos]
    refine ⟨_, c, pos, rfl, ?_, ?_, .refused hend, hstay⟩
    · split_ifs <;> nofun
    · split_ifs with hclosed
      · exact .closed hend (h.closed.trans hclosed)
      · exact .empty hend

theorem tryRecv (h : c.Shows w) (hpos : w.position k = some pos) :
    ∃ r c' pos', c.tryRecv k = some (r, c') ∧ w.Reads pos r pos' ∧ c'.Shows (w.move k (some pos')) := by
  rcases Nat.lt_or_ge pos c.head with hlt | hle
  · obtain ⟨hrecv, hreads, -, hshows⟩ := h.tryRecv_of_lt hpos hlt
    exact ⟨_, _, _, hrecv, hreads, hshows⟩
  · obtain ⟨r, c', pos', hrecv, -, hreads, -, hshows⟩ := h.tryRecv_of_le hpos hle
    exact ⟨r, c', pos', hrecv, hreads, hshows⟩

theorem pollNext (h : c.Shows w) (hpos : w.position k = some pos) :
    ∃ r c' pos', c.pollNext k = some (r, c') ∧ w.ReadsOn pos r pos' ∧ c'.Shows (w.move k (some pos')) := by
  unfold BroadcastQueue.pollNext
  rcases Nat.lt_or_ge pos c.head with hlt | hle
  · -- it is told what it has missed, and then it is not late any more
    obtain ⟨hrecv, -, hhead, hshows⟩ := h.tryRecv_of_lt hpos hlt
    obtain ⟨r, c', pos', hrecv', -, -, hreads, hshows'⟩ := hshows.tryRecv_of_le (BroadcastHistory.move_self _ _) le_rfl
    rw [BroadcastHistory.move_move] at hshows'
    simp only [hrecv]
    refine ⟨r, c', pos', hrecv', ?_, hshows'⟩
    cases hreads with
    | message hle hget hkept => exact .message (hlt.le.trans hle) hget hkept
    | refused hend => exact absurd hend hhead.ne
  · obtain ⟨r, c', pos', hrecv, hkept, -, hreads, hshows⟩ := h.tryRecv_of_le hpos hle
    refine ⟨r, c', pos', ?_, hreads, hshows⟩
    rw [hrecv]
    split
    · next n _ heq => cases heq; exact absurd rfl (hkept n)
    · rfl

end Shows

/-- **The queue is a broadcast channel.** -/
theorem shows_laws : BroadcastLaws (Shows : BroadcastQueue ι α → BroadcastHistory ι α → Prop) where
  new hcapacity guarded := ⟨.new hcapacity guarded, rfl, rfl, rfl, fun _ => rfl⟩
  position_le h _ _ hpos := h.carries.cursor_le ((h.position _).symm.trans hpos)
  subscribe h k _ := h.carries.tail_eq ▸ h.insert (h.carries.subscribe k)
  cloneReceiver {c w} h k k' pos hpos _ := by
    have hpos' := (h.position k).symm.trans hpos
    have hcarries := h.carries.cloneReceiver k k'
    show (c.cloneReceiver k k').Shows _
    rw [cloneReceiver_eq hpos'] at hcarries ⊢
    exact h.insert hcarries
  dropReceiver h k _ _ := h.dropReceiver k
  close h := ⟨h.carries.close, h.capacity, h.guarded, rfl, h.position⟩
  accepts h hopen k _ hpos := exists_tryBroadcast (h.closed.symm.trans hopen) ((h.position k).symm.trans hpos)
  tryBroadcast h _ _ hsend := by
    obtain ⟨hcarries, hcursors, hcapacity, hclosed, hguarded⟩ := h.carries.tryBroadcast hsend
    exact ⟨hcarries, h.capacity.trans hcapacity.symm, h.guarded.trans hguarded.symm, h.closed.trans hclosed.symm,
      fun k => (h.position k).trans (congrArg (AList.lookup k) hcursors.symm)⟩
  tryRecv h _ _ hpos := h.tryRecv hpos
  pollNext h _ _ hpos := h.pollNext hpos

end BroadcastQueue
