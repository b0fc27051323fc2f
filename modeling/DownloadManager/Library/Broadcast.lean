import Mathlib.Data.Nat.Basic
import Mathlib.Logic.Function.Basic
import Mathlib.Order.Basic

/-!
# Broadcast channels

A bounded queue of messages that every receiver reads at its own pace, and whose oldest message
gives way to a new one when it is full. Without receivers nothing is accepted.

Such a channel is any type with the operations of `BroadcastChannel`. What it is to do is told by
its history: the messages accepted so far, counted from the first one, and for each receiver
the number of the message it reads next. `BroadcastLaws` names what is relied upon, one law for
an operation. `Account` is what one receiver has read: messages in order, none twice, and all
but those it was told it had missed.
-/

/-- Why a message was not accepted. -/
inductive BroadcastRefused where
  /-- The channel is closed. -/
  | closed
  /-- Nobody listens. -/
  | inactive
  deriving DecidableEq, Repr

/-- Why no message was received. -/
inductive RecvRefused where
  /-- Some messages are gone. -/
  | overflowed (missed : ℕ)
  /-- There is none yet. -/
  | empty
  /-- There will be none. -/
  | closed
  deriving DecidableEq, Repr

/-- The operations of a channel, whose receivers go by names. -/
class BroadcastChannel (C : Type*) (ι α : outParam Type*) where
  /-- A channel without receivers, which stays open so if it is guarded. -/
  new (capacity : ℕ) (guarded : Bool) : C
  /-- A new receiver, for the messages to come. -/
  subscribe : C → ι → C
  /-- A new receiver, for the messages another one has not read. -/
  cloneReceiver : C → ι → ι → C
  /-- One receiver less. -/
  dropReceiver : C → ι → C
  /-- Refuse messages from now on. -/
  close : C → C
  /-- Send without waiting. -/
  tryBroadcast : C → α → Except BroadcastRefused C
  /-- Receive without waiting; nothing is returned to whoever is no receiver. -/
  tryRecv : C → ι → Option (Except RecvRefused α × C)
  /-- Receive without waiting, and go on with what is left if messages were missed. -/
  pollNext : C → ι → Option (Except RecvRefused α × C)

/-- What is left when one of many goes. -/
theorem eq_some_of_update {ι α : Type*} [DecidableEq ι] {f : ι → Option α} {k k' : ι} {a : α}
    (h : Function.update f k none k' = some a) : k' ≠ k ∧ f k' = some a := by
  by_cases hk : k' = k
  · subst hk
    cases (Function.update_self k' _ _).symm.trans h
  · exact ⟨hk, (Function.update_of_ne hk _ _).symm.trans h⟩

/-- What has happened on a channel. -/
structure BroadcastHistory (ι α : Type*) where
  /-- The messages accepted. -/
  sent : List α
  /-- How many of them are kept. -/
  capacity : ℕ
  /-- Whether the channel stays open without receivers. -/
  guarded : Bool
  /-- Whether messages are refused. -/
  closed : Bool
  /-- The number of the message each receiver reads next. -/
  position : ι → Option ℕ

namespace BroadcastHistory

variable {ι α : Type*} (h : BroadcastHistory ι α)

/-- Nothing has happened yet. -/
def new (capacity : ℕ) (guarded : Bool) : BroadcastHistory ι α := ⟨[], capacity, guarded, false, fun _ => none⟩

/-- A message is accepted. -/
def send (message : α) : BroadcastHistory ι α := { h with sent := h.sent ++ [message] }

/-- No more messages are. -/
def close : BroadcastHistory ι α := { h with closed := true }

variable [DecidableEq ι]

/-- A receiver is somewhere else, or no more. -/
def move (k : ι) (pos? : Option ℕ) : BroadcastHistory ι α := { h with position := Function.update h.position k pos? }

variable {h} {k k' : ι}

@[simp] theorem move_self (k : ι) (pos? : Option ℕ) : (h.move k pos?).position k = pos? := Function.update_self k _ _

theorem move_of_ne (hk : k' ≠ k) (pos? : Option ℕ) : (h.move k pos?).position k' = h.position k' :=
  Function.update_of_ne hk _ _

theorem move_eq_self {pos? : Option ℕ} (hpos : h.position k = pos?) : h.move k pos? = h := by
  subst hpos
  unfold move
  rw [Function.update_eq_self]

@[simp] theorem move_move (k : ι) (pos? pos?' : Option ℕ) : (h.move k pos?).move k pos?' = h.move k pos?' := by
  unfold move
  rw [Function.update_idem]

/-- The names of the receivers stay below a bound. -/
theorem lt_of_move [LT ι] {n : ι} {pos? : Option ℕ} (hfresh : ∀ k pos, h.position k = some pos → k < n) (hk : k < n)
    (k' : ι) (pos : ℕ) (hpos : (h.move k pos?).position k' = some pos) : k' < n := by
  by_cases hne : k' = k
  · exact hne ▸ hk
  · exact hfresh k' pos ((move_of_ne hne _).symm.trans hpos)

/-- What a receiver gets that is about to read number `pos`, and where it goes on. -/
inductive Reads (h : BroadcastHistory ι α) (pos : ℕ) : Except RecvRefused α → ℕ → Prop
  /-- The message with that number. -/
  | message {message : α} (hget : h.sent[pos]? = some message) : Reads h pos (.ok message) (pos + 1)
  /-- It is gone, since there were too many to read. -/
  | overflowed {n : ℕ} (hlate : pos + h.capacity < h.sent.length) : Reads h pos (.error (.overflowed n)) (pos + n)
  /-- There is no such message yet. -/
  | empty (hend : pos = h.sent.length) : Reads h pos (.error .empty) pos
  /-- There will be no such message. -/
  | closed (hend : pos = h.sent.length) (hclosed : h.closed = true) : Reads h pos (.error .closed) pos

/-- The same for a receiver that goes on with what is left: it gets one of the last messages, or has had them all. -/
inductive ReadsOn (h : BroadcastHistory ι α) (pos : ℕ) : Except RecvRefused α → ℕ → Prop
  /-- One that is still kept. -/
  | message {i : ℕ} {message : α} (hle : pos ≤ i) (hget : h.sent[i]? = some message)
    (hkept : h.sent.length ≤ i + h.capacity) : ReadsOn h pos (.ok message) (i + 1)
  /-- There is none, for now or for good. -/
  | refused {refused : RecvRefused} (hend : pos = h.sent.length) : ReadsOn h pos (.error refused) pos

end BroadcastHistory

section Laws

variable {C ι α : Type*} [DecidableEq ι] [BroadcastChannel C ι α]

/-- What is relied upon: `shows c h` says that `h` is what has happened on `c`, and every operation adds to it what it
is there for. -/
structure BroadcastLaws (shows : C → BroadcastHistory ι α → Prop) : Prop where
  /-- A channel is made, with room for messages. -/
  new : ∀ {capacity}, 0 < capacity → ∀ guarded, shows (BroadcastChannel.new capacity guarded) (.new capacity guarded)
  /-- Nobody has read what is to come. -/
  position_le : ∀ {c h}, shows c h → ∀ {k pos}, h.position k = some pos → pos ≤ h.sent.length
  /-- A new receiver reads what is sent from now on. -/
  subscribe : ∀ {c h}, shows c h → ∀ {k}, h.position k = none →
    shows (BroadcastChannel.subscribe c k) (h.move k (some h.sent.length))
  /-- A clone reads what the original is to read. -/
  cloneReceiver : ∀ {c h}, shows c h → ∀ {k k' pos}, h.position k = some pos → h.position k' = none →
    shows (BroadcastChannel.cloneReceiver c k k') (h.move k' (some pos))
  /-- The last receiver that goes may close the channel, but not if it is guarded. -/
  dropReceiver : ∀ {c h}, shows c h → ∀ {k pos}, h.position k = some pos → ∃ closed,
    shows (BroadcastChannel.dropReceiver c k) { h.move k none with closed := closed } ∧
      (h.guarded = true ∨ (∃ k' ≠ k, ∃ pos', h.position k' = some pos') → closed = h.closed)
  /-- A closed channel refuses messages. -/
  close : ∀ {c h}, shows c h → shows (BroadcastChannel.close c) h.close
  /-- An open one accepts every message as long as someone listens. -/
  accepts : ∀ {c h}, shows c h → h.closed = false → ∀ {k pos}, h.position k = some pos → ∀ message,
    ∃ c', BroadcastChannel.tryBroadcast c message = .ok c'
  /-- What is accepted is sent to all. -/
  tryBroadcast : ∀ {c h}, shows c h → ∀ {message c'}, BroadcastChannel.tryBroadcast c message = .ok c' →
    shows c' (h.send message)
  /-- A receiver gets the next message, unless it comes too late or too early. -/
  tryRecv : ∀ {c h}, shows c h → ∀ {k pos}, h.position k = some pos → ∃ r c' pos',
    BroadcastChannel.tryRecv c k = some (r, c') ∧ h.Reads pos r pos' ∧ shows c' (h.move k (some pos'))
  /-- Or it goes on with what is left. -/
  pollNext : ∀ {c h}, shows c h → ∀ {k pos}, h.position k = some pos → ∃ r c' pos',
    BroadcastChannel.pollNext c k = some (r, c') ∧ h.ReadsOn pos r pos' ∧ shows c' (h.move k (some pos'))

end Laws

/-- What one receiver has read: it was made at `since` and is now at `pos`. -/
structure BroadcastAccount {α : Type*} (sent : List α) (since pos : ℕ) (got : List α) (missed : ℕ) : Prop where
  /-- It does not go back. -/
  since_le : since ≤ pos
  /-- It has read messages that were sent meanwhile, in order. -/
  sublist : got.Sublist ((sent.take pos).drop since)
  /-- It has been told how many it has missed. -/
  length : got.length + missed = pos - since

namespace BroadcastAccount

variable {α : Type*} {sent got : List α} {since pos missed : ℕ}

/-- A new receiver. -/
theorem new (sent : List α) (pos : ℕ) : BroadcastAccount sent pos pos [] 0 := ⟨le_rfl, List.nil_sublist _, by simp⟩

/-- More messages are sent. -/
theorem append (h : BroadcastAccount sent since pos got missed) (hpos : pos ≤ sent.length) (new : List α) :
    BroadcastAccount (sent ++ new) since pos got missed := by
  refine ⟨h.since_le, ?_, h.length⟩
  rw [List.take_append_of_le_length hpos]
  exact h.sublist

/-- A message is read. -/
theorem message (h : BroadcastAccount sent since pos got missed) {message : α} (hmessage : sent[pos]? = some message) :
    BroadcastAccount sent since (pos + 1) (got ++ [message]) missed := by
  have hle := h.since_le
  have hlt := (List.getElem?_eq_some_iff.mp hmessage).1
  refine ⟨hle.trans (Nat.le_succ _), ?_, ?_⟩
  · rw [List.take_add_one, hmessage, Option.toList_some, List.drop_append_of_le_length (by simp; omega)]
    exact h.sublist.append (List.Sublist.refl _)
  · have := h.length
    rw [List.length_append, List.length_singleton]
    omega

/-- Some messages are missed. -/
theorem overflowed (h : BroadcastAccount sent since pos got missed) (n : ℕ) :
    BroadcastAccount sent since (pos + n) got (missed + n) := by
  have hle := h.since_le
  refine ⟨hle.trans (Nat.le_add_right _ _), h.sublist.trans ?_, ?_⟩
  · rw [List.take_add, List.drop_append]
    exact (List.sublist_append_left _ _)
  · have := h.length
    omega

/-- Whoever has missed nothing has read everything. -/
theorem eq_of_missed (h : BroadcastAccount sent since pos got 0) (hpos : pos ≤ sent.length) :
    got = (sent.take pos).drop since := by
  refine h.sublist.eq_of_length ?_
  have := h.length
  simp
  omega

end BroadcastAccount
