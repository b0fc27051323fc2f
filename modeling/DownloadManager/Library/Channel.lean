import Mathlib.Data.List.Basic

/-!
# Bounded channels

A bounded queue between any number of senders and receivers, with the life of its
endpoints. A channel is closed by hand or when the last endpoint of one side is dropped;
a closed channel refuses messages but keeps those it has, until they are received or the
last endpoint of both sides is gone and its memory with it (`held`). So what a message
carries can outlive the receiver for as long as anyone could still have sent another.
-/

/-- Why a channel refused a message. -/
inductive SendRefused where
  /-- No room. -/
  | full
  /-- It is closed. -/
  | closed
  deriving DecidableEq, Repr

/-- A bounded channel. -/
@[ext]
structure Channel (α : Type*) where
  /-- The messages, oldest first. -/
  buffer : List α
  /-- How many there can be. -/
  capacity : ℕ
  /-- The endpoints that can send. -/
  senders : ℕ
  /-- The endpoints that can receive. -/
  receivers : ℕ
  /-- Whether messages are refused. -/
  closed : Bool

namespace Channel

variable {α : Type*} (c : Channel α)

/-- A channel with one endpoint of each kind. -/
def bounded (capacity : ℕ) : Channel α := ⟨[], capacity, 1, 1, false⟩

/-- Send without waiting. -/
def trySend (message : α) : Except SendRefused (Channel α) :=
  if c.closed then .error .closed
  else if c.buffer.length < c.capacity then .ok { c with buffer := c.buffer ++ [message] }
  else .error .full

/-- Receive without waiting; a closed channel still yields what it has. -/
def tryRecv : Option (α × Channel α) :=
  match c.buffer with
  | [] => none
  | message :: buffer => some (message, { c with buffer := buffer })

/-- Whether receiving fails, now and for good. -/
def exhausted : Bool := c.buffer.isEmpty && c.closed

/-- Refuse messages from now on. -/
def close : Channel α := { c with closed := true }

/-- One more sender. -/
def cloneSender : Channel α := { c with senders := c.senders + 1 }

/-- One sender less; the last one closes the channel. -/
def dropSender : Channel α := { c with senders := c.senders - 1, closed := c.closed || c.senders = 1 }

/-- One receiver less; the last one closes the channel. -/
def dropReceiver : Channel α := { c with receivers := c.receivers - 1, closed := c.closed || c.receivers = 1 }

/-- The messages in memory: none once every endpoint is gone. -/
def held : List α := if c.senders = 0 ∧ c.receivers = 0 then [] else c.buffer

variable {c}

theorem trySend_eq_ok {message : α} {c' : Channel α} :
    c.trySend message = .ok c' ↔
      c.closed = false ∧ c.buffer.length < c.capacity ∧ c' = { c with buffer := c.buffer ++ [message] } := by
  unfold trySend
  split_ifs with hclosed hroom
  · simp [hclosed]
  · rw [Except.ok.injEq]
    exact ⟨fun h => ⟨by simpa using hclosed, hroom, h.symm⟩, fun h => h.2.2.symm⟩
  · simp [hroom]

theorem tryRecv_eq_some {message : α} {c' : Channel α} :
    c.tryRecv = some (message, c') ↔ c.buffer = message :: c'.buffer ∧ c' = { c with buffer := c'.buffer } := by
  unfold tryRecv
  split
  · simp_all
  · rename_i hb
    rw [hb]
    constructor
    · rintro h
      cases h
      exact ⟨rfl, rfl⟩
    · rintro ⟨h, hc'⟩
      cases h
      rw [← hc']

/-- **What a channel without a receiver holds** is what is in its buffer while there is a sender. -/
theorem held_of_receivers (h : c.receivers = 0) : c.held = if c.senders = 0 then [] else c.buffer := by
  simp [held, h]

end Channel
