import DownloadManager.Error

/-!
# Events

`src/events.rs`: what the manager tells its subscribers about a download. The
broadcast channel drops the oldest event when it is full; the events here are
those emitted, before any such loss.
-/

namespace DownloadManager

/-- `Uuid`: what identifies a download. -/
abbrev Uuid := ℕ

/-- `EventKind`. -/
inductive EventKind where
  /-- Waiting for a worker. -/
  | queued
  /-- A worker runs. -/
  | started
  /-- A worker failed and another attempt will follow. -/
  | retryScheduled (attempt : UInt32) (nextDelayMs : ℕ)
  /-- The worker was asked to stop for a pause. -/
  | pauseStarted
  /-- Paused, with no worker. -/
  | paused
  /-- The worker was asked to stop for good. -/
  | cancellationStarted
  /-- The end: cancelled. -/
  | cancelled
  /-- The end: the file is in place. -/
  | completed
  /-- The end: an error. -/
  | failed (error : String)
  deriving DecidableEq, Repr

/-- `Event`. -/
structure Event where
  /-- The download. -/
  id : Uuid
  /-- What happened. -/
  kind : EventKind
  deriving DecidableEq, Repr

end DownloadManager
