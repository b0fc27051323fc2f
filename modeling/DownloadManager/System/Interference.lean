import DownloadManager.Resume.Transfer

/-!
# A worker among others

A worker does not have the disk to itself: other workers, the scheduler's cleanup and
other processes run between any two of its operations, and its stop token can be
cancelled at any time. `Local` is what one worker sees of this. Its environment
performs the worker's operations one by one (`Local.env`); between two of them the
others do as they like, short of the files the worker is said to have for itself
(`Undisturbed`).

`Traffic` remembers what an attempt has learned and done: what it found at the
destination, its response, what it has written. The worker does not see that; the
theorems are about it.
-/

namespace DownloadManager

open FileSystem Worker

/-- What a transfer has brought. -/
structure Transfer where
  /-- The response whose body it is. -/
  response : Response
  /-- What the `.part` held when the transfer began. -/
  retained : List UInt8
  /-- What has been written behind it. -/
  received : List UInt8

namespace Transfer

/-- What the `.part` holds. -/
def data (x : Transfer) : List UInt8 := x.retained ++ x.received

/-- The body is there as far as it came, and ended with an error. -/
def broken (x : Transfer) : Bool := x.received = x.response.bytes ∧ x.response.bodyError.isSome

end Transfer

/-- What an attempt has learned and done so far. -/
structure Traffic where
  /-- Whether there was a file at the destination, once that has been checked. -/
  found : Option Bool := none
  /-- The last response. -/
  response : Option Response := none
  /-- The transfer, once it has begun. -/
  transfer : Option Transfer := none
  /-- Whether a read of the body has failed. -/
  broken : Bool := false

/-- What an operation adds. The first thing an attempt asks the disk is whether there is a file at
the destination; the `.part` is cut when the transfer begins. -/
def Traffic.after (traffic : Traffic) (disk : Disk) : (op : Op) → op.Reply → Traffic
  | .file (.metadata _), r => { traffic with found := traffic.found.or (some r.isOk) }
  | .file (.setLen file n), .ok _ =>
    { traffic with
      transfer := (traffic.response.map (⟨·, ((disk.inode file).setLen n).data, []⟩)).or traffic.transfer }
  | .file (.writeAll _ _ bytes), .ok _ =>
    { traffic with transfer := traffic.transfer.map fun x => { x with received := x.received ++ bytes } }
  | .send _, .response response => { traffic with response := some response }
  | .pollStop, false => { traffic with broken := traffic.transfer.any Transfer.broken }
  | _, _ => traffic

/-- What a worker and its surroundings share. -/
@[ext]
structure Local where
  /-- The disk. -/
  disk : Disk
  /-- What the worker has learned and done. -/
  traffic : Traffic
  /-- Whether its stop token, or the root token, is cancelled. -/
  cancelled : Bool

/-- `ErrorKind::NotFound` is the error of an operation one of whose paths names nothing. -/
def Truthful (disk : Disk) (op : FileOp PathBuf UInt8) (fault : Option (Fault IoError)) : Prop :=
  ∀ f ∈ fault, f.error.notFound = true → ∃ path ∈ op.paths, disk.file path = none

instance (disk : Disk) (op : FileOp PathBuf UInt8) (fault : Option (Fault IoError)) :
    Decidable (Truthful disk op fault) :=
  inferInstanceAs (Decidable (∀ f ∈ fault, _))

/-- What is said not to be there is not there. -/
theorem Truthful.file_eq_none {disk disk' : Disk} {op : FileOp PathBuf UInt8} {fault : Option (Fault IoError)}
    {path : PathBuf} {e : IoError} (h : Truthful disk op fault) (hpaths : op.paths = [path])
    (heffect : ∀ e, (op.effect IoError.missing disk).1 = .error e → disk.file path = none)
    (hperform : performFile disk fault op = (.error e, disk')) (hnotFound : e.notFound = true) :
    disk.file path = none := by
  cases fault with
  | some fault =>
    have herror : fault.error = e := by
      unfold performFile at hperform
      split at hperform <;> exact Except.error.inj (Prod.mk.inj hperform).1
    obtain ⟨p, hp, hnone⟩ := h fault rfl (herror ▸ hnotFound)
    rw [hpaths, List.mem_singleton] at hp
    exact hp ▸ hnone
  | none =>
    unfold performFile at hperform
    split at hperform
    · exact heffect e (Prod.mk.inj hperform).1
    · obtain ⟨hempty, hnone⟩ := performDirectory_notFound (Prod.mk.inj hperform).1 hnotFound
      rw [hpaths, List.mem_singleton] at hempty
      exact hempty ▸ Disk.file_eq_none.mpr hnone

/-- Whether the wait for the client ended with the stop token. -/
def Sent.isStopped : Sent → Bool
  | .stopped => true
  | _ => false

namespace Local

/-- What can be chosen for an operation: a stop is seen exactly when it has been requested. -/
def Allows (l : Local) : Op → Choice → Prop
  | .file op, .file fault => Truthful l.disk op fault
  | .send _, .send sent => sent.isStopped = l.cancelled
  | .pollStop, .pollStop stop => stop = l.cancelled
  | _, _ => False

instance (l : Local) : (op : Op) → (choice : Choice) → Decidable (l.Allows op choice)
  | .file op, .file fault => inferInstanceAs (Decidable (Truthful l.disk op fault))
  | .send _, .send sent => inferInstanceAs (Decidable (sent.isStopped = l.cancelled))
  | .pollStop, .pollStop stop => inferInstanceAs (Decidable (stop = l.cancelled))
  | .file _, .send _ | .file _, .pollStop _ | .send _, .file _ | .send _, .pollStop _ | .pollStop, .file _
  | .pollStop, .send _ => .isFalse id

/-- After an operation. -/
def performed (l : Local) (op : Op) (r : op.Reply) (disk : Disk) : Local :=
  ⟨disk, l.traffic.after l.disk op r, l.cancelled⟩

/-- One operation of the worker. -/
def perform (l : Local) (op : Op) (choice : Choice) : Option (op.Reply × Local) :=
  if l.Allows op choice then
    (DownloadManager.perform op choice l.disk).map fun (r, disk) => (r, l.performed op r disk)
  else none

/-- The environment of a worker; `fails` says which file operations may fail, and when. -/
def env (fails : Traffic → FileOp PathBuf UInt8 → Prop) : Program.Env Op Op.Reply Local := fun op l r l' =>
  ∃ choice, (∀ fileOp fault, op = .file fileOp → choice = .file (some fault) → fails l.traffic fileOp) ∧
    l.perform op choice = some (r, l')

end Local

/-- What others leave alone: the files in `own`, and what the worker knows. A stop that has been
requested stays so. -/
structure Undisturbed (own : List PathBuf) (l l' : Local) : Prop where
  /-- The files. -/
  agree : ∀ path ∈ own, l.disk.Agree l'.disk path
  /-- The worker. -/
  traffic : l'.traffic = l.traffic
  /-- The stop token. -/
  cancelled : l.cancelled = true → l'.cancelled = true

theorem Undisturbed.trans {own : List PathBuf} {l l' l'' : Local} (h : Undisturbed own l l')
    (h' : Undisturbed own l' l'') : Undisturbed own l l'' :=
  ⟨fun path hpath => (h.agree path hpath).trans (h'.agree path hpath), h'.traffic.trans h.traffic,
    fun hc => h'.cancelled (h.cancelled hc)⟩

theorem Undisturbed.refl (own : List PathBuf) (l : Local) : Undisturbed own l l :=
  ⟨fun path _ => .refl l.disk path, rfl, id⟩

/-! ### Operations among others -/

namespace Local

variable {rely : Local → Local → Prop} {fails : Traffic → FileOp PathBuf UInt8 → Prop} {pre : Op → Local → Prop}
  {l l' : Local}

/-- Others act, as far as `rely` permits, and the worker performs an operation. -/
abbrev among (rely : Local → Local → Prop) (fails : Traffic → FileOp PathBuf UInt8 → Prop) :
    Program.Env Op Op.Reply Local :=
  (env fails).under rely

/-- What an operation does, apart from what it does to the disk. -/
theorem perform_eq {op : Op} {choice : Choice} {r : op.Reply} (h : l.perform op choice = some (r, l')) :
    l.Allows op choice ∧ ∃ disk', DownloadManager.perform op choice l.disk = some (r, disk') ∧ l' = l.performed op r disk' := by
  unfold perform at h
  split_ifs at h with hallows
  obtain ⟨⟨r', disk'⟩, hperform, heq⟩ := Option.map_eq_some_iff.mp h
  cases heq
  exact ⟨hallows, disk', hperform, rfl⟩

theorem perform_file {op : FileOp PathBuf UInt8} {choice : Choice} {r : Except IoError op.Value}
    (h : l.perform (.file op) choice = some (r, l')) :
    ∃ fault disk', choice = .file fault ∧ Truthful l.disk op fault ∧ Outcome l.disk fault op r disk' ∧
      l' = l.performed (.file op) r disk' := by
  obtain ⟨hallows, disk', hperform, rfl⟩ := perform_eq h
  cases choice with
  | file fault =>
    have hout := outcome_performFile l.disk fault op
    rw [show performFile l.disk fault op = (r, disk') from Option.some.inj hperform] at hout
    exact ⟨fault, disk', rfl, hallows, hout, rfl⟩
  | _ => cases hallows

theorem perform_pollStop {stop : Bool} {choice : Choice} (h : l.perform .pollStop choice = some (stop, l')) :
    stop = l.cancelled ∧ l' = l.performed .pollStop stop l.disk := by
  obtain ⟨hallows, disk', hperform, rfl⟩ := perform_eq h
  cases choice with
  | pollStop => cases hperform; exact ⟨hallows, rfl⟩
  | _ => cases hallows

theorem perform_send {request : HttpRequest} {sent : Sent} {choice : Choice}
    (h : l.perform (.send request) choice = some (sent, l')) :
    sent.isStopped = l.cancelled ∧ l' = l.performed (.send request) sent l.disk := by
  obtain ⟨hallows, disk', hperform, rfl⟩ := perform_eq h
  cases choice with
  | send => cases hperform; exact ⟨hallows, rfl⟩
  | _ => cases hallows

/-- A file operation. -/
theorem of_among_file {op : FileOp PathBuf UInt8} {r : Except IoError op.Value}
    (h : among rely fails (.file op) l r l') :
    ∃ l₁ fault disk', rely l l₁ ∧ (fault.isSome → fails l₁.traffic op) ∧ Truthful l₁.disk op fault ∧
      Outcome l₁.disk fault op r disk' ∧ l' = l₁.performed (.file op) r disk' := by
  obtain ⟨l₁, hrely, choice, hfails, hperform⟩ := h
  obtain ⟨fault, disk', rfl, htruthful, hout, rfl⟩ := perform_file hperform
  refine ⟨l₁, fault, disk', hrely, fun hsome => ?_, htruthful, hout, rfl⟩
  obtain ⟨f, rfl⟩ := Option.isSome_iff_exists.mp hsome
  exact hfails op f rfl rfl

/-- A file operation whose error is returned. -/
theorem holds_await {op : FileOp PathBuf UInt8} {post : Result op.Value → Local → Prop} (hpre : pre (.file op) l)
    (h : ∀ l₁ fault r disk', rely l l₁ → (fault.isSome → fails l₁.traffic op) →
      Truthful l₁.disk op fault → Outcome l₁.disk fault op r disk' →
      post (r.mapError .io) (l₁.performed (.file op) r disk')) :
    (Fs.await op).Holds (among rely fails) pre post l := by
  refine ⟨hpre, fun r l' henv => ?_⟩
  obtain ⟨l₁, fault, disk', hrely, hfails, htruthful, hout, rfl⟩ := of_among_file henv
  exact h l₁ fault r disk' hrely hfails htruthful hout

/-- A file operation whose error is handled. -/
theorem holds_attempt {op : FileOp PathBuf UInt8} {post : Result (Except IoError op.Value) → Local → Prop}
    (hpre : pre (.file op) l)
    (h : ∀ l₁ fault r disk', rely l l₁ → (fault.isSome → fails l₁.traffic op) →
      Truthful l₁.disk op fault → Outcome l₁.disk fault op r disk' → post (.ok r) (l₁.performed (.file op) r disk')) :
    (Fs.attempt op).Holds (among rely fails) pre post l := by
  refine ⟨hpre, fun r l' henv => ?_⟩
  obtain ⟨l₁, fault, disk', hrely, hfails, htruthful, hout, rfl⟩ := of_among_file henv
  exact h l₁ fault r disk' hrely hfails htruthful hout

/-- The stop token. -/
theorem of_among_pollStop {stop : Bool} (h : among rely fails .pollStop l stop l') :
    ∃ l₁, rely l l₁ ∧ stop = l₁.cancelled ∧ l' = l₁.performed .pollStop stop l₁.disk := by
  obtain ⟨l₁, hrely, choice, -, hperform⟩ := h
  exact ⟨l₁, hrely, perform_pollStop hperform⟩

/-- The client. -/
theorem of_among_send {request : HttpRequest} {sent : Sent} (h : among rely fails (.send request) l sent l') :
    ∃ l₁, rely l l₁ ∧ sent.isStopped = l₁.cancelled ∧ l' = l₁.performed (.send request) sent l₁.disk := by
  obtain ⟨l₁, hrely, choice, -, hperform⟩ := h
  exact ⟨l₁, hrely, perform_send hperform⟩

end Local

end DownloadManager
