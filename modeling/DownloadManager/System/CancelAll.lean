import DownloadManager.Scheduler.Dispatch
import DownloadManager.Scheduler.Frame
import DownloadManager.System.System

/-!
# The order of `CancelAll`

The job map is a hash map: `CancelAll` visits the jobs in any order, and each visit may
remove files and cancel a token. Here the loop runs with the disk it removes files from
(`cancelEachOn`). A removal that has been tried does not change the result of a later one
(`Swept`), as long as a file that could be removed is reported missing once it is gone; so
every job has the result it would have had alone, and what is left does not depend on the
order.
-/

namespace DownloadManager

open FileSystem

/-! ### The loop, with the disk -/

/-- What goes wrong when a file is removed, by its path and by whether there is one. -/
abbrev Faults := PathBuf → Bool → Option (Fault IoError)

namespace Faults

/-- What the operations of `discard_partial` do. -/
def handler (faults : Faults) : (op : Op) → Disk → op.Reply × Disk
  | .file (.removeFile path), disk => performFile disk (faults path (disk.dir path).isSome) (.removeFile path)
  | .file op, disk => performFile disk none op
  | .send _, disk => (.stopped, disk)
  | .pollStop, disk => (false, disk)

/-- Where a file can be removed, nothing but `NotFound` is reported when it is missing. -/
def Honest (faults : Faults) : Prop :=
  ∀ path, faults path true = none → ∀ fault ∈ faults path false, fault.error.notFound = true

end Faults

namespace Scheduler

/-- `discard_partial`, if a job that is cancelled has partial files to remove. -/
def discardOn (faults : Faults) (s : Scheduler) (disk : Disk) (id : Uuid) : Result Unit × Disk :=
  match s.discards id .cancel with
  | some (_, dest) => (discardPartial dest).eval faults.handler disk
  | none => (.ok (), disk)

variable (nextDelay : UInt32 → Except Panic Duration)

/-- The loop of `CancelAll`: each job is cancelled, and its files removed, before the next. -/
def cancelEachOn (faults : Faults) (s : Scheduler) (disk : Disk) : List Uuid → Except Panic (Scheduler × Disk)
  | [] => .ok (s, disk)
  | id :: ids =>
    let (discarded, disk) := s.discardOn faults disk id
    match s.transitionJob nextDelay discarded id .cancel with
    | .error panic => .error panic
    | .ok s => cancelEachOn faults s disk ids

/-- `CancelAll`. -/
def cancelAllOn (faults : Faults) (s : Scheduler) (disk : Disk) (order : List Uuid) : Except Panic (Scheduler × Disk) :=
  match s.cancelEachOn nextDelay faults disk order with
  | .error panic => .error panic
  | .ok (s, disk) => .ok ({ s with ready := [], delayed := [] }, disk)

end Scheduler

/-! ### Removing files -/

section

variable {faults : Faults} {d d' : Disk} {tried : PathBuf → Prop}

/-- There is a file, and it can be removed. -/
structure Removable (faults : Faults) (d : Disk) (path : PathBuf) : Prop where
  /-- It is not a directory. -/
  isFile : path.IsFile
  /-- It is there. -/
  present : (d.dir path).isSome
  /-- Nothing goes wrong. -/
  honest : faults path true = none

/-- What is left of a disk when some files have been tried to be removed. -/
structure Swept (faults : Faults) (d : Disk) (tried : PathBuf → Prop) (d' : Disk) : Prop where
  /-- What could be removed is gone. -/
  gone : ∀ path, tried path → Removable faults d path → d'.dir path = none
  /-- The rest is there. -/
  kept : ∀ path, ¬(tried path ∧ Removable faults d path) → d.Agree d' path

theorem Swept.refl (faults : Faults) (d : Disk) : Swept faults d (fun _ => False) d :=
  ⟨fun _ h => h.elim, fun path _ => .refl d path⟩

/-- The same files tried, the same files left. -/
theorem Swept.agree {d'' : Disk} (h : Swept faults d tried d') (h' : Swept faults d tried d'') (path : PathBuf) :
    d'.Agree d'' path := by
  by_cases hpath : tried path ∧ Removable faults d path
  · have hnone := h.gone path hpath.1 hpath.2
    have hnone' := h'.gone path hpath.1 hpath.2
    exact ⟨hnone'.trans hnone.symm, (Disk.file_eq_none.mpr hnone').trans (Disk.file_eq_none.mpr hnone).symm⟩
  · have hkept := h.kept path hpath
    have hkept' := h'.kept path hpath
    exact ⟨hkept'.1.trans hkept.1.symm, hkept'.2.trans hkept.2.symm⟩

/-- What is said of a removal. -/
def Faults.reply (faults : Faults) (path : PathBuf) (present : Bool) : Except IoError Unit :=
  match faults path present with
  | some fault => .error fault.error
  | none =>
    if path.IsFile then if present then .ok () else .error .missing
    else .error (if path = .empty ∧ present = false then .missing else .isADirectory)

theorem handler_removeFile (faults : Faults) (d : Disk) (path : PathBuf) :
    (faults.handler (.file (.removeFile path)) d).1 = faults.reply path (d.dir path).isSome := by
  by_cases hpath : path.IsFile
  · cases hdir : d.dir path with
    | none =>
      cases hf : faults path false <;>
        simp [Faults.handler, Faults.reply, performFile, FileOp.perform, FileOp.effect, FileOp.paths, hpath, hdir, hf]
    | some i =>
      cases hf : faults path true <;>
        simp [Faults.handler, Faults.reply, performFile, FileOp.perform, FileOp.effect, FileOp.paths, hpath, hdir, hf]
  · by_cases hempty : path = .empty
    · subst hempty
      cases hf : faults .empty (d.dir .empty).isSome <;>
        simp [Faults.handler, Faults.reply, performFile, performDirectory, FileOp.paths, hpath, hf]
    · cases hf : faults path (d.dir path).isSome <;>
        simp [Faults.handler, Faults.reply, performFile, performDirectory, FileOp.paths, hpath, hf, hempty, Ne.symm hempty]

theorem reply_eq_ok {path : PathBuf} : faults.reply path (d.dir path).isSome = .ok () ↔ Removable faults d path := by
  constructor
  · intro h
    unfold Faults.reply at h
    split at h
    · cases h
    · split_ifs at h with hpath hpresent
      exact ⟨hpath, hpresent, by simp_all⟩
  · intro h
    simp [Faults.reply, h.isFile, h.present, h.honest]

/-- What a removal leaves: the file is gone if it could be removed, and nothing else changes. -/
theorem handler_removeFile_disk (faults : Faults) (d : Disk) (path : PathBuf) :
    Swept faults d (fun p => p = path) (faults.handler (.file (.removeFile path)) d).2 := by
  have hreply := handler_removeFile faults d path
  rcases (outcome_performFile d (faults path (d.dir path).isSome) (.removeFile path)).removeFile with
    ⟨hr, hd⟩ | ⟨⟨e, he⟩, hd⟩
  · have hdisk : (faults.handler (.file (.removeFile path)) d).2 = d.remove path := hd
    rw [hdisk]
    refine ⟨fun p hp _ => by simp [Disk.remove, hp], fun p hp => Disk.agree_remove fun heq => hp ⟨heq, ?_⟩⟩
    exact heq ▸ reply_eq_ok.mp (hreply.symm.trans hr)
  · have hdisk : (faults.handler (.file (.removeFile path)) d).2 = d := hd
    rw [hdisk]
    refine ⟨fun p hp hremovable => ?_, fun p _ => .refl d p⟩
    subst hp
    have : (.ok () : Except IoError Unit) = .error e := (reply_eq_ok.mpr hremovable).symm.trans (hreply.symm.trans he)
    cases this

/-- More files tried. -/
theorem Swept.trans {tried' : PathBuf → Prop} {d'' : Disk} (h : Swept faults d tried d')
    (h' : Swept faults d' tried' d'') :
    Swept faults d (fun path => tried path ∨ tried' path) d'' := by
  have hagree {path : PathBuf} (hagree : d.Agree d' path) : Removable faults d' path ↔ Removable faults d path :=
    ⟨fun hr => ⟨hr.isFile, hagree.1 ▸ hr.present, hr.honest⟩,
      fun hr => ⟨hr.isFile, hagree.1.symm ▸ hr.present, hr.honest⟩⟩
  -- what has gone stays gone
  have hgone {path : PathBuf} (hnone : d'.dir path = none) : d''.dir path = none := by
    refine (h'.kept path fun hboth => ?_).1.trans hnone
    simpa [hnone] using hboth.2.present
  refine ⟨fun path hpath hremovable => ?_, fun path hpath => ?_⟩
  · by_cases hbefore : tried path
    · exact hgone (h.gone path hbefore hremovable)
    · have hkept := h.kept path fun hboth => hbefore hboth.1
      exact h'.gone path (hpath.resolve_left hbefore) ((hagree hkept).mpr hremovable)
  · have hkept := h.kept path fun hboth => hpath ⟨.inl hboth.1, hboth.2⟩
    exact hkept.trans (h'.kept path fun hboth => hpath ⟨.inr hboth.1, (hagree hkept).mp hboth.2⟩)

/-- What `discard_partial` makes of a reply. -/
def settle : Except IoError Unit → Result Unit
  | .ok () => .ok ()
  | .error error => if error.notFound then .ok () else .error (.io error)

theorem eval_removeIfPresent (faults : Faults) (d : Disk) (path : PathBuf) :
    (removeIfPresent path).eval faults.handler d =
      (settle (faults.reply path (d.dir path).isSome), (faults.handler (.file (.removeFile path)) d).2) := by
  rw [← handler_removeFile]
  show Program.eval _ (.call (Op.file (.removeFile path)) _) d = _
  rw [Program.eval_call]
  cases hr : (faults.handler (.file (.removeFile path)) d).1 with
  | ok => rfl
  | error e =>
    simp only [Program.done_ok_bind, settle]
    split_ifs <;> rfl

/-- **A removal has the result it would have had first.** -/
theorem Swept.settle_reply (hfaults : faults.Honest) (h : Swept faults d tried d') (path : PathBuf) :
    settle (faults.reply path (d'.dir path).isSome) = settle (faults.reply path (d.dir path).isSome) := by
  by_cases hpath : tried path ∧ Removable faults d path
  · rw [reply_eq_ok.mpr hpath.2, h.gone path hpath.1 hpath.2]
    cases hf : faults path false with
    | none => simp [Faults.reply, hf, hpath.2.isFile, settle, IoError.missing]
    | some fault => simp [Faults.reply, hf, settle, hfaults path hpath.2.honest fault hf]
  · rw [(h.kept path hpath).1]

/-- The files `discard_partial` tries to remove. -/
def Tries (faults : Faults) (d : Disk) (dest path : PathBuf) : Prop :=
  path = partPath dest ∨
    settle (faults.reply (partPath dest) (d.dir (partPath dest)).isSome) = .ok () ∧ path = manifestPath dest

/-- **What `discard_partial` does to a disk that has been swept**: its result is the one it would have had first. -/
theorem Swept.discardPartial (hfaults : faults.Honest) (h : Swept faults d tried d') (dest : PathBuf) :
    ((discardPartial dest).eval faults.handler d').1 =
        (settle (faults.reply (partPath dest) (d.dir (partPath dest)).isSome)).bind
          (fun _ => settle (faults.reply (manifestPath dest) (d.dir (manifestPath dest)).isSome)) ∧
      Swept faults d (fun path => tried path ∨ Tries faults d dest path)
        ((discardPartial dest).eval faults.handler d').2 := by
  have hpart := eval_removeIfPresent faults d' (partPath dest)
  rw [h.settle_reply hfaults] at hpart
  have hswept := h.trans (handler_removeFile_disk faults d' (partPath dest))
  show (Program.eval _ ((removeIfPresent (partPath dest)).bind fun _ => removeIfPresent (manifestPath dest)) d').1 = _ ∧
    Swept faults d _
      (Program.eval _ ((removeIfPresent (partPath dest)).bind fun _ => removeIfPresent (manifestPath dest)) d').2
  cases hr : settle (faults.reply (partPath dest) (d.dir (partPath dest)).isSome) with
  | error e =>
    rw [hr] at hpart
    rw [Program.eval_bind_error faults.handler hpart]
    refine ⟨rfl, ?_⟩
    have htries : Tries faults d dest = fun path => path = partPath dest := by
      funext path
      simp [Tries, hr]
    rw [htries]
    exact hswept
  | ok =>
    rw [hr] at hpart
    rw [Program.eval_bind_ok faults.handler hpart, eval_removeIfPresent, hswept.settle_reply hfaults]
    refine ⟨rfl, ?_⟩
    have htries : (fun path => tried path ∨ Tries faults d dest path) =
        fun path => (tried path ∨ path = partPath dest) ∨ path = manifestPath dest := by
      funext path
      simp [Tries, hr, or_assoc]
    rw [htries]
    exact hswept.trans (handler_removeFile_disk faults _ (manifestPath dest))

end

/-! ### What a `Cancel` does to a job -/

section

variable {nextDelay : UInt32 → Except Panic Duration} {discarded : Result Unit} {token token' : Token} {id : Uuid}
  {job? : Option Job} {e e' : Effect}

/-- A `Cancel` does one thing. -/
theorem Arm.cancel_unique (h : Arm nextDelay discarded token id job? .cancel e)
    (h' : Arm nextDelay discarded token' id job? .cancel e') : e = e' := by
  cases h with
  | unknown =>
    cases h' with
    | unknown => rfl
    | unknownAck hack => rcases hack with hack | hack <;> cases hack
  | unknownAck hack => rcases hack with hack | hack <;> cases hack
  | cancelIdle hs => cases h' <;> simp_all [JobState.idle]
  | cancelRunning hs => cases h' <;> simp_all [JobState.idle]
  | cancelPausing hs => cases h' <;> simp_all [JobState.idle]
  | cancelAgain hs => cases h' <;> simp_all [JobState.idle]

/-- The token of a running job. -/
def Job.stop? (job : Job) : Option Token :=
  match job.state with
  | .running stop => some stop
  | _ => none

/-- It cancels the token of a running job, and starts and times nothing. -/
theorem Arm.cancel_stop (h : Arm nextDelay discarded token id job? .cancel e) :
    e.stop = job?.bind Job.stop? ∧ e.spawn = none ∧ e.timer = none := by
  cases h with
  | unknown | unknownAck => exact ⟨rfl, rfl, rfl⟩
  | @cancelIdle job hs => cases hstate : job.state <;> simp_all [Job.stop?, JobState.idle]
  | cancelRunning hs | cancelPausing hs | cancelAgain hs => simp [Job.stop?, hs]

/-- A job that is being cancelled stays so until it is over. -/
theorem Arm.of_cancelling {job : Job} {event : JobEvent} (h : Arm nextDelay discarded token id (some job) event e)
    (hs : job.state = .cancelling) : e.job = none ∨ e.job = some job := by
  cases h <;> simp_all [JobState.plain]

end

namespace Scheduler

variable {nextDelay : UInt32 → Except Panic Duration} {faults : Faults} {d d' : Disk} {s s' : Scheduler}

/-! ### The loop -/

/-- What the loop of `CancelAll` leaves of what the jobs share. -/
structure Stops (order : List Uuid) (s s' : Scheduler) : Prop where
  /-- No token is handed out. -/
  tokens : s'.tokens = s.tokens
  /-- The tokens of the running jobs are cancelled. -/
  stopped : ∀ stop, stop ∈ s'.stopped ↔
    stop ∈ s.stopped ∨ ∃ id ∈ order, (s.jobs.lookup id).bind Job.stop? = some stop
  /-- The limit. -/
  maxConcurrent : s'.maxConcurrent = s.maxConcurrent
  /-- The workers are asked to stop, and stay. -/
  workers : s'.workers = s.workers
  /-- The timers stay. -/
  delayed : s'.delayed = s.delayed
  /-- The root token. -/
  cancelRoot : s'.cancelRoot = s.cancelRoot

theorem cancelEach_stops {discarded : Uuid → Result Unit} {order : List Uuid} (horder : order.Nodup)
    (h : s.cancelEach nextDelay discarded order = .ok s') : Stops order s s' := by
  induction order generalizing s with
  | nil =>
    cases h
    exact ⟨rfl, by simp, rfl, rfl, rfl, rfl⟩
  | cons id ids ih =>
    obtain ⟨hnot, hnodup⟩ := List.nodup_cons.mp horder
    unfold cancelEach at h
    split at h
    · cases h
    rename_i s₁ h₁
    obtain ⟨e, harm, rfl⟩ := transitionJob_arm h₁
    obtain ⟨hstop, hspawn, htimer⟩ := harm.cancel_stop
    obtain ⟨htokens, hstopped, hmax, hworkers, hdelayed, hroot⟩ := ih hnodup h
    refine ⟨htokens.trans (by simp [Effect.apply, hspawn]), fun stop => ?_, hmax,
      hworkers.trans (by simp [Effect.apply, hspawn]),
      hdelayed.trans (by simp [Effect.apply, htimer]), hroot⟩
    have hself : stop ∈ (e.apply s id).stopped ↔ stop ∈ s.stopped ∨ (s.jobs.lookup id).bind Job.stop? = some stop := by
      rw [← hstop]
      cases he : e.stop <;> simp [Effect.apply, he, or_comm, eq_comm]
    have hothers : (∃ i ∈ ids, ((e.apply s id).jobs.lookup i).bind Job.stop? = some stop) ↔
        ∃ i ∈ ids, (s.jobs.lookup i).bind Job.stop? = some stop := by
      refine exists_congr fun i => and_congr_right fun hi => ?_
      have hne : i ≠ id := fun heq => hnot (heq ▸ hi)
      simp only [Effect.apply, Jobs.lookup_put_of_ne s.jobs e.job hne]
    rw [hstopped, hothers, hself, List.exists_mem_cons_iff]
    exact or_assoc

/-- The files of one job: the result is the one the removal would have had first. -/
theorem discardOn_swept (hfaults : faults.Honest) {tried : PathBuf → Prop} (h : Swept faults d tried d')
    {s₀ : Scheduler} {id : Uuid} (hjob : s.jobs.lookup id = s₀.jobs.lookup id) :
    (s.discardOn faults d' id).1 = (s₀.discardOn faults d id).1 ∧
      Swept faults d
        (fun path => tried path ∨ ∃ dest, s₀.discards id .cancel = some (id, dest) ∧ Tries faults d dest path)
        (s.discardOn faults d' id).2 := by
  have hdiscards : s.discards id .cancel = s₀.discards id .cancel := by rw [discards, discards, hjob]
  unfold discardOn
  rw [hdiscards]
  cases hfound : s₀.discards id .cancel with
  | none => exact ⟨rfl, by simpa using h⟩
  | some found =>
    obtain ⟨i, dest⟩ := found
    have hid : i = id := by
      obtain ⟨job, -, hjob⟩ := Option.bind_eq_some_iff.mp hfound
      split_ifs at hjob
      exact (Prod.mk.inj (Option.some.inj hjob)).1.symm
    subst hid
    obtain ⟨hresult, hswept⟩ := h.discardPartial hfaults dest
    refine ⟨hresult.trans ((Swept.refl faults d).discardPartial hfaults dest).1.symm, ?_⟩
    simpa using hswept

variable (nextDelay) in
/-- **The loop with the disk is the loop**, with the result that each `discard_partial` would have had first. -/
theorem cancelEachOn_eq (hfaults : faults.Honest) {s₀ : Scheduler} {tried : PathBuf → Prop} {order : List Uuid}
    (horder : order.Nodup) (hjobs : ∀ id ∈ order, s.jobs.lookup id = s₀.jobs.lookup id) (h : Swept faults d tried d') :
    ∃ s' d'', s.cancelEachOn nextDelay faults d' order = .ok (s', d'') ∧
      s.cancelEach nextDelay (fun id => (s₀.discardOn faults d id).1) order = .ok s' ∧
      Swept faults d (fun path => tried path ∨ ∃ id ∈ order, ∃ dest, s₀.discards id .cancel = some (id, dest) ∧
        Tries faults d dest path) d'' := by
  induction order generalizing s d' tried with
  | nil => exact ⟨s, d', rfl, rfl, by simpa using h⟩
  | cons id ids ih =>
    obtain ⟨hnot, hnodup⟩ := List.nodup_cons.mp horder
    obtain ⟨hresult, hswept⟩ := discardOn_swept hfaults h (hjobs id List.mem_cons_self)
    obtain ⟨s₁, h₁⟩ := s.transitionJob_ok nextDelay (s₀.discardOn faults d id).1 id .cancel (by simp)
    have hjobs' : ∀ i ∈ ids, s₁.jobs.lookup i = s₀.jobs.lookup i := by
      intro i hi
      obtain ⟨e, -, rfl⟩ := transitionJob_arm h₁
      have hne : i ≠ id := fun heq => hnot (heq ▸ hi)
      exact (Jobs.lookup_put_of_ne s.jobs e.job hne).trans (hjobs i (List.mem_cons_of_mem id hi))
    obtain ⟨s', d'', hon, heach, hswept'⟩ := ih hnodup hjobs' hswept
    refine ⟨s', d'', ?_, ?_, ?_⟩
    · simp only [cancelEachOn, hresult, h₁, hon]
    · simp only [cancelEach, h₁, heach]
    · simpa only [List.exists_mem_cons_iff, or_assoc] using hswept'

/-! ### What is left -/

/-- Two schedulers that differ in nothing but how what was sent about different jobs is interleaved. -/
structure Alike (s s' : Scheduler) : Prop where
  /-- The root token. -/
  cancelRoot : s'.cancelRoot = s.cancelRoot
  /-- The tokens handed out. -/
  tokens : s'.tokens = s.tokens
  /-- The tokens cancelled. -/
  stopped : s'.stopped = s.stopped
  /-- The limit. -/
  maxConcurrent : s'.maxConcurrent = s.maxConcurrent
  /-- The jobs. -/
  jobs : s'.jobs = s.jobs
  /-- The queue. -/
  ready : s'.ready = s.ready
  /-- The timers. -/
  delayed : s'.delayed = s.delayed
  /-- The workers. -/
  workers : s'.workers = s.workers
  /-- What each job has been told, in this order: its events, its replies and its result. -/
  sent : ∀ id, (s'.log.filter fun o => o.id = id) = s.log.filter fun o => o.id = id

/-- Every job left is being cancelled, and needs neither the queue nor a timer. -/
structure Winding (nextDelay : UInt32 → Except Panic Duration) (s : Scheduler) : Prop where
  /-- The jobs left. -/
  cancelling : ∀ id job, s.jobs.lookup id = some job → job.state = .cancelling
  /-- Their workers have been asked to stop. -/
  worker : ∀ id job, s.jobs.lookup id = some job → ∃ w ∈ s.workers, w.id = id ∧ w.stop ∈ s.stopped
  /-- The queue is empty. -/
  ready : s.ready = []
  /-- A timer that is up is ignored. -/
  delayed : ∀ timer ∈ s.delayed, ∀ discarded,
    s.transitionJob nextDelay discarded timer.1 (.retryElapsed timer.2) = .ok s
  /-- And none will be needed. -/
  settled : ∀ id job event discarded s', s.jobs.lookup id = some job →
    s.transitionJob nextDelay discarded id event = .ok s' → s'.jobs.lookup id = none ∨ s'.jobs.lookup id = some job

variable {t : Thread}

/-- **What the loop leaves**, for every order. -/
theorem winding_of_cancelEach (ht : Thread.Reachable nextDelay t) {discarded : Uuid → Result Unit} {order : List Uuid}
    (horder : Visits order t.sched.jobs) (h : t.sched.cancelEach nextDelay discarded order = .ok s') :
    s'.Winding nextDelay := by
  have hinv : ∀ id, Inv t.sched.cancelRoot id (t.sched.view t.handled id) := inv_of_reachable ht
  obtain ⟨-, hvisited, hsame⟩ := t.sched.cancelEach_views hinv horder.1 h
  have hstops : s'.StopsAgree := (StopsAgree.invariant.cancelEach
    (StopsAgree.invariant.reachable ht) h).2
  have hroot := (cancelEach_stops horder.1 h).cancelRoot
  have hview (id : Uuid) : Inv t.sched.cancelRoot id (s'.view t.handled id) ∧ (s'.view t.handled id).Quiet := by
    by_cases hid : id ∈ order
    · obtain ⟨token, e, ha, hv⟩ := hvisited id hid
      rw [hv]
      exact ⟨(hinv id).arm .cancelAll ha, ha.quiet⟩
    · rw [hsame id hid]
      refine ⟨hinv id, fun job hjob => absurd ?_ hid⟩
      exact horder.mem_iff.mpr (Finmap.mem_of_lookup_eq_some hjob)
  have hcancelling (id : Uuid) (job : Job) (hjob : s'.jobs.lookup id = some job) : job.state = .cancelling :=
    (hview id).2 job hjob
  have hplace {id : Uuid} {job : Job} (hjob : s'.jobs.lookup id = some job) :
      (tokensOf id s'.workers).length = 1 ∧ s'.ready.count id = 0 := by
    have hp := ((inv_some (v := s'.view t.handled id) hjob).mp (hview id).1).place
    simp only [Place, hcancelling id job hjob] at hp
    exact hp
  refine ⟨hcancelling, fun id job hjob => ?_, List.eq_nil_iff_forall_not_mem.mpr fun id hmem => ?_,
    fun timer _ discarded => ?_, fun id job event discarded s'' hjob hs => ?_⟩
  · obtain ⟨stop, hstop⟩ := List.length_eq_one_iff.mp (hplace hjob).1
    obtain ⟨w, hw, rfl⟩ := List.mem_map.mp (hstop ▸ List.mem_singleton_self stop : stop ∈ tokensOf id s'.workers)
    obtain ⟨hw, hid⟩ := List.mem_filter.mp hw
    have hid : w.id = id := of_decide_eq_true hid
    refine ⟨w, hw, hid, (hstops.asked w hw job (hid ▸ hjob)).resolve_left ?_⟩
    simp [hcancelling id job hjob]
  · have hpos := List.count_pos_iff.mpr hmem
    cases hjob : s'.jobs.lookup id with
    | none =>
      have hnone := ((inv_none (v := s'.view t.handled id) hjob).mp (hview id).1).2.1
      exact absurd hnone hpos.ne'
    | some job => exact absurd (hplace hjob).2 hpos.ne'
  · obtain ⟨id, attempt⟩ := timer
    cases hjob : s'.jobs.lookup id with
    | none => simp [transitionJob, hjob]
    | some job => simp [transitionJob, hjob, hcancelling id job hjob]
  · obtain ⟨e, ha, rfl⟩ := transitionJob_arm hs
    rw [hjob] at ha
    rw [show (e.apply s' id).jobs.lookup id = e.job from Jobs.lookup_put_self s'.jobs id e.job]
    exact ha.of_cancelling (hcancelling id job hjob)

/-- **Two orders** leave the same, but for how what was sent is interleaved. -/
theorem alike_of_cancelEach (ht : Thread.Reachable nextDelay t) {discarded : Uuid → Result Unit}
    {order order' : List Uuid}
    (horder : Visits order t.sched.jobs) (horder' : Visits order' t.sched.jobs)
    (h : t.sched.cancelEach nextDelay discarded order = .ok s)
    (h' : t.sched.cancelEach nextDelay discarded order' = .ok s') : s.Alike s' := by
  have hmem (id : Uuid) : id ∈ order ↔ id ∈ order' := horder.mem_iff.trans horder'.mem_iff.symm
  have hinv : ∀ id, Inv t.sched.cancelRoot id (t.sched.view t.handled id) := inv_of_reachable ht
  have hstops := cancelEach_stops horder.1 h
  have hstops' := cancelEach_stops horder'.1 h'
  obtain ⟨-, hvisited, hsame⟩ := t.sched.cancelEach_views hinv horder.1 h
  obtain ⟨-, hvisited', hsame'⟩ := t.sched.cancelEach_views hinv horder'.1 h'
  have hview (id : Uuid) : s'.view t.handled id = s.view t.handled id := by
    by_cases hid : id ∈ order
    · obtain ⟨token, e, ha, hv⟩ := hvisited id hid
      obtain ⟨token', e', ha', hv'⟩ := hvisited' id ((hmem id).mp hid)
      rw [hv, hv', ha.cancel_unique ha']
    · rw [hsame id hid, hsame' id fun hid' => hid ((hmem id).mpr hid')]
  refine ⟨?_, ?_, ?_, ?_, ?_, ?_, ?_, ?_, ?_⟩
  · rw [hstops.cancelRoot, hstops'.cancelRoot]
  · rw [hstops.tokens, hstops'.tokens]
  · ext stop
    rw [hstops.stopped, hstops'.stopped]
    simp only [hmem]
  · rw [hstops.maxConcurrent, hstops'.maxConcurrent]
  · exact Finmap.ext_lookup fun id => congrArg View.job (hview id)
  · rw [(winding_of_cancelEach ht horder h).ready, (winding_of_cancelEach ht horder' h').ready]
  · rw [hstops.delayed, hstops'.delayed]
  · rw [hstops.workers, hstops'.workers]
  · exact fun id => congrArg View.out (hview id)

end Scheduler

/-- **`CancelAll` does not depend on the order** in which it visits the jobs, if a file that could be removed is reported
missing once it is gone: what it leaves is alike and so are the files, and every job left is being cancelled and has a
worker that has been asked to stop. It is `handle_cmd`, with the result each removal would have had first. -/
theorem cancelAll_order {nextDelay : UInt32 → Except Panic Duration} {t : Thread} (ht : Thread.Reachable nextDelay t)
    {faults : Faults} (hfaults : faults.Honest) (disk : Disk) {order order' : List Uuid}
    (horder : Visits order t.sched.jobs) (horder' : Visits order' t.sched.jobs) :
    ∃ s disk₁ s' disk₂ s₁, t.sched.cancelAllOn nextDelay faults disk order = .ok (s, disk₁) ∧
      t.sched.cancelAllOn nextDelay faults disk order' = .ok (s', disk₂) ∧
      s.Alike s' ∧ (∀ path, disk₁.Agree disk₂ path) ∧
      t.sched.cancelEachOn nextDelay faults disk order = .ok (s₁, disk₁) ∧ s₁.Winding nextDelay ∧
      s = { s₁ with ready := [], delayed := [] } ∧
      t.sched.handleCmd nextDelay (fun id => (t.sched.discardOn faults disk id).1) order .cancelAll = .ok s := by
  obtain ⟨s₁, disk₁, hon, heach, hswept⟩ := Scheduler.cancelEachOn_eq nextDelay hfaults horder.1
    (fun _ _ => rfl) (.refl faults disk)
  obtain ⟨s₂, disk₂, hon', heach', hswept'⟩ := Scheduler.cancelEachOn_eq nextDelay hfaults horder'.1
    (fun _ _ => rfl) (.refl faults disk)
  have halike := Scheduler.alike_of_cancelEach ht horder horder' heach heach'
  have hmem (id : Uuid) : id ∈ order ↔ id ∈ order' := horder.mem_iff.trans horder'.mem_iff.symm
  simp only [hmem] at hswept
  refine ⟨{ s₁ with ready := [], delayed := [] }, disk₁, { s₂ with ready := [], delayed := [] }, disk₂, s₁,
    by rw [Scheduler.cancelAllOn, hon], by rw [Scheduler.cancelAllOn, hon'],
    ⟨halike.cancelRoot, halike.tokens, halike.stopped, halike.maxConcurrent, halike.jobs, rfl, rfl, halike.workers,
      halike.sent⟩, hswept.agree hswept', hon, Scheduler.winding_of_cancelEach ht horder heach, rfl, ?_⟩
  simp only [Scheduler.handleCmd, heach]

/-- One download is running, and two more, of which the last has the destination of the one before it, wait. -/
def Thread.sameDestination : List Action :=
  oneSlot ++ [.command (.enqueue 2 sampleRequest 5 6) (fun _ => .ok ()) [], .tryDispatch]

/-- A disk with its partial file and manifest. -/
def Disk.withPart : Disk :=
  (FileSystem.Disk.empty.put (partPath Thread.sampleRequest.destination) [0]).put
    (manifestPath Thread.sampleRequest.destination) [0]

/-- With a partial file that two jobs share. -/
theorem cancelAll_order_same_destination :
    ∃ t s disk₁ s' disk₂, Machine.exec (Thread.step backoffStrategy.nextDelay) (.new 1) Thread.sameDestination = some t ∧
      t.sched.cancelAllOn backoffStrategy.nextDelay (fun _ _ => none) Disk.withPart [0, 1, 2] = .ok (s, disk₁) ∧
      t.sched.cancelAllOn backoffStrategy.nextDelay (fun _ _ => none) Disk.withPart [2, 1, 0] = .ok (s', disk₂) ∧
      s.Alike s' := by
  obtain ⟨t, ht, ⟨horder, horder'⟩, hr⟩ := Thread.exists_run backoffStrategy.nextDelay 1 Thread.sameDestination
    (fun t => Visits [0, 1, 2] t.sched.jobs ∧ Visits [2, 1, 0] t.sched.jobs) (by decide)
  obtain ⟨s, disk₁, s', disk₂, -, h, h', halike, -⟩ := cancelAll_order hr
    (show Faults.Honest fun _ _ => none by simp [Faults.Honest]) Disk.withPart horder horder'
  exact ⟨t, s, disk₁, s', disk₂, ht, h, h', halike⟩

/-- Removing a file works where there is one, and is refused where there is none. -/
def Faults.refusedWhenMissing : Faults
  | _, true => none
  | _, false => some ⟨⟨false, "Permission denied (os error 13)"⟩, none⟩

/-- Without the condition the order matters: of two jobs with one partial file, the first to be visited is cancelled and
the other one fails. -/
theorem cancelAll_order_matters :
    ∃ t s disk₁ s' disk₂, Machine.exec (Thread.step backoffStrategy.nextDelay) (.new 1) Thread.sameDestination = some t ∧
      Visits [0, 1, 2] t.sched.jobs ∧ Visits [0, 2, 1] t.sched.jobs ∧
      t.sched.cancelAllOn backoffStrategy.nextDelay .refusedWhenMissing Disk.withPart [0, 1, 2] = .ok (s, disk₁) ∧
      t.sched.cancelAllOn backoffStrategy.nextDelay .refusedWhenMissing Disk.withPart [0, 2, 1] = .ok (s', disk₂) ∧
      .event 1 .cancelled ∈ s.log ∧ .event 1 .cancelled ∉ s'.log := by
  have hok {x : Except Panic (Scheduler × Disk)} {p : Scheduler → Bool} (h : x.toOption.any fun r => p r.1) :
      ∃ s disk, x = .ok (s, disk) ∧ p s := by
    cases x with
    | error panic => simp [Except.toOption] at h
    | ok r => exact ⟨r.1, r.2, rfl, h⟩
  obtain ⟨t, ht, ⟨horder, horder', h, h'⟩, -⟩ := Thread.exists_run backoffStrategy.nextDelay 1 Thread.sameDestination
    (fun t => Visits [0, 1, 2] t.sched.jobs ∧ Visits [0, 2, 1] t.sched.jobs ∧
      (t.sched.cancelAllOn backoffStrategy.nextDelay .refusedWhenMissing Disk.withPart [0, 1, 2]).toOption.any
        (fun r => .event 1 .cancelled ∈ r.1.log) ∧
      (t.sched.cancelAllOn backoffStrategy.nextDelay .refusedWhenMissing Disk.withPart [0, 2, 1]).toOption.any
        (fun r => .event 1 .cancelled ∉ r.1.log)) (by decide)
  obtain ⟨s, disk₁, hs, hmem⟩ := hok (p := fun s => .event 1 .cancelled ∈ s.log) h
  obtain ⟨s', disk₂, hs', hmem'⟩ := hok (p := fun s => .event 1 .cancelled ∉ s.log) h'
  exact ⟨t, s, disk₁, s', disk₂, ht, horder, horder', hs, hs', of_decide_eq_true hmem, of_decide_eq_true hmem'⟩

end DownloadManager
