import DownloadManager.System.Cleanup
import DownloadManager.System.Ending

/-!
# How one download stands

A run as one download sees it: its worker goes on, the thread removes its partial files, or
something else happens, which leaves its files alone. `Standing` says what is true of its files
in between: what the last transfer has brought is recorded while there is no worker (`Rested`),
a worker will end as `Ended` says, and what is left when the download has ended is what its
result says (`Left`).

It holds along every run that keeps to some terms (`Keeps`): nobody else touches the files,
operations of its workers fail only as `fails` permits, and it ends with an error of its worker
only as `ends` permits.
-/

namespace DownloadManager

open FileSystem

/-- Whoever asked for a download asked for this one. -/
def Thread.Owns (t : Thread) (id : Uuid) (request : Request) : Prop :=
  ∀ request' progressTx tx, .enqueue id request' progressTx tx ∈ t.handled → request' = request

/-- Nothing happens to a download. -/
structure Thread.Rests (t t' : Thread) (id : Uuid) : Prop where
  /-- The record. -/
  job : (t'.sched.jobs.lookup id).map Job.holding = (t.sched.jobs.lookup id).map Job.holding
  /-- No worker is started for it. -/
  workers : ∀ w ∈ t'.sched.workers, w.id = id → w ∈ t.sched.workers
  /-- No result is sent. -/
  results : (t'.view id).results = (t.view id).results
  /-- It is not made. -/
  births : (t'.view id).births = (t.view id).births

theorem Thread.Rests.refl (t : Thread) (id : Uuid) : t.Rests t id := ⟨rfl, fun _ hw _ => hw, rfl, rfl⟩

namespace Thread

variable {nextDelay : UInt32 → Except Panic Duration} {t t' : Thread} {id : Uuid} {request : Request} {job : Job}

theorem Owns.of_step {a : Action} (h : t'.Owns id request) (hstep : t.step nextDelay a = some t') : t.Owns id request :=
  fun request' progressTx tx hmem => h request' progressTx tx (by
    rw [(next_of_step hstep).handled_eq]
    exact List.mem_append_left _ hmem)

theorem Owns.request_eq (h : t.Owns id request) (ht : Reachable nextDelay t) (hjob : t.sched.jobs.lookup id = some job) :
    job.request = request := by
  obtain ⟨tx, ⟨progressTx, hasked⟩, -⟩ := ((inv_some (v := t.view id) hjob).mp (inv_of_reachable ht id)).asked
  exact h _ _ _ (List.mem_of_mem_filter hasked)

/-- A worker is started for the request of its download. -/
theorem Owns.worker_request (h : t.Owns id request) (ht : Reachable nextDelay t) {w : Worker} (hw : w ∈ t.sched.workers)
    (hid : w.id = id) : w.request = request := by
  obtain ⟨job, hjob, -, hrequest, -⟩ := job_of_worker ht hw
  exact hrequest.trans (h.request_eq ht (hid ▸ hjob))

theorem results_of_job (ht : Reachable nextDelay t) (hjob : t.sched.jobs.lookup id = some job) : (t.view id).results = [] :=
  ((inv_some (v := t.view id) hjob).mp (inv_of_reachable ht id)).results

theorem births_of_job (ht : Reachable nextDelay t) (hjob : t.sched.jobs.lookup id = some job) : (t.view id).births ≠ [] := by
  obtain ⟨tx, ⟨progressTx, hasked⟩, -⟩ := ((inv_some (v := t.view id) hjob).mp (inv_of_reachable ht id)).asked
  exact List.ne_nil_of_mem (List.mem_filter.mpr ⟨hasked, rfl⟩)

theorem births_of_results (ht : Reachable nextDelay t) (h : (t.view id).results ≠ []) : (t.view id).births ≠ [] := by
  have hinv := inv_of_reachable ht id
  rcases (t.view id).job.eq_none_or_eq_some with hj | ⟨job, hj⟩
  · rcases ((inv_none hj).mp hinv).2.2.2 with hunborn | hover
    · exact absurd hunborn.results h
    · obtain ⟨request, tx, value, ⟨progressTx, hasked⟩, -⟩ := hover.result
      exact List.ne_nil_of_mem (List.mem_filter.mpr ⟨hasked, rfl⟩)
  · exact births_of_job ht hj

/-- A job without a worker has none. -/
theorem not_worker_of_idle (ht : Reachable nextDelay t) (hjob : t.sched.jobs.lookup id = some job)
    (hidle : job.state.idle) :
    ∀ w ∈ t.sched.workers, w.id ≠ id := by
  intro w hw hid
  have hactive := active_of_worker ht hw hid hjob
  rw [JobState.active_eq, hidle] at hactive
  cases hactive

/-- Neither has one that is not there. -/
theorem not_worker_of_none (ht : Reachable nextDelay t) (hjob : t.sched.jobs.lookup id = none) :
    ∀ w ∈ t.sched.workers, w.id ≠ id := by
  rintro w hw rfl
  obtain ⟨job, hjob', -⟩ := job_of_worker ht hw
  cases hjob.symm.trans hjob'

end Thread

/-! ### What is true of the files -/

section

variable (platform : Platform) (request : Request) (fails : Traffic → FileOp PathBuf UInt8 → Prop) (ends : Error → Prop)
  (id : Uuid)

/-- Between two attempts. -/
structure Rested (latest : Option Transfer) (disk : Disk) : Prop where
  /-- What the last transfer has brought is recorded. -/
  kept : Preserving fails → ∀ x ∈ latest, Recorded platform request x disk
  /-- No temporary file. -/
  tidied : Tidied fails request.destination disk

/-- After the end, by the result. -/
structure Left (value : Result DownloadResult) (s : System) : Prop where
  /-- It has completed. -/
  completed : ∀ result, value = .ok result → s.disk.file (partPath request.destination) = none ∧
    (Clearing fails request.destination → s.disk.file (manifestPath request.destination) = none)
  /-- It has been cancelled. -/
  cancelled : value = .error .cancelled → s.disk.file (partPath request.destination) = none ∧
    s.disk.file (manifestPath request.destination) = none
  /-- It has failed: its partial files could not be removed, or its worker has failed. -/
  failed : ∀ e, value = .error e → e ≠ .cancelled → (id, .error e) ∈ s.discarded ∨ ends e
  /-- No temporary file. -/
  tidied : Tidied fails request.destination s.disk

/-- While the thread removes its partial files. -/
structure Cleaning (c : Cleanup) (s : System) : Prop where
  /-- No temporary file. -/
  tidied : Tidied fails request.destination s.disk
  /-- No worker goes on. -/
  done : ∀ w ∈ s.thread.sched.workers, w.id = id → ∃ r, s.program w = .done r
  /-- What is left to do. -/
  program : c.id = id → c.program.Holds (Cleanup.env.under (Cleanup.Alone request.destination))
    (fun op _ => op.Removes request.destination) (Removed request.destination) s.disk
  /-- What has been done. -/
  results : ∀ r, (id, r) ∈ c.results → Removed request.destination r s.disk ∧ (id, r) ∈ s.discarded

/-- **How a download stands.** -/
structure Standing (s : System) : Prop where
  /-- It has not been asked for. -/
  unborn : (s.thread.view id).births = [] → s.latest id = none ∧ Tidied fails request.destination s.disk
  /-- It has no worker. -/
  idle : ∀ job, s.thread.sched.jobs.lookup id = some job → job.state.idle → ¬s.Cleans id →
    Rested platform request fails (s.latest id) s.disk
  /-- It has a worker. -/
  busy : ∀ w ∈ s.thread.sched.workers, w.id = id → ¬s.Cleans id → ∃ base, s.latest id = (s.traffic w).transfer.or base ∧
    s.Meets (Undisturbed (ownPaths request.destination)) fails (Op.Confined request.destination)
      (Ended platform request fails base) w
  /-- Its partial files are removed. -/
  cleaning : ∀ c ∈ s.cleanup, s.Cleans id → Cleaning request fails id c s
  /-- It has ended. -/
  ended : ∀ tx value, (s.thread.view id).results = [(tx, value)] → Left request fails ends id value s

end

namespace System

/-! ### The terms -/

/-- The moves that may change the files of a download: those of its workers, and of the removal of its partial
files. -/
def tends (s : System) (id : Uuid) : Move → Bool
  | .worker w _ => w.id = id
  | .cleanup _ => s.cleanup.any fun c => c.id = id
  | _ => false

/-- The operation of a worker of a download that fails. -/
def faulty (s : System) (id : Uuid) : Move → Option (Traffic × FileOp PathBuf UInt8)
  | .worker w (.file (some _)) =>
    match s.program w with
    | .call (.file op) _ => if w.id = id then some (s.traffic w, op) else none
    | _ => none
  | _ => none

/-- The error of its worker that a download ends with. -/
def failure (s : System) (id : Uuid) : Move → Option Error
  | .yield w =>
    match s.program w, s.thread.sched.jobs.lookup id with
    | .done (.error e), some job =>
      if w.id = id ∧ job.state ≠ .cancelling ∧ (e.isRetryable → job.request.config.retries ≤ job.attempt) then some e
      else none
    | _, _ => none
  | _ => none

variable (nextDelay : UInt32 → Except Panic Duration) (fails : Traffic → FileOp PathBuf UInt8 → Prop)
  (ends : Error → Prop) (id : Uuid) (dest : PathBuf)

/-- The terms. -/
structure Terms (s : System) (m : Move) : Prop where
  /-- Nobody else touches the files. -/
  alone : s.tends id m = false → ∀ s' ∈ s.step nextDelay m, ∀ path ∈ ownPaths dest, s.disk.Agree s'.disk path
  /-- What may fail. -/
  faults : ∀ x ∈ s.faulty id m, fails x.1 x.2
  /-- How it may end. -/
  failures : ∀ e ∈ s.failure id m, ends e

instance {s : System} {m : Move} [∀ traffic op, Decidable (fails traffic op)] [DecidablePred ends] :
    Decidable (s.Terms nextDelay fails ends id dest m) :=
  decidable_of_iff ((s.tends id m = false → ∀ s' ∈ s.step nextDelay m, ∀ path ∈ ownPaths dest,
      s'.disk.dir path = s.disk.dir path ∧ s'.disk.file path = s.disk.file path) ∧
      (∀ x ∈ s.faulty id m, fails x.1 x.2) ∧ ∀ e ∈ s.failure id m, ends e)
    ⟨fun h => ⟨h.1, h.2.1, h.2.2⟩, fun h => ⟨h.alone, h.faults, h.failures⟩⟩

/-- What a step of the others leaves alone. -/
structure Apart (s s' : System) : Prop where
  /-- The files. -/
  alone : Cleanup.Alone dest s.disk s'.disk
  /-- The last transfer. -/
  latest : s'.latest id = s.latest id
  /-- The workers. -/
  program : ∀ w, w.id = id → s'.program w = s.program w
  /-- What they see. -/
  undisturbed : ∀ w, w.id = id → Undisturbed (ownPaths dest) (s.shared w) (s'.shared w)
  /-- What has been removed. -/
  discarded : s.discarded ⊆ s'.discarded

end System

section

variable {nextDelay : UInt32 → Except Panic Duration} {platform : Platform} {request : Request}
  {fails : Traffic → FileOp PathBuf UInt8 → Prop} {ends : Error → Prop} {id : Uuid} {s s' : System} {m : Move}

theorem System.Next.apart {dest : PathBuf} (h : s.Next nextDelay m s') (hm : s.tends id m = false)
    (halone : Cleanup.Alone dest s.disk s'.disk) : System.Apart id dest s s' := by
  have hworker (w : Worker) (hid : w.id = id) : ∀ choice, m ≠ .worker w choice := by
    rintro choice rfl
    simp [System.tends, hid] at hm
  refine ⟨halone, ?_, fun w hid => (h.undisturbed (hworker w hid) halone).1,
    fun w hid => (h.undisturbed (hworker w hid) halone).2, ?_⟩
  · cases h with
    | @worker w =>
      have hne : id ≠ w.id := fun he => hworker w he.symm _ rfl
      exact Function.update_of_ne hne _ _
    | cancelRoot | act | wait | cleanup | again | resume | outside => rfl
  · cases h with
    | again | resume => exact List.subset_append_left _ _
    | cancelRoot | act | wait | worker | cleanup | outside => exact List.Subset.refl _

/-! ### What the others do -/

theorem Rested.congr {latest : Option Transfer} {disk disk' : Disk} (h : Rested platform request fails latest disk)
    (halone : Cleanup.Alone request.destination disk disk') : Rested platform request fails latest disk' :=
  ⟨fun hp x hx => (h.kept hp x hx).congr (halone _ part_mem_ownPaths) (halone _ manifest_mem_ownPaths),
    h.tidied.congr (halone _ tmp_mem_ownPaths)⟩

theorem Left.congr {value : Result DownloadResult} (h : Left request fails ends id value s)
    (halone : Cleanup.Alone request.destination s.disk s'.disk) (hdiscarded : s.discarded ⊆ s'.discarded) :
    Left request fails ends id value s' where
  completed result hv :=
    ⟨(halone _ part_mem_ownPaths).2.trans (h.completed result hv).1,
      fun hc => (halone _ manifest_mem_ownPaths).2.trans ((h.completed result hv).2 hc)⟩
  cancelled hv :=
    ⟨(halone _ part_mem_ownPaths).2.trans (h.cancelled hv).1, (halone _ manifest_mem_ownPaths).2.trans (h.cancelled hv).2⟩
  failed e hv he := (h.failed e hv he).imp_left fun hmem => hdiscarded hmem
  tidied := h.tidied.congr (halone _ tmp_mem_ownPaths)

theorem Cleaning.congr {c c' : Cleanup} (h : Cleaning request fails id c s)
    (hapart : System.Apart id request.destination s s')
    (hworkers : ∀ w ∈ s'.thread.sched.workers, w.id = id → w ∈ s.thread.sched.workers)
    (hc : c'.id = id → c.id = id ∧ c'.program = c.program) (hresults : c'.results = c.results) :
    Cleaning request fails id c' s' where
  tidied := h.tidied.congr (hapart.alone _ tmp_mem_ownPaths)
  done w hw hid := hapart.program w hid ▸ h.done w (hworkers w hw hid) hid
  program hid := by
    obtain ⟨hid, hprogram⟩ := hc hid
    rw [hprogram]
    exact (h.program hid).stable (fun _ _ _ => Cleanup.Alone.trans) (fun _ _ _ hop _ => hop)
      (fun _ _ _ hr halone => hr.congr halone) hapart.alone
  results r hr := by
    rw [hresults] at hr
    exact ⟨(h.results r hr).1.congr hapart.alone, hapart.discarded (h.results r hr).2⟩

/-- **Nothing happens to the download.** -/
theorem Standing.rest (h : Standing platform request fails ends id s) (hapart : System.Apart id request.destination s s')
    (hrests : s.thread.Rests s'.thread id) (hcleans : s.Cleans id → s'.Cleans id)
    (hcleaning : ∀ c ∈ s'.cleanup, s'.Cleans id → Cleaning request fails id c s') :
    Standing platform request fails ends id s' where
  unborn hbirths := by
    obtain ⟨hlatest, htidied⟩ := h.unborn (hrests.births.symm.trans hbirths)
    exact ⟨hapart.latest.trans hlatest, htidied.congr (hapart.alone _ tmp_mem_ownPaths)⟩
  idle job' hjob' hidle hnot := by
    obtain ⟨job, hjob, hholding⟩ := Option.map_eq_some_iff.mp
      ((hrests.job.symm.trans (congrArg (Option.map Job.holding) hjob')))
    have hactive : job.state.active = job'.state.active := congrArg Prod.snd hholding
    have hidle : job.state.idle := by
      rw [JobState.active_eq, JobState.active_eq, hidle] at hactive
      simpa using hactive
    rw [hapart.latest]
    exact (h.idle job hjob hidle fun hc => hnot (hcleans hc)).congr hapart.alone
  busy w hw hid hnot := by
    obtain ⟨base, hlatest, hmeets⟩ := h.busy w (hrests.workers w hw hid) hid fun hc => hnot (hcleans hc)
    have hundisturbed := hapart.undisturbed w hid
    refine ⟨base, ?_, ?_⟩
    · rw [hapart.latest, hlatest, show s'.traffic w = s.traffic w from hundisturbed.traffic]
    · unfold System.Meets at hmeets ⊢
      rw [hapart.program w hid]
      exact hmeets.stable (fun _ _ _ => .trans) (fun _ _ _ => Op.Confined.stable) (fun _ _ _ => Ended.stable) hundisturbed
  cleaning := hcleaning
  ended tx value hresults := (h.ended tx value (hrests.results.symm.trans hresults)).congr hapart.alone hapart.discarded

/-! ### What is done for the download -/

/-- A transfer that has begun is the last one from then on. -/
theorem Traffic.transfer_after_or (traffic : Traffic) (disk : Disk) (op : Op) (r : op.Reply) (base : Option Transfer) :
    (traffic.after disk op r).transfer.or (traffic.transfer.or base) = (traffic.after disk op r).transfer.or base := by
  have hkeep : traffic.transfer.or (traffic.transfer.or base) = traffic.transfer.or base := by
    cases traffic.transfer <;> rfl
  cases op with
  | file op =>
    cases op with
    | setLen =>
      cases r with
      | ok => cases hresponse : traffic.response <;> simp [Traffic.after, hresponse, hkeep]
      | error => exact hkeep
    | writeAll =>
      cases r with
      | ok => cases htransfer : traffic.transfer <;> simp [Traffic.after, htransfer]
      | error => exact hkeep
    | _ => exact hkeep
  | send => cases r <;> exact hkeep
  | pollStop => cases r <;> exact hkeep

/-- **Its worker goes on.** -/
theorem Standing.work (h : Standing platform request fails ends id s) (hs : s.Reachable nextDelay platform) {w : Worker}
    {choice : Choice} (hid : w.id = id) (hnext : s.Next nextDelay (.worker w choice) s')
    (hfaults : ∀ x ∈ s.faulty id (.worker w choice), fails x.1 x.2) : Standing platform request fails ends id s' := by
  have ht := System.thread_of_reachable hs
  have hw := hnext.pending
  obtain ⟨job, hjob, hactive, -⟩ := Thread.job_of_worker ht hw
  rw [hid] at hjob
  have hmeets' {post : Result WorkerResult → Local → Prop}
      (hmeets : s.Meets (Undisturbed (ownPaths request.destination)) fails (Op.Confined request.destination) post w) :
      s'.Meets (Undisturbed (ownPaths request.destination)) fails (Op.Confined request.destination) post w := by
    refine hmeets.worker (.refl _) hnext fun op next fault hprogram hchoice => hfaults (s.traffic w, op) ?_
    subst hchoice
    simp [System.faulty, hprogram, hid]
  cases hnext with
  | act hasks | wait hasks => cases hasks
  | @worker _ _ op next r l _ hprogram hperform =>
    have hnot : ¬s.Cleans id := by
      rintro ⟨c, hc, hdiscards⟩
      obtain ⟨r', hr'⟩ := (h.cleaning c hc ⟨c, hc, hdiscards⟩).done w hw hid
      cases hprogram.symm.trans hr'
    refine ⟨fun hbirths => absurd hbirths (Thread.births_of_job ht hjob),
      fun job' hjob' hidle => ?_, fun w' hw' hid' _ => ?_,
      fun c hc hcleans => absurd hcleans hnot, fun tx value hresults => ?_⟩
    · exact absurd hid (Thread.not_worker_of_idle ht hjob' hidle w hw)
    · obtain rfl := Thread.worker_unique ht hw' hw (hid'.trans hid.symm)
      obtain ⟨base, hlatest, hmeets⟩ := h.busy w' hw hid hnot
      refine ⟨base, ?_, hmeets' hmeets⟩
      obtain ⟨-, disk, -, rfl⟩ := Local.perform_eq hperform
      subst hid
      simp only [System.performed, Function.update_self, hlatest]
      exact Traffic.transfer_after_or (s.traffic w') s.disk op r base
    · have hnone := Thread.results_of_job ht hjob
      cases hnone.symm.trans hresults

/-- A job whose partial files are removed is in the map. -/
theorem System.Cleans.job (h : s.Cleans id) : ∃ job, s.thread.sched.jobs.lookup id = some job := by
  obtain ⟨c, -, dest, hdiscards⟩ := h
  obtain ⟨job, hjob, -⟩ := Thread.idle_or_worker_of_discards hdiscards
  exact ⟨job, hjob⟩

/-- A download that has a job has been asked for, and it has not ended. -/
theorem Standing.of_job (hs : s.Reachable nextDelay platform) {job : Job}
    (hjob : s.thread.sched.jobs.lookup id = some job)
    (hidle : job.state.idle → ¬s.Cleans id → Rested platform request fails (s.latest id) s.disk)
    (hbusy : ∀ w ∈ s.thread.sched.workers, w.id = id → ¬s.Cleans id →
      ∃ base, s.latest id = (s.traffic w).transfer.or base ∧
        s.Meets (Undisturbed (ownPaths request.destination)) fails (Op.Confined request.destination)
          (Ended platform request fails base) w)
    (hcleaning : ∀ c ∈ s.cleanup, s.Cleans id → Cleaning request fails id c s) :
    Standing platform request fails ends id s := by
  have ht := System.thread_of_reachable hs
  refine ⟨fun hbirths => absurd hbirths (Thread.births_of_job ht hjob), fun job' hjob' => ?_, hbusy, hcleaning,
    fun tx value hresults => ?_⟩
  · cases hjob.symm.trans hjob'
    exact hidle
  · have hnone := Thread.results_of_job ht hjob
    cases hnone.symm.trans hresults

/-- Nor does it have a worker if the job has none. -/
theorem Standing.of_idle (hs : s.Reachable nextDelay platform) (hcleanup : s.cleanup = none) {job : Job}
    (hjob : s.thread.sched.jobs.lookup id = some job) (hidle : job.state.idle)
    (hrested : Rested platform request fails (s.latest id) s.disk) : Standing platform request fails ends id s := by
  refine .of_job hs hjob (fun _ _ => hrested) (fun w hw hid => ?_) fun c hc => ?_
  · exact absurd hid (Thread.not_worker_of_idle (System.thread_of_reachable hs) hjob hidle w hw)
  · cases hcleanup.symm.trans hc

/-- While its partial files are removed nothing else is of interest. -/
theorem Standing.of_cleans (hs : s.Reachable nextDelay platform) (hcleans : s.Cleans id)
    (hcleaning : ∀ c ∈ s.cleanup, Cleaning request fails id c s) : Standing platform request fails ends id s := by
  obtain ⟨job, hjob⟩ := hcleans.job
  exact .of_job hs hjob (fun _ hnot => absurd hcleans hnot) (fun _ _ _ hnot => absurd hcleans hnot)
    fun c hc _ => hcleaning c hc

/-- **One of its partial files is removed.** -/
theorem Cleaning.remove {c : Cleanup} (h : Cleaning request fails id c s) (hid : c.id = id)
    {fault : Option (Fault IoError)}
    {op : FileOp PathBuf UInt8} {next : Except IoError op.Value → Async Unit} {r : Except IoError op.Value} {disk : Disk}
    (hprogram : c.program = .call (.file op) next) (htruthful : Truthful s.disk op fault)
    (hperform : performFile s.disk fault op = (r, disk)) :
    Cleaning request fails id { c with program := next r }
      { s with disk := disk, cleanup := some { c with program := next r } } := by
  have hholds := h.program hid
  rw [hprogram] at hholds
  have henv : Cleanup.env (.file op) s.disk r disk := ⟨fault, htruthful, hperform⟩
  have hnone {path : PathBuf} (hpath : s.disk.file path = none) : disk.file path = none :=
    hholds.1.file_eq_none henv hpath
  refine ⟨fun ht => hnone (h.tidied ht), h.done, fun _ => hholds.2 r disk ⟨s.disk, .refl _ _, henv⟩, fun r' hr' => ?_⟩
  exact ⟨(h.results r' hr').1.of_none fun _ _ => hnone, (h.results r' hr').2⟩

/-! ### What the thread does -/

/-- A download that has just ended. -/
theorem Standing.of_ended (hs' : s'.Reachable nextDelay platform) (hcleanup : s'.cleanup = none)
    (hjob : s'.thread.sched.jobs.lookup id = none) {tx : Sender} {value : Result DownloadResult}
    (hresults : (s'.thread.view id).results = [(tx, value)]) (hleft : Left request fails ends id value s') :
    Standing platform request fails ends id s' := by
  have ht' := System.thread_of_reachable hs'
  refine ⟨fun hbirths => ?_, fun job hjob' => ?_, fun w hw hid => ?_, fun c hc => ?_, fun tx' value' hresults' => ?_⟩
  · exact absurd hbirths (Thread.births_of_results ht' (by simp [hresults]))
  · cases hjob.symm.trans hjob'
  · exact absurd hid (Thread.not_worker_of_none ht' hjob w hw)
  · cases hcleanup.symm.trans hc
  · cases hresults.symm.trans hresults'
    exact hleft

/-- **The thread goes on**, and removes no partial files of the download. -/
theorem Standing.act (h : Standing platform request fails ends id s) (hs : s.Reachable nextDelay platform)
    (hs' : s'.Reachable nextDelay platform) (hapart : System.Apart id request.destination s s') {a : Action}
    (hstep : s.thread.step nextDelay a = some s'.thread) (howns : s'.thread.Owns id request) (hnot : ¬s.Cleans id)
    (hcleanup : s'.cleanup = none) (hdiscards : ∀ dest, (id, dest) ∉ s.thread.discards a)
    (hdone : ∀ w r discarded, a = .worker w r discarded → w.id = id → s.program w = .done r ∧
      ∀ e job, r = .error e → s.thread.sched.jobs.lookup id = some job → job.state ≠ .cancelling →
        (e.isRetryable → job.request.config.retries ≤ job.attempt) → ends e) :
    Standing platform request fails ends id s' := by
  have ht := System.thread_of_reachable hs
  have ht' := System.thread_of_reachable hs'
  have hended {w : Worker} (hw : w ∈ s.thread.sched.workers) (hid : w.id = id) {r : Result WorkerResult}
      (hprogram : s.program w = .done r) : ∃ base, s.latest id = (s.traffic w).transfer.or base ∧
        Ended platform request fails base r (s.shared w) := by
    obtain ⟨base, hlatest, hmeets⟩ := h.busy w hw hid hnot
    rw [System.Meets, hprogram] at hmeets
    exact ⟨base, hlatest, hmeets⟩
  cases Thread.fate_of_step ht hstep id with
  | rests hjob hworkers hresults hbirths =>
    refine h.rest hapart ⟨hjob, hworkers, hresults, hbirths⟩ (fun hc => absurd hc hnot) fun c hc => ?_
    cases hcleanup.symm.trans hc
  | made hold hbirths hnew hrequest hidle =>
    obtain ⟨hlatest, htidied⟩ := h.unborn hbirths
    refine .of_idle hs' hcleanup hnew hidle ?_
    rw [hapart.latest, hlatest]
    exact ⟨nofun, htidied.congr (hapart.alone _ tmp_mem_ownPaths)⟩
  | @starts _ job job' hold hidle hnew hrequest hactive hresults =>
    have hrested := (h.idle job hold hidle hnot).congr hapart.alone
    refine .of_job hs' hnew (fun hidle' => ?_) (fun w hw hid _ => ?_) fun c hc => ?_
    · rw [JobState.active_eq, hidle'] at hactive
      cases hactive
    · -- it is a new worker
      have hlate := (Thread.next_of_step hstep).later.workers w hw
      have hfresh := System.fresh_of_reachable hs w
        (hlate.resolve_left fun hold' => Thread.not_worker_of_idle ht hold hidle w hold' hid)
      have hrun : s'.program w = Worker.run platform request := by
        rw [hapart.program w hid, hfresh.program, howns.worker_request ht' hw hid]
      have htraffic : s'.traffic w = {} := (hapart.undisturbed w hid).traffic.trans hfresh.traffic
      refine ⟨s.latest id, by rw [hapart.latest, htraffic, Option.none_or], ?_⟩
      rw [System.Meets, hrun]
      exact Worker.run_ended ⟨congrArg Traffic.transfer htraffic, hrested.kept, hrested.tidied⟩
    · cases hcleanup.symm.trans hc
  | @returns w r discarded _ job job' hw hid hr hold hd hnew hrequest hidle hresults =>
    obtain ⟨hprogram, -⟩ := hdone w r discarded rfl hid
    obtain ⟨base, hlatest, hended⟩ := hended hw hid hprogram
    have hrested : Rested platform request fails (s.latest id) s.disk := by
      rw [hlatest]
      exact ⟨fun hp => hended.kept hp hr, hended.tidied⟩
    refine .of_idle hs' hcleanup hnew hidle ?_
    rw [hapart.latest]
    exact hrested.congr hapart.alone
  | @ends _ _ job tx value hold hnew hresults hends =>
    refine .of_ended hs' hcleanup hnew hresults (Left.congr ?_ hapart.alone hapart.discarded)
    cases hends with
    | @finished w result discarded hw hid =>
      obtain ⟨hprogram, -⟩ := hdone w _ discarded rfl hid
      obtain ⟨base, -, hended⟩ := hended hw hid hprogram
      have hcomplete := hended.finished result rfl
      exact ⟨fun _ _ => ⟨hcomplete.part, hcomplete.manifest⟩, nofun, nofun, hended.tidied⟩
    | @failed w error discarded hw hid hstate hretry =>
      obtain ⟨hprogram, hfails⟩ := hdone w _ discarded rfl hid
      obtain ⟨base, -, hended⟩ := hended hw hid hprogram
      have hregardless := System.regardless_of_reachable hs hw
      rw [System.Meets, hprogram] at hregardless
      refine ⟨nofun, fun hv => absurd hv fun he => hregardless.ne_cancelled ?_, fun e hv _ => ?_, hended.tidied⟩
      · cases he
        rfl
      · cases hv
        exact .inr (hfails error job rfl hold hstate hretry)
    | discarded hmem => exact absurd hmem (hdiscards _)

/-- The results, once `discard_partial` has returned. -/
theorem Cleaning.mem_results {c : Cleanup} (h : Cleaning request fails id c s) {r r' : Result Unit}
    (hprogram : c.program = .done r) (hmem : (id, r') ∈ c.results ++ [(c.id, r)]) :
    Removed request.destination r' s.disk ∧ (id, r') ∈ s.discarded ++ [(c.id, r)] := by
  rcases List.mem_append.mp hmem with hmem | hmem
  · exact ⟨(h.results r' hmem).1, List.mem_append_left _ (h.results r' hmem).2⟩
  · refine ⟨?_, List.mem_append_right _ hmem⟩
    cases List.mem_singleton.mp hmem
    have hholds := h.program rfl
    rw [hprogram] at hholds
    exact hholds

/-- **The download ends** when its partial files have been removed. -/
theorem Standing.removed (hs : s.Reachable nextDelay platform) {c : Cleanup} {r : Result Unit} {t : Thread}
    (hcleaning : Cleaning request fails id c s) (hcleanup : s.cleanup = some c) (hprogram : c.program = .done r)
    (htodo : c.todo = []) (hcleans : s.Cleans id)
    (ht : s.thread.step nextDelay
      (c.action.withDiscarded fun id => ((c.results ++ [(c.id, r)]).lookup id).getD (.ok ())) = some t)
    (hs' : System.Reachable nextDelay platform
      { s with thread := t, discarded := s.discarded ++ [(c.id, r)], cleanup := none }) :
    Standing platform request fails ends id
      { s with thread := t, discarded := s.discarded ++ [(c.id, r)], cleanup := none } := by
  obtain ⟨c', hc', dest, hmem⟩ := hcleans
  cases hcleanup.symm.trans hc'
  obtain ⟨r', hr', hlookup⟩ := System.mem_results hs hcleanup htodo r hmem
  obtain ⟨hremoved, hdiscarded⟩ := hcleaning.mem_results hprogram hr'
  have hfor := Thread.discardedFor_withDiscarded
    (fun id => ((c.results ++ [(c.id, r)]).lookup id).getD (.ok ())) hmem
  rw [hlookup] at hfor
  rw [← Thread.discards_withDiscarded fun id => ((c.results ++ [(c.id, r)]).lookup id).getD (.ok ())] at hmem
  generalize (c.action.withDiscarded fun id => ((c.results ++ [(c.id, r)]).lookup id).getD (.ok ())) = a at ht hfor hmem
  have hjob {job : Job} (hold : s.thread.sched.jobs.lookup id = some job) {w : Worker} {result : Result WorkerResult}
      {discarded : Result Unit} (ha : a = .worker w result discarded) : job.state.discards (.worker result) = true := by
    subst ha
    obtain ⟨-, job', hjob', hd, -⟩ := Thread.mem_discards.mp hmem
    cases hold.symm.trans hjob'
    exact hd
  cases Thread.fate_of_step (System.thread_of_reachable hs) ht id with
  | rests _ _ _ _ hdiscards => exact absurd hmem (hdiscards dest)
  | made hold =>
    obtain ⟨job, hnew, -⟩ := Thread.idle_or_worker_of_discards hmem
    cases hold.symm.trans hnew
  | starts => cases hmem
  | returns _ _ _ hold hd => exact absurd (hjob hold rfl) (by rw [hd]; exact nofun)
  | @ends _ _ job tx value hold hnew hresults hends =>
    refine .of_ended hs' rfl hnew hresults ?_
    cases hends with
    | finished => exact absurd rfl ((JobState.discards_worker (hjob hold rfl)).1 _)
    | failed _ _ hstate => exact ((JobState.discards_worker (hjob hold rfl)).2.elim hstate fun h => nomatch h.2).elim
    | discarded =>
      rw [hfor]
      cases r' with
      | ok _ => exact ⟨nofun, fun _ => ⟨hremoved.part rfl, hremoved.manifest rfl⟩,
        fun e he hne => absurd (Except.error.inj he).symm hne,
          hcleaning.tidied⟩
      | error e =>
        refine ⟨nofun, fun he => ?_, fun e' he _ => ?_, hcleaning.tidied⟩
        · exact absurd (congrArg Except.error (Except.error.inj he)) hremoved.ne_cancelled
        · cases he
          exact .inl hdiscarded

/-- **The thread begins to remove** its partial files. -/
theorem Standing.cleaning_of_wait (h : Standing platform request fails ends id s) (hs : s.Reachable nextDelay platform)
    (howns : s.thread.Owns id request) (hidle : s.cleanup = none) {action : Action} (hasks : s.Asks m action) {t : Thread}
    (ht : s.thread.step nextDelay action = some t) {i : Uuid} {dest : PathBuf} {todo : List (Uuid × PathBuf)}
    (hdiscards : s.thread.discards action = (i, dest) :: todo) {dest' : PathBuf}
    (hmem : (id, dest') ∈ s.thread.discards action) :
    Cleaning request fails id ⟨action, i, discardPartial dest, todo, []⟩
      { s with cleanup := some ⟨action, i, discardPartial dest, todo, []⟩ } := by
  have hreach := System.thread_of_reachable hs
  have hnot : ¬s.Cleans id := System.not_cleans hidle
  obtain ⟨htidied, hdone⟩ : Tidied fails request.destination s.disk ∧
      ∀ w ∈ s.thread.sched.workers, w.id = id → ∃ r, s.program w = .done r := by
    obtain ⟨job, hjob, -, hstate | ⟨w, r, discarded, rfl, hid, -⟩⟩ := Thread.idle_or_worker_of_discards hmem
    · exact ⟨(h.idle job hjob hstate hnot).tidied,
        fun w hw hid => absurd hid (Thread.not_worker_of_idle hreach hjob hstate w hw)⟩
    · have hw : w ∈ s.thread.sched.workers := by cases Thread.next_of_step ht <;> assumption
      have hprogram : s.program w = .done r := by
        cases hasks with
        | thread hworker => exact absurd rfl (hworker w r discarded)
        | yield hprogram => exact hprogram
      obtain ⟨base, -, hmeets⟩ := h.busy w hw hid hnot
      rw [System.Meets, hprogram] at hmeets
      refine ⟨hmeets.tidied, fun w' hw' hid' => ⟨r, ?_⟩⟩
      rwa [Thread.worker_unique hreach hw' hw (hid'.trans hid.symm)]
  refine ⟨htidied, hdone, fun hid => ?_, nofun⟩
  obtain rfl : i = id := hid
  obtain ⟨job, hjob, hdest, -⟩ := Thread.idle_or_worker_of_discards (hdiscards ▸ List.mem_cons_self :
    (i, dest) ∈ s.thread.discards action)
  rw [hdest, howns.request_eq hreach hjob]
  exact discardPartial_holds _ _

/-- And goes on with the next download. -/
theorem Cleaning.again {c : Cleanup} (h : Cleaning request fails id c s) (hs : s.Reachable nextDelay platform)
    (howns : s.thread.Owns id request) (hcleanup : s.cleanup = some c) {r : Result Unit} (hprogram : c.program = .done r)
    {i : Uuid} {dest : PathBuf} {todo : List (Uuid × PathBuf)} (htodo : c.todo = (i, dest) :: todo) :
    Cleaning request fails id ⟨c.action, i, discardPartial dest, todo, c.results ++ [(c.id, r)]⟩
      { s with
        discarded := s.discarded ++ [(c.id, r)]
        cleanup := some ⟨c.action, i, discardPartial dest, todo, c.results ++ [(c.id, r)]⟩ } := by
  refine ⟨h.tidied, h.done, fun hid => ?_, fun r' hr' => h.mem_results hprogram hr'⟩
  obtain rfl : i = id := hid
  obtain ⟨before, dest', hdiscards, -⟩ := (System.cleanup_agrees hs c hcleanup).discards
  have hmem : (i, dest) ∈ s.thread.discards c.action := by
    rw [hdiscards, htodo]
    simp
  obtain ⟨job, hjob, hdest, -⟩ := Thread.idle_or_worker_of_discards hmem
  rw [hdest, howns.request_eq (System.thread_of_reachable hs) hjob]
  exact discardPartial_holds _ _

/-- **Every step that keeps to the terms.** -/
theorem Standing.step (h : Standing platform request fails ends id s) (hs : s.Reachable nextDelay platform)
    (hm : s.Terms nextDelay fails ends id request.destination m) (hstep : s.step nextDelay m = some s')
    (howns : s'.thread.Owns id request) : Standing platform request fails ends id s' := by
  have hs' : s'.Reachable nextDelay platform := hs.step hstep
  have hnext := System.next_of_step hstep
  by_cases htends : s.tends id m = true
  · cases m with
    | worker w choice => exact h.work hs (by simpa [System.tends] using htends) hnext hm.faults
    | cleanup fault =>
      cases hnext with
      | act hasks | wait hasks => cases hasks
      | @cleanup c _ _ _ _ _ hcleanup hprogram htruthful hperform =>
        have hid : c.id = id := by simpa [System.tends, hcleanup] using htends
        have hcleans : s.Cleans id := hid ▸ System.cleans_id hs hcleanup
        obtain ⟨c', hc', hdiscards⟩ := hcleans
        cases hcleanup.symm.trans hc'
        refine .of_cleans hs' ⟨_, rfl, hdiscards⟩ fun c' hc' => ?_
        cases hc'
        exact (h.cleaning c hcleanup ⟨c, hcleanup, hdiscards⟩).remove hid hprogram htruthful hperform
    | thread | yield | discarded | outside => cases htends
  · have htends : s.tends id m = false := by simpa using htends
    have hapart := hnext.apart htends (hm.alone htends s' hstep)
    cases hnext with
    | cancelRoot ht =>
      cases ht
      refine h.rest hapart ⟨rfl, fun _ hw _ => hw, rfl, rfl⟩ (fun hc => hc) fun c hc hcleans => ?_
      exact (h.cleaning c hc hcleans).congr hapart (fun _ hw _ => hw) (fun hid => ⟨hid, rfl⟩) rfl
    | act hasks hidle hnone ht =>
      refine h.act hs hs' hapart ht howns (System.not_cleans hidle) hidle (by rw [hnone]; exact nofun) ?_
      intro w r discarded ha hid
      subst ha
      cases hasks with
      | thread hworker => exact absurd rfl (hworker w r discarded)
      | yield hprogram =>
        refine ⟨hprogram, fun e job he hjob hstate hretry => hm.failures e ?_⟩
        subst he
        simp only [System.failure, hprogram, hjob]
        exact if_pos ⟨hid, hstate, hretry⟩
    | @wait _ action _ i dest todo hasks hidle hdiscards ht =>
      by_cases hcleans : ∃ dest', (id, dest') ∈ s.thread.discards action
      · obtain ⟨dest', hmem⟩ := hcleans
        refine .of_cleans hs' ⟨_, rfl, dest', hmem⟩ fun c hc => ?_
        cases hc
        exact h.cleaning_of_wait hs howns hidle hasks ht hdiscards hmem
      · refine h.rest hapart (.refl _ _) (fun hc => absurd hc (System.not_cleans hidle)) fun c hc ⟨c', hc', hmem⟩ => ?_
        cases hc'
        exact absurd hmem hcleans
    | worker | outside =>
      refine h.rest hapart (.refl _ _) (fun hc => hc) fun c hc hcleans => ?_
      exact (h.cleaning c hc hcleans).congr hapart (fun _ hw _ => hw) (fun hid => ⟨hid, rfl⟩) rfl
    | @cleanup c _ _ _ _ _ hcleanup =>
      have hid : c.id ≠ id := by simpa [System.tends, hcleanup] using htends
      refine h.rest hapart (.refl _ _) (fun ⟨c', hc', hmem⟩ => ?_) fun c' hc' ⟨c'', hc'', hmem⟩ => ?_
      · cases hcleanup.symm.trans hc'
        exact ⟨_, rfl, hmem⟩
      · cases hc'
        cases hc''
        exact (h.cleaning c hcleanup ⟨c, hcleanup, hmem⟩).congr hapart (fun _ hw _ => hw) (fun h' => absurd h' hid) rfl
    | @again c r i dest todo hcleanup hprogram htodo =>
      refine h.rest hapart (.refl _ _) (fun ⟨c', hc', hmem⟩ => ?_) fun c' hc' ⟨c'', hc'', hmem⟩ => ?_
      · cases hcleanup.symm.trans hc'
        exact ⟨_, rfl, hmem⟩
      · cases hc'
        cases hc''
        exact (h.cleaning c hcleanup ⟨c, hcleanup, hmem⟩).again hs howns hcleanup hprogram htodo
    | @resume c r t hcleanup hprogram htodo ht =>
      by_cases hcleans : s.Cleans id
      · exact .removed hs (h.cleaning c hcleanup hcleans) hcleanup hprogram htodo hcleans ht hs'
      · refine h.act hs hs' hapart ht howns hcleans rfl (fun dest hmem => hcleans ⟨c, hcleanup, dest, ?_⟩) ?_
        · rwa [Thread.discards_withDiscarded] at hmem
        · -- the job whose files have been removed is the worker's
          intro w result discarded ha hid
          obtain ⟨c', hc', dest, hmem⟩ := System.cleans_id hs hcleanup
          cases hcleanup.symm.trans hc'
          rw [← Thread.discards_withDiscarded fun id => ((c.results ++ [(c.id, r)]).lookup id).getD (.ok ()), ha] at hmem
          have hid' : w.id = c.id := (Thread.mem_discards.mp hmem).1
          exact absurd (hid ▸ hid' ▸ System.cleans_id hs hcleanup) hcleans

/-! ### Runs -/

/-- A new system has no downloads. -/
theorem standing_new {maxConcurrent : ℕ+} {disk : Disk} (hdisk : Tidied fails request.destination disk) :
    Standing platform request fails ends id (.new platform maxConcurrent disk) :=
  ⟨fun _ => ⟨rfl, hdisk⟩, nofun, nofun, nofun, nofun⟩

/-- What a download was asked for. -/
theorem Thread.owns_of_mem {t : Thread} (ht : Thread.Reachable nextDelay t) {progressTx tx : Sender}
    (h : .enqueue id request progressTx tx ∈ t.handled) : t.Owns id request := fun _ _ _ h' =>
  (birth_unique ht h (List.mem_filter.mpr ⟨h', decide_eq_true rfl⟩)).1.symm

/-- The results in the view of a download are those that have been sent. -/
theorem Thread.mem_results_iff {t : Thread} {tx : Sender} {value : Result DownloadResult} :
    (tx, value) ∈ (t.view id).results ↔ .result id tx value ∈ t.sched.log := by
  refine ⟨fun h => ?_, fun h => List.mem_filterMap.mpr ⟨_, List.mem_filter.mpr ⟨h, decide_eq_true rfl⟩, rfl⟩⟩
  obtain ⟨o, ho, hvalue⟩ := List.mem_filterMap.mp h
  obtain ⟨hmem, hid⟩ := List.mem_filter.mp ho
  cases o with
  | result id' tx' value' =>
    cases hvalue
    obtain rfl : id' = id := of_decide_eq_true hid
    exact hmem
  | _ => cases hvalue

/-- The result of a download is the one that has been sent. -/
theorem Thread.results_of_mem {t : Thread} (ht : Thread.Reachable nextDelay t) {tx : Sender}
    {value : Result DownloadResult}
    (h : .result id tx value ∈ t.sched.log) : t.sched.jobs.lookup id = none ∧ (t.view id).results = [(tx, value)] := by
  have hmem : (tx, value) ∈ (t.view id).results := Thread.mem_results_iff.mpr h
  have hinv := inv_of_reachable ht id
  rcases (t.view id).job.eq_none_or_eq_some with hj | ⟨job, hj⟩
  · rcases ((inv_none hj).mp hinv).2.2.2 with hunborn | hover
    · rw [hunborn.results] at hmem
      cases hmem
    · obtain ⟨request, tx', value', -, hresults, -⟩ := hover.result
      rw [hresults] at hmem
      cases List.mem_singleton.mp hmem
      exact ⟨hj, hresults⟩
  · rw [Thread.results_of_job ht hj] at hmem
    cases hmem

/-- **How a download stands** in a run that keeps to the terms. -/
theorem standing_of_run {maxConcurrent : ℕ+} {disk : Disk} {ms : List Move} {progressTx tx : Sender}
    (hdisk : Tidied fails request.destination disk)
    (hms : Machine.Along (System.step nextDelay) (fun s m => s.Terms nextDelay fails ends id request.destination m)
      (.new platform maxConcurrent disk) ms)
    (hrun : Machine.exec (System.step nextDelay) (.new platform maxConcurrent disk) ms = some s)
    (hasked : .enqueue id request progressTx tx ∈ s.thread.handled) :
    s.Reachable nextDelay platform ∧ Standing platform request fails ends id s := by
  obtain ⟨hs, hstanding⟩ := Machine.exec_induct_along (System.step nextDelay)
    (P := fun s m => s.Terms nextDelay fails ends id request.destination m)
    (Q := fun s => s.Reachable nextDelay platform ∧
      (s.thread.Owns id request → Standing platform request fails ends id s))
    (by
      rintro s m s' ⟨hs, h⟩ hm hstep
      refine ⟨hs.step hstep, fun howns => (h ?_).step hs hm hstep howns⟩
      rcases (System.next_of_step hstep).thread with heq | ⟨action, ht⟩
      · exact heq ▸ howns
      · exact howns.of_step ht)
    ms hms ⟨.init ⟨_, _, rfl⟩, fun _ => standing_new hdisk⟩ hrun
  exact ⟨hs, hstanding (Thread.owns_of_mem (System.thread_of_reachable hs) hasked)⟩

end

end DownloadManager
