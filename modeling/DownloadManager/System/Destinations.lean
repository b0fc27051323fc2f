import DownloadManager.System.Isolation

/-!
# Downloads with destinations of their own

Whether downloads disturb each other is a matter of their destinations. The files of two have
names in common only when the destinations are the same, or one is a sidecar of the other
(`unrelated_iff`). When that is so of no two downloads that have been asked for, and other
programs leave their files alone, every step is one that keeps them separate
(`separate_of_unrelated`). Then nobody but a download itself touches its files, and what has
been reported complete is complete from then on, whatever the others do (`stays_complete`).

Destinations are compared as paths: in these runs no file has two names.
-/

namespace DownloadManager

open FileSystem

/-! ### Names -/

namespace PathBuf

/-- The last character of the file name. -/
def ending (path : PathBuf) : Option Char := path.fileName.bind fun name => name.toList.getLast?

theorem ending_withAddedExtension {path : PathBuf} (h : path.IsFile) {extension : String} {c : Char}
    (hc : extension.toList.getLast? = some c) : (path.withAddedExtension extension).ending = some c := by
  obtain ⟨dirs, name⟩ := path
  cases name with
  | none => cases h
  | some name => simp [ending, withAddedExtension, List.getLast?_cons, hc]

theorem withAddedExtension_inj {path path' : PathBuf} {extension : String}
    (h : path.withAddedExtension extension = path'.withAddedExtension extension) : path = path' := by
  have hinj : Function.Injective fun name : String => name ++ "." ++ extension := by
    intro name name' h
    have h := congrArg String.toList h
    simp only [String.toList_append] at h
    exact String.toList_injective (List.append_cancel_right (List.append_cancel_right h))
  have hdirs := congrArg dirs h
  have hname := congrArg fileName h
  exact PathBuf.ext hdirs (Option.map_injective hinj hname)

end PathBuf

variable {dest dest' path : PathBuf}

theorem mem_ownPaths : path ∈ ownPaths dest ↔ path = dest ∨ path ∈ sidecars dest := List.mem_cons

/-- What is no file has no sidecars but itself. -/
theorem eq_of_mem_ownPaths (h : ¬dest.IsFile) (hpath : path ∈ ownPaths dest) : path = dest := by
  simpa [ownPaths, partPath_of_not_isFile h, manifestPath_of_not_isFile h, tmpPath_of_not_isFile h] using hpath

/-- Sidecars of the same name are those of one destination. -/
theorem eq_of_mem_sidecars (h : dest.IsFile) (h' : dest'.IsFile) (hpath : path ∈ sidecars dest)
    (hpath' : path ∈ sidecars dest') : dest = dest' := by
  have hpart {d : PathBuf} (hd : d.IsFile) : (partPath d).ending = some 't' :=
    PathBuf.ending_withAddedExtension hd rfl
  have hmanifest {d : PathBuf} (hd : d.IsFile) : (manifestPath d).ending = some 'n' :=
    PathBuf.ending_withAddedExtension (isFile_partPath.mpr hd) rfl
  have htmp {d : PathBuf} (hd : d.IsFile) : (tmpPath d).ending = some 'p' :=
    PathBuf.ending_withAddedExtension (isFile_manifestPath.mpr hd) rfl
  have hpart_inj {d d' : PathBuf} (he : partPath d = partPath d') : d = d' := PathBuf.withAddedExtension_inj he
  have hmanifest_inj {d d' : PathBuf} (he : manifestPath d = manifestPath d') : d = d' :=
    hpart_inj (PathBuf.withAddedExtension_inj he)
  simp only [sidecars, List.mem_cons, List.not_mem_nil, or_false] at hpath hpath'
  -- the kinds of sidecars end in different characters
  rcases hpath with rfl | rfl | rfl <;> rcases hpath' with he | he | he
  · exact hpart_inj he
  · have := congrArg PathBuf.ending he
    rw [hpart h, hmanifest h'] at this
    cases this
  · have := congrArg PathBuf.ending he
    rw [hpart h, htmp h'] at this
    cases this
  · have := congrArg PathBuf.ending he
    rw [hmanifest h, hpart h'] at this
    cases this
  · exact hmanifest_inj he
  · have := congrArg PathBuf.ending he
    rw [hmanifest h, htmp h'] at this
    cases this
  · have := congrArg PathBuf.ending he
    rw [htmp h, hpart h'] at this
    cases this
  · have := congrArg PathBuf.ending he
    rw [htmp h, hmanifest h'] at this
    cases this
  · exact hmanifest_inj (PathBuf.withAddedExtension_inj he)

/-- Two destinations, neither of which is a file of the other. -/
structure Unrelated (dest dest' : PathBuf) : Prop where
  /-- They differ. -/
  ne : dest ≠ dest'
  /-- The first is no sidecar of the second. -/
  left : dest ∉ sidecars dest'
  /-- Nor is the second one of the first. -/
  right : dest' ∉ sidecars dest

instance (dest dest' : PathBuf) : Decidable (Unrelated dest dest') :=
  decidable_of_iff (dest ≠ dest' ∧ dest ∉ sidecars dest' ∧ dest' ∉ sidecars dest)
    ⟨fun h => ⟨h.1, h.2.1, h.2.2⟩, fun h => ⟨h.ne, h.left, h.right⟩⟩

/-- **The files have no name in common** exactly when the destinations are unrelated. -/
theorem unrelated_iff : Unrelated dest dest' ↔ ∀ path ∈ ownPaths dest, path ∉ ownPaths dest' := by
  constructor
  · intro h path hpath hpath'
    have hdest : dest ∉ ownPaths dest' := by simp [mem_ownPaths, h.ne, h.left]
    have hdest' : dest' ∉ ownPaths dest := by simp [mem_ownPaths, h.ne.symm, h.right]
    by_cases hfile : dest.IsFile
    · by_cases hfile' : dest'.IsFile
      · rcases mem_ownPaths.mp hpath with rfl | hside
        · exact hdest hpath'
        · rcases mem_ownPaths.mp hpath' with rfl | hside'
          · exact hdest' hpath
          · exact h.ne (eq_of_mem_sidecars hfile hfile' hside hside')
      · exact hdest' (eq_of_mem_ownPaths hfile' hpath' ▸ hpath)
    · exact hdest (eq_of_mem_ownPaths hfile hpath ▸ hpath')
  · intro h
    have hdest := h dest dest_mem_ownPaths
    refine ⟨fun he => hdest (he ▸ dest_mem_ownPaths), fun hs => hdest (mem_ownPaths.mpr (.inr hs)), fun hs => ?_⟩
    exact h dest' (mem_ownPaths.mpr (.inr hs)) dest_mem_ownPaths

/-! ### What has been asked for -/

/-- No two downloads that have been asked for have anything to do with each other. -/
def Thread.KeepsApart (t : Thread) : Prop :=
  ∀ x ∈ t.asked, ∀ y ∈ t.asked, x.1 ≠ y.1 → Unrelated x.2.destination y.2.destination

instance (t : Thread) : Decidable t.KeepsApart :=
  inferInstanceAs (Decidable (∀ x ∈ t.asked, ∀ y ∈ t.asked, x.1 ≠ y.1 → _))

namespace Thread

variable {nextDelay : UInt32 → Except Panic Duration} {t t' : Thread} {a : Action}

theorem asked_subset (h : t.step nextDelay a = some t') : t.asked ⊆ t'.asked := by
  unfold asked
  rw [(next_of_step h).handled_eq, List.filterMap_append]
  exact List.subset_append_left _ _

/-- A job is one that has been asked for. -/
theorem mem_asked_of_job (ht : Reachable nextDelay t) {id : Uuid} {job : Job}
    (hjob : t.sched.jobs.lookup id = some job) : (id, job.request) ∈ t.asked := by
  obtain ⟨tx, ⟨progressTx, hasked⟩, -⟩ := ((inv_some (v := t.view id) hjob).mp (inv_of_reachable ht id)).asked
  exact List.mem_filterMap.mpr ⟨_, List.mem_of_mem_filter hasked, rfl⟩

/-- A worker works for one. -/
theorem mem_asked_of_worker (ht : Reachable nextDelay t) {w : Worker} (hw : w ∈ t.sched.workers) :
    (w.id, w.request) ∈ t.asked := by
  obtain ⟨job, hjob, -, hrequest, -⟩ := job_of_worker ht hw
  exact hrequest ▸ mem_asked_of_job ht hjob

/-- Partial files are those of one. -/
theorem mem_asked_of_discards (ht : Reachable nextDelay t) {id : Uuid} {dest : PathBuf}
    (h : (id, dest) ∈ t.discards a) :
    ∃ request, (id, request) ∈ t.asked ∧ dest = request.destination := by
  obtain ⟨job, hjob, hdest, -⟩ := idle_or_worker_of_discards h
  exact ⟨job.request, mem_asked_of_job ht hjob, hdest⟩

/-- What a download has no file in common with. -/
theorem KeepsApart.notMem (h : t.KeepsApart) {id id' : Uuid} {request request' : Request} (hx : (id, request) ∈ t.asked)
    (hy : (id', request') ∈ t.asked) (hne : id ≠ id') {path : PathBuf} (hpath : path ∈ ownPaths request.destination) :
    path ∉ ownPaths request'.destination :=
  unrelated_iff.mp (h _ hx _ hy hne) path hpath

end Thread

namespace System

variable (nextDelay : UInt32 → Except Panic Duration) (platform : Platform)

/-- Other programs leave the files of the downloads alone that have been asked for. -/
def Spares (s : System) (m : Move) : Prop :=
  m.isOutside = true → ∀ s' ∈ s.step nextDelay m, ∀ x ∈ s.thread.asked, ∀ path ∈ ownPaths x.2.destination,
    s.disk.Agree s'.disk path

instance {s : System} {m : Move} : Decidable (s.Spares nextDelay m) :=
  inferInstanceAs (Decidable (m.isOutside = true → ∀ s' ∈ s.step nextDelay m, ∀ x ∈ s.thread.asked,
    ∀ path ∈ ownPaths x.2.destination, s'.disk.dir path = s.disk.dir path ∧ s'.disk.file path = s.disk.file path))

/-- What has been reported complete is complete. -/
def Keeping (s : System) : Prop :=
  ∀ id tx result, .result id tx (.ok result) ∈ s.thread.sched.log →
    ∃ w, w.id = id ∧ (id, w.request) ∈ s.thread.asked ∧
      Complete platform w.request (fun _ _ => True) result (s.shared w)

variable {nextDelay platform} {s s' : System} {m : Move}

theorem asked_subset (h : s.step nextDelay m = some s') : s.thread.asked ⊆ s'.thread.asked := by
  rcases (next_of_step h).thread with heq | ⟨action, ht⟩
  · rw [heq]
    exact List.Subset.refl _
  · exact Thread.asked_subset ht

/-- Nobody tends to a download if its workers do nothing and its files are not being removed. -/
theorem not_tends {id : Uuid} (hworker : ∀ w choice, m = .worker w choice → w.id ≠ id)
    (hcleanup : ∀ c ∈ s.cleanup, c.id ≠ id) : s.tends id m = false := by
  cases m with
  | worker w choice => simpa [tends] using hworker w choice rfl
  | cleanup fault =>
    cases hc : s.cleanup with
    | none => simp [tends, hc]
    | some c => simpa [tends, hc] using hcleanup c hc
  | _ => rfl

theorem keepsApart_of_step (h : s'.thread.KeepsApart) (hstep : s.step nextDelay m = some s') : s.thread.KeepsApart :=
  fun x hx y hy => h x (asked_subset hstep hx) y (asked_subset hstep hy)

variable (hs : s.Reachable nextDelay platform) (h : Isolated platform s) (hspares : s.Spares nextDelay m)
  (hstep : s.step nextDelay m = some s')
include hs h hspares hstep

/-- **Nobody else touches the files of a download.** -/
theorem agree_of_keepsApart (hapart : s.thread.KeepsApart) {id : Uuid} {request : Request}
    (hasked : (id, request) ∈ s.thread.asked) (htends : s.tends id m = false) :
    ∀ path ∈ ownPaths request.destination, s.disk.Agree s'.disk path := by
  intro path hpath
  have ht := thread_of_reachable hs
  cases next_of_step hstep with
  | cancelRoot | act | wait | again | resume => exact .refl _ path
  | outside => exact hspares rfl _ hstep _ hasked path hpath
  | @worker w choice op next r l hw hprogram hperform =>
    have hne : id ≠ w.id := fun he => by simp [tends, he] at htends
    have hnot := hapart.notMem hasked (Thread.mem_asked_of_worker ht hw) hne hpath
    rcases (h.alone hw hprogram).frame hperform path with hagree | hside | ⟨rfl, -⟩
    · exact hagree
    · exact absurd (mem_ownPaths.mpr (.inr hside)) hnot
    · exact absurd dest_mem_ownPaths hnot
  | @cleanup c fault op next r disk hcleanup hprogram htruthful hperform =>
    have hne : id ≠ c.id := fun he => by simp [tends, hcleanup, he] at htends
    obtain ⟨dest, hmem, hholds⟩ := (h.cleanup c hcleanup).program
    obtain ⟨request', hasked', rfl⟩ := Thread.mem_asked_of_discards ht hmem
    have hnot := hapart.notMem hasked hasked' hne hpath
    rw [hprogram] at hholds
    exact hholds.1.frame hperform (fun he => hnot (he ▸ part_mem_ownPaths)) fun he => hnot (he ▸ manifest_mem_ownPaths)

/-- **Every step keeps the downloads separate.** -/
theorem separate_of_unrelated (hkeeping : s.Keeping platform) (hapart : s'.thread.KeepsApart) :
    s.Separate id nextDelay m := by
  have ht := thread_of_reachable hs
  have ht' := thread_of_reachable (hs.step hstep)
  have hnext := next_of_step hstep
  constructor
  · intro s₁ hs₁ w hw _ w' hw' hne path hpath
    cases hstep.symm.trans hs₁
    have hid : w.id ≠ w'.id := fun he => hne (Thread.worker_unique ht' hw hw' he).symm
    have hnot := hapart.notMem (Thread.mem_asked_of_worker ht' hw) (Thread.mem_asked_of_worker ht' hw') hid hpath
    exact fun path' hpath' he => hnot ((show path = path' from he) ▸ hpath')
  · rintro s₁ hs₁ w hw _ o ho path hpath _ hside rfl
    cases hstep.symm.trans hs₁
    match o, hpath with
    | .result id tx (.ok result), rfl =>
      -- the destination of a download that is over
      obtain ⟨w', hid, hdest, hasked⟩ : ∃ w' : Worker, w'.id = id ∧ result.path = w'.request.destination ∧
          (id, w'.request) ∈ s.thread.asked := by
        by_cases hlog : .result id tx (.ok result) ∈ s.thread.sched.log
        · obtain ⟨w', hid, hasked, hcomplete⟩ := hkeeping id tx result hlog
          obtain ⟨x, total, -, -, -, -, rfl, -⟩ := hcomplete.transfer
          exact ⟨w', hid, rfl, hasked⟩
        · obtain ⟨w', hw', rfl, hdest, -⟩ := h.reported hs hnext ho hlog
          exact ⟨w', rfl, hdest, Thread.mem_asked_of_worker ht hw'⟩
      have hgone := (Thread.results_of_mem ht' ho).1
      have hne : id ≠ w.id := fun he => Thread.not_worker_of_none ht' hgone w hw he.symm
      refine hapart.notMem (asked_subset hstep hasked) (Thread.mem_asked_of_worker ht' hw) hne dest_mem_ownPaths ?_
      exact mem_ownPaths.mpr (.inr (hdest ▸ hside))
  · intro x hx w hw
    cases m with
    | thread action =>
      have hx : (x.1, x.2) ∈ s.thread.discards action := hx
      obtain ⟨job, hjob, hdest, hidle | ⟨w', r, discarded, rfl, -⟩⟩ := Thread.idle_or_worker_of_discards hx
      · have hne : x.1 ≠ w.id := (Thread.not_worker_of_idle ht hjob hidle w hw).symm
        have hnot {path : PathBuf} (hpath : path ∈ ownPaths job.request.destination) :=
          (keepsApart_of_step hapart hstep).notMem (Thread.mem_asked_of_job ht hjob) (Thread.mem_asked_of_worker ht hw)
            hne hpath
        rw [hdest]
        refine fun path hpath => ⟨fun he => ?_, fun he => ?_⟩
        · obtain rfl : partPath job.request.destination = path := he
          exact hnot part_mem_ownPaths hpath
        · obtain rfl : manifestPath job.request.destination = path := he
          exact hnot manifest_mem_ownPaths hpath
      · cases hstep
    | _ => cases hx
  · exact fun _ _ _ _ _ _ _ _ _ _ he => he
  · intro hout s₁ hs₁ w hw path hpath
    exact hspares hout s₁ hs₁ _ (Thread.mem_asked_of_worker ht hw) path hpath

/-- Nobody touches the files of a download that is over. -/
theorem agree_of_reported (hapart : s.thread.KeepsApart) {id : Uuid} {request : Request} {tx : Sender}
    {value : Result DownloadResult} (hasked : (id, request) ∈ s.thread.asked)
    (hold : .result id tx value ∈ s.thread.sched.log) :
    ∀ path ∈ ownPaths request.destination, s.disk.Agree s'.disk path := by
  have ht := thread_of_reachable hs
  have hgone := (Thread.results_of_mem ht hold).1
  refine agree_of_keepsApart hs h hspares hstep hapart hasked (not_tends ?_ ?_)
  · intro w choice hm
    subst hm
    exact Thread.not_worker_of_none ht hgone w (next_of_step hstep).pending
  · -- what is removed is that of a job
    intro c hc he
    subst he
    obtain ⟨dest, hmem, -⟩ := (h.cleanup c hc).program
    obtain ⟨job, hjob, -⟩ := Thread.idle_or_worker_of_discards hmem
    cases hgone.symm.trans hjob

/-- What has been reported complete stays so, and what is reported complete is so. -/
theorem Keeping.step (hkeeping : s.Keeping platform) (hapart : s'.thread.KeepsApart) : s'.Keeping platform := by
  intro id tx result hlog
  have ht := thread_of_reachable hs
  have hnext := next_of_step hstep
  by_cases hold : .result id tx (.ok result) ∈ s.thread.sched.log
  · obtain ⟨w, hid, hasked, hcomplete⟩ := hkeeping id tx result hold
    have hgone := (Thread.results_of_mem ht hold).1
    have hother : ∀ choice, m ≠ .worker w choice := by
      intro choice hm
      subst hm
      exact Thread.not_worker_of_none ht hgone w hnext.pending hid
    have hagree := agree_of_reported hs h hspares hstep (keepsApart_of_step hapart hstep) hasked hold
    exact ⟨w, hid, asked_subset hstep hasked, hcomplete.stable (hnext.undisturbed hother hagree).2⟩
  · obtain ⟨w, hw, rfl, hprogram, hidle, hdisk, -⟩ := hnext.reported hs hlog hold
    have hmeets := h.busy w hw (not_cleans hidle)
    rw [Alone, Meets, hprogram] at hmeets
    have hother : ∀ choice, m ≠ .worker w choice := by
      intro choice hm
      subst hm
      cases hnext with
      | act hasks | wait hasks => cases hasks
      | worker _ hcall => cases hprogram.symm.trans hcall
    have hagree : ∀ path ∈ ownPaths w.request.destination, s.disk.Agree s'.disk path := by
      rw [hdisk]
      exact fun path _ => .refl _ path
    exact ⟨w, rfl, asked_subset hstep (Thread.mem_asked_of_worker ht hw),
      (hmeets.finished result rfl).stable (hnext.undisturbed hother hagree).2⟩

omit hs h hspares hstep

/-- **Downloads with destinations of their own.** If no two downloads that are asked for in a run have the same
destination, or one that is a sidecar of the other's, and other programs leave their files alone, then nobody but a
download itself touches its files, and one that has been reported complete is complete from then on: the whole body is
at its destination, behind what was retained. -/
theorem stays_complete {maxConcurrent : ℕ+} {disk : Disk} {ms : List Move}
    (hms : Machine.Along (step nextDelay) (fun s m => s.Spares nextDelay m) (.new platform maxConcurrent disk) ms)
    (hrun : Machine.exec (step nextDelay) (.new platform maxConcurrent disk) ms = some s)
    (hspares : s.Spares nextDelay m) (hstep : s.step nextDelay m = some s') (hapart : s'.thread.KeepsApart) :
    (∀ x ∈ s.thread.asked, s.tends x.1 m = false → ∀ path ∈ ownPaths x.2.destination, s.disk.Agree s'.disk path) ∧
      ∀ id tx result, .result id tx (.ok result) ∈ s'.thread.sched.log →
        ∃ w, w.id = id ∧ (id, w.request) ∈ s'.thread.asked ∧
          Complete platform w.request (fun _ _ => True) result (s'.shared w) := by
  have hinv : s.Reachable nextDelay platform ∧ (s.thread.KeepsApart → Isolated platform s ∧ s.Keeping platform) := by
    refine Machine.exec_induct_along (step nextDelay) (P := fun s m => s.Spares nextDelay m)
      (Q := fun s => s.Reachable nextDelay platform ∧ (s.thread.KeepsApart → Isolated platform s ∧ s.Keeping platform))
      ?_ ms hms ⟨.init ⟨_, _, rfl⟩, fun _ => ⟨⟨nofun, nofun, nofun, nofun, nofun⟩, nofun⟩⟩ hrun
    intro s m s' ⟨hs, hinv⟩ hspares hstep
    refine ⟨hs.step hstep, fun hapart => ?_⟩
    obtain ⟨h, hkeeping⟩ := hinv (keepsApart_of_step hapart hstep)
    exact ⟨h.step hs (separate_of_unrelated hs h hspares hstep hkeeping hapart) hstep,
      hkeeping.step hs h hspares hstep hapart⟩
  obtain ⟨hs, hinv⟩ := hinv
  obtain ⟨h, hkeeping⟩ := hinv (keepsApart_of_step hapart hstep)
  refine ⟨fun x hx htends => ?_, hkeeping.step hs h hspares hstep hapart⟩
  exact agree_of_keepsApart hs h hspares hstep (keepsApart_of_step hapart hstep) hx htends

/-- The first of two downloads is complete while the second is written. -/
theorem stays_complete_crossed :
    ∃ s s' w x, Machine.exec (step backoffStrategy.nextDelay) (.new .sample 2 .empty)
        (crossed elsewhere ++ [.yield firstWorker, .worker (secondWorker elsewhere) (.pollStop false)]) = some s ∧
      s.step backoffStrategy.nextDelay (.worker (secondWorker elsewhere) (.file none)) = some s' ∧ w.id = 0 ∧
      (s'.traffic w).transfer = some x ∧ x.received = x.response.bytes ∧
      (s'.disk.file Request.sample.destination).map Inode.data = some x.data := by
  have h : (Machine.exec (step backoffStrategy.nextDelay) (.new .sample 2 .empty)
      (crossed elsewhere ++ [.yield firstWorker, .worker (secondWorker elsewhere) (.pollStop false)])).any (fun s =>
        ∃ s' ∈ s.step backoffStrategy.nextDelay (.worker (secondWorker elsewhere) (.file none)),
          s'.thread.KeepsApart ∧ .result 0 2 (.ok ⟨Request.sample.destination, 2⟩) ∈ s'.thread.sched.log) := by
    decide +kernel
  obtain ⟨s, hs, s', hs', hapart, hlog⟩ := Machine.exists_exec_of_any _ h
  have hspares : s.Spares backoffStrategy.nextDelay (.worker (secondWorker elsewhere) (.file none)) := by
    intro hout
    cases hout
  obtain ⟨w, hid, -, hcomplete⟩ := (stays_complete (by decide +kernel) hs hspares hs' hapart).2 0 2 _ hlog
  obtain ⟨x, total, hx, -, hreceived, -, hresult, hfile⟩ := hcomplete.transfer
  rw [← (DownloadResult.mk.inj hresult).1] at hfile
  exact ⟨s, s', w, x, hs, hs', hid, hx, hreceived, hfile⟩

end System

end DownloadManager
