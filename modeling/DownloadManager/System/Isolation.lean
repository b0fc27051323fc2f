import DownloadManager.System.Standing

/-!
# Downloads beside each other

All workers use one disk, and the names of their files come from their destinations alone. A
worker has its files to itself as long as no other is started that has one of the same files,
and no partial files are removed that are one of them (`Separate`). Then what is reported
complete is what its worker has retained and received, and no worker changes it afterwards but
by moving a download of its own to the same destination; and what is removed for one download is
not in use by another (`isolated`).

`file` tells which file a path names: `y` and `./y` may be one. The disk is kept by path, so the
condition also asks that each file of a download that has been asked for is named in one way.

Two downloads with one destination share a `.part`.
-/

namespace DownloadManager

open FileSystem

/-- The file a download has been reported complete with. -/
def Output.completed? : Output → Option PathBuf
  | .result _ _ (.ok r) => some r.path
  | _ => none

/-- The moves of other programs. -/
def Move.isOutside : Move → Bool
  | .outside _ _ => true
  | _ => false

/-- The download a command asks for. -/
def SchedulerCmd.asks? : SchedulerCmd → Option (Uuid × Request)
  | .enqueue id request _ _ => some (id, request)
  | _ => none

/-- The downloads that have been asked for. -/
def Thread.asked (t : Thread) : List (Uuid × Request) := t.handled.filterMap SchedulerCmd.asks?

namespace System

/-- The partial files the thread is asked to remove. -/
def doomed (s : System) : Move → List (Uuid × PathBuf)
  | .thread action => s.thread.discards action
  | _ => []

variable {File : Type} (file : PathBuf → File) (nextDelay : UInt32 → Except Panic Duration) (platform : Platform)

/-- The condition, where `file` is the file a path names. -/
structure Separate (s : System) (m : Move) : Prop where
  /-- No worker is started beside one that has a file in common with it. -/
  workers : ∀ s' ∈ s.step nextDelay m, ∀ w ∈ s'.thread.sched.workers, w ∉ s.thread.sched.workers →
    ∀ w' ∈ s'.thread.sched.workers, w' ≠ w → ∀ path ∈ ownPaths w.request.destination,
      ∀ path' ∈ ownPaths w'.request.destination, file path ≠ file path'
  /-- Nor one that would write to a file that has been reported complete. -/
  completed : ∀ s' ∈ s.step nextDelay m, ∀ w ∈ s'.thread.sched.workers, w ∉ s.thread.sched.workers →
    ∀ o ∈ s'.thread.sched.log, ∀ path ∈ o.completed?, ∀ path' ∈ sidecars w.request.destination, file path ≠ file path'
  /-- No partial files are removed that are files of a worker. -/
  removed : ∀ x ∈ s.doomed m, ∀ w ∈ s.thread.sched.workers, ∀ path ∈ ownPaths w.request.destination,
    file (partPath x.2) ≠ file path ∧ file (manifestPath x.2) ≠ file path
  /-- Each file of the downloads that have been asked for has one name. -/
  named : ∀ s' ∈ s.step nextDelay m, ∀ x ∈ s'.thread.asked, ∀ x' ∈ s'.thread.asked,
    ∀ path ∈ ownPaths x.2.destination, ∀ path' ∈ ownPaths x'.2.destination, file path = file path' → path = path'
  /-- Other programs leave the files of the workers alone. -/
  outside : m.isOutside = true → ∀ s' ∈ s.step nextDelay m, ∀ w ∈ s.thread.sched.workers,
    ∀ path ∈ ownPaths w.request.destination, s.disk.Agree s'.disk path

instance [DecidableEq File] {s : System} {m : Move} : Decidable (s.Separate file nextDelay m) :=
  decidable_of_iff
    ((∀ s' ∈ s.step nextDelay m, ∀ w ∈ s'.thread.sched.workers, w ∉ s.thread.sched.workers →
        ∀ w' ∈ s'.thread.sched.workers, w' ≠ w → ∀ path ∈ ownPaths w.request.destination,
          ∀ path' ∈ ownPaths w'.request.destination, file path ≠ file path') ∧
      (∀ s' ∈ s.step nextDelay m, ∀ w ∈ s'.thread.sched.workers, w ∉ s.thread.sched.workers →
        ∀ o ∈ s'.thread.sched.log, ∀ path ∈ o.completed?,
          ∀ path' ∈ sidecars w.request.destination, file path ≠ file path') ∧
      (∀ x ∈ s.doomed m, ∀ w ∈ s.thread.sched.workers, ∀ path ∈ ownPaths w.request.destination,
        file (partPath x.2) ≠ file path ∧ file (manifestPath x.2) ≠ file path) ∧
      (∀ s' ∈ s.step nextDelay m, ∀ x ∈ s'.thread.asked, ∀ x' ∈ s'.thread.asked,
        ∀ path ∈ ownPaths x.2.destination, ∀ path' ∈ ownPaths x'.2.destination, file path = file path' → path = path') ∧
      (m.isOutside = true → ∀ s' ∈ s.step nextDelay m, ∀ w ∈ s.thread.sched.workers,
        ∀ path ∈ ownPaths w.request.destination,
          s'.disk.dir path = s.disk.dir path ∧ s'.disk.file path = s.disk.file path))
    ⟨fun h => ⟨h.1, h.2.1, h.2.2.1, h.2.2.2.1, h.2.2.2.2⟩,
      fun h => ⟨h.workers, h.completed, h.removed, h.named, h.outside⟩⟩

/-- A worker has its files to itself. -/
def Alone (s : System) (w : Worker) : Prop :=
  s.Meets (Undisturbed (ownPaths w.request.destination)) (fun _ _ => True) (Op.Confined w.request.destination)
    (Ended platform w.request (fun _ _ => True) none) w

/-- What is removed. -/
structure Removing (s : System) (c : Cleanup) : Prop where
  /-- The files of the job it is about. -/
  program : ∃ dest, (c.id, dest) ∈ s.thread.discards c.action ∧
    c.program.Holds (Cleanup.env.under fun _ _ => True) (fun op _ => op.Removes dest) (fun _ _ => True) s.disk
  /-- Those that are removed have the name of no file of another job's worker. -/
  apart : ∀ x ∈ s.thread.discards c.action, ∀ w ∈ s.thread.sched.workers, w.id ≠ x.1 →
    partPath x.2 ∉ ownPaths w.request.destination ∧ manifestPath x.2 ∉ ownPaths w.request.destination

/-- **Every worker has its files to itself.** -/
structure Isolated (s : System) : Prop where
  /-- A worker, unless the partial files of its job are being removed. -/
  busy : ∀ w ∈ s.thread.sched.workers, ¬s.Cleans w.id → s.Alone platform w
  /-- Then it does not go on. -/
  done : ∀ w ∈ s.thread.sched.workers, s.Cleans w.id → ∃ r, s.program w = .done r
  /-- No two have a file of the same name. -/
  apart : ∀ w ∈ s.thread.sched.workers, ∀ w' ∈ s.thread.sched.workers, w' ≠ w →
    ∀ path ∈ ownPaths w.request.destination, path ∉ ownPaths w'.request.destination
  /-- None writes to a file that has been reported complete. -/
  completed : ∀ o ∈ s.thread.sched.log, ∀ path ∈ o.completed?, ∀ w ∈ s.thread.sched.workers,
    path ∉ sidecars w.request.destination
  /-- What is removed. -/
  cleanup : ∀ c ∈ s.cleanup, s.Removing c

end System

/-! ### What an operation leaves alone -/

section

variable {dest path : PathBuf}

/-- One operation of a worker. -/
theorem Op.Confined.frame {op : Op} {l l' : Local} {choice : Choice} {r : op.Reply} (h : op.Confined dest l)
    (hperform : l.perform op choice = some (r, l')) (path : PathBuf) :
    l.disk.Agree l'.disk path ∨ path ∈ sidecars dest ∨ path = dest ∧ op = .file (.rename (partPath dest) dest) := by
  cases op with
  | file op =>
    obtain ⟨fault, disk', -, -, hout, rfl⟩ := Local.perform_file hperform
    by_cases hm : op.Modifies l.disk path
    · exact .inr ((h.modifies hm).imp_right fun hlast => ⟨hlast.1, congrArg Op.file hlast.2⟩)
    · exact .inl (hout.agree hm)
  | send => exact .inl ((Local.perform_send hperform).2 ▸ .refl _ path)
  | pollStop => exact .inl ((Local.perform_pollStop hperform).2 ▸ .refl _ path)

/-- One of `discard_partial`. -/
theorem Op.Removes.frame {op : FileOp PathBuf UInt8} {disk disk' : Disk} {fault : Option (Fault IoError)}
    {r : Except IoError op.Value} (h : (Op.file op).Removes dest) (hperform : performFile disk fault op = (r, disk'))
    (hpart : path ≠ partPath dest) (hmanifest : path ≠ manifestPath dest) : disk.Agree disk' path := by
  have hout := outcome_performFile disk fault op
  rw [hperform] at hout
  rcases h with h | h
  all_goals
    cases h
    exact hout.agree (by assumption)

/-- `discard_partial` removes two files, whatever the others do. -/
theorem discardPartial_removes (dest : PathBuf) (disk : Disk) :
    (discardPartial dest).Holds (Cleanup.env.under fun _ _ => True) (fun op _ => op.Removes dest) (fun _ _ => True) disk := by
  have hremove {path : PathBuf} (hop : (Op.file (.removeFile path)).Removes dest) (disk : Disk) :
      (removeIfPresent path).Holds (Cleanup.env.under fun _ _ => True) (fun op _ => op.Removes dest)
        (fun _ _ => True) disk := by
    refine ⟨hop, fun r disk' _ => ?_⟩
    cases r with
    | ok => trivial
    | error e =>
      simp only [Program.done_ok_bind]
      split_ifs <;> trivial
  exact (hremove (.inl rfl) disk).bind (fun _ disk₁ _ => hremove (.inr rfl) disk₁) fun _ _ _ => trivial

end

/-! ### What is reported -/

section

variable {nextDelay : UInt32 → Except Panic Duration} {t t' : Thread} {a : Action} {id : Uuid} {tx : Sender}

/-- When partial files of a job have been removed the job is gone. -/
theorem Thread.lookup_of_discards (ht : Reachable nextDelay t) (hstep : t.step nextDelay a = some t') {dest : PathBuf}
    (hmem : (id, dest) ∈ t.discards a) : t'.sched.jobs.lookup id = none := by
  obtain ⟨job, hjob, -, -⟩ := idle_or_worker_of_discards hmem
  cases fate_of_step ht hstep id with
  | rests _ _ _ _ hdiscards => exact absurd hmem (hdiscards dest)
  | made hold => cases hold.symm.trans hjob
  | starts => cases hmem
  | returns _ _ _ hold hd =>
    obtain ⟨-, job', hjob', hd', -⟩ := mem_discards.mp hmem
    cases hold.symm.trans hjob'
    cases hd.symm.trans hd'
  | ends _ hnew => exact hnew

/-- **A download is reported complete** when its worker has finished. -/
theorem Thread.finished_of_reported (ht : Reachable nextDelay t) (hstep : t.step nextDelay a = some t')
    {result : DownloadResult} (hnew : .result id tx (.ok result) ∈ t'.sched.log)
    (hold : .result id tx (.ok result) ∉ t.sched.log) :
    ∃ w discarded, a = .worker w (.ok (.finished result)) discarded ∧ w ∈ t.sched.workers ∧ w.id = id ∧
      t'.sched.jobs.lookup id = none := by
  have ht' := ht.step hstep
  rw [← mem_results_iff] at hnew hold
  cases fate_of_step ht hstep id with
  | rests _ _ hresults | starts _ _ _ _ _ hresults | returns _ _ _ _ _ _ _ _ hresults =>
    exact absurd (hresults ▸ hnew) hold
  | made _ _ hjob =>
    rw [results_of_job ht' hjob] at hnew
    cases hnew
  | ends _ hnone hresults hends =>
    rw [hresults, List.mem_singleton] at hnew
    cases hnew
    generalize hvalue : Except.ok result = value at hends
    cases hends with
    | finished hw hid =>
      cases hvalue
      exact ⟨_, _, rfl, hw, hid, hnone⟩
    | failed => cases hvalue
    | discarded =>
      unfold cancelResult at hvalue
      split at hvalue <;> cases hvalue

end

namespace System

variable {File : Type} {file : PathBuf → File} {nextDelay : UInt32 → Except Panic Duration} {platform : Platform}
  {s s' : System} {m : Move} {w : Worker}

/-- A download is reported complete when the thread takes the result of its worker, and the disk stays as it is. -/
theorem Next.reported (hs : s.Reachable nextDelay platform) (hnext : s.Next nextDelay m s') {id : Uuid} {tx : Sender}
    {result : DownloadResult} (hnew : .result id tx (.ok result) ∈ s'.thread.sched.log)
    (hold : .result id tx (.ok result) ∉ s.thread.sched.log) :
    ∃ w ∈ s.thread.sched.workers, w.id = id ∧ s.program w = .done (.ok (.finished result)) ∧ s.cleanup = none ∧
      s'.disk = s.disk ∧ ∀ w' ∈ s'.thread.sched.workers, w'.id ≠ id := by
  have ht := thread_of_reachable hs
  cases hnext with
  | cancelRoot hstep =>
    obtain ⟨w, discarded, ha, -⟩ := Thread.finished_of_reported ht hstep hnew hold
    cases ha
  | act hasks hidle _ hstep =>
    obtain ⟨w, discarded, rfl, hw, hid, hnone⟩ := Thread.finished_of_reported ht hstep hnew hold
    refine ⟨w, hw, hid, ?_, hidle, rfl, Thread.not_worker_of_none (ht.step hstep) hnone⟩
    cases hasks with
    | thread hworker => exact absurd rfl (hworker w _ discarded)
    | yield hprogram => exact hprogram
  | wait | worker | cleanup | again | outside => exact absurd hnew hold
  | @resume c r t hcleanup _ _ hstep =>
    -- what is removed is not that of a worker that has finished
    obtain ⟨w, discarded, ha, -⟩ := Thread.finished_of_reported ht hstep hnew hold
    obtain ⟨c', hc', dest, hmem⟩ := cleans_id hs hcleanup
    cases hcleanup.symm.trans hc'
    rw [← Thread.discards_withDiscarded fun id => ((c.results ++ [(c.id, r)]).lookup id).getD (.ok ()), ha] at hmem
    obtain ⟨-, job, -, hd, -⟩ := Thread.mem_discards.mp hmem
    exact absurd rfl ((JobState.discards_worker hd).1 result)

/-- While the partial files of a job are removed its worker stays, and afterwards it is gone. -/
theorem Next.cleans (hs : s.Reachable nextDelay platform) (hnext : s.Next nextDelay m s')
    (hw' : w ∈ s'.thread.sched.workers) (h : s.Cleans w.id) : s'.Cleans w.id := by
  cases hnext with
  | cancelRoot ht =>
    cases ht
    exact h
  | act _ hidle | wait _ hidle => exact absurd h (not_cleans hidle)
  | worker | outside => exact h
  | cleanup hcleanup | again hcleanup =>
    obtain ⟨c, hc, hmem⟩ := h
    cases hcleanup.symm.trans hc
    exact ⟨_, rfl, hmem⟩
  | @resume c r t hcleanup _ _ hstep =>
    obtain ⟨c', hc, dest, hmem⟩ := h
    cases hcleanup.symm.trans hc
    rw [← Thread.discards_withDiscarded fun id => ((c.results ++ [(c.id, r)]).lookup id).getD (.ok ())] at hmem
    have ht := thread_of_reachable hs
    have hnone := Thread.lookup_of_discards ht hstep hmem
    exact absurd rfl (Thread.not_worker_of_none (ht.step hstep) hnone w hw')

namespace Isolated

variable (h : Isolated platform s)
include h

/-- A worker that goes on has its files to itself. -/
theorem alone (hw : w ∈ s.thread.sched.workers) {op : Op} {next : op.Reply → Async WorkerResult}
    (hprogram : s.program w = .call op next) : op.Confined w.request.destination (s.shared w) := by
  have hnot : ¬s.Cleans w.id := by
    intro hcleans
    obtain ⟨r, hr⟩ := h.done w hw hcleans
    cases hprogram.symm.trans hr
  have hmeets := h.busy w hw hnot
  rw [Alone, Meets, hprogram] at hmeets
  exact hmeets.1

/-- What is removed for one job is not in use by the worker of another. -/
theorem agree_cleanup {c : Cleanup} {fault : Option (Fault IoError)} {op : FileOp PathBuf UInt8}
    {next : Except IoError op.Value → Async Unit} {r : Except IoError op.Value}
    {disk : Disk} (hcleanup : s.cleanup = some c)
    (hprogram : c.program = .call (.file op) next) (hperform : performFile s.disk fault op = (r, disk))
    (hw : w ∈ s.thread.sched.workers) (hid : w.id ≠ c.id) :
    ∀ path ∈ ownPaths w.request.destination, s.disk.Agree disk path := by
  intro path hpath
  obtain ⟨dest, hmem, hholds⟩ := (h.cleanup c hcleanup).program
  rw [hprogram] at hholds
  obtain ⟨hpart, hmanifest⟩ := (h.cleanup c hcleanup).apart _ hmem w hw hid
  exact hholds.1.frame hperform (fun he => hpart (he ▸ hpath)) fun he => hmanifest (he ▸ hpath)

/-- **Nobody else touches the files of a worker.** -/
theorem agree (hs : s.Reachable nextDelay platform) (hm : s.Separate file nextDelay m)
    (hstep : s.step nextDelay m = some s') (hw : w ∈ s.thread.sched.workers) (hnot : ¬s.Cleans w.id)
    (hother : ∀ choice, m ≠ .worker w choice) :
    ∀ path ∈ ownPaths w.request.destination, s.disk.Agree s'.disk path := by
  intro path hpath
  cases next_of_step hstep with
  | cancelRoot | act | wait | again | resume => exact .refl _ path
  | outside => exact hm.outside rfl _ hstep w hw path hpath
  | @worker w' choice op next r l hw' hprogram hperform =>
    have hne : w' ≠ w := fun he => hother choice (he ▸ rfl)
    have happart := h.apart w hw w' hw' hne path hpath
    rcases (h.alone hw' hprogram).frame hperform path with hagree | hside | ⟨rfl, -⟩
    · exact hagree
    · exact absurd (List.mem_cons_of_mem _ hside) happart
    · exact absurd dest_mem_ownPaths happart
  | @cleanup c _ _ _ _ _ hcleanup hprogram _ hperform =>
    have hid : w.id ≠ c.id := fun he => hnot (he ▸ cleans_id hs hcleanup)
    exact h.agree_cleanup hcleanup hprogram hperform hw hid path hpath

/-- A file that is reported complete is that of a worker that was there. -/
theorem reported (hs : s.Reachable nextDelay platform) (hnext : s.Next nextDelay m s') {id : Uuid} {tx : Sender}
    {result : DownloadResult} (hnew : .result id tx (.ok result) ∈ s'.thread.sched.log)
    (hold : .result id tx (.ok result) ∉ s.thread.sched.log) :
    ∃ w ∈ s.thread.sched.workers, w.id = id ∧ result.path = w.request.destination ∧
      (∀ w' ∈ s'.thread.sched.workers, w'.id ≠ id) ∧
      ∃ x, (s.traffic w).transfer = some x ∧ (s'.disk.file result.path).map Inode.data = some x.data := by
  obtain ⟨w, hw, hid, hprogram, hidle, hdisk, hgone⟩ := hnext.reported hs hnew hold
  have hmeets := h.busy w hw (not_cleans hidle)
  rw [Alone, Meets, hprogram] at hmeets
  obtain ⟨x, total, hx, -, -, -, rfl, hfile⟩ := (hmeets.finished result rfl).transfer
  exact ⟨w, hw, hid, rfl, hgone, x, hx, by rw [hdisk]; exact hfile⟩

/-! ### A step -/

theorem busy_step (hs : s.Reachable nextDelay platform) (hm : s.Separate file nextDelay m)
    (hstep : s.step nextDelay m = some s') (hw : w ∈ s'.thread.sched.workers) (hnot : ¬s'.Cleans w.id) :
    s'.Alone platform w := by
  have hnext := next_of_step hstep
  have hstable : Stable (Undisturbed (ownPaths w.request.destination)) (Op.Confined w.request.destination)
      (Ended platform w.request (fun _ _ => True) none) :=
    ⟨.refl _, fun _ _ _ => .trans, fun _ _ _ => Op.Confined.stable, fun _ _ _ => Ended.stable⟩
  have hcleans : ¬s.Cleans w.id := fun hc => hnot (hnext.cleans hs hw hc)
  refine meets_of_next hs hnext hstable (fun hold => h.busy w hold hcleans) (fun _ _ _ _ _ _ _ => trivial) ?_ ?_ hw
  · exact fun hother hold => (hnext.undisturbed hother (h.agree hs hm hstep hold hcleans hother)).2
  · exact fun hfresh => Worker.run_ended ⟨congrArg Traffic.transfer hfresh.traffic, fun _ => nofun,
      fun htidy => absurd trivial ((htidy {}).1 [])⟩

theorem done_step (hs : s.Reachable nextDelay platform) (hstep : s.step nextDelay m = some s')
    (hw : w ∈ s'.thread.sched.workers) (hcleans : s'.Cleans w.id) : ∃ r, s'.program w = .done r := by
  cases next_of_step hstep with
  | cancelRoot ht =>
    cases ht
    exact h.done w hw hcleans
  | act _ hidle => exact absurd hcleans (not_cleans hidle)
  | @wait _ action _ i dest todo hasks _ hdiscards ht =>
    obtain ⟨c, hc, dest', hmem⟩ := hcleans
    cases hc
    obtain ⟨job, hjob, -, hidle | ⟨w', r, discarded, rfl, hid, -⟩⟩ := Thread.idle_or_worker_of_discards hmem
    · exact absurd rfl (Thread.not_worker_of_idle (thread_of_reachable hs) hjob hidle w hw)
    · have hw' : w' ∈ s.thread.sched.workers := by cases Thread.next_of_step ht <;> assumption
      obtain rfl := Thread.worker_unique (thread_of_reachable hs) hw' hw hid
      cases hasks with
      | thread hworker => exact absurd rfl (hworker _ r discarded)
      | yield hprogram => exact ⟨r, hprogram⟩
  | @worker w' _ _ _ _ _ _ hprogram =>
    obtain ⟨r, hr⟩ := h.done w hw hcleans
    have hne : w ≠ w' := by
      rintro rfl
      cases hprogram.symm.trans hr
    exact ⟨r, (Function.update_of_ne hne _ _).trans hr⟩
  | cleanup hcleanup | again hcleanup =>
    obtain ⟨c, hc, hmem⟩ := hcleans
    cases hc
    exact h.done w hw ⟨_, hcleanup, hmem⟩
  | resume => exact absurd hcleans (not_cleans rfl)
  | outside => exact h.done w hw hcleans

theorem apart_step (hm : s.Separate file nextDelay m) (hstep : s.step nextDelay m = some s') :
    ∀ w ∈ s'.thread.sched.workers, ∀ w' ∈ s'.thread.sched.workers, w' ≠ w →
      ∀ path ∈ ownPaths w.request.destination, path ∉ ownPaths w'.request.destination := by
  intro w hw w' hw' hne path hpath hpath'
  by_cases hold : w ∈ s.thread.sched.workers
  · by_cases hold' : w' ∈ s.thread.sched.workers
    · exact h.apart w hold w' hold' hne path hpath hpath'
    · exact hm.workers s' hstep w' hw' hold' w hw hne.symm path hpath' path hpath rfl
  · exact hm.workers s' hstep w hw hold w' hw' hne path hpath path hpath' rfl

theorem completed_step (hs : s.Reachable nextDelay platform) (hm : s.Separate file nextDelay m)
    (hstep : s.step nextDelay m = some s') : ∀ o ∈ s'.thread.sched.log, ∀ path ∈ o.completed?,
      ∀ w ∈ s'.thread.sched.workers, path ∉ sidecars w.request.destination := by
  intro o ho path hpath w hw
  have hnext := next_of_step hstep
  by_cases hold : w ∈ s.thread.sched.workers
  swap
  · exact fun hside => hm.completed s' hstep w hw hold o ho path hpath path hside rfl
  by_cases hlog : o ∈ s.thread.sched.log
  · exact h.completed o hlog path hpath w hold
  · match o, hpath with
    | .result id tx (.ok result), rfl =>
      obtain ⟨w', hw', hid, hdest, hgone, -⟩ := h.reported hs hnext ho hlog
      have hne : w' ≠ w := fun he => hgone w hw (he ▸ hid)
      intro hside
      rw [hdest] at hside
      exact h.apart w hold w' hw' hne _ (List.mem_cons_of_mem _ hside) dest_mem_ownPaths

/-- The thread begins to remove partial files. -/
theorem removing_of_wait (hs : s.Reachable nextDelay platform) (hm : s.Separate file nextDelay m) {action : Action}
    (hasks : s.Asks m action) {t : Thread} (ht : s.thread.step nextDelay action = some t) {i : Uuid} {dest : PathBuf}
    {todo : List (Uuid × PathBuf)} (hdiscards : s.thread.discards action = (i, dest) :: todo) :
    Removing { s with cleanup := some ⟨action, i, discardPartial dest, todo, []⟩ }
      ⟨action, i, discardPartial dest, todo, []⟩ := by
  have hreach := thread_of_reachable hs
  refine ⟨⟨dest, hdiscards ▸ List.mem_cons_self, discardPartial_removes dest s.disk⟩, fun x hx w hw hne => ?_⟩
  cases hasks with
  | thread =>
    have hremoved := hm.removed x hx w hw
    exact ⟨fun hmem => (hremoved _ hmem).1 rfl, fun hmem => (hremoved _ hmem).2 rfl⟩
  | @yield w' r hprogram =>
    -- these are the files of the worker that is done
    have hw' : w' ∈ s.thread.sched.workers := by cases Thread.next_of_step ht <;> assumption
    obtain ⟨hid, job, hjob, -, hdest⟩ := Thread.mem_discards.mp (show (x.1, x.2) ∈ _ from hx)
    obtain ⟨job', hjob', -, hrequest, -⟩ := Thread.job_of_worker hreach hw'
    rw [← hid] at hjob hne
    cases hjob.symm.trans hjob'
    rw [hdest, ← hrequest]
    have happart := h.apart w' hw' w hw fun he => hne (he ▸ rfl)
    exact ⟨happart _ part_mem_ownPaths, happart _ manifest_mem_ownPaths⟩

theorem cleanup_step (hs : s.Reachable nextDelay platform) (hm : s.Separate file nextDelay m)
    (hstep : s.step nextDelay m = some s') : ∀ c ∈ s'.cleanup, s'.Removing c := by
  intro c hc
  cases next_of_step hstep with
  | cancelRoot ht =>
    cases ht
    exact ⟨(h.cleanup c hc).program, (h.cleanup c hc).apart⟩
  | act _ hidle => exact absurd (hidle.symm.trans hc) nofun
  | wait hasks _ hdiscards ht =>
    cases hc
    exact h.removing_of_wait hs hm hasks ht hdiscards
  | worker | outside =>
    obtain ⟨⟨dest, hmem, hholds⟩, happart⟩ := h.cleanup c hc
    refine ⟨⟨dest, hmem, ?_⟩, happart⟩
    exact hholds.stable (fun _ _ _ _ _ => trivial) (fun _ _ _ hop _ => hop) (fun _ _ _ _ _ => trivial) trivial
  | @cleanup c' fault op next r disk hcleanup hprogram htruthful hperform =>
    cases hc
    obtain ⟨⟨dest, hmem, hholds⟩, happart⟩ := h.cleanup c' hcleanup
    rw [hprogram] at hholds
    exact ⟨⟨dest, hmem, hholds.2 r disk ⟨s.disk, trivial, fault, htruthful, hperform⟩⟩, happart⟩
  | @again c' r i dest todo hcleanup _ htodo =>
    cases hc
    obtain ⟨before, dest', hdiscards, -⟩ := (cleanup_agrees hs c' hcleanup).discards
    refine ⟨⟨dest, ?_, discardPartial_removes dest s.disk⟩, (h.cleanup c' hcleanup).apart⟩
    show (i, dest) ∈ s.thread.discards c'.action
    rw [hdiscards, htodo]
    simp
  | resume => cases hc

/-- **Every step that meets the condition.** -/
theorem step (hs : s.Reachable nextDelay platform) (hm : s.Separate file nextDelay m)
    (hstep : s.step nextDelay m = some s') : Isolated platform s' where
  busy _ := h.busy_step hs hm hstep
  done _ := h.done_step hs hstep
  apart := h.apart_step hm hstep
  completed := h.completed_step hs hm hstep
  cleanup := h.cleanup_step hs hm hstep

end Isolated

/-- **Downloads do not disturb each other**, in a run whose steps meet the condition, whatever file each path names.
What is reported complete holds what its worker has retained and received; a worker changes what has been reported
complete only when it moves its own download there; and what is removed for one download is not in use by the worker of
another. -/
theorem isolated (file : PathBuf → File) {maxConcurrent : ℕ+} {disk : Disk} {ms : List Move}
    (hms : Machine.Along (step nextDelay) (fun s m => s.Separate file nextDelay m)
      (.new platform maxConcurrent disk) ms)
    (hrun : Machine.exec (step nextDelay) (.new platform maxConcurrent disk) ms = some s)
    (hstep : s.step nextDelay m = some s') :
    (∀ id tx result, .result id tx (.ok result) ∈ s'.thread.sched.log → .result id tx (.ok result) ∉ s.thread.sched.log →
      ∃ w ∈ s.thread.sched.workers, w.id = id ∧ result.path = w.request.destination ∧
        ∃ x, (s.traffic w).transfer = some x ∧ (s'.disk.file result.path).map Inode.data = some x.data) ∧
    (∀ w choice, m = .worker w choice → ∀ id tx result, .result id tx (.ok result) ∈ s.thread.sched.log →
      s.disk.Agree s'.disk result.path ∨ result.path = w.request.destination ∧
        ∃ next, s.program w = .call (.file (.rename (partPath result.path) result.path)) next) ∧
    ∀ c ∈ s.cleanup, ∀ fault, m = .cleanup fault → ∀ w ∈ s.thread.sched.workers, w.id ≠ c.id →
      ∀ path ∈ ownPaths w.request.destination, s.disk.Agree s'.disk path := by
  obtain ⟨hs, h⟩ : s.Reachable nextDelay platform ∧ Isolated platform s := by
    refine Machine.exec_induct_along (step nextDelay) (P := fun s m => s.Separate file nextDelay m)
      (Q := fun s => s.Reachable nextDelay platform ∧ Isolated platform s) ?_ ms hms ⟨.init ⟨_, _, rfl⟩, ?_⟩ hrun
    · rintro s m s' ⟨hs, h⟩ hm hstep
      exact ⟨hs.step hstep, h.step hs hm hstep⟩
    · exact ⟨nofun, nofun, nofun, nofun, nofun⟩
  have hnext := next_of_step hstep
  refine ⟨fun id tx result hnew hold => ?_, ?_, ?_⟩
  · obtain ⟨w, hw, hid, hdest, -, hx⟩ := h.reported hs hnext hnew hold
    exact ⟨w, hw, hid, hdest, hx⟩
  · rintro w choice rfl id tx result hreported
    cases hnext with
    | act hasks | wait hasks => cases hasks
    | @worker _ _ op next r l hw hprogram hperform =>
      rcases (h.alone hw hprogram).frame hperform result.path with hagree | hside | ⟨hdest, rfl⟩
      · exact .inl hagree
      · exact absurd hside (h.completed _ hreported _ rfl w hw)
      · exact .inr ⟨hdest, next, by rw [hdest]; exact hprogram⟩
  · rintro c hc fault rfl w hw hid
    cases hnext with
    | act hasks | wait hasks => cases hasks
    | cleanup hcleanup hprogram _ hperform =>
      cases hcleanup.symm.trans hc
      exact h.agree_cleanup hcleanup hprogram hperform hw hid

/-! ### Two downloads -/

/-- The worker of the second download. -/
def secondWorker (request : Request) : Worker := ⟨1, request, 3, 1⟩

/-- A second download is asked for. -/
def asked (request : Request) : List Move :=
  [.thread (.command (.enqueue 1 request 3 4) (fun _ => .ok ()) []), .thread .tryDispatch]

/-- The second worker opens its `.part` after the first has written one byte of two; then the first goes on to its
end. -/
def crossed (request : Request) : List Move :=
  started ++ asked request ++ [.thread .tryDispatch] ++ answered (.sample .ok "\"a\"" [1, 2]) ++ opened ++ written ++
    [.worker (secondWorker request) (.file none), .worker (secondWorker request) (.file none),
      .worker (secondWorker request) (.pollStop false),
      .worker (secondWorker request) (.send (.response (.sample .ok "\"b\"" [9])))] ++
    List.replicate 4 (.worker (secondWorker request) (.file none)) ++ written ++
    [.worker firstWorker (.pollStop false)] ++ List.replicate 3 (.worker firstWorker (.file none))

/-- Another destination. -/
def elsewhere : Request := ⟨"http://x/z", ⟨[], some "z"⟩, .default⟩

/-- Two downloads with two destinations. -/
theorem isolated_crossed :
    ∃ s s', Machine.exec (step backoffStrategy.nextDelay) (.new .sample 2 .empty) (crossed elsewhere) = some s ∧
      s.step backoffStrategy.nextDelay (.yield firstWorker) = some s' ∧ secondWorker elsewhere ∈ s.thread.sched.workers ∧
      ∃ w ∈ s.thread.sched.workers, w.id = 0 ∧ ∃ x, (s.traffic w).transfer = some x ∧
        (s'.disk.file Request.sample.destination).map Inode.data = some x.data := by
  have h : (Machine.exec (step backoffStrategy.nextDelay) (.new .sample 2 .empty) (crossed elsewhere)).any (fun s =>
      ∃ s' ∈ s.step backoffStrategy.nextDelay (.yield firstWorker), secondWorker elsewhere ∈ s.thread.sched.workers ∧
        .result 0 2 (.ok ⟨Request.sample.destination, 2⟩) ∈ s'.thread.sched.log ∧
        .result 0 2 (.ok ⟨Request.sample.destination, 2⟩) ∉ s.thread.sched.log) := by decide +kernel
  obtain ⟨s, hs, s', hs', hw, hnew, hold⟩ := Machine.exists_exec_of_any _ h
  obtain ⟨w, hw', hid, -, hx⟩ := (isolated id (by decide +kernel) hs hs').1 0 2 _ hnew hold
  exact ⟨s, s', hs, hs', hw, w, hw', hid, hx⟩

/-- **Two downloads with one destination write to one file**: the first is reported complete without a byte it has
received, and then the second writes to it. And **cancelling the second removes the `.part` of the first**, if it has
not been started. -/
theorem entangled :
    (∃ s s' x, Machine.exec (step backoffStrategy.nextDelay) (.new .sample 2 .empty)
        (crossed .sample ++ [.yield firstWorker, .worker (secondWorker .sample) (.pollStop false)]) = some s ∧
      .result 0 2 (.ok ⟨Request.sample.destination, 2⟩) ∈ s.thread.sched.log ∧
      (s.traffic firstWorker).transfer = some x ∧ x.data = [1, 2] ∧
      (s.disk.file Request.sample.destination).map Inode.data = some [0, 2] ∧
      s.step backoffStrategy.nextDelay (.worker (secondWorker .sample) (.file none)) = some s' ∧
      (s'.disk.file Request.sample.destination).map Inode.data = some [9, 2]) ∧
    ∃ s s', Machine.exec (step backoffStrategy.nextDelay) (.new .sample 1 .empty)
        (started ++ answered (.sample .ok "\"a\"" [1, 2]) ++ opened ++ written ++ asked .sample ++
          [.thread (.command (.cancel 1) (fun _ => .ok ()) [])]) = some s ∧
      s.step backoffStrategy.nextDelay (.cleanup none) = some s' ∧ firstWorker ∈ s.thread.sched.workers ∧
      (s.disk.file (partPath Request.sample.destination)).map Inode.data = some [1] ∧
      s'.disk.file (partPath Request.sample.destination) = none := by
  constructor
  · have h : (Machine.exec (step backoffStrategy.nextDelay) (.new .sample 2 .empty)
        (crossed .sample ++ [.yield firstWorker, .worker (secondWorker .sample) (.pollStop false)])).any (fun s =>
          ∃ s' ∈ s.step backoffStrategy.nextDelay (.worker (secondWorker .sample) (.file none)),
            ∃ x ∈ (s.traffic firstWorker).transfer, .result 0 2 (.ok ⟨Request.sample.destination, 2⟩) ∈ s.thread.sched.log ∧
              x.data = [1, 2] ∧ (s.disk.file Request.sample.destination).map Inode.data = some [0, 2] ∧
              (s'.disk.file Request.sample.destination).map Inode.data = some [9, 2]) := by decide +kernel
    obtain ⟨s, hs, s', hs', x, hx, hreported, hdata, hbefore, hafter⟩ := Machine.exists_exec_of_any _ h
    exact ⟨s, s', x, hs, hreported, hx, hdata, hbefore, hs', hafter⟩
  · have h : (Machine.exec (step backoffStrategy.nextDelay) (.new .sample 1 .empty)
        (started ++ answered (.sample .ok "\"a\"" [1, 2]) ++ opened ++ written ++ asked .sample ++
          [.thread (.command (.cancel 1) (fun _ => .ok ()) [])])).any (fun s =>
          ∃ s' ∈ s.step backoffStrategy.nextDelay (.cleanup none), firstWorker ∈ s.thread.sched.workers ∧
            (s.disk.file (partPath Request.sample.destination)).map Inode.data = some [1] ∧
            s'.disk.file (partPath Request.sample.destination) = none) := by decide +kernel
    obtain ⟨s, hs, s', hs', hw, hpart, hgone⟩ := Machine.exists_exec_of_any _ h
    exact ⟨s, s', hs, hs', hw, hpart, hgone⟩

end System

end DownloadManager
