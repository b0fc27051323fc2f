import DownloadManager.System.Alone
import DownloadManager.System.Fate
import DownloadManager.System.Workers

/-!
# The removal of partial files

What `discard_partial` leaves behind when nobody else touches the files of a download
(`Removed`), and what the thread waits for while it runs: the jobs whose files it removes are
those its action is about (`Cleanup.Agrees`), and a job whose files are removed has no worker
that goes on.
-/

namespace DownloadManager

open FileSystem

/-! ### One call -/

/-- The environment of `discard_partial`. -/
def Cleanup.env : Program.Env Op Op.Reply Disk
  | .file op, disk, r, disk' => ∃ fault, Truthful disk op fault ∧ performFile disk fault op = (r, disk')
  | _, _, _, _ => False

/-- What the others leave alone. -/
def Cleanup.Alone (dest : PathBuf) (disk disk' : Disk) : Prop := ∀ path ∈ ownPaths dest, disk.Agree disk' path

/-- What `discard_partial` performs. -/
def Op.Removes (dest : PathBuf) (op : Op) : Prop :=
  op = .file (.removeFile (partPath dest)) ∨ op = .file (.removeFile (manifestPath dest))

/-- What it leaves behind. -/
structure Removed (dest : PathBuf) (r : Result Unit) (disk : Disk) : Prop where
  /-- No `.part`. -/
  part : r = .ok () → disk.file (partPath dest) = none
  /-- No manifest. -/
  manifest : r = .ok () → disk.file (manifestPath dest) = none
  /-- Its errors are those of the disk. -/
  ne_cancelled : r ≠ .error .cancelled

section

variable {dest path : PathBuf} {disk disk' : Disk} {r : Result Unit}

theorem Cleanup.Alone.refl (dest : PathBuf) (disk : Disk) : Cleanup.Alone dest disk disk := fun path _ => .refl disk path

theorem Cleanup.Alone.trans {disk'' : Disk} (h : Cleanup.Alone dest disk disk') (h' : Cleanup.Alone dest disk' disk'') :
    Cleanup.Alone dest disk disk'' := fun path hpath => (h path hpath).trans (h' path hpath)

/-- What is not there is not there later. -/
theorem Removed.of_none (h : Removed dest r disk)
    (hnone : ∀ path ∈ ownPaths dest, disk.file path = none → disk'.file path = none) : Removed dest r disk' :=
  ⟨fun hr => hnone _ part_mem_ownPaths (h.part hr),
    fun hr => hnone _ manifest_mem_ownPaths (h.manifest hr), h.ne_cancelled⟩

theorem Removed.congr (h : Removed dest r disk) (halone : Cleanup.Alone dest disk disk') : Removed dest r disk' :=
  h.of_none fun path hpath hnone => (halone path hpath).2.trans hnone

/-- Removing a file makes none. -/
theorem performFile_removeFile {fault : Option (Fault IoError)} {r : Except IoError Unit} {path' : PathBuf}
    (hperform : performFile disk fault (.removeFile path) = (r, disk')) (h : disk.file path' = none) :
    disk'.file path' = none := by
  have hout := outcome_performFile disk fault (.removeFile path)
  rw [hperform] at hout
  rcases hout.removeFile with ⟨-, rfl⟩ | ⟨-, rfl⟩
  · by_cases hpath : path' = path
    · exact hpath ▸ Disk.file_remove_self disk path
    · exact (Disk.agree_remove hpath).2.trans h
  · exact h

/-- An operation of `discard_partial` makes no file. -/
theorem Op.Removes.file_eq_none {op : Op} {r : op.Reply} (hop : op.Removes dest) (henv : Cleanup.env op disk r disk')
    (h : disk.file path = none) : disk'.file path = none := by
  rcases hop with rfl | rfl
  all_goals
    obtain ⟨fault, -, hperform⟩ := henv
    exact performFile_removeFile hperform h

/-- A file that may be there is not there afterwards, and neither are those that were not there before. -/
theorem removeIfPresent_holds (gone : List PathBuf) (hop : (Op.file (.removeFile path)).Removes dest)
    (hgone : ∀ p ∈ gone, p ∈ ownPaths dest ∧ disk.file p = none) :
    (removeIfPresent path).Holds (Cleanup.env.under (Cleanup.Alone dest)) (fun op _ => op.Removes dest)
      (fun r disk' => (r = .ok () → ∀ p ∈ path :: gone, disk'.file p = none) ∧ r ≠ .error .cancelled) disk := by
  refine ⟨hop, fun r disk' henv => ?_⟩
  obtain ⟨disk₁, halone, fault, htruthful, hperform⟩ := henv
  have hkeep : ∀ p ∈ gone, disk'.file p = none := fun p hp =>
    performFile_removeFile hperform ((halone p (hgone p hp).1).2.trans (hgone p hp).2)
  have hout := outcome_performFile disk₁ fault (.removeFile path)
  rw [hperform] at hout
  have hmissing : ∀ e, r = .error e → e.notFound = true → disk'.file path = none := by
    rintro e rfl hnotFound
    refine performFile_removeFile hperform ?_
    refine htruthful.file_eq_none rfl (fun e' he' => ?_) hperform hnotFound
    simp only [FileOp.effect] at he'
    split at he'
    · cases he'
    · next hdir => exact Disk.file_eq_none.mpr hdir
  have hall (hpath : disk'.file path = none) : ∀ p ∈ path :: gone, disk'.file p = none :=
    List.forall_mem_cons.mpr ⟨hpath, hkeep⟩
  cases r with
  | ok _ =>
    rcases hout.removeFile with ⟨-, rfl⟩ | ⟨⟨e, he⟩, -⟩
    · exact ⟨fun _ => hall (Disk.file_remove_self disk₁ path), by simp⟩
    · cases he
  | error e =>
    simp only [Program.done_ok_bind]
    split_ifs with hnotFound
    · exact ⟨fun _ => hall (hmissing e rfl hnotFound), by simp⟩
    · exact ⟨by simp, by simp⟩

/-- **What `discard_partial` leaves behind.** -/
theorem discardPartial_holds (dest : PathBuf) (disk : Disk) :
    (discardPartial dest).Holds (Cleanup.env.under (Cleanup.Alone dest)) (fun op _ => op.Removes dest)
      (Removed dest) disk := by
  refine (removeIfPresent_holds [] (.inl rfl) nofun).bind ?_ fun e disk' h => ⟨nofun, nofun, fun he => h.2 (by rw [he])⟩
  rintro ⟨⟩ disk₁ ⟨h, -⟩
  have hpart : disk₁.file (partPath dest) = none := h rfl _ (List.mem_singleton_self _)
  refine (removeIfPresent_holds [partPath dest] (.inr rfl) ?_).mono fun r disk' h' => ?_
  · intro p hp
    rw [List.mem_singleton.mp hp]
    exact ⟨part_mem_ownPaths, hpart⟩
  · exact ⟨fun hr => h'.1 hr _ (by simp), fun hr => h'.1 hr _ List.mem_cons_self, h'.2⟩

end

/-! ### Whose files -/

section

variable {nextDelay : UInt32 → Except Panic Duration} {t t' : Thread} {a : Action} {id : Uuid} {dest : PathBuf}

@[simp] theorem Thread.discards_withDiscarded (results : Uuid → Result Unit) (a : Action) :
    t.discards (a.withDiscarded results) = t.discards a := by
  cases a with
  | command cmd => cases cmd <;> rfl
  | _ => rfl

/-- What is removed for one job says what its result is. -/
theorem Thread.discardedFor_withDiscarded (results : Uuid → Result Unit) (h : (id, dest) ∈ t.discards a) :
    (a.withDiscarded results).discardedFor id = results id := by
  cases a with
  | command | close => rfl
  | worker w =>
    obtain ⟨rfl, -⟩ := mem_discards.mp h
    rfl
  | _ => cases h

/-- No job has two workers. -/
theorem Thread.worker_unique (ht : Reachable nextDelay t) {w w' : Worker} (hw : w ∈ t.sched.workers)
    (hw' : w' ∈ t.sched.workers) (hid : w.id = w'.id) : w = w' :=
  List.inj_on_of_nodup_map (workersAgree_of_reachable ht).nodup hw hw' hid

/-- **Partial files are removed** of a job without a worker, or by the step that takes its worker's result. -/
theorem Thread.idle_or_worker_of_discards (h : (id, dest) ∈ t.discards a) :
    ∃ job, t.sched.jobs.lookup id = some job ∧ dest = job.request.destination ∧
      (job.state.idle ∨ ∃ w r discarded, a = .worker w r discarded ∧ w.id = id ∧ job.state.discards (.worker r) = true) := by
  have hcancel {order : List Uuid} (h : (id, dest) ∈ order.filterMap fun i => t.sched.discards i .cancel) :
      ∃ job, t.sched.jobs.lookup id = some job ∧ dest = job.request.destination ∧ job.state.idle := by
    obtain ⟨i, -, hi⟩ := List.mem_filterMap.mp h
    obtain ⟨-, job, hjob, hd, hdest⟩ := mem_discards.mp (Option.mem_toList.mpr hi)
    exact ⟨job, hjob, hdest, (JobState.discards_cancel _).symm.trans hd⟩
  cases a with
  | command cmd discarded order =>
    cases cmd with
    | cancel i =>
      obtain ⟨-, job, hjob, hd, hdest⟩ := mem_discards.mp h
      exact ⟨job, hjob, hdest, .inl ((JobState.discards_cancel _).symm.trans hd)⟩
    | cancelAll =>
      obtain ⟨job, hjob, hdest, hidle⟩ := hcancel h
      exact ⟨job, hjob, hdest, .inl hidle⟩
    | _ => cases h
  | close =>
    obtain ⟨job, hjob, hdest, hidle⟩ := hcancel h
    exact ⟨job, hjob, hdest, .inl hidle⟩
  | worker w r discarded =>
    obtain ⟨hid, job, hjob, hd, hdest⟩ := mem_discards.mp h
    exact ⟨job, hjob, hdest, .inr ⟨w, r, discarded, rfl, hid, hd⟩⟩
  | _ => cases h

end

/-- What the thread waits for is a part of what it is doing. -/
structure Cleanup.Agrees (c : Cleanup) (t : Thread) : Prop where
  /-- The results so far, the job whose files are being removed, and what comes after it. -/
  discards : ∃ before dest, t.discards c.action = before ++ (c.id, dest) :: c.todo ∧
    before.map Prod.fst = c.results.map Prod.fst

namespace System

variable {nextDelay : UInt32 → Except Panic Duration} {platform : Platform} {s s' : System} {m : Move} {id : Uuid}

/-- The thread removes the partial files of a job. -/
def Cleans (s : System) (id : Uuid) : Prop := ∃ c ∈ s.cleanup, ∃ dest, (id, dest) ∈ s.thread.discards c.action

theorem not_cleans (h : s.cleanup = none) : ¬s.Cleans id := by
  rintro ⟨c, hc, -⟩
  rw [h] at hc
  cases hc

theorem cleanup_agrees (hs : s.Reachable nextDelay platform) : ∀ c ∈ s.cleanup, c.Agrees s.thread := by
  refine Machine.Reachable.induct (P := fun s => ∀ c ∈ s.cleanup, c.Agrees s.thread) ?_ ?_ hs
  · rintro s ⟨maxConcurrent, disk, rfl⟩
    exact nofun
  · intro s m s' hs ih h c hc
    cases next_of_step h with
    | cancelRoot ht =>
      cases ht
      exact ⟨(ih c hc).discards⟩
    | act _ hidle => exact absurd (hidle.symm.trans hc) nofun
    | @wait _ action _ id dest todo _ _ hdiscards =>
      cases hc
      exact ⟨[], dest, hdiscards, rfl⟩
    | worker | outside => exact ih c hc
    | cleanup hcleanup =>
      cases hc
      exact ⟨(ih _ hcleanup).discards⟩
    | @again c₀ r id dest todo hcleanup _ htodo =>
      cases hc
      obtain ⟨before, dest₀, hdiscards, hbefore⟩ := (ih _ hcleanup).discards
      refine ⟨before ++ [(c₀.id, dest₀)], dest, ?_, ?_⟩
      · rw [hdiscards, htodo, List.append_assoc]
        rfl
      · rw [List.map_append, List.map_append, hbefore]
        rfl
    | resume => exact nomatch hc

/-- The job whose files are being removed is one of those. -/
theorem cleans_id (hs : s.Reachable nextDelay platform) {c : Cleanup} (hc : s.cleanup = some c) : s.Cleans c.id := by
  obtain ⟨before, dest, hdiscards, -⟩ := (cleanup_agrees hs c hc).discards
  exact ⟨c, hc, dest, by rw [hdiscards]; simp⟩

/-- When all are done there is a result for every job. -/
theorem mem_results (hs : s.Reachable nextDelay platform) {c : Cleanup} (hc : s.cleanup = some c) (htodo : c.todo = [])
    (r : Result Unit) {dest : PathBuf} (h : (id, dest) ∈ s.thread.discards c.action) :
    ∃ r', (id, r') ∈ c.results ++ [(c.id, r)] ∧ ((c.results ++ [(c.id, r)]).lookup id).getD (.ok ()) = r' := by
  obtain ⟨before, dest', hdiscards, hbefore⟩ := (cleanup_agrees hs c hc).discards
  have hmem : id ∈ (c.results ++ [(c.id, r)]).map Prod.fst := by
    rw [List.map_append, ← hbefore]
    rw [hdiscards, htodo] at h
    have := List.mem_map_of_mem (f := Prod.fst) h
    simpa using this
  cases hlookup : (c.results ++ [(c.id, r)]).lookup id with
  | some r' =>
    obtain ⟨l₁, l₂, heq, -⟩ := List.lookup_eq_some_iff.mp hlookup
    exact ⟨r', heq ▸ List.mem_append_right _ List.mem_cons_self, rfl⟩
  | none =>
    obtain ⟨⟨i, r'⟩, hi, rfl⟩ := List.mem_map.mp hmem
    exact absurd (List.lookup_eq_none_iff.mp hlookup _ hi) (by simp)

end System

end DownloadManager
