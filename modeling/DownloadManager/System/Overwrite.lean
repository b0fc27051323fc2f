import DownloadManager.System.Workers

/-!
# Files at the destination

With `overwrite = false` an attempt fails if there is a file at its destination. It looks once,
at its beginning, and the `rename` at its end does not look again. So a file is safe that is
there from the beginning, and one that appears during the transfer is replaced.
-/

namespace DownloadManager

open FileSystem Worker

/-- The others put nothing at a destination that a worker has found free. -/
structure LeaveFree (dest : PathBuf) (l l' : Local) : Prop where
  /-- The worker. -/
  undisturbed : Undisturbed [] l l'
  /-- The destination. -/
  free : l.traffic.found = some false → l.disk.dir dest = none → l'.disk.dir dest = none

/-- A worker has found its destination free, and it still is. -/
structure Free (dest : PathBuf) (l : Local) : Prop where
  /-- It has found nothing. -/
  found : l.traffic.found = some false
  /-- There is nothing. -/
  dir : l.disk.dir dest = none

/-- Where an operation of a worker stands: it is the check of the destination, the last one, or the destination is
free. -/
inductive Op.Harmless (dest : PathBuf) : Op → Local → Prop
  /-- The check. -/
  | check {l : Local} : Harmless dest (.file (.metadata dest)) l
  /-- The removal of the manifest. -/
  | last {l : Local} : Harmless dest (.file (.removeFile (manifestPath dest))) l
  /-- Anything in between. -/
  | free {op : Op} {l : Local} (h : Free dest l) : Harmless dest op l

section

variable {fails : Traffic → FileOp PathBuf UInt8 → Prop} {dest : PathBuf} {l l' : Local}

theorem LeaveFree.refl (l : Local) : LeaveFree dest l l := ⟨.refl [] l, fun _ h => h⟩

theorem LeaveFree.trans {l'' : Local} (h : LeaveFree dest l l') (h' : LeaveFree dest l' l'') : LeaveFree dest l l'' :=
  ⟨h.undisturbed.trans h'.undisturbed, fun hf hd => h'.free (h.undisturbed.traffic ▸ hf) (h.free hf hd)⟩

theorem Free.stable (h : Free dest l) (hrely : LeaveFree dest l l') : Free dest l' :=
  ⟨hrely.undisturbed.traffic ▸ h.found, hrely.free h.found h.dir⟩

theorem Op.Harmless.stable {op : Op} (h : op.Harmless dest l) (hrely : LeaveFree dest l l') : op.Harmless dest l' := by
  cases h with
  | check => exact .check
  | last => exact .last
  | free h => exact .free (h.stable hrely)

/-- A destination that is said not to be there is not there. -/
theorem Local.dir_of_notFound {path : PathBuf} {error : IoError} {choice : Choice}
    (h : l.perform (.file (.metadata path)) choice = some (.error error, l')) (hnotFound : error.notFound = true) :
    l.disk.dir path = none := by
  obtain ⟨hallows, disk', hperform, -⟩ := Local.perform_eq h
  cases choice with
  | file fault =>
    refine Disk.file_eq_none.mp (hallows.file_eq_none rfl (fun e he => ?_) (Option.some.inj hperform) hnotFound)
    simp only [FileOp.effect] at he
    split at he
    · cases he
    · assumption
  | send | pollStop => cases hallows

/-- Until its transfer is complete a worker puts nothing at its destination. -/
theorem Op.Prepares.agree {disk disk' : Disk} {fault : Option (Fault IoError)} {op : FileOp PathBuf UInt8}
    {r : Except IoError op.Value} (h : (Op.file op).Prepares dest) (hdir : disk.dir dest = none)
    (hout : Outcome disk fault op r disk') : disk.Agree disk' dest := by
  by_cases hfile : dest.IsFile
  · refine hout.agree ?_
    cases op with
    | openFile path => rw [show path = partPath dest from h]; exact dest_ne_partPath hfile
    | write path bytes => rw [show path = tmpPath dest from h]; exact dest_ne_tmpPath hfile
    | rename path path' =>
      obtain ⟨rfl, rfl⟩ := h
      exact fun hm => hm.elim (dest_ne_tmpPath hfile) (dest_ne_manifestPath hfile)
    | removeFile => cases h
    | setLen | writeAll | syncData | syncAll => simp [FileOp.Modifies, hdir]
    | metadata | read | createDirAll | seek | streamPosition => exact id
  · -- what it names is the destination itself
    cases op with
    | openFile path =>
      obtain rfl : path = dest := Eq.trans h (partPath_of_not_isFile hfile)
      rw [hout.eq_of_directory (List.mem_singleton_self _) hfile]
      exact .refl _ _
    | write path bytes =>
      obtain rfl : path = dest := Eq.trans h (tmpPath_of_not_isFile hfile)
      rw [hout.eq_of_directory (List.mem_singleton_self _) hfile]
      exact .refl _ _
    | rename path path' =>
      obtain rfl : path = dest := Eq.trans h.1 (tmpPath_of_not_isFile hfile)
      rw [hout.eq_of_directory List.mem_cons_self hfile]
      exact .refl _ _
    | removeFile => cases h
    | setLen | writeAll | syncData | syncAll => exact hout.agree (by simp [FileOp.Modifies, hdir])
    | metadata | read | createDirAll | seek | streamPosition => exact hout.agree id

theorem Free.keeps :
    Keeps (LeaveFree dest) fails (Op.Harmless dest) (Op.Prepares dest) (Free dest) where
  stable := Free.stable
  step := by
    intro op l r l' hop h h'
    obtain ⟨choice, -, hperform⟩ := h'
    cases op with
    | file op =>
      obtain ⟨fault, disk', -, -, hout, rfl⟩ := Local.perform_file hperform
      exact ⟨Traffic.found_after h.found, (hop.agree h.dir hout).1.trans h.dir⟩
    | send => exact (Local.perform_send hperform).2 ▸ ⟨Traffic.found_after h.found, h.dir⟩
    | pollStop => exact (Local.perform_pollStop hperform).2 ▸ ⟨Traffic.found_after h.found, h.dir⟩
  pre _ h := .free h

theorem Free.keeps_cancelled :
    Keeps (LeaveFree dest) fails (Op.Harmless dest) (Op.Prepares dest) fun l => Free dest l ∧ l.cancelled = true where
  stable h hrely := ⟨h.1.stable hrely, hrely.undisturbed.cancelled h.2⟩
  step hop h henv := ⟨Free.keeps.step hop h.1 henv, (Local.env_traffic henv).2.trans h.2⟩
  pre _ h := .free h.1

/-- **A worker that must not overwrite**, among others that put nothing at its destination. -/
theorem Worker.run_harmless {platform : Platform} {request : Request} (ho : request.config.overwrite = false)
    (hfound : l.traffic.found = none) :
    (run platform request).Holds (Local.among (LeaveFree request.destination) fails) (Op.Harmless request.destination)
      (fun _ _ => True) l := by
  have hB : Keeps (LeaveFree request.destination) fails _ _ _ := Free.keeps
  have hidle : ∀ op : Op, op.IsIdle → op.Prepares request.destination := fun op hop => hop.prepares _
  refine Program.Holds.bind (Q := fun r l' => ∀ a, r = .ok a → Free request.destination l') ?_ ?_ fun _ _ _ => trivial
  · refine ⟨.check, fun found l' henv => ?_⟩
    obtain ⟨l₀, hrely, henv⟩ := henv
    cases found with
    | ok => simp [ho]
    | error error =>
      simp only [Program.done_ok_bind]
      split_ifs with hnotFound
      · exact nofun
      · intro _ _
        have hidle := Local.env_idle (show Op.IsIdle (.file (.metadata _)) from trivial) henv
        obtain ⟨choice, -, hperform⟩ := henv
        have hdir := Local.dir_of_notFound hperform (by simpa using hnotFound)
        rw [hidle]
        refine ⟨?_, hdir⟩
        simp [Local.performed, Traffic.after, hrely.undisturbed.traffic, hfound, Except.isOk, Except.toBool]
  rintro ⟨⟩ l₁ h₁
  have h₁ := h₁ () rfl
  refine (hB.load hidle l₁ h₁).bind ?_ fun _ _ _ => trivial
  intro loaded l₂ h'
  obtain ⟨h₂, -⟩ := h'
  refine hB.resume hidle (fun _ _ => trivial) (fun _ _ => trivial) (fun h₃ _ => ?_) h₂
  refine receive_holds (fun _ _ => trivial) fun start total _ _ _ => ?_
  refine (hB.openPart (fun _ h => h) start _ _ h₃).bind ?_ fun _ _ _ => trivial
  intro part l₄ h'
  obtain ⟨h₄, -, hdest⟩ := h'
  refine hB.transfer (fun _ h => h) (fun _ _ => trivial) (fun _ _ => trivial) (fun hdest h' => ?_)
    Free.keeps_cancelled h₄ (hdest part rfl)
  unfold PartFile.finalize
  rw [hdest]
  refine (hB.await (show Op.Prepares _ (.file (.syncAll _)) from trivial) _ h').bind ?_ fun _ _ _ => trivial
  intro _ l₅ h'
  obtain ⟨h₅, -⟩ := h'
  refine Program.Holds.bind (Q := fun _ _ => True) ⟨.free h₅, fun _ _ _ => trivial⟩ ?_ fun _ _ _ => trivial
  rintro - l₆ -
  exact ⟨.last, fun _ _ _ => trivial⟩

end

/-- The moves of a worker. -/
def Move.isOf (w : Worker) : Move → Bool
  | .worker w' _ => w' = w
  | _ => false

theorem Move.isOf_eq_false {w : Worker} {m : Move} (h : ∀ choice, m ≠ .worker w choice) : m.isOf w = false := by
  cases m with
  | worker w' choice => exact decide_eq_false fun he => h choice (he ▸ rfl)
  | thread | yield | cleanup | discarded | outside => rfl

namespace System

variable {nextDelay : UInt32 → Except Panic Duration} {platform : Platform} {s s' : System} {m : Move} {w : Worker}

variable (nextDelay) in
/-- Nobody else puts anything at the destination of a worker, while the worker is under way and has found nothing
there. -/
def LeavesFree (s : System) (w : Worker) (m : Move) : Prop :=
  m.isOf w = false → w ∈ s.thread.sched.workers → (s.traffic w).found = some false →
    s.disk.dir w.request.destination = none → ∀ s' ∈ s.step nextDelay m, s'.disk.dir w.request.destination = none

instance : Decidable (s.LeavesFree nextDelay w m) :=
  inferInstanceAs (Decidable (_ = _ → _ ∈ _ → _ = _ → _ = _ → ∀ s' ∈ s.step nextDelay m, _ = _))

/-- **A worker that must not overwrite replaces nothing**, in a run in which nobody else puts a file at its destination
after it has looked there. What is at its destination is kept by every step of the worker; when it is about to rename
there is nothing; and when it has found a file it ends with `FileExists`. -/
theorem never_replaced {maxConcurrent : ℕ+} {disk : Disk} {ms : List Move} (ho : w.request.config.overwrite = false)
    (hms : Machine.Along (step nextDelay) (fun s m => s.LeavesFree nextDelay w m) (.new platform maxConcurrent disk) ms)
    (hrun : Machine.exec (step nextDelay) (.new platform maxConcurrent disk) ms = some s)
    (hw : w ∈ s.thread.sched.workers) :
    (∀ choice s' f, s.step nextDelay (.worker w choice) = some s' → s.disk.file w.request.destination = some f →
      s'.disk.file w.request.destination = some f) ∧
    (∀ next, s.program w = .call (.file (.rename (partPath w.request.destination) w.request.destination)) next →
      s.disk.file w.request.destination = none) ∧
    ∀ r, s.program w = .done r → (s.traffic w).found = some true → r = .error (.fileExists w.request.destination) := by
  have hstable : Stable (LeaveFree w.request.destination) (Op.Harmless w.request.destination) fun _ _ => True :=
    ⟨.refl, fun _ _ _ => .trans, fun _ _ _ => Op.Harmless.stable, fun _ _ _ _ _ => trivial⟩
  obtain ⟨hs, hmeets⟩ : s.Reachable nextDelay platform ∧ (w ∈ s.thread.sched.workers →
      s.Meets (LeaveFree w.request.destination) (fun _ _ => True) (Op.Harmless w.request.destination) (fun _ _ => True) w) := by
    refine Machine.exec_induct_along (step nextDelay) (P := fun s m => s.LeavesFree nextDelay w m)
      (Q := fun s => s.Reachable nextDelay platform ∧ (w ∈ s.thread.sched.workers →
        s.Meets (LeaveFree w.request.destination) (fun _ _ => True) (Op.Harmless w.request.destination) (fun _ _ => True) w))
      ?_ ms hms ⟨.init ⟨_, _, rfl⟩, nofun⟩ hrun
    intro s m s' h' hm hstep
    obtain ⟨hs, h⟩ := h'
    have hnext := next_of_step hstep
    refine ⟨hs.step hstep, fun hw => meets_of_next hs hnext hstable h (fun _ _ _ _ _ _ _ => trivial) ?_ ?_ hw⟩
    · exact fun hother hw => ⟨(hnext.undisturbed hother (by simp)).2,
        fun hf hd => hm (Move.isOf_eq_false hother) hw hf hd s' hstep⟩
    · exact fun hfresh => Worker.run_harmless ho (congrArg Traffic.found hfresh.traffic)
  refine ⟨fun choice s' f hstep hdest => ?_, fun next hprogram => ?_, fun r hprogram hfound => ?_⟩
  · cases next_of_step hstep with
    | act hasks | wait hasks => cases hasks
    | @worker _ _ op next r l _ hprogram hperform =>
      have hdir : s.disk.dir w.request.destination ≠ none := fun hd => by
        rw [Disk.file_eq_none.mpr hd] at hdest
        cases hdest
      have hmeets := hmeets hw
      rw [Meets, hprogram] at hmeets
      have hagree : s.disk.Agree l.disk w.request.destination := by
        cases hmeets.1 with
        | check =>
          obtain ⟨_, disk', -, -, hout, rfl⟩ := Local.perform_file hperform
          exact hout.agree id
        | last =>
          obtain ⟨_, disk', -, -, hout, rfl⟩ := Local.perform_file hperform
          by_cases hfile : w.request.destination.IsFile
          · exact hout.agree (dest_ne_manifestPath hfile)
          · have hsame := hout.eq_of_directory (List.mem_singleton_self _) (mt isFile_manifestPath.mp hfile)
            exact hsame ▸ .refl _ _
        | free h => exact absurd h.dir hdir
      exact hagree.2.trans hdest
  · have hmeets := hmeets hw
    rw [Meets, hprogram] at hmeets
    cases hmeets.1 with
    | free h => exact Disk.file_eq_none.mpr h.dir
  · have hregardless := regardless_of_reachable hs hw
    rw [Meets, hprogram] at hregardless
    exact hregardless.found ho hfound

/-- The first worker has written two bytes and is about to rename. -/
def transferred : List Move :=
  started ++ answered (.sample .ok "\"a\"" [1, 2]) ++ opened ++ written ++ written ++
    [.worker firstWorker (.pollStop false), .worker firstWorker (.file none)]

/-- A file that appears elsewhere does not matter. -/
theorem never_replaced_elsewhere :
    ∃ s, Machine.exec (step backoffStrategy.nextDelay) (.new .sample 1 .empty)
        (transferred ++ [.outside (.write (partPath (partPath Request.sample.destination)) [9]) none]) = some s ∧
      firstWorker ∈ s.thread.sched.workers ∧
      ∀ next, s.program firstWorker = .call (.file (.rename (partPath Request.sample.destination) Request.sample.destination)) next →
        s.disk.file Request.sample.destination = none := by
  have h : (Machine.exec (step backoffStrategy.nextDelay) (.new .sample 1 .empty)
      (transferred ++ [.outside (.write (partPath (partPath Request.sample.destination)) [9]) none])).any
      (fun s => firstWorker ∈ s.thread.sched.workers) := by decide +kernel
  obtain ⟨s, hs, hw⟩ := Machine.exists_exec_of_any _ h
  exact ⟨s, hs, hw, (never_replaced (w := firstWorker) rfl (by decide +kernel) hs hw).2.1⟩

/-- **A file that appears during the transfer is replaced**, and the download completes. -/
theorem replaced_when_late :
    ∃ s s', Machine.exec (step backoffStrategy.nextDelay) (.new .sample 1 .empty)
        (transferred ++ [.outside (.write Request.sample.destination [9]) none]) = some s ∧
      Machine.exec (step backoffStrategy.nextDelay) s
        [.worker firstWorker (.file none), .worker firstWorker (.file none), .yield firstWorker] = some s' ∧
      Request.sample.config.overwrite = false ∧ firstWorker ∈ s.thread.sched.workers ∧
      (s.disk.file Request.sample.destination).map Inode.data = some [9] ∧
      (s'.disk.file Request.sample.destination).map Inode.data = some [1, 2] ∧
      .result 0 2 (.ok ⟨Request.sample.destination, 2⟩) ∈ s'.thread.sched.log := by
  have h : (Machine.exec (step backoffStrategy.nextDelay) (.new .sample 1 .empty)
      (transferred ++ [.outside (.write Request.sample.destination [9]) none])).any (fun s =>
        ∃ s' ∈ Machine.exec (step backoffStrategy.nextDelay) s
          [.worker firstWorker (.file none), .worker firstWorker (.file none), .yield firstWorker],
          firstWorker ∈ s.thread.sched.workers ∧
          (s.disk.file Request.sample.destination).map Inode.data = some [9] ∧
          (s'.disk.file Request.sample.destination).map Inode.data = some [1, 2] ∧
          .result 0 2 (.ok ⟨Request.sample.destination, 2⟩) ∈ s'.thread.sched.log) := by decide +kernel
  obtain ⟨s, hs, s', hs', hw, hbefore, hafter, hlog⟩ := Machine.exists_exec_of_any _ h
  exact ⟨s, s', hs, hs', rfl, hw, hbefore, hafter, hlog⟩

end System

end DownloadManager
