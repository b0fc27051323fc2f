import DownloadManager.System.Regardless
import DownloadManager.System.System

/-!
# The workers of the system

The thread of a reachable system is a reachable thread, so all that holds of the scheduler on
its own holds here. A worker that has not been started is at the beginning of `worker::run`
(`Fresh`); one that has been is somewhere in it, and what holds whatever the others do holds
of the rest (`regardless_of_reachable`).
-/

namespace DownloadManager

namespace System

variable {nextDelay : UInt32 → Except Panic Duration} {platform : Platform} {s s' : System} {m : Move} {w : Worker}

/-- The thread goes on, or not. -/
theorem Next.thread (h : s.Next nextDelay m s') :
    s'.thread = s.thread ∨ ∃ action, s.thread.step nextDelay action = some s'.thread := by
  cases h with
  | cancelRoot ht | act _ _ _ ht | resume _ _ _ ht => exact .inr ⟨_, ht⟩
  | wait | worker | cleanup | again | outside => exact .inl rfl

/-- The thread of a reachable system is reachable. -/
theorem thread_of_reachable (hs : s.Reachable nextDelay platform) : Thread.Reachable nextDelay s.thread := by
  refine Machine.Reachable.induct (P := fun s => Thread.Reachable nextDelay s.thread) ?_ ?_ hs
  · intro s hs
    obtain ⟨maxConcurrent, disk, rfl⟩ := hs
    exact .init ⟨maxConcurrent, rfl⟩
  · intro s m s' _ ih h
    rcases (next_of_step h).thread with heq | ⟨action, ht⟩
    · rw [heq]
      exact ih
    · exact ih.step ht

theorem Next.later (h : s.Next nextDelay m s') : s.thread.sched.Later s'.thread.sched := by
  rcases h.thread with heq | ⟨action, ht⟩
  · rw [heq]
    exact .refl _
  · exact (Thread.next_of_step ht).later

theorem Next.cancelled (h : s.Next nextDelay m s') (w : Worker) (hc : s.cancelled w = true) : s'.cancelled w = true := by
  simp only [System.cancelled, Bool.or_eq_true, decide_eq_true_eq] at hc ⊢
  exact hc.imp h.later.cancelRoot fun hmem => h.later.stopped hmem

/-- **A worker is disturbed by others only through the disk.** -/
theorem Next.undisturbed (h : s.Next nextDelay m s') (hm : ∀ choice, m ≠ .worker w choice) {own : List PathBuf}
    (hagree : ∀ path ∈ own, s.disk.Agree s'.disk path) :
    s'.program w = s.program w ∧ Undisturbed own (s.shared w) (s'.shared w) := by
  have hkeep : s'.program w = s.program w ∧ s'.traffic w = s.traffic w := by
    cases h with
    | @worker w' choice =>
      have hne : w ≠ w' := fun he => hm choice (he ▸ rfl)
      exact ⟨Function.update_of_ne hne _ _, Function.update_of_ne hne _ _⟩
    | cancelRoot | act | wait | cleanup | again | resume | outside => exact ⟨rfl, rfl⟩
  exact ⟨hkeep.1, hagree, hkeep.2, h.cancelled w⟩

/-- Only a pending worker goes on. -/
theorem Next.pending {choice : Choice} (h : s.Next nextDelay (.worker w choice) s') : w ∈ s.thread.sched.workers := by
  cases h with
  | act hasks | wait hasks => cases hasks
  | worker hw => exact hw

@[simp] theorem program_performed (program : Async WorkerResult) (l : Local) :
    (s.performed w program l).program w = program := Function.update_self ..

theorem shared_performed {program : Async WorkerResult} {l : Local} (hl : l.cancelled = s.cancelled w) :
    (s.performed w program l).shared w = l := by
  simp only [performed, shared, Function.update_self]
  exact Local.ext rfl rfl hl.symm

/-- A worker that has not been started yet. -/
structure Fresh (platform : Platform) (s : System) (w : Worker) : Prop where
  /-- It is at the beginning. -/
  program : s.program w = Worker.run platform w.request
  /-- It knows nothing. -/
  traffic : s.traffic w = {}

theorem fresh_of_reachable (hs : s.Reachable nextDelay platform) (w : Worker)
    (hw : s.thread.sched.tokens ≤ w.stop) : s.Fresh platform w := by
  refine Machine.Reachable.induct (P := fun s => s.thread.sched.tokens ≤ w.stop → s.Fresh platform w) ?_ ?_ hs hw
  · intro s hs _
    obtain ⟨maxConcurrent, disk, rfl⟩ := hs
    exact ⟨rfl, rfl⟩
  · intro s m s' hs ih h hw
    have hnext := next_of_step h
    have hfresh := ih (hnext.later.tokens.trans hw)
    have hm : ∀ choice, m ≠ .worker w choice := by
      intro choice hm
      subst hm
      have hlt := (Thread.agree_of_reachable (thread_of_reachable hs)).tokens.worker_lt w hnext.pending
      exact absurd (hnext.later.tokens.trans hw) (Nat.not_le.mpr hlt)
    obtain ⟨hprogram, hundisturbed⟩ := hnext.undisturbed hm (show ∀ path ∈ [], s.disk.Agree s'.disk path by simp)
    exact ⟨hprogram.trans hfresh.program, hundisturbed.traffic.trans hfresh.traffic⟩

/-! ### One property of every worker -/

/-- What a worker has yet to do meets a specification. -/
def Meets (rely : Local → Local → Prop) (fails : Traffic → FileSystem.FileOp PathBuf UInt8 → Prop)
    (pre : Op → Local → Prop) (post : Result WorkerResult → Local → Prop) (s : System) (w : Worker) : Prop :=
  (s.program w).Holds (Local.among rely fails) pre post (s.shared w)

/-- What the others may do can be done again and again, and a specification is stable under it. -/
structure Stable (rely : Local → Local → Prop) (pre : Op → Local → Prop) (post : Result WorkerResult → Local → Prop) :
    Prop where
  /-- The others may do nothing. -/
  refl : ∀ l, rely l l
  /-- They may go on. -/
  trans : ∀ a b c, rely a b → rely b c → rely a c
  /-- The operations. -/
  pre : ∀ op l l', pre op l → rely l l' → pre op l'
  /-- The result. -/
  post : ∀ r l l', post r l → rely l l' → post r l'

variable {rely : Local → Local → Prop} {fails : Traffic → FileSystem.FileOp PathBuf UInt8 → Prop}
  {pre : Op → Local → Prop} {post : Result WorkerResult → Local → Prop}

/-- The same in any environment. -/
def Heeds (rely : Local → Local → Prop) (env : Program.Env Op Op.Reply Local) (pre : Op → Local → Prop)
    (post : Result WorkerResult → Local → Prop) (s : System) (w : Worker) : Prop :=
  (s.program w).Holds (env.under rely) pre post (s.shared w)

variable {env : Program.Env Op Op.Reply Local}

/-- A step of the worker itself. -/
theorem Heeds.worker (h : s.Heeds rely env pre post w) (hrefl : ∀ l, rely l l) {choice : Choice}
    (hnext : s.Next nextDelay (.worker w choice) s')
    (henv : ∀ op next r l, s.program w = .call op next → (s.shared w).perform op choice = some (r, l) →
      env op (s.shared w) r l) : s'.Heeds rely env pre post w := by
  cases hnext with
  | act hasks | wait hasks => cases hasks
  | @worker _ _ op next r l hw hprogram hperform =>
    have hcancelled : l.cancelled = s.cancelled w := by
      obtain ⟨-, disk, -, rfl⟩ := Local.perform_eq hperform
      rfl
    unfold Heeds at h ⊢
    rw [hprogram] at h
    rw [shared_performed hcancelled, program_performed]
    exact h.2 r l ⟨_, hrefl _, henv op next r l hprogram hperform⟩

/-- **A worker is pending**: it heeds its specification after a step if it did before, if its environment and the
others do only what they may, and if it does when it starts. -/
theorem heeds_of_next (hs : s.Reachable nextDelay platform) (hnext : s.Next nextDelay m s')
    (hstable : Stable rely pre post) (h : w ∈ s.thread.sched.workers → s.Heeds rely env pre post w)
    (henv : ∀ choice op next r l, m = .worker w choice → s.program w = .call op next →
      (s.shared w).perform op choice = some (r, l) → env op (s.shared w) r l)
    (hothers : (∀ choice, m ≠ .worker w choice) → w ∈ s.thread.sched.workers → rely (s.shared w) (s'.shared w))
    (hrun : w ∉ s.thread.sched.workers → s'.Fresh platform w →
      (Worker.run platform w.request).Holds (env.under rely) pre post (s'.shared w))
    (hw : w ∈ s'.thread.sched.workers) : s'.Heeds rely env pre post w := by
  by_cases hm : ∃ choice, m = .worker w choice
  · obtain ⟨choice, rfl⟩ := hm
    exact (h hnext.pending).worker hstable.refl hnext fun op next r l => henv choice op next r l rfl
  · have hm : ∀ choice, m ≠ .worker w choice := fun choice he => hm ⟨choice, he⟩
    obtain ⟨hprogram, hundisturbed⟩ := hnext.undisturbed hm (show ∀ path ∈ [], s.disk.Agree s'.disk path by simp)
    unfold Heeds at h ⊢
    by_cases hmem : w ∈ s.thread.sched.workers
    · rw [hprogram]
      exact (h hmem).stable hstable.trans hstable.pre hstable.post (hothers hm hmem)
    · have hfresh := fresh_of_reachable hs w ((hnext.later.workers w hw).resolve_left hmem)
      have hfresh' : s'.Fresh platform w :=
        ⟨hprogram.trans hfresh.program, hundisturbed.traffic.trans hfresh.traffic⟩
      rw [hfresh'.program]
      exact hrun hmem hfresh'

/-- What a worker may do when it fails only where it may. -/
theorem env_of_perform {choice : Choice} {op : Op} {next : op.Reply → Async WorkerResult} {r : op.Reply} {l : Local}
    (hfails : ∀ op next fault, s.program w = .call (.file op) next → choice = .file (some fault) →
      fails (s.traffic w) op)
    (hprogram : s.program w = .call op next) (hperform : (s.shared w).perform op choice = some (r, l)) :
    Local.env fails op (s.shared w) r l :=
  ⟨choice, fun fileOp fault hop hchoice => by subst hop; exact hfails fileOp next fault hprogram hchoice, hperform⟩

theorem Meets.worker (h : s.Meets rely fails pre post w) (hrefl : ∀ l, rely l l) {choice : Choice}
    (hnext : s.Next nextDelay (.worker w choice) s')
    (hfails : ∀ op next fault, s.program w = .call (.file op) next → choice = .file (some fault) →
      fails (s.traffic w) op) : s'.Meets rely fails pre post w :=
  Heeds.worker h hrefl hnext fun _ _ _ _ => env_of_perform hfails

/-- It meets its specification after a step if it fails only where it may. -/
theorem meets_of_next (hs : s.Reachable nextDelay platform) (hnext : s.Next nextDelay m s')
    (hstable : Stable rely pre post) (h : w ∈ s.thread.sched.workers → s.Meets rely fails pre post w)
    (hfails : ∀ choice op next fault, m = .worker w choice → s.program w = .call (.file op) next →
      choice = .file (some fault) → fails (s.traffic w) op)
    (hothers : (∀ choice, m ≠ .worker w choice) → w ∈ s.thread.sched.workers → rely (s.shared w) (s'.shared w))
    (hrun : s'.Fresh platform w → (Worker.run platform w.request).Holds (Local.among rely fails) pre post (s'.shared w))
    (hw : w ∈ s'.thread.sched.workers) : s'.Meets rely fails pre post w :=
  heeds_of_next hs hnext hstable h
    (fun choice _ _ _ _ hm => env_of_perform fun op next fault => hfails choice op next fault hm) hothers
    (fun _ => hrun) hw

/-! ### Whatever the others do -/

theorem Op.Warranted.stable {request : Request} {op : Op} {l l' : Local} (h : op.Warranted request l)
    (hrely : Undisturbed [] l l') : op.Warranted request l' := by
  refine ⟨?_, h.names⟩
  unfold Checked
  rw [hrely.traffic]
  exact h.checked

theorem Regardless.stable {request : Request} {r : Result WorkerResult} {l l' : Local} (h : Regardless request r l)
    (hrely : Undisturbed [] l l') : Regardless request r l' :=
  ⟨h.ne_cancelled, fun hr => hrely.cancelled (h.stopped hr), fun ho hf => h.found ho (hrely.traffic ▸ hf)⟩

/-- **Every pending worker** does only what it may whatever the others do. -/
theorem regardless_of_reachable (hs : s.Reachable nextDelay platform) (hw : w ∈ s.thread.sched.workers) :
    s.Meets (Undisturbed []) (fun _ _ => True) (Op.Warranted w.request) (Regardless w.request) w := by
  refine Machine.Reachable.induct (P := fun s => ∀ w ∈ s.thread.sched.workers,
    s.Meets (Undisturbed []) (fun _ _ => True) (Op.Warranted w.request) (Regardless w.request) w) ?_ ?_ hs w hw
  · intro s hs w hw
    obtain ⟨maxConcurrent, disk, rfl⟩ := hs
    cases hw
  · intro s m s' hs ih h w hw
    have hnext := next_of_step h
    refine meets_of_next hs hnext ⟨.refl [], fun _ _ _ => .trans, fun _ _ _ => Op.Warranted.stable,
      fun _ _ _ => Regardless.stable⟩ (ih w) (fun _ _ _ _ _ _ _ => trivial)
      (fun hm _ => (hnext.undisturbed hm (by simp)).2) (fun hfresh => ?_) hw
    exact Worker.run_regardless (congrArg Traffic.found hfresh.traffic)

/-! ### To run -/

/-- The first worker of a download of two bytes. -/
def firstWorker : Worker := ⟨0, .sample, 1, 0⟩

/-- A download is started. -/
def started : List Move :=
  [.thread (.command (.enqueue 0 .sample 1 2) (fun _ => .ok ()) []), .thread .tryDispatch, .thread .tryDispatch]

/-- Its worker finds no file and no manifest, sends a request and gets a response. -/
def answered (response : Response) : List Move :=
  [.worker firstWorker (.file none), .worker firstWorker (.file none), .worker firstWorker (.pollStop false),
    .worker firstWorker (.send (.response response))]

/-- It opens the `.part`. -/
def opened : List Move := List.replicate 4 (.worker firstWorker (.file none))

/-- It writes what it has read. -/
def written : List Move :=
  [.worker firstWorker (.pollStop false), .worker firstWorker (.file none), .worker firstWorker (.file none)]

end System

end DownloadManager
