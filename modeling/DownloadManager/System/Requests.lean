import DownloadManager.Library.Bounded
import DownloadManager.Scheduler.Attempts
import DownloadManager.Scheduler.Order
import DownloadManager.System.Standing

/-!
# How often the server is asked

An attempt asks the server once, and once more when it is told that there is nothing after the
offset (`run_costs`). Attempts are paid for by the retry budget and by the client; so whatever
the server and everyone else do, the requests sent for a download are bounded by what it was
asked for and how often it was resumed (`requests_bounded`).
-/

namespace DownloadManager

open Program

/-- The requests an operation sends. -/
def Op.requests : Op → ℕ
  | .send _ => 1
  | _ => 0

theorem Fs.await_costs (op : FileSystem.FileOp PathBuf UInt8) : (Fs.await op).Costs Op.requests 0 :=
  ⟨le_rfl, fun _ => trivial⟩

theorem Fs.attempt_costs (op : FileSystem.FileOp PathBuf UInt8) : (Fs.attempt op).Costs Op.requests 0 :=
  costs_perform le_rfl

/-! ### Storage -/

theorem Manifest.save_costs (codec : Codec) (manifest : Manifest) (dest : PathBuf) :
    (manifest.save codec dest).Costs Op.requests 0 :=
  (Fs.await_costs _).bind fun _ => Fs.await_costs _

namespace PartFile

variable (codec : Codec) (part : PartFile)

theorem checkpoint_costs : (part.checkpoint codec).Costs Op.requests 0 := by
  unfold checkpoint
  split_ifs
  · exact costs_done
  · exact (Fs.await_costs _).bind (m := 0) fun _ => (Fs.await_costs _).bind (m := 0) fun _ =>
      (Manifest.save_costs _ _ _).bind (m := 0) fun _ => costs_done

theorem write_costs (bytes : List UInt8) : (part.write codec bytes).Costs Op.requests 0 := by
  refine (Fs.await_costs _).bind (m := 0) fun _ => (Fs.await_costs _).bind (m := 0) fun _ => ?_
  dsimp only
  split_ifs
  · exact checkpoint_costs codec _
  · exact costs_done

theorem open_costs (dest : PathBuf) (offset : ℕ) (manifest : Manifest) :
    (PartFile.open dest offset manifest).Costs Op.requests 0 := by
  have hparent : (createParent dest).Costs Op.requests 0 := by
    unfold createParent
    split
    · exact Fs.await_costs _
    · exact costs_done
  exact hparent.bind (m := 0) fun _ => (Fs.await_costs _).bind (m := 0) fun _ => (Fs.await_costs _).bind (m := 0)
    fun _ => (Fs.await_costs _).bind (m := 0) fun _ => costs_done

theorem finalize_costs : part.finalize.Costs Op.requests 0 :=
  (Fs.await_costs _).bind (m := 0) fun _ => (Fs.await_costs _).bind (m := 0) fun _ =>
    (Fs.attempt_costs _).bind (m := 0) fun _ => costs_done

end PartFile

/-! ### The worker -/

namespace Worker

variable (platform : Platform) (request : Request)

theorem transfer_costs (bodyError : Option String) (part : PartFile) (progress : Progress) (chunks : List Chunk) :
    (transfer platform bodyError part progress chunks).Costs Op.requests 0 := by
  induction chunks generalizing part progress with
  | nil =>
    unfold transfer
    refine ⟨le_rfl, fun stop => ?_⟩
    cases stop with
    | true => exact (part.checkpoint_costs platform.codec).bind (m := 0) fun _ => costs_done
    | false =>
      cases bodyError with
      | none => exact part.finalize_costs.bind (m := 0) fun _ => costs_done
      | some error => exact (part.checkpoint_costs platform.codec).attempt.bind (m := 0) fun _ => costs_raise
  | cons chunk chunks ih =>
    unfold transfer
    refine ⟨le_rfl, fun stop => ?_⟩
    cases stop with
    | true => exact (part.checkpoint_costs platform.codec).bind (m := 0) fun _ => costs_done
    | false => exact (part.write_costs platform.codec chunk.bytes).bind (m := 0) fun part => ih part _

theorem receive_costs (offset : ℕ) (response : Response) :
    (receive platform request offset response).Costs Op.requests 0 := by
  unfold receive
  dsimp only
  split_ifs
  · exact costs_raise
  all_goals
    split
    · exact costs_raise
    · exact (PartFile.open_costs _ _ _).bind (m := 0) fun part => transfer_costs platform _ part _ _

theorem sendGet_costs (offset : ℕ) (prior : Option Manifest) :
    (sendGet platform request offset prior).Costs Op.requests 1 := by
  unfold sendGet
  refine ⟨Nat.zero_le 1, fun stop => ?_⟩
  cases stop with
  | true => exact costs_done
  | false =>
    cases getRequest platform request offset prior with
    | error => exact costs_raise
    | ok httpRequest =>
      refine ⟨le_rfl, fun sent => ?_⟩
      cases sent <;> exact costs_done

theorem checkDestination_costs : (checkDestination request).Costs Op.requests 0 := by
  refine (Fs.attempt_costs _).bind (m := 0) fun r => ?_
  split
  · split_ifs
    · exact costs_raise
    · exact costs_done
  · split_ifs
    · exact costs_raise
    · exact costs_done

theorem load_costs (dest : PathBuf) : (Manifest.load platform.codec dest).Costs Op.requests 0 := by
  refine (Fs.attempt_costs _).bind (m := 0) fun r => ?_
  split <;> exact costs_done

theorem resumeFrom_costs (prior : Option Manifest) : (resumeFrom request prior).Costs Op.requests 0 := by
  have hlen (dest : PathBuf) : (partLen dest).Costs Op.requests 0 := by
    refine (Fs.attempt_costs _).bind (m := 0) fun r => ?_
    split
    · exact costs_done
    · split_ifs
      · exact costs_done
      · exact costs_raise
  unfold resumeFrom
  split
  · exact (hlen _).bind (m := 0) fun _ => costs_done
  · exact costs_done

/-- A request, and another one if the answer is `416`. -/
theorem resume_costs (loaded : Option Manifest) : (resume platform request loaded).Costs Op.requests 2 := by
  refine (resumeFrom_costs request _).bind (m := 2) fun offset => ?_
  refine (sendGet_costs platform request offset _).bind (m := 1) fun response? => ?_
  cases response? with
  | none => exact costs_done
  | some response =>
    dsimp only
    split_ifs
    · refine (sendGet_costs platform request 0 none).bind (m := 0) fun response? => ?_
      cases response? with
      | none => exact costs_done
      | some response => exact receive_costs platform request offset response
    · exact (receive_costs platform request offset response).mono (Nat.zero_le 1)

/-- **An attempt sends two requests at most.** -/
theorem run_costs : (run platform request).Costs Op.requests 2 :=
  (checkDestination_costs request).bind (m := 2) fun _ =>
    (load_costs platform request.destination).bind (m := 2) fun loaded => resume_costs platform request loaded

end Worker

/-! ### The scheduler -/

namespace Thread

variable {nextDelay : UInt32 → Except Panic Duration} {t t' : Thread} {a : Action} {w : Worker}

theorem attempts_of_log {out : List Output} (h : t'.sched.log = t.sched.log ++ out) (id : Uuid) :
    (t'.view id).attempts = (t.view id).attempts + startsIn (out.filter fun o => o.id = id) := by
  have hout : (t'.view id).out = (t.view id).out ++ out.filter fun o => o.id = id := by
    show t'.sched.log.filter _ = t.sched.log.filter _ ++ _
    rw [h, List.filter_append]
  show startsIn (t'.view id).out = startsIn (t.view id).out + _
  rw [hout, startsIn_append]

theorem attempts_mono (h : t.step nextDelay a = some t') (id : Uuid) :
    (t.view id).attempts ≤ (t'.view id).attempts := by
  obtain ⟨out, hlog⟩ : ∃ out, t'.sched.log = t.sched.log ++ out := by
    rcases (next_of_step h).started with ⟨out, hlog, -⟩ | ⟨_, -, -, hlog⟩
    · exact ⟨out, hlog⟩
    · exact ⟨_, hlog⟩
  rw [attempts_of_log hlog]
  exact Nat.le_add_right _ _

/-- **A new worker is announced** as an attempt. -/
theorem attempts_of_spawned (ht : Reachable nextDelay t) (h : t.step nextDelay a = some t') (hw : w ∈ t'.sched.workers)
    (hnew : w ∉ t.sched.workers) : (t'.view w.id).attempts = (t.view w.id).attempts + 1 := by
  have ht' := ht.step h
  have ha : a = .tryDispatch := by
    cases fate_of_step ht h w.id with
    | rests _ hworkers => exact absurd (hworkers w hw rfl) hnew
    | made _ _ hjob _ hidle => exact absurd rfl (not_worker_of_idle ht' hjob hidle w hw)
    | starts => rfl
    | returns _ _ _ _ _ hjob _ hidle => exact absurd rfl (not_worker_of_idle ht' hjob hidle w hw)
    | ends _ hnone => exact absurd rfl (not_worker_of_none ht' hnone w hw)
  subst ha
  cases next_of_step h with
  | full | empty | dropped => exact absurd hw hnew
  | @dispatched id ready _ _ _ hready hs =>
    obtain ⟨e, harm, rfl⟩ := Scheduler.transitionJob_arm hs
    generalize ({ t.sched with ready := ready } : Scheduler).jobs.lookup id = job? at harm
    have hw : w ∈ t.sched.workers ++ e.spawn.toList := hw
    cases harm with
    | start =>
      rcases List.mem_append.mp hw with hold | hmem
      · exact absurd hold hnew
      · obtain rfl : w = _ := List.mem_singleton.mp hmem
        rw [attempts_of_log rfl]
        simp [Output.id, EventKind.isStarted]
    | notQueued | unknown => exact absurd (by simpa using hw) hnew
    | unknownAck hack => rcases hack with hack | hack <;> cases hack

end Thread

/-! ### In the system -/

/-- A worker of a download sends a request. -/
def Move.sendsFor (id : Uuid) : Move → Bool
  | .worker w (.send _) => w.id = id
  | _ => false

namespace System

variable {nextDelay : UInt32 → Except Panic Duration} {platform : Platform} {s s' : System} {m : Move} {id : Uuid}
  {sent : ℕ}

/-- What has been sent for a download, and what its worker may still send, is paid for by its attempts. -/
def Sending (id : Uuid) (sent : ℕ) (s : System) : Prop :=
  ∃ n, sent + n ≤ 2 * (s.thread.view id).attempts ∧
    ∀ w ∈ s.thread.sched.workers, w.id = id → (s.program w).Costs Op.requests n

/-- The thread may start a worker. -/
theorem Sending.thread (h : s.Sending id sent) (hs : s.Reachable nextDelay platform) {a : Action} {t : Thread}
    (ht : s.thread.step nextDelay a = some t) (hthread : s'.thread = t) (hprogram : s'.program = s.program) :
    s'.Sending id sent := by
  obtain ⟨n, hle, hcosts⟩ := h
  have hreach := thread_of_reachable hs
  subst hthread
  unfold Sending
  rw [hprogram]
  by_cases hnew : ∃ w ∈ s'.thread.sched.workers, w.id = id ∧ w ∉ s.thread.sched.workers
  · obtain ⟨w, hw, rfl, hnew⟩ := hnew
    have hattempts := Thread.attempts_of_spawned hreach ht hw hnew
    refine ⟨n + 2, by omega, fun w' hw' hid => ?_⟩
    obtain rfl := Thread.worker_unique (hreach.step ht) hw' hw hid
    have hfresh := fresh_of_reachable hs w' (((Thread.next_of_step ht).later.workers w' hw').resolve_left hnew)
    rw [hfresh.program]
    exact (Worker.run_costs platform w'.request).mono (Nat.le_add_left 2 n)
  · refine ⟨n, hle.trans (Nat.mul_le_mul_left 2 (Thread.attempts_mono ht id)), fun w hw hid => ?_⟩
    refine hcosts w ?_ hid
    by_contra hnot
    exact hnew ⟨w, hw, hid, hnot⟩

/-- A request is sent when one is chosen for. -/
theorem requests_of_perform {l l' : Local} {op : Op} {choice : Choice} {r : op.Reply} (w : Worker)
    (h : l.perform op choice = some (r, l')) :
    (if (Move.worker w choice).sendsFor w.id then 1 else 0) = op.requests := by
  have hallows := (Local.perform_eq h).1
  cases op <;> cases choice <;> first | rfl | cases hallows | simp [Move.sendsFor, Op.requests]

/-- **What is sent is paid for**, in every step. -/
theorem Sending.step (h : s.Sending id sent) (hs : s.Reachable nextDelay platform)
    (hstep : s.step nextDelay m = some s') : s'.Sending id (sent + if m.sendsFor id then 1 else 0) := by
  cases next_of_step hstep with
  | cancelRoot ht => exact h.thread hs ht rfl rfl
  | act hasks _ _ ht =>
    have hm : m.sendsFor id = false := by cases hasks <;> rfl
    rw [hm]
    exact h.thread hs ht rfl rfl
  | wait hasks =>
    have hm : m.sendsFor id = false := by cases hasks <;> rfl
    rw [hm]
    exact h
  | resume _ _ _ ht => exact h.thread hs ht rfl rfl
  | cleanup | again | outside => exact h
  | @worker w choice op next r l hw hprogram hperform =>
    obtain ⟨n, hle, hcosts⟩ := h
    by_cases hid : w.id = id
    · subst hid
      have hcall := hcosts w hw rfl
      rw [hprogram] at hcall
      have hweight := hcall.1
      rw [requests_of_perform w hperform]
      refine ⟨n - op.requests, ?_, fun w' hw' hid' => ?_⟩
      · show sent + op.requests + (n - op.requests) ≤ 2 * (s.thread.view w.id).attempts
        omega
      · obtain rfl := Thread.worker_unique (thread_of_reachable hs) hw' hw hid'
        rw [program_performed]
        exact hcall.2 r
    · have hm : (Move.worker w choice).sendsFor id = false := by
        cases choice <;> simp [Move.sendsFor, hid]
      rw [hm]
      refine ⟨n, hle, fun w' hw' hid' => ?_⟩
      have hne : w' ≠ w := fun he => hid (he ▸ hid')
      have hsame : (s.performed w (next r) l).program w' = s.program w' := Function.update_of_ne hne _ _
      rw [hsame]
      exact hcosts w' hw' hid'

/-- **How often the server is asked.** In every run, whatever the server answers and whatever else happens, the workers
of a download send no more than two requests for each of its attempts, and there are no more attempts than one, the
retries it was asked for with, and the times it was asked to go on. -/
theorem requests_bounded {maxConcurrent : ℕ+} {disk : Disk} {ms : List Move}
    (hrun : Machine.exec (step nextDelay) (.new platform maxConcurrent disk) ms = some s) {request : Request}
    {progressTx tx : Sender} (hasked : .enqueue id request progressTx tx ∈ s.thread.handled) :
    ms.countP (Move.sendsFor id) ≤ 2 * (s.thread.view id).attempts ∧
      (s.thread.view id).attempts ≤ 1 + request.config.retries.toNat + (s.thread.view id).resumes := by
  have hinv : s.Reachable nextDelay platform ∧ s.Sending id (ms.countP (Move.sendsFor id)) := by
    refine Machine.exec_history (step nextDelay)
      (P := fun ms s => s.Reachable nextDelay platform ∧ s.Sending id (ms.countP (Move.sendsFor id)))
      ⟨.init ⟨_, _, rfl⟩, 0, Nat.zero_le _, nofun⟩ ?_ ms hrun
    intro ms s m s' _ hinv hstep
    rw [List.countP_append, List.countP_singleton]
    exact ⟨hinv.1.step hstep, hinv.2.step hinv.1 hstep⟩
  obtain ⟨hs, n, hle, -⟩ := hinv
  exact ⟨by omega, Thread.attempts_le (thread_of_reachable hs) hasked⟩

/-- A worker that asks once more after a `416`. -/
def askedTwice : List Move :=
  started ++ answered .unsatisfiable ++
    [.worker firstWorker (.pollStop false), .worker firstWorker (.send (.response (.sample .ok "\"a\"" [1, 2])))]

/-- It is the only attempt. -/
theorem requests_bounded_askedTwice :
    ∃ s, Machine.exec (step backoffStrategy.nextDelay) (.new .sample 1 .empty) askedTwice = some s ∧
      askedTwice.countP (Move.sendsFor 0) = 2 ∧ (s.thread.view 0).attempts = 1 ∧
      askedTwice.countP (Move.sendsFor 0) ≤ 2 * (s.thread.view 0).attempts ∧
      (s.thread.view 0).attempts ≤ 1 + 3 + 0 := by
  have h : (Machine.exec (step backoffStrategy.nextDelay) (.new .sample 1 .empty) askedTwice).any (fun s =>
      .enqueue 0 .sample 1 2 ∈ s.thread.handled ∧ (s.thread.view 0).attempts = 1 ∧ (s.thread.view 0).resumes = 0) := by
    decide +kernel
  obtain ⟨s, hs, hasked, hattempts, hresumes⟩ := Machine.exists_exec_of_any _ h
  have hbound := requests_bounded hs hasked
  rw [hresumes] at hbound
  exact ⟨s, hs, rfl, hattempts, hbound⟩

end System

end DownloadManager
