import DownloadManager.Library.Bounded
import DownloadManager.System.Workers

/-!
# How soon a worker stops

Once its token is cancelled, a worker finds it so at the next poll, and no response comes
any more (`Op.Stops`). From any point on it has at most `stopSteps` operations left then,
however long the body is (`run_ends`): at worst it has just read a chunk, and writes it,
makes a checkpoint, polls its token and makes another one. In the system the token may be
cancelled by `Pause`, `Cancel`, `CancelAll` or the root token, and everyone else may do
anything in between (`stops_soon`).
-/

namespace DownloadManager

open Program

/-- What a worker is told after its token has been cancelled. -/
def Op.Stops : (op : Op) → op.Reply → Prop
  | .file _, _ => True
  | .send _, sent => sent.isStopped = true
  | .pollStop, stop => stop = true

/-- The most operations a worker has left when its token is cancelled. -/
def stopSteps : ℕ := 11

theorem Fs.await_ends (op : FileSystem.FileOp PathBuf UInt8) : (Fs.await op).Ends Op.Stops 1 :=
  ⟨fun _ _ => within_done, fun _ => trivial⟩

theorem Fs.attempt_ends (op : FileSystem.FileOp PathBuf UInt8) : (Fs.attempt op).Ends Op.Stops 1 := ends_perform _

/-! ### Storage -/

theorem Manifest.save_ends (codec : Codec) (manifest : Manifest) (dest : PathBuf) :
    (manifest.save codec dest).Ends Op.Stops 2 :=
  (Fs.await_ends _).andThen fun _ => Fs.await_ends _

namespace PartFile

variable (codec : Codec) (part : PartFile)

theorem checkpoint_ends : (part.checkpoint codec).Ends Op.Stops 4 := by
  unfold checkpoint
  split_ifs
  · exact ends_done
  · exact (Fs.await_ends _).andThen fun _ => (Fs.await_ends _).andThen fun _ =>
      (Manifest.save_ends _ _ _).andThen (m := 0) fun _ => ends_done

theorem write_ends (bytes : List UInt8) : (part.write codec bytes).Ends Op.Stops 6 := by
  refine (Fs.await_ends _).andThen (m := 5) fun _ => (Fs.await_ends _).andThen (m := 4) fun _ => ?_
  dsimp only
  split_ifs
  · exact checkpoint_ends codec _
  · exact ends_done

theorem open_ends (dest : PathBuf) (offset : ℕ) (manifest : Manifest) :
    (PartFile.open dest offset manifest).Ends Op.Stops 4 := by
  have hparent : (createParent dest).Ends Op.Stops 1 := by
    unfold createParent
    split
    · exact Fs.await_ends _
    · exact ends_done
  exact hparent.andThen fun _ => (Fs.await_ends _).andThen fun _ => (Fs.await_ends _).andThen fun _ =>
    (Fs.await_ends _).andThen (m := 0) fun _ => ends_done

theorem finalize_ends : part.finalize.Ends Op.Stops 3 :=
  (Fs.await_ends _).andThen fun _ => (Fs.await_ends _).andThen fun _ =>
    (Fs.attempt_ends _).andThen (m := 0) fun _ => ends_done

end PartFile

/-! ### The worker -/

namespace Worker

variable (platform : Platform) (request : Request)

theorem finish_ends (part : PartFile) (progress : Progress) : (finish part progress).Ends Op.Stops 3 :=
  part.finalize_ends.andThen (m := 0) fun _ => ends_done

/-- A round of the loop that finds the token cancelled makes a checkpoint, and no more. -/
theorem stopped_ends (part : PartFile) :
    (part.checkpoint platform.codec >>= fun _ => (pure .stopped : Async WorkerResult)).Ends Op.Stops 4 :=
  (part.checkpoint_ends platform.codec).andThen (m := 0) fun _ => ends_done

theorem transfer_within (bodyError : Option String) (part : PartFile) (progress : Progress) (chunks : List Chunk) :
    (transfer platform bodyError part progress chunks).Within Op.Stops 5 := by
  unfold transfer
  rintro _ rfl
  exact (stopped_ends platform part).within

/-- **The loop**, from any point of any round on. -/
theorem transfer_ends (bodyError : Option String) (part : PartFile) (progress : Progress) (chunks : List Chunk) :
    (transfer platform bodyError part progress chunks).Ends Op.Stops stopSteps := by
  induction chunks generalizing part progress with
  | nil =>
    have hwithin := transfer_within platform bodyError part progress []
    unfold transfer at hwithin ⊢
    refine ⟨hwithin.mono (by decide), fun stop => ?_⟩
    cases stop with
    | true => exact (stopped_ends platform part).mono (by decide)
    | false =>
      cases bodyError with
      | none => exact (finish_ends part progress).mono (by decide)
      | some error =>
        exact ((part.checkpoint_ends platform.codec).attempt.andThen (m := 0) fun _ => ends_raise).mono (by decide)
  | cons chunk chunks ih =>
    have hwithin := transfer_within platform bodyError part progress (chunk :: chunks)
    unfold transfer at hwithin ⊢
    refine ⟨hwithin.mono (by decide), fun stop => ?_⟩
    cases stop with
    | true => exact (stopped_ends platform part).mono (by decide)
    | false =>
      exact (part.write_ends platform.codec chunk.bytes).bind
        (fun part => transfer_within platform bodyError part _ chunks)
        (fun part => ih part _) (by decide)

theorem receive_within (offset : ℕ) (response : Response) :
    (receive platform request offset response).Within Op.Stops 9 := by
  unfold receive
  dsimp only
  split_ifs
  · exact within_raise
  all_goals
    split
    · exact within_raise
    · exact (PartFile.open_ends _ _ _).within.bind fun part => transfer_within platform _ part _ _

theorem receive_ends (offset : ℕ) (response : Response) :
    (receive platform request offset response).Ends Op.Stops stopSteps := by
  unfold receive
  dsimp only
  split_ifs
  · exact ends_raise
  all_goals
    split
    · exact ends_raise
    · exact (PartFile.open_ends _ _ _).bind (fun part => transfer_within platform _ part _ _)
        (fun part => transfer_ends platform _ part _ _) (by decide)

/-- When the token is cancelled there is no response, and what follows is told so. -/
theorem sendGet_bind_within (offset : ℕ) (prior : Option Manifest) {f : Option Response → Async WorkerResult} {n : ℕ}
    (hf : (f none).Within Op.Stops n) : ((sendGet platform request offset prior).bind f).Within Op.Stops (n + 1) := by
  rintro _ rfl
  exact hf

theorem sendGet_ends (offset : ℕ) (prior : Option Manifest) :
    (sendGet platform request offset prior).Ends Op.Stops 1 := by
  unfold sendGet
  refine ⟨fun stop hstop => ?_, fun stop => ?_⟩
  · cases hstop
    exact within_done
  · cases stop with
    | true => exact ends_done
    | false =>
      cases getRequest platform request offset prior with
      | error => exact ends_raise
      | ok httpRequest =>
        refine ⟨fun sent hsent => ?_, fun sent => ?_⟩
        · cases sent with
          | stopped => exact within_done
          | failed | response => cases hsent
        · cases sent <;> exact ends_done

theorem partLen_ends (dest : PathBuf) : (partLen dest).Ends Op.Stops 1 := by
  refine (Fs.attempt_ends _).andThen (m := 0) fun r => ?_
  split
  · exact ends_done
  · split_ifs
    · exact ends_done
    · exact ends_raise

theorem resumeFrom_ends (prior : Option Manifest) : (resumeFrom request prior).Ends Op.Stops 1 := by
  unfold resumeFrom
  split
  · exact (partLen_ends _).andThen (m := 0) fun _ => ends_done
  · exact ends_done

theorem load_ends (dest : PathBuf) : (Manifest.load platform.codec dest).Ends Op.Stops 1 := by
  refine (Fs.attempt_ends _).andThen (m := 0) fun r => ?_
  split <;> exact ends_done

theorem checkDestination_ends : (checkDestination request).Ends Op.Stops 1 := by
  refine (Fs.attempt_ends _).andThen (m := 0) fun r => ?_
  split
  · split_ifs
    · exact ends_raise
    · exact ends_done
  · split_ifs
    · exact ends_raise
    · exact ends_done

/-- From the response of the first request on. -/
theorem answered_within (offset : ℕ) (response : Response) :
    (if response.status.code = 416 then sendGet platform request 0 none >>= fun
      | none => pure .stopped
      | some response => receive platform request offset response
    else receive platform request offset response).Within Op.Stops 9 := by
  split_ifs
  · exact (sendGet_bind_within platform request 0 none (n := 0) within_done).mono (by decide)
  · exact receive_within platform request offset response

theorem answered_ends (offset : ℕ) (response : Response) :
    (if response.status.code = 416 then sendGet platform request 0 none >>= fun
      | none => pure .stopped
      | some response => receive platform request offset response
    else receive platform request offset response).Ends Op.Stops stopSteps := by
  split_ifs
  · refine (sendGet_ends platform request 0 none).bind (m := 9) (fun response? => ?_) (fun response? => ?_) (by decide)
    · cases response? with
      | none => exact within_done
      | some response => exact receive_within platform request offset response
    · cases response? with
      | none => exact ends_done
      | some response => exact receive_ends platform request offset response
  · exact receive_ends platform request offset response

theorem resume_ends (loaded : Option Manifest) : (resume platform request loaded).Ends Op.Stops stopSteps := by
  refine (resumeFrom_ends request _).bind (m := 1) (fun offset => ?_) (fun offset => ?_) (by decide)
  · exact sendGet_bind_within platform request offset _ (n := 0) within_done
  · refine (sendGet_ends platform request offset _).bind (m := 9) (fun response? => ?_) (fun response? => ?_)
      (by decide)
    · cases response? with
      | none => exact within_done
      | some response => exact answered_within platform request offset response
    · cases response? with
      | none => exact ends_done
      | some response => exact answered_ends platform request offset response

theorem resume_within (loaded : Option Manifest) : (resume platform request loaded).Within Op.Stops 2 :=
  (resumeFrom_ends request _).within.bind fun offset =>
    sendGet_bind_within platform request offset _ (n := 0) within_done

/-- **A worker that is told to stop soon ends**, wherever it is. -/
theorem run_ends : (run platform request).Ends Op.Stops stopSteps :=
  (checkDestination_ends request).bind (m := 3)
    (fun _ => (load_ends platform _).within.bind fun loaded => resume_within platform request loaded)
    (fun _ => (load_ends platform _).bind (fun loaded => resume_within platform request loaded)
      (fun loaded => resume_ends platform request loaded) (by decide)) (by decide)

end Worker

/-! ### In the system -/

/-- What a worker is told when its token is cancelled. -/
theorem Local.perform_stops {l l' : Local} {op : Op} {choice : Choice} {r : op.Reply}
    (h : l.perform op choice = some (r, l')) (hc : l.cancelled = true) : op.Stops r := by
  cases op with
  | file => trivial
  | send request => exact (perform_send h).1.trans hc
  | pollStop => exact (perform_pollStop h).1.trans hc

/-- And it learns of no response. -/
theorem Traffic.after_response {op : Op} {r : op.Reply} (h : op.Stops r) (traffic : Traffic) (disk : Disk) :
    (traffic.after disk op r).response = traffic.response := by
  unfold Traffic.after
  split <;> first | rfl | cases h

/-- An operation of a worker. -/
def Move.operates (w : Worker) : Move → Bool
  | .worker w' _ => w' = w
  | _ => false

namespace System

variable {nextDelay : UInt32 → Except Panic Duration} {platform : Platform} {s s' : System} {m : Move} {w : Worker}

/-- **Every worker soon ends** once it is told to stop: its program is what is left of `run`. -/
theorem ends_of_reachable (hs : s.Reachable nextDelay platform) (w : Worker) :
    (s.program w).Ends Op.Stops stopSteps := by
  refine Machine.Reachable.induct (P := fun s => (s.program w).Ends Op.Stops stopSteps) ?_ ?_ hs
  · rintro s ⟨maxConcurrent, disk, rfl⟩
    exact Worker.run_ends platform w.request
  · intro s m s' hs ih h
    cases next_of_step h with
    | @worker w' choice op next r l hw hprogram hperform =>
      by_cases hw' : w = w'
      · subst hw'
        rw [program_performed]
        rw [hprogram] at ih
        exact ih.2 r
      · rw [show (s.performed w' (next r) l).program w = s.program w from Function.update_of_ne hw' _ _]
        exact ih
    | cancelRoot | act | wait | cleanup | again | resume | outside => exact ih

/-- What a stop that has been requested makes of a step: each operation of the worker is one less that is left, and
nothing else concerns it. -/
theorem Next.stops (hnext : s.Next nextDelay m s') (hends : (s.program w).Ends Op.Stops stopSteps)
    (hc : s.cancelled w = true) :
    (s'.program w).budget Op.Stops + (if m.operates w then 1 else 0) ≤ (s.program w).budget Op.Stops ∧
      (s'.traffic w).response = (s.traffic w).response := by
  by_cases hm : ∃ choice, m = .worker w choice
  · obtain ⟨choice, rfl⟩ := hm
    cases hnext with
    | act hasks | wait hasks => cases hasks
    | @worker _ _ op next r l hw hprogram hperform =>
      have hstops := Local.perform_stops hperform hc
      rw [hprogram] at hends ⊢
      have hlt := Program.budget_lt hends.within hstops
      obtain ⟨-, disk, -, rfl⟩ := Local.perform_eq hperform
      refine ⟨by rw [program_performed]; simpa [Move.operates, Nat.succ_le_iff] using hlt, ?_⟩
      exact (congrArg Traffic.response (Function.update_self ..)).trans (Traffic.after_response hstops _ _)
  · have hm : ∀ choice, m ≠ .worker w choice := fun choice he => hm ⟨choice, he⟩
    obtain ⟨hprogram, hundisturbed⟩ := hnext.undisturbed hm (show ∀ path ∈ [], s.disk.Agree s'.disk path by simp)
    have hnot : m.operates w = false := by
      cases m with
      | worker w' choice => exact decide_eq_false fun h => hm choice (h ▸ rfl)
      | thread | yield | cleanup | discarded | outside => rfl
    exact ⟨by rw [hprogram, hnot]; simp, congrArg Traffic.response hundisturbed.traffic⟩

end System

end DownloadManager
