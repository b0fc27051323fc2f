import DownloadManager.Library.Telling
import DownloadManager.Rates

/-!
# What a worker reports

`run` of `src/worker.rs` once more, with what `Worker` leaves out: it looks at the clock and
broadcasts its progress, when the transfer begins, when `Progress::add` takes a sample, and when
the body has ended.

The worker does to its surroundings what `Worker.run` does (`run_refines`), so that all that is
known of that holds here, as long as lengths are below `2 ^ 63` and no sum overflows.
-/

namespace DownloadManager

open Program

namespace Events.Progress

@[simp] theorem sample_bytes (p : Progress) (now : Instant) (delta : UInt64) :
    (p.sample now delta).bytes = p.bytes := by
  unfold sample recompute
  dsimp only
  split <;> rfl

@[simp] theorem sample_lastSampleBytes (p : Progress) (now : Instant) (delta : UInt64) :
    (p.sample now delta).lastSampleBytes = p.bytes := rfl

end Events.Progress

/-- What a worker tells, and asks. -/
inductive TellOp where
  /-- `Instant::now`. -/
  | now
  /-- `progress_tx.try_broadcast(progress)`. -/
  | report (progress : Events.Progress)

/-- The replies. -/
@[reducible] def TellOp.Reply : TellOp → Type
  | .now => Events.Instant
  | .report _ => Unit

/-- An `async fn` that also tells. -/
abbrev Reporting (α : Type) := Program (Op ⊕ TellOp) (BothReply Op.Reply TellOp.Reply) Error α

namespace Reporting

/-- The time. -/
def now : Reporting Events.Instant := Program.perform (Sum.inr TellOp.now)

/-- A report. -/
def report (progress : Events.Progress) : Reporting Unit := Program.perform (Sum.inr (TellOp.report progress))

variable (platform : Platform) (request : Request)

/-- After the body. -/
def finish (part : PartFile) (progress : Events.Progress) : Reporting WorkerResult := do
  match progress.forceUpdate platform.overflowChecks (← now) with
  | none => .raise .workerPanicked
  | some progress =>
    report progress
    let path ← part.finalize.lift TellOp.Reply
    pure (.finished ⟨path, progress.bytes.toNat⟩)

/-- The transfer loop, with what is left of the body. -/
def transfer (bodyError : Option String) : PartFile → Events.Progress → List Chunk → Reporting WorkerResult
  | part, progress, chunks => do
    if ← pollStop.lift TellOp.Reply then
      let _ ← (part.checkpoint platform.codec).lift TellOp.Reply
      pure .stopped
    else
      match chunks, bodyError with
      | [], none => finish platform part progress
      | [], some error =>
        let _ ← (part.checkpoint platform.codec).attempt.lift TellOp.Reply
        .raise (.network error)
      | chunk :: chunks, _ =>
        let part ← (part.write platform.codec chunk.bytes).lift TellOp.Reply
        match progress.add platform.overflowChecks (.ofNat chunk.bytes.length) (← now) with
        | none => .raise .workerPanicked
        | some (progress, true) => do
          report progress
          transfer bodyError part progress chunks
        | some (progress, false) => transfer bodyError part progress chunks

/-- From the response on. -/
def receive (offset : ℕ) (response : Response) : Reporting WorkerResult := do
  let resumed := response.status.code = 206
  if !response.status.isSuccess then .raise (.httpStatus response.status)
  else
    let start := if resumed then offset else 0
    match Worker.totalLength platform start response with
    | .error panic => .raise panic
    | .ok total =>
      let part ← (PartFile.open request.destination start
        (Worker.manifestOf request start total response)).lift TellOp.Reply
      let progress := Events.Progress.new (.ofNat start) (total.map .ofNat) (← now)
      report progress
      transfer platform response.bodyError part progress response.body

/-- The rest of `run`, once the manifest has been loaded. -/
def resume (loaded : Option Manifest) : Reporting WorkerResult := do
  let prior := loaded.filter (·.isResumableFor request.url)
  let offset ← (Worker.resumeFrom request prior).lift TellOp.Reply
  match ← (Worker.sendGet platform request offset prior).lift TellOp.Reply with
  | none => pure .stopped
  | some response =>
    if response.status.code = 416 then
      match ← (Worker.sendGet platform request 0 none).lift TellOp.Reply with
      | none => pure .stopped
      | some response => receive platform request offset response
    else receive platform request offset response

/-- `worker::run`. -/
def run : Reporting WorkerResult := do
  (Worker.checkDestination request).lift TellOp.Reply
  let loaded ← (Manifest.load platform.codec request.destination).lift TellOp.Reply
  resume platform request loaded

/-! ### It is the same worker -/

/-- Lengths are 63 bits wide. -/
def Fits : (op : Op) → op.Reply → Prop
  | .file (.metadata _), r => ∀ n : ℕ, r = .ok n → n < 2 ^ 63
  | .send _, .response response => response.bytes.length < 2 ^ 63
  | _, _ => True

/-- The bytes of some reads. -/
def lengthOf (chunks : List Chunk) : ℕ := (chunks.map fun chunk => chunk.bytes.length).sum

/-- A progress of a transfer that does not overflow. -/
structure Sound (progress : Events.Progress) (chunks : List Chunk) : Prop where
  /-- The last sample is of the past. -/
  sampled : progress.lastSampleBytes ≤ progress.bytes
  /-- What is to come fits. -/
  fits : progress.bytes.toNat + lengthOf chunks < 2 ^ 64

variable {platform request} {part : PartFile} {progress : Events.Progress} {chunks : List Chunk} {now : Events.Instant}

namespace Sound

theorem byteDelta (h : Sound progress chunks) (checks : Bool) :
    progress.byteDelta checks = some (progress.bytes - progress.lastSampleBytes) := by
  unfold Events.Progress.byteDelta
  rw [if_neg fun hc => absurd h.sampled (UInt64.not_le.mpr hc.2)]

/-- A sample. -/
theorem sample (h : Sound progress chunks) (now : Events.Instant) (delta : UInt64) :
    Sound (progress.sample now delta) chunks := by
  constructor
  · rw [Events.Progress.sample_lastSampleBytes, Events.Progress.sample_bytes]
    exact UInt64.le_refl _
  · rw [Events.Progress.sample_bytes]
    exact h.fits

/-- The update at the end. -/
theorem forceUpdate (h : Sound progress chunks) (checks : Bool) (now : Events.Instant) :
    ∃ progress', progress.forceUpdate checks now = some progress' ∧ progress'.counts = progress.counts ∧
      progress'.total = progress.total := by
  refine ⟨progress.sample now (progress.bytes - progress.lastSampleBytes), ?_, Events.Progress.counts_sample ..,
    Events.Progress.recompute_total ..⟩
  simp [Events.Progress.forceUpdate, h.byteDelta checks]

/-- What is added fits. -/
theorem toNat_add {chunk : Chunk} (h : Sound progress (chunk :: chunks)) :
    (UInt64.ofNat chunk.bytes.length).toNat = chunk.bytes.length ∧
      (progress.bytes + .ofNat chunk.bytes.length).toNat = progress.bytes.toNat + chunk.bytes.length ∧
      progress.bytes.toNat + chunk.bytes.length + lengthOf chunks < 2 ^ 64 := by
  have hfits := h.fits
  rw [lengthOf, List.map_cons, List.sum_cons, ← Nat.add_assoc] at hfits
  have hn : (UInt64.ofNat chunk.bytes.length).toNat = chunk.bytes.length :=
    UInt64.toNat_ofNat_of_lt' (show _ < 2 ^ 64 by omega)
  exact ⟨hn, by rw [UInt64.toNat_add, hn, Nat.mod_eq_of_lt (by omega)], hfits⟩

/-- Some bytes are added: a sample is taken, or little has been added since the last one. -/
theorem add {chunk : Chunk} (h : Sound progress (chunk :: chunks)) (checks : Bool) (now : Events.Instant) :
    ∃ progress' sampled, progress.add checks (.ofNat chunk.bytes.length) now = some (progress', sampled) ∧
      Sound progress' chunks ∧ progress'.counts = progress.counts.add chunk.bytes.length ∧
      progress'.total = progress.total ∧ (sampled = true → progress'.lastSampleBytes = progress'.bytes) ∧
      (sampled = false → progress'.lastSampleBytes = progress.lastSampleBytes ∧
        progress'.bytes - progress'.lastSampleBytes < Events.Progress.minSampleBytes) := by
  obtain ⟨hn, hsum, hfits⟩ := h.toNat_add
  have hsound : Sound { progress with bytes := progress.bytes + .ofNat chunk.bytes.length } chunks := by
    have hle : progress.lastSampleBytes.toNat ≤ (progress.bytes + .ofNat chunk.bytes.length).toNat := by
      have := UInt64.le_iff_toNat_le.mp h.sampled
      omega
    exact ⟨UInt64.le_iff_toNat_le.mpr hle, by rw [hsum]; exact hfits⟩
  have hcounts : Events.Progress.counts { progress with bytes := progress.bytes + .ofNat chunk.bytes.length } =
      progress.counts.add chunk.bytes.length := by
    simp only [Events.Progress.counts, Progress.add, hsum]
  unfold Events.Progress.add
  rw [if_neg (by rw [hn]; omega)]
  simp only [hsound.byteDelta checks, Option.bind_eq_bind, Option.bind_some]
  split_ifs with hsample
  · refine ⟨_, true, rfl, hsound.sample .., (Events.Progress.counts_sample ..).trans hcounts,
      Events.Progress.recompute_total .., fun _ => ?_, by simp⟩
    rw [Events.Progress.sample_lastSampleBytes, Events.Progress.sample_bytes]
  · exact ⟨_, false, rfl, hsound, hcounts, rfl, by simp, fun _ => ⟨rfl, UInt64.not_le.mp fun hle => hsample (.inr hle)⟩⟩

end Sound

theorem finish_refines {p : Progress} (h : Sound progress []) (hp : progress.counts = p) :
    Refines Fits (finish platform part progress) (Worker.finish part p) := by
  subst hp
  refine .tell TellOp.now fun now => ?_
  obtain ⟨progress', hforce, hcounts, -⟩ := h.forceUpdate platform.overflowChecks now
  have hbytes : progress'.bytes.toNat = progress.bytes.toNat := congrArg Progress.bytes hcounts
  simp only [Program.pure_eq, Program.done_ok_bind, hforce]
  refine .tell (TellOp.report progress') fun _ => ?_
  refine Refines.lift_bind (returns_true _) fun path _ => ?_
  rw [hbytes]
  exact .done _

theorem transfer_refines {bodyError : Option String} {p : Progress} (h : Sound progress chunks)
    (hp : progress.counts = p) :
    Refines Fits (transfer platform bodyError part progress chunks)
      (Worker.transfer platform bodyError part p chunks) := by
  induction chunks generalizing part progress p with
  | nil =>
    unfold transfer Worker.transfer
    refine Refines.lift_bind (returns_true _) fun stop _ => ?_
    cases stop with
    | true => exact Refines.lift_bind (returns_true _) fun _ _ => .done _
    | false =>
      cases bodyError with
      | none => exact finish_refines h hp
      | some error => exact Refines.lift_bind (returns_true _) fun _ _ => .done _
  | cons chunk chunks ih =>
    unfold transfer Worker.transfer
    refine Refines.lift_bind (returns_true _) fun stop _ => ?_
    cases stop with
    | true => exact Refines.lift_bind (returns_true _) fun _ _ => .done _
    | false =>
      refine Refines.lift_bind (returns_true _) fun part _ => ?_
      refine .tell TellOp.now fun now => ?_
      obtain ⟨progress', sampled, hadd, hsound, hcounts, -⟩ := h.add platform.overflowChecks now
      subst hp
      simp only [Program.done_ok_bind, hadd]
      cases sampled with
      | true => exact .tell (TellOp.report progress') fun _ => ih hsound hcounts
      | false => exact ih hsound hcounts

theorem length_bytes (response : Response) : response.bytes.length = lengthOf response.body := by
  rw [Response.bytes, List.length_flatten, List.map_map]
  rfl

/-- The total is 64 bits wide. -/
theorem totalLength_lt {start total : ℕ} {response : Response}
    (h : Worker.totalLength platform start response = .ok (some total)) : total < 2 ^ 64 := by
  unfold Worker.totalLength at h
  split at h
  · cases h
  · split_ifs at h with hlt <;> cases h
    · exact hlt
    · exact Nat.mod_lt _ (by norm_num)

/-- A transfer begins soundly. -/
theorem sound_new {start : ℕ} {total : Option ℕ} (now : Events.Instant) (hstart : start + lengthOf chunks < 2 ^ 64) :
    Sound (Events.Progress.new (.ofNat start) (total.map .ofNat) now) chunks := by
  have htoNat : (UInt64.ofNat start).toNat = start := UInt64.toNat_ofNat_of_lt' (show _ < 2 ^ 64 by omega)
  refine ⟨UInt64.le_refl _, ?_⟩
  rw [Events.Progress.new, htoNat]
  exact hstart

theorem counts_new {start : ℕ} {total : Option ℕ} (now : Events.Instant) (hstart : start < 2 ^ 64)
    (htotal : ∀ n, total = some n → n < 2 ^ 64) :
    (Events.Progress.new (.ofNat start) (total.map .ofNat) now).counts = ⟨start, total⟩ := by
  have htoNat : ∀ n : ℕ, n < 2 ^ 64 → (UInt64.ofNat n).toNat = n := fun n hn => UInt64.toNat_ofNat_of_lt' hn
  cases total with
  | none => simp [Events.Progress.counts, Events.Progress.new, htoNat start hstart]
  | some n => simp [Events.Progress.counts, Events.Progress.new, htoNat start hstart, htoNat n (htotal n rfl)]

theorem receive_refines {offset : ℕ} {response : Response} (hoffset : offset < 2 ^ 63)
    (hresponse : response.bytes.length < 2 ^ 63) :
    Refines Fits (receive platform request offset response) (Worker.receive platform request offset response) := by
  unfold receive Worker.receive
  dsimp only
  by_cases hsuccess : (!response.status.isSuccess) = true
  · rw [if_pos hsuccess, if_pos hsuccess]
    exact .done _
  · rw [if_neg hsuccess, if_neg hsuccess]
    have hstart : (if response.status.code = 206 then offset else 0) < 2 ^ 63 := by split_ifs <;> omega
    rw [length_bytes] at hresponse
    generalize (if response.status.code = 206 then offset else 0) = start at hstart ⊢
    cases htotal : Worker.totalLength platform start response with
    | error panic => exact .done _
    | ok total =>
      refine Refines.lift_bind (returns_true _) fun part _ => ?_
      refine .tell TellOp.now fun now => .tell (TellOp.report _) fun _ => ?_
      refine transfer_refines (sound_new now (by omega)) (counts_new now (by omega) fun n hn => ?_)
      exact totalLength_lt (hn ▸ htotal)

/-- The length of the `.part` fits. -/
theorem partLen_returns (dest : PathBuf) : (partLen dest).Returns Fits (· < 2 ^ 63) := by
  intro r hr
  cases r with
  | ok length => exact hr length rfl
  | error error =>
    change Program.Returns Fits _ (if error.notFound then pure 0 else Program.raise (Error.io error) : Async ℕ)
    split_ifs
    · exact show 0 < 2 ^ 63 by norm_num
    · trivial

theorem resumeFrom_returns (prior : Option Manifest) :
    (Worker.resumeFrom request prior).Returns Fits (· < 2 ^ 63) := by
  cases prior with
  | none => exact show 0 < 2 ^ 63 by norm_num
  | some manifest => exact (partLen_returns request.destination).bind fun length hlength => min_lt_of_right_lt hlength

/-- A response fits. -/
theorem sendGet_returns (offset : ℕ) (prior : Option Manifest) :
    (Worker.sendGet platform request offset prior).Returns Fits
      fun sent => ∀ response, sent = some response → response.bytes.length < 2 ^ 63 := by
  unfold Worker.sendGet
  refine (returns_true pollStop).bind fun stop _ => ?_
  cases stop with
  | true => exact fun response hresponse => by cases hresponse
  | false =>
    cases Worker.getRequest platform request offset prior with
    | error error => trivial
    | ok httpRequest =>
      intro sent hsent
      cases sent with
      | stopped => exact fun response hresponse => by cases hresponse
      | failed message => trivial
      | response response =>
        intro response' h
        cases h
        exact hsent

theorem resume_refines (loaded : Option Manifest) :
    Refines Fits (resume platform request loaded) (Worker.resume platform request loaded) := by
  unfold resume Worker.resume
  refine Refines.lift_bind (resumeFrom_returns _) fun offset hoffset => ?_
  refine Refines.lift_bind (sendGet_returns offset _) fun sent hsent => ?_
  cases sent with
  | none => exact .done _
  | some response =>
    dsimp only
    split_ifs
    · refine Refines.lift_bind (sendGet_returns 0 none) fun sent hsent => ?_
      cases sent with
      | none => exact .done _
      | some response => exact receive_refines hoffset (hsent response rfl)
    · exact receive_refines hoffset (hsent response rfl)

/-- **The worker that reports does what the worker does**: the same operations in the same order, with the same end,
whatever the clock says, as long as lengths fit. -/
theorem run_refines (platform : Platform) (request : Request) :
    Refines Fits (run platform request) (Worker.run platform request) :=
  Refines.lift_bind (returns_true _) fun _ _ => Refines.lift_bind (returns_true _) fun loaded _ => resume_refines loaded

end Reporting

end DownloadManager
