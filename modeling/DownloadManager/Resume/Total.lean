import DownloadManager.Resume.Course

/-!
# The total

The total of a transfer is the offset it resumes from plus the length the server announces
for the rest. The offset comes from the disk and the length from the server, and the sum
is not checked: with a byte kept, an announced length of `2 ^ 64 - 1` makes the worker
panic, or wrap to a total of zero (`total_exact_iff`, `total_wraps`).

`Receives` are the stages of an attempt up to the response it transfers, for any
surroundings.
-/

namespace DownloadManager

open FileSystem

namespace Worker

variable (platform : Platform) (request : Request)

/-- What there is to resume from: as many bytes as the stored manifest vouches for, and the `.part` has. -/
def keptOffset (disk : Disk) : ℕ :=
  match (storedManifest platform.codec request.destination disk).filter (·.isResumableFor request.url) with
  | some manifest => min manifest.resumeOffset (partData request.destination disk).length
  | none => 0

/-- An attempt gets to the response it transfers. -/
inductive Receives {σ : Type*} (env : Program.Env Op Op.Reply σ) (w : σ) (offset : ℕ) (response : Response) (w' : σ) :
    Prop
  /-- It is the first one. -/
  | first {w₁ w₂ w₃ : σ} {loaded : Option Manifest} (hcheck : (checkDestination request).Leads env w (.ok ()) w₁)
    (hload : (Manifest.load platform.codec request.destination).Leads env w₁ (.ok loaded) w₂)
    (hoffset : (resumeFrom request (loaded.filter (·.isResumableFor request.url))).Leads env w₂ (.ok offset) w₃)
    (hsend : (sendGet platform request offset (loaded.filter (·.isResumableFor request.url))).Leads env w₃
      (.ok (some response)) w')
    (h416 : response.status.code ≠ 416)
  /-- It is the second one, after a `416`. -/
  | again {w₁ w₂ w₃ w₄ : σ} {loaded : Option Manifest} {refused : Response}
    (hcheck : (checkDestination request).Leads env w (.ok ()) w₁)
    (hload : (Manifest.load platform.codec request.destination).Leads env w₁ (.ok loaded) w₂)
    (hoffset : (resumeFrom request (loaded.filter (·.isResumableFor request.url))).Leads env w₂ (.ok offset) w₃)
    (hsend : (sendGet platform request offset (loaded.filter (·.isResumableFor request.url))).Leads env w₃
      (.ok (some refused)) w₄)
    (h416 : refused.status.code = 416)
    (hagain : (sendGet platform request 0 none).Leads env w₄ (.ok (some response)) w')

variable {platform request} {σ : Type*} {env : Program.Env Op Op.Reply σ} {w w' w'' : σ} {offset : ℕ}
  {response : Response}

/-- What comes after the response comes after it in `run`. -/
theorem Receives.leads {r : Result WorkerResult} (h : Receives platform request env w offset response w')
    (hr : (receive platform request offset response).Leads env w' r w'') :
    (run platform request).Leads env w r w'' := by
  cases h with
  | first hcheck hload hoffset hsend h416 =>
    refine hcheck.bind (hload.bind (hoffset.bind (hsend.bind ?_)))
    simp only [h416, if_false]
    exact hr
  | again hcheck hload hoffset hsend h416 hagain =>
    refine hcheck.bind (hload.bind (hoffset.bind (hsend.bind ?_)))
    simp only [h416, if_true]
    exact hagain.bind hr

/-- What is known of the disk when the response arrives. -/
theorem Receives.offset_eq {S : Surroundings} {w w' : World}
    (h : Receives platform request S.env w offset response w') :
    offset = 0 ∨ offset = keptOffset platform request w.disk := by
  have hidle (w : World) : ∀ op : Op, op.IsIdle → ∀ w' : World, w'.disk = w.disk → anyOp op w' := fun _ _ _ _ => trivial
  -- both ways begin with the check, the manifest and the offset
  have hbegin {w₁ w₂ w₃ : World} {loaded : Option Manifest}
      (hcheck : (checkDestination request).Leads S.env w (.ok ()) w₁)
      (hload : (Manifest.load platform.codec request.destination).Leads S.env w₁ (.ok loaded) w₂)
      (hoffset : (resumeFrom request (loaded.filter (·.isResumableFor request.url))).Leads S.env w₂ (.ok offset) w₃) :
      offset = 0 ∨ offset = keptOffset platform request w.disk := by
    obtain rfl := hcheck.holds (checkDestination_holds (hidle w))
    obtain ⟨rfl, hloaded⟩ := hload.holds (load_holds (hidle _))
    have hprior : ∀ m, loaded.filter (·.isResumableFor request.url) = some m →
        storedManifest platform.codec request.destination w₂.disk = some m ∧ m.isResumableFor request.url := by
      intro m hm
      obtain ⟨hl, hr⟩ := Option.filter_eq_some_iff.mp hm
      exact ⟨hloaded m (congrArg _ hl), hr⟩
    have hfound := (hoffset.holds (resumeFrom_holds (hidle _) hprior)).2 offset rfl
    rcases Nat.eq_zero_or_pos offset with h0 | h0
    · exact .inl h0
    · obtain ⟨m, v, -, hm, hresumable, -, heq⟩ := hfound h0
      refine .inr ?_
      rw [keptOffset, hm, Option.filter_some, if_pos hresumable]
      exact heq
  cases h with
  | first hcheck hload hoffset => exact hbegin hcheck hload hoffset
  | again hcheck hload hoffset => exact hbegin hcheck hload hoffset

/-! ### The sum -/

/-- A number that was parsed fits. -/
theorem parseU64_lt {s : String} {n : ℕ} (h : n ∈ parseU64 s) : n < 2 ^ 64 := by
  simp only [parseU64, Option.mem_def] at h
  split_ifs at h with hdigits hlt
  cases h
  exact hlt

theorem contentLength_lt {response : Response} {n : ℕ} (h : n ∈ contentLength response) : n < 2 ^ 64 := by
  obtain ⟨value, -, h⟩ := Option.bind_eq_some_iff.mp (Option.mem_def.mp h)
  obtain ⟨s, -, h⟩ := Option.bind_eq_some_iff.mp h
  exact parseU64_lt h

/-- Where the transfer of a response starts. -/
def startOf (offset : ℕ) (response : Response) : ℕ := if response.status.code = 206 then offset else 0

/-- The total is absent, or the start and the announced length. -/
def TotalExact (platform : Platform) (offset : ℕ) (response : Response) : Prop :=
  totalLength platform (startOf offset response) response =
    .ok ((contentLength response).map (startOf offset response + ·))

/-- A transfer, with its total in the manifest and in the progress. -/
def transferFrom (platform : Platform) (request : Request) (start : ℕ) (total : Option ℕ) (response : Response) :
    Async WorkerResult :=
  (PartFile.open request.destination start (manifestOf request start total response)).bind fun part =>
    transfer platform response.bodyError part ⟨start, total⟩ response.body

theorem receive_eq (hsuccess : response.status.isSuccess = true) :
    receive platform request offset response =
      match totalLength platform (startOf offset response) response with
      | .error panic => .raise panic
      | .ok total => transferFrom platform request (startOf offset response) total response := by
  unfold receive
  simp only [hsuccess, Bool.not_true, Bool.false_eq_true, if_false, startOf]
  rfl

/-- A sum that does not fit. -/
theorem totalLength_of_le {platform : Platform} {start n : ℕ} {response : Response}
    (hn : contentLength response = some n) (hle : 2 ^ 64 ≤ start + n) : totalLength platform start response =
      if platform.overflowChecks then .error .workerPanicked else .ok (some ((start + n) % 2 ^ 64)) := by
  unfold totalLength
  rw [hn]
  exact if_neg (Nat.not_lt.mpr hle)

/-- A sum that fits is the total; of one that does not, what is left depends on the build. -/
theorem totalLength_cases (platform : Platform) (start : ℕ) (response : Response) :
    (∀ n ∈ contentLength response, start + n < 2 ^ 64) ∧
        totalLength platform start response = .ok ((contentLength response).map (start + ·)) ∨
      ∃ n ∈ contentLength response, 2 ^ 64 ≤ start + n ∧
        totalLength platform start response =
          if platform.overflowChecks then .error .workerPanicked else .ok (some ((start + n) % 2 ^ 64)) := by
  cases hlength : contentLength response with
  | none => exact .inl ⟨by simp, by simp [totalLength, hlength]⟩
  | some n =>
    by_cases hlt : start + n < 2 ^ 64
    · refine .inl ⟨by simpa using hlt, ?_⟩
      unfold totalLength
      rw [hlength]
      exact if_pos hlt
    · have hle := Nat.not_lt.mp hlt
      exact .inr ⟨n, rfl, hle, totalLength_of_le hlength hle⟩

/-- What is left of a sum that does not fit is less than what it started from. -/
theorem wrapped_lt {start n : ℕ} (hn : n < 2 ^ 64) (h : 2 ^ 64 ≤ start + n) : (start + n) % 2 ^ 64 < start := by
  omega

/-- **The total is exact if and only if the sum fits.** -/
theorem totalExact_iff {platform : Platform} {offset : ℕ} {response : Response} :
    TotalExact platform offset response ↔
      (response.status.code = 206 → ∀ n ∈ contentLength response, offset + n < 2 ^ 64) := by
  have hstart : (∀ n ∈ contentLength response, startOf offset response + n < 2 ^ 64) ↔
      (response.status.code = 206 → ∀ n ∈ contentLength response, offset + n < 2 ^ 64) := by
    unfold startOf
    split_ifs with h206
    · exact ⟨fun h _ => h, fun h => h h206⟩
    · exact ⟨fun _ h => absurd h h206, fun _ n hn => by simpa using contentLength_lt hn⟩
  rw [← hstart, TotalExact]
  rcases totalLength_cases platform (startOf offset response) response with ⟨hall, heq⟩ | ⟨n, hn, hle, heq⟩
  · exact iff_of_true heq hall
  · refine iff_of_false (fun hexact => ?_) fun hall => absurd (hall n hn) (Nat.not_lt.mpr hle)
    rw [heq, Option.mem_def.mp hn] at hexact
    split_ifs at hexact
    have := wrapped_lt (contentLength_lt hn) hle
    simp only [Option.map_some, Except.ok.injEq, Option.some.injEq] at hexact
    omega

/-- **The total of an attempt** is exact if and only if the response is no range, announces nothing, or announces no
more than there is room for above the offset. Then it is what the manifest and the progress get; otherwise the worker
panics, or they get a total below the offset. Any file operation may fail, and any response may come. -/
theorem total_exact_iff {S : Surroundings} {w w' : World} (h : Receives platform request S.env w offset response w')
    (hsuccess : response.status.isSuccess = true) :
    (offset = 0 ∨ offset = keptOffset platform request w.disk) ∧
    (TotalExact platform offset response ↔
      (response.status.code = 206 → ∀ n ∈ contentLength response, offset + n < 2 ^ 64)) ∧
    (TotalExact platform offset response → receive platform request offset response =
      transferFrom platform request (startOf offset response)
        ((contentLength response).map (startOf offset response + ·)) response) ∧
    (¬TotalExact platform offset response →
      if platform.overflowChecks then (run platform request).Leads S.env w (.error .workerPanicked) w'
      else ∃ wrapped < offset, receive platform request offset response =
        transferFrom platform request offset (some wrapped) response) := by
  refine ⟨h.offset_eq, totalExact_iff, fun hexact => ?_, fun hwrong => ?_⟩
  · rw [receive_eq hsuccess, show totalLength _ _ _ = _ from hexact]
  rcases totalLength_cases platform (startOf offset response) response with ⟨-, heq⟩ | ⟨n, hn, hle, heq⟩
  · exact absurd heq hwrong
  have hlt := wrapped_lt (contentLength_lt hn) hle
  -- only a range starts anywhere
  have h206 : startOf offset response = offset := by
    unfold startOf at hlt ⊢
    split_ifs at hlt ⊢
    · rfl
    · exact absurd hlt (Nat.not_lt_zero _)
  split_ifs at heq ⊢ with hchecks
  · refine h.leads ?_
    rw [receive_eq hsuccess, heq]
    exact .done
  · refine ⟨_, h206 ▸ hlt, ?_⟩
    rw [receive_eq hsuccess, heq, h206]

/-! ### To run -/

/-- One byte is kept, and the manifest vouches for it. -/
def keptByte : World :=
  ⟨(Disk.empty.put (partPath Request.sample.destination) [1]).put (manifestPath Request.sample.destination)
    (Json.codec.toVec ⟨Request.sample.url, some "v1", none, none, [⟨0, 1⟩]⟩), none⟩

/-- A range of a single byte, with an announced length. -/
def rangeOf (length : String) : Response :=
  ⟨.partialContent, [(Header.contentLength, .text length)], [.single 2], none⟩

/-- Nothing fails, and the server has one response. -/
def answering (response : Response) : Course := ⟨fun _ => response, [], fun _ => false⟩

/-- The byte is found, the rest is asked for, and the response arrives. -/
theorem receives_rangeOf (checks : Bool) (length : String) :
    ∃ w', Receives ⟨Json.codec, fun _ => none, checks⟩ .sample Surroundings.anyServer.env keptByte 1
      (rangeOf length) w' := by
  have hleads {α : Type} {p : Async α} {w w' : World} {r : Result α}
      (h : Program.eval (answering (rangeOf length)).handle p w = (r, w')) :
      p.Leads Surroundings.anyServer.env w r w' :=
    Course.leads_of_eval (fun _ _ => trivial) (fun _ => trivial) h
  have hfile : Request.sample.destination.IsFile := by decide
  have hstored : storedManifest Json.codec Request.sample.destination keptByte.disk =
      some ⟨Request.sample.url, some "v1", none, none, [⟨0, 1⟩]⟩ := by decide +kernel
  have hpart : partData Request.sample.destination keptByte.disk = [1] := by decide +kernel
  have hoffset : Program.eval (answering (rangeOf length)).handle (resumeFrom .sample
      ((storedManifest Json.codec Request.sample.destination keptByte.disk).filter
        (·.isResumableFor Request.sample.url))) keptByte = (.ok 1, keptByte) := by
    rw [hstored]
    refine (Program.eval_bind_ok _ (Course.eval_partLen hfile)).trans ?_
    rw [hpart]
    rfl
  have hget : getRequest ⟨Json.codec, fun _ => none, checks⟩ .sample 1
      ((storedManifest Json.codec Request.sample.destination keptByte.disk).filter
        (·.isResumableFor Request.sample.url)) = .ok (rangedRequest .sample 1 "v1") := by
    rw [hstored]
    exact getRequest_pos rfl Nat.one_pos rfl (by decide +kernel)
  exact ⟨_, .first (hleads (Course.eval_checkDestination hfile (.inr (by decide +kernel))))
    (hleads (Course.eval_load hfile)) (hleads hoffset) (hleads (Course.eval_sendGet rfl hget))
    (show (206 : ℕ) ≠ 416 by decide)⟩

/-- A range as long as fits is announced above the one byte. -/
theorem total_exact_iff_largest :
    ∃ w', Receives .sample .sample Surroundings.anyServer.env keptByte 1 (rangeOf "18446744073709551614") w' ∧
      TotalExact .sample 1 (rangeOf "18446744073709551614") ∧
      keptOffset .sample .sample keptByte.disk = 1 := by
  obtain ⟨w', h⟩ := receives_rangeOf true "18446744073709551614"
  obtain ⟨hoffset, hiff, -, -⟩ := total_exact_iff h rfl
  exact ⟨w', h, hiff.mpr (by decide +kernel), (hoffset.resolve_left Nat.one_ne_zero).symm⟩

/-- **A length of `2 ^ 64 - 1` announced above one byte** makes the worker panic, or is recorded as a total of zero. -/
theorem total_wraps :
    (∃ w', (run .sample .sample).Leads Surroundings.anyServer.env keptByte (.error .workerPanicked) w') ∧
      ∃ w', Receives ⟨Json.codec, fun _ => none, false⟩ .sample Surroundings.anyServer.env keptByte 1
          (rangeOf "18446744073709551615") w' ∧
        contentLength (rangeOf "18446744073709551615") = some 18446744073709551615 ∧
        receive ⟨Json.codec, fun _ => none, false⟩ .sample 1 (rangeOf "18446744073709551615") =
          transferFrom ⟨Json.codec, fun _ => none, false⟩ .sample 1 (some 0) (rangeOf "18446744073709551615") := by
  have hlength : contentLength (rangeOf "18446744073709551615") = some 18446744073709551615 := by decide +kernel
  constructor
  · obtain ⟨w', h⟩ := receives_rangeOf true "18446744073709551615"
    refine ⟨w', h.leads ?_⟩
    rw [receive_eq rfl, totalLength_of_le hlength (by decide +kernel)]
    exact .done
  · obtain ⟨w', h⟩ := receives_rangeOf false "18446744073709551615"
    refine ⟨w', h, hlength, ?_⟩
    rw [receive_eq rfl, totalLength_of_le hlength (by decide +kernel)]
    rfl

end Worker

end DownloadManager
