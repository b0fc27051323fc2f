import DownloadManager.Library.Machine
import DownloadManager.Resume.Durable
import Mathlib.Tactic.FinCases

/-!
# Attempts and crashes

A computer runs attempts of a download one after another, each operation a step.
Between any two steps the process can be killed or the power lost; a kill in the
middle of a write is a write that fails part of the way, and a kill.

The server is only asked to be honest: a validator it sends identifies one content,
and a range it was asked for and answers with is a range of the content the validator
of the request identifies. Which content it has may change with every request.
-/

namespace DownloadManager

open FileSystem Worker

/-- A disk, and the process using it. -/
structure Computer where
  /-- The disk. -/
  disk : Disk
  /-- The request of the attempt, and what is left to do of it. -/
  attempt : Option (Request × Async WorkerResult)

namespace Computer

/-- What happens next. -/
inductive Action where
  /-- A new attempt. -/
  | start (request : Request)
  /-- The next operation of the attempt. -/
  | operation (choice : Choice)
  /-- The process is killed. -/
  | kill
  /-- The power is lost. -/
  | powerLoss (lost : ℕ → ℕ → Bool)

/-- The operation the attempt performs next. -/
def pending (c : Computer) : Option Op :=
  match c.attempt with
  | some (_, .call op _) => some op
  | _ => none

/-- The request that is sent next. -/
def asked (c : Computer) : Option HttpRequest :=
  match c.pending with
  | some (.send httpRequest) => some httpRequest
  | _ => none

/-- Where the `.part` is cut next. -/
def cut (c : Computer) : Option ℕ :=
  match c.pending with
  | some (.file (.setLen _ n)) => some n
  | _ => none

variable (platform : Platform)

/-- A step. -/
def step (c : Computer) : Action → Option Computer
  | .start request => if c.pending.isSome then none else some { c with attempt := some (request, run platform request) }
  | .operation choice =>
    match c.attempt with
    | some (request, .call op next) => (perform op choice c.disk).map fun (r, disk) => ⟨disk, some (request, next r)⟩
    | _ => none
  | .kill => some { c with attempt := none }
  | .powerLoss lost => some ⟨c.disk.crash lost, none⟩

end Computer

/-- **An honest server**: its validators identify contents, and a range goes on in the content
that the validator of the request identifies. -/
def Server.honest (ident : String → List UInt8) : Server := fun request response content =>
  response.status.isSuccess →
    (∀ v ∈ validators response, ident v = content) ∧
    (response.status.code ≠ 206 → response.bytes <+: content) ∧
    (response.status.code = 206 → ∃ range, request.headers.get Header.range = some range ∧
      ∀ offset v, range = .text (rangeFrom offset) → request.headers.get Header.ifRange = some (.text v) →
        ident v = content ∧ offset ≤ content.length ∧ response.bytes <+: content.drop offset)

/-- An honest server that does not answer a caller's own request with a range. -/
def Server.honestTo (ident : String → List UInt8) (request : Request) : Server := fun httpRequest response content =>
  Server.honest ident httpRequest response content ∧ (httpRequest = ownRequest request → response.status.code ≠ 206)

theorem Server.faithful_honestTo (ident : String → List UInt8) (request : Request) :
    (Server.honestTo ident request).Faithful ident request where
  validator _ h hsuccess := (h.1 hsuccess).1
  whole h hsuccess := (h.1 hsuccess).2.1
  own h := h.2 rfl
  rest := by
    intro offset v response content h h206
    have hsuccess : response.status.isSuccess := by simp [StatusCode.isSuccess, h206]
    obtain ⟨range, hget, h⟩ := (h.1 hsuccess).2.2 h206
    refine h offset v ?_ (HeaderMap.get_insert_self ..)
    rw [range_rangedRequest] at hget
    exact (Option.some.inj hget).symm

namespace Computer

variable (platform : Platform) (url : String) (dest : PathBuf) (ident : String → List UInt8)

/-- The attempts are for one URL and one destination, and the server is honest. -/
def Admissible (c : Computer) : Action → Prop
  | .start request => request.url = url ∧ request.destination = dest
  | .operation (.send (.response response)) =>
    ∀ request, c.pending = some (.send request) → ∃ content, Server.honest ident request response content
  | _ => True

/-- The condition: no caller's own request is answered with a range, and no `.part` is cut below what the manifest
on disk vouches for. -/
def Careful (c : Computer) : Action → Prop
  | .operation (.send (.response response)) =>
    ∀ attempt ∈ c.attempt, c.asked = some (ownRequest attempt.1) → response.status.code ≠ 206
  | .operation (.file _) =>
    ∀ n ∈ c.cut, ∀ m ∈ storedManifest platform.codec dest c.disk, m.isResumableFor url → m.resumeOffset ≤ n
  | _ => True

instance : (c : Computer) → (a : Action) → Decidable (c.Careful platform url dest a)
  | c, .operation (.send (.response response)) =>
    inferInstanceAs (Decidable (∀ attempt ∈ c.attempt, c.asked = some (ownRequest attempt.1) →
      response.status.code ≠ 206))
  | c, .operation (.file _) =>
    inferInstanceAs (Decidable (∀ n ∈ c.cut, ∀ m ∈ storedManifest platform.codec dest c.disk,
      m.isResumableFor url → m.resumeOffset ≤ n))
  | _, .start _ | _, .operation (.send .stopped) | _, .operation (.send (.failed _)) | _, .operation (.pollStop _)
  | _, .kill | _, .powerLoss _ => .isTrue trivial

/-- What surrounds an attempt in a careful run. -/
def surroundings (request : Request) : Surroundings where
  server := Server.honestTo ident request
  faulty _ := True
  guard op disk :=
    ∀ file n, op = .setLen file n →
      ∀ m, storedManifest platform.codec dest disk = some m → m.isResumableFor url → m.resumeOffset ≤ n

/-- The kept bytes are safe now, and whatever is left to do of the attempt. -/
def Safe (c : Computer) : Prop :=
  Durable platform.codec url dest ident c.disk ∧
    ∀ request program, c.attempt = some (request, program) → ∃ served,
      program.Holds (surroundings platform url dest ident request).env (safe platform.codec url dest ident)
        (fun _ w => Durable platform.codec url dest ident w.disk) ⟨c.disk, served⟩

variable {platform url dest ident}

/-- A step that meets the condition keeps the kept bytes safe. -/
theorem Safe.step {c c' : Computer} {a : Action} (hc : c.Safe platform url dest ident)
    (ha : c.Admissible url dest ident a ∧ c.Careful platform url dest a) (h : c.step platform a = some c') :
    c'.Safe platform url dest ident := by
  obtain ⟨hdurable, hholds⟩ := hc
  cases a with
  | start request =>
    simp only [Computer.step, Option.ite_none_left_eq_some, Option.some.injEq] at h
    obtain ⟨-, rfl⟩ := h
    obtain ⟨⟨rfl, rfl⟩, -⟩ := ha
    refine ⟨hdurable, fun request program hprogram => ?_⟩
    cases hprogram
    exact ⟨none, hdurable.run_holds (Server.faithful_honestTo ident request) fun hguard => hguard _ _ rfl⟩
  | kill => cases h; exact ⟨hdurable, fun _ _ hprogram => by cases hprogram⟩
  | powerLoss lost => cases h; exact ⟨hdurable.crash lost, fun _ _ hprogram => by cases hprogram⟩
  | operation choice =>
    obtain ⟨disk, attempt⟩ := c
    simp only [Computer.step] at h
    split at h
    swap
    · cases h
    next request op next =>
    obtain ⟨⟨r, disk'⟩, hperform, rfl⟩ := Option.map_eq_some_iff.mp h
    obtain ⟨served, hop⟩ := hholds _ _ rfl
    obtain ⟨served', henv⟩ := Surroundings.env_of_perform (S := surroundings platform url dest ident request) hperform
      served
      (fun fileOp fault hop' hchoice => ⟨fun file n hn => by subst hop' hchoice hn; exact ha.2 n rfl, fun _ => trivial⟩)
      (fun httpRequest response hop' hchoice => by
        subst hop' hchoice
        obtain ⟨content, hhonest⟩ := ha.1 httpRequest rfl
        exact ⟨content, hhonest, fun hown => ha.2 _ rfl (congrArg some hown)⟩)
    have hnext := hop.2 r _ henv
    exact ⟨hnext.now (fun _ => id) fun _ => id, fun _ _ hprogram => by cases hprogram; exact ⟨served', hnext⟩⟩

/-- **What the next attempt will keep survives**, in every careful run of a download that starts
without a manifest, whatever fails and whenever the process is killed or the power lost. -/
theorem kept_bytes_survive {disk : Disk} {as : List Action} {c : Computer}
    (hfresh : disk.file (manifestPath dest) = none) (hrun : Machine.exec (step platform) ⟨disk, none⟩ as = some c)
    (hmeets : Machine.Along (step platform) (fun c a => c.Admissible url dest ident a ∧ c.Careful platform url dest a)
      ⟨disk, none⟩ as) : Durable platform.codec url dest ident c.disk := by
  have hinit : Safe platform url dest ident ⟨disk, none⟩ := by
    refine ⟨fun m hm => ?_, fun _ _ hprogram => by cases hprogram⟩
    rw [storedManifest, hfresh] at hm
    cases hm
  exact (Machine.exec_induct_along (step platform) (fun _ _ _ hc ha h => hc.step ha h) as hmeets hinit hrun).1

/-! ### A careful run, and one that is not -/

/-- A file operation that succeeds. -/
def file : Action := .operation (.file none)

/-- The stop token. -/
def poll (stop : Bool) : Action := .operation (.pollStop stop)

/-- An attempt for two bytes, stopped after the first: it is checkpointed. -/
def stoppedRun : List Action :=
  [.start .sample, file, file, poll false, .operation (.send (.response (.sample .ok "v1" [1, 2]))), file, file, file,
    file, poll false, file, file, poll true, file, file, file, file]

/-- Then the server has another representation, and answers the request for the rest with it. The
process is killed after one byte of that. -/
def staleRun : List Action :=
  stoppedRun ++ [.start .sample, file, file, file, poll false,
    .operation (.send (.response (.sample .ok "v2" [9]))), file, file, file, file, poll false, file, .kill]

/-- Which content the two validators identify. -/
def sampleIdent : String → List UInt8 := fun v => if v = "v1" then [1, 2] else [9]

theorem honest_of_ok {ident : String → List UInt8} {response : Response} {content : List UInt8}
    (hstatus : response.status.code ≠ 206) (hvalidators : ∀ v ∈ validators response, ident v = content)
    (hbytes : response.bytes <+: content) (httpRequest : HttpRequest) :
    Server.honest ident httpRequest response content :=
  fun _ => ⟨hvalidators, fun _ => hbytes, fun h => absurd h hstatus⟩

theorem admissible_response {response : Response} (hstatus : response.status.code ≠ 206)
    (hvalidators : ∀ v ∈ validators response, sampleIdent v = response.bytes) (c : Computer) :
    c.Admissible Request.sample.url Request.sample.destination sampleIdent (.operation (.send (.response response))) :=
  fun request _ => ⟨_, honest_of_ok hstatus hvalidators (List.prefix_refl _) request⟩

theorem admissible_staleRun (lost : ℕ → ℕ → Bool) : ∀ a ∈ staleRun ++ [.powerLoss lost], ∀ c : Computer,
    c.Admissible Request.sample.url Request.sample.destination sampleIdent a := by
  intro a ha c
  fin_cases ha
  all_goals first
    | exact ⟨rfl, rfl⟩
    | trivial
    | exact admissible_response (by decide) (by decide +kernel) c

/-- The manifest of the first attempt. -/
def stoppedManifest : Manifest := ⟨"http://x/y", some "v1", none, none, [⟨0, 1⟩]⟩

/-- The stopped attempt, and a power loss that takes every byte of the `.part` it can take: the byte the
manifest vouches for stays. -/
theorem kept_bytes_survive_stoppedRun :
    ∃ c, Machine.exec (step .sample) ⟨.empty, none⟩ (stoppedRun ++ [.powerLoss fun inode _ => inode == 0]) = some c ∧
      storedManifest Json.codec Request.sample.destination c.disk = some stoppedManifest ∧
      Durable Json.codec Request.sample.url Request.sample.destination sampleIdent c.disk := by
  have h : (Machine.exec (step .sample) ⟨.empty, none⟩ (stoppedRun ++ [.powerLoss fun inode _ => inode == 0])).any
      (fun c => storedManifest Json.codec Request.sample.destination c.disk = some stoppedManifest) := by decide +kernel
  obtain ⟨c, hc, hstored⟩ := Machine.exists_exec_of_any (step .sample) h
  refine ⟨c, hc, hstored, kept_bytes_survive rfl hc (Machine.Along.and _ ?_ ?_)⟩
  · refine Machine.along_of_forall _ (fun a ha c => admissible_staleRun (fun inode _ => inode == 0) a ?_ c) _
    rw [List.mem_append] at ha ⊢
    exact ha.imp_left fun h => List.mem_append_left _ h
  · decide +kernel

/-- **The kept bytes are neither durable nor those of the manifest's content**, when the process is killed
after the `.part` was cut for another representation and before the next checkpoint. -/
theorem stale_manifest_not_durable :
    ∃ c, Machine.exec (step .sample) ⟨.empty, none⟩ staleRun = some c ∧
      Machine.Along (step .sample) (Admissible Request.sample.url Request.sample.destination sampleIdent)
        ⟨.empty, none⟩ staleRun ∧
      ¬Durable Json.codec Request.sample.url Request.sample.destination sampleIdent c.disk := by
  have h : (Machine.exec (step .sample) ⟨.empty, none⟩ staleRun).any
      (fun c => c.disk.file (partPath Request.sample.destination) = some ⟨[9], 0⟩ ∧
        storedManifest Json.codec Request.sample.destination c.disk = some stoppedManifest) := by decide +kernel
  obtain ⟨c, hc, hpart, hstored⟩ := Machine.exists_exec_of_any (step .sample) h
  refine ⟨c, hc, Machine.along_of_forall _ (fun a ha c => ?_) _, fun hdurable => ?_⟩
  · exact admissible_staleRun (fun _ _ => false) a (List.mem_append_left _ ha) c
  · obtain ⟨hsynced, -⟩ := hdurable _ hstored (by decide) _ hpart
    exact absurd hsynced (by decide)

end Computer

end DownloadManager
