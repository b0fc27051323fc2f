import DownloadManager.Resume.Server

/-!
# One attempt

What surrounds a worker that has its files to itself: a disk, a server, and which
file operations may fail. `World` also remembers the last exchange with the server,
and the content the response was taken from; the worker does not see that, the
theorems do.

Up to the response a worker changes nothing. `Worker.run_holds` says what is then
known, and leaves the rest, from the opening of the `.part` on, to be shown.
-/

namespace DownloadManager

open FileSystem Worker

/-- A request and its answer. -/
structure Exchange where
  /-- The request. -/
  request : HttpRequest
  /-- The response. -/
  response : Response
  /-- The content it was taken from. -/
  content : List UInt8

/-- A disk, and the last answer of the server. -/
@[ext]
structure World where
  /-- The disk. -/
  disk : Disk
  /-- The last exchange. -/
  served : Option Exchange

/-- What a worker has to reckon with. -/
structure Surroundings where
  /-- The server. -/
  server : Server
  /-- The file operations that may fail. -/
  faulty : FileOp PathBuf UInt8 → Prop
  /-- What is taken for granted when a file operation begins. -/
  guard : FileOp PathBuf UInt8 → Disk → Prop

namespace Surroundings

/-- What they do with an operation. -/
def env (S : Surroundings) : Program.Env Op Op.Reply World
  | .file op, w, r, w' =>
    S.guard op w.disk ∧ (∃ fault, (fault.isSome → S.faulty op) ∧ Outcome w.disk fault op r w'.disk) ∧
      w'.served = w.served
  | .send httpRequest, w, r, w' =>
    w'.disk = w.disk ∧ ∀ response, r = .response response →
      ∃ content, S.server httpRequest response content ∧ w'.served = some ⟨httpRequest, response, content⟩
  | .pollStop, w, _, w' => w' = w

/-- What can be computed is what they may do. -/
theorem env_of_perform {S : Surroundings} {op : Op} {choice : Choice} {disk disk' : Disk} {r : op.Reply}
    (h : perform op choice disk = some (r, disk')) (served : Option Exchange)
    (hfile : ∀ fileOp fault, op = .file fileOp → choice = .file fault →
      S.guard fileOp disk ∧ (fault.isSome → S.faulty fileOp))
    (hserver : ∀ httpRequest response, op = .send httpRequest → choice = .send (.response response) →
      ∃ content, S.server httpRequest response content) :
    ∃ served', S.env op ⟨disk, served⟩ r ⟨disk', served'⟩ := by
  cases op with
  | file fileOp =>
    cases choice with
    | file fault =>
      obtain ⟨hguard, hfault⟩ := hfile fileOp fault rfl rfl
      have ho := outcome_performFile disk fault fileOp
      have hr : performFile disk fault fileOp = (r, disk') := Option.some.inj h
      rw [hr] at ho
      exact ⟨served, hguard, ⟨fault, hfault, ho⟩, rfl⟩
    | _ => cases h
  | send httpRequest =>
    cases choice with
    | send sent =>
      cases sent with
      | response response =>
        cases h
        obtain ⟨content, hcontent⟩ := hserver httpRequest response rfl rfl
        exact ⟨some ⟨httpRequest, response, content⟩, rfl, fun _ hr => by cases hr; exact ⟨content, hcontent, rfl⟩⟩
      | _ =>
        cases h
        exact ⟨served, rfl, fun _ hr => by cases hr⟩
    | _ => cases h
  | pollStop =>
    cases choice with
    | pollStop stop => cases h; exact ⟨served, rfl⟩
    | _ => cases h

end Surroundings

/-- Nothing is asked of the operations of an attempt that runs to its end. -/
abbrev anyOp : Op → World → Prop := fun _ _ => True

/-- The file operations that change nothing. -/
def IsQuery : FileOp PathBuf UInt8 → Prop
  | .metadata _ | .read _ | .createDirAll _ | .seek _ _ | .streamPosition _ => True
  | _ => False

instance : DecidablePred IsQuery
  | .metadata _ | .read _ | .createDirAll _ | .seek _ _ | .streamPosition _ => .isTrue trivial
  | .openFile _ | .setLen _ _ | .writeAll _ _ _ | .syncData _ | .syncAll _ | .write _ _ | .rename _ _ | .removeFile _ =>
    .isFalse id

/-- The operations that leave the disk as it is. -/
def Op.IsIdle : Op → Prop
  | .file op => IsQuery op
  | .send _ | .pollStop => True

section

variable {disk disk' : Disk} {fault : Option (Fault IoError)} {path : PathBuf}

theorem Outcome.disk_of_isQuery {op : FileOp PathBuf UInt8} {r : Except IoError op.Value}
    (h : Outcome disk fault op r disk') (hop : IsQuery op) : disk' = disk := by
  cases h with
  | effect _ _ _ hdisk =>
    cases op with
    | metadata p | read p =>
      simp only [FileOp.effect] at hdisk
      split at hdisk <;> exact hdisk
    | createDirAll | seek | streamPosition => exact hdisk
    | _ => cases hop
  | fail _ written _ _ hdisk =>
    cases op with
    | metadata | read | createDirAll | seek | streamPosition => cases written <;> exact hdisk
    | _ => cases hop
  | directory _ _ _ hdisk => exact hdisk

/-- What was read is there. -/
theorem Outcome.file_of_read {bytes : List UInt8} (h : Outcome disk fault (.read path) (.ok bytes) disk') :
    ∃ f, disk.file path = some f ∧ f.data = bytes := by
  cases h with
  | effect _ _ hr =>
    simp only [FileOp.effect] at hr
    split at hr
    · next f hf =>
      cases hr
      exact ⟨f, hf, rfl⟩
    · cases hr
  | fail _ _ _ hr => cases hr
  | directory _ _ hr => cases hr

/-- A length that was asked for, unless the path is a directory. -/
theorem Outcome.length_of_metadata {n : ℕ} (h : Outcome disk fault (.metadata path) (.ok n) disk') :
    n = 0 ∨ ∃ f, disk.file path = some f ∧ n = f.data.length := by
  cases h with
  | effect _ _ hr =>
    simp only [FileOp.effect] at hr
    split at hr
    · next f hf =>
      cases hr
      exact .inr ⟨f, hf, rfl⟩
    · cases hr
  | fail _ _ _ hr => cases hr
  | directory _ _ hr =>
    simp only [performDirectory] at hr
    split_ifs at hr
    cases hr
    exact .inl rfl

end

/-- The manifest `Manifest::load` finds. -/
def storedManifest (codec : Codec) (dest : PathBuf) (disk : Disk) : Option Manifest :=
  (disk.file (manifestPath dest)).bind fun f => codec.fromSlice f.data

/-- What is in the `.part`. -/
def partData (dest : PathBuf) (disk : Disk) : List UInt8 :=
  ((disk.file (partPath dest)).map Inode.data).getD []

namespace Worker

variable {S : Surroundings} {pre : Op → World → Prop} {platform : Platform} {request : Request}

/-- What a worker knows of the files when it sends its request for what comes after an offset. -/
def Found (platform : Platform) (request : Request) (disk : Disk) (prior : Option Manifest) (offset : ℕ) : Prop :=
  0 < offset → ∃ m v, prior = some m ∧ storedManifest platform.codec request.destination disk = some m ∧
    m.isResumableFor request.url ∧ m.validator = some v ∧
    offset = min m.resumeOffset (partData request.destination disk).length

/-- The last exchange of a worker that has found `offset` bytes. -/
structure Answered (S : Surroundings) (platform : Platform) (request : Request) (disk : Disk) (offset : ℕ)
    (e : Exchange) : Prop where
  /-- The server has answered. -/
  server : S.server e.request e.response e.content
  /-- The URL can be used. -/
  uri : platform.uriError request.url = none
  /-- What was found. -/
  found : ∃ prior, Found platform request disk prior offset
  /-- The worker sent one of its two requests. -/
  request_eq : e.request = ownRequest request ∨
    0 < offset ∧ ∃ m v, storedManifest platform.codec request.destination disk = some m ∧ m.validator = some v ∧
      e.request = rangedRequest request offset v

/-- A file operation whose error is returned. -/
theorem holds_await {op : FileOp PathBuf UInt8} {post : Result op.Value → World → Prop} {w : World}
    (hpre : pre (.file op) w)
    (h : ∀ fault r disk', S.guard op w.disk → (fault.isSome → S.faulty op) → Outcome w.disk fault op r disk' →
      post (r.mapError .io) { w with disk := disk' }) : (Fs.await op).Holds S.env pre post w := by
  refine ⟨hpre, fun r w' ⟨hguard, ⟨fault, hfault, ho⟩, hserved⟩ => ?_⟩
  have hw : w' = { w with disk := w'.disk } := World.ext rfl hserved
  rw [hw]
  exact h fault r w'.disk hguard hfault ho

/-- A file operation whose error is handled. -/
theorem holds_attempt {op : FileOp PathBuf UInt8} {post : Result (Except IoError op.Value) → World → Prop} {w : World}
    (hpre : pre (.file op) w)
    (h : ∀ fault r disk', S.guard op w.disk → (fault.isSome → S.faulty op) → Outcome w.disk fault op r disk' →
      post (.ok r) { w with disk := disk' }) : (Fs.attempt op).Holds S.env pre post w := by
  refine ⟨hpre, fun r w' ⟨hguard, ⟨fault, hfault, ho⟩, hserved⟩ => ?_⟩
  have hw : w' = { w with disk := w'.disk } := World.ext rfl hserved
  rw [hw]
  exact h fault r w'.disk hguard hfault ho

/-- A query whose error is returned. -/
theorem holds_await_query {op : FileOp PathBuf UInt8} {post : Result op.Value → World → Prop} {w : World}
    (hop : IsQuery op) (hpre : pre (.file op) w) (h : ∀ r, post r w) : (Fs.await op).Holds S.env pre post w := by
  refine holds_await hpre fun fault r disk' _ _ ho => ?_
  obtain rfl := ho.disk_of_isQuery hop
  exact h _

/-- The stop token. -/
theorem holds_pollStop {post : Result Bool → World → Prop} {w : World} (hpre : pre .pollStop w)
    (h : ∀ stop, post (.ok stop) w) : pollStop.Holds S.env pre post w := by
  refine ⟨hpre, fun r w' hw => ?_⟩
  obtain rfl : w' = w := hw
  exact h r

section

variable {w : World} (hidle : ∀ op, op.IsIdle → ∀ w', w'.disk = w.disk → pre op w')
include hidle

theorem checkDestination_holds :
    (checkDestination request).Holds S.env pre (fun _ w' => w' = w) w := by
  refine Program.Holds.bind (Q := fun _ w' => w' = w) ?_ ?_ ?_
  · refine holds_attempt (hidle (.file (.metadata _)) trivial w rfl) fun fault r disk' _ _ ho => ?_
    rw [ho.disk_of_isQuery trivial]
  · rintro r _ rfl
    cases r with
    | ok => dsimp only; split <;> exact rfl
    | error => dsimp only; split <;> exact rfl
  · rintro e _ rfl
    rfl

theorem load_holds :
    (Manifest.load platform.codec request.destination).Holds S.env pre
      (fun r w' => w' = w ∧ ∀ m, r = .ok (some m) →
          storedManifest platform.codec request.destination w.disk = some m) w := by
  refine Program.Holds.bind
    (Q := fun r w' => w' = w ∧ ∀ bytes, r = .ok (.ok bytes) →
      ∃ f, w.disk.file (manifestPath request.destination) = some f ∧ f.data = bytes) ?_ ?_ ?_
  · refine holds_attempt (hidle (.file (.read _)) trivial w rfl) fun fault r disk' _ _ ho => ?_
    obtain rfl := ho.disk_of_isQuery trivial
    refine ⟨rfl, fun bytes hr => ?_⟩
    cases hr
    exact ho.file_of_read
  · intro r _ h'
    obtain ⟨rfl, hr⟩ := h'
    cases r with
    | error => exact ⟨rfl, fun m hm => by cases hm⟩
    | ok bytes =>
      refine ⟨rfl, fun m hm => ?_⟩
      obtain ⟨f, hf, rfl⟩ := hr bytes rfl
      rw [storedManifest, hf]
      exact Except.ok.inj hm
  · intro e _ h'
    obtain ⟨rfl, -⟩ := h'
    exact ⟨rfl, fun m hm => by cases hm⟩

theorem partLen_holds :
    (partLen request.destination).Holds S.env pre
      (fun r w' => w' = w ∧ ∀ n, r = .ok n → n = 0 ∨ n = (partData request.destination w.disk).length) w := by
  refine Program.Holds.bind
    (Q := fun r w' => w' = w ∧ ∀ n, r = .ok (.ok n) → n = 0 ∨ n = (partData request.destination w.disk).length) ?_ ?_ ?_
  · refine holds_attempt (hidle (.file (.metadata _)) trivial w rfl) fun fault r disk' _ _ ho => ?_
    obtain rfl := ho.disk_of_isQuery trivial
    refine ⟨rfl, fun n hr => ?_⟩
    cases hr
    refine ho.length_of_metadata.imp_right ?_
    intro h'
    obtain ⟨f, hf, rfl⟩ := h'
    rw [partData, hf, Option.map_some, Option.getD_some]
  · intro r _ h'
    obtain ⟨rfl, hr⟩ := h'
    cases r with
    | ok n => exact ⟨rfl, fun m hm => hr m (by cases hm; rfl)⟩
    | error =>
      dsimp only
      split
      · exact ⟨rfl, fun n hn => .inl (Except.ok.inj hn).symm⟩
      · exact ⟨rfl, fun n hn => by cases hn⟩
  · intro e _ h'
    obtain ⟨rfl, -⟩ := h'
    exact ⟨rfl, fun n hn => by cases hn⟩

theorem resumeFrom_holds {prior : Option Manifest}
    (hprior : ∀ m, prior = some m → storedManifest platform.codec request.destination w.disk = some m ∧
      m.isResumableFor request.url) :
    (resumeFrom request prior).Holds S.env pre
      (fun r w' => w' = w ∧ ∀ n, r = .ok n → Found platform request w.disk prior n) w := by
  cases prior with
  | none => exact ⟨rfl, fun n hn h0 => by cases hn; exact absurd h0 (Nat.lt_irrefl 0)⟩
  | some m =>
    obtain ⟨hstored, hm⟩ := hprior m rfl
    refine (partLen_holds hidle).bind ?_ ?_
    · intro n _ h'
      obtain ⟨rfl, hn⟩ := h'
      refine ⟨rfl, fun k hk h0 => ?_⟩
      cases hk
      obtain ⟨v, hv⟩ := (Manifest.isResumableFor_iff.mp hm).2.2
      refine ⟨m, v, rfl, hstored, hm, hv, ?_⟩
      rcases hn n rfl with rfl | rfl
      · omega
      · rfl
    · intro e _ h'
      obtain ⟨rfl, -⟩ := h'
      exact ⟨rfl, fun n hn => by cases hn⟩

theorem sendGet_holds {offset : ℕ} {prior : Option Manifest} (hfound : Found platform request w.disk prior offset) :
    (sendGet platform request offset prior).Holds S.env pre
      (fun r w' => w'.disk = w.disk ∧ ∀ response, r = .ok (some response) →
        ∃ e, w'.served = some e ∧ e.response = response ∧ Answered S platform request w.disk offset e) w := by
  refine Program.Holds.bind (Q := fun _ w' => w' = w)
    (holds_pollStop (hidle .pollStop trivial w rfl) fun _ => rfl) ?_ ?_
  · rintro stop _ rfl
    cases stop with
    | true => exact ⟨rfl, fun response h => by cases h⟩
    | false =>
      simp only [Bool.false_eq_true, if_false]
      split
      · exact ⟨rfl, fun response h => by cases h⟩
      next httpRequest hget =>
      refine ⟨hidle (.send _) trivial _ rfl, fun r w' ⟨hdisk, hr⟩ => ?_⟩
      cases r with
      | stopped | failed => exact ⟨hdisk, fun response h => by cases h⟩
      | response response =>
        refine ⟨hdisk, fun _ h => ?_⟩
        cases h
        obtain ⟨content, hserver, hserved⟩ := hr response rfl
        refine ⟨_, hserved, rfl, hserver, uriError_of_getRequest hget, ⟨prior, hfound⟩, ?_⟩
        rcases getRequest_cases (fun h0 => (hfound h0).imp fun m ⟨v, hm, _, _, hv, _⟩ => ⟨v, hm, hv⟩) hget with
          ⟨-, rfl⟩ | ⟨h0, m, v, hm, hv, rfl⟩
        · exact .inl rfl
        · obtain ⟨m', v', hm', hstored, -, -, -⟩ := hfound h0
          cases hm.symm.trans hm'
          exact .inr ⟨h0, m, v, hstored, hv, rfl⟩
  · rintro e _ rfl
    exact ⟨rfl, fun response h => by cases h⟩

/-- **Up to the response a worker changes nothing.** -/
theorem run_holds {post : Result WorkerResult → World → Prop}
    (herror : ∀ e w', w'.disk = w.disk → post (.error e) w') (hstopped : ∀ w', w'.disk = w.disk → post (.ok .stopped) w')
    (hreceive : ∀ offset e w', w'.disk = w.disk → w'.served = some e → Answered S platform request w.disk offset e →
      (receive platform request offset e.response).Holds S.env pre post w') :
    (run platform request).Holds S.env pre post w := by
  refine (checkDestination_holds hidle).bind ?_ fun e w' hw => herror e w' (congrArg _ hw)
  rintro - _ rfl
  refine (load_holds hidle).bind ?_ fun e w' hw => herror e w' (congrArg _ hw.1)
  intro loaded w h'
  obtain ⟨rfl, hloaded⟩ := h'
  unfold resume
  have hprior : ∀ m, loaded.filter (·.isResumableFor request.url) = some m →
      storedManifest platform.codec request.destination w.disk = some m ∧ m.isResumableFor request.url := by
    intro m hm
    obtain ⟨hl, hr⟩ := Option.filter_eq_some_iff.mp hm
    exact ⟨hloaded m (congrArg _ hl), hr⟩
  refine (resumeFrom_holds hidle hprior).bind ?_ fun e w' hw => herror e w' (congrArg _ hw.1)
  intro offset w h'
  obtain ⟨rfl, hoffset⟩ := h'
  have hfound := hoffset offset rfl
  refine (sendGet_holds hidle hfound).bind ?_ fun e w' hw => herror e w' hw.1
  intro response w' h'
  obtain ⟨hdisk, hresponse⟩ := h'
  cases response with
  | none => exact hstopped w' hdisk
  | some response =>
    obtain ⟨e, hserved, rfl, hanswered⟩ := hresponse response rfl
    dsimp only
    split_ifs with h416
    · have hidle' : ∀ op, op.IsIdle → ∀ w'', w''.disk = w'.disk → pre op w'' :=
        fun op hop w'' hw => hidle op hop w'' (hw.trans hdisk)
      have hnone : Found platform request w'.disk none 0 := fun h => absurd h (Nat.lt_irrefl 0)
      refine (sendGet_holds hidle' hnone).bind ?_ fun e w'' hw => herror e w'' (hw.1.trans hdisk)
      intro restarted w'' h'
      obtain ⟨hdisk', hrestarted⟩ := h'
      cases restarted with
      | none => exact hstopped w'' (hdisk'.trans hdisk)
      | some restarted =>
        obtain ⟨e', hserved, rfl, hanswered⟩ := hrestarted restarted rfl
        refine hreceive offset e' w'' (hdisk'.trans hdisk) hserved
          ⟨hanswered.server, hanswered.uri, ⟨_, hfound⟩, .inl ?_⟩
        exact hanswered.request_eq.resolve_right fun h => absurd h.1 (Nat.lt_irrefl 0)
    · exact hreceive offset e w' hdisk hserved hanswered

end

/-! ### From the response to the transfer -/

theorem totalLength_ne_cancelled {start : ℕ} {response : Response} {e : Error}
    (h : totalLength platform start response = .error e) : e ≠ .cancelled := by
  unfold totalLength at h
  split at h
  · cases h
  · split_ifs at h
    cases h
    simp [Error.workerPanicked]

/-- Where a transfer starts, when the server is faithful. -/
structure Starts (platform : Platform) (ident : String → List UInt8) (request : Request) (disk : Disk) (start : ℕ)
    (e : Exchange) : Prop where
  /-- The body goes on where the kept bytes end. -/
  bytes : e.response.bytes <+: e.content.drop start
  /-- The kept bytes are not more than the whole. -/
  le_length : start ≤ e.content.length
  /-- The kept bytes are those the manifest vouches for, and of the same content. -/
  kept : 0 < start → ∃ m v, storedManifest platform.codec request.destination disk = some m ∧
    m.isResumableFor request.url ∧ m.validator = some v ∧
    start = min m.resumeOffset (partData request.destination disk).length ∧ ident v = e.content
  /-- The validators sent with the response are those of the content. -/
  validators : ∀ v ∈ validators e.response, ident v = e.content

section

variable {ident : String → List UInt8} {disk : Disk} {offset : ℕ} {e : Exchange}

theorem Answered.url (h : Answered S platform request disk offset e) : e.request.url = request.url := by
  rcases h.request_eq with h | ⟨-, m, v, -, -, h⟩ <;> rw [h] <;> rfl

/-- What was not asked for is kept. -/
theorem Answered.range (h : Answered S platform request disk offset e) (hserver : S.server.Faithful ident request)
    (h206 : e.response.status.code = 206) : e.request.headers.get Header.range = some (.text (rangeFrom offset)) := by
  rcases h.request_eq with hown | ⟨-, m, v, -, -, hranged⟩
  · exact absurd h206 (hserver.own (hown ▸ h.server))
  · rw [hranged, range_rangedRequest]

/-- **A faithful server's response continues what is kept.** -/
theorem Answered.starts (h : Answered S platform request disk offset e) (hserver : S.server.Faithful ident request)
    (hsuccess : e.response.status.isSuccess) :
    Starts platform ident request disk (if e.response.status.code = 206 then offset else 0) e := by
  have hvalidators := hserver.validator h.url h.server hsuccess
  split_ifs with h206
  · rcases h.request_eq with hown | ⟨hpos, m, v, hstored, hv, hranged⟩
    · exact absurd h206 (hserver.own (hown ▸ h.server))
    · obtain ⟨hident, hle, hbytes⟩ := hserver.rest (hranged ▸ h.server) h206
      obtain ⟨prior, hfound⟩ := h.found
      obtain ⟨m', v', -, hstored', hm, hv', hoffset⟩ := hfound hpos
      cases hstored.symm.trans hstored'
      exact ⟨hbytes, hle, fun _ => ⟨m, v, hstored, hm, hv, hoffset, hident⟩, hvalidators⟩
  · exact ⟨hserver.whole h.server hsuccess h206, Nat.zero_le _, fun h => absurd h (Nat.lt_irrefl 0), hvalidators⟩

end

/-- A response that is a success is transferred, unless the length makes the worker panic. -/
theorem receive_holds {σ : Type*} {env : Program.Env Op Op.Reply σ} {pre : Op → σ → Prop}
    {post : Result WorkerResult → σ → Prop} {offset : ℕ} {response : Response} {s : σ}
    (herror : ∀ e, e ≠ .cancelled → post (.error e) s)
    (htransfer : ∀ start total, response.status.isSuccess → start = (if response.status.code = 206 then offset else 0) →
      totalLength platform start response = .ok total →
      ((PartFile.open request.destination start (manifestOf request start total response)).bind fun part =>
        transfer platform response.bodyError part ⟨start, total⟩ response.body).Holds env pre post s) :
    (receive platform request offset response).Holds env pre post s := by
  unfold receive
  dsimp only
  split_ifs with hsuccess hresumed
  · exact herror _ (by simp)
  all_goals
    split
    · next panic hpanic => exact herror _ (totalLength_ne_cancelled hpanic)
    · next total htotal =>
      simp only [Bool.not_eq_true', Bool.not_eq_false] at hsuccess
      refine htransfer _ total hsuccess ?_ htotal
      simp [hresumed]

end Worker

end DownloadManager
