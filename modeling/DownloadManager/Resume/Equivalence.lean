import DownloadManager.Resume.Integrity
import Mathlib.Tactic.IntervalCases

/-!
# Interrupted and uninterrupted downloads

A resource that does not change, and a server that answers ranges as it should. Is a
download that is stopped and resumed the same as one that is not? It is, as long as the
server answers the caller's own request with the whole content. A caller may ask for a
range, however, and `send_get` replaces the caller's `Range` by its own when there is
something to resume: then what is kept is the beginning of the caller's range, and what
comes is the end of the content. And when all of the caller's range is there already,
the worker's request cannot be satisfied; the restart sends the caller's again, and the
answer is written behind what is kept.

`RangeServer.resumed_iff` says that the caller's request being answered with a range is
the exact condition; a caller that does not set `Range` on the builder meets it
(`RangeServer.resumed_buildWith`).
-/

namespace DownloadManager

open FileSystem Worker

/-- What a server answers to a request. -/
structure RangeAnswer where
  /-- The status. -/
  status : StatusCode
  /-- The headers. -/
  headers : HeaderMap
  /-- The body. -/
  body : List UInt8

/-- **A server with a resource that does not change**, which answers ranges as it should. -/
structure RangeServer where
  /-- The content of the resource. -/
  content : List UInt8
  /-- The `ETag` of the resource. -/
  etag : String
  /-- The bytes a `Range` stands for, if it can be satisfied. -/
  range : HeaderValue → Option (List UInt8)
  /-- What is answered. -/
  answer : HttpRequest → RangeAnswer
  /-- The length of a file is a signed 64-bit number. -/
  length_lt : content.length < 2 ^ 63
  /-- The `ETag` is a text. -/
  etag_toStr : (HeaderValue.text etag).toStr = some etag
  /-- A range that can be satisfied is one of the bytes there are. -/
  range_some : ∀ {v bytes}, range v = some bytes → bytes ≠ [] ∧ bytes.length ≤ content.length
  /-- `bytes=k-`. -/
  range_rangeFrom : ∀ k, range (.text (rangeFrom k)) = if k < content.length then some (content.drop k) else none
  /-- `206` answers a range that can be satisfied, with the bytes of that range. -/
  partialContent : ∀ {r}, (answer r).status.code = 206 →
    ∃ v, r.headers.get Header.range = some v ∧ range v = some (answer r).body
  /-- Any other success is the whole content. -/
  whole : ∀ {r}, (answer r).status.isSuccess → (answer r).status.code ≠ 206 → (answer r).body = content
  /-- What is served is served from any byte on, to who has some of it. -/
  resumable : ∀ {url headers k}, (answer ⟨url, headers⟩).status.isSuccess → k < content.length → (answer ⟨url,
    (headers.insert Header.range (.text (rangeFrom k))).insert Header.ifRange (.text etag)⟩).status.isSuccess
  /-- `416` answers a range that cannot be satisfied; `If-Range` with another validator may have it ignored. -/
  unsatisfiable : ∀ {url headers k}, (answer ⟨url, headers⟩).status.isSuccess → content.length ≤ k → (answer ⟨url,
    (headers.insert Header.range (.text (rangeFrom k))).insert Header.ifRange (.text etag)⟩).status.code = 416
  /-- Every success has the `ETag`. -/
  etag_eq : ∀ {r}, (answer r).status.isSuccess → (answer r).headers.get Header.etag = some (.text etag)
  /-- If the length of the body is announced, it is that of the body. -/
  contentLength : ∀ {r v n}, (answer r).headers.get Header.contentLength = some v → v.toStr.bind parseU64 = some n →
    n = (answer r).body.length

namespace RangeServer

variable (server : RangeServer)

/-- The responses to a request; the body may break off. -/
def serves : Server := fun request response content =>
  content = server.content ∧ response.status = (server.answer request).status ∧
    response.headers = (server.answer request).headers ∧ response.bytes <+: (server.answer request).body ∧
    (response.bodyError = none → response.bytes = (server.answer request).body)

/-- What surrounds an attempt: no file operation fails. -/
def surroundings : Surroundings := ⟨server.serves, fun _ => False, fun _ _ => True⟩

/-- Attempts of one request, each stopped or broken off. -/
def Resumed (platform : Platform) (request : Request) : World → World → Prop :=
  Relation.ReflTransGen fun w w' => ∃ r, (run platform request).Leads server.surroundings.env w r w'

variable {server} {platform : Platform} {request : Request}

theorem mild : server.surroundings.Mild := fun _ => False.elim

/-! ### When the caller's request is answered with the whole content -/

theorem faithful {ident : String → List UInt8} (hident : ∀ v, ident v = server.content)
    (hown : (server.answer (ownRequest request)).status.code ≠ 206) :
    Server.Faithful server.serves ident request where
  validator _ h _ v _ := (hident v).trans h.1.symm
  whole := by
    intro httpRequest response content h' hsuccess h206
    obtain ⟨rfl, hstatus, -, hbytes, -⟩ := h'
    rw [hstatus] at hsuccess h206
    rwa [server.whole hsuccess h206] at hbytes
  own := by
    intro response content h'
    obtain ⟨-, hstatus, -⟩ := h'
    rwa [hstatus]
  rest := by
    intro offset v response content h' h206
    obtain ⟨rfl, hstatus, -, hbytes, -⟩ := h'
    rw [hstatus] at h206
    obtain ⟨v', hv', hrange⟩ := server.partialContent h206
    rw [range_rangedRequest] at hv'
    cases hv'
    rw [server.range_rangeFrom] at hrange
    split_ifs at hrange with hlt
    rw [← Option.some.inj hrange] at hbytes
    exact ⟨hident v, hlt.le, hbytes⟩

/-- What is delivered is the whole content. -/
theorem delivered {result : DownloadResult} {w : World} {e : Exchange} {start : ℕ}
    (h : Delivered server.surroundings request result w e start) :
    e.content.take start ++ e.response.bytes = server.content := by
  obtain ⟨hcontent, hstatus, -, -, hbody⟩ := h.server
  rw [hcontent, hbody h.body]
  have hrange := h.range
  split_ifs at hrange with h206
  · rw [hstatus] at h206
    obtain ⟨v, hv, hbytes⟩ := server.partialContent h206
    cases hrange.symm.trans hv
    rw [server.range_rangeFrom] at hbytes
    split_ifs at hbytes
    rw [← Option.some.inj hbytes, List.take_append_drop]
  · rw [hstatus] at h206
    rw [hrange, List.take_zero, List.nil_append, server.whole (hstatus ▸ h.success) h206]

/-- **An attempt** keeps what is of the content, and delivers all of it. -/
theorem attempt (hown : (server.answer (ownRequest request)).status.code ≠ 206) {w w' : World} {r : Result WorkerResult}
    (hkept : Kept platform.codec (fun _ _ => server.content) request.destination w.disk)
    (hrun : (run platform request).Leads server.surroundings.env w r w') :
    Kept platform.codec (fun _ _ => server.content) request.destination w'.disk ∧
      ∀ result, r = .ok (.finished result) → result = ⟨request.destination, server.content.length⟩ ∧
        (w'.disk.file request.destination).map Inode.data = some server.content := by
  have hfaithful : server.surroundings.server.Faithful ((fun _ _ => server.content : String → String → List UInt8)
    request.url) request := faithful (fun _ => rfl) hown
  obtain ⟨hkept', hdelivered⟩ := hrun.holds (Kept.run_holds mild hfaithful hkept)
  refine ⟨hkept', fun result hr => ?_⟩
  obtain ⟨e, start, h⟩ := hdelivered result hr
  obtain ⟨f, hf, hdata⟩ := h.file
  rw [h.result_eq, delivered h, hf, Option.map_some, hdata, delivered h]
  exact ⟨rfl, rfl⟩

theorem Resumed.kept (hown : (server.answer (ownRequest request)).status.code ≠ 206) {w w' : World}
    (h : server.Resumed platform request w w')
    (hkept : Kept platform.codec (fun _ _ => server.content) request.destination w.disk) :
    Kept platform.codec (fun _ _ => server.content) request.destination w'.disk := by
  induction h with
  | refl => exact hkept
  | tail _ hattempt ih =>
    obtain ⟨r, hr⟩ := hattempt
    exact (attempt hown ih hr).1

/-! ### A first attempt, whatever the caller asks for -/

/-- What a first attempt needs to finish, and how many bytes it reports. -/
theorem fresh_holds {w : World} (hmanifest : w.disk.file (manifestPath request.destination) = none)
    (hpart : w.disk.file (partPath request.destination) = none) :
    (run platform request).Holds server.surroundings.env anyOp
      (fun r _ => ∀ result, r = .ok (.finished result) → platform.uriError request.url = none ∧
        request.destination.IsFile ∧ (server.answer (ownRequest request)).status.isSuccess ∧
        result.bytesDownloaded = (server.answer (ownRequest request)).body.length) w := by
  refine Worker.run_holds (fun _ _ _ _ => trivial) (fun _ _ _ => nofun) (fun _ _ => nofun) ?_
  intro offset e w' hdisk _ hanswered
  have hoffset : offset = 0 := by
    obtain ⟨prior, hfound⟩ := hanswered.found
    by_contra hne
    obtain ⟨m, v, -, hstored, -⟩ := hfound (Nat.pos_of_ne_zero hne)
    rw [storedManifest, hmanifest] at hstored
    cases hstored
  subst hoffset
  have hown := hanswered.request_eq.resolve_right fun h => absurd h.1 (Nat.lt_irrefl 0)
  obtain ⟨hcontent, hstatus, -, hbytes, hbody⟩ := hown ▸ hanswered.server
  by_cases hsuccess : e.response.status.isSuccess
  swap
  · rw [receive, if_pos (by simpa using hsuccess)]
    rintro _ ⟨⟩
  have hstarts : Starts platform (fun _ => (server.answer (ownRequest request)).body) request w'.disk 0
      ⟨e.request, e.response, (server.answer (ownRequest request)).body⟩ :=
    ⟨hbytes, Nat.zero_le _, fun h => absurd h (Nat.lt_irrefl 0), fun _ _ => rfl⟩
  have hkept : Kept platform.codec (fun _ _ => (server.answer (ownRequest request)).body) request.destination w'.disk :=
    .of_part_none (hdisk ▸ hpart)
  have hreceive := hstarts.receive_holds (S := server.surroundings) mild (ite_self 0).symm hkept
  refine hreceive.mono ?_
  intro r _ h' result hr
  obtain ⟨-, -, hfinished⟩ := h'
  obtain ⟨hnone, hfile, hresult, -⟩ := hfinished result hr
  refine ⟨hanswered.uri, hfile, hstatus ▸ hsuccess, ?_⟩
  rw [hresult, List.take_zero, List.nil_append, hbody hnone]

/-- An attempt does not overwrite a file if it must not. -/
theorem overwrite_holds {w : World} {f : Inode UInt8} (hoverwrite : request.config.overwrite = false)
    (hf : w.disk.file request.destination = some f) (hfile : request.destination.IsFile) :
    (run platform request).Holds server.surroundings.env anyOp (fun r _ => ∀ result, r ≠ .ok (.finished result)) w := by
  refine Program.Holds.bind (Q := fun r _ => ∃ e, r = .error e) ?_ (fun _ _ h => by obtain ⟨_, h⟩ := h; cases h)
    (fun e _ _ => by simp)
  refine Program.Holds.bind (Q := fun r _ => ∃ n, r = .ok (.ok n)) ?_ ?_ (fun _ _ h => by obtain ⟨_, h⟩ := h; cases h)
  · refine holds_attempt trivial fun fault r disk' _ hfault ho => ?_
    cases ho with
    | effect _ _ hr => exact ⟨f.data.length, by rw [hr, FileOp.effect, hf]⟩
    | fail _ _ hsome => exact (hfault hsome).elim
    | directory _ hpaths => exact absurd (by simpa [FileOp.paths]) hpaths
  · intro r w' h'
    obtain ⟨n, hr⟩ := h'
    cases hr
    simp only [hoverwrite]
    exact ⟨_, rfl⟩

/-! ### Two attempts nothing goes wrong in -/

/-- The response, its body read byte by byte. -/
def response (answer : RangeAnswer) : Response := ⟨answer.status, answer.headers, answer.body.map .single, none⟩

@[simp] theorem bytes_response (answer : RangeAnswer) : (response answer).bytes = answer.body := by
  simp [response, Response.bytes, Chunk.single, Function.comp_def, ← List.flatMap_def]

variable (server) in
/-- What an attempt finds when nothing goes wrong. -/
def course (stops : Disk → Bool) : Course := ⟨fun r => response (server.answer r), server.content, stops⟩

theorem serves_response (r : HttpRequest) : server.serves r (response (server.answer r)) server.content :=
  ⟨rfl, rfl, rfl, by rw [bytes_response], fun _ => bytes_response _⟩

theorem env_le {stops : Disk → Bool} {op : Op} {w w' : World} {r : op.Reply} (h : (server.course stops).env op w r w') :
    server.surroundings.env op w r w' :=
  (server.course stops).env_le (fun _ _ => trivial) serves_response h

/-- What holds of an attempt nothing goes wrong in, some attempt does. -/
theorem exists_leads {stops : Disk → Bool} {post : Result WorkerResult → World → Prop} {w : World}
    (h : (run platform request).Holds (server.course stops).env anyOp post w) :
    ∃ r w', (run platform request).Leads server.surroundings.env w r w' ∧ post r w' :=
  (server.course stops).exists_leads (fun _ _ => trivial) serves_response h

theorem poll_course {stops : Disk → Bool} {w w' : World} {stop : Bool}
    (h : (server.course stops).env .pollStop w stop w') : stop = stops w.disk ∧ w' = w := Prod.mk.inj h

section

variable {dest : PathBuf} {w : World} {part : PartFile} {whole : List UInt8} {start : ℕ}

/-- What is received behind whatever is kept. -/
theorem receiving_open {codec : Codec} (hfile : dest.IsFile) (hstart : start ≤ (partData dest w.disk).length)
    (hwhole : (partData dest w.disk).take start <+: whole) (manifest : Manifest) :
    Receiving codec (fun _ _ => whole) dest start
      ((w.disk.touch (partPath dest)).1.update (w.disk.touch (partPath dest)).2 (·.setLen start))
      ⟨dest, (w.disk.touch (partPath dest)).2, start, false, manifest⟩ ((partData dest w.disk).take start) whole := by
  have hdata : ((w.disk.touch (partPath dest)).1.inode (w.disk.touch (partPath dest)).2).data = partData dest w.disk := by
    rw [Disk.inode_touch]
    cases hf : w.disk.file (partPath dest) <;> simp [partData, hf]
  have hfilling := Filling.of_setLen start manifest hfile (Disk.dir_touch_self w.disk (partPath dest))
  rw [Inode.setLen_data_of_le (hdata ▸ hstart), hdata] at hfilling
  refine ⟨hfilling, hwhole, fun _ _ => rfl, fun _ m v _ _ => ?_, fun _ => .inl rfl⟩
  rw [partData_of_file hfilling.file_eq, hfilling.data_eq]
  exact (List.take_prefix _ _).trans hwhole

/-- The stop token is cancelled when the `.part` has that many bytes. -/
def stopsAt (dest : PathBuf) (n : ℕ) (disk : Disk) : Bool := (partData dest disk).length = n

/-- **A transfer stopped after `n` bytes.** -/
theorem transfer_stopped {n : ℕ} (hn : 0 < n) (hle : n ≤ whole.length) {v : String}
    (hv : part.manifest.validator = some v) {progress : Progress}
    (h : Receiving platform.codec (fun _ _ => whole) dest 0 w.disk part [] whole) :
    (transfer platform none part progress (whole.map .single)).Holds (server.course (stopsAt dest n)).env anyOp
      (fun r w' => r = .ok .stopped ∧ w.disk.Agree w'.disk dest ∧ (partData dest w'.disk).length = n ∧
        ∃ m, storedManifest platform.codec dest w'.disk = some m ∧ m.url = part.manifest.url ∧ m.validator = some v ∧
          m.resumeOffset = n) w := by
  refine transfer_rule (F := fun part' _ chunks w' => w.disk.Agree w'.disk dest ∧
    part'.manifest.url = part.manifest.url ∧ part'.manifest.validator = some v ∧
    ∃ data bytes, Receiving platform.codec (fun _ _ => whole) dest 0 w'.disk part' data whole ∧
      chunks = bytes.map .single ∧ data ++ bytes = whole ∧ data.length ≤ n) (fun _ => trivial) ?_ ?_ ?_ ?_
    ⟨.refl .., rfl, hv, [], whole, h, rfl, rfl, Nat.zero_le _⟩
  · intro part' progress chunks w₁ w₂ h' hpoll
    obtain ⟨hagree, hurl, hv, data, bytes, h, -, -, -⟩ := h'
    obtain ⟨hstops, rfl⟩ := poll_course hpoll
    have hlength : data.length = n := by
      simpa [stopsAt, partData_of_file h.file_eq, h.data_eq] using hstops
    refine ((h.checkpoint_holds mild).of_env fun _ _ _ _ => env_le).mono ?_
    intro _ w₃ h'
    obtain ⟨part₃, rfl, hdirty, h'⟩ := h'
    have hposition : part₃.position = n := h'.receiving.position.trans hlength
    have hstored := (h'.receiving.recorded hdirty).resolve_left (by omega)
    refine ⟨rfl, hagree.trans h'.agree, ?_, _, hstored, h'.url.trans hurl, h'.validator_eq.trans hv, by simp [hposition]⟩
    rw [partData_of_file h'.receiving.file_eq, h'.receiving.data_eq, hlength]
  · intro part' progress chunk chunks w₁ w₂ h' hpoll
    obtain ⟨hagree, hurl, hv, data, bytes, h, hchunks, hwhole, hle⟩ := h'
    obtain ⟨hstops, rfl⟩ := poll_course hpoll
    have hlength : data.length ≠ n := by
      simpa [stopsAt, partData_of_file h.file_eq, h.data_eq] using hstops
    obtain ⟨byte, bytes, rfl, rfl, rfl⟩ := List.map_eq_cons_iff.mp hchunks.symm
    have hbytes : data ++ [byte] <+: whole := ⟨bytes, by rw [← hwhole, List.append_assoc, List.singleton_append]⟩
    refine ((h.write_holds mild hbytes).of_env fun _ _ _ _ => env_le).mono ?_
    intro _ w₃ h'
    obtain ⟨part₃, rfl, h'⟩ := h'
    refine ⟨hagree.trans h'.agree, h'.url.trans hurl, h'.validator_eq.trans hv, data ++ [byte], bytes, h'.receiving,
      rfl, by rw [List.append_assoc, List.singleton_append, hwhole], ?_⟩
    rw [List.length_append, List.length_singleton]
    omega
  · rintro part' progress w₁ w₂ error - - hbody
    cases hbody
  · intro part' progress w₁ w₂ h' hpoll
    obtain ⟨-, -, -, data, bytes, h, hchunks, hwhole, hle'⟩ := h'
    obtain ⟨hstops, rfl⟩ := poll_course hpoll
    have hlength : data.length ≠ n := by
      simpa [stopsAt, partData_of_file h.file_eq, h.data_eq] using hstops
    obtain rfl := List.map_eq_nil_iff.mp hchunks.symm
    rw [List.append_nil] at hwhole
    subst hwhole
    exact absurd (Nat.le_antisymm hle' hle) hlength

/-- **A transfer that is not stopped** receives the whole body. -/
theorem transfer_finished {progress : Progress} {chunks : List Chunk} {data : List UInt8}
    (h : Receiving platform.codec (fun _ _ => whole) dest start w.disk part data whole)
    (hprogress : progress.bytes = data.length) (hwhole : data ++ (chunks.map Chunk.bytes).flatten = whole) :
    (transfer platform none part progress chunks).Holds (server.course fun _ => false).env anyOp
      (fun r _ => r = .ok (.finished ⟨dest, whole.length⟩)) w := by
  refine transfer_rule (F := fun part progress chunks w' =>
    ∃ data, Receiving platform.codec (fun _ _ => whole) dest start w'.disk part data whole ∧
      progress.bytes = data.length ∧ data ++ (chunks.map Chunk.bytes).flatten = whole)
    (fun _ => trivial) ?_ ?_ ?_ ?_ ⟨data, h, hprogress, hwhole⟩
  · rintro part progress chunks w₁ w₂ - hpoll
    cases (poll_course hpoll).1
  · intro part progress chunk chunks w₁ w₂ h' hpoll
    obtain ⟨data, h, hprogress, hwhole⟩ := h'
    obtain ⟨-, rfl⟩ := poll_course hpoll
    rw [List.map_cons, List.flatten_cons, ← List.append_assoc] at hwhole
    have hbytes : data ++ chunk.bytes <+: whole := ⟨_, hwhole⟩
    refine ((h.write_holds mild hbytes).of_env fun _ _ _ _ => env_le).mono ?_
    intro _ w₃ h'
    obtain ⟨part₃, rfl, h'⟩ := h'
    exact ⟨data ++ chunk.bytes, h'.receiving, by rw [Progress.add, List.length_append, hprogress], hwhole⟩
  · rintro part progress w₁ w₂ error - - hbody
    cases hbody
  · intro part progress w₁ w₂ h' hpoll _
    obtain ⟨data, h, hprogress, hwhole⟩ := h'
    obtain ⟨-, rfl⟩ := poll_course hpoll
    rw [List.map_nil, List.flatten_nil, List.append_nil] at hwhole
    subst hwhole
    refine ((h.finalize_holds mild).of_env fun _ _ _ _ => env_le).mono ?_
    intro _ w₃ h'
    obtain ⟨-, rfl, -⟩ := h'
    rw [hprogress]
    rfl

/-- The length of the whole is no reason to panic. -/
theorem totalLength_ok (platform : Platform) {r : HttpRequest} (h : start + (server.answer r).body.length < 2 ^ 64) :
    ∃ total, totalLength platform start (response (server.answer r)) = .ok total := by
  unfold totalLength
  cases hlength : Worker.contentLength (response (server.answer r)) with
  | none => exact ⟨none, rfl⟩
  | some n =>
    obtain ⟨v, hv, hn⟩ := Option.bind_eq_some_iff.mp hlength
    rw [server.contentLength hv hn]
    exact ⟨_, if_pos h⟩

theorem validator_response {r : HttpRequest} (hsuccess : (server.answer r).status.isSuccess) (total : Option ℕ) :
    (manifestOf request start total (response (server.answer r))).validator = some server.etag := by
  have hetag : responseHeader (response (server.answer r)) Header.etag = some server.etag := by
    simp only [responseHeader, response, server.etag_eq hsuccess]
    exact server.etag_toStr
  simp [manifestOf, Manifest.validator, Manifest.setContiguous, hetag]

/-- From the response to the transfer. -/
theorem receive_holds {stops : Disk → Bool} {offset : ℕ} {r : HttpRequest} {post : Result WorkerResult → World → Prop}
    (hfile : request.destination.IsFile) (hsuccess : (server.answer r).status.isSuccess)
    (hstart : start = if (server.answer r).status.code = 206 then offset else 0)
    (hkeep : start ≤ (partData request.destination w.disk).length)
    (hlength : start + (server.answer r).body.length < 2 ^ 64)
    (h : ∀ part progress w', w.disk.Agree w'.disk request.destination → part.manifest.url = request.url →
      part.manifest.validator = some server.etag → progress.bytes = start →
      Receiving platform.codec (fun _ _ => (partData request.destination w.disk).take start ++ (server.answer r).body)
        request.destination start w'.disk part ((partData request.destination w.disk).take start)
        ((partData request.destination w.disk).take start ++ (server.answer r).body) →
      (transfer platform none part progress ((server.answer r).body.map .single)).Holds (server.course stops).env anyOp
        post w') :
    (receive platform request offset (response (server.answer r))).Holds (server.course stops).env anyOp post w := by
  obtain ⟨total, htotal⟩ := totalLength_ok platform hlength
  have hstatus : (response (server.answer r)).status = (server.answer r).status := rfl
  unfold receive
  simp only [hstatus, hsuccess, Bool.not_true, Bool.false_eq_true, if_false, ← hstart, htotal]
  refine Program.holds_bind_of_eval _ (Course.eval_open hfile start _) ?_
  have hne := dest_ne_partPath hfile
  refine h _ _ _ ((Disk.agree_touch hne).trans (Disk.agree_update (fun hdir => hne ?_) _)) rfl
    (validator_response hsuccess total) rfl (receiving_open hfile hkeep (List.prefix_append _ _) _)
  exact (w.disk.touch _).1.dir_inj _ _ _ hdir (Disk.dir_touch_self ..)

/-- From the response to the end, when the attempt is not stopped. -/
theorem receive_finished {offset n : ℕ} {r : HttpRequest} (hfile : request.destination.IsFile)
    (hsuccess : (server.answer r).status.isSuccess)
    (hstart : start = if (server.answer r).status.code = 206 then offset else 0)
    (hkeep : start ≤ (partData request.destination w.disk).length)
    (hn : start + (server.answer r).body.length = n) (hlt : n < 2 ^ 64) :
    (receive platform request offset (response (server.answer r))).Holds (server.course fun _ => false).env anyOp
      (fun r' _ => r' = .ok (.finished ⟨request.destination, n⟩)) w := by
  refine receive_holds hfile hsuccess hstart hkeep (hn ▸ hlt) fun part progress w' _ _ _ hprogress h => ?_
  have htake : ((partData request.destination w.disk).take start).length = start := by
    rw [List.length_take, Nat.min_eq_left hkeep]
  have hbody : (((server.answer r).body.map Chunk.single).map Chunk.bytes).flatten = (server.answer r).body :=
    bytes_response (server.answer r)
  refine (transfer_finished h (by rw [hprogress, htake]) (by rw [hbody])).mono ?_
  rintro r' _ rfl
  rw [List.length_append, htake, hn]

end

section

variable {w : World} (huri : platform.uriError request.url = none) (hfile : request.destination.IsFile)
  (hnew : request.config.overwrite = true ∨ w.disk.file request.destination = none)
  (h206 : (server.answer (ownRequest request)).status.code = 206)
include huri hfile hnew h206

/-- **A first attempt that is stopped** after `n` bytes of the caller's range. -/
theorem exists_stopped (hmanifest : w.disk.file (manifestPath request.destination) = none)
    (hpart : w.disk.file (partPath request.destination) = none) {n : ℕ} (hn : 0 < n)
    (hle : n ≤ (server.answer (ownRequest request)).body.length) :
    ∃ w', (run platform request).Leads server.surroundings.env w (.ok .stopped) w' ∧
      w.disk.Agree w'.disk request.destination ∧ (partData request.destination w'.disk).length = n ∧
      ∃ m, storedManifest platform.codec request.destination w'.disk = some m ∧ m.url = request.url ∧
        m.validator = some server.etag ∧ m.resumeOffset = n := by
  have hsuccess : (server.answer (ownRequest request)).status.isSuccess := by simp [StatusCode.isSuccess, h206]
  have hnone : partData request.destination w.disk = [] := by simp [partData, hpart]
  have hlength : 0 + (server.answer (ownRequest request)).body.length < 2 ^ 64 := by
    obtain ⟨v, -, hbody⟩ := server.partialContent h206
    have := (server.range_some hbody).2
    have := server.length_lt
    omega
  have hload : storedManifest platform.codec request.destination w.disk = none := by simp [storedManifest, hmanifest]
  have hholds : (run platform request).Holds (server.course (stopsAt request.destination n)).env anyOp
      (fun r w' => r = .ok .stopped ∧ w.disk.Agree w'.disk request.destination ∧
        (partData request.destination w'.disk).length = n ∧
        ∃ m, storedManifest platform.codec request.destination w'.disk = some m ∧ m.url = request.url ∧
          m.validator = some server.etag ∧ m.resumeOffset = n) w := by
    refine Course.run_holds hfile hnew ?_
    rw [hload]
    refine Course.resume_holds_of_ne (by simp [course, stopsAt, hnone, hn.ne]) rfl (getRequest_zero huri none)
      (by simp [course, response, h206]) ?_
    refine receive_holds hfile hsuccess (ite_self 0).symm (Nat.zero_le _) hlength ?_
    intro part progress w' hagree hurl hv _ h
    rw [List.take_zero, List.nil_append] at h
    refine (transfer_stopped hn hle hv h).mono ?_
    intro r w₂ h'
    obtain ⟨rfl, hagree', hlength, m, hm, hmurl, hmv, hmn⟩ := h'
    exact ⟨rfl, hagree.trans hagree', hlength, m, hm, hmurl.trans hurl, hmv, hmn⟩
  obtain ⟨r, w', hleads, rfl, h⟩ := exists_leads hholds
  exact ⟨w', hleads, h⟩

/-- **A second attempt** asks for what comes after the first `n` bytes, and finishes. -/
theorem exists_finished {m : Manifest} (hm : storedManifest platform.codec request.destination w.disk = some m)
    (hurl : m.url = request.url) (hv : m.validator = some server.etag) (hn : 0 < m.resumeOffset)
    (hle : m.resumeOffset ≤ (server.answer (ownRequest request)).body.length)
    (hlength : (partData request.destination w.disk).length = m.resumeOffset) :
    ∃ w', (run platform request).Leads server.surroundings.env w (.ok (.finished ⟨request.destination,
      if m.resumeOffset < server.content.length then server.content.length
      else m.resumeOffset + (server.answer (ownRequest request)).body.length⟩)) w' := by
  have hsuccess : (server.answer (ownRequest request)).status.isSuccess := by simp [StatusCode.isSuccess, h206]
  have hbound := server.length_lt
  have hprior : (some m).filter (·.isResumableFor request.url) = some m := by
    rw [Option.filter_some, if_pos (Manifest.isResumableFor_iff.mpr ⟨hurl, hn, _, hv⟩)]
  have hoffset : Program.eval (server.course fun _ => false).handle
      (resumeFrom request ((some m).filter (·.isResumableFor request.url))) w = (.ok m.resumeOffset, w) := by
    rw [hprior]
    refine (Program.eval_bind_ok _ (Course.eval_partLen hfile)).trans ?_
    rw [hlength, Nat.min_self]
    rfl
  have hget : getRequest platform request m.resumeOffset ((some m).filter (·.isResumableFor request.url)) =
      .ok (rangedRequest request m.resumeOffset server.etag) := by
    rw [hprior]
    exact getRequest_pos huri hn hv server.etag_toStr
  suffices hholds : (run platform request).Holds (server.course fun _ => false).env anyOp (fun r _ =>
      r = .ok (.finished ⟨request.destination, if m.resumeOffset < server.content.length then server.content.length
        else m.resumeOffset + (server.answer (ownRequest request)).body.length⟩)) w by
    obtain ⟨r, w', hleads, rfl⟩ := exists_leads hholds
    exact ⟨w', hleads⟩
  refine Course.run_holds hfile hnew ?_
  rw [hm]
  split_ifs with hlt
  · have hranged : (server.answer (rangedRequest request m.resumeOffset server.etag)).status.isSuccess :=
      server.resumable hsuccess hlt
    refine Course.resume_holds_of_ne rfl hoffset hget ?_ ?_
    · intro h416
      have h416 : (server.answer (rangedRequest request m.resumeOffset server.etag)).status.code = 416 := h416
      simp [StatusCode.isSuccess, h416] at hranged
    by_cases h206' : (server.answer (rangedRequest request m.resumeOffset server.etag)).status.code = 206
    · obtain ⟨v, hv, hbody⟩ := server.partialContent h206'
      rw [range_rangedRequest] at hv
      cases hv
      rw [server.range_rangeFrom, if_pos hlt, Option.some.injEq] at hbody
      refine receive_finished hfile hranged (if_pos h206').symm hlength.ge ?_ (by omega)
      rw [← hbody, List.length_drop]
      omega
    · refine receive_finished hfile hranged (if_neg h206').symm (Nat.zero_le _) ?_ (by omega)
      rw [server.whole hranged h206', Nat.zero_add]
  · refine Course.resume_holds_of_eq rfl hoffset hget (server.unsatisfiable hsuccess (Nat.not_lt.mp hlt))
      (getRequest_zero huri none) ?_
    obtain ⟨v, -, hbody⟩ := server.partialContent h206
    have := (server.range_some hbody).2
    exact receive_finished hfile hsuccess (if_pos h206).symm hlength.ge rfl (by omega)

end

/-- A resumed download is the same as one that is not interrupted, if the caller's own request is not answered with a
range. -/
theorem resumed_eq {w w₁ w' w₂ : World} {result result' : DownloadResult}
    (hpart : w.disk.file (partPath request.destination) = none)
    (huninterrupted : (run platform request).Leads server.surroundings.env w (.ok (.finished result)) w₁)
    (hown : (server.answer (ownRequest request)).status.code ≠ 206) (hresumed : server.Resumed platform request w w')
    (hrun : (run platform request).Leads server.surroundings.env w' (.ok (.finished result')) w₂) :
    result' = result ∧ (w₂.disk.file request.destination).map Inode.data =
      (w₁.disk.file request.destination).map Inode.data := by
  have hfresh : Kept platform.codec (fun _ _ => server.content) request.destination w.disk := .of_part_none hpart
  obtain ⟨hresult, hdata⟩ := (attempt hown hfresh huninterrupted).2 result rfl
  obtain ⟨hresult', hdata'⟩ := (attempt hown (hresumed.kept hown hfresh) hrun).2 result' rfl
  rw [hresult, hresult', hdata, hdata']
  exact ⟨rfl, rfl⟩

/-- A caller that sets no `Range` is not answered with one. -/
theorem own_of_buildWith {url : String} {destination : PathBuf} {settings : List RequestBuilder.Setting}
    (hbuilt : Request.buildWith url destination settings = .ok request)
    (hrange : ∀ value, .header Header.range value ∉ settings) :
    (server.answer (ownRequest request)).status.code ≠ 206 := by
  intro h206
  obtain ⟨v, hv, -⟩ := server.partialContent h206
  cases (Request.get_buildWith hbuilt hrange).symm.trans hv

/-- **A caller that sets no `Range` may be interrupted.** -/
theorem resumed_buildWith {url : String} {destination : PathBuf} {settings : List RequestBuilder.Setting}
    (hbuilt : Request.buildWith url destination settings = .ok request)
    (hrange : ∀ value, .header Header.range value ∉ settings) {w w₁ w' w₂ : World} {result result' : DownloadResult}
    (hpart : w.disk.file (partPath request.destination) = none)
    (huninterrupted : (run platform request).Leads server.surroundings.env w (.ok (.finished result)) w₁)
    (hresumed : server.Resumed platform request w w')
    (hrun : (run platform request).Leads server.surroundings.env w' (.ok (.finished result')) w₂) :
    result' = result ∧ (w₂.disk.file request.destination).map Inode.data =
      (w₁.disk.file request.destination).map Inode.data :=
  resumed_eq hpart huninterrupted (own_of_buildWith hbuilt hrange) hresumed hrun

/-- **A resumed download is the same as one that is not interrupted, if and only if the caller's own request is
not answered with a range.** -/
theorem resumed_iff {w w₁ : World} {result : DownloadResult}
    (hmanifest : w.disk.file (manifestPath request.destination) = none)
    (hpart : w.disk.file (partPath request.destination) = none)
    (huninterrupted : (run platform request).Leads server.surroundings.env w (.ok (.finished result)) w₁) :
    (∀ w' w₂ result', server.Resumed platform request w w' →
      (run platform request).Leads server.surroundings.env w' (.ok (.finished result')) w₂ →
      result' = result ∧ (w₂.disk.file request.destination).map Inode.data =
        (w₁.disk.file request.destination).map Inode.data) ↔
    (server.answer (ownRequest request)).status.code ≠ 206 := by
  constructor
  · intro h h206
    obtain ⟨huri, hfile, hsuccess, hbytes⟩ := huninterrupted.holds (fresh_holds hmanifest hpart) result rfl
    have hnew : request.config.overwrite = true ∨ w.disk.file request.destination = none := by
      by_contra hnot
      obtain ⟨hoverwrite, hsome⟩ := not_or.mp hnot
      obtain ⟨f, hf⟩ := Option.ne_none_iff_exists'.mp hsome
      exact huninterrupted.holds (overwrite_holds (by simpa using hoverwrite) hf hfile) result rfl
    obtain ⟨v, -, hbody⟩ := server.partialContent h206
    have hpos := List.length_pos_iff.mpr (server.range_some hbody).1
    -- Stop after one byte, or, if the caller's range is as long as the content, after all of it.
    let n := if (server.answer (ownRequest request)).body.length = server.content.length then
      server.content.length else 1
    have hn : 0 < n ∧ n ≤ (server.answer (ownRequest request)).body.length := by
      dsimp only [n]
      split_ifs <;> omega
    obtain ⟨w', hstopped, hagree, hlength, m, hm, hurl, hv, hmn⟩ :=
      exists_stopped huri hfile hnew h206 hmanifest hpart hn.1 hn.2
    obtain ⟨w₂, hfinished⟩ := exists_finished huri hfile (hagree.2 ▸ hnew) h206 hm hurl hv (hmn ▸ hn.1) (hmn ▸ hn.2)
      (hlength.trans hmn.symm)
    have hsame := (h w' w₂ _ (.single ⟨_, hstopped⟩) hfinished).1
    have := congrArg DownloadResult.bytesDownloaded hsame
    rw [hbytes, hmn] at this
    dsimp only [n] at this hn
    split_ifs at this hn <;> omega
  · intro hown w' w₂ result' hresumed hrun
    exact resumed_eq hpart huninterrupted hown hresumed hrun

/-! ### Three bytes, two of them asked for -/

theorem rangeFrom_ne (k : ℕ) : rangeFrom k ≠ "bytes=0-1" := by
  intro h
  have := congrArg (fun s : String => s.toList.reverse.head?) h
  simp [rangeFrom] at this

/-- The ranges of three bytes. -/
def threeRange (v : HeaderValue) : Option (List UInt8) :=
  if v = .text "bytes=0-1" then some [1, 2]
  else ((List.range 3).find? fun k => v = .text (rangeFrom k)).map fun k => [1, 2, 3].drop k

theorem threeRange_rangeFrom (k : ℕ) :
    threeRange (.text (rangeFrom k)) = if k < [1, 2, 3].length then some ([1, 2, 3].drop k) else none := by
  have hk : ∀ n, decide (HeaderValue.text (rangeFrom k) = .text (rangeFrom n)) = decide (k = n) := fun n =>
    decide_eq_decide.mpr ⟨fun h => rangeFrom_injective (HeaderValue.text.inj h), fun h => by rw [h]⟩
  rw [threeRange, if_neg fun h => rangeFrom_ne k (HeaderValue.text.inj h)]
  simp only [hk]
  split_ifs with hlt
  · have hlt : k < 3 := hlt
    interval_cases k <;> rfl
  · have hlt : ¬k < 3 := hlt
    have hnone : (List.range 3).find? (fun n => decide (k = n)) = none := by
      rw [List.find?_eq_none]
      intro n hn
      have := List.mem_range.mp hn
      simp only [decide_eq_true_eq]
      omega
    rw [hnone, Option.map_none]

theorem threeRange_some {v : HeaderValue} {bytes : List UInt8} (h : threeRange v = some bytes) :
    bytes ≠ [] ∧ bytes.length ≤ 3 := by
  unfold threeRange at h
  split_ifs at h
  · cases h
    decide
  · obtain ⟨k, hk, rfl⟩ := Option.map_eq_some_iff.mp h
    have := List.mem_range.mp (List.mem_of_find?_eq_some hk)
    interval_cases k <;> decide

/-- What a server with three bytes answers. -/
def threeAnswer (r : HttpRequest) : RangeAnswer :=
  match r.headers.get Header.range with
  | none => ⟨.ok, [(Header.etag, .text "v1")], [1, 2, 3]⟩
  | some v =>
    match threeRange v with
    | some bytes => ⟨.partialContent, [(Header.etag, .text "v1")], bytes⟩
    | none => ⟨⟨416, "416 Range Not Satisfiable"⟩, [], []⟩

/-- How it can answer. -/
theorem threeAnswer_cases (r : HttpRequest) :
    (r.headers.get Header.range = none ∧ threeAnswer r = ⟨.ok, [(Header.etag, .text "v1")], [1, 2, 3]⟩) ∨
      (∃ v bytes, r.headers.get Header.range = some v ∧ threeRange v = some bytes ∧
        threeAnswer r = ⟨.partialContent, [(Header.etag, .text "v1")], bytes⟩) ∨
      ∃ v, r.headers.get Header.range = some v ∧ threeRange v = none ∧
        threeAnswer r = ⟨⟨416, "416 Range Not Satisfiable"⟩, [], []⟩ := by
  unfold threeAnswer
  cases hv : r.headers.get Header.range with
  | none => exact .inl ⟨rfl, rfl⟩
  | some v =>
    cases hbytes : threeRange v with
    | none => exact .inr (.inr ⟨v, rfl, hbytes, by simp [hbytes]⟩)
    | some bytes => exact .inr (.inl ⟨v, bytes, rfl, hbytes, by simp [hbytes]⟩)

theorem threeAnswer_ranged (url : String) (headers : HeaderMap) (k : ℕ) (v : HeaderValue) :
    threeAnswer ⟨url, (headers.insert Header.range (.text (rangeFrom k))).insert Header.ifRange v⟩ =
      if k < 3 then ⟨.partialContent, [(Header.etag, .text "v1")], [1, 2, 3].drop k⟩
      else ⟨⟨416, "416 Range Not Satisfiable"⟩, [], []⟩ := by
  have hget : ((headers.insert Header.range (.text (rangeFrom k))).insert Header.ifRange v).get Header.range =
      some (.text (rangeFrom k)) := by
    rw [HeaderMap.get_insert_of_ne _ _ (by decide), HeaderMap.get_insert_self]
  simp only [threeAnswer, hget, threeRange_rangeFrom, List.length_cons, List.length_nil, Nat.zero_add, Nat.reduceAdd]
  split_ifs <;> rfl

/-- A server with three bytes. -/
def threeBytes : RangeServer where
  content := [1, 2, 3]
  etag := "v1"
  range := threeRange
  answer := threeAnswer
  length_lt := by decide
  etag_toStr := by decide
  range_some := threeRange_some
  range_rangeFrom := threeRange_rangeFrom
  partialContent := by
    intro r h
    obtain ⟨-, hr⟩ | ⟨v, bytes, hv, hbytes, hr⟩ | ⟨v, -, -, hr⟩ := threeAnswer_cases r
    · simp [hr, StatusCode.ok] at h
    · exact ⟨v, hv, by rw [hbytes, hr]⟩
    · simp [hr] at h
  whole := by
    intro r h h'
    obtain ⟨-, hr⟩ | ⟨v, bytes, -, -, hr⟩ | ⟨v, -, -, hr⟩ := threeAnswer_cases r
    · rw [hr]
    · simp [hr, StatusCode.partialContent] at h'
    · simp [hr, StatusCode.isSuccess] at h
  resumable := by
    intro url headers k _ hk
    rw [threeAnswer_ranged, if_pos (show k < 3 from hk)]
    rfl
  unsatisfiable := by
    intro url headers k _ hk
    rw [threeAnswer_ranged, if_neg (show ¬k < 3 from Nat.not_lt.mpr hk)]
  etag_eq := by
    intro r h
    obtain ⟨-, hr⟩ | ⟨v, bytes, -, -, hr⟩ | ⟨v, -, -, hr⟩ := threeAnswer_cases r
    · rw [hr]; rfl
    · rw [hr]; rfl
    · simp [hr, StatusCode.isSuccess] at h
  contentLength := by
    intro r v n h
    obtain ⟨-, hr⟩ | ⟨v, bytes, -, -, hr⟩ | ⟨v, -, -, hr⟩ := threeAnswer_cases r
    all_goals
      rw [hr] at h
      cases h

/-- A caller that asks for the first two bytes. -/
def rangeRequest : Request :=
  { Request.sample with config := { DownloadConfig.default with headers := [(Header.range, .text "bytes=0-1")] } }

example : Request.buildWith "http://x/y" ⟨[], some "y"⟩ [.header Header.range "bytes=0-1"] = .ok rangeRequest := by
  decide

/-- How an attempt ends that finds the three bytes. -/
def threeRun (request : Request) (stops : Disk → Bool) (w : World) : Result WorkerResult × World :=
  Program.eval (threeBytes.course stops).handle (run .sample request) w

/-- A download of the three bytes, stopped after the first. -/
def interrupted (request : Request) : World := (threeRun request (stopsAt request.destination 1) ⟨.empty, none⟩).2

theorem leads_threeRun (request : Request) (stops : Disk → Bool) (w : World) {r : Result WorkerResult}
    (h : (threeRun request stops w).1 = r) :
    (run .sample request).Leads threeBytes.surroundings.env w r (threeRun request stops w).2 :=
  h ▸ Program.leads_eval _ (fun _ _ => env_le rfl) _ w

theorem resumed_interrupted (request : Request) :
    threeBytes.Resumed .sample request ⟨.empty, none⟩ (interrupted request) :=
  .single ⟨_, leads_threeRun request (stopsAt request.destination 1) ⟨.empty, none⟩ rfl⟩

/-- The three bytes, stopped after the first. -/
theorem resumed_iff_threeBytes :
    ∃ w₁ w' w₂, (run .sample .sample).Leads threeBytes.surroundings.env ⟨.empty, none⟩
        (.ok (.finished ⟨Request.sample.destination, 3⟩)) w₁ ∧
      threeBytes.Resumed .sample .sample ⟨.empty, none⟩ w' ∧ partData Request.sample.destination w'.disk = [1] ∧
      (run .sample .sample).Leads threeBytes.surroundings.env w'
        (.ok (.finished ⟨Request.sample.destination, 3⟩)) w₂ ∧
      (w₂.disk.file Request.sample.destination).map Inode.data =
        (w₁.disk.file Request.sample.destination).map Inode.data := by
  have hfinished : (threeRun .sample (fun _ => false) ⟨.empty, none⟩).1 =
      .ok (.finished ⟨Request.sample.destination, 3⟩) := by decide +kernel
  have hagain : (threeRun .sample (fun _ => false) (interrupted .sample)).1 =
      .ok (.finished ⟨Request.sample.destination, 3⟩) := by decide +kernel
  have huninterrupted := leads_threeRun _ _ _ hfinished
  have hresumed := leads_threeRun _ _ _ hagain
  refine ⟨_, _, _, huninterrupted, resumed_interrupted .sample, by decide +kernel, hresumed, ?_⟩
  exact ((resumed_iff rfl rfl huninterrupted).mpr (by decide +kernel) _ _ _ (resumed_interrupted .sample) hresumed).2

/-- **A caller that asks for the first two bytes gets three**, when the download is stopped after the first
byte and resumed. -/
theorem not_resumed_rangeRequest :
    ∃ w₁ w' w₂, (run .sample rangeRequest).Leads threeBytes.surroundings.env ⟨.empty, none⟩
        (.ok (.finished ⟨rangeRequest.destination, 2⟩)) w₁ ∧
      (w₁.disk.file rangeRequest.destination).map Inode.data = some [1, 2] ∧
      threeBytes.Resumed .sample rangeRequest ⟨.empty, none⟩ w' ∧
      (run .sample rangeRequest).Leads threeBytes.surroundings.env w'
        (.ok (.finished ⟨rangeRequest.destination, 3⟩)) w₂ ∧
      (w₂.disk.file rangeRequest.destination).map Inode.data = some [1, 2, 3] := by
  have hfinished : (threeRun rangeRequest (fun _ => false) ⟨.empty, none⟩).1 =
      .ok (.finished ⟨rangeRequest.destination, 2⟩) := by decide +kernel
  have hagain : (threeRun rangeRequest (fun _ => false) (interrupted rangeRequest)).1 =
      .ok (.finished ⟨rangeRequest.destination, 3⟩) := by decide +kernel
  exact ⟨_, _, _, leads_threeRun _ _ _ hfinished, by decide +kernel, resumed_interrupted rangeRequest,
    leads_threeRun _ _ _ hagain, by decide +kernel⟩

end RangeServer

end DownloadManager
