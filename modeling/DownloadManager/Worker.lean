import DownloadManager.Scheduler.Job
import DownloadManager.Storage.PartFile

/-!
# The worker

`src/worker.rs`: one attempt of a download. `run` is the whole of it, up to the
progress it broadcasts, of which only the counts are kept.

A panic of a worker is caught where it is spawned, in `transition_job`, and
becomes an error; here `run` ends with that error. The sum of the offset and the
announced length is the only arithmetic that can panic, in a build that checks for
overflow.
-/

namespace DownloadManager

open FileSystem

/-- What the worker uses of other crates and of the build. -/
structure Platform where
  /-- `serde_json`. -/
  codec : Codec
  /-- Why the `http` crate cannot use a URL as the target of a request, if it cannot. -/
  uriError : String → Option String
  /-- Whether the build checks for overflow. -/
  overflowChecks : Bool

/-- `Progress`, without its clock and rates. -/
structure Progress where
  /-- The bytes there are, a resumed prefix included. -/
  bytes : ℕ
  /-- The expected length. -/
  total : Option ℕ

/-- `Progress::add`. -/
def Progress.add (progress : Progress) (n : ℕ) : Progress := { progress with bytes := progress.bytes + n }

/-- What a caught panic of the worker becomes. -/
def Error.workerPanicked : Error := .unknown "Download worker panicked"

/-- `str::parse::<u64>`: decimal digits, after at most one plus sign. -/
def parseU64 (s : String) : Option ℕ :=
  let digits :=
    match s.toList with
    | '+' :: digits => digits
    | digits => digits
  if digits ≠ [] ∧ digits.all Char.isDigit then
    let n := digits.foldl (fun n c => 10 * n + (c.toNat - '0'.toNat)) 0
    if n < 2 ^ 64 then some n else none
  else none

namespace Worker

variable (platform : Platform) (request : Request)

/-- `content_length`. -/
def contentLength (response : Response) : Option ℕ := do
  let value ← response.headers.get Header.contentLength
  parseU64 (← value.toStr)

/-- `response_header`. -/
def responseHeader (response : Response) (name : HeaderName) : Option String := do
  let value ← response.headers.get name
  value.toStr

/-- `format!("bytes={offset}-")`. -/
def rangeFrom (offset : ℕ) : String := "bytes=" ++ toString offset ++ "-"

/-- `value.parse()`, for a header value. -/
def parseHeaderValue (value : String) : Result HeaderValue :=
  match HeaderValue.fromStr value with
  | some v => .ok v
  | none => .error (.invalidHeaderValue value "failed to parse header value")

/-- The request `send_get` builds. -/
def getRequest (offset : ℕ) (prior : Option Manifest) : Result HttpRequest := do
  match platform.uriError request.url with
  | some error => .error (.invalidRequest error)
  | none =>
    let headers := request.config.headers
    if 0 < offset then
      let headers := headers.insert Header.range (← parseHeaderValue (rangeFrom offset))
      match prior.bind Manifest.validator with
      | some validator => pure ⟨request.url, headers.insert Header.ifRange (← parseHeaderValue validator)⟩
      | none => pure ⟨request.url, headers⟩
    else pure ⟨request.url, headers⟩

/-- `send_get`, unless the stop token comes first; no response means it did. -/
def sendGet (offset : ℕ) (prior : Option Manifest) : Async (Option Response) := do
  if ← pollStop then pure none
  else
    match getRequest platform request offset prior with
    | .error error => .raise error
    | .ok httpRequest =>
      match ← Program.perform (Op.send httpRequest) with
      | .stopped => pure none
      | .failed message => .raise (.network message)
      | .response response => pure (some response)

/-- `content_length(&response).map(|remaining| start + remaining)`. -/
def totalLength (start : ℕ) (response : Response) : Result (Option ℕ) :=
  match contentLength response with
  | none => .ok none
  | some remaining =>
    if start + remaining < 2 ^ 64 then .ok (some (start + remaining))
    else if platform.overflowChecks then .error .workerPanicked
    else .ok (some ((start + remaining) % 2 ^ 64))

/-- After the body. -/
def finish (part : PartFile) (progress : Progress) : Async WorkerResult := do
  let path ← part.finalize
  pure (.finished ⟨path, progress.bytes⟩)

/-- The transfer loop, with what is left of the body. -/
def transfer (bodyError : Option String) : PartFile → Progress → List Chunk → Async WorkerResult
  | part, progress, chunks => do
    if ← pollStop then
      let _ ← part.checkpoint platform.codec
      pure .stopped
    else
      match chunks, bodyError with
      | [], none => finish part progress
      | [], some error =>
        let _ ← (part.checkpoint platform.codec).attempt
        .raise (.network error)
      | chunk :: chunks, _ =>
        let part ← part.write platform.codec chunk.bytes
        transfer bodyError part (progress.add chunk.bytes.length) chunks

/-- The manifest of a response. -/
def manifestOf (start : ℕ) (total : Option ℕ) (response : Response) : Manifest :=
  Manifest.setContiguous
    { url := request.url
      etag := responseHeader response Header.etag
      lastModified := responseHeader response Header.lastModified
      totalLength := total
      completedRanges := [] } start

/-- From the response on. -/
def receive (offset : ℕ) (response : Response) : Async WorkerResult := do
  let resumed := response.status.code = 206
  if !response.status.isSuccess then .raise (.httpStatus response.status)
  else
    let start := if resumed then offset else 0
    match totalLength platform start response with
    | .error panic => .raise panic
    | .ok total =>
      let part ← PartFile.open request.destination start (manifestOf request start total response)
      transfer platform response.bodyError part ⟨start, total⟩ response.body

/-- The check of the destination. -/
def checkDestination : Async Unit := do
  match ← Fs.attempt (.metadata request.destination) with
  | .ok _ => if !request.config.overwrite then .raise (.fileExists request.destination) else pure ()
  | .error error => if !error.notFound then .raise (.io error) else pure ()

/-- `min(resume_offset, part_len)`, or 0 without a manifest. -/
def resumeFrom (prior : Option Manifest) : Async ℕ := do
  match prior with
  | some manifest => pure (min manifest.resumeOffset (← partLen request.destination))
  | none => pure 0

/-- The rest of `run`, once the manifest has been loaded. -/
def resume (loaded : Option Manifest) : Async WorkerResult := do
  let prior := loaded.filter (·.isResumableFor request.url)
  let offset ← resumeFrom request prior
  match ← sendGet platform request offset prior with
  | none => pure .stopped
  | some response =>
    if response.status.code = 416 then
      match ← sendGet platform request 0 none with
      | none => pure .stopped
      | some response => receive platform request offset response
    else receive platform request offset response

/-- `worker::run`. -/
def run : Async WorkerResult := do
  checkDestination request
  let loaded ← Manifest.load platform.codec request.destination
  resume platform request loaded

end Worker

end DownloadManager
