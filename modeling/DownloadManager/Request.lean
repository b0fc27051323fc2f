import DownloadManager.Error
import DownloadManager.Http

/-!
# Requests

`src/request.rs`: what a download fetches and where it puts it. The URL is its
text, `Url::as_str`.
-/

namespace DownloadManager

/-- `DownloadConfig`. -/
structure DownloadConfig where
  /-- How many retryable errors are retried. -/
  retries : UInt32
  /-- Whether an existing destination may be replaced. -/
  overwrite : Bool
  /-- Headers of the caller, sent with every request. -/
  headers : HeaderMap
  deriving DecidableEq, Repr

/-- `DownloadConfig::default`. -/
def DownloadConfig.default : DownloadConfig where
  retries := 3
  overwrite := false
  headers := []

/-- `Request`. -/
structure Request where
  /-- The URL. -/
  url : String
  /-- Where the file goes. -/
  destination : PathBuf
  /-- The rest. -/
  config : DownloadConfig
  deriving DecidableEq, Repr

/-- `RequestBuilder`: a request being put together. Its URL is set by
`Request::builder`, the only way to get one. -/
structure RequestBuilder where
  /-- The URL. -/
  url : Option String
  /-- Where the file goes. -/
  destination : PathBuf
  /-- The rest; what is not set has its default. -/
  config : DownloadConfig
  deriving DecidableEq, Repr

/-- `Request::builder`. -/
def Request.builder (url : String) (destination : PathBuf) : RequestBuilder :=
  ⟨some url, destination, .default⟩

namespace RequestBuilder

/-- `RequestBuilder::retries`. -/
def retries (b : RequestBuilder) (retries : UInt32) : RequestBuilder :=
  { b with config := { b.config with retries := retries } }

/-- `RequestBuilder::overwrite`. -/
def overwrite (b : RequestBuilder) (overwrite : Bool) : RequestBuilder :=
  { b with config := { b.config with overwrite := overwrite } }

/-- `RequestBuilder::header`: any name, and any value a header may have. -/
def header (b : RequestBuilder) (name : HeaderName) (value : String) : Result RequestBuilder :=
  match HeaderValue.fromStr value with
  | none => .error (.invalidHeaderValue value "failed to parse header value")
  | some v => .ok { b with config := { b.config with headers := b.config.headers.insert name v } }

/-- `RequestBuilder::build`. -/
def build (b : RequestBuilder) : Result Request :=
  match b.url with
  | none => .error (.invalidRequest "URL must be set")
  | some url => .ok ⟨url, b.destination, b.config⟩

/-- A call of a setter. -/
inductive Setting where
  /-- `retries`. -/
  | retries (retries : UInt32)
  /-- `overwrite`. -/
  | overwrite (overwrite : Bool)
  /-- `header`. -/
  | header (name : HeaderName) (value : String)

/-- Call it. -/
def set (b : RequestBuilder) : Setting → Result RequestBuilder
  | .retries retries => .ok (b.retries retries)
  | .overwrite overwrite => .ok (b.overwrite overwrite)
  | .header name value => b.header name value

/-- A setter changes no header but its own. -/
theorem get_set {b b' : RequestBuilder} {setting : Setting} (h : b.set setting = .ok b') {name : HeaderName}
    (hname : ∀ value, setting ≠ .header name value) :
    b'.config.headers.get name = b.config.headers.get name := by
  cases setting with
  | retries | overwrite =>
    cases h
    rfl
  | header other value =>
    simp only [set, header] at h
    split at h <;> cases h
    exact HeaderMap.get_insert_of_ne _ _ fun he => hname value (by rw [he])

end RequestBuilder

/-- `Request::builder`, some setters, and `build`. -/
def Request.buildWith (url : String) (destination : PathBuf) (settings : List RequestBuilder.Setting) : Result Request :=
  settings.foldlM RequestBuilder.set (Request.builder url destination) >>= RequestBuilder.build

/-- **A header that is not set is not there.** -/
theorem Request.get_buildWith {url : String} {destination : PathBuf} {settings : List RequestBuilder.Setting}
    {request : Request} (h : Request.buildWith url destination settings = .ok request) {name : HeaderName}
    (hname : ∀ value, .header name value ∉ settings) : request.config.headers.get name = none := by
  have hbuilt (settings : List RequestBuilder.Setting) (b : RequestBuilder) (hb : b.config.headers.get name = none)
      (hname : ∀ value, .header name value ∉ settings)
      (h : settings.foldlM RequestBuilder.set b >>= RequestBuilder.build = .ok request) :
      request.config.headers.get name = none := by
    induction settings generalizing b with
    | nil =>
      obtain ⟨url, destination, config⟩ := b
      cases url <;> cases h
      exact hb
    | cons setting settings ih =>
      rw [List.foldlM_cons] at h
      cases hset : b.set setting with
      | error error =>
        rw [hset] at h
        cases h
      | ok b' =>
        rw [hset] at h
        have hfirst : ∀ value, setting ≠ .header name value := fun value he => hname value (he ▸ List.mem_cons_self)
        exact ih b' ((RequestBuilder.get_set hset hfirst).trans hb)
          (fun value hmem => hname value (List.mem_cons_of_mem _ hmem)) h
  exact hbuilt settings _ rfl hname h

end DownloadManager
