import DownloadManager.Storage.Json
import DownloadManager.Worker

/-!
# Servers

What a worker sends, and what a server may answer. A representation is the content
a URL has at some time; its validators are the values the server sends with it in
`ETag` and `Last-Modified`. A server is a relation between a request, a response and
the content the response was taken from.

`Server.Faithful` is what resuming a download relies on. It is about the two kinds of
request a worker sends: the caller's own, and the one that asks for the rest.
-/

namespace DownloadManager

/-- Request, response, and the content it was taken from. -/
abbrev Server := HttpRequest → Response → List UInt8 → Prop

namespace Worker

/-- The validators of a response that can be read. -/
def validators (response : Response) : List String :=
  (responseHeader response Header.etag).toList ++ (responseHeader response Header.lastModified).toList

/-- The request with the caller's headers only. -/
def ownRequest (request : Request) : HttpRequest := ⟨request.url, request.config.headers⟩

/-- The request for the rest of a representation. -/
def rangedRequest (request : Request) (offset : ℕ) (validator : String) : HttpRequest :=
  ⟨request.url, (request.config.headers.insert Header.range (.text (rangeFrom offset))).insert Header.ifRange
    (.text validator)⟩

@[simp] theorem range_rangedRequest (request : Request) (offset : ℕ) (validator : String) :
    (rangedRequest request offset validator).headers.get Header.range = some (.text (rangeFrom offset)) := by
  rw [rangedRequest, HeaderMap.get_insert_of_ne _ _ (by decide), HeaderMap.get_insert_self]

theorem validator_manifestOf {request : Request} {start : ℕ} {total : Option ℕ} {response : Response} {v : String}
    (h : (manifestOf request start total response).validator = some v) : v ∈ validators response := by
  simp only [manifestOf, Manifest.validator, Option.or_eq_some_iff] at h
  simp only [validators, List.mem_append, Option.mem_toList]
  exact h.imp_right And.right

theorem parseHeaderValue_ok {s : String} {v : HeaderValue} (h : parseHeaderValue s = .ok v) : v = .text s := by
  unfold parseHeaderValue HeaderValue.fromStr at h
  split_ifs at h with hs
  cases h
  rfl

/-- A `Range` of the worker's can be sent. -/
theorem parseHeaderValue_rangeFrom (k : ℕ) : parseHeaderValue (rangeFrom k) = .ok (.text (rangeFrom k)) := by
  have hdigits : ∀ c ∈ Nat.toDigits 10 k, HeaderValue.isValid c = true := by
    intro c hc
    obtain ⟨h₁, h₂⟩ := Char.isDigit_iff_toNat.mp (Nat.isDigit_of_mem_toDigits (by decide) (by decide) hc)
    have h₁ : 48 ≤ c.toNat := h₁
    have h₂ : c.toNat ≤ 57 := h₂
    simp only [HeaderValue.isValid, Bool.or_eq_true, Bool.and_eq_true, decide_eq_true_eq]
    omega
  have hvalid : (rangeFrom k).toList.all HeaderValue.isValid = true := by
    simpa [rangeFrom, List.all_eq_true, HeaderValue.isValid] using hdigits
  rw [parseHeaderValue, HeaderValue.fromStr, if_pos hvalid]

theorem getRequest_zero {platform : Platform} {request : Request} (huri : platform.uriError request.url = none)
    (prior : Option Manifest) : getRequest platform request 0 prior = .ok (ownRequest request) := by
  unfold getRequest
  rw [huri]
  rfl

theorem getRequest_pos {platform : Platform} {request : Request} (huri : platform.uriError request.url = none) {k : ℕ}
    (hk : 0 < k) {m : Manifest} {v : String} (hm : m.validator = some v) (hv : (HeaderValue.text v).toStr = some v) :
    getRequest platform request k (some m) = .ok (rangedRequest request k v) := by
  have hv' : parseHeaderValue v = .ok (.text v) := by rw [parseHeaderValue, HeaderValue.fromStr_of_toStr hv]
  unfold getRequest
  rw [huri]
  simp only [if_pos hk, parseHeaderValue_rangeFrom, Option.bind_some, hm, hv']
  rfl

theorem uriError_of_getRequest {platform : Platform} {request : Request} {offset : ℕ} {prior : Option Manifest}
    {httpRequest : HttpRequest} (h : getRequest platform request offset prior = .ok httpRequest) :
    platform.uriError request.url = none := by
  unfold getRequest at h
  split at h
  · cases h
  · assumption

theorem parseHeaderValue_ne_cancelled {s : String} {e : Error} (h : parseHeaderValue s = .error e) : e ≠ .cancelled := by
  unfold parseHeaderValue at h
  split at h <;> cases h
  simp

theorem getRequest_ne_cancelled {platform : Platform} {request : Request} {offset : ℕ} {prior : Option Manifest}
    {e : Error} (h : getRequest platform request offset prior = .error e) : e ≠ .cancelled := by
  unfold getRequest at h
  split at h
  · cases h
    simp
  dsimp only at h
  split_ifs at h
  · cases hr : parseHeaderValue (rangeFrom offset) with
    | error => rw [hr] at h; cases h; exact parseHeaderValue_ne_cancelled hr
    | ok range =>
      rw [hr] at h
      cases hv : prior.bind Manifest.validator with
      | none => simp [hv] at h
      | some validator =>
        cases hi : parseHeaderValue validator with
        | error => simp [hv, hi] at h; cases h; exact parseHeaderValue_ne_cancelled hi
        | ok => simp [hv, hi] at h; cases h
  · cases h

/-- **A worker sends one of two requests.** -/
theorem getRequest_cases {platform : Platform} {request : Request} {offset : ℕ} {prior : Option Manifest}
    {httpRequest : HttpRequest} (hprior : 0 < offset → ∃ m v, prior = some m ∧ m.validator = some v)
    (h : getRequest platform request offset prior = .ok httpRequest) :
    (offset = 0 ∧ httpRequest = ownRequest request) ∨
      (0 < offset ∧ ∃ m v, prior = some m ∧ m.validator = some v ∧ httpRequest = rangedRequest request offset v) := by
  unfold getRequest at h
  split at h
  · cases h
  dsimp only at h
  split_ifs at h with hoffset
  · obtain ⟨m, v, rfl, hv⟩ := hprior hoffset
    refine .inr ⟨hoffset, m, v, rfl, hv, ?_⟩
    simp only [Option.bind_some, hv] at h
    cases hr : parseHeaderValue (rangeFrom offset) with
    | error => rw [hr] at h; cases h
    | ok r =>
      cases hi : parseHeaderValue v with
      | error => rw [hr, hi] at h; cases h
      | ok i =>
        rw [hr, hi] at h
        cases h
        rw [rangedRequest, parseHeaderValue_ok hr, parseHeaderValue_ok hi]
  · cases h
    exact .inl ⟨Nat.eq_zero_of_not_pos hoffset, rfl⟩

end Worker

open Worker

/-- What resuming relies on, for the requests of one download. -/
structure Server.Faithful (server : Server) (ident : String → List UInt8) (request : Request) : Prop where
  /-- A validator identifies the content it is sent with. -/
  validator : ∀ {httpRequest response content}, httpRequest.url = request.url → server httpRequest response content →
    response.status.isSuccess → ∀ v ∈ validators response, ident v = content
  /-- A success without a range starts at the first byte. -/
  whole : ∀ {httpRequest response content}, server httpRequest response content → response.status.isSuccess →
    response.status.code ≠ 206 → response.bytes <+: content
  /-- The caller's own request is not answered with a range. -/
  own : ∀ {response content}, server (ownRequest request) response content → response.status.code ≠ 206
  /-- A range goes on from the offset, in the content the validator identifies. -/
  rest : ∀ {offset v response content}, server (rangedRequest request offset v) response content →
    response.status.code = 206 → ident v = content ∧ offset ≤ content.length ∧ response.bytes <+: content.drop offset

/-! ### To run a worker on -/

/-- A platform that takes every URL, in a build that checks for overflow. -/
def Platform.sample : Platform := ⟨Json.codec, fun _ => none, true⟩

/-- A request with the defaults. -/
def Request.sample : Request := ⟨"http://x/y", ⟨[], some "y"⟩, .default⟩

/-- A read of one byte. -/
def Chunk.single (byte : UInt8) : Chunk := ⟨[byte], by simp, by simp [bufferLength]⟩

/-- A response with an `ETag`, its body read byte by byte. -/
def Response.sample (status : StatusCode) (etag : String) (bytes : List UInt8) : Response :=
  ⟨status, [(Header.etag, .text etag)], bytes.map .single, none⟩

/-- `416 Range Not Satisfiable`, without a body. -/
def Response.unsatisfiable : Response := ⟨⟨416, "416 Range Not Satisfiable"⟩, [], [], none⟩

/-- `200 OK`. -/
def StatusCode.ok : StatusCode := ⟨200, "200 OK"⟩

/-- `206 Partial Content`. -/
def StatusCode.partialContent : StatusCode := ⟨206, "206 Partial Content"⟩

end DownloadManager
