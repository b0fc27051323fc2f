import Mathlib.Data.List.Basic

/-!
# Headers

What the repository uses of the `http` crate's `HeaderMap`, `HeaderName` and
`HeaderValue`. A header name is compared in lower case, and is kept so. A value
is a text the crate accepts, or other bytes, which `to_str` does not read.
-/

namespace DownloadManager

/-- `HeaderName`, in lower case. -/
abbrev HeaderName := String

namespace Header

/-- `header::RANGE`. -/
def range : HeaderName := "range"

/-- `header::IF_RANGE`. -/
def ifRange : HeaderName := "if-range"

/-- `header::ETAG`. -/
def etag : HeaderName := "etag"

/-- `header::LAST_MODIFIED`. -/
def lastModified : HeaderName := "last-modified"

/-- `header::CONTENT_LENGTH`. -/
def contentLength : HeaderName := "content-length"

end Header

/-- `HeaderValue`. -/
inductive HeaderValue where
  /-- A value that is a text. -/
  | text (value : String)
  /-- Bytes that are no text. -/
  | bytes (value : List UInt8)
  deriving DecidableEq, Repr

namespace HeaderValue

/-- A character `HeaderValue::from_str` accepts: a tab, or neither a control
character nor `DEL`. -/
def isValid (c : Char) : Bool := c = '\t' || (32 ≤ c.toNat && c.toNat ≠ 127)

/-- A character `HeaderValue::to_str` reads: a tab or visible ASCII. -/
def isVisibleAscii (c : Char) : Bool := c = '\t' || (32 ≤ c.toNat && c.toNat < 127)

/-- `HeaderValue::from_str`. -/
def fromStr (s : String) : Option HeaderValue :=
  if s.toList.all isValid then some (text s) else none

/-- `HeaderValue::to_str`. -/
def toStr : HeaderValue → Option String
  | text s => if s.toList.all isVisibleAscii then some s else none
  | bytes _ => none

/-- What is visible is valid. -/
theorem isValid_of_isVisibleAscii {c : Char} (h : isVisibleAscii c = true) : isValid c = true := by
  simp only [isVisibleAscii, isValid, Bool.or_eq_true, Bool.and_eq_true, decide_eq_true_eq] at h ⊢
  rcases h with h | ⟨h₁, h₂⟩
  · exact Or.inl h
  · exact Or.inr ⟨h₁, by omega⟩

/-- A value that can be read is the text read from it. -/
theorem text_of_toStr {v : HeaderValue} {s : String} (h : v.toStr = some s) : text s = v := by
  cases v with
  | bytes => cases h
  | text t => exact congrArg text (Option.some.inj (Option.ite_none_right_eq_some.mp h).2.symm)

/-- **A text read from a header value can be sent as one again**, and is the same value. -/
theorem fromStr_of_toStr {v : HeaderValue} {s : String} (h : v.toStr = some s) : fromStr s = some v := by
  cases v with
  | bytes => cases h
  | text t =>
    simp only [toStr, Option.ite_none_right_eq_some, Option.some.injEq] at h
    obtain ⟨ht, rfl⟩ := h
    rw [fromStr, if_pos]
    rw [List.all_eq_true] at ht ⊢
    exact fun c hc => isValid_of_isVisibleAscii (ht c hc)

end HeaderValue

/-- `HeaderMap`: the entries, in order. -/
abbrev HeaderMap := List (HeaderName × HeaderValue)

namespace HeaderMap

/-- `HeaderMap::get`: the first value of a name. -/
def get (headers : HeaderMap) (name : HeaderName) : Option HeaderValue :=
  (headers.find? fun entry => entry.1 = name).map Prod.snd

/-- `HeaderMap::insert`: the value replaces every value the name had. -/
def insert (headers : HeaderMap) (name : HeaderName) (value : HeaderValue) : HeaderMap :=
  headers.filter (fun entry => entry.1 ≠ name) ++ [(name, value)]

@[simp] theorem get_insert_self (headers : HeaderMap) (name : HeaderName) (value : HeaderValue) :
    get (insert headers name value) name = some value := by
  have h : headers.find? (fun _ => false) = none := by simp
  simp [get, insert, List.find?_append, h]

theorem get_insert_of_ne (headers : HeaderMap) {name other : HeaderName} (value : HeaderValue)
    (hne : other ≠ name) : get (insert headers name value) other = get headers other := by
  have h : (fun entry : HeaderName × HeaderValue => !decide (entry.1 = name) && decide (entry.1 = other)) =
      fun entry => decide (entry.1 = other) := by
    funext entry
    by_cases he : entry.1 = other <;> simp [he, hne]
  simp [get, insert, List.find?_append, hne.symm, h]

end HeaderMap

end DownloadManager
