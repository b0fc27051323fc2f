import DownloadManager.Library.FileSystem
import DownloadManager.Library.Program
import DownloadManager.Error
import DownloadManager.Http
import Mathlib.Data.UInt

/-!
# What the workers await

A worker is an `async fn`; it awaits file operations (`async_fs`), the HTTP client
and its stop token. `Op` lists what it may await and `perform` what happens then,
for a `Choice` of the surroundings: which file operation fails, what the server
answers and when the stop token is found cancelled. Everything else in a worker is
computation.

A body is the list of what the reads of it return, and how it ends. A read fills at
most the buffer of 64 KiB, and `Ok(0)` is the end of the body.
-/

namespace DownloadManager

open FileSystem

/-- The disk: paths to bytes. -/
abbrev Disk := FileSystem.Disk PathBuf UInt8

/-- A request to the HTTP client: a `GET` without a body. -/
structure HttpRequest where
  /-- The URL. -/
  url : String
  /-- The headers. -/
  headers : HeaderMap
  deriving DecidableEq

/-- The length of the read buffer. -/
def bufferLength : ℕ := 64 * 1024

/-- What one read of a body returns. -/
structure Chunk where
  /-- The bytes. -/
  bytes : List UInt8
  /-- `Ok(0)` is the end of the body. -/
  ne_nil : bytes ≠ []
  /-- They fit in the buffer. -/
  length_le : bytes.length ≤ bufferLength

/-- `Response`. -/
structure Response where
  /-- The status. -/
  status : StatusCode
  /-- The headers. -/
  headers : HeaderMap
  /-- The reads of the body. -/
  body : List Chunk
  /-- The error the body ends with, if it does not just end. -/
  bodyError : Option String

/-- The bytes of a body that was read to its end. -/
def Response.bytes (response : Response) : List UInt8 := (response.body.map Chunk.bytes).flatten

/-- How waiting for the client ends. -/
inductive Sent where
  /-- The stop token was cancelled first. -/
  | stopped
  /-- The client failed. -/
  | failed (message : String)
  /-- A response. -/
  | response (response : Response)

/-- What an async function may await. -/
inductive Op where
  /-- A file operation. -/
  | file (op : FileOp PathBuf UInt8)
  /-- The client, unless the stop token comes first. -/
  | send (request : HttpRequest)
  /-- Whether the stop token is cancelled. -/
  | pollStop

/-- What the operations return. -/
@[reducible] def Op.Reply : Op → Type
  | .file op => Except IoError op.Value
  | .send _ => Sent
  | .pollStop => Bool

/-- What the surroundings choose. -/
inductive Choice where
  /-- The file operation succeeds, or fails. -/
  | file (fault : Option (Fault IoError))
  /-- The client is done, or the stop token is cancelled. -/
  | send (sent : Sent)
  /-- The stop token. -/
  | pollStop (stop : Bool)

/-- An `async fn` that returns `Result`. -/
abbrev Async (α : Type) := Program Op Op.Reply Error α

/-- `ErrorKind::NotFound`. -/
def IoError.missing : IoError := ⟨true, "No such file or directory (os error 2)"⟩

/-- `ErrorKind::IsADirectory`. -/
def IoError.isADirectory : IoError := ⟨false, "Is a directory (os error 21)"⟩

/-- A file operation on a directory: it fails, except for asking what it is. The empty path names nothing. -/
def performDirectory (disk : Disk) : (op : FileOp PathBuf UInt8) → Except IoError op.Value
  | .createDirAll _ => .ok ()
  | .metadata path => if path = .empty ∧ disk.dir path = none then .error .missing else .ok (0 : ℕ)
  | op => .error (if .empty ∈ op.paths ∧ disk.dir .empty = none then .missing else .isADirectory)

/-- Only the empty path is said not to be there. -/
theorem performDirectory_notFound {disk : Disk} {op : FileOp PathBuf UInt8} {e : IoError}
    (h : performDirectory disk op = .error e) (he : e.notFound = true) : .empty ∈ op.paths ∧ disk.dir .empty = none := by
  cases op with
  | createDirAll => cases h
  | metadata path =>
    simp only [performDirectory] at h
    split_ifs at h with hempty
    exact ⟨hempty.1 ▸ List.mem_singleton_self path, hempty.1 ▸ hempty.2⟩
  | _ =>
    simp only [performDirectory, Except.error.injEq] at h
    split_ifs at h with hempty
    · exact hempty
    · rw [← h] at he
      cases he

/-- A file operation. -/
def performFile (disk : Disk) (fault : Option (Fault IoError)) (op : FileOp PathBuf UInt8) :
    Except IoError op.Value × Disk :=
  if ∀ path ∈ op.paths, path.IsFile then op.perform .missing disk fault
  else
    match fault with
    | some fault => (.error fault.error, disk)
    | none => (performDirectory disk op, disk)

/-- One operation. -/
def perform : (op : Op) → Choice → Disk → Option (op.Reply × Disk)
  | .file op, .file fault, disk => some (performFile disk fault op)
  | .send _, .send sent, disk => some (sent, disk)
  | .pollStop, .pollStop stop, disk => some (stop, disk)
  | _, _, _ => none

/-- How a file operation can end. -/
inductive Outcome (disk : Disk) (fault : Option (Fault IoError)) (op : FileOp PathBuf UInt8)
    (r : Except IoError op.Value) (disk' : Disk) : Prop
  /-- It is carried out. -/
  | effect (hfault : fault = none) (hpaths : ∀ path ∈ op.paths, path.IsFile)
    (hr : r = (op.effect IoError.missing disk).1) (hdisk : disk' = (op.effect IoError.missing disk).2)
  /-- It fails, and may have written something. -/
  | fail (error : IoError) (written : Option ℕ) (hfault : fault.isSome) (hr : r = .error error)
    (hdisk : disk' = op.damage disk written) (hpaths : (∀ path ∈ op.paths, path.IsFile) ∨ written = none)
  /-- It is given a directory. -/
  | directory (hfault : fault = none) (hpaths : ¬∀ path ∈ op.paths, path.IsFile) (hr : r = performDirectory disk op)
    (hdisk : disk' = disk)

theorem outcome_performFile (disk : Disk) (fault : Option (Fault IoError)) (op : FileOp PathBuf UInt8) :
    Outcome disk fault op (performFile disk fault op).1 (performFile disk fault op).2 := by
  unfold performFile
  split
  · next hpaths =>
    cases fault with
    | none => exact .effect rfl hpaths rfl rfl
    | some fault => exact .fail fault.error fault.written rfl rfl rfl (.inl hpaths)
  · next hpaths =>
    cases fault with
    | none => exact .directory rfl hpaths rfl rfl
    | some fault => exact .fail fault.error none rfl rfl rfl (.inr rfl)

namespace Outcome

variable {disk disk' : Disk} {fault : Option (Fault IoError)} {op : FileOp PathBuf UInt8}

/-- Whatever happens to a file operation, a file it does not modify stays as it is. -/
theorem agree {r : Except IoError op.Value} {path : PathBuf} (h : Outcome disk fault op r disk')
    (hpath : ¬op.Modifies disk path) : disk.Agree disk' path := by
  cases h with
  | effect _ _ _ hdisk =>
    have hframe : disk.Agree (op.perform IoError.missing disk none).2 path := FileOp.frame hpath
    exact hdisk ▸ hframe
  | fail error written _ _ hdisk =>
    have hframe : disk.Agree (op.perform IoError.missing disk (some ⟨error, written⟩)).2 path := FileOp.frame hpath
    exact hdisk ▸ hframe
  | directory _ _ _ hdisk => exact hdisk ▸ .refl disk path

/-- On a directory nothing is done. -/
theorem eq_of_directory {r : Except IoError op.Value} {path : PathBuf} (h : Outcome disk fault op r disk')
    (hop : path ∈ op.paths) (hpath : ¬path.IsFile) : disk' = disk := by
  cases h with
  | effect _ hpaths => exact absurd (hpaths path hop) hpath
  | fail _ _ _ _ hdisk hpaths =>
    rw [hpaths.resolve_left fun hpaths => hpath (hpaths path hop)] at hdisk
    exact hdisk.trans (FileOp.damage_none disk op)
  | directory _ _ _ hdisk => exact hdisk

/-- An operation on an open file is carried out, or leaves some damage. -/
theorem of_paths_eq_nil {r : Except IoError op.Value} (h : Outcome disk fault op r disk') (hop : op.paths = []) :
    (fault = none ∧ r = (op.effect IoError.missing disk).1 ∧ disk' = (op.effect IoError.missing disk).2) ∨
      (fault.isSome ∧ (∃ e, r = .error e) ∧ ∃ written, disk' = op.damage disk written) := by
  cases h with
  | effect hfault _ hr hdisk => exact .inl ⟨hfault, hr, hdisk⟩
  | fail error written hfault hr hdisk => exact .inr ⟨hfault, ⟨error, hr⟩, written, hdisk⟩
  | directory _ hpaths => exact absurd (by simp [hop]) hpaths

theorem openFile {path : PathBuf} {r : Except IoError ℕ} (h : Outcome disk fault (.openFile path) r disk') :
    (path.IsFile ∧ r = .ok (disk.touch path).2 ∧ disk' = (disk.touch path).1) ∨ ((∃ e, r = .error e) ∧ disk' = disk) := by
  cases h with
  | effect _ hpaths hr hdisk => exact .inl ⟨hpaths path (List.mem_singleton_self path), hr, hdisk⟩
  | fail error written _ hr hdisk =>
    refine .inr ⟨⟨error, hr⟩, ?_⟩
    cases written <;> exact hdisk
  | directory _ _ hr hdisk => exact .inr ⟨⟨_, hr⟩, hdisk⟩

theorem rename {path path' : PathBuf} {r : Except IoError Unit} (h : Outcome disk fault (.rename path path') r disk') :
    (r = .ok () ∧ disk' = disk.rename path path') ∨
      ((fault.isSome ∨ disk.dir path = none ∨ ¬(path.IsFile ∧ path'.IsFile)) ∧ (∃ e, r = .error e) ∧ disk' = disk) := by
  cases h with
  | effect _ _ hr hdisk =>
    cases hdir : disk.dir path with
    | some =>
      simp only [FileOp.effect, hdir] at hr hdisk
      exact .inl ⟨hr, hdisk⟩
    | none =>
      simp only [FileOp.effect, hdir] at hr hdisk
      exact .inr ⟨.inr (.inl rfl), ⟨_, hr⟩, hdisk⟩
  | fail error written hfault hr hdisk =>
    refine .inr ⟨.inl hfault, ⟨error, hr⟩, ?_⟩
    cases written <;> exact hdisk
  | directory _ hpaths hr hdisk =>
    exact .inr ⟨.inr (.inr fun h => hpaths (by simpa [FileOp.paths] using h)), ⟨_, hr⟩, hdisk⟩

theorem removeFile {path : PathBuf} {r : Except IoError Unit} (h : Outcome disk fault (.removeFile path) r disk') :
    (r = .ok () ∧ disk' = disk.remove path) ∨ ((∃ e, r = .error e) ∧ disk' = disk) := by
  cases h with
  | effect _ _ hr hdisk =>
    cases hdir : disk.dir path with
    | some =>
      simp only [FileOp.effect, hdir] at hr hdisk
      exact .inl ⟨hr, hdisk⟩
    | none =>
      simp only [FileOp.effect, hdir] at hr hdisk
      exact .inr ⟨⟨_, hr⟩, hdisk⟩
  | fail error written hfault hr hdisk =>
    refine .inr ⟨⟨error, hr⟩, ?_⟩
    cases written <;> exact hdisk
  | directory _ _ hr hdisk => exact .inr ⟨⟨_, hr⟩, hdisk⟩

/-- A file written anew holds what it was given, if no fault happened. -/
theorem write {path : PathBuf} {bytes : List UInt8} {r : Except IoError Unit}
    (h : Outcome disk fault (.write path bytes) r disk') :
    (r = .ok () ∧ disk' = disk.put path bytes) ∨ ((fault.isSome ∨ ¬path.IsFile) ∧ ∃ e, r = .error e) := by
  cases h with
  | effect _ _ hr hdisk => exact .inl ⟨hr, hdisk⟩
  | fail error _ hfault hr => exact .inr ⟨.inl hfault, error, hr⟩
  | directory _ hpaths hr => exact .inr ⟨.inr fun h => hpaths (by simpa [FileOp.paths] using h), _, hr⟩

end Outcome

/-! ### `async_fs` -/

namespace Fs

/-- A file operation whose error is handled by the caller. -/
def attempt (op : FileOp PathBuf UInt8) : Async (Except IoError op.Value) := Program.perform (Op.file op)

/-- A file operation whose error is returned (`?`). -/
def await (op : FileOp PathBuf UInt8) : Async op.Value :=
  .call (.file op) fun r => .done (r.mapError .io)

end Fs

/-- Whether the stop token is cancelled. -/
def pollStop : Async Bool := Program.perform Op.pollStop

end DownloadManager
