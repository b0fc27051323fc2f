import DownloadManager.Http
import DownloadManager.Path

/-!
# Manifests

`src/storage/manifest.rs` without its file operations, and the paths of
`src/storage/mod.rs`: what is kept of a download between two attempts, and where.
Lengths and offsets (`u64`) are natural numbers.

The bytes of a manifest are those of `serde_json`, which is a parameter: `Codec`
says what the storage relies on.
-/

namespace DownloadManager

/-- `ByteRange`: `[start, stop)`. The numbers are not bounded here: what holds for all of them holds for `u64`. -/
structure ByteRange where
  /-- `start`. -/
  start : ℕ
  /-- `end`. -/
  stop : ℕ
  deriving DecidableEq, Repr

/-- `Manifest`. -/
structure Manifest where
  /-- Where the bytes come from. -/
  url : String
  /-- The `ETag` they came with. -/
  etag : Option String
  /-- The `Last-Modified` they came with. -/
  lastModified : Option String
  /-- How long the whole is. -/
  totalLength : Option ℕ
  /-- Which bytes there are. -/
  completedRanges : List ByteRange
  deriving DecidableEq, Repr

namespace Manifest

/-- The loop of `resume_offset`, for at most `fuel` ranges. -/
def advance (ranges : List ByteRange) : (fuel : ℕ) → (offset : ℕ) → ℕ
  | 0, offset => offset
  | fuel + 1, offset =>
    match ranges.find? fun r => r.start = offset ∧ offset < r.stop with
    | some r => advance ranges fuel r.stop
    | none => offset

/-- `Manifest::resume_offset`. A range is used at most once. -/
def resumeOffset (manifest : Manifest) : ℕ :=
  advance manifest.completedRanges manifest.completedRanges.length 0

/-- `Manifest::set_contiguous`. -/
def setContiguous (manifest : Manifest) (written : ℕ) : Manifest :=
  { manifest with completedRanges := if 0 < written then [⟨0, written⟩] else [] }

/-- `Manifest::validator`. -/
def validator (manifest : Manifest) : Option String := manifest.etag.or manifest.lastModified

/-- `Manifest::is_resumable_for`. -/
def isResumableFor (manifest : Manifest) (url : String) : Bool :=
  manifest.url = url && 0 < manifest.resumeOffset && manifest.validator.isSome

@[simp] theorem resumeOffset_setContiguous (manifest : Manifest) (written : ℕ) :
    (manifest.setContiguous written).resumeOffset = written := by
  unfold setContiguous resumeOffset
  split
  · simp [advance, *]
  · simp [advance]
    omega

@[simp] theorem validator_setContiguous (manifest : Manifest) (written : ℕ) :
    (manifest.setContiguous written).validator = manifest.validator := rfl

theorem isResumableFor_iff {manifest : Manifest} {url : String} :
    manifest.isResumableFor url ↔
      manifest.url = url ∧ 0 < manifest.resumeOffset ∧ ∃ v, manifest.validator = some v := by
  simp [isResumableFor, Option.isSome_iff_exists, and_assoc]

end Manifest

/-- `serde_json`, for manifests. A manifest has no map and no float, so `to_vec` does
not fail; what it writes is read back; and JSON has no zero byte. -/
structure Codec where
  /-- `serde_json::to_vec`. -/
  toVec : Manifest → List UInt8
  /-- `serde_json::from_slice`, without its error. -/
  fromSlice : List UInt8 → Option Manifest
  /-- What is written is read back. -/
  fromSlice_toVec : ∀ manifest, fromSlice (toVec manifest) = some manifest
  /-- A zero byte is an error. -/
  fromSlice_of_zero_mem : ∀ bytes, 0 ∈ bytes → fromSlice bytes = none

/-! ### Paths -/

/-- `part_path`. -/
def partPath (dest : PathBuf) : PathBuf := dest.withAddedExtension "part"

/-- `manifest_path`. -/
def manifestPath (dest : PathBuf) : PathBuf := (partPath dest).withAddedExtension "manifest.json"

/-- The temporary sibling of `Manifest::save`. -/
def tmpPath (dest : PathBuf) : PathBuf := (manifestPath dest).withAddedExtension "tmp"

theorem isFile_partPath {dest : PathBuf} : (partPath dest).IsFile ↔ dest.IsFile := PathBuf.isFile_withAddedExtension

theorem isFile_manifestPath {dest : PathBuf} : (manifestPath dest).IsFile ↔ dest.IsFile :=
  PathBuf.isFile_withAddedExtension.trans isFile_partPath

theorem isFile_tmpPath {dest : PathBuf} : (tmpPath dest).IsFile ↔ dest.IsFile :=
  PathBuf.isFile_withAddedExtension.trans isFile_manifestPath

/-- What is no file has no files next to it. -/
theorem partPath_of_not_isFile {dest : PathBuf} (h : ¬dest.IsFile) : partPath dest = dest :=
  PathBuf.withAddedExtension_of_not_isFile h _

theorem manifestPath_of_not_isFile {dest : PathBuf} (h : ¬dest.IsFile) : manifestPath dest = dest := by
  rw [manifestPath, partPath_of_not_isFile h, PathBuf.withAddedExtension_of_not_isFile h]

theorem tmpPath_of_not_isFile {dest : PathBuf} (h : ¬dest.IsFile) : tmpPath dest = dest := by
  rw [tmpPath, manifestPath_of_not_isFile h, PathBuf.withAddedExtension_of_not_isFile h]

/-- The destination and the files next to it are different files. -/
theorem nameLength_sidecars {dest : PathBuf} (h : dest.IsFile) :
    dest.nameLength < (partPath dest).nameLength ∧ (partPath dest).nameLength < (manifestPath dest).nameLength ∧
      (manifestPath dest).nameLength < (tmpPath dest).nameLength := by
  have hpart := isFile_partPath.mpr h
  have hmanifest := isFile_manifestPath.mpr h
  exact ⟨PathBuf.nameLength_lt_withAddedExtension h _, PathBuf.nameLength_lt_withAddedExtension hpart _,
    PathBuf.nameLength_lt_withAddedExtension hmanifest _⟩

section

variable {dest : PathBuf} (h : dest.IsFile)
include h

theorem dest_ne_partPath : dest ≠ partPath dest := by
  intro he
  have := (nameLength_sidecars h).1
  rw [← he] at this
  omega

theorem dest_ne_manifestPath : dest ≠ manifestPath dest := by
  intro he
  have := nameLength_sidecars h
  rw [← he] at this
  omega

theorem dest_ne_tmpPath : dest ≠ tmpPath dest := by
  intro he
  have := nameLength_sidecars h
  rw [← he] at this
  omega

theorem partPath_ne_manifestPath : partPath dest ≠ manifestPath dest := by
  intro he
  have := (nameLength_sidecars h).2.1
  rw [he] at this
  omega

theorem partPath_ne_tmpPath : partPath dest ≠ tmpPath dest := by
  intro he
  have := nameLength_sidecars h
  rw [he] at this
  omega

theorem manifestPath_ne_tmpPath : manifestPath dest ≠ tmpPath dest := by
  intro he
  have := (nameLength_sidecars h).2.2
  rw [he] at this
  omega

end

end DownloadManager
