import DownloadManager.Async
import DownloadManager.Storage.Manifest

/-!
# Part files

`src/storage/mod.rs`, `src/storage/file.rs` and the file operations of
`src/storage/manifest.rs`. A `PartFile` keeps the position of its open file: it is
where the last `seek` or `write_all` left it.
-/

namespace DownloadManager

open FileSystem

variable (codec : Codec)

/-- `Manifest::load`: a manifest that cannot be read is none. -/
def Manifest.load (dest : PathBuf) : Async (Option Manifest) := do
  match ← Fs.attempt (.read (manifestPath dest)) with
  | .error _ => pure none
  | .ok bytes => pure (codec.fromSlice bytes)

/-- `Manifest::save`. -/
def Manifest.save (manifest : Manifest) (dest : PathBuf) : Async Unit := do
  Fs.await (.write (tmpPath dest) (codec.toVec manifest))
  Fs.await (.rename (tmpPath dest) (manifestPath dest))

/-- `part_len`. -/
def partLen (dest : PathBuf) : Async ℕ := do
  match ← Fs.attempt (.metadata (partPath dest)) with
  | .ok length => pure length
  | .error error => if error.notFound then pure 0 else .raise (.io error)

/-- A file removed; it does not matter if there was none. -/
def removeIfPresent (path : PathBuf) : Async Unit := do
  match ← Fs.attempt (.removeFile path) with
  | .ok _ => pure ()
  | .error error => if error.notFound then pure () else .raise (.io error)

/-- `discard_partial`. -/
def discardPartial (dest : PathBuf) : Async Unit := do
  removeIfPresent (partPath dest)
  removeIfPresent (manifestPath dest)

/-- `PartFile`. -/
structure PartFile where
  /-- The destination. -/
  dest : PathBuf
  /-- The open `.part`. -/
  file : ℕ
  /-- The position in it. -/
  position : ℕ
  /-- Whether anything has been written since the last checkpoint. -/
  dirty : Bool
  /-- What the next checkpoint saves, but for the ranges. -/
  manifest : Manifest

namespace PartFile

/-- `PartFile::CHECKPOINT_BYTES`. -/
def checkpointBytes : ℕ := 4 * 1024 * 1024

/-- The directory of the destination. -/
def createParent (dest : PathBuf) : Async Unit :=
  match dest.parent with
  | some parent => Fs.await (.createDirAll parent)
  | none => pure ()

/-- `PartFile::open`. -/
def «open» (dest : PathBuf) (offset : ℕ) (manifest : Manifest) : Async PartFile := do
  createParent dest
  let file ← Fs.await (.openFile (partPath dest))
  Fs.await (.setLen file offset)
  Fs.await (.seek file offset)
  pure ⟨dest, file, offset, false, manifest⟩

/-- `PartFile::checkpoint`. -/
def checkpoint (part : PartFile) : Async PartFile :=
  if !part.dirty then pure part
  else do
    Fs.await (.streamPosition part.file)
    Fs.await (.syncData part.file)
    let manifest := part.manifest.setContiguous part.position
    manifest.save codec part.dest
    pure { part with manifest := manifest, dirty := false }

/-- `PartFile::write`. -/
def write (part : PartFile) (bytes : List UInt8) : Async PartFile := do
  Fs.await (.writeAll part.file part.position bytes)
  let part := { part with position := part.position + bytes.length, dirty := true }
  Fs.await (.streamPosition part.file)
  if checkpointBytes ≤ part.position - part.manifest.resumeOffset then part.checkpoint codec
  else pure part

/-- `PartFile::finalize`. -/
def finalize (part : PartFile) : Async PathBuf := do
  Fs.await (.syncAll part.file)
  Fs.await (.rename (partPath part.dest) part.dest)
  let _ ← Fs.attempt (.removeFile (manifestPath part.dest))
  pure part.dest

end PartFile

end DownloadManager
