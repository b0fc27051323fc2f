import DownloadManager.System.Regardless

/-!
# A worker that has its files to itself

The files of a download are its destination and the three next to it (`ownPaths`). Here the
others leave these alone, and any file operation of the worker may fail. `Transferring` is
what the worker then keeps while it receives a body: the `.part` holds what was retained and
received, and unless something has been written since the last checkpoint the manifest says
so (`Recorded`).

Which failures matter is a matter of the question: `Preserving`, `Tidy` and `Clearing`
exclude those after which what is received is not recorded, a temporary file is left, and a
manifest is left.
-/

namespace DownloadManager

open FileSystem Worker

/-- The files of a download. -/
def ownPaths (dest : PathBuf) : List PathBuf := [dest, partPath dest, manifestPath dest, tmpPath dest]

/-- Those next to the destination. -/
def sidecars (dest : PathBuf) : List PathBuf := [partPath dest, manifestPath dest, tmpPath dest]

/-- The open file an operation is about. -/
def Op.inode? : Op → Option ℕ
  | .file (.setLen i _) | .file (.writeAll i _ _) | .file (.syncData i) | .file (.syncAll i) => some i
  | _ => none

/-- An operation is about the files of a destination, and an open file is the `.part`. -/
structure Op.Confined (dest : PathBuf) (op : Op) (l : Local) : Prop where
  /-- The names. -/
  names : op.Names dest
  /-- The open file. -/
  inode : ∀ i, op.inode? = some i → l.disk.dir (partPath dest) = some i

/-- The manifest and the `.part` say what a transfer has brought. -/
def Noted (platform : Platform) (request : Request) (x : Transfer) (disk : Disk) : Prop :=
  partData request.destination disk = x.data ∧
    ∃ total, totalLength platform x.retained.length x.response = .ok total ∧
      storedManifest platform.codec request.destination disk =
        some ((manifestOf request x.retained.length total x.response).setContiguous x.data.length)

/-- What the manifest and the `.part` say of a transfer that has brought something. -/
def Recorded (platform : Platform) (request : Request) (x : Transfer) (disk : Disk) : Prop :=
  x.received ≠ [] → partData request.destination disk = x.data ∧
    ∃ total, totalLength platform x.retained.length x.response = .ok total ∧
      storedManifest platform.codec request.destination disk =
        some ((manifestOf request x.retained.length total x.response).setContiguous x.data.length)

section

variable (fails : Traffic → FileOp PathBuf UInt8 → Prop)

/-- Nothing fails once a read of the body has failed. -/
def Preserving : Prop := ∀ traffic op, fails traffic op → traffic.broken = false

/-- Saving a manifest does not fail. -/
def Tidy (dest : PathBuf) : Prop :=
  ∀ traffic, (∀ bytes, ¬fails traffic (.write (tmpPath dest) bytes)) ∧
    ¬fails traffic (.rename (tmpPath dest) (manifestPath dest))

/-- The manifest can be removed. -/
def Clearing (dest : PathBuf) : Prop := ∀ traffic, ¬fails traffic (.removeFile (manifestPath dest))

/-- No temporary file is left, if saving does not fail. -/
def Tidied (dest : PathBuf) (disk : Disk) : Prop := Tidy fails dest → disk.file (tmpPath dest) = none

end

/-- A transfer under way. -/
structure Transferring (platform : Platform) (request : Request) (fails : Traffic → FileOp PathBuf UInt8 → Prop)
    (part : PartFile) (x : Transfer) (l : Local) : Prop where
  /-- It is the one that is remembered. -/
  transfer : l.traffic.transfer = some x
  /-- The `.part`. -/
  filling : Filling request.destination l.disk part x.data
  /-- The manifest, but for the ranges. -/
  manifest : ∃ total, totalLength platform x.retained.length x.response = .ok total ∧
    ∀ n, part.manifest.setContiguous n = (manifestOf request x.retained.length total x.response).setContiguous n
  /-- What has been written has been recorded. -/
  clean : part.dirty = false → Recorded platform request x l.disk
  /-- No temporary file. -/
  tidied : Tidied fails request.destination l.disk

/-! ### What the others do -/

section

variable {dest path : PathBuf} {l l' : Local} {disk disk' : Disk}

theorem part_mem_ownPaths : partPath dest ∈ ownPaths dest := by simp [ownPaths]

theorem manifest_mem_ownPaths : manifestPath dest ∈ ownPaths dest := by simp [ownPaths]

theorem tmp_mem_ownPaths : tmpPath dest ∈ ownPaths dest := by simp [ownPaths]

theorem dest_mem_ownPaths : dest ∈ ownPaths dest := by simp [ownPaths]

theorem Op.Confined.stable {op : Op} (h : op.Confined dest l) (hrely : Undisturbed (ownPaths dest) l l') :
    op.Confined dest l' :=
  ⟨h.names, fun i hi => (hrely.agree _ part_mem_ownPaths).1.trans (h.inode i hi)⟩

/-- **The frame**: a confined operation changes the files next to its destination, or moves the `.part` to it. -/
theorem Op.Confined.modifies {op : FileOp PathBuf UInt8} (h : (Op.file op).Confined dest l)
    (hmodifies : op.Modifies l.disk path) :
    path ∈ sidecars dest ∨ path = dest ∧ op = .rename (partPath dest) dest := by
  cases op with
  | openFile p =>
    rcases h.names with hp | hp
    · obtain rfl : p = partPath dest := hp
      obtain rfl : path = partPath dest := hmodifies
      exact .inl (by simp [sidecars])
    · cases hp
  | write p bytes =>
    rcases h.names with hp | hp
    · obtain rfl : p = tmpPath dest := hp
      obtain rfl : path = tmpPath dest := hmodifies
      exact .inl (by simp [sidecars])
    · cases hp
  | rename p q =>
    rcases h.names with ⟨rfl, rfl⟩ | ⟨rfl, rfl⟩
    · rcases hmodifies with rfl | rfl
      · exact .inl (by simp [sidecars])
      · exact .inl (by simp [sidecars])
    · rcases hmodifies with rfl | rfl
      · exact .inl (by simp [sidecars])
      · exact .inr ⟨rfl, rfl⟩
  | removeFile p =>
    rcases h.names with hp | hp
    · cases hp
    · obtain rfl : p = manifestPath dest := hp
      obtain rfl : path = manifestPath dest := hmodifies
      exact .inl (by simp [sidecars])
  | setLen i | writeAll i | syncData i | syncAll i =>
    have hpart := h.inode i rfl
    obtain rfl := l.disk.dir_inj _ _ _ hmodifies hpart
    exact .inl (by simp [sidecars])
  | metadata | read | createDirAll | seek | streamPosition => cases hmodifies

variable {platform : Platform} {request : Request} {fails : Traffic → FileOp PathBuf UInt8 → Prop} {part : PartFile}
  {x : Transfer}

theorem Recorded.congr (h : Recorded platform request x disk) (hpart : disk.Agree disk' (partPath request.destination))
    (hmanifest : disk.Agree disk' (manifestPath request.destination)) : Recorded platform request x disk' := by
  intro hx
  obtain ⟨hdata, total, htotal, hstored⟩ := h hx
  exact ⟨(partData_congr hpart).trans hdata, total, htotal, (storedManifest_congr hmanifest).trans hstored⟩

theorem Tidied.congr (h : Tidied fails dest disk) (htmp : disk.Agree disk' (tmpPath dest)) : Tidied fails dest disk' :=
  fun ht => htmp.2.trans (h ht)

theorem Transferring.stable (h : Transferring platform request fails part x l)
    (hrely : Undisturbed (ownPaths request.destination) l l') : Transferring platform request fails part x l' :=
  ⟨hrely.traffic ▸ h.transfer, h.filling.congr (hrely.agree _ part_mem_ownPaths), h.manifest,
    fun hd => (h.clean hd).congr (hrely.agree _ part_mem_ownPaths) (hrely.agree _ manifest_mem_ownPaths),
    h.tidied.congr (hrely.agree _ tmp_mem_ownPaths)⟩

end

end DownloadManager
