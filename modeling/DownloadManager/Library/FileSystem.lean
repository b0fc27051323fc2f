import Mathlib.Data.List.Basic
import Mathlib.Data.List.Infix

/-!
# A file system

A disk maps names to inodes, and inodes to what they hold: a file can be renamed
or removed while someone writes to it. `FileOp` are the operations of a file API
with open files; a path names no file, or one. Each operation succeeds or, when
the environment wants a `Fault`, fails; a failed write may have written some of its
bytes. Directories are not modelled: making one changes nothing here, and an
operation that fails for the lack of one is a fault.

An inode knows how many of its first bytes are durable. `Disk.crash` is a power
loss: any of the other bytes may be zero afterwards, while lengths and names survive.

What an operation can change is said once, by `FileOp.Modifies`: `FileOp.frame`
says that every other name keeps its inode and what it holds.
-/

namespace FileSystem

/-- What a file holds, and how many of its first bytes are durable. -/
@[ext]
structure Inode (β : Type) where
  /-- The content. -/
  data : List β
  /-- How many of its first bytes survive a power loss. -/
  synced : ℕ
  deriving DecidableEq

namespace Inode

variable {β : Type}

/-- `fsync`. -/
def sync (f : Inode β) : Inode β := { f with synced := f.data.length }

@[simp] theorem sync_data (f : Inode β) : f.sync.data = f.data := rfl

@[simp] theorem sync_synced (f : Inode β) : f.sync.synced = f.data.length := rfl

variable [Zero β]

/-- `ftruncate`: cut, or fill with zeros. -/
def setLen (f : Inode β) (n : ℕ) : Inode β :=
  ⟨f.data.take n ++ List.replicate (n - f.data.length) 0, min f.synced n⟩

/-- Bytes written at a position. -/
def writeAt (f : Inode β) (position : ℕ) (bytes : List β) : Inode β :=
  ⟨(f.setLen position).data ++ bytes ++ f.data.drop (position + bytes.length), min f.synced position⟩

/-- A power loss; `lost` says which bytes that are not durable become zero. -/
def crash (f : Inode β) (lost : ℕ → Bool) : Inode β :=
  { f with data := f.data.mapIdx fun i b => if f.synced ≤ i ∧ lost i then 0 else b }

@[simp] theorem setLen_data_of_le {f : Inode β} {n : ℕ} (h : n ≤ f.data.length) :
    (f.setLen n).data = f.data.take n := by
  simp [setLen, Nat.sub_eq_zero_of_le h]

@[simp] theorem length_setLen_data (f : Inode β) (n : ℕ) : (f.setLen n).data.length = n := by
  simp only [setLen, List.length_append, List.length_take, List.length_replicate]
  omega

@[simp] theorem setLen_synced (f : Inode β) (n : ℕ) : (f.setLen n).synced = min f.synced n := rfl

/-- A write at the end appends. -/
@[simp] theorem writeAt_length_data (f : Inode β) (bytes : List β) :
    (f.writeAt f.data.length bytes).data = f.data ++ bytes := by
  simp [writeAt, setLen]

@[simp] theorem writeAt_synced (f : Inode β) (position : ℕ) (bytes : List β) :
    (f.writeAt position bytes).synced = min f.synced position := rfl

@[simp] theorem crash_synced (f : Inode β) (lost : ℕ → Bool) : (f.crash lost).synced = f.synced := rfl

@[simp] theorem length_crash_data (f : Inode β) (lost : ℕ → Bool) :
    (f.crash lost).data.length = f.data.length := by
  simp [crash]

/-- **Durable bytes survive.** -/
theorem take_crash_data {f : Inode β} {k : ℕ} (hk : k ≤ f.synced) (lost : ℕ → Bool) :
    (f.crash lost).data.take k = f.data.take k := by
  apply List.ext_getElem
  · simp
  · intro i h₁ h₂
    have hi : i < k := by
      rw [List.length_take] at h₂
      omega
    simp [crash, Nat.not_le.mpr (Nat.lt_of_lt_of_le hi hk)]

/-- After a power loss a file holds what it held, or a zero. -/
theorem crash_data_eq_or (f : Inode β) (lost : ℕ → Bool) :
    (f.crash lost).data = f.data ∨ 0 ∈ (f.crash lost).data := by
  by_cases h : ∃ i, i < f.data.length ∧ f.synced ≤ i ∧ lost i = true
  · obtain ⟨i, hi, hs, hl⟩ := h
    refine Or.inr (List.mem_iff_getElem.mpr ⟨i, by simpa using hi, ?_⟩)
    simp [crash, hs, hl]
  · refine Or.inl (List.ext_getElem (by simp) fun i h₁ h₂ => ?_)
    have hn : ¬(f.synced ≤ i ∧ lost i = true) := fun hc => h ⟨i, h₂, hc⟩
    simp [crash, hn]

end Inode

/-- A disk. -/
structure Disk (P β : Type) where
  /-- Which inode a name stands for. -/
  dir : P → Option ℕ
  /-- What the inodes hold. -/
  inode : ℕ → Inode β
  /-- The next inode to be made. -/
  next : ℕ
  /-- A name stands for an inode that has been made. -/
  dir_lt : ∀ p i, dir p = some i → i < next
  /-- An inode has at most one name. -/
  dir_inj : ∀ p q i, dir p = some i → dir q = some i → p = q

namespace Disk

variable {P β : Type}

/-- A disk without files. -/
def empty : Disk P β where
  dir _ := none
  inode _ := ⟨[], 0⟩
  next := 0
  dir_lt _ _ h := nomatch h
  dir_inj _ _ _ h := nomatch h

/-- The file of a name. -/
def file (d : Disk P β) (p : P) : Option (Inode β) := (d.dir p).map d.inode

/-- Two disks have the same inode under a name, and it holds the same. -/
def Agree (d d' : Disk P β) (p : P) : Prop := d'.dir p = d.dir p ∧ d'.file p = d.file p

theorem Agree.refl (d : Disk P β) (p : P) : Agree d d p := ⟨rfl, rfl⟩

theorem Agree.trans {d d' d'' : Disk P β} {p : P} (h : Agree d d' p) (h' : Agree d' d'' p) : Agree d d'' p :=
  ⟨h'.1.trans h.1, h'.2.trans h.2⟩

theorem file_of_dir {d : Disk P β} {p : P} {i : ℕ} (h : d.dir p = some i) : d.file p = some (d.inode i) := by
  rw [file, h, Option.map_some]

theorem file_eq_none {d : Disk P β} {p : P} : d.file p = none ↔ d.dir p = none := by
  simp [file]

/-- Change what one inode holds. -/
def update (d : Disk P β) (i : ℕ) (f : Inode β → Inode β) : Disk P β :=
  { d with inode := fun j => if j = i then f (d.inode i) else d.inode j }

@[simp] theorem dir_update (d : Disk P β) (i : ℕ) (f : Inode β → Inode β) : (d.update i f).dir = d.dir := rfl

@[simp] theorem inode_update_self (d : Disk P β) (i : ℕ) (f : Inode β → Inode β) :
    (d.update i f).inode i = f (d.inode i) := if_pos rfl

theorem file_update_of_dir {d : Disk P β} {p : P} {i : ℕ} (h : d.dir p = some i) (f : Inode β → Inode β) :
    (d.update i f).file p = some (f (d.inode i)) := by
  rw [file_of_dir (i := i) (by exact h), inode_update_self]

theorem file_update_of_ne {d : Disk P β} {p : P} {i : ℕ} (h : d.dir p ≠ some i) (f : Inode β → Inode β) :
    (d.update i f).file p = d.file p := by
  unfold file
  rw [dir_update]
  cases hp : d.dir p with
  | none => rfl
  | some j => exact congrArg some (if_neg fun hj : j = i => h (hj ▸ hp))

theorem agree_update {d : Disk P β} {p : P} {i : ℕ} (h : d.dir p ≠ some i) (f : Inode β → Inode β) :
    Agree d (d.update i f) p :=
  ⟨rfl, file_update_of_ne h f⟩

/-- A power loss. -/
def crash [Zero β] (d : Disk P β) (lost : ℕ → ℕ → Bool) : Disk P β :=
  { d with inode := fun i => (d.inode i).crash (lost i) }

/-- A file after a power loss. -/
theorem file_of_crash [Zero β] {d : Disk P β} {lost : ℕ → ℕ → Bool} {p : P} {f : Inode β}
    (h : (d.crash lost).file p = some f) : ∃ g lost, d.file p = some g ∧ f = g.crash lost := by
  obtain ⟨i, hi, rfl⟩ := Option.map_eq_some_iff.mp h
  exact ⟨d.inode i, lost i, file_of_dir hi, rfl⟩

variable [DecidableEq P]

/-- The inode of a name, made if there is none. -/
def touch (d : Disk P β) (p : P) : Disk P β × ℕ :=
  match h : d.dir p with
  | some i => (d, i)
  | none =>
    ({ dir := fun q => if q = p then some d.next else d.dir q
       inode := fun j => if j = d.next then ⟨[], 0⟩ else d.inode j
       next := d.next + 1
       dir_lt := by
         intro q i hq
         split at hq
         · cases hq
           omega
         · exact Nat.lt_succ_of_lt (d.dir_lt q i hq)
       dir_inj := by
         intro q r i hq hr
         have hlt := d.dir_lt
         split at hq <;> split at hr
         · exact ‹q = p›.trans ‹r = p›.symm
         · cases hq
           exact absurd (hlt r _ hr) (Nat.lt_irrefl _)
         · cases hr
           exact absurd (hlt q _ hq) (Nat.lt_irrefl _)
         · exact d.dir_inj q r i hq hr }, d.next)

/-- A name taken away. -/
def remove (d : Disk P β) (p : P) : Disk P β :=
  { d with
    dir := fun q => if q = p then none else d.dir q
    dir_lt := fun q i hq => by
      split at hq
      · cases hq
      · exact d.dir_lt q i hq
    dir_inj := fun q r i hq hr => by
      split at hq <;> split at hr
      · exact ‹q = p›.trans ‹r = p›.symm
      · cases hq
      · cases hr
      · exact d.dir_inj q r i hq hr }

/-- `rename`: the inode of `p` is the one of `q` from now on, and loses its old name. -/
def rename (d : Disk P β) (p q : P) : Disk P β :=
  { d with
    dir := fun r => if r = q then d.dir p else if r = p then none else d.dir r
    dir_lt := fun r i hr => by
      split_ifs at hr
      · exact d.dir_lt p i hr
      · exact d.dir_lt r i hr
    dir_inj := fun r s i hr hs => by
      split_ifs at hr hs with h₁ h₂ h₃ h₄ h₅ h₆
      · exact h₁.trans h₂.symm
      · exact absurd (d.dir_inj s p i hs hr) h₃
      · exact absurd (d.dir_inj r p i hr hs) h₄
      · exact d.dir_inj r s i hr hs }

/-- A file made, or emptied, and written. -/
def put (d : Disk P β) (p : P) (bytes : List β) : Disk P β :=
  (d.touch p).1.update (d.touch p).2 fun _ => ⟨bytes, 0⟩

@[simp] theorem dir_touch_self (d : Disk P β) (p : P) : (d.touch p).1.dir p = some (d.touch p).2 := by
  unfold touch
  split
  · assumption
  · simp

/-- What `open` finds: the file there was, or an empty one. -/
theorem inode_touch (d : Disk P β) (p : P) : (d.touch p).1.inode (d.touch p).2 = (d.file p).getD ⟨[], 0⟩ := by
  unfold touch
  split
  · next i hi => rw [file_of_dir hi, Option.getD_some]
  · next hn => simp [file_eq_none.mpr hn]

theorem agree_touch {d : Disk P β} {p q : P} (h : q ≠ p) : Agree d (d.touch p).1 q := by
  unfold touch
  split
  · exact .refl d q
  · refine ⟨if_neg h, ?_⟩
    simp only [file, if_neg h]
    cases hq : d.dir q with
    | none => rfl
    | some j => exact congrArg some (if_neg (Nat.ne_of_lt (d.dir_lt q j hq)))

theorem agree_put {d : Disk P β} {p q : P} (h : q ≠ p) (bytes : List β) : Agree d (d.put p bytes) q := by
  refine (agree_touch h).trans (agree_update (fun hq => h ?_) _)
  exact (d.touch p).1.dir_inj q p _ hq (dir_touch_self d p)

@[simp] theorem file_put_self (d : Disk P β) (p : P) (bytes : List β) : (d.put p bytes).file p = some ⟨bytes, 0⟩ :=
  file_update_of_dir (dir_touch_self d p) _

theorem agree_remove {d : Disk P β} {p q : P} (h : q ≠ p) : Agree d (d.remove p) q :=
  ⟨if_neg h, by simp only [file, remove, if_neg h]⟩

@[simp] theorem file_remove_self (d : Disk P β) (p : P) : (d.remove p).file p = none :=
  file_eq_none.mpr (if_pos rfl)

theorem agree_rename {d : Disk P β} {p q r : P} (hp : r ≠ p) (hq : r ≠ q) : Agree d (d.rename p q) r := by
  have h : (d.rename p q).dir r = d.dir r := by simp [rename, hp, hq]
  exact ⟨h, by simp only [file, h]; rfl⟩

@[simp] theorem dir_rename_target (d : Disk P β) (p q : P) : (d.rename p q).dir q = d.dir p := if_pos rfl

@[simp] theorem file_rename_target (d : Disk P β) (p q : P) : (d.rename p q).file q = d.file p := by
  simp only [file, dir_rename_target]
  rfl

theorem file_rename_source {d : Disk P β} {p q : P} (h : p ≠ q) : (d.rename p q).file p = none :=
  file_eq_none.mpr (by simp [rename, h])

end Disk

/-! ### Operations -/

/-- The operations of a file API. An open file is known by its inode; the position in it is
the caller's. -/
inductive FileOp (P β : Type) where
  /-- The length of a file. -/
  | metadata (p : P)
  /-- The content of a file. -/
  | read (p : P)
  /-- A directory, and those above it. -/
  | createDirAll (p : P)
  /-- Open a file for reading and writing; it is made if missing, and not truncated. -/
  | openFile (p : P)
  /-- Cut an open file, or fill it with zeros. -/
  | setLen (file : ℕ) (n : ℕ)
  /-- Move to a position. -/
  | seek (file : ℕ) (position : ℕ)
  /-- Write at a position. -/
  | writeAll (file : ℕ) (position : ℕ) (bytes : List β)
  /-- The position, once what has been written has reached the file. -/
  | streamPosition (file : ℕ)
  /-- `fdatasync`. -/
  | syncData (file : ℕ)
  /-- `fsync`. -/
  | syncAll (file : ℕ)
  /-- Make or empty a file, and write to it. -/
  | write (p : P) (bytes : List β)
  /-- Move a name onto another. -/
  | rename (p q : P)
  /-- Remove a name. -/
  | removeFile (p : P)

/-- An operation that fails. -/
structure Fault (ε : Type) where
  /-- The error. -/
  error : ε
  /-- How much of a write happened, if any of it did. -/
  written : Option ℕ

namespace FileOp

variable {P β ε : Type}

/-- What an operation gives when it succeeds. -/
@[reducible] def Value : FileOp P β → Type
  | metadata _ | openFile _ => ℕ
  | read _ => List β
  | _ => Unit

/-- What a failed operation leaves behind, when it has written that much. -/
def damage [DecidableEq P] [Zero β] (d : Disk P β) : (written : Option ℕ) → FileOp P β → Disk P β
  | some n, writeAll file position bytes => d.update file (·.writeAt position (bytes.take n))
  | some n, write p bytes => d.put p (bytes.take n)
  | _, _ => d

theorem damage_none [DecidableEq P] [Zero β] (d : Disk P β) (op : FileOp P β) : damage d none op = d := by
  cases op <;> rfl

/-- What an operation does when nothing interferes; `missing` is the error for a path that
names no file. -/
def effect [DecidableEq P] [Zero β] (missing : ε) (d : Disk P β) : (op : FileOp P β) → Except ε op.Value × Disk P β
  | metadata p =>
    match d.file p with
    | some f => (.ok f.data.length, d)
    | none => (.error missing, d)
  | read p =>
    match d.file p with
    | some f => (.ok f.data, d)
    | none => (.error missing, d)
  | createDirAll _ | seek _ _ | streamPosition _ => (.ok (), d)
  | openFile p => (.ok (d.touch p).2, (d.touch p).1)
  | setLen file n => (.ok (), d.update file (·.setLen n))
  | writeAll file position bytes => (.ok (), d.update file (·.writeAt position bytes))
  | syncData file | syncAll file => (.ok (), d.update file .sync)
  | write p bytes => (.ok (), d.put p bytes)
  | rename p q =>
    match d.dir p with
    | some _ => (.ok (), d.rename p q)
    | none => (.error missing, d)
  | removeFile p =>
    match d.dir p with
    | some _ => (.ok (), d.remove p)
    | none => (.error missing, d)

/-- An operation, with the fault the environment wants. -/
def perform [DecidableEq P] [Zero β] (missing : ε) (d : Disk P β) (fault : Option (Fault ε)) (op : FileOp P β) :
    Except ε op.Value × Disk P β :=
  match fault with
  | none => op.effect missing d
  | some fault => (.error fault.error, damage d fault.written op)

/-- The names an operation is given. -/
def paths : FileOp P β → List P
  | metadata p | read p | createDirAll p | openFile p | write p _ | removeFile p => [p]
  | rename p q => [p, q]
  | _ => []

/-- What an operation may change: the files it names, and the one behind an open file. -/
def Modifies (d : Disk P β) (p : P) : FileOp P β → Prop
  | openFile q | write q _ | removeFile q => p = q
  | rename q r => p = q ∨ p = r
  | setLen file _ | writeAll file _ _ | syncData file | syncAll file => d.dir p = some file
  | metadata _ | read _ | createDirAll _ | seek _ _ | streamPosition _ => False

variable [DecidableEq P] [Zero β]

/-- **The frame**: every other name keeps its inode, and the inode what it holds. -/
theorem frame {missing : ε} {d : Disk P β} {fault : Option (Fault ε)} {op : FileOp P β} {p : P}
    (h : ¬op.Modifies d p) : d.Agree (op.perform missing d fault).2 p := by
  cases fault with
  | none =>
    cases op with
    | metadata q | read q =>
      simp only [perform, effect]
      split <;> exact .refl d p
    | createDirAll | seek | streamPosition => exact .refl d p
    | openFile q => exact Disk.agree_touch h
    | setLen | writeAll | syncData | syncAll => exact Disk.agree_update h _
    | write q bytes => exact Disk.agree_put h bytes
    | rename q r =>
      simp only [perform, effect]
      split
      · exact Disk.agree_rename (fun hq => h (.inl hq)) (fun hr => h (.inr hr))
      · exact .refl d p
    | removeFile q =>
      simp only [perform, effect]
      split
      · exact Disk.agree_remove h
      · exact .refl d p
  | some fault =>
    obtain ⟨error, written⟩ := fault
    cases written with
    | none => exact .refl d p
    | some n =>
      cases op with
      | writeAll => exact Disk.agree_update h _
      | write q bytes => exact Disk.agree_put h _
      | _ => exact .refl d p

end FileOp

end FileSystem
