import DownloadManager.System.Asking

/-!
# What a worker does whatever the others do

Even when nothing on the disk can be relied on, a worker returns `Stopped` only after its
token or the root token was cancelled, never returns `Error::Cancelled`, and, when it must
not overwrite, renames nothing unless it has found nothing at its destination.
-/

namespace DownloadManager

open FileSystem Worker

/-- The files a worker names when it changes the disk, until its transfer is complete. -/
def Op.Prepares (dest : PathBuf) : Op → Prop
  | .file (.openFile path) => path = partPath dest
  | .file (.write path _) => path = tmpPath dest
  | .file (.rename path path') => path = tmpPath dest ∧ path' = manifestPath dest
  | .file (.removeFile _) => False
  | _ => True

/-- And when it is. -/
def Op.Completes (dest : PathBuf) : Op → Prop
  | .file (.rename path path') => path = partPath dest ∧ path' = dest
  | .file (.removeFile path) => path = manifestPath dest
  | _ => False

/-- The files a worker names: those of its destination. -/
def Op.Names (dest : PathBuf) (op : Op) : Prop := op.Prepares dest ∨ op.Completes dest

theorem Op.IsIdle.prepares {op : Op} (h : op.IsIdle) (dest : PathBuf) : op.Prepares dest := by
  cases op with
  | file op => cases op <;> trivial
  | send | pollStop => trivial

section

variable {rely : Local → Local → Prop} {fails : Traffic → FileOp PathBuf UInt8 → Prop} {pre : Op → Local → Prop}
  {B : Local → Prop} {platform : Platform}

namespace Keeps

/-! ### An assertion that every operation of a worker keeps -/

variable {allowed : Op → Prop} {dest : PathBuf} (hB : Keeps rely fails pre allowed B)
  (hallowed : ∀ op, op.Prepares dest → allowed op)
include hB hallowed

theorem save (manifest : Manifest) : Steady rely fails pre B (fun _ => True) (manifest.save platform.codec dest) :=
  (hB.await (hallowed (.file (.write ..)) rfl)).bind fun _ _ => hB.await (hallowed (.file (.rename ..)) ⟨rfl, rfl⟩)

theorem checkpoint {part : PartFile} (hdest : part.dest = dest) :
    Steady rely fails pre B (fun part' => part'.dest = dest) (part.checkpoint platform.codec) := by
  unfold PartFile.checkpoint
  split_ifs
  · exact .pure hdest
  · refine (hB.await (hallowed (.file (.streamPosition _)) trivial)).bind fun _ _ => ?_
    refine (hB.await (hallowed (.file (.syncData _)) trivial)).bind fun _ _ => ?_
    subst hdest
    exact (hB.save hallowed (part.manifest.setContiguous part.position)).bind fun _ _ => .pure rfl

theorem write {part : PartFile} (hdest : part.dest = dest) (bytes : List UInt8) :
    Steady rely fails pre B (fun part' => part'.dest = dest) (part.write platform.codec bytes) := by
  unfold PartFile.write
  refine (hB.await (hallowed (.file (.writeAll ..)) trivial)).bind fun _ _ => ?_
  refine (hB.await (hallowed (.file (.streamPosition _)) trivial)).bind fun _ _ => ?_
  dsimp only
  split_ifs
  · exact hB.checkpoint hallowed hdest
  · exact .pure hdest

theorem finalize (hcompletes : ∀ op, op.Completes dest → allowed op) {part : PartFile} (hdest : part.dest = dest) :
    Steady rely fails pre B (fun _ => True) part.finalize := by
  subst hdest
  refine (hB.await (hallowed (.file (.syncAll _)) trivial)).bind fun _ _ => ?_
  refine (hB.await (hcompletes (.file (.rename ..)) ⟨rfl, rfl⟩)).bind fun _ _ => ?_
  exact (hB.attempt (hcompletes (.file (.removeFile _)) rfl)).bind fun _ _ => .pure trivial

theorem openPart (start : ℕ) (manifest : Manifest) :
    Steady rely fails pre B (fun part => part.dest = dest) (PartFile.open dest start manifest) := by
  have hparent : Steady rely fails pre B (fun _ => True) (PartFile.createParent dest) := by
    unfold PartFile.createParent
    split
    · exact hB.await (hallowed (.file (.createDirAll _)) trivial)
    · exact .pure trivial
  refine hparent.bind fun _ _ => (hB.await (hallowed (.file (.openFile _)) rfl)).bind fun file _ => ?_
  refine (hB.await (hallowed (.file (.setLen ..)) trivial)).bind fun _ _ => ?_
  exact (hB.await (hallowed (.file (.seek ..)) trivial)).bind fun _ _ => .pure rfl

/-- The transfer loop; its end is left to be shown. -/
theorem transfer {post : Result WorkerResult → Local → Prop}
    (herror : ∀ {e l'}, e ≠ .cancelled → B l' → post (.error e) l')
    (hstopped : ∀ {l'}, l'.cancelled = true → B l' → post (.ok .stopped) l')
    (hfinalize : ∀ {part : PartFile} {n l'}, part.dest = dest → B l' →
      part.finalize.Holds (Local.among rely fails) pre (fun r => post (r.map fun path => .finished ⟨path, n⟩)) l')
    (hcancelled : Keeps rely fails pre allowed fun l => B l ∧ l.cancelled = true)
    {bodyError : Option String} {part : PartFile} {progress : Progress} {chunks : List Chunk} {l : Local} (h : B l)
    (hdest : part.dest = dest) :
    (transfer platform bodyError part progress chunks).Holds (Local.among rely fails) pre post l := by
  have hpoll : allowed .pollStop := hallowed .pollStop trivial
  refine transfer_rule (F := fun part _ _ l => B l ∧ part.dest = dest) (fun h => hB.pre hpoll h.1) ?_ ?_ ?_ ?_ ⟨h, hdest⟩
  · intro part progress chunks l l' h' henv
    obtain ⟨h, hdest⟩ := h'
    have h' := hB.among hpoll h henv
    obtain ⟨l₁, -, hstop, rfl⟩ := Local.of_among_pollStop henv
    refine (hcancelled.checkpoint hallowed hdest _ ⟨h', hstop.symm⟩).mono ?_
    rintro (e | part') l₂ ⟨⟨h₂, hc⟩, hr, -⟩
    · exact herror (by simpa using hr) h₂
    · exact hstopped hc h₂
  · intro part progress chunk chunks l l' h' henv
    obtain ⟨h, hdest⟩ := h'
    refine (hB.write hallowed hdest chunk.bytes l' (hB.among hpoll h henv)).mono ?_
    rintro (e | part') l₂ ⟨h₂, hr, hdest'⟩
    · exact herror (by simpa using hr) h₂
    · exact ⟨h₂, hdest' _ rfl⟩
  · intro part progress l l' error h' henv _
    obtain ⟨h, hdest⟩ := h'
    refine (hB.checkpoint hallowed hdest l' (hB.among hpoll h henv)).mono ?_
    intro r l₂ h'
    obtain ⟨h₂, -⟩ := h'
    exact herror (by simp) h₂
  · intro part progress l l' h' henv _
    obtain ⟨h, hdest⟩ := h'
    exact hfinalize hdest (hB.among hpoll h henv)

end Keeps

end

/-! ### The check of the destination -/

/-- A worker that must not overwrite has found nothing at its destination. -/
def Checked (request : Request) (l : Local) : Prop := request.config.overwrite = false → l.traffic.found = some false

/-- What can be said of every operation of a worker: it is the check, or it comes after it; and it names no other
file than the worker's. -/
structure Op.Warranted (request : Request) (op : Op) (l : Local) : Prop where
  /-- It comes after the check. -/
  checked : op = .file (.metadata request.destination) ∧ l.traffic.found = none ∨ Checked request l
  /-- What it names. -/
  names : op.Names request.destination

/-- What can be said of every result of a worker. -/
structure Regardless (request : Request) (r : Result WorkerResult) (l : Local) : Prop where
  /-- It is not cancelled. -/
  ne_cancelled : r ≠ .error .cancelled
  /-- It stops when it is told to. -/
  stopped : r = .ok .stopped → l.cancelled = true
  /-- It does not overwrite what it has found. -/
  found : request.config.overwrite = false → l.traffic.found = some true → r = .error (.fileExists request.destination)

section

variable {fails : Traffic → FileOp PathBuf UInt8 → Prop} {platform : Platform} {request : Request} {l l' : Local}

theorem Traffic.found_after {traffic : Traffic} {disk : Disk} {op : Op} {r : op.Reply} {b : Bool}
    (h : traffic.found = some b) : (traffic.after disk op r).found = some b := by
  unfold Traffic.after
  split <;> simp [h]

theorem Local.env_traffic {op : Op} {r : op.Reply} (h : Local.env fails op l r l') :
    l'.traffic = l.traffic.after l.disk op r ∧ l'.cancelled = l.cancelled := by
  obtain ⟨choice, -, hperform⟩ := h
  obtain ⟨-, disk', -, rfl⟩ := Local.perform_eq hperform
  exact ⟨rfl, rfl⟩

theorem Checked.keeps :
    Keeps (Undisturbed []) fails (Op.Warranted request) (Op.Names request.destination) (Checked request) where
  stable h hrely := fun ho => hrely.traffic ▸ h ho
  step _ h henv := fun ho => by rw [(Local.env_traffic henv).1]; exact Traffic.found_after (h ho)
  pre hop h := ⟨.inr h, hop⟩

theorem Checked.keeps_cancelled :
    Keeps (Undisturbed []) fails (Op.Warranted request) (Op.Names request.destination) fun l => Checked request l ∧ l.cancelled = true where
  stable h hrely := ⟨fun ho => hrely.traffic ▸ h.1 ho, hrely.cancelled h.2⟩
  step hop h henv := ⟨Checked.keeps.step hop h.1 henv, (Local.env_traffic henv).2.trans h.2⟩
  pre hop h := ⟨.inr h.1, hop⟩

theorem Checked.regardless {r : Result WorkerResult} (h : Checked request l) (hr : r ≠ .error .cancelled)
    (hstopped : r = .ok .stopped → l.cancelled = true) : Regardless request r l :=
  ⟨hr, hstopped, fun ho hf => by cases (h ho).symm.trans hf⟩

/-- **Whatever the others do.** -/
theorem Worker.run_regardless {l : Local} (h : l.traffic.found = none) :
    (run platform request).Holds (Local.among (Undisturbed []) fails) (Op.Warranted request) (Regardless request) l := by
  refine Program.Holds.bind (Q := fun r l' => (∀ a, r = .ok a → Checked request l') ∧
    ∀ e, r = .error e → Regardless request (.error e) l') ?_ ?_ fun e l' h' => h'.2 e rfl
  · refine Program.Holds.bind (Q := fun r l' => ∃ found, r = .ok found ∧ l'.traffic.found = some found.isOk) ?_ ?_ ?_
    · refine Local.holds_attempt ⟨.inl ⟨rfl, h⟩, .inl trivial⟩ fun l₁ fault r disk' hrely _ _ _ => ⟨r, rfl, ?_⟩
      simp [Local.performed, Traffic.after, hrely.traffic, h]
    · intro found l' h'
      obtain ⟨_, hfound, hl'⟩ := h'
      cases hfound
      cases found with
      | ok n =>
        dsimp only
        split_ifs with ho
        · exact ⟨nofun, fun e he => by cases he; exact ⟨by simp, by simp, fun _ _ => rfl⟩⟩
        · exact ⟨fun _ _ h => absurd h (by simpa using ho), nofun⟩
      | error error =>
        dsimp only
        split_ifs
        · exact ⟨nofun, fun e he => by
            cases he
            exact ⟨by simp, by simp, fun _ hf => by simp [hl', Except.isOk, Except.toBool] at hf⟩⟩
        · exact ⟨fun _ _ _ => hl', nofun⟩
    · intro e l' h'
      obtain ⟨_, he, -⟩ := h'
      cases he
  intro _ l₁ h'
  obtain ⟨h₁, -⟩ := h'
  have hB : Keeps (Undisturbed []) fails _ _ (Checked request) := Checked.keeps
  have herror : ∀ {e l'}, e ≠ .cancelled → Checked request l' → Regardless request (.error e) l' :=
    fun he h' => h'.regardless (by simpa using he) (by simp)
  have hstopped : ∀ {l'}, l'.cancelled = true → Checked request l' → Regardless request (.ok .stopped) l' :=
    fun hc h' => h'.regardless (by simp) fun _ => hc
  have hidle : ∀ op : Op, op.IsIdle → op.Names request.destination := fun op hop => .inl (hop.prepares _)
  refine (hB.load hidle l₁ (h₁ () rfl)).bind ?_ fun e l' h' => herror (by simpa using h'.2.1) h'.1
  intro loaded l₂ h'
  obtain ⟨h₂, -⟩ := h'
  refine hB.resume hidle herror hstopped (fun h₃ _ => ?_) h₂
  refine receive_holds (fun e he => herror he h₃) fun start total _ _ _ => ?_
  refine (hB.openPart (fun _ => .inl) start _ _ h₃).bind ?_ fun e l' h' => herror (by simpa using h'.2.1) h'.1
  intro part l₄ h'
  obtain ⟨h₄, -, hdest⟩ := h'
  refine hB.transfer (fun _ => .inl) herror hstopped (fun hdest h' => ?_) Checked.keeps_cancelled h₄ (hdest part rfl)
  refine (hB.finalize (fun _ => .inl) (fun _ => .inr) hdest _ h').mono ?_
  rintro (e | path) l₅ ⟨h₅, hr, -⟩
  · exact herror (by simpa using hr) h₅
  · exact h₅.regardless (by simp [Except.map]) (by simp [Except.map])

end

end DownloadManager
