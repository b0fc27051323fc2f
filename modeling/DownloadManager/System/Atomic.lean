import DownloadManager.System.Ending

/-!
# The destination changes atomically

A worker changes its destination once, at the end, when it renames the `.part` to it. Before
that every operation leaves the destination alone, since the files next to it have other names
(`Op.Confined.agree_dest`), and the only one that comes after removes the manifest. So an
attempt that is killed, fails or is stopped leaves what was there, or the whole `.part` of a body
that has ended (`run_atomic`).
-/

namespace DownloadManager

open FileSystem Worker

/-- The destination has been replaced by the whole `.part` of an attempt whose body has ended. -/
def Replaced (dest : PathBuf) (l : Local) : Prop :=
  ∃ x, l.traffic.transfer = some x ∧ x.response.bodyError = none ∧ x.received = x.response.bytes ∧
    (l.disk.file dest).map Inode.data = some x.data

/-- An operation of an attempt that found the destination as it is on `disk`. -/
structure Op.Atomic (dest : PathBuf) (disk : Disk) (op : Op) (l : Local) : Prop where
  /-- The destination is what it was, or has been replaced. -/
  standing : disk.Agree l.disk dest ∨ Replaced dest l
  /-- The operation leaves it alone, or replaces it by the `.part`. -/
  step : ∀ r l', Local.among (Undisturbed (ownPaths dest)) (fun _ _ => True) op l r l' →
    l.disk.Agree l'.disk dest ∨ disk.Agree l.disk dest ∧ op = .file (.rename (partPath dest) dest) ∧
      l'.disk.file dest = l.disk.file (partPath dest) ∧ Replaced dest l'

variable {platform : Platform} {request : Request} {dest : PathBuf} {disk : Disk} {l l' : Local}

/-- Any operation may fail. -/
abbrev anyFails : Traffic → FileOp PathBuf UInt8 → Prop := fun _ _ => True

/-- **An operation before the last ones** leaves the destination alone. -/
theorem Op.Confined.agree_dest {op : Op} {r : op.Reply} (hfile : dest.IsFile) (h : op.Confined dest l)
    (hprepares : op.Prepares dest) (henv : Local.among (Undisturbed (ownPaths dest)) anyFails op l r l') :
    l.disk.Agree l'.disk dest := by
  cases op with
  | file op =>
    obtain ⟨l₁, fault, disk', hrely, -, -, hout, rfl⟩ := Local.of_among_file henv
    refine (hrely.agree _ dest_mem_ownPaths).trans (hout.agree fun hmodifies => ?_)
    rcases (h.stable hrely).modifies hmodifies with hmem | ⟨-, rfl⟩
    · simp only [sidecars, List.mem_cons, List.not_mem_nil, or_false] at hmem
      rcases hmem with hp | hp | hp
      · exact dest_ne_partPath hfile hp
      · exact dest_ne_manifestPath hfile hp
      · exact dest_ne_tmpPath hfile hp
    · exact dest_ne_manifestPath hfile hprepares.2
  | send =>
    obtain ⟨l₁, hrely, -, rfl⟩ := Local.of_among_send henv
    exact hrely.agree _ dest_mem_ownPaths
  | pollStop =>
    obtain ⟨l₁, hrely, -, rfl⟩ := Local.of_among_pollStop henv
    exact hrely.agree _ dest_mem_ownPaths

/-- A piece of an attempt that is confined and comes before the last operations. -/
theorem atomic_of_confined {α : Type} {p : Async α} {post : Result α → Local → Prop} (hfile : dest.IsFile)
    (hconfined : p.Holds (Local.among (Undisturbed (ownPaths dest)) anyFails) (Op.Confined dest) post l)
    (hprepares : p.Holds (Local.among (Undisturbed (ownPaths dest)) anyFails) (fun op _ => op.Prepares dest)
      (fun _ _ => True) l)
    (hl : disk.Agree l.disk dest) :
    p.Holds (Local.among (Undisturbed (ownPaths dest)) anyFails) (Op.Atomic dest disk)
      (fun r l' => post r l' ∧ disk.Agree l'.disk dest) l := by
  have hboth := (hconfined.and hprepares).keep (I := fun l => disk.Agree l.disk dest)
    (fun hpre hI henv => hI.trans (hpre.1.agree_dest hfile hpre.2 henv)) hl
  refine (hboth.mono fun r l' h => ⟨h.1.1, h.2⟩).mono_pre fun op l h => ?_
  exact ⟨.inl h.2, fun r l' henv => .inl (h.1.1.agree_dest hfile h.1.2 henv)⟩

/-- A file operation that leaves the destination alone. -/
theorem atomic_await (op : FileOp PathBuf UInt8) {V : Result op.Value → Local → Prop} (hl : disk.Agree l.disk dest)
    (h : ∀ l₁ fault r disk', Undisturbed (ownPaths dest) l l₁ → Outcome l₁.disk fault op r disk' →
      l₁.disk.Agree disk' dest ∧ V (r.mapError .io) (l₁.performed (.file op) r disk')) :
    (Fs.await op).Holds (Local.among (Undisturbed (ownPaths dest)) anyFails) (Op.Atomic dest disk)
      (fun r l' => disk.Agree l'.disk dest ∧ V r l') l := by
  refine Local.holds_await ⟨.inl hl, fun r l' henv => .inl ?_⟩ fun l₁ fault r disk' hrely _ _ hout => ?_
  · obtain ⟨l₁, fault, disk', hrely, -, -, hout, rfl⟩ := Local.of_among_file henv
    exact (hrely.agree _ dest_mem_ownPaths).trans (h l₁ fault r disk' hrely hout).1
  · obtain ⟨hagree, hV⟩ := h l₁ fault r disk' hrely hout
    exact ⟨(hl.trans (hrely.agree _ dest_mem_ownPaths)).trans hagree, hV⟩

/-- The `.part` is opened. -/
theorem atomic_open (start : ℕ) (manifest : Manifest) (hl : disk.Agree l.disk dest) :
    (PartFile.open dest start manifest).Holds (Local.among (Undisturbed (ownPaths dest)) anyFails)
      (Op.Atomic dest disk) (fun _ l' => disk.Agree l'.disk dest) l := by
  have hquery {op : FileOp PathBuf UInt8} {l : Local} (hop : IsQuery op) (hl : disk.Agree l.disk dest) :
      (Fs.await op).Holds (Local.among (Undisturbed (ownPaths dest)) anyFails) (Op.Atomic dest disk)
        (fun _ l' => disk.Agree l'.disk dest ∧ True) l :=
    atomic_await op (V := fun _ _ => True) hl fun l₁ _ _ disk' _ hout =>
      ⟨by rw [hout.disk_of_isQuery hop]; exact .refl _ dest, trivial⟩
  unfold PartFile.open
  refine Program.Holds.bind (Q := fun _ l' => disk.Agree l'.disk dest ∧ True) ?_ ?_ fun _ _ h => h.1
  · unfold PartFile.createParent
    split
    · exact hquery trivial hl
    · exact ⟨hl, trivial⟩
  intro _ l₁ h'
  obtain ⟨h₁, -⟩ := h'
  refine Program.Holds.bind (Q := fun r l' => disk.Agree l'.disk dest ∧ ∀ file, r = .ok file → dest.IsFile ∧
    l'.disk.dir (partPath dest) = some file) ?_ ?_ fun _ _ h => h.1
  · refine atomic_await (.openFile (partPath dest))
      (V := fun r l' => ∀ file, r = .ok file → dest.IsFile ∧ l'.disk.dir (partPath dest) = some file) h₁
      fun l₂ fault r disk' _ hout => ?_
    rcases hout.openFile with ⟨hfile, rfl, rfl⟩ | ⟨⟨e, rfl⟩, rfl⟩
    · have hfile := isFile_partPath.mp hfile
      refine ⟨Disk.agree_touch (dest_ne_partPath hfile), fun file hf => ⟨hfile, ?_⟩⟩
      cases hf
      exact Disk.dir_touch_self ..
    · exact ⟨.refl _ dest, by simp [Except.mapError]⟩
  intro file l₂ h'
  obtain ⟨h₂, hopened⟩ := h'
  obtain ⟨hfile, hdir⟩ := hopened file rfl
  refine Program.Holds.bind (Q := fun _ l' => disk.Agree l'.disk dest ∧ True) ?_ ?_ fun _ _ h => h.1
  · refine atomic_await (.setLen file start) (V := fun _ _ => True) h₂ fun l₃ fault r disk' hrely hout =>
      ⟨hout.agree fun hmodifies => ?_, trivial⟩
    have hdir₃ := (hrely.agree _ part_mem_ownPaths).1.trans hdir
    exact dest_ne_partPath hfile (l₃.disk.dir_inj _ _ _ hmodifies hdir₃)
  intro _ l₃ h'
  obtain ⟨h₃, -⟩ := h'
  exact (hquery (show IsQuery (.seek file start) from trivial) h₃).bind (fun _ _ h => h.1) fun _ _ h => h.1

section

variable {part : PartFile} {x : Transfer}

/-- **The last operations**: the `.part` becomes the destination in one step, or the attempt fails and nothing has
happened. -/
theorem Transferring.finalize_atomic (h : Transferring platform request anyFails part x l)
    (hbody : x.response.bodyError = none) (hreceived : x.received = x.response.bytes)
    (hl : disk.Agree l.disk request.destination) :
    part.finalize.Holds (Local.among (Undisturbed (ownPaths request.destination)) anyFails)
      (Op.Atomic request.destination disk)
      (fun r l' => ∀ e, r = .error e → disk.Agree l'.disk request.destination) l := by
  have hfile := h.isFile
  unfold PartFile.finalize
  refine (atomic_of_confined hfile h.syncAll ⟨trivial, fun _ _ _ => trivial⟩ hl).bind ?_ fun _ _ h' _ _ => h'.2
  intro _ l₁ h'
  obtain ⟨⟨-, h₁, -⟩, hl₁⟩ := h'
  rw [h.filling.dest_eq]
  have hrename {l₂ : Local} {fault : Option (Fault IoError)} {r : Except IoError Unit} {disk' : Disk}
      (hrely : Undisturbed (ownPaths request.destination) l₁ l₂)
      (hout : Outcome l₂.disk fault (.rename (partPath request.destination) request.destination) r disk') :
      r = .ok () ∧ disk'.file request.destination = l₁.disk.file (partPath request.destination) ∧
          Replaced request.destination
            (l₂.performed (.file (.rename (partPath request.destination) request.destination)) r disk') ∨
        (∃ e, r = .error e) ∧ l₁.disk.Agree disk' request.destination := by
    have h₂ := h₁.stable hrely
    rcases h₂.renamed hout with ⟨rfl, -, -, hdest, hdata⟩ | ⟨herror, rfl⟩
    · exact .inl ⟨rfl, hdest.trans (hrely.agree _ part_mem_ownPaths).2, x, h₂.transfer, hbody, hreceived, hdata⟩
    · exact .inr ⟨herror, hrely.agree _ dest_mem_ownPaths⟩
  refine Program.Holds.bind (Q := fun r l' => (r = .ok () → Replaced request.destination l') ∧
    ∀ e, r = .error e → disk.Agree l'.disk request.destination) ?_ ?_ fun e l' h' e' _ => h'.2 e rfl
  · refine Local.holds_await ⟨.inl hl₁, fun r l' henv => ?_⟩ fun l₂ fault r disk' hrely _ _ hout => ?_
    · obtain ⟨l₂, fault, disk', hrely, -, -, hout, rfl⟩ := Local.of_among_file henv
      rcases hrename hrely hout with ⟨-, hdest, hreplaced⟩ | ⟨-, hagree⟩
      · exact .inr ⟨hl₁, rfl, hdest, hreplaced⟩
      · exact .inl hagree
    · rcases hrename hrely hout with ⟨rfl, -, hreplaced⟩ | ⟨⟨e, rfl⟩, hagree⟩
      · exact ⟨fun _ => hreplaced, by simp [Except.mapError]⟩
      · exact ⟨by simp [Except.mapError], fun _ _ => hl₁.trans hagree⟩
  -- what comes after cannot fail any more
  intro _ l₂ h'
  obtain ⟨h₂, -⟩ := h'
  refine Program.Holds.bind (Q := fun r _ => ∃ a, r = .ok a) ?_ (fun _ _ _ => by simp) fun _ _ h' => by simp at h'
  refine Local.holds_attempt ⟨.inr (h₂ rfl), fun r l' henv => .inl ?_⟩ fun _ _ r _ _ _ _ _ => ⟨r, rfl⟩
  obtain ⟨l₃, fault, disk', hrely, -, -, hout, rfl⟩ := Local.of_among_file henv
  exact (hrely.agree _ dest_mem_ownPaths).trans (hout.agree (dest_ne_manifestPath hfile))

/-- The destination is what it was, unless the attempt has finished. -/
def LeftAlone (dest : PathBuf) (disk : Disk) (r : Result WorkerResult) (l : Local) : Prop :=
  (∀ result, r ≠ .ok (.finished result)) → disk.Agree l.disk dest

/-- **The transfer**, and the last operations. -/
theorem Transferring.transfer_atomic (h : Transferring platform request anyFails part x l) {progress : Progress}
    (hreceived : x.received = []) (hl : disk.Agree l.disk request.destination) :
    (Worker.transfer platform x.response.bodyError part progress x.response.body).Holds
      (Local.among (Undisturbed (ownPaths request.destination)) anyFails) (Op.Atomic request.destination disk)
      (LeftAlone request.destination disk) l := by
  obtain ⟨response, retained, received⟩ := x
  obtain rfl : received = [] := hreceived
  have hfile := h.isFile
  have hprepares : Keeps (Undisturbed (ownPaths request.destination)) anyFails
      (fun op _ => op.Prepares request.destination) (Op.Prepares request.destination) fun _ => True :=
    ⟨fun _ _ => trivial, fun _ _ _ => trivial, fun hop _ => hop⟩
  have hconfined (l : Local) : Op.pollStop.Confined request.destination l := ⟨.inl trivial, by simp [Op.inode?]⟩
  have hpoll {l l' : Local} {stop : Bool} (hl : disk.Agree l.disk request.destination)
      (henv : Local.among (Undisturbed (ownPaths request.destination)) anyFails .pollStop l stop l') :
      disk.Agree l'.disk request.destination :=
    hl.trans ((hconfined l).agree_dest hfile trivial henv)
  have hcheckpoint {part : PartFile} {x : Transfer} {l : Local} (h : Transferring platform request anyFails part x l)
      (hl : disk.Agree l.disk request.destination) :
      (part.checkpoint platform.codec).Holds (Local.among (Undisturbed (ownPaths request.destination)) anyFails)
        (Op.Atomic request.destination disk) (fun _ l' => disk.Agree l'.disk request.destination) l :=
    (atomic_of_confined hfile h.checkpoint ((hprepares.checkpoint (fun _ => id) h.filling.dest_eq l trivial).mono
      fun _ _ _ => trivial) hl).mono fun _ _ h => h.2
  refine transfer_rule (F := fun part _ chunks l => ∃ received,
    Transferring platform request anyFails part ⟨response, retained, received⟩ l ∧
      received ++ (chunks.map Chunk.bytes).flatten = response.bytes ∧
      disk.Agree l.disk request.destination) ?_ ?_ ?_ ?_ ?_ ⟨[], h, rfl, hl⟩
  · intro part progress chunks l h'
    obtain ⟨received, -, -, hl⟩ := h'
    exact ⟨.inl hl, fun r l' henv => .inl ((hconfined l).agree_dest hfile trivial henv)⟩
  · intro part progress chunks l l' h' henv
    obtain ⟨received, h, -, hl⟩ := h'
    exact (hcheckpoint (h.polled henv) (hpoll hl henv)).mono fun _ _ h' _ => h'
  · intro part progress chunk chunks l l' h' henv
    obtain ⟨received, h, hrest, hl⟩ := h'
    have h := h.polled henv
    refine (atomic_of_confined hfile (h.write chunk.bytes) ((hprepares.write (fun _ => id) h.filling.dest_eq chunk.bytes
      l' trivial).mono fun _ _ _ => trivial) (hpoll hl henv)).mono ?_
    rintro (e | part') l₂ ⟨⟨hok, -⟩, hl₂⟩
    · exact fun _ => hl₂
    · exact ⟨received ++ chunk.bytes, hok part' rfl, by simpa using hrest, hl₂⟩
  · intro part progress l l' error h' henv _
    obtain ⟨received, h, -, hl⟩ := h'
    exact (hcheckpoint (h.polled henv) (hpoll hl henv)).mono fun _ _ h' _ => h'
  · intro part progress l l' h' henv hbody
    obtain ⟨received, h, hrest, hl⟩ := h'
    refine ((h.polled henv).finalize_atomic hbody (by simpa using hrest) (hpoll hl henv)).mono ?_
    rintro (e | path) l₂ h'
    · exact fun _ => h' e rfl
    · exact fun hr => absurd rfl (hr _)

end

/-- Up to the response nothing happens to the destination. -/
theorem Untouched.keeps_atomic :
    Keeps (Undisturbed (ownPaths request.destination)) anyFails (Op.Atomic request.destination disk) Op.IsIdle
      fun l => Untouched platform request anyFails none l ∧ disk.Agree l.disk request.destination where
  stable h hrely := ⟨Untouched.keeps.stable h.1 hrely, h.2.trans (hrely.agree _ dest_mem_ownPaths)⟩
  step hop h henv := by
    refine ⟨Untouched.keeps.step hop h.1 henv, ?_⟩
    rw [Local.env_idle hop henv]
    exact h.2
  pre hop h := by
    refine ⟨.inl h.2, fun r l' henv => .inl ?_⟩
    obtain ⟨l₁, hrely, henv⟩ := henv
    rw [Local.env_idle hop henv]
    exact hrely.agree _ dest_mem_ownPaths

/-- **The destination changes atomically**, whatever the server answers, whatever fails and whenever the attempt is
stopped or killed, if nobody else touches the files of the download. Before and after every operation the destination
is what it was, or the whole `.part` of a body that has ended; one operation makes it so, by moving the `.part`. An
attempt that fails or is stopped leaves the destination as it was; one that finishes has replaced it, and the `.part`
is gone. -/
theorem Worker.run_atomic (platform : Platform) (request : Request) (disk : Disk) (cancelled : Bool) :
    (run platform request).Holds (Local.among (Undisturbed (ownPaths request.destination)) anyFails)
      (Op.Atomic request.destination disk)
      (fun r l => (∀ result, r = .ok (.finished result) →
          Replaced request.destination l ∧ l.disk.file (partPath request.destination) = none) ∧
        ((r = .ok .stopped ∨ ∃ e, r = .error e) → disk.Agree l.disk request.destination))
      ⟨disk, {}, cancelled⟩ := by
  have huntouched : Untouched platform request anyFails none ⟨disk, {}, cancelled⟩ :=
    ⟨rfl, by simp, fun htidy => absurd trivial (htidy {}).2⟩
  suffices hkept : (run platform request).Holds (Local.among (Undisturbed (ownPaths request.destination)) anyFails)
      (Op.Atomic request.destination disk) (LeftAlone request.destination disk) ⟨disk, {}, cancelled⟩ by
    refine (((run_ended huntouched).and hkept).mono ?_).mono_pre fun _ _ => And.right
    intro r l h'
    obtain ⟨hended, hkept⟩ := h'
    refine ⟨fun result hr => ?_, fun hr => hkept fun result he => ?_⟩
    · obtain ⟨⟨x, total, hx, hbody, hreceived, -, -, hdest⟩, hpart, -⟩ := hended.finished result hr
      exact ⟨⟨x, hx, hbody, hreceived, hdest⟩, hpart⟩
    · rcases hr with rfl | ⟨e, rfl⟩ <;> cases he
  have hB : Keeps _ anyFails _ _ fun l => Untouched platform request anyFails none l ∧
      disk.Agree l.disk request.destination := Untouched.keeps_atomic
  have hidle : ∀ op : Op, op.IsIdle → op.IsIdle := fun _ hop => hop
  refine (hB.checkDestination hidle _ ⟨huntouched, .refl disk _⟩).bind ?_ fun e l' h' _ => h'.1.2
  intro _ l₁ h'
  obtain ⟨h₁, -⟩ := h'
  refine (hB.load hidle l₁ h₁).bind ?_ fun e l' h' _ => h'.1.2
  intro loaded l₂ h'
  obtain ⟨h₂, -⟩ := h'
  refine hB.resume hidle (fun _ h' _ => h'.2) (fun _ h' _ => h'.2) (fun h₃ hresponse => ?_) h₂
  refine receive_holds (fun _ _ _ => h₃.2) fun start total _ _ htotal => ?_
  have hopen := ((h₃.1.openPart hresponse htotal).and (atomic_open start _ h₃.2)).mono_pre fun _ _ => And.right
  refine hopen.bind ?_ fun e l' h' _ => h'.2
  intro part l₄ h'
  obtain ⟨⟨hopened, -⟩, hl₄⟩ := h'
  obtain ⟨retained, rfl, h₄⟩ := hopened part rfl
  exact h₄.transfer_atomic rfl hl₄

end DownloadManager
