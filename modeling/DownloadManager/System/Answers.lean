import DownloadManager.System.Ending

/-!
# Up to the response, with a server

The same as in `System.Asking`, with what is learned on the way. What a worker reads while its
files are left alone is what was there when it began, whatever else happens to the disk; so when
it gets a response, `Found` and `Answered` hold of the disk it began with (`run_answered`). What
is answered is an answer of the server (`Op.Served`).
-/

namespace DownloadManager

open FileSystem Worker

/-- What is answered is an answer of the server. -/
def Op.Served (server : Server) : (op : Op) → op.Reply → Prop
  | .send httpRequest, .response response => ∃ content, server httpRequest response content
  | _, _ => True

namespace Local

/-- The worker performs an operation, and the server answers. -/
def served (server : Server) (fails : Traffic → FileOp PathBuf UInt8 → Prop) : Program.Env Op Op.Reply Local :=
  fun op l r l' => op.Served server r ∧ env fails op l r l'

/-- Others act, as far as `rely` permits, the worker performs an operation, and the server answers. -/
abbrev online (server : Server) (rely : Local → Local → Prop) (fails : Traffic → FileOp PathBuf UInt8 → Prop) :
    Program.Env Op Op.Reply Local :=
  (served server fails).under rely

variable {server : Server} {rely : Local → Local → Prop} {fails : Traffic → FileOp PathBuf UInt8 → Prop} {op : Op}
  {l l' : Local} {r : op.Reply}

theorem among_of_online (h : online server rely fails op l r l') : among rely fails op l r l' := by
  obtain ⟨l₁, hrely, -, henv⟩ := h
  exact ⟨l₁, hrely, henv⟩

theorem served_of_online (h : online server rely fails op l r l') : op.Served server r := by
  obtain ⟨l₁, -, hserved, -⟩ := h
  exact hserved

end Local

/-- What holds whatever is answered. -/
theorem Steady.online {server : Server} {rely : Local → Local → Prop} {fails : Traffic → FileOp PathBuf UInt8 → Prop}
    {pre : Op → Local → Prop} {B : Local → Prop} {α : Type} {V : α → Prop} {p : Async α} {l : Local}
    (h : Steady rely fails pre B V p) (hl : B l) :
    p.Holds (Local.online server rely fails) pre (fun r l' => B l' ∧ ∀ a, r = .ok a → V a) l :=
  ((h l hl).of_env fun _ _ _ _ => Local.among_of_online).mono fun _ _ h' => ⟨h'.1, h'.2.2⟩

namespace Keeps

section

variable {rely : Local → Local → Prop} {fails : Traffic → FileOp PathBuf UInt8 → Prop} {pre : Op → Local → Prop}
  {allowed : Op → Prop} {B : Local → Prop} {platform : Platform} {request : Request} {l : Local} {disk : Disk}

/-- Two assertions at a time. -/
theorem and {B' : Local → Prop} (hB : Keeps rely fails pre allowed B) (hB' : Keeps rely fails pre allowed B') :
    Keeps rely fails pre allowed fun l => B l ∧ B' l where
  stable h hrely := ⟨hB.stable h.1 hrely, hB'.stable h.2 hrely⟩
  step hop h henv := ⟨hB.step hop h.1 henv, hB'.step hop h.2 henv⟩
  pre hop h := hB.pre hop h.1

variable (hB : Keeps rely fails pre allowed B) (hidle : ∀ op, op.IsIdle → allowed op)
  (hagree : ∀ {l}, B l → ∀ path ∈ ownPaths request.destination, disk.Agree l.disk path)
include hB hidle

/-- A query is about a disk on which the assertion holds. -/
theorem attempt_outcome {op : FileOp PathBuf UInt8} (hop : IsQuery op) :
    Steady rely fails pre B (fun r => ∃ l fault, B l ∧ Outcome l.disk fault op r l.disk) (Fs.attempt op) := by
  intro l h
  refine ⟨hB.pre (hidle (.file op) hop) h, fun r l' henv => ⟨hB.among (hidle (.file op) hop) h henv, nofun, ?_⟩⟩
  intro a ha
  cases ha
  obtain ⟨l₁, fault, disk', hrely, -, -, hout, -⟩ := Local.of_among_file henv
  have hsame := hout.disk_of_isQuery hop
  subst hsame
  exact ⟨l₁, fault, hB.stable h hrely, hout⟩

include hagree

/-- The manifest that is loaded is the one that was there. -/
theorem load_stored :
    Steady rely fails pre B (fun loaded => ∀ m, loaded = some m →
      storedManifest platform.codec request.destination disk = some m)
      (Manifest.load platform.codec request.destination) := by
  refine (hB.attempt_outcome hidle (show IsQuery (.read _) from trivial)).bind fun r hr => ?_
  cases r with
  | error => exact .pure nofun
  | ok bytes =>
    obtain ⟨l₁, fault, h₁, hout⟩ := hr
    obtain ⟨f, hf, rfl⟩ := hout.file_of_read
    refine .pure fun m hm => ?_
    rw [storedManifest, ← (hagree h₁ _ manifest_mem_ownPaths).2, hf]
    exact hm

/-- The length is that of the `.part`, or none. -/
theorem partLen_stored :
    Steady rely fails pre B (fun n => n = 0 ∨ n = (partData request.destination disk).length)
      (DownloadManager.partLen request.destination) := by
  refine (hB.attempt_outcome hidle (show IsQuery (.metadata _) from trivial)).bind fun r hr => ?_
  cases r with
  | ok n =>
    obtain ⟨l₁, fault, h₁, hout⟩ := hr
    refine .pure (hout.length_of_metadata.imp_right fun hlength => ?_)
    obtain ⟨f, hf, rfl⟩ := hlength
    rw [← partData_congr (hagree h₁ _ part_mem_ownPaths), partData_of_file hf]
  | error e =>
    dsimp only
    split_ifs
    · exact .pure (.inl rfl)
    · exact .raise nofun

theorem resumeFrom_found {prior : Option Manifest}
    (hprior : ∀ m, prior = some m → storedManifest platform.codec request.destination disk = some m ∧
      m.isResumableFor request.url) :
    Steady rely fails pre B (Found platform request disk prior) (Worker.resumeFrom request prior) := by
  cases prior with
  | none => exact .pure fun h => absurd h (Nat.lt_irrefl 0)
  | some m =>
    obtain ⟨hstored, hm⟩ := hprior m rfl
    refine (hB.partLen_stored hidle hagree).bind fun n hn => .pure fun hpos => ?_
    obtain ⟨v, hv⟩ := (Manifest.isResumableFor_iff.mp hm).2.2
    refine ⟨m, v, rfl, hstored, hm, hv, ?_⟩
    rcases hn with rfl | rfl
    · simp at hpos
    · rfl

end

section

variable {S : Surroundings} {rely : Local → Local → Prop} {fails : Traffic → FileOp PathBuf UInt8 → Prop}
  {pre : Op → Local → Prop} {allowed : Op → Prop} {B : Local → Prop} {platform : Platform} {request : Request}
  {l : Local} {disk : Disk} (hB : Keeps rely fails pre allowed B) (hidle : ∀ op, op.IsIdle → allowed op)
include hB hidle

/-- A response is the server's answer to one of the two requests. -/
theorem sendGet_answered {offset : ℕ} {prior : Option Manifest} (hfound : Found platform request disk prior offset)
    (h : B l) :
    (Worker.sendGet platform request offset prior).Holds (Local.online S.server rely fails) pre
      (fun r l' => B l' ∧ ∀ response, r = .ok (some response) → l'.traffic.response = some response ∧
        ∃ e, e.response = response ∧ Answered S platform request disk offset e) l := by
  have hpoll : DownloadManager.pollStop.Holds (Local.online S.server rely fails) pre (fun _ l' => B l') l :=
    ((hB.pollStop (hidle .pollStop trivial) h).of_env fun _ _ _ _ => Local.among_of_online).mono fun _ _ h' => h'.1
  refine hpoll.bind ?_ fun e l' h' => ⟨h', nofun⟩
  intro stop l₁ h₁
  split_ifs
  · exact ⟨h₁, nofun⟩
  · split
    · exact ⟨h₁, nofun⟩
    next httpRequest hget =>
    refine ⟨hB.pre (hidle (.send _) trivial) h₁, fun sent l' henv => ?_⟩
    have hamong := Local.among_of_online henv
    have h' := hB.among (hidle (.send httpRequest) trivial) h₁ hamong
    cases sent with
    | stopped | failed => exact ⟨h', nofun⟩
    | response response =>
      obtain ⟨content, hserver⟩ : ∃ content, S.server httpRequest response content := Local.served_of_online henv
      obtain ⟨l₂, -, -, rfl⟩ := Local.of_among_send hamong
      refine ⟨h', fun _ hr => ?_⟩
      cases hr
      refine ⟨rfl, ⟨httpRequest, response, content⟩, rfl, hserver, uriError_of_getRequest hget, ⟨prior, hfound⟩, ?_⟩
      have hprior (hpos : 0 < offset) : ∃ m v, prior = some m ∧ m.validator = some v := by
        obtain ⟨m, v, hm, -, -, hv, -⟩ := hfound hpos
        exact ⟨m, v, hm, hv⟩
      rcases getRequest_cases hprior hget with ⟨-, hown⟩ | ⟨hpos, m, v, hm, hv, hranged⟩
      · exact .inl hown
      · obtain ⟨m', v', hm', hstored, -⟩ := hfound hpos
        cases hm.symm.trans hm'
        exact .inr ⟨hpos, m, v, hstored, hv, hranged⟩

/-- **Up to the response the assertion is kept**, and the response is the server's answer to what was found. -/
theorem run_answered (hagree : ∀ {l}, B l → ∀ path ∈ ownPaths request.destination, disk.Agree l.disk path)
    {post : Result WorkerResult → Local → Prop} (herror : ∀ {e l'}, B l' → post (.error e) l')
    (hstopped : ∀ {l'}, B l' → post (.ok .stopped) l')
    (hreceive : ∀ {offset e l'}, B l' → l'.traffic.response = some e.response →
      Answered S platform request disk offset e →
      (receive platform request offset e.response).Holds (Local.online S.server rely fails) pre post l')
    (h : B l) : (run platform request).Holds (Local.online S.server rely fails) pre post l := by
  refine ((hB.checkDestination hidle).online h).bind ?_ fun e l' h' => herror h'.1
  intro _ l₁ h'
  obtain ⟨h₁, -⟩ := h'
  refine ((hB.load_stored hidle hagree).online h₁).bind ?_ fun e l' h' => herror h'.1
  intro loaded l₂ h'
  obtain ⟨h₂, hloaded⟩ := h'
  have hprior (m : Manifest) (hm : loaded.filter (·.isResumableFor request.url) = some m) :
      storedManifest platform.codec request.destination disk = some m ∧ m.isResumableFor request.url := by
    obtain ⟨hsome, hresumable⟩ := Option.filter_eq_some_iff.mp hm
    exact ⟨hloaded loaded rfl m hsome, hresumable⟩
  refine ((hB.resumeFrom_found hidle hagree hprior).online h₂).bind ?_ fun e l' h' => herror h'.1
  intro offset l₃ h'
  obtain ⟨h₃, hfound⟩ := h'
  have hfound := hfound offset rfl
  refine (hB.sendGet_answered hidle hfound h₃).bind ?_ fun e l' h' => herror h'.1
  intro response l₄ h'
  obtain ⟨h₄, hresponse⟩ := h'
  cases response with
  | none => exact hstopped h₄
  | some response =>
    obtain ⟨hremembered, e, rfl, hanswered⟩ := hresponse response rfl
    dsimp only
    split_ifs
    · -- the whole is asked for
      have hnone : Found platform request disk none 0 := fun hpos => absurd hpos (Nat.lt_irrefl 0)
      refine (hB.sendGet_answered hidle hnone h₄).bind ?_ fun e l' h' => herror h'.1
      intro restarted l₅ h'
      obtain ⟨h₅, hrestarted⟩ := h'
      cases restarted with
      | none => exact hstopped h₅
      | some restarted =>
        obtain ⟨hremembered', e', rfl, hanswered'⟩ := hrestarted restarted rfl
        refine hreceive h₅ hremembered' ⟨hanswered'.server, hanswered'.uri, ⟨_, hfound⟩, .inl ?_⟩
        exact hanswered'.request_eq.resolve_right fun hpos => absurd hpos.1 (Nat.lt_irrefl 0)
    · exact hreceive h₄ hremembered hanswered

end

end Keeps

end DownloadManager
