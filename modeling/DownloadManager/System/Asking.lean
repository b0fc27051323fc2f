import DownloadManager.System.Interference

/-!
# Up to the response, among others

What a worker does before its transfer are queries and requests. An assertion that
these keep, and that the others keep (`Keeps`), holds until the transfer begins;
`Steady` programs are the pieces that keep it. Their errors are never
`Error::Cancelled`, and only a cancelled token makes them stop.
-/

namespace DownloadManager

open FileSystem Worker

/-- An assertion that the others keep, and the worker with some of its operations; it justifies them. -/
structure Keeps (rely : Local → Local → Prop) (fails : Traffic → FileOp PathBuf UInt8 → Prop) (pre : Op → Local → Prop)
    (allowed : Op → Prop) (B : Local → Prop) : Prop where
  /-- The others. -/
  stable : ∀ {l l'}, B l → rely l l' → B l'
  /-- The worker. -/
  step : ∀ {op l r l'}, allowed op → B l → Local.env fails op l r l' → B l'
  /-- It may do this. -/
  pre : ∀ {op l}, allowed op → B l → pre op l

section

variable {rely : Local → Local → Prop} {fails : Traffic → FileOp PathBuf UInt8 → Prop} {pre : Op → Local → Prop}
  {allowed : Op → Prop} {B : Local → Prop} {platform : Platform} {request : Request} {α β : Type} {l : Local}

/-- An idle operation of a worker. -/
theorem Local.env_idle {op : Op} {r : op.Reply} {l' : Local} (hop : op.IsIdle) (h : Local.env fails op l r l') :
    l' = l.performed op r l.disk := by
  obtain ⟨choice, -, hperform⟩ := h
  cases op with
  | file op =>
    obtain ⟨fault, disk', -, -, hout, rfl⟩ := Local.perform_file hperform
    rw [hout.disk_of_isQuery hop]
  | send request => exact (Local.perform_send hperform).2
  | pollStop => exact (Local.perform_pollStop hperform).2

variable (rely fails pre B) in
/-- A program that keeps the assertion, is not cancelled, and returns a value with a property. -/
def Steady (V : α → Prop) (p : Async α) : Prop :=
  ∀ l, B l → p.Holds (Local.among rely fails) pre (fun r l' => B l' ∧ r ≠ .error .cancelled ∧ ∀ a, r = .ok a → V a) l

namespace Steady

variable {V : α → Prop} {W : β → Prop}

theorem pure {a : α} (ha : V a) : Steady rely fails pre B V (.done (.ok a)) := fun _ h => ⟨h, by simp, by simpa using ha⟩

theorem raise {e : Error} (he : e ≠ .cancelled) : Steady rely fails pre B V (Program.raise e) :=
  fun _ h => ⟨h, by simpa using he, by simp⟩

theorem bind {p : Async α} {f : α → Async β} (hp : Steady rely fails pre B V p)
    (hf : ∀ a, V a → Steady rely fails pre B W (f a)) : Steady rely fails pre B W (p.bind f) :=
  fun l h => (hp l h).bind (fun a l' h' => hf a (h'.2.2 a rfl) l' h'.1) fun _ _ h' => ⟨h'.1, by simpa using h'.2.1, by simp⟩

end Steady

namespace Keeps

variable (hB : Keeps rely fails pre allowed B)
include hB

theorem among {op : Op} {r : op.Reply} {l' : Local}
    (hop : allowed op) (h : B l) (henv : Local.among rely fails op l r l') :
    B l' := by
  obtain ⟨l₁, hrely, henv⟩ := henv
  exact hB.step hop (hB.stable h hrely) henv

theorem await {op : FileOp PathBuf UInt8} (hop : allowed (.file op)) :
    Steady rely fails pre B (fun _ => True) (Fs.await op) :=
  fun l h => ⟨hB.pre hop h, fun r l' henv => ⟨hB.among hop h henv, by cases r <;> simp [Except.mapError], by simp⟩⟩

theorem attempt {op : FileOp PathBuf UInt8} (hop : allowed (.file op)) :
    Steady rely fails pre B (fun _ => True) (Fs.attempt op) :=
  fun l h => ⟨hB.pre hop h, fun r l' henv => ⟨hB.among hop h henv, by simp, by simp⟩⟩

/-- The stop token. -/
theorem pollStop (hop : allowed .pollStop) (h : B l) :
    pollStop.Holds (Local.among rely fails) pre (fun r l' => B l' ∧ r = .ok l'.cancelled) l := by
  refine ⟨hB.pre hop h, fun r l' henv => ⟨hB.among hop h henv, ?_⟩⟩
  obtain ⟨l₁, -, rfl, rfl⟩ := Local.of_among_pollStop henv
  rfl

/-! ### Asking -/

variable (hidle : ∀ op, op.IsIdle → allowed op)
include hidle

theorem checkDestination : Steady rely fails pre B (fun _ => True) (checkDestination request) := by
  refine (hB.attempt (hidle (.file (.metadata _)) trivial)).bind fun r _ => ?_
  cases r with
  | ok =>
    dsimp only
    split_ifs
    · exact .raise (by simp)
    · exact .pure trivial
  | error error =>
    dsimp only
    split_ifs
    · exact .raise (by simp)
    · exact .pure trivial

theorem load : Steady rely fails pre B (fun _ => True) (Manifest.load platform.codec request.destination) := by
  refine (hB.attempt (hidle (.file (.read _)) trivial)).bind fun r _ => ?_
  cases r with
  | error => exact .pure trivial
  | ok bytes => exact .pure trivial

theorem partLen : Steady rely fails pre B (fun _ => True) (partLen request.destination) := by
  refine (hB.attempt (hidle (.file (.metadata _)) trivial)).bind fun r _ => ?_
  cases r with
  | ok length => exact .pure trivial
  | error error =>
    dsimp only
    split_ifs
    · exact .pure trivial
    · exact .raise (by simp)

theorem resumeFrom (prior : Option Manifest) :
    Steady rely fails pre B (fun _ => True) (resumeFrom request prior) := by
  cases prior with
  | none => exact .pure trivial
  | some manifest => exact (hB.partLen hidle).bind fun _ _ => .pure trivial

theorem sendGet {offset : ℕ} {prior : Option Manifest} (h : B l) :
    (sendGet platform request offset prior).Holds (Local.among rely fails) pre
      (fun r l' => B l' ∧ r ≠ .error .cancelled ∧ (r = .ok none → l'.cancelled = true) ∧
        ∀ response, r = .ok (some response) → l'.traffic.response = some response) l := by
  refine (hB.pollStop (hidle .pollStop trivial) h).bind ?_ fun e l' h' => by cases h'.2
  rintro stop l₁ ⟨h₁, hstop⟩
  cases hstop
  split_ifs with hcancelled
  · exact ⟨h₁, by simp, fun _ => hcancelled, by simp⟩
  · split
    · next error herror => exact ⟨h₁, by simpa using getRequest_ne_cancelled herror, by simp, by simp⟩
    next httpRequest _ =>
    refine ⟨hB.pre (hidle (.send _) trivial) h₁, fun sent l' henv => ?_⟩
    have h' := hB.among (hidle (.send httpRequest) trivial) h₁ henv
    obtain ⟨l₂, -, hsent, rfl⟩ := Local.of_among_send henv
    cases sent with
    | stopped => exact ⟨h', by simp, fun _ => hsent.symm, by simp⟩
    | failed message => exact ⟨h', by simp, by simp, by simp⟩
    | response response => exact ⟨h', by simp, by simp, fun _ hr => by cases hr; rfl⟩

/-- **Up to the response** the assertion is kept. -/
theorem resume {loaded : Option Manifest} {post : Result WorkerResult → Local → Prop}
    (herror : ∀ {e l'}, e ≠ .cancelled → B l' → post (.error e) l')
    (hstopped : ∀ {l'}, l'.cancelled = true → B l' → post (.ok .stopped) l')
    (hreceive : ∀ {offset response l'}, B l' → l'.traffic.response = some response →
      (receive platform request offset response).Holds (Local.among rely fails) pre post l') (h : B l) :
    (resume platform request loaded).Holds (Local.among rely fails) pre post l := by
  unfold Worker.resume
  refine (hB.resumeFrom hidle _ l h).bind ?_ fun e l' h' => herror (by simpa using h'.2.1) h'.1
  rintro offset l₁ ⟨h₁, -⟩
  refine (hB.sendGet hidle h₁).bind ?_ fun e l' h' => herror (by simpa using h'.2.1) h'.1
  rintro response l₂ ⟨h₂, -, hcancelled, hresponse⟩
  cases response with
  | none => exact hstopped (hcancelled rfl) h₂
  | some response =>
    dsimp only
    split_ifs
    · refine (hB.sendGet hidle h₂).bind ?_ fun e l' h' => herror (by simpa using h'.2.1) h'.1
      rintro restarted l₃ ⟨h₃, -, hcancelled, hresponse⟩
      cases restarted with
      | none => exact hstopped (hcancelled rfl) h₃
      | some restarted => exact hreceive h₃ (hresponse _ rfl)
    · exact hreceive h₂ (hresponse _ rfl)

end Keeps

end

end DownloadManager
