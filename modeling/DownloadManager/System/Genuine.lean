import DownloadManager.Resume.Integrity
import DownloadManager.System.Answers

/-!
# What an attempt delivers, among others

The property of `Resume.Integrity`, for a worker that has its files to itself but not the disk.
File operations may fail too, as long as none does after a read of the body has failed
(`unbroken`): then what an attempt leaves that can be repeated is right (`Kept`), and what it has
finished is of one content, the bytes that were kept and those that were received (`Genuine`).
-/

namespace DownloadManager

open FileSystem Worker

/-- Anything may fail until a read of the body has failed. -/
def unbroken (traffic : Traffic) (_ : FileOp PathBuf UInt8) : Prop := traffic.broken = false

theorem preserving_unbroken : Preserving unbroken := fun _ _ h => h

/-- That is too much to be sure of what a save leaves. -/
theorem tidied_unbroken (dest : PathBuf) (disk : Disk) : Tidied unbroken dest disk :=
  fun htidy => absurd rfl ((htidy {}).1 [])

/-- What is at the destination is what was kept and received of one content. -/
def Genuine (S : Surroundings) (request : Request) (result : DownloadResult) (disk : Disk) : Prop :=
  ∃ e start, Delivered S request result ⟨disk, some e⟩ e start ∧ e.response.bytes <+: e.content.drop start

/-- How an attempt ends. -/
structure Delivers (S : Surroundings) (ident : String → String → List UInt8) (codec : Codec) (request : Request)
    (r : Result WorkerResult) (l : Local) : Prop where
  /-- It is finished. -/
  finished : ∀ result, r = .ok (.finished result) → Genuine S request result l.disk
  /-- It can be repeated. -/
  kept : (r = .ok .stopped ∨ ∃ e, r = .error e ∧ e.isRetryable = true) → Kept codec ident request.destination l.disk

section

variable {S : Surroundings} {ident : String → String → List UInt8} {platform : Platform} {request : Request}
  {disk disk' : Disk} {l l' : Local} {r : Result WorkerResult} {result : DownloadResult}

theorem Genuine.congr (h : Genuine S request result disk) (hagree : disk.Agree disk' request.destination) :
    Genuine S request result disk' := by
  obtain ⟨e, start, hdelivered, hbytes⟩ := h
  obtain ⟨f, hf, hdata⟩ := hdelivered.file
  exact ⟨e, start, { hdelivered with served := rfl, file := ⟨f, hagree.2.trans hf, hdata⟩ }, hbytes⟩

/-- **It is the content, as far as it was delivered.** -/
theorem Genuine.content (h : Genuine S request result disk) :
    ∃ (e : Exchange) (f : Inode UInt8), S.server e.request e.response e.content ∧ e.request.url = request.url ∧
      e.response.status.isSuccess = true ∧ e.response.bodyError = none ∧
      disk.file request.destination = some f ∧ result = ⟨request.destination, f.data.length⟩ ∧
      f.data <+: e.content ∧ (e.Full → f.data = e.content) := by
  obtain ⟨e, start, hdelivered, hbytes⟩ := h
  obtain ⟨f, hf, hdata⟩ := hdelivered.file
  refine ⟨e, f, hdelivered.server, hdelivered.url, hdelivered.success, hdelivered.body, hf, ?_, ?_, fun hfull => ?_⟩
  · rw [hdata, hdelivered.result_eq]
  · have hprefix := (List.prefix_append_right_inj (e.content.take start)).mpr hbytes
    rwa [List.take_append_drop, ← hdata] at hprefix
  · have hrange := hdelivered.range
    rw [hdata]
    unfold Exchange.Full at hfull
    split_ifs at hrange hfull
    · rw [hfull start hrange, List.take_append_drop]
    · rw [hrange, hfull, List.take_zero, List.nil_append]

/-- The others leave the files alone. -/
theorem Kept.agree {codec : Codec} {dest : PathBuf} (h : Kept codec ident dest disk)
    (hagree : ∀ path ∈ ownPaths dest, disk.Agree disk' path) : Kept codec ident dest disk' :=
  h.congr (hagree _ manifest_mem_ownPaths) (partData_congr (hagree _ part_mem_ownPaths))

theorem Delivers.stable (h : Delivers S ident platform.codec request r l)
    (hrely : Undisturbed (ownPaths request.destination) l l') : Delivers S ident platform.codec request r l' where
  finished result hr := (h.finished result hr).congr (hrely.agree _ dest_mem_ownPaths)
  kept hr := (h.kept hr).agree hrely.agree

/-- An attempt that ends before its transfer. -/
theorem Delivers.of_kept (h : Kept platform.codec ident request.destination l.disk)
    (hr : ∀ result, r ≠ .ok (.finished result)) : Delivers S ident platform.codec request r l :=
  ⟨fun result he => absurd he (hr result), fun _ => h⟩

/-- An attempt that is not repeated. -/
theorem Delivers.of_final {e : Error} (he : e.isRetryable = false) :
    Delivers S ident platform.codec request (.error e) l := by
  refine ⟨nofun, fun hr => ?_⟩
  rcases hr with hr | ⟨e', hr, hretry⟩
  · cases hr
  · cases hr
    rw [he] at hretry
    cases hretry

/-! ### What is kept -/

/-- Less of the `.part` is there. -/
theorem Kept.of_prefix {codec : Codec} {dest : PathBuf} (h : Kept codec ident dest disk)
    (hmanifest : disk.Agree disk' (manifestPath dest)) (hpart : partData dest disk' <+: partData dest disk) :
    Kept codec ident dest disk' := by
  intro m v hm hv
  rw [storedManifest_congr hmanifest] at hm
  exact (hpart.take _).trans (h m v hm hv)

/-- **What a checkpoint notes is right**, if what has been written is. -/
theorem Kept.of_noted {x : Transfer} {content : List UInt8} (h : Noted platform request x disk)
    (hvalidators : ∀ v ∈ validators x.response, ident request.url v = content) (hdata : x.data <+: content) :
    Kept platform.codec ident request.destination disk := by
  obtain ⟨hpart, total, -, hstored⟩ := h
  intro m v hm hv
  cases hstored.symm.trans hm
  have hident : ident request.url v = content := hvalidators v (validator_manifestOf hv)
  rw [hpart]
  exact (List.take_prefix _ _).trans (hident ▸ hdata)

variable {start : ℕ} {e : Exchange} {retained : List UInt8}

/-- **What is retained is of the content** that the response goes on with. -/
theorem Worker.Starts.retained_eq (h : Starts platform (ident request.url) request disk start e)
    (hkept : Kept platform.codec ident request.destination disk)
    (hcuts : Cuts request.destination start disk disk' retained) :
    retained = e.content.take start ∧ retained <+: partData request.destination disk := by
  rcases Nat.eq_zero_or_pos start with rfl | hpos
  · have hnil : retained = [] := List.length_eq_zero_iff.mp hcuts.length
    simp [hnil]
  · obtain ⟨m, v, hm, hresumable, hv, hstart, hident⟩ := h.kept hpos
    have hle : start ≤ (partData request.destination disk).length := by omega
    have hprefix := hkept m v hm hv
    rw [(Manifest.isResumableFor_iff.mp hresumable).1, hident, List.take_eq_take_min, ← hstart] at hprefix
    have hretained := hcuts.take hle
    refine ⟨?_, hretained ▸ List.take_prefix _ _⟩
    rw [hretained, List.prefix_iff_eq_take.mp hprefix, List.length_take, Nat.min_eq_left hle]

/-- A checkpoint of a transfer that has begun so notes what is right. -/
theorem Worker.Starts.noting (h : Starts platform (ident request.url) request disk start e) :
    Noting platform request e.response (e.content.take start) (Kept platform.codec ident request.destination) where
  congr hkept hagree := hkept.agree hagree
  noted hreceived hnoted := by
    refine Kept.of_noted hnoted h.validators ?_
    have hprefix := (List.prefix_append_right_inj (e.content.take start)).mpr (hreceived.trans h.bytes)
    rwa [List.take_append_drop] at hprefix

/-! ### The attempt -/

/-- What was there is there. -/
theorem agree_keeps {fails : Traffic → FileOp PathBuf UInt8 → Prop} (dest : PathBuf) (disk : Disk) :
    Keeps (Undisturbed (ownPaths dest)) fails (Op.Confined dest) Op.IsIdle
      fun l => ∀ path ∈ ownPaths dest, disk.Agree l.disk path where
  stable h hrely path hpath := (h path hpath).trans (hrely.agree path hpath)
  step hop h henv := by
    rw [Local.env_idle hop henv]
    exact h
  pre hop _ := hop.confined _ _

theorem Cuts.of_unchanged {dest : PathBuf} {disk'' : Disk} (h : Cuts dest start disk' disk'' retained)
    (hunchanged : Unchanged dest disk disk') : Cuts dest start disk disk'' retained :=
  ⟨h.length, hunchanged.part ▸ h.take, hunchanged.manifest.trans h.manifest⟩

/-- **From the response on.** -/
theorem Worker.Answered.receive_delivers {offset : ℕ} (h : Answered S platform request disk offset e)
    (hserver : S.server.Faithful (ident request.url) request)
    (hkept : Kept platform.codec ident request.destination disk)
    (huntouched : Untouched platform request unbroken none l) (hresponse : l.traffic.response = some e.response)
    (hagree : ∀ path ∈ ownPaths request.destination, disk.Agree l.disk path) :
    (receive platform request offset e.response).Holds
      (Local.among (Undisturbed (ownPaths request.destination)) unbroken) (Op.Confined request.destination)
      (Delivers S ident platform.codec request) l := by
  have hunchanged : Unchanged request.destination disk l.disk := .of_agree hagree
  refine receive_holds (fun _ _ => .of_kept (hkept.agree hagree) nofun) ?_
  intro start total hsuccess hstart htotal
  have hstarts := h.starts hserver hsuccess
  have hrange := h.range hserver
  rw [← hstart] at hstarts
  refine (huntouched.openPart_cuts hresponse htotal).bind ?_ fun e' l' h' => .of_final (h'.2 e' rfl).1
  intro part l₁ h'
  obtain ⟨hclean, retained, hcuts, h₁⟩ := h'.1 part rfl
  obtain ⟨rfl, hretained⟩ := hstarts.retained_eq hkept (hcuts.of_unchanged hunchanged)
  have hkept₁ : Kept platform.codec ident request.destination l₁.disk := by
    refine hkept.of_prefix (hunchanged.manifest.trans hcuts.manifest) ?_
    rw [h₁.filling.partData_eq, Transfer.data, List.append_nil]
    exact hretained
  have htransfer : (transfer platform e.response.bodyError part ⟨start, total⟩ e.response.body).Holds
      (Local.among (Undisturbed (ownPaths request.destination)) unbroken) (Op.Confined request.destination)
      (Transferred platform request unbroken (Kept platform.codec ident request.destination) none
        ⟨e.response, e.content.take start, []⟩) l₁ :=
    h₁.transfer_noted rfl (by rw [Transfer.data, List.append_nil, hcuts.length]) hstarts.noting fun _ => hkept₁
  refine htransfer.mono fun r l₂ h₂ => ⟨fun result hr => ?_, h₂.upheld preserving_unbroken⟩
  obtain ⟨x, total', hx, hbody, hreceived, -, hresult, hfile⟩ := (h₂.finished result hr).transfer
  obtain ⟨y, hy, hyresponse, hyretained⟩ := h₂.same result hr
  cases hx.symm.trans hy
  have hdata : x.data = e.content.take start ++ e.response.bytes := by
    rw [Transfer.data, hyretained, hreceived, hyresponse]
  rw [hdata] at hresult hfile
  obtain ⟨f, hf, hfdata⟩ := Option.map_eq_some_iff.mp hfile
  refine ⟨e, start, ⟨rfl, h.server, hsuccess, h.url, ?_, ?_, ⟨f, hf, hfdata⟩, hresult⟩, hstarts.bytes⟩
  · split_ifs at hstart ⊢ with h206
    · rw [hstart]
      exact hrange h206
    · exact hstart
  · exact (congrArg Response.bodyError hyresponse).symm.trans hbody

/-- **An attempt**, among others: what it keeps is right, and what it delivers. -/
theorem Kept.run_delivers (hserver : S.server.Faithful (ident request.url) request)
    (hkept : Kept platform.codec ident request.destination l.disk) (htransfer : l.traffic.transfer = none) :
    (run platform request).Holds (Local.online S.server (Undisturbed (ownPaths request.destination)) unbroken)
      (Op.Confined request.destination) (Delivers S ident platform.codec request) l := by
  have huntouched : Untouched platform request unbroken none l := ⟨htransfer, fun _ => nofun, tidied_unbroken _ _⟩
  have hB : Keeps _ _ _ _ fun l' => Untouched platform request unbroken none l' ∧
      ∀ path ∈ ownPaths request.destination, l.disk.Agree l'.disk path :=
    Untouched.keeps.and (agree_keeps request.destination l.disk)
  refine hB.run_answered (fun _ hop => hop) (fun h => h.2) (fun h => .of_kept (hkept.agree h.2) nofun)
    (fun h => .of_kept (hkept.agree h.2) nofun) ?_ ⟨huntouched, fun path _ => .refl _ path⟩
  intro offset e l' h' hresponse hanswered
  refine Program.Holds.of_env ?_ fun _ _ _ _ => Local.among_of_online
  exact hanswered.receive_delivers hserver hkept h'.1 hresponse h'.2

end

end DownloadManager
