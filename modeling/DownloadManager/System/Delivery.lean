import DownloadManager.System.Destinations
import DownloadManager.System.Genuine

/-!
# What is reported complete is the content

The whole system, with a server: downloads with destinations of their own are started, paused,
resumed and tried again in any order, beside each other, while the representation on the server
may change with every request. What every attempt leaves for the next one is right (`Upright`), so
a download that is reported complete holds bytes of one content only, however many attempts they
come from, and all of it if its last body was delivered in full (`delivered_content`).
-/

namespace DownloadManager

open FileSystem

namespace Thread

variable {nextDelay : UInt32 → Except Panic Duration} {t t' : Thread} {a : Action} {w : Worker}

/-- A worker is started for a job that had none. -/
theorem job_of_spawned (ht : Reachable nextDelay t) (h : t.step nextDelay a = some t') (hw : w ∈ t'.sched.workers)
    (hnew : w ∉ t.sched.workers) :
    ∃ job, t.sched.jobs.lookup w.id = some job ∧ job.state.idle ∧ job.request = w.request := by
  have ht' := ht.step h
  cases fate_of_step ht h w.id with
  | rests _ hworkers => exact absurd (hworkers w hw rfl) hnew
  | made _ _ hjob _ hidle => exact absurd rfl (not_worker_of_idle ht' hjob hidle w hw)
  | @starts _ job job' hold hidle hjob hrequest =>
    obtain ⟨job'', hjob', -, hrequest', -⟩ := job_of_worker ht' hw
    cases hjob.symm.trans hjob'
    exact ⟨job, hold, hidle, hrequest.symm.trans hrequest'.symm⟩
  | returns _ _ _ _ _ hjob _ hidle => exact absurd rfl (not_worker_of_idle ht' hjob hidle w hw)
  | ends _ hnone => exact absurd rfl (not_worker_of_none ht' hnone w hw)

end Thread

/-- The download a move asks for. -/
def Move.asks? : Move → Option (Uuid × Request)
  | .thread (.command cmd _ _) => cmd.asks?
  | _ => none

namespace System

/-- The request of a worker that is answered, and the response. -/
def exchange? (s : System) : Move → Option (HttpRequest × Response)
  | .worker w (.send (.response response)) =>
    match s.program w with
    | .call (.send httpRequest) _ => some (httpRequest, response)
    | _ => none
  | _ => none

/-- An operation of a worker fails after a read of its body has. -/
def failsLate (s : System) : Move → Bool
  | .worker w (.file (some _)) => (s.traffic w).broken
  | _ => false

variable (nextDelay : UInt32 → Except Panic Duration) (platform : Platform) (server : Server)
  (ident : String → String → List UInt8)

/-- What is asked of the surroundings. -/
structure Reliable (s : System) (m : Move) : Prop where
  /-- Other programs leave the files of the downloads alone that have been asked for. -/
  spares : s.Spares nextDelay m
  /-- What is answered is an answer of the server. -/
  server : ∀ x ∈ s.exchange? m, ∃ content, server x.1 x.2 content
  /-- Operations fail only before a read of the body does. -/
  faults : s.failsLate m = false
  /-- What a download finds when it is asked for is right. -/
  found : ∀ x ∈ m.asks?, Kept platform.codec ident x.2.destination s.disk

variable (S : Surroundings)

/-- What a worker delivers is genuine, and what it leaves is right. -/
def Works (s : System) (w : Worker) : Prop :=
  s.Heeds (Undisturbed (ownPaths w.request.destination)) (Local.served S.server unbroken)
    (Op.Confined w.request.destination) (Delivers S ident platform.codec w.request) w

/-- **What is there for the next attempt is right**, and what is reported complete is genuine. -/
structure Upright (s : System) : Prop where
  /-- A download without a worker. -/
  idle : ∀ id job, s.thread.sched.jobs.lookup id = some job → job.state.idle → ¬s.Cleans id →
    Kept platform.codec ident job.request.destination s.disk
  /-- A worker. -/
  busy : ∀ w ∈ s.thread.sched.workers, ¬s.Cleans w.id → s.Works platform ident S w
  /-- A download that has been reported complete. -/
  reported : ∀ id tx result, .result id tx (.ok result) ∈ s.thread.sched.log →
    ∃ request, (id, request) ∈ s.thread.asked ∧ Genuine S request result s.disk

variable {nextDelay platform server ident S} {s s' : System} {m : Move} {w : Worker}

/-- What a worker does is done in its environment. -/
theorem Reliable.env (hm : s.Reliable nextDelay platform S.server ident m) {choice : Choice} {op : Op}
    {next : op.Reply → Async WorkerResult} {r : op.Reply} {l : Local} (hchoice : m = .worker w choice)
    (hprogram : s.program w = .call op next) (hperform : (s.shared w).perform op choice = some (r, l)) :
    Local.served S.server unbroken op (s.shared w) r l := by
  subst hchoice
  refine ⟨?_, env_of_perform (fun op next fault hprogram hchoice => ?_) hprogram hperform⟩
  · -- the reply is the one that was chosen
    obtain ⟨hallows, disk, hchosen, -⟩ := Local.perform_eq hperform
    cases op with
    | file | pollStop => trivial
    | send httpRequest =>
      cases choice with
      | send sent =>
        cases hchosen
        cases r with
        | response response => exact hm.server (httpRequest, response) (by simp [exchange?, hprogram])
        | stopped | failed => trivial
      | file | pollStop => cases hallows
  · subst hchoice
    exact hm.faults

section

variable (hs : s.Reachable nextDelay platform) (hisolated : Isolated platform s)
  (hm : s.Reliable nextDelay platform S.server ident m) (hstep : s.step nextDelay m = some s')
  (hapart : s.thread.KeepsApart) (h : Upright platform ident S s)
include hs hisolated hm hstep hapart h

/-- A download keeps what is right while the thread does nothing for it. -/
theorem Upright.kept_of_thread_eq {id : Uuid} {job : Job} (hjob : s.thread.sched.jobs.lookup id = some job)
    (hidle : job.state.idle) (hnot : ¬s.Cleans id) : Kept platform.codec ident job.request.destination s'.disk := by
  have ht := thread_of_reachable hs
  have htends : s.tends id m = false := by
    refine not_tends (fun w choice hm => ?_) fun c hc he => hnot (he ▸ cleans_id hs hc)
    subst hm
    exact Thread.not_worker_of_idle ht hjob hidle w (next_of_step hstep).pending
  have hagree := agree_of_keepsApart hs hisolated hm.spares hstep hapart (Thread.mem_asked_of_job ht hjob) htends
  exact (h.idle id job hjob hidle hnot).agree hagree

omit hisolated hm hstep hapart in
/-- **The thread goes on**: a download that has no worker then keeps what is right. -/
theorem Upright.kept_of_thread_step {a : Action} {t : Thread} (ht : s.thread.step nextDelay a = some t)
    (hdone : ∀ w r discarded, a = .worker w r discarded → ¬s.Cleans w.id → s.program w = .done r)
    (hfound : ∀ id request progressTx tx discarded order,
      a = .command (.enqueue id request progressTx tx) discarded order →
      Kept platform.codec ident request.destination s.disk)
    {id : Uuid} {job : Job} (hjob : t.sched.jobs.lookup id = some job) (hidle : job.state.idle) (hnot : ¬s.Cleans id) :
    Kept platform.codec ident job.request.destination s.disk := by
  have hreach := thread_of_reachable hs
  cases Thread.fate_of_step hreach ht id with
  | rests hholding =>
    have hmap := hholding.symm.trans (congrArg (Option.map Job.holding) hjob)
    obtain ⟨old, hold, hsame⟩ := Option.map_eq_some_iff.mp hmap
    have hrequest : old.request = job.request := congrArg Prod.fst hsame
    have hactive : old.state.active = job.state.active := congrArg Prod.snd hsame
    have hidle : old.state.idle := by simpa [JobState.active_eq, hidle] using hactive
    exact hrequest ▸ h.idle id old hold hidle hnot
  | made _ _ hnew hrequest =>
    cases hjob.symm.trans hnew
    rw [hrequest]
    exact hfound _ _ _ _ _ _ rfl
  | starts _ _ hnew _ hactive =>
    cases hjob.symm.trans hnew
    simp [JobState.active_eq, hidle] at hactive
  | returns hw hid hr hold _ hnew hrequest =>
    cases hjob.symm.trans hnew
    subst hid
    have hworks := h.busy _ hw hnot
    rw [Works, Heeds, hdone _ _ _ rfl hnot] at hworks
    obtain ⟨job', hjob', -, hrequest', -⟩ := Thread.job_of_worker hreach hw
    cases hold.symm.trans hjob'
    rw [hrequest, ← hrequest']
    exact hworks.kept hr
  | ends _ hnone => cases hjob.symm.trans hnone

/-! ### A step -/

/-- **A download without a worker.** -/
theorem Upright.idle_step {id : Uuid} {job : Job} (hjob : s'.thread.sched.jobs.lookup id = some job)
    (hidle : job.state.idle) (hnot : ¬s'.Cleans id) : Kept platform.codec ident job.request.destination s'.disk := by
  have hreach := thread_of_reachable hs
  cases next_of_step hstep with
  | cancelRoot ht =>
    cases ht
    exact h.kept_of_thread_eq hs hisolated hm hstep hapart hjob hidle hnot
  | wait _ hnone => exact h.kept_of_thread_eq hs hisolated hm hstep hapart hjob hidle (not_cleans hnone)
  | worker | outside => exact h.kept_of_thread_eq hs hisolated hm hstep hapart hjob hidle hnot
  | cleanup hcleanup | again hcleanup =>
    refine h.kept_of_thread_eq hs hisolated hm hstep hapart hjob hidle fun hcleans => hnot ?_
    obtain ⟨c, hc, hmem⟩ := hcleans
    cases hcleanup.symm.trans hc
    exact ⟨_, rfl, hmem⟩
  | act hasks hnone _ ht =>
    refine h.kept_of_thread_step hs ht ?_ ?_ hjob hidle (not_cleans hnone)
    · intro w r discarded ha _
      subst ha
      cases hasks with
      | thread hworker => exact absurd rfl (hworker w r discarded)
      | yield hprogram => exact hprogram
    · intro id request progressTx tx discarded order ha
      subst ha
      cases hasks
      exact hm.found (id, request) rfl
  | @resume c r t hcleanup _ _ ht =>
    obtain ⟨c', hc', dest, hmem⟩ := cleans_id hs hcleanup
    cases hcleanup.symm.trans hc'
    have hdiscards := Thread.discards_withDiscarded (t := s.thread) (a := c.action)
      fun id => ((c.results ++ [(c.id, r)]).lookup id).getD (.ok ())
    refine h.kept_of_thread_step hs ht ?_ ?_ hjob hidle fun hcleans => ?_
    · -- the job whose files have been removed is the worker's
      intro w result discarded ha hnot
      rw [← hdiscards, ha] at hmem
      exact absurd ((Thread.mem_discards.mp hmem).1 ▸ cleans_id hs hcleanup) hnot
    · intro id request progressTx tx discarded order ha
      rw [← hdiscards, ha] at hmem
      cases hmem
    · obtain ⟨c', hc', dest, hmem⟩ := hcleans
      cases hcleanup.symm.trans hc'
      cases (Thread.lookup_of_discards hreach ht (hdiscards ▸ hmem)).symm.trans hjob

/-- **A worker.** -/
theorem Upright.busy_step (hserver : ∀ x ∈ s'.thread.asked, S.server.Faithful (ident x.2.url) x.2)
    (hw : w ∈ s'.thread.sched.workers) (hnot : ¬s'.Cleans w.id) : s'.Works platform ident S w := by
  have ht := thread_of_reachable hs
  have hnext := next_of_step hstep
  have hcleans : ¬s.Cleans w.id := fun hc => hnot (hnext.cleans hs hw hc)
  have hstable : Stable (Undisturbed (ownPaths w.request.destination)) (Op.Confined w.request.destination)
      (Delivers S ident platform.codec w.request) :=
    ⟨.refl _, fun _ _ _ => .trans, fun _ _ _ => Op.Confined.stable, fun _ _ _ => Delivers.stable⟩
  refine heeds_of_next hs hnext hstable (fun hold => h.busy w hold hcleans) (fun choice op next r l => hm.env) ?_ ?_ hw
  · intro hother hold
    have htends : s.tends w.id m = false := by
      refine not_tends (fun w' choice hm he => ?_) fun c hc he => hcleans (he ▸ cleans_id hs hc)
      subst hm
      exact hother choice (by rw [Thread.worker_unique ht hold hnext.pending he.symm])
    have hagree := agree_of_keepsApart hs hisolated hm.spares hstep hapart (Thread.mem_asked_of_worker ht hold) htends
    exact (hnext.undisturbed hother hagree).2
  · -- it finds what the attempt before it has left
    intro hnew hfresh
    obtain ⟨a, ha, hdisk⟩ : ∃ a, s.thread.step nextDelay a = some s'.thread ∧ s'.disk = s.disk := by
      cases hnext with
      | cancelRoot ha | act _ _ _ ha | resume _ _ _ ha => exact ⟨_, ha, rfl⟩
      | wait | worker | cleanup | again | outside => exact absurd hw hnew
    obtain ⟨job, hjob, hidle, hrequest⟩ := Thread.job_of_spawned ht ha hw hnew
    have hkept := h.idle w.id job hjob hidle hcleans
    rw [hrequest, ← hdisk] at hkept
    have hasked := Thread.mem_asked_of_worker (thread_of_reachable (hs.step hstep)) hw
    exact hkept.run_delivers (hserver _ hasked) (congrArg Traffic.transfer hfresh.traffic)

/-- **Every step in reliable surroundings.** -/
theorem Upright.step (hserver : ∀ x ∈ s'.thread.asked, S.server.Faithful (ident x.2.url) x.2) :
    Upright platform ident S s' where
  idle _ _ := h.idle_step hs hisolated hm hstep hapart
  busy _ := h.busy_step hs hisolated hm hstep hapart hserver
  reported id tx result hlog := by
    by_cases hold : .result id tx (.ok result) ∈ s.thread.sched.log
    · obtain ⟨request, hasked, hgenuine⟩ := h.reported id tx result hold
      have hagree := agree_of_reported hs hisolated hm.spares hstep hapart hasked hold
      exact ⟨request, asked_subset hstep hasked, hgenuine.congr (hagree _ dest_mem_ownPaths)⟩
    · obtain ⟨w, hw, rfl, hprogram, hnone, hdisk, -⟩ := (next_of_step hstep).reported hs hlog hold
      have hworks := h.busy w hw (not_cleans hnone)
      rw [Works, Heeds, hprogram] at hworks
      exact ⟨w.request, asked_subset hstep (Thread.mem_asked_of_worker (thread_of_reachable hs) hw),
        hdisk ▸ hworks.finished result rfl⟩

end

/-! ### Runs -/

/-- A server, and a disk on which anything may fail. -/
def exposed (server : Server) : Surroundings := ⟨server, fun _ => True, fun _ _ => True⟩

/-- Everything, if the downloads keep apart and the server is faithful to what they ask for. -/
def Sound (platform : Platform) (server : Server) (ident : String → String → List UInt8) (s : System) : Prop :=
  s.thread.KeepsApart → (∀ x ∈ s.thread.asked, server.Faithful (ident x.2.url) x.2) →
    Isolated platform s ∧ s.Keeping platform ∧ Upright platform ident (exposed server) s

theorem Sound.step (h : s.Sound platform server ident) (hs : s.Reachable nextDelay platform)
    (hm : s.Reliable nextDelay platform server ident m) (hstep : s.step nextDelay m = some s') :
    s'.Sound platform server ident := by
  intro hapart' hserver
  have hapart := keepsApart_of_step hapart' hstep
  obtain ⟨hisolated, hkeeping, hupright⟩ := h hapart fun x hx => hserver x (asked_subset hstep hx)
  have hseparate := separate_of_unrelated hs hisolated hm.spares hstep hkeeping hapart'
  exact ⟨hisolated.step hs hseparate hstep, hkeeping.step hs hisolated hm.spares hstep hapart',
    hupright.step hs hisolated hm hstep hapart hserver⟩

/-- **What is reported complete is the content.** If no two downloads that are asked for in a run have the same
destination, or one that is a sidecar of the other's, other programs leave their files alone, the server is faithful to
what they ask for, no file operation of a worker fails after a read of its body has, and what a download finds at its
destination when it is asked for is right, then in every interleaving of the thread, the workers and the server a
download that is reported complete holds the first part of one content the server had for its URL, and all of it if
the last body was delivered in full. -/
theorem delivered_content {maxConcurrent : ℕ+} {disk : Disk} {ms : List Move}
    (hms : Machine.Along (step nextDelay) (fun s m => s.Reliable nextDelay platform server ident m)
      (.new platform maxConcurrent disk) ms)
    (hrun : Machine.exec (step nextDelay) (.new platform maxConcurrent disk) ms = some s) (hapart : s.thread.KeepsApart)
    (hserver : ∀ x ∈ s.thread.asked, server.Faithful (ident x.2.url) x.2) {id : Uuid} {tx : Sender}
    {result : DownloadResult} (hlog : .result id tx (.ok result) ∈ s.thread.sched.log) :
    ∃ (request : Request) (e : Exchange) (f : Inode UInt8), (id, request) ∈ s.thread.asked ∧
      server e.request e.response e.content ∧ e.request.url = request.url ∧ e.response.status.isSuccess = true ∧
      e.response.bodyError = none ∧ s.disk.file request.destination = some f ∧
      result = ⟨request.destination, f.data.length⟩ ∧ f.data <+: e.content ∧ (e.Full → f.data = e.content) := by
  obtain ⟨-, hsound⟩ : s.Reachable nextDelay platform ∧ s.Sound platform server ident := by
    refine Machine.exec_induct_along (System.step nextDelay)
      (P := fun s m => s.Reliable nextDelay platform server ident m)
      (Q := fun s => s.Reachable nextDelay platform ∧ s.Sound platform server ident) ?_ ms hms
      ⟨.init ⟨_, _, rfl⟩, fun _ _ => ⟨⟨nofun, nofun, nofun, nofun, nofun⟩, nofun, nofun, nofun, nofun⟩⟩ hrun
    intro s m s' hinv hm hstep
    exact ⟨hinv.1.step hstep, hinv.2.step hinv.1 hm hstep⟩
  obtain ⟨-, -, h⟩ := hsound hapart hserver
  obtain ⟨request, hasked, hgenuine⟩ := h.reported id tx result hlog
  obtain ⟨e, f, hcontent⟩ := hgenuine.content
  exact ⟨request, e, f, hasked, hcontent⟩

/-! ### A download that is resumed beside another -/

deriving instance DecidableEq for Chunk
deriving instance DecidableEq for Response

/-- The worker that goes on with the first download. -/
def resumedWorker : Worker := ⟨0, .sample, 1, 2⟩

/-- The first download is paused after a byte, while the second has sent its request, and resumed. -/
def resumedBeside : List Move :=
  started ++ asked elsewhere ++ [.thread .tryDispatch] ++ answered (.sample .ok "v1" [1, 2]) ++ opened ++ written ++
    [.thread (.command (.pause 0 5) (fun _ => .ok ()) []), .thread .tryDispatch,
      .worker firstWorker (.pollStop true)] ++ List.replicate 4 (.worker firstWorker (.file none)) ++
    [.yield firstWorker, .worker (secondWorker elsewhere) (.file none), .worker (secondWorker elsewhere) (.file none),
      .worker (secondWorker elsewhere) (.pollStop false),
      .worker (secondWorker elsewhere) (.send (.response (.sample .ok "v1" [1, 2]))), .thread .tryDispatch,
      .thread (.command (.resume 0 6) (fun _ => .ok ()) []), .thread .tryDispatch, .thread .tryDispatch] ++
    List.replicate 3 (.worker resumedWorker (.file none)) ++ [.worker resumedWorker (.pollStop false),
      .worker resumedWorker (.send (.response (.sample .partialContent "v1" [2])))] ++
    List.replicate 4 (.worker resumedWorker (.file none)) ++ [.worker resumedWorker (.pollStop false),
      .worker resumedWorker (.file none), .worker resumedWorker (.file none),
      .worker resumedWorker (.pollStop false)] ++
    List.replicate 3 (.worker resumedWorker (.file none)) ++ [.yield resumedWorker]

/-- The bytes of both attempts are those of the content. -/
theorem delivered_content_resumedBeside :
    ∃ (s : System) (e : Exchange) (f : Inode UInt8),
      Machine.exec (step backoffStrategy.nextDelay) (.new .sample 2 .empty) resumedBeside = some s ∧
      .result 0 2 (.ok ⟨Request.sample.destination, 2⟩) ∈ s.thread.sched.log ∧
      Server.Changing (fun _ _ => [1, 2]) e.request e.response e.content ∧
      s.disk.file Request.sample.destination = some f ∧ f.data.length = 2 ∧ f.data <+: e.content := by
  have h : (Machine.exec (step backoffStrategy.nextDelay) (.new .sample 2 .empty) resumedBeside).any (fun s =>
      s.thread.KeepsApart ∧ (∀ x ∈ s.thread.asked, x.2 = .sample ∨ x.2 = elsewhere) ∧
        .result 0 2 (.ok ⟨Request.sample.destination, 2⟩) ∈ s.thread.sched.log) := by
    decide +kernel
  obtain ⟨s, hs, hapart, hasked, hlog⟩ := Machine.exists_exec_of_any _ h
  have hms : Machine.Along (step backoffStrategy.nextDelay) (fun s m => s.Spares backoffStrategy.nextDelay m ∧
      (∀ x ∈ s.exchange? m, x.2 = twoBytes x.1) ∧ s.failsLate m = false ∧
        ∀ x ∈ m.asks?, s.disk.file (partPath x.2.destination) = none) (.new .sample 2 .empty) resumedBeside := by
    decide +kernel
  have hreliable := hms.mono (Q := fun s m => s.Reliable backoffStrategy.nextDelay .sample
      (Server.Changing fun _ _ => [1, 2]) (fun _ _ => [1, 2]) m) _ fun s m hm =>
    ⟨hm.1, fun x hx => ⟨[1, 2], hm.2.1 x hx ▸ changing_twoBytes x.1⟩, hm.2.2.1,
      fun x hx => .of_part_none (hm.2.2.2 x hx)⟩
  have hserver (x : Uuid × Request) (hx : x ∈ s.thread.asked) :
      Server.Faithful (Server.Changing fun _ _ => [1, 2]) (fun _ => [1, 2]) x.2 := by
    have hplain : x.2.Plain := by
      rcases hasked x hx with hx | hx
      · rw [hx]
        exact ⟨rfl, rfl⟩
      · rw [hx]
        exact ⟨rfl, rfl⟩
    exact Server.Changing.faithful hplain
  obtain ⟨request, e, f, -, hchanging, -, -, -, hf, hresult, hprefix, -⟩ :=
    delivered_content hreliable hs hapart hserver hlog
  obtain ⟨hdest, hlength⟩ := DownloadResult.mk.inj hresult
  exact ⟨s, e, f, hs, hlog, hchanging, hdest ▸ hf, hlength.symm, hprefix⟩

end System

end DownloadManager
