import DownloadManager.Scheduler.Dispatch

/-!
# A whole pass

What the loop of `try_dispatch` does, from its first turn to its last: it starts the jobs at the
front of the queue, in their order and as many as there is room for, each with a token of its
own, and nothing else (`dispatch_pass`). `StartAll` says so without a loop.
-/

namespace DownloadManager

namespace Scheduler

/-- How many jobs can be started: those that wait, as far as there is room. -/
def room (s : Scheduler) : ℕ := min s.ready.length (s.maxConcurrent - s.workers.length)

/-- The token of a job that is started: they are handed out in the order of the queue. -/
def tokenOf (s : Scheduler) (id : Uuid) : Token := s.tokens + s.ready.idxOf id

/-- The worker of a job that is started. -/
def workerOf (s : Scheduler) (id : Uuid) : Option Worker :=
  (s.jobs.lookup id).map fun job => ⟨id, job.request, job.progressTx, s.tokenOf id⟩

/-- The first `n` jobs of the queue have been started. -/
structure StartAll (s : Scheduler) (n : ℕ) (s' : Scheduler) : Prop where
  /-- They have left the queue. -/
  ready : s'.ready = s.ready.drop n
  /-- Each has a worker. -/
  workers : s'.workers = s.workers ++ (s.ready.take n).filterMap s.workerOf
  /-- They are running. -/
  started : ∀ id ∈ s.ready.take n, s'.jobs.lookup id =
    (s.jobs.lookup id).map fun job => { job with state := .running (s.tokenOf id) }
  /-- The others are as they were. -/
  others : ∀ id ∉ s.ready.take n, s'.jobs.lookup id = s.jobs.lookup id
  /-- Their subscribers are told. -/
  log : s'.log = s.log ++ (s.ready.take n).map fun id => .event id .started
  /-- Each has a token. -/
  tokens : s'.tokens = s.tokens + n
  /-- No token is cancelled. -/
  stopped : s'.stopped = s.stopped ∧ s'.cancelRoot = s.cancelRoot
  /-- No timer is set, and the limit is the same. -/
  rest : s'.delayed = s.delayed ∧ s'.maxConcurrent = s.maxConcurrent

end Scheduler

variable {nextDelay : UInt32 → Except Panic Duration} {t t' : Thread}

namespace Scheduler

variable {s s' : Scheduler} {id : Uuid} {rest : List Uuid} {job : Job}

/-- `Dispatch` of the queued job at the front. -/
def startFront (s : Scheduler) (id : Uuid) (rest : List Uuid) (job : Job) : Scheduler :=
  { s with
    tokens := s.tokens + 1
    jobs := s.jobs.insert id { job with state := .running s.tokens }
    ready := rest
    workers := s.workers ++ [⟨id, job.request, job.progressTx, s.tokens⟩]
    log := s.log ++ [.event id .started] }

theorem StartAll.zero (s : Scheduler) : s.StartAll 0 s := by
  constructor <;> simp

/-- Tokens are handed out in the order of the queue. -/
theorem tokenOf_startFront (hready : s.ready = id :: rest) {other : Uuid} (hne : other ≠ id) :
    (s.startFront id rest job).tokenOf other = s.tokenOf other := by
  have hidx : (id :: rest).idxOf other = rest.idxOf other + 1 := List.idxOf_cons_ne _ hne.symm
  rw [tokenOf, tokenOf, hready, hidx, Nat.add_comm (rest.idxOf other), ← Nat.add_assoc]
  rfl

theorem workerOf_startFront (hready : s.ready = id :: rest) {other : Uuid} (hne : other ≠ id) :
    (s.startFront id rest job).workerOf other = s.workerOf other := by
  have hlookup : (s.startFront id rest job).jobs.lookup other = s.jobs.lookup other :=
    Finmap.lookup_insert_of_ne _ hne
  rw [workerOf, workerOf, hlookup, tokenOf_startFront hready hne]

/-- **One job more**: the front of the queue, and then the others. -/
theorem StartAll.cons {n : ℕ} (hnodup : s.ready.Nodup) (hready : s.ready = id :: rest)
    (hjob : s.jobs.lookup id = some job) (h : (s.startFront id rest job).StartAll n s') : s.StartAll (n + 1) s' := by
  rw [hready] at hnodup
  have hid : id ∉ rest.take n := fun hmem => (List.nodup_cons.mp hnodup).1 (List.mem_of_mem_take hmem)
  have hne : ∀ other ∈ rest.take n, other ≠ id := fun other hmem heq => hid (heq ▸ hmem)
  have htake : s.ready.take (n + 1) = id :: rest.take n := by rw [hready, List.take_succ_cons]
  have htoken : s.tokenOf id = s.tokens := by simp [tokenOf, hready]
  have hworker : s.workerOf id = some ⟨id, job.request, job.progressTx, s.tokens⟩ := by
    rw [workerOf, hjob, htoken, Option.map_some]
  have hlookup {other : Uuid} (hne : other ≠ id) :
      (s.startFront id rest job).jobs.lookup other = s.jobs.lookup other := Finmap.lookup_insert_of_ne _ hne
  refine ⟨?_, ?_, ?_, ?_, ?_, ?_, h.stopped, h.rest⟩
  · rw [h.ready, hready, List.drop_succ_cons]
    rfl
  · have hworkers : (rest.take n).filterMap (s.startFront id rest job).workerOf = (rest.take n).filterMap s.workerOf :=
      List.filterMap_congr fun other hmem => workerOf_startFront hready (hne other hmem)
    rw [h.workers, htake, List.filterMap_cons_some hworker, show (s.startFront id rest job).ready = rest from rfl,
      hworkers, startFront, List.append_assoc, List.singleton_append]
  · intro other hmem
    rw [htake, List.mem_cons] at hmem
    by_cases heq : other = id
    · subst heq
      rw [h.others other hid, hjob, Option.map_some, htoken]
      exact Finmap.lookup_insert _
    · rw [h.started other (hmem.resolve_left heq), hlookup heq, tokenOf_startFront hready heq]
  · intro other hmem
    rw [htake, List.mem_cons, not_or] at hmem
    rw [h.others other hmem.2, hlookup hmem.1]
  · rw [h.log, htake, List.map_cons, show (s.startFront id rest job).ready = rest from rfl, startFront,
      List.append_assoc, List.singleton_append]
  · rw [h.tokens, Nat.add_comm n, ← Nat.add_assoc]
    rfl

end Scheduler

namespace Thread

/-- The job at the front of the queue is started. -/
theorem turn_starts (nextDelay : UInt32 → Except Panic Duration) (hp : t.phase = .dispatching)
    (hroot : t.sched.cancelRoot = false) (hlt : t.sched.workers.length < t.sched.maxConcurrent)
    {id : Uuid} {rest : List Uuid} {job : Job} (hready : t.sched.ready = id :: rest)
    (hjob : t.sched.jobs.lookup id = some job) (hqueued : job.state = .queued) :
    t.step nextDelay .tryDispatch = some { t with sched := t.sched.startFront id rest job } := by
  simp only [step, hp, if_true, tryDispatch, hlt, hready, hroot, Bool.false_eq_true, if_false,
    Scheduler.transitionJob, hjob, hqueued, andThen, Scheduler.emit, Scheduler.send, Scheduler.startFront]

/-- The last turn: there is no room, or no job. -/
theorem turn_ends (hp : t.phase = .dispatching) (hroom : t.sched.room = 0) :
    t.step nextDelay .tryDispatch = some { t with phase := .head } := by
  simp only [step, hp, if_true, tryDispatch]
  by_cases hlt : t.sched.workers.length < t.sched.maxConcurrent
  · have hready : t.sched.ready = [] := by
      rw [Scheduler.room] at hroom
      exact List.eq_nil_of_length_eq_zero (by omega)
    rw [if_pos hlt, hready]
  · rw [if_neg hlt]

/-- **After `n` turns**, with room for as many, the first `n` of the queue have been started. -/
theorem turns_start (ht : Reachable nextDelay t) (hp : t.phase = .dispatching) (hroot : t.sched.cancelRoot = false)
    {n : ℕ} (hn : n ≤ t.sched.room) :
    ∃ t', Machine.exec (step nextDelay) t (List.replicate n .tryDispatch) = some t' ∧ t'.phase = .dispatching ∧
      t'.sched.room + n = t.sched.room ∧ t.sched.StartAll n t'.sched := by
  induction n generalizing t with
  | zero => exact ⟨t, rfl, hp, rfl, .zero _⟩
  | succ n ih =>
    have hagree := readyAgrees_of_reachable ht hroot
    obtain ⟨hlt, hpos⟩ : t.sched.workers.length < t.sched.maxConcurrent ∧ 0 < t.sched.ready.length := by
      rw [Scheduler.room] at hn
      omega
    obtain ⟨id, rest, hready⟩ := List.exists_cons_of_length_pos hpos
    obtain ⟨job, hjob, hqueued⟩ := (hagree.mem_iff id).mp (by simp [hready])
    have hturn := turn_starts nextDelay hp hroot hlt hready hjob hqueued
    have hroom : (t.sched.startFront id rest job).room + 1 = t.sched.room := by
      simp only [Scheduler.room, Scheduler.startFront, hready, List.length_cons, List.length_append, List.length_nil]
        at hlt ⊢
      omega
    have hn' : n ≤ (t.sched.startFront id rest job).room := by omega
    obtain ⟨t', hexec, hp', hroom', hstarted⟩ := ih (ht.step hturn) hp hroot hn'
    refine ⟨t', (Machine.exec_cons_eq_some _).mpr ⟨_, hturn, hexec⟩, hp', ?_, .cons hagree.nodup hready hjob hstarted⟩
    rw [← Nat.add_assoc, hroom', hroom]

/-- A pass, from its first turn to its last. -/
theorem pass_runs (ht : Reachable nextDelay t) (hp : t.phase = .dispatching) (hroot : t.sched.cancelRoot = false) :
    ∃ t', Machine.exec (step nextDelay) t (List.replicate (t.sched.room + 1) .tryDispatch) = some t' ∧
      t'.phase = .head ∧ t.sched.StartAll t.sched.room t'.sched := by
  obtain ⟨t', hexec, hp', hroom, hstarted⟩ := turns_start ht hp hroot le_rfl
  refine ⟨{ t' with phase := .head }, ?_, rfl, hstarted⟩
  rw [List.replicate_succ', Machine.exec_append, hexec]
  exact (Machine.exec_cons_eq_some _).mpr ⟨_, turn_ends hp' (by omega), rfl⟩

/-- **What a pass of `try_dispatch` does**, in every run while the root token is not cancelled. With room for `k` of the
jobs that wait it takes `k + 1` turns and no more. After `n` of them it has started the first `n` of the queue in their
order, each once and with a new token, and done nothing else; and when it is over, no job waits or no slot is free. -/
theorem dispatch_pass (ht : Reachable nextDelay t) (hp : t.phase = .dispatching) (hroot : t.sched.cancelRoot = false) :
    (Machine.exec (step nextDelay) t (List.replicate (t.sched.room + 1) .tryDispatch)).isSome ∧
      ∀ n t', Machine.exec (step nextDelay) t (List.replicate n .tryDispatch) = some t' →
        n ≤ t.sched.room + 1 ∧ t.sched.StartAll (min n t.sched.room) t'.sched ∧
        (t'.phase = .head ↔ n = t.sched.room + 1) ∧
        (t'.phase = .head → t'.sched.ready = [] ∨ t'.sched.maxConcurrent ≤ t'.sched.workers.length) := by
  obtain ⟨u, hu, hup, hstarted⟩ := pass_runs ht hp hroot
  refine ⟨Option.isSome_iff_exists.mpr ⟨u, hu⟩, fun n t' hn => ?_⟩
  rcases Nat.lt_or_ge n (t.sched.room + 1) with hlt | hge
  · -- the pass is not over yet
    obtain ⟨v, hv, hvp, -, hvs⟩ := turns_start ht hp hroot (Nat.le_of_lt_succ hlt)
    obtain rfl : v = t' := Option.some.inj (hv.symm.trans hn)
    rw [min_eq_left (Nat.le_of_lt_succ hlt)]
    exact ⟨hlt.le, hvs, by simp [hvp, hlt.ne], by simp [hvp]⟩
  · -- it is, and there is no further turn
    obtain ⟨m, rfl⟩ := Nat.exists_eq_add_of_le hge
    rw [List.replicate_add, Machine.exec_append, hu, Option.bind_some] at hn
    cases m with
    | zero =>
      obtain rfl : u = t' := Option.some.inj hn
      rw [min_eq_right (Nat.le_succ _)]
      refine ⟨le_rfl, hstarted, by simp [hup], fun _ => ?_⟩
      exact saturated_of_reachable (ht.exec hu) hup (hstarted.stopped.2.trans hroot)
    | succ m =>
      obtain ⟨v, hv, -⟩ := (Machine.exec_cons_eq_some _).mp hn
      simp [step, hup] at hv

/-- With one slot: a third download waits for the first two. -/
def thirdInLine : List Action :=
  oneSlot ++ [.command (.enqueue 2 sampleRequest 5 6) (fun _ => .ok ()) [], .tryDispatch]

/-- The limit is raised to three, and there is room for both that wait. -/
theorem dispatch_pass_thirdInLine :
    ∃ t, Machine.exec (step backoffStrategy.nextDelay) (.new 1)
        (thirdInLine ++ [.command (.setMaxConcurrent 3) (fun _ => .ok ()) []]) = some t ∧
      t.sched.room = 2 ∧ ∀ n t',
        Machine.exec (step backoffStrategy.nextDelay) t (List.replicate n .tryDispatch) = some t' →
          n ≤ t.sched.room + 1 ∧ t.sched.StartAll (min n t.sched.room) t'.sched := by
  obtain ⟨t, ht, ⟨hp, hroot, hroom⟩, hr⟩ := exists_run backoffStrategy.nextDelay 1
    (thirdInLine ++ [.command (.setMaxConcurrent 3) (fun _ => .ok ()) []])
    (fun t => t.phase = .dispatching ∧ t.sched.cancelRoot = false ∧ t.sched.room = 2) (by decide)
  refine ⟨t, ht, hroom, fun n t' hn => ?_⟩
  obtain ⟨hle, hstarted, -⟩ := (dispatch_pass hr hp hroot).2 n t' hn
  exact ⟨hle, hstarted⟩

end Thread

end DownloadManager
