import DownloadManager.Manager
import DownloadManager.Scheduler.Dispatch
import DownloadManager.System.Isolation
import DownloadManager.System.Stopping
import Mathlib.Algebra.BigOperators.Group.List.Basic
import Mathlib.Algebra.Order.BigOperators.Group.List

/-!
# A shutdown comes to an end

After `shutdown` or the drop of the manager the root token is cancelled. The loop of `run`
polls it before anything else (`Attentive`), so it is left; `CancelAll` is handled; the
workers stop, as every worker does when it is told to; and the thread takes their results
and cleans up behind them. `work` is what is left of all this. Each step of the thread, of a
worker or of `discard_partial` makes it less (`Next.work_le`), and nobody else makes it more, so
there are only so many steps. And as long as `run` has not returned one of them is possible
(`exists_own`): whatever the others do, `run` returns (`shutdown_ends`).
-/

namespace DownloadManager

open FileSystem Program

variable {nextDelay : UInt32 → Except Panic Duration}

/-! ### The thread -/

/-- An arm makes no record. -/
theorem Arm.job_eq_none_of_none {discarded : Result Unit} {token : Token} {id : Uuid} {event : JobEvent} {e : Effect}
    (h : Arm nextDelay discarded token id none event e) : e.job = none := by
  cases h <;> rfl

/-- A transition adds no job. -/
theorem Scheduler.transitionJob_keys {discarded : Result Unit} {s s' : Scheduler} {id : Uuid} {event : JobEvent}
    (h : s.transitionJob nextDelay discarded id event = .ok s') : s'.jobs.keys ⊆ s.jobs.keys := by
  obtain ⟨e, harm, rfl⟩ := transitionJob_arm h
  intro other hmem
  rw [Finmap.mem_keys, ← Finmap.lookup_isSome] at hmem ⊢
  by_cases hne : other = id
  · subst hne
    rw [show (e.apply s other).jobs.lookup other = e.job from Jobs.lookup_put_self _ _ _] at hmem
    cases hj : s.jobs.lookup other with
    | some => rfl
    | none =>
      rw [hj] at harm
      rw [harm.job_eq_none_of_none] at hmem
      cases hmem
  · rwa [show (e.apply s id).jobs.lookup other = s.jobs.lookup other from Jobs.lookup_put_of_ne _ _ hne] at hmem

theorem Scheduler.cancelEach_keys {discarded : Uuid → Result Unit} {order : List Uuid} {s s' : Scheduler}
    (h : s.cancelEach nextDelay discarded order = .ok s') : s'.jobs.keys ⊆ s.jobs.keys := by
  induction order generalizing s with
  | nil => cases h; exact Finset.Subset.refl _
  | cons id ids ih =>
    unfold cancelEach at h
    split at h
    · cases h
    rename_i s₁ h₁
    exact (ih h).trans (transitionJob_keys h₁)

theorem Scheduler.handleCmd_keys {discarded : Uuid → Result Unit} {order : List Uuid} {cmd : SchedulerCmd}
    {s s' : Scheduler} (hcmd : cmd.enqueues = none) (h : s.handleCmd nextDelay discarded order cmd = .ok s') :
    s'.jobs.keys ⊆ s.jobs.keys := by
  cases cmd with
  | enqueue => cases hcmd
  | pause | resume | cancel =>
    simp only [handleCmd] at h
    exact transitionJob_keys h
  | setMaxConcurrent =>
    cases h
    exact Finset.Subset.refl _
  | cancelAll =>
    simp only [handleCmd] at h
    split at h <;> cases h
    rename_i s₁ h₁
    have hkeys := cancelEach_keys h₁
    exact hkeys

namespace Thread

variable {t t' : Thread} {a : Action}

/-- What the thread can do next. -/
def Enabled (t : Thread) : Action → Prop
  | .cancelRoot => True
  | .stop => t.phase = .head ∧ t.sched.cancelRoot
  | .disconnected => t.phase = .head
  | .command cmd _ order => t.phase = .head ∧ cmd.Fresh t.handled ∧ (cmd = .cancelAll → Visits order t.sched.jobs)
  | .worker w _ _ => w ∈ t.sched.workers ∧ (t.phase = .head ∨ t.phase = .draining)
  | .retry id attempt => (id, attempt) ∈ t.sched.delayed ∧ t.phase = .head
  | .tryDispatch => t.phase = .dispatching
  | .close _ order => t.phase = .closing ∧ Visits order t.sched.jobs
  | .finish => t.phase = .draining ∧ t.sched.workers = []

theorem step_isSome : (t.step nextDelay a).isSome ↔ t.Enabled a := by
  cases a <;> simp [step, Enabled]

/-- What is removed does not decide whether a step is possible. -/
theorem Enabled.withDiscarded (h : t.Enabled a) (results : Uuid → Result Unit) :
    t.Enabled (a.withDiscarded results) := by
  cases a <;> exact h

/-- Neither does the root token, for what the thread waits for. -/
theorem Enabled.cancelRoot (h : t.Enabled a) (ht : t.step nextDelay .cancelRoot = some t') : t'.Enabled a := by
  cases ht
  cases a with
  | stop => exact ⟨h.1, rfl⟩
  | cancelRoot | disconnected | command | worker | retry | tryDispatch | close | finish => exact h

/-- Whoever waits for the removal of partial files has a command, a worker's result or the end to deal with. -/
theorem Enabled.of_discards (h : t.Enabled a) (hne : t.discards a ≠ []) :
    (∃ cmd discarded order, a = .command cmd discarded order ∧ t.phase = .head) ∨
      (∃ w r discarded, a = .worker w r discarded ∧ w ∈ t.sched.workers ∧ (t.phase = .head ∨ t.phase = .draining)) ∨
      ∃ discarded order, a = .close discarded order ∧ t.phase = .closing := by
  cases a with
  | command cmd discarded order => exact .inl ⟨cmd, discarded, order, rfl, h.1⟩
  | worker w r discarded => exact .inr (.inl ⟨w, r, discarded, rfl, h⟩)
  | close discarded order => exact .inr (.inr ⟨discarded, order, rfl, h.1⟩)
  | cancelRoot | stop | disconnected | retry | tryDispatch | finish => exact absurd rfl hne

/-- The partial files of no more jobs are removed than there are. -/
theorem Enabled.length_discards_le (h : t.Enabled a) : (t.discards a).length ≤ t.sched.jobs.keys.card := by
  have hone {id : Uuid} {event : JobEvent} : (t.sched.discards id event).toList.length ≤ t.sched.jobs.keys.card := by
    cases hd : t.sched.discards id event with
    | none => exact Nat.zero_le _
    | some entry =>
      obtain ⟨job, hjob, -⟩ := Option.bind_eq_some_iff.mp hd
      have hmem : id ∈ t.sched.jobs.keys := by
        rw [Finmap.mem_keys, ← Finmap.lookup_isSome, hjob]
        rfl
      exact Finset.card_pos.mpr ⟨id, hmem⟩
  have hall {order : List Uuid} (horder : Visits order t.sched.jobs) :
      (order.filterMap fun id => t.sched.discards id .cancel).length ≤ t.sched.jobs.keys.card := by
    rw [← horder.2, List.toFinset_card_of_nodup horder.1]
    exact List.length_filterMap_le _ _
  cases a with
  | command cmd discarded order =>
    cases cmd with
    | cancel id => exact hone
    | cancelAll => exact hall (h.2.2 rfl)
    | enqueue | pause | resume | setMaxConcurrent => exact Nat.zero_le _
  | close discarded order => exact hall h.2
  | worker w r discarded => exact hone
  | cancelRoot | stop | disconnected | retry | tryDispatch | finish => exact Nat.zero_le _

/-- A panic unwinds the thread only in the loop, for a worker whose partial files stay. -/
theorem Reachable.panics_at_head {panic : Panic} (ht : t.Reachable nextDelay)
    (hlive : ∀ panic, t.phase ≠ .panicked panic) (h : t.step nextDelay a = some t') (hp : t'.phase = .panicked panic) :
    t.phase = .head ∧ t.discards a = [] ∧ ∃ w r discarded, a = .worker w r discarded := by
  cases next_of_step h with
  | cancelRoot => exact absurd hp (hlive panic)
  | stop | disconnected | command | retry | full | empty | dropped | close | finish => cases hp
  | worker _ hphase => rcases hphase with ⟨-, rfl⟩ | ⟨-, rfl⟩ <;> cases hp
  | dispatched => exact absurd hp (hlive panic)
  | @panic w result discarded _ _ hw hphase =>
    refine ⟨hphase.resolve_right fun hdraining => ?_, discards_of_panicked h, w, result, discarded, rfl⟩
    -- after the loop there are only jobs that are being cancelled
    simp only [step, hw, hdraining, true_and, or_true, if_true] at h
    cases hs : Scheduler.transitionJob nextDelay discarded { t.sched with workers := t.sched.workers.erase w } w.id
      (.worker result) with
    | ok sched =>
      rw [hs] at h
      cases congrArg (Option.map Thread.phase) h
    | error =>
      obtain ⟨job, -, hjob, -, hplain, -⟩ := Scheduler.transitionJob_panic hs
      rw [(drains_of_reachable ht).cancelling (.inl hdraining) w.id job hjob] at hplain
      cases hplain

end Thread

/-! ### What the thread waits for -/

theorem removeIfPresent_ends (path : PathBuf) : (removeIfPresent path).Ends Op.Stops 1 := by
  refine (Fs.attempt_ends _).andThen (m := 0) fun r => ?_
  split
  · exact ends_done
  · split_ifs
    · exact ends_done
    · exact ends_raise

theorem discardPartial_ends (dest : PathBuf) : (discardPartial dest).Ends Op.Stops 2 :=
  (removeIfPresent_ends _).andThen fun _ => removeIfPresent_ends _

/-- What is left to do of a cleanup. -/
noncomputable def Cleanup.work (c : Cleanup) : ℕ := c.program.budget Op.Stops + 1 + 3 * c.todo.length

namespace System

variable {platform : Platform} {s s' : System} {m : Move}

/-- What holds while the thread waits. -/
structure Waits (s : System) (c : Cleanup) : Prop where
  /-- It can go on. -/
  enabled : s.thread.Enabled c.action
  /-- It does not wait long. -/
  ends : c.program.Ends Op.Stops 2
  /-- It waits for the disk. -/
  disk : ∃ dest,
    c.program.Holds (Cleanup.env.under fun _ _ => True) (fun op _ => op.Removes dest) (fun _ _ => True) s.disk
  /-- A worker whose result it deals with is done. -/
  done : ∀ w r discarded, c.action = .worker w r discarded → s.program w = .done r

theorem waits_of_reachable (hs : s.Reachable nextDelay platform) : ∀ c ∈ s.cleanup, s.Waits c := by
  refine Machine.Reachable.induct (P := fun s => ∀ c ∈ s.cleanup, s.Waits c) ?_ ?_ hs
  · rintro s ⟨maxConcurrent, disk, rfl⟩
    exact nofun
  · intro s m s' _ ih h c hc
    have hstable {dest : PathBuf} {disk disk' : Disk} {p : Async Unit}
        (h : p.Holds (Cleanup.env.under fun _ _ => True) (fun op _ => op.Removes dest) (fun _ _ => True) disk) :
        p.Holds (Cleanup.env.under fun _ _ => True) (fun op _ => op.Removes dest) (fun _ _ => True) disk' :=
      h.stable (fun _ _ _ _ _ => trivial) (fun _ _ _ h _ => h) (fun _ _ _ _ _ => trivial) trivial
    cases next_of_step h with
    | cancelRoot ht =>
      obtain ⟨henabled, hends, hdisk, hdone⟩ := ih c hc
      exact ⟨henabled.cancelRoot ht, hends, hdisk, hdone⟩
    | act _ hidle => exact absurd (hidle.symm.trans hc) (by simp)
    | @wait _ action _ id dest todo hasks hidle hdiscards ht =>
      cases hc
      have henabled := Thread.step_isSome.mp (Option.isSome_iff_exists.mpr ⟨_, ht⟩)
      refine ⟨henabled, discardPartial_ends dest, ⟨dest, discardPartial_removes dest _⟩, ?_⟩
      rintro w r discarded (rfl : action = _)
      cases hasks with
      | thread hworker => exact absurd rfl (hworker w r discarded)
      | yield hprogram => exact hprogram
    | @worker w choice op next r l hw hprogram hperform =>
      obtain ⟨henabled, hends, ⟨dest, hdisk⟩, hdone⟩ := ih c hc
      refine ⟨henabled, hends, ⟨dest, hstable hdisk⟩, fun w' r' discarded hact => ?_⟩
      have hdone' := hdone w' r' discarded hact
      have hne : w' ≠ w := by
        rintro rfl
        cases hdone'.symm.trans hprogram
      exact (Function.update_of_ne hne _ _).trans hdone'
    | @cleanup c₀ fault op next r disk hcleanup hprogram htruthful hperform =>
      cases hc
      obtain ⟨henabled, hends, ⟨dest, hdisk⟩, hdone⟩ := ih c₀ hcleanup
      rw [hprogram] at hends hdisk
      exact ⟨henabled, hends.2 r, ⟨dest, hdisk.2 r disk ⟨s.disk, trivial, fault, htruthful, hperform⟩⟩, hdone⟩
    | @again c₀ r id dest todo hcleanup hprogram htodo =>
      cases hc
      obtain ⟨henabled, -, -, hdone⟩ := ih c₀ hcleanup
      exact ⟨henabled, discardPartial_ends dest, ⟨dest, discardPartial_removes dest _⟩, hdone⟩
    | resume => cases hc
    | outside =>
      obtain ⟨henabled, hends, ⟨dest, hdisk⟩, hdone⟩ := ih c hc
      exact ⟨henabled, hends, ⟨dest, hstable hdisk⟩, hdone⟩

/-! ### The measure -/

/-- The workers whose results have not been taken. -/
def awaited (s : System) : List Worker :=
  match s.cleanup.map Cleanup.action with
  | some (.worker w _ _) => s.thread.sched.workers.erase w
  | _ => s.thread.sched.workers

/-- What is left of `run` without the workers and the removal of partial files under way: each job left may have
partial files to be removed. -/
def rank (s : System) : ℕ :=
  match s.thread.phase, s.cleanup.isSome with
  | .head, true => 3 * s.thread.sched.jobs.keys.card + 6
  | .dispatching, _ => 3 * s.thread.sched.jobs.keys.card + 5
  | .head, false => 3 * s.thread.sched.jobs.keys.card + 4
  | .closing, false => 3 * s.thread.sched.jobs.keys.card + 3
  | .closing, true => 2
  | .draining, _ => 1
  | .returned, _ | .panicked _, _ => 0

/-- **What is left of a shutdown.** A worker has to end, its result to be taken, and its partial files to be removed. -/
noncomputable def work (s : System) : ℕ :=
  (s.awaited.map fun w => (s.program w).budget Op.Stops + 5).sum + s.cleanup.elim 0 Cleanup.work + s.rank

/-- The loop polls the root token first (`select_biased!`). -/
def Attentive (s : System) : Move → Prop
  | .thread .stop | .thread .cancelRoot => True
  | .thread _ | .yield _ => ¬(s.thread.phase = .head ∧ s.thread.sched.cancelRoot = true)
  | _ => True

instance : ∀ (s : System) (m : Move), Decidable (s.Attentive m)
  | _, .thread .stop | _, .thread .cancelRoot | _, .worker _ _ | _, .cleanup _ | _, .discarded | _, .outside _ _ =>
    inferInstanceAs (Decidable True)
  | s, .yield _ | s, .thread .disconnected | s, .thread (.command _ _ _) | s, .thread (.worker _ _ _) |
    s, .thread (.retry _ _) | s, .thread .tryDispatch | s, .thread (.close _ _) | s, .thread .finish =>
    inferInstanceAs (Decidable (¬(s.thread.phase = .head ∧ s.thread.sched.cancelRoot = true)))

end System

/-- A move of the manager's own: not of its clients, and not of another program. -/
def Move.own : Move → Bool
  | .thread .cancelRoot | .outside _ _ => false
  | _ => true

namespace System

variable {platform : Platform} {s s' : System} {m : Move}

/-- What is left while no partial files are being removed. -/
theorem work_idle (hidle : s.cleanup = none) :
    s.work = (s.thread.sched.workers.map fun w => (s.program w).budget Op.Stops + 5).sum + s.rank := by
  simp [work, awaited, hidle]

/-- An operation of a worker that has been told to stop. -/
theorem work_worker (hs : s.Reachable nextDelay platform) (hroot : s.thread.sched.cancelRoot = true) {w : Worker}
    {choice : Choice} {op : Op} {next : op.Reply → Async WorkerResult} {r : op.Reply} {l : Local}
    (hw : w ∈ s.thread.sched.workers) (hprogram : s.program w = .call op next)
    (hperform : (s.shared w).perform op choice = some (r, l)) : (s.performed w (next r) l).work < s.work := by
  have hends := ends_of_reachable hs w
  rw [hprogram] at hends
  have hlt : (next r).budget Op.Stops < (s.program w).budget Op.Stops :=
    hprogram ▸ budget_lt hends.within (Local.perform_stops hperform (by simp [shared, cancelled, hroot]))
  have hmem : w ∈ s.awaited := by
    unfold awaited
    split
    · next w' r' discarded hact =>
      obtain ⟨c, hc, hact⟩ := Option.map_eq_some_iff.mp hact
      have hdone := (waits_of_reachable hs c hc).done w' r' discarded hact
      have hne : w ≠ w' := by
        rintro rfl
        cases hdone.symm.trans hprogram
      exact (List.mem_erase_of_ne hne).mpr hw
    · exact hw
  have hprogram' (w' : Worker) :
      ((s.performed w (next r) l).program w').budget Op.Stops ≤ (s.program w').budget Op.Stops := by
    by_cases hne : w' = w
    · subst hne
      rw [program_performed]
      exact hlt.le
    · rw [show (s.performed w (next r) l).program w' = s.program w' from Function.update_of_ne hne _ _]
  have hsum : (s.awaited.map fun w' => ((s.performed w (next r) l).program w').budget Op.Stops + 5).sum <
      (s.awaited.map fun w' => (s.program w').budget Op.Stops + 5).sum :=
    List.sum_lt_sum _ _ (fun w' _ => Nat.add_le_add_right (hprogram' w') 5)
      ⟨w, hmem, Nat.add_lt_add_right (by rwa [program_performed]) 5⟩
  exact Nat.add_lt_add_right (Nat.add_lt_add_right hsum _) _

/-- Taking a worker's result. -/
theorem sum_erase (s : System) {w : Worker} (hw : w ∈ s.thread.sched.workers) :
    5 + ((s.thread.sched.workers.erase w).map fun w => (s.program w).budget Op.Stops + 5).sum ≤
      (s.thread.sched.workers.map fun w => (s.program w).budget Op.Stops + 5).sum := by
  rw [← List.sum_map_erase (fun w => (s.program w).budget Op.Stops + 5) hw]
  omega

/-- A step of the thread that removes no partial files. -/
theorem work_act {action : Action} {t : Thread} (hroot : s.thread.sched.cancelRoot = true) (hattentive : s.Attentive m)
    (hasks : s.Asks m action) (hidle : s.cleanup = none) (ht : s.thread.step nextDelay action = some t) :
    ({ s with thread := t } : System).work + (if m.own then 1 else 0) ≤ s.work := by
  have hnext := Thread.next_of_step ht
  rw [work_idle hidle, work_idle (s := { s with thread := t }) hidle]
  simp only [rank, hidle, Option.isSome_none]
  cases hasks with
  | yield hprogram =>
    cases hnext with
    | @worker _ _ _ s' phase hw hp hs =>
      rcases hp with ⟨hp, -⟩ | ⟨hp, rfl⟩
      · exact absurd ⟨hp, hroot⟩ hattentive
      have hworkers : s'.workers = s.thread.sched.workers.erase _ := (Scheduler.transitionJob_workers (by simp) hs).1
      have hsum := s.sum_erase hw
      simp only [hp, hworkers, Move.own, if_true]
      omega
    | panic hw hp =>
      rcases hp with hp | hp
      · exact absurd ⟨hp, hroot⟩ hattentive
      simp [hp, Move.own]
  | thread hworker =>
    cases hnext with
    | cancelRoot => simp [Move.own]
    | disconnected hp | command hp | retry hp => exact absurd ⟨hp, hroot⟩ hattentive
    | worker | panic => exact absurd rfl (hworker _ _ _)
    | stop hp | full hp | empty hp | dropped hp | finish hp =>
      simp only [hp, Move.own, if_true]
      omega
    | dispatched hp hlt hready =>
      -- the token is looked at before a job is started
      simp only [Thread.step, hp, Thread.tryDispatch, hlt, hready, hroot, if_true] at ht
      exact absurd (congrArg Thread.phase (Option.some.inj ht)) (by simp)
    | @close _ _ s' hp horder hs =>
      have hworkers : s'.workers = s.thread.sched.workers := Scheduler.handleCmd_workers hs
      simp only [hp, hworkers, Move.own, if_true]
      omega

/-- The thread begins to wait. -/
theorem work_wait {action : Action} {t : Thread} {id : Uuid} {dest : PathBuf} {todo : List (Uuid × PathBuf)}
    (hroot : s.thread.sched.cancelRoot = true) (hattentive : s.Attentive m) (hasks : s.Asks m action)
    (hidle : s.cleanup = none) (hdiscards : s.thread.discards action = (id, dest) :: todo)
    (ht : s.thread.step nextDelay action = some t) :
    ({ s with cleanup := some ⟨action, id, discardPartial dest, todo, []⟩ } : System).work + (if m.own then 1 else 0) ≤
      s.work := by
  have henabled : s.thread.Enabled action := Thread.step_isSome.mp (Option.isSome_iff_exists.mpr ⟨_, ht⟩)
  have hlength := henabled.length_discards_le
  have hbudget := budget_le (discardPartial_ends dest).within
  have hown : (if m.own then 1 else 0) ≤ 1 := by split_ifs <;> omega
  rw [hdiscards, List.length_cons] at hlength
  rcases henabled.of_discards (by simp [hdiscards]) with ⟨cmd, _, _, rfl, hp⟩ | ⟨w, r, _, rfl, hw, hp⟩ | ⟨_, _, rfl, hp⟩
  · cases hasks
    exact absurd ⟨hp, hroot⟩ hattentive
  · cases hasks with
    | thread hworker => exact absurd rfl (hworker _ _ _)
    | yield hprogram =>
      have hp : s.thread.phase = .draining := hp.resolve_left fun hp => hattentive ⟨hp, hroot⟩
      have hsum := s.sum_erase hw
      have htodo : todo = [] := by
        have hone : (s.thread.discards (.worker w r (.ok ()))).length ≤ 1 := Option.length_toList_le
        rw [hdiscards, List.length_cons] at hone
        exact List.length_eq_zero_iff.mp (by omega)
      simp only [work, awaited, rank, hidle, hp, Option.isSome_some, Option.isSome_none, Option.map_some,
        Option.elim_some, Option.map_none, Option.elim_none, Cleanup.work, htodo, List.length_nil]
      omega
  · simp only [work, awaited, rank, hidle, hp, Option.isSome_some, Option.isSome_none, Option.map_some,
      Option.elim_some, Option.map_none, Option.elim_none, Cleanup.work]
    omega

/-- The thread goes on after it has waited. -/
theorem work_resume (hs : s.Reachable nextDelay platform) {c : Cleanup} {results : Uuid → Result Unit} {t : Thread}
    (hcleanup : s.cleanup = some c) (ht : s.thread.step nextDelay (c.action.withDiscarded results) = some t)
    (discarded : List (Uuid × Result Unit)) :
    ({ s with thread := t, discarded := discarded, cleanup := none } : System).work < s.work := by
  obtain ⟨before, dest, hdiscards, -⟩ := (cleanup_agrees hs c hcleanup).discards
  have hnext := Thread.next_of_step ht
  have hne : s.thread.discards c.action ≠ [] := by simp [hdiscards]
  have hpositive : 1 ≤ c.work := by
    unfold Cleanup.work
    omega
  rcases (waits_of_reachable hs c hcleanup).enabled.of_discards hne with
    ⟨cmd, _, order, hact, hp⟩ | ⟨w, r, _, hact, hw, hp⟩ | ⟨_, order, hact, hp⟩
  · rw [hact] at hnext hne
    cases hnext with
    | @command _ _ _ s' _ _ _ hs' =>
      have hcmd : cmd.enqueues = none := by
        cases cmd with
        | enqueue => exact absurd rfl hne
        | pause | resume | cancel | cancelAll | setMaxConcurrent => rfl
      have hworkers : s'.workers = s.thread.sched.workers := Scheduler.handleCmd_workers hs'
      have hjobs := Finset.card_le_card (Scheduler.handleCmd_keys hcmd hs')
      simp only [work, awaited, rank, hcleanup, hp, hact, hworkers, Option.isSome_some, Option.map_some,
        Option.map_none, Option.elim_some,
        Option.elim_none]
      omega
  · rw [hact] at hnext ht hne
    cases hnext with
    | @worker _ _ _ s' phase _ hphase hs' =>
      have hworkers : s'.workers = s.thread.sched.workers.erase w := (Scheduler.transitionJob_workers (by simp) hs').1
      have hkeys := Scheduler.transitionJob_keys hs'
      have hjobs : s'.jobs.keys.card ≤ s.thread.sched.jobs.keys.card := Finset.card_le_card hkeys
      rcases hphase with ⟨hp, rfl⟩ | ⟨hp, rfl⟩
      all_goals
        simp only [work, awaited, rank, hcleanup, hp, hact, hworkers, Option.isSome_some, Option.map_some,
        Option.map_none, Option.elim_some,
          Option.elim_none]
        omega
    | panic => exact absurd (Thread.discards_of_panicked ht) hne
  · rw [hact] at hnext
    cases hnext with
    | @close _ _ s' _ _ hs' =>
      have hworkers : s'.workers = s.thread.sched.workers := Scheduler.handleCmd_workers hs'
      simp only [work, awaited, rank, hcleanup, hp, hact, hworkers, Option.isSome_some, Option.map_some,
        Option.map_none, Option.elim_some,
        Option.elim_none]
      omega

/-- **Each step of a shutdown leaves less to do**, and nobody else makes it more. -/
theorem Next.work_le (hs : s.Reachable nextDelay platform) (hroot : s.thread.sched.cancelRoot = true)
    (hattentive : s.Attentive m) (hnext : s.Next nextDelay m s') : s'.work + (if m.own then 1 else 0) ≤ s.work := by
  cases hnext with
  | cancelRoot ht =>
    cases ht
    simp [work, awaited, rank, Move.own]
  | act hasks hidle hnone ht => exact work_act hroot hattentive hasks hidle ht
  | wait hasks hidle hdiscards ht => exact work_wait hroot hattentive hasks hidle hdiscards ht
  | worker hw hprogram hperform => exact work_worker hs hroot hw hprogram hperform
  | @cleanup c fault op next r disk hcleanup hprogram =>
    have hends := (waits_of_reachable hs c hcleanup).ends
    rw [hprogram] at hends
    have hlt : (next r).budget Op.Stops < c.program.budget Op.Stops :=
      hprogram ▸ budget_lt hends.within (r := r) trivial
    simp only [work, awaited, rank, hcleanup, Option.isSome_some, Option.map_some, Option.elim_some, Cleanup.work,
      Move.own, if_true]
    omega
  | @again c r id dest todo hcleanup hprogram htodo =>
    have hbudget := budget_le (discardPartial_ends dest).within
    simp only [work, awaited, rank, hcleanup, Option.isSome_some, Option.map_some, Option.elim_some, Cleanup.work,
      htodo, List.length_cons, Move.own, if_true]
    omega
  | resume hcleanup _ _ ht => exact work_resume hs hcleanup ht _
  | outside => exact le_rfl

/-- How much there can be left. -/
theorem work_le (hs : s.Reachable nextDelay platform) :
    s.work ≤ 16 * s.thread.sched.workers.length + 6 * s.thread.sched.jobs.keys.card + 6 := by
  have hworkers :
      (s.awaited.map fun w => (s.program w).budget Op.Stops + 5).sum ≤ 16 * s.thread.sched.workers.length := by
    have hlength : s.awaited.length ≤ s.thread.sched.workers.length := by
      unfold awaited
      split
      · exact List.length_erase_le
      · exact le_rfl
    have hsum := List.sum_le_card_nsmul (s.awaited.map fun w => (s.program w).budget Op.Stops + 5) 16 <| by
      rintro n hn
      obtain ⟨w, -, rfl⟩ := List.mem_map.mp hn
      exact Nat.add_le_add_right (budget_le (ends_of_reachable hs w).within) 5
    rw [List.length_map, nsmul_eq_mul, Nat.cast_id] at hsum
    omega
  unfold work
  cases hcleanup : s.cleanup with
  | none =>
    have hrank : s.rank ≤ 3 * s.thread.sched.jobs.keys.card + 5 := by
      unfold rank
      split <;> simp_all
    simp only [Option.elim_none]
    omega
  | some c =>
    have hwaits := waits_of_reachable hs c hcleanup
    obtain ⟨before, dest, hdiscards, -⟩ := (cleanup_agrees hs c hcleanup).discards
    have hlength := hwaits.enabled.length_discards_le
    have hbudget := budget_le hwaits.ends.within
    have hrank : s.rank ≤ 3 * s.thread.sched.jobs.keys.card + 6 := by
      unfold rank
      split <;> simp_all
    simp only [hdiscards, List.length_append, List.length_cons, Option.elim_some, Cleanup.work] at hlength ⊢
    omega

/-! ### Something is always possible -/

/-- The thread goes on if it can, or waits. -/
theorem exists_act (nextDelay : UInt32 → Except Panic Duration) {action : Action} (h : s.thread.Enabled action) :
    ∃ s', s.act nextDelay action = some s' := by
  have hsome : (s.thread.step nextDelay action).isSome := Thread.step_isSome.mpr h
  obtain ⟨t, ht⟩ := Option.isSome_iff_exists.mp hsome
  unfold act
  split
  · exact ⟨_, by rw [ht]; rfl⟩
  · exact ⟨_, by rw [if_pos hsome]⟩

/-- A worker that is not done can go on. -/
theorem exists_worker (nextDelay : UInt32 → Except Panic Duration) {w : Worker}
    (hroot : s.thread.sched.cancelRoot = true) (hw : w ∈ s.thread.sched.workers) {op : Op}
    {next : op.Reply → Async WorkerResult} (hprogram : s.program w = .call op next) :
    ∃ choice s', s.step nextDelay (.worker w choice) = some s' := by
  have hc : (s.shared w).cancelled = true := by simp [shared, cancelled, hroot]
  have hperform : ∃ choice r, (s.shared w).perform op choice = some r := by
    cases op with
    | file op =>
      have hallows : (s.shared w).Allows (.file op) (.file none) := fun f hf => by cases hf
      exact ⟨.file none, _, by rw [Local.perform, if_pos hallows]; rfl⟩
    | send request =>
      have hallows : (s.shared w).Allows (.send request) (.send .stopped) := hc.symm
      exact ⟨.send .stopped, _, by rw [Local.perform, if_pos hallows]; rfl⟩
    | pollStop =>
      have hallows : (s.shared w).Allows .pollStop (.pollStop true) := hc.symm
      exact ⟨.pollStop true, _, by rw [Local.perform, if_pos hallows]; rfl⟩
  obtain ⟨choice, r, hr⟩ := hperform
  refine ⟨choice, s.performed w (next r.1) r.2, ?_⟩
  simp only [step, hprogram, if_pos hw, hr, Option.map_some]

/-- **A shutdown is never stuck**: as long as `run` is not over, a step of its own is possible. -/
theorem exists_own (hs : s.Reachable nextDelay platform) (hroot : s.thread.sched.cancelRoot = true)
    (hlive : s.thread.phase.over = false) : ∃ m s', m.own = true ∧ s.Attentive m ∧ s.step nextDelay m = some s' := by
  cases hcleanup : s.cleanup with
  | some c =>
    obtain ⟨henabled, hends, ⟨dest, hdisk⟩, hdone⟩ := waits_of_reachable hs c hcleanup
    obtain ⟨action, id, program, todo, results⟩ := c
    cases program with
    | done r =>
      have hstep : s.step nextDelay .discarded = s.discard nextDelay ⟨action, id, .done r, todo, results⟩ r := by
        simp only [step, hcleanup]
      cases todo with
      | cons entry todo => exact ⟨.discarded, _, rfl, trivial, hstep.trans rfl⟩
      | nil =>
        have hsome : (s.thread.step nextDelay (action.withDiscarded fun id' =>
            ((results ++ [(id, r)]).lookup id').getD (.ok ()))).isSome :=
          Thread.step_isSome.mpr (henabled.withDiscarded _)
        obtain ⟨t, ht⟩ := Option.isSome_iff_exists.mp hsome
        refine ⟨.discarded, { s with thread := t, discarded := s.discarded ++ [(id, r)], cleanup := none }, rfl,
          trivial, ?_⟩
        rw [hstep]
        simp only [discard, ht, Option.map_some]
    | call op next =>
      obtain ⟨fileOp, rfl⟩ : ∃ fileOp, op = .file fileOp := by
        rcases hdisk.1 with rfl | rfl
        · exact ⟨_, rfl⟩
        · exact ⟨_, rfl⟩
      have htruthful : Truthful s.disk fileOp none := fun f hf => by cases hf
      let r := performFile s.disk none fileOp
      refine ⟨.cleanup none, { s with disk := r.2, cleanup := some ⟨action, id, next r.1, todo, results⟩ }, rfl,
        trivial, ?_⟩
      simp only [step, hcleanup, if_pos htruthful, r]
  | none =>
    have hthread (action : Action) (henabled : s.thread.Enabled action)
        (hstep : s.step nextDelay (.thread action) = s.act nextDelay action) (hroot' : action ≠ .cancelRoot)
        (hattentive : s.Attentive (.thread action)) :
        ∃ m s', m.own = true ∧ s.Attentive m ∧ s.step nextDelay m = some s' := by
      obtain ⟨s', hs'⟩ := exists_act nextDelay henabled
      refine ⟨.thread action, s', ?_, hattentive, hstep.trans hs'⟩
      cases action <;> first | rfl | exact absurd rfl hroot'
    cases hp : s.thread.phase with
    | head => exact hthread .stop ⟨hp, hroot⟩ (by simp [step, hcleanup]) (by simp) trivial
    | dispatching => exact hthread .tryDispatch hp (by simp [step, hcleanup]) (by simp) (by simp [Attentive, hp])
    | closing =>
      have hvisits : Visits s.thread.sched.jobs.keys.toList s.thread.sched.jobs :=
        ⟨Finset.nodup_toList _, Finset.toList_toFinset _⟩
      exact hthread (.close (fun _ => .ok ()) _) ⟨hp, hvisits⟩ (by simp [step, hcleanup]) (by simp)
        (by simp [Attentive, hp])
    | draining =>
      cases hworkers : s.thread.sched.workers with
      | nil => exact hthread .finish ⟨hp, hworkers⟩ (by simp [step, hcleanup]) (by simp) (by simp [Attentive, hp])
      | cons w ws =>
        have hw : w ∈ s.thread.sched.workers := hworkers ▸ List.mem_cons_self
        cases hprogram : s.program w with
        | call op next =>
          obtain ⟨choice, s', hs'⟩ := exists_worker nextDelay hroot hw hprogram
          exact ⟨.worker w choice, s', rfl, trivial, hs'⟩
        | done r =>
          have henabled : s.thread.Enabled (.worker w r (.ok ())) := ⟨hw, .inr hp⟩
          obtain ⟨s', hs'⟩ := exists_act nextDelay henabled
          exact ⟨.yield w, s', rfl, by simp [Attentive, hp], by simpa [step, hprogram, hcleanup] using hs'⟩
    | returned | panicked => simp [hp, Phase.over] at hlive

/-! ### The end -/

/-- Nothing panics once the root token has been cancelled. -/
theorem Next.phase_ne_panicked (hs : s.Reachable nextDelay platform) (hroot : s.thread.sched.cancelRoot = true)
    (hattentive : s.Attentive m) (hlive : ∀ panic, s.thread.phase ≠ .panicked panic) (hnext : s.Next nextDelay m s')
    (panic : Panic) : s'.thread.phase ≠ .panicked panic := by
  have hthread {action : Action} {t : Thread} (ht : s.thread.step nextDelay action = some t)
      (hp : t.phase = .panicked panic) := (thread_of_reachable hs).panics_at_head hlive ht hp
  intro hp
  cases hnext with
  | cancelRoot ht =>
    obtain ⟨-, -, _, _, _, hact⟩ := hthread ht hp
    cases hact
  | act hasks _ _ ht =>
    obtain ⟨hhead, -, w, r, discarded, rfl⟩ := hthread ht hp
    cases hasks with
    | thread hworker => exact hworker w r discarded rfl
    | yield => exact hattentive ⟨hhead, hroot⟩
  | wait | worker | cleanup | again | outside => exact hlive panic hp
  | resume hcleanup _ _ ht =>
    obtain ⟨-, hnone, -⟩ := hthread ht hp
    obtain ⟨before, dest, hdiscards, -⟩ := (cleanup_agrees hs _ hcleanup).discards
    rw [Thread.discards_withDiscarded, hdiscards] at hnone
    exact absurd hnone (by simp)

/-- **A shutdown ends, whatever the others do.** From the moment the root token is cancelled, whatever clients, workers
and other programs do and however the operations on the disk turn out, the manager takes a bounded number of steps, for
each worker and each job there is; and as long as `run` has not returned, one of them is possible. -/
theorem shutdown_ends {ms : List Move} (hs : s.Reachable nextDelay platform) (hroot : s.thread.sched.cancelRoot = true)
    (hlive : ∀ panic, s.thread.phase ≠ .panicked panic) (hattentive : Machine.Along (step nextDelay) Attentive s ms)
    (hrun : Machine.exec (step nextDelay) s ms = some s') :
    ms.countP Move.own ≤ 16 * s.thread.sched.workers.length + 6 * s.thread.sched.jobs.keys.card + 6 ∧
      (s'.thread.phase = .returned ∨ ∃ m s'', m.own = true ∧ s'.Attentive m ∧ s'.step nextDelay m = some s'') := by
  let Q (t : System) := t.Reachable nextDelay platform ∧ t.thread.sched.cancelRoot = true ∧
    ∀ panic, t.thread.phase ≠ .panicked panic
  have hkeeps (t : System) (m : Move) (t' : System) (ht : Q t) (hm : t.Attentive m)
      (h : t.step nextDelay m = some t') : Q t' :=
    ⟨ht.1.step h, (next_of_step h).later.cancelRoot ht.2.1, (next_of_step h).phase_ne_panicked ht.1 ht.2.1 hm ht.2.2⟩
  constructor
  · have hcount := Machine.countP_add_le (step nextDelay) (Q := Q) (f := work) (c := Move.own)
      (fun t m t' ht hm h => ⟨hkeeps t m t' ht hm h, (next_of_step h).work_le ht.1 ht.2.1 hm⟩) ms hattentive
      ⟨hs, hroot, hlive⟩ hrun
    have hwork := work_le hs
    omega
  · obtain ⟨hs', hroot', hlive'⟩ :=
      Machine.exec_induct_along (step nextDelay) hkeeps ms hattentive ⟨hs, hroot, hlive⟩ hrun
    by_cases hp : s'.thread.phase = .returned
    · exact .inl hp
    · refine .inr (exists_own hs' hroot' ?_)
      cases hphase : s'.thread.phase with
      | returned => exact absurd hphase hp
      | panicked panic => exact absurd hphase (hlive' panic)
      | head | dispatching | closing | draining => rfl

/-- The manager is dropped while its first worker is in the middle of a transfer: the worker makes a checkpoint, and
its partial files are removed. -/
def droppedMidway : List Move :=
  [.thread .stop, .thread (.close (fun _ => .ok ()) [0]), .worker firstWorker (.pollStop true)] ++
    List.replicate 4 (.worker firstWorker (.file none)) ++
    [.yield firstWorker, .cleanup none, .cleanup none, .discarded, .thread .finish]

/-- A manager that is dropped during a transfer. -/
theorem shutdown_ends_droppedMidway :
    ∃ s s', Machine.exec (step backoffStrategy.nextDelay) (.new .sample 1 .empty)
        (started ++ answered (.sample .ok "\"a\"" [1, 2]) ++ opened ++ written ++ [.thread .cancelRoot]) = some s ∧
      Machine.exec (step backoffStrategy.nextDelay) s droppedMidway = some s' ∧
      droppedMidway.countP Move.own ≤ 16 * s.thread.sched.workers.length + 6 * s.thread.sched.jobs.keys.card + 6 ∧
      (s'.thread.phase = .returned ∨
        ∃ m s'', m.own = true ∧ s'.Attentive m ∧ s'.step backoffStrategy.nextDelay m = some s'') := by
  have h : (Machine.exec (step backoffStrategy.nextDelay) (.new .sample 1 .empty)
      (started ++ answered (.sample .ok "\"a\"" [1, 2]) ++ opened ++ written ++ [.thread .cancelRoot])).any (fun s =>
      (s.thread.sched.cancelRoot = true ∧ s.thread.phase = .head ∧
        Machine.Along (step backoffStrategy.nextDelay) Attentive s droppedMidway) ∧
      (Machine.exec (step backoffStrategy.nextDelay) s droppedMidway).any fun _ => True) := by
    decide +kernel
  obtain ⟨s, hs, ⟨hroot, hp, hattentive⟩, hend⟩ := Machine.exists_exec_of_any _ h
  obtain ⟨s', hs', -⟩ := Machine.exists_exec_of_any _ hend
  exact ⟨s, s', hs, hs', shutdown_ends (.exec (.init ⟨1, .empty, rfl⟩) hs) hroot (by simp [hp]) hattentive hs'⟩

end System

end DownloadManager
