import DownloadManager.Library.Machine
import Mathlib.Data.List.Nodup
import Mathlib.Logic.Function.Basic

/-!
# Slots

Tasks share a number of slots. A task waits in a queue until it is first and a slot is free, holds
the slot for a while, and may wait again. All that is known of a task is its stage: `SlotRules`
says in which stages it waits, in which it holds a slot, and which stage may come next.

`Slots.step` is the machine whose actions are reports, of a task that comes to a stage or of
another number of slots. It accepts what the rules and the queue allow, so that a run of it is a
history the slots can have. Whoever is told the stages only, in their order, can follow it with
`enterAll`, without knowing how many slots there are (`exec_enterAll`).
-/

/-- What the stages of a task mean. -/
structure SlotRules (σ : Type*) where
  /-- It waits in the queue. -/
  waits : σ → Bool
  /-- It holds a slot. -/
  holds : σ → Bool
  /-- What may come after a stage, or first. -/
  follows : Option σ → σ → Bool

/-- The tasks, the queue and the slots. -/
structure Slots (α σ : Type*) where
  /-- The stage of each task. -/
  stage : α → Option σ
  /-- The tasks that wait, first to be served first. -/
  queue : List α
  /-- The tasks that hold a slot, in the order they took it. -/
  held : List α
  /-- How many slots there are. -/
  limit : ℕ

namespace Slots

/-- What is reported. -/
inductive Report (α σ : Type*) where
  /-- A task comes to a stage. -/
  | stage (a : α) (x : σ)
  /-- The number of slots is another. -/
  | limit (n : ℕ)

/-- The stage a report is about. -/
def Report.stage? {α σ : Type*} : Report α σ → Option (α × σ)
  | stage a x => some (a, x)
  | limit _ => none

/-- The number of slots a report is about. -/
def Report.limit? {α σ : Type*} : Report α σ → Option ℕ
  | stage _ _ => none
  | limit n => some n

variable {α σ : Type*}

/-- No task has come. -/
def new (limit : ℕ) : Slots α σ := ⟨fun _ => none, [], [], limit⟩

variable [DecidableEq α] (rules : SlotRules σ)

/-- A task comes to a stage. -/
def enter (s : Slots α σ) (m : α × σ) : Slots α σ where
  stage := Function.update s.stage m.1 (some m.2)
  queue := s.queue.filter (· ≠ m.1) ++ if rules.waits m.2 then [m.1] else []
  held := if rules.holds m.2 then (if m.1 ∈ s.held then s.held else s.held ++ [m.1]) else s.held.filter (· ≠ m.1)
  limit := s.limit

/-- Tasks come to stages, one after the other. -/
def enterAll (s : Slots α σ) (ms : List (α × σ)) : Slots α σ := ms.foldl (enter rules) s

/-- A task may hold a slot: it does, or it is first in the queue and one is free. -/
def Admits (s : Slots α σ) (a : α) : Prop := a ∈ s.held ∨ s.queue.head? = some a ∧ s.held.length < s.limit

instance (s : Slots α σ) (a : α) : Decidable (s.Admits a) := inferInstanceAs (Decidable (_ ∨ _))

/-- A report is accepted. -/
def step (s : Slots α σ) : Report α σ → Option (Slots α σ)
  | .stage a x =>
    if rules.follows (s.stage a) x ∧ (rules.holds x → s.Admits a) then some (s.enter rules (a, x)) else none
  | .limit n => some { s with limit := n }

variable {rules} {s t : Slots α σ} {ms : List (α × σ)} {a : α} {x : σ}

theorem step_stage (hfollows : rules.follows (s.stage a) x) (hadmits : rules.holds x → s.Admits a) :
    s.step rules (.stage a x) = some (s.enter rules (a, x)) := if_pos ⟨hfollows, hadmits⟩

/-! ### What an observer knows -/

theorem enterAll_append (s : Slots α σ) (ms ms' : List (α × σ)) :
    s.enterAll rules (ms ++ ms') = (s.enterAll rules ms).enterAll rules ms' := List.foldl_append

/-- The number of slots makes no difference to who waits and who holds one. -/
theorem enterAll_limit (s : Slots α σ) (n : ℕ) (ms : List (α × σ)) :
    { s with limit := n }.enterAll rules ms = { s.enterAll rules ms with limit := n } := by
  induction ms generalizing s with
  | nil => rfl
  | cons m ms ih => exact ih (s.enter rules m)

/-- **An observer can follow**: an accepted history leads where the stages lead that were reported. -/
theorem exec_enterAll {reports : List (Report α σ)} (h : Machine.exec (step rules) s reports = some t) :
    t = { s.enterAll rules (reports.filterMap Report.stage?) with limit := t.limit } := by
  induction reports generalizing s with
  | nil =>
    cases h
    rfl
  | cons r reports ih =>
    obtain ⟨u, hu, h⟩ := (Machine.exec_cons_eq_some _).mp h
    cases r with
    | stage a x =>
      simp only [step, Option.ite_none_right_eq_some, Option.some.injEq] at hu
      obtain ⟨-, rfl⟩ := hu
      exact ih h
    | limit n =>
      cases hu
      rw [List.filterMap_cons_none (f := Report.stage?) rfl]
      have ht := ih h
      rwa [enterAll_limit] at ht

/-- The stage of a task is the last one it came to. -/
theorem enterAll_stage (s : Slots α σ) (ms : List (α × σ)) (a : α) :
    (s.enterAll rules ms).stage a = (((ms.filter (·.1 = a)).map Prod.snd).getLast?).or (s.stage a) := by
  induction ms using List.reverseRecOn with
  | nil => rfl
  | append_singleton ms m ih =>
    rw [enterAll_append, List.filter_append, List.map_append]
    by_cases h : m.1 = a
    · subst h
      simp [enterAll, enter]
    · have hstage : ((s.enterAll rules ms).enterAll rules [m]).stage a = (s.enterAll rules ms).stage a :=
        Function.update_of_ne (Ne.symm h) _ _
      simp [hstage, ih, h]

/-! ### Several tasks, each once -/

/-- The stages several tasks come to are accepted when each may come next, if nobody takes a slot. -/
theorem exec_stages (hnodup : (ms.map Prod.fst).Nodup) (hfollows : ∀ m ∈ ms, rules.follows (s.stage m.1) m.2)
    (hheld : ∀ m ∈ ms, rules.holds m.2 → m.1 ∈ s.held) :
    Machine.exec (step rules) s (ms.map fun m => .stage m.1 m.2) = some (s.enterAll rules ms) := by
  induction ms generalizing s with
  | nil => rfl
  | cons m ms ih =>
    have hne : ∀ m' ∈ ms, m'.1 ≠ m.1 := fun m' hmem heq =>
      (List.nodup_cons.mp hnodup).1 (heq ▸ List.mem_map_of_mem hmem)
    refine (Machine.exec_cons_eq_some _).mpr ⟨s.enter rules m, step_stage (hfollows m List.mem_cons_self)
      fun hx => .inl (hheld m List.mem_cons_self hx), ih hnodup.of_cons (fun m' hmem => ?_) fun m' hmem hx => ?_⟩
    · have hstage : (s.enter rules m).stage m'.1 = s.stage m'.1 := Function.update_of_ne (hne m' hmem) _ _
      rw [hstage]
      exact hfollows m' (List.mem_cons_of_mem _ hmem)
    · have hmem' := hheld m' (List.mem_cons_of_mem _ hmem) hx
      unfold enter
      dsimp only
      split_ifs with hm
      · exact hmem'
      · exact List.mem_append_left _ hmem'
      · exact List.mem_filter.mpr ⟨hmem', by simpa using hne m' hmem⟩

/-- Then those are left in the queue that came to no other stage, and those are behind them that wait anew. -/
theorem enterAll_queue (hnodup : (ms.map Prod.fst).Nodup) :
    (s.enterAll rules ms).queue =
      s.queue.filter (· ∉ ms.map Prod.fst) ++ (ms.filter (rules.waits ·.2)).map Prod.fst := by
  induction ms generalizing s with
  | nil => simp [enterAll]
  | cons m ms ih =>
    have hm : m.1 ∉ ms.map Prod.fst := (List.nodup_cons.mp hnodup).1
    have hstep := ih hnodup.of_cons (s := s.enter rules m)
    have hkeep : (if rules.waits m.2 then [m.1] else []).filter (· ∉ ms.map Prod.fst) =
        if rules.waits m.2 then [m.1] else [] := by
      split_ifs
      · simpa using hm
      · rfl
    have hfilter : (s.queue.filter (· ≠ m.1)).filter (· ∉ ms.map Prod.fst) =
        s.queue.filter (· ∉ (m :: ms).map Prod.fst) := by
      rw [List.filter_filter]
      refine List.filter_congr fun b _ => ?_
      simp only [List.map_cons, List.mem_cons, not_or, Bool.decide_and]
      exact Bool.and_comm _ _
    show ((s.enter rules m).enterAll rules ms).queue = _
    rw [hstep, enter, List.filter_append, hkeep, hfilter, List.append_assoc, List.filter_cons]
    split_ifs <;> rfl

/-- And those hold a slot that came to no stage without one. -/
theorem enterAll_held (hnodup : (ms.map Prod.fst).Nodup) (hheld : ∀ m ∈ ms, rules.holds m.2 → m.1 ∈ s.held) :
    (s.enterAll rules ms).held = s.held.filter fun a => ∀ m ∈ ms, m.1 = a → rules.holds m.2 := by
  induction ms generalizing s with
  | nil => simp [enterAll]
  | cons m ms ih =>
    have hne : ∀ m' ∈ ms, m'.1 ≠ m.1 := fun m' hmem heq =>
      (List.nodup_cons.mp hnodup).1 (heq ▸ List.mem_map_of_mem hmem)
    have henter : (s.enter rules m).held = s.held.filter fun a => m.1 = a → rules.holds m.2 := by
      unfold enter
      dsimp only
      split_ifs with hx hmem
      · simp [hx]
      · exact absurd (hheld m List.mem_cons_self hx) hmem
      · refine List.filter_congr fun a _ => ?_
        simp [hx, eq_comm]
    show ((s.enter rules m).enterAll rules ms).held = _
    have hheld' : ∀ m' ∈ ms, rules.holds m'.2 → m'.1 ∈ (s.enter rules m).held := fun m' hmem hx => by
      rw [henter]
      refine List.mem_filter.mpr ⟨hheld m' (List.mem_cons_of_mem _ hmem) hx, ?_⟩
      exact decide_eq_true fun heq : m.1 = m'.1 => absurd heq.symm (hne m' hmem)
    rw [ih hnodup.of_cons hheld', henter, List.filter_filter]
    refine List.filter_congr fun a _ => ?_
    simp only [List.forall_mem_cons, Bool.decide_and]
    exact Bool.and_comm _ _

end Slots
