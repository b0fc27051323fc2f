import Mathlib.Data.List.Induction

/-!
# Machines

A machine is a partial step function `step : σ → α → Option σ`: in a state it
accepts some actions, each leading to one state. Nondeterminism lives in the
choice of the action, so a run is a list of actions and can be computed.

`exec` runs a list of actions. A state is `Reachable` from a set of initial
states when some run leads to it. `Reachable.induct` is the only induction over
runs a development needs: what holds initially and is kept by every step holds
of every reachable state. `exec_induct` is the same for a run from a fixed
state, and `Reachable.exec` puts the two together.
-/

namespace Machine

variable {σ α : Type*} (step : σ → α → Option σ)

/-- Run a list of actions; `none` when one of them is not accepted. -/
def exec : σ → List α → Option σ
  | s, [] => some s
  | s, a :: as => (step s a).bind fun t => exec t as

theorem exec_cons (s : σ) (a : α) (as : List α) :
    exec step s (a :: as) = (step s a).bind fun t => exec step t as := rfl

theorem exec_cons_eq_some {s u : σ} {a : α} {as : List α} :
    exec step s (a :: as) = some u ↔ ∃ t, step s a = some t ∧ exec step t as = some u := by
  rw [exec_cons, Option.bind_eq_some_iff]

theorem exec_append (s : σ) (as bs : List α) :
    exec step s (as ++ bs) = (exec step s as).bind fun t => exec step t bs := by
  induction as generalizing s with
  | nil => rfl
  | cons a as ih =>
    rw [List.cons_append, exec_cons, exec_cons, Option.bind_assoc]
    exact congrArg _ (funext fun t => ih t)

/-- A run can be computed, and what is decidable of its end with it. -/
theorem exists_exec_of_any {s : σ} {as : List α} {P : σ → Prop} [DecidablePred P]
    (h : (exec step s as).any (fun t => decide (P t)) = true) : ∃ t, exec step s as = some t ∧ P t := by
  cases ht : exec step s as with
  | none => simp [ht] at h
  | some t => exact ⟨t, rfl, by simpa [ht] using h⟩

/-- What a step keeps, a run keeps. -/
theorem exec_induct {P : σ → Prop} (hstep : ∀ s a t, P s → step s a = some t → P t) :
    ∀ (as : List α) {s t : σ}, P s → exec step s as = some t → P t := by
  intro as
  induction as with
  | nil => intro s t hs h; cases h; exact hs
  | cons a as ih =>
    intro s t hs h
    obtain ⟨u, hu, h⟩ := (exec_cons_eq_some step).mp h
    exact ih (hstep s a u hs hu) h

/-- Induction over a run from a fixed state, with what has been done so far. -/
theorem exec_history {P : List α → σ → Prop} {s₀ : σ} (hinit : P [] s₀)
    (hstep : ∀ as s a t, exec step s₀ as = some s → P as s → step s a = some t → P (as ++ [a]) t) :
    ∀ (as : List α) {t : σ}, exec step s₀ as = some t → P as t := by
  intro as
  induction as using List.reverseRecOn with
  | nil => intro t h; cases h; exact hinit
  | append_singleton as a ih =>
    intro t h
    rw [exec_append, Option.bind_eq_some_iff] at h
    obtain ⟨s, hs, h⟩ := h
    obtain ⟨t', ht', h⟩ := (exec_cons_eq_some step).mp h
    cases h
    exact hstep as s a _ hs (ih hs) ht'

/-- **Forward simulation**: if each step is matched by a run of another machine, a run is. The relation of the two
states may look at what the other machine has done so far. -/
theorem exec_simulates {τ β : Type*} {step' : τ → β → Option τ} {R : σ → List β → τ → Prop} {s₀ : σ} {t₀ : τ}
    (hinit : R s₀ [] t₀)
    (hstep : ∀ as s a s' bs t, exec step s₀ as = some s → R s bs t → step s a = some s' →
      ∃ bs' t', exec step' t bs' = some t' ∧ R s' (bs ++ bs') t') :
    ∀ (as : List α) {s : σ}, exec step s₀ as = some s → ∃ bs t, exec step' t₀ bs = some t ∧ R s bs t := by
  refine exec_history step (P := fun _ s => ∃ bs t, exec step' t₀ bs = some t ∧ R s bs t) ⟨[], t₀, rfl, hinit⟩ ?_
  rintro as s a s' hs ⟨bs, t, ht, hR⟩ ha
  obtain ⟨bs', t', ht', hR'⟩ := hstep as s a s' bs t hs hR ha
  exact ⟨bs ++ bs', t', by rw [exec_append, ht]; exact ht', hR'⟩

/-- How many actions of a run meet a condition on the state they are taken in. -/
def count (P : σ → α → Bool) : σ → List α → ℕ
  | _, [] => 0
  | s, a :: as => (if P s a then 1 else 0) + (step s a).elim 0 fun t => count P t as

theorem count_concat (P : σ → α → Bool) {s t u : σ} {as : List α} {a : α} (h : exec step s as = some t)
    (ha : step t a = some u) : count step P s (as ++ [a]) = count step P s as + if P t a then 1 else 0 := by
  induction as generalizing s with
  | nil => cases h; simp [count, ha]
  | cons b bs ih =>
    obtain ⟨v, hv, h⟩ := (exec_cons_eq_some step).mp h
    simp only [List.cons_append, count, hv, Option.elim_some, ih h]
    omega

/-- Every action of a run meets a condition on the state it is taken in. -/
def Along (P : σ → α → Prop) : σ → List α → Prop
  | _, [] => True
  | s, a :: as => P s a ∧ ∀ t ∈ step s a, Along P t as

/-- Whether a run meets a condition can be computed. -/
instance decidableAlong (P : σ → α → Prop) [∀ s a, Decidable (P s a)] :
    (s : σ) → (as : List α) → Decidable (Along step P s as)
  | _, [] => .isTrue trivial
  | s, a :: as =>
    match h : step s a with
    | none => decidable_of_iff (P s a) (by simp [Along, h])
    | some t =>
      have := decidableAlong P t as
      decidable_of_iff (P s a ∧ Along step P t as) (by simp [Along, h])

theorem along_of_forall {P : σ → α → Prop} {as : List α} (h : ∀ a ∈ as, ∀ s, P s a) (s : σ) : Along step P s as := by
  induction as generalizing s with
  | nil => trivial
  | cons a as ih =>
    exact ⟨h a List.mem_cons_self s, fun t _ => ih (fun b hb => h b (List.mem_cons_of_mem a hb)) t⟩

theorem Along.mono {P Q : σ → α → Prop} {as : List α} {s : σ} (h : Along step P s as) (hPQ : ∀ s a, P s a → Q s a) :
    Along step Q s as := by
  induction as generalizing s with
  | nil => trivial
  | cons a as ih => exact ⟨hPQ s a h.1, fun t ht => ih (h.2 t ht)⟩

theorem Along.and {P Q : σ → α → Prop} {as : List α} {s : σ} (hP : Along step P s as) (hQ : Along step Q s as) :
    Along step (fun s a => P s a ∧ Q s a) s as := by
  induction as generalizing s with
  | nil => trivial
  | cons a as ih => exact ⟨⟨hP.1, hQ.1⟩, fun t ht => ih (hP.2 t ht) (hQ.2 t ht)⟩

/-- Both parts of a run meet a condition. -/
theorem Along.of_append {P : σ → α → Prop} {as bs : List α} {s t : σ} (h : Along step P s (as ++ bs))
    (hrun : exec step s as = some t) : Along step P s as ∧ Along step P t bs := by
  induction as generalizing s with
  | nil =>
    cases hrun
    exact ⟨trivial, h⟩
  | cons a as ih =>
    obtain ⟨u, hu, hrun⟩ := (exec_cons_eq_some step).mp hrun
    obtain ⟨has, hbs⟩ := ih (h.2 u hu) hrun
    refine ⟨⟨h.1, fun v hv => ?_⟩, hbs⟩
    cases hu.symm.trans hv
    exact has

/-- What a step keeps that meets a condition, a run keeps whose steps all meet it. -/
theorem exec_induct_along {P : σ → α → Prop} {Q : σ → Prop}
    (hstep : ∀ s a t, Q s → P s a → step s a = some t → Q t) :
    ∀ (as : List α) {s t : σ}, Along step P s as → Q s → exec step s as = some t → Q t := by
  intro as
  induction as with
  | nil => intro s t _ hs h; cases h; exact hs
  | cons a as ih =>
    intro s t hP hs h
    obtain ⟨u, hu, h⟩ := (exec_cons_eq_some step).mp h
    exact ih (hP.2 u hu) (hstep s a u hs hP.1 hu) h

/-- **A measure bounds how often something happens**: if the counted steps make it less and no other step makes it
more, in runs whose steps all meet a condition, no more steps are counted than it is at the beginning. -/
theorem countP_add_le {P : σ → α → Prop} {Q : σ → Prop} {f : σ → ℕ} {c : α → Bool}
    (hstep : ∀ s a t, Q s → P s a → step s a = some t → Q t ∧ f t + (if c a then 1 else 0) ≤ f s) :
    ∀ (as : List α) {s t : σ}, Along step P s as → Q s → exec step s as = some t → as.countP c + f t ≤ f s := by
  intro as
  induction as with
  | nil => intro s t _ _ h; cases h; simp
  | cons a as ih =>
    intro s t hP hs h
    obtain ⟨u, hu, h⟩ := (exec_cons_eq_some step).mp h
    obtain ⟨hQ, hle⟩ := hstep s a u hs hP.1 hu
    have := ih (hP.2 u hu) hQ h
    rw [List.countP_cons]
    omega

/-- Every state of a run, the first and the last included, meets a condition. -/
def Throughout (P : σ → Prop) : σ → List α → Prop
  | s, [] => P s
  | s, a :: as => P s ∧ ∀ t ∈ step s a, Throughout P t as

/-- Whether every state meets a condition can be computed. -/
instance decidableThroughout (P : σ → Prop) [DecidablePred P] :
    (s : σ) → (as : List α) → Decidable (Throughout step P s as)
  | s, [] => inferInstanceAs (Decidable (P s))
  | s, a :: as =>
    match h : step s a with
    | none => decidable_of_iff (P s) (by simp [Throughout, h])
    | some t =>
      have := decidableThroughout P t as
      decidable_of_iff (P s ∧ Throughout step P t as) (by simp [Throughout, h])

theorem Throughout.first {P : σ → Prop} {as : List α} {s : σ} (h : Throughout step P s as) : P s := by
  cases as with
  | nil => exact h
  | cons => exact h.1

theorem Throughout.last {P : σ → Prop} {as : List α} {s t : σ} (h : Throughout step P s as)
    (hrun : exec step s as = some t) : P t := by
  induction as generalizing s with
  | nil =>
    cases hrun
    exact h
  | cons a as ih =>
    obtain ⟨u, hu, hrun⟩ := (exec_cons_eq_some step).mp hrun
    exact ih (h.2 u hu) hrun

/-- **A measure bounds how often something happens**, in runs whose states all meet a condition. -/
theorem countP_add_le_of_throughout {P Q : σ → Prop} {f : σ → ℕ} {c : α → Bool}
    (hstep : ∀ s a t, Q s → P s → P t → step s a = some t → Q t ∧ f t + (if c a then 1 else 0) ≤ f s) :
    ∀ (as : List α) {s t : σ}, Throughout step P s as → Q s → exec step s as = some t → as.countP c + f t ≤ f s := by
  intro as
  induction as with
  | nil => intro s t _ _ h; cases h; simp
  | cons a as ih =>
    intro s t hP hs h
    obtain ⟨u, hu, h⟩ := (exec_cons_eq_some step).mp h
    obtain ⟨hQ, hle⟩ := hstep s a u hs hP.1 (hP.2 u hu).first hu
    have := ih (hP.2 u hu) hQ h
    rw [List.countP_cons]
    omega

/-- The states some run leads to. -/
inductive Reachable (init : σ → Prop) : σ → Prop
  /-- The empty run. -/
  | init {s : σ} : init s → Reachable init s
  /-- One more step. -/
  | step {s t : σ} {a : α} : Reachable init s → step s a = some t → Reachable init t

variable {step} {init : σ → Prop}

/-- **The invariant rule**: what holds initially and is kept by every step holds of
every reachable state. The step may use that the state it starts from is reachable. -/
theorem Reachable.induct {P : σ → Prop} (hinit : ∀ s, init s → P s)
    (hstep : ∀ s a t, Reachable step init s → P s → step s a = some t → P t) {s : σ}
    (h : Reachable step init s) : P s := by
  induction h with
  | init hs => exact hinit _ hs
  | step hs ha ih => exact hstep _ _ _ hs ih ha

/-- A run from a reachable state ends in a reachable state. -/
theorem Reachable.exec {s t : σ} {as : List α} (h : Reachable step init s)
    (he : Machine.exec step s as = some t) : Reachable step init t :=
  exec_induct step (fun _ _ _ hs ha => hs.step ha) as h he

/-- A reachable state is reached by a run. -/
theorem Reachable.exists_exec {s : σ} (h : Reachable step init s) :
    ∃ s₀ as, init s₀ ∧ Machine.exec step s₀ as = some s := by
  induction h with
  | init hs => exact ⟨_, [], hs, rfl⟩
  | @step s t a _ ha ih =>
    obtain ⟨s₀, as, h₀, he⟩ := ih
    refine ⟨s₀, as ++ [a], h₀, ?_⟩
    rw [exec_append, he]
    exact (exec_cons_eq_some step).mpr ⟨t, ha, rfl⟩

end Machine
