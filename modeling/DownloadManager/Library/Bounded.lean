import DownloadManager.Library.Program
import Mathlib.Order.Lattice.Nat

/-!
# Programs that soon end

How many operations a program has left, when the surroundings reply as expected from
now on. `Within` counts from the beginning of a program. `Ends` counts from any point
of it, whatever the replies have been up to there: it bounds how long a program goes on
after the moment at which the surroundings begin to reply as expected. The number of
operations left is a measure (`budget`): each operation makes it less. `Costs` counts
operations by weight, whatever the replies.
-/

namespace Program

variable {Op : Type} {Reply : Op → Type} {ε α β : Type} (R : (op : Op) → Reply op → Prop)

/-- At most `n` operations, when the replies are as expected. -/
def Within : ℕ → Program Op Reply ε α → Prop
  | _, .done _ => True
  | 0, .call _ _ => False
  | n + 1, .call _ next => ∀ r, R _ r → Within n (next r)

/-- At most `n` operations from any point on, when the replies are as expected from there. -/
def Ends (n : ℕ) : Program Op Reply ε α → Prop
  | .done _ => True
  | .call op next => Within R n (.call op next) ∧ ∀ r, Ends n (next r)

variable {R} {n m k : ℕ}

@[simp] theorem within_done {r : Except ε α} : (done r : Program Op Reply ε α).Within R n := by cases n <;> trivial

@[simp] theorem ends_done {r : Except ε α} : (done r : Program Op Reply ε α).Ends R n := trivial

@[simp] theorem within_raise {e : ε} : (raise e : Program Op Reply ε α).Within R n := within_done

@[simp] theorem ends_raise {e : ε} : (raise e : Program Op Reply ε α).Ends R n := trivial

theorem Within.mono {p : Program Op Reply ε α} (h : p.Within R n) (hn : n ≤ m) : p.Within R m := by
  induction p generalizing n m with
  | done => exact within_done
  | call op next ih =>
    cases n with
    | zero => exact h.elim
    | succ n =>
      cases m with
      | zero => omega
      | succ m => exact fun r hr => ih r (h r hr) (by omega)

/-- One program after another. -/
theorem Within.bind {p : Program Op Reply ε α} {f : α → Program Op Reply ε β} (h : p.Within R n)
    (hf : ∀ a, (f a).Within R m) : (p.bind f).Within R (n + m) := by
  induction p generalizing n with
  | done r =>
    cases r with
    | ok a => exact (hf a).mono (by omega)
    | error e => exact within_done
  | call op next ih =>
    cases n with
    | zero => exact h.elim
    | succ n =>
      rw [Nat.add_right_comm]
      exact fun r hr => ih r (h r hr)

theorem Ends.within {p : Program Op Reply ε α} (h : p.Ends R n) : p.Within R n := by
  cases p with
  | done => exact within_done
  | call => exact h.1

theorem Ends.mono {p : Program Op Reply ε α} (h : p.Ends R n) (hn : n ≤ m) : p.Ends R m := by
  induction p with
  | done => trivial
  | call op next ih => exact ⟨h.1.mono hn, fun r => ih r (h.2 r)⟩

/-- **The rule of composition**: what is left of the first program and the beginning of the second. -/
theorem Ends.bind {p : Program Op Reply ε α} {f : α → Program Op Reply ε β} (h : p.Ends R k)
    (hwithin : ∀ a, (f a).Within R m) (hends : ∀ a, (f a).Ends R n) (hn : k + m ≤ n) : (p.bind f).Ends R n := by
  induction p with
  | done r =>
    cases r with
    | ok a => exact hends a
    | error e => trivial
  | call op next ih => exact ⟨(Within.bind h.1 hwithin).mono hn, fun r => ih r (h.2 r)⟩

/-- The composition of two programs without a loop. -/
theorem Ends.andThen {p : Program Op Reply ε α} {f : α → Program Op Reply ε β} (h : p.Ends R k)
    (hf : ∀ a, (f a).Ends R m) : (p.bind f).Ends R (k + m) :=
  h.bind (fun a => (hf a).within) (fun a => (hf a).mono (Nat.le_add_left m k)) le_rfl

theorem Ends.attempt {p : Program Op Reply ε α} (h : p.Ends R n) : p.attempt.Ends R n := by
  have hwithin : ∀ (p : Program Op Reply ε α) (k : ℕ), p.Within R k → p.attempt.Within R k := by
    intro p
    induction p with
    | done => exact fun _ _ => within_done
    | call op next ih =>
      rintro (_ | k) h
      · exact h.elim
      · exact fun r hr => ih r k (h r hr)
  induction p with
  | done => trivial
  | call op next ih => exact ⟨hwithin (.call op next) n h.1, fun r => ih r (h.2 r)⟩

/-- One operation. -/
theorem ends_perform (op : Op) : (perform op : Program Op Reply ε (Reply op)).Ends R 1 :=
  ⟨fun _ _ => within_done, fun _ => trivial⟩

/-! ### The measure -/

variable (R) in
/-- How many operations are left at most. -/
noncomputable def budget (p : Program Op Reply ε α) : ℕ := sInf {n | p.Within R n}

theorem budget_le {p : Program Op Reply ε α} (h : p.Within R n) : p.budget R ≤ n := Nat.sInf_le h

theorem Within.budget {p : Program Op Reply ε α} (h : p.Within R n) : p.Within R (p.budget R) :=
  Nat.sInf_mem (s := {n | p.Within R n}) ⟨n, h⟩

/-- **An operation makes the measure less.** -/
theorem budget_lt {op : Op} {next : Reply op → Program Op Reply ε α} {r : Reply op}
    (h : (call op next).Within R n) (hr : R op r) : (next r).budget R < (call op next).budget R := by
  have hbudget := h.budget
  generalize hb : (call op next).budget R = b at hbudget
  cases b with
  | zero => exact hbudget.elim
  | succ b => exact Nat.lt_succ_of_le (budget_le (hbudget r hr))

/-! ### Operations by weight -/

variable {weight : Op → ℕ}

variable (weight) in
/-- The operations weigh at most `n` together, whatever the replies. -/
def Costs (n : ℕ) : Program Op Reply ε α → Prop
  | .done _ => True
  | .call op next => weight op ≤ n ∧ ∀ r, Costs (n - weight op) (next r)

@[simp] theorem costs_done {r : Except ε α} : (done r : Program Op Reply ε α).Costs weight n := trivial

@[simp] theorem costs_raise {e : ε} : (raise e : Program Op Reply ε α).Costs weight n := trivial

/-- One operation. -/
theorem costs_perform {op : Op} (h : weight op ≤ n) : (perform op : Program Op Reply ε (Reply op)).Costs weight n :=
  ⟨h, fun _ => trivial⟩

theorem Costs.mono {p : Program Op Reply ε α} (h : p.Costs weight n) (hn : n ≤ m) : p.Costs weight m := by
  induction p generalizing n m with
  | done => trivial
  | call op next ih => exact ⟨h.1.trans hn, fun r => ih r (h.2 r) (Nat.sub_le_sub_right hn _)⟩

/-- One program after another. -/
theorem Costs.bind {p : Program Op Reply ε α} {f : α → Program Op Reply ε β} (h : p.Costs weight n)
    (hf : ∀ a, (f a).Costs weight m) : (p.bind f).Costs weight (n + m) := by
  induction p generalizing n with
  | done r =>
    cases r with
    | ok a => exact (hf a).mono (Nat.le_add_left m n)
    | error e => trivial
  | call op next ih =>
    refine ⟨h.1.trans (Nat.le_add_right n m), fun r => ?_⟩
    have hle := h.1
    rw [show n + m - weight op = n - weight op + m by omega]
    exact ih r (h.2 r)

theorem Costs.attempt {p : Program Op Reply ε α} (h : p.Costs weight n) : p.attempt.Costs weight n := by
  induction p generalizing n with
  | done => trivial
  | call op next ih => exact ⟨h.1, fun r => ih r (h.2 r)⟩

end Program
