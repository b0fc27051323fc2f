import Mathlib.Algebra.BigOperators.Intervals
import Mathlib.Algebra.BigOperators.Ring.Finset
import Mathlib.Algebra.Order.Field.Basic
import Mathlib.Data.List.GetD
import Mathlib.Data.List.Induction
import Mathlib.Tactic.Linarith
import Mathlib.Tactic.Ring

/-!
# Exponential moving averages

An exponential moving average keeps one number: a new sample counts `α`, and what there
was counts `1 - α`. `movingAverage` is what that amounts to for a list of samples, oldest
first: the first one is discounted once for each that came after it, and every other one
counts `α` and is discounted likewise. `movingAverage_concat` is the step, and
`lt_movingAverage` the bound: an average of samples above a bound is above it.
-/

section

variable {K : Type*} [Field K]

/-- The average of the samples, oldest first. -/
def movingAverage (α : K) : List K → K
  | [] => 0
  | r :: rs => (1 - α) ^ rs.length * r +
    ∑ i ∈ Finset.range rs.length, α * (1 - α) ^ (rs.length - 1 - i) * rs.getD i 0

@[simp] theorem movingAverage_nil (α : K) : movingAverage α [] = 0 := rfl

@[simp] theorem movingAverage_singleton (α r : K) : movingAverage α [r] = r := by simp [movingAverage]

/-- **One more sample.** -/
theorem movingAverage_concat (α : K) {l : List K} (hl : l ≠ []) (r : K) :
    movingAverage α (l ++ [r]) = α * r + (1 - α) * movingAverage α l := by
  cases l with
  | nil => exact absurd rfl hl
  | cons r₀ rs =>
    have hold : ∑ i ∈ Finset.range rs.length, α * (1 - α) ^ (rs.length - i) * (rs ++ [r]).getD i 0 =
        (1 - α) * ∑ i ∈ Finset.range rs.length, α * (1 - α) ^ (rs.length - 1 - i) * rs.getD i 0 := by
      rw [Finset.mul_sum]
      refine Finset.sum_congr rfl fun i hi => ?_
      have hi := Finset.mem_range.mp hi
      rw [List.getD_append _ _ _ _ hi, show rs.length - i = rs.length - 1 - i + 1 by omega, pow_succ]
      ring
    simp only [List.cons_append, movingAverage, List.length_append, List.length_singleton, Nat.add_sub_cancel,
      Finset.sum_range_succ, hold]
    simp
    ring

variable [LinearOrder K] [IsStrictOrderedRing K]

/-- **An average of samples above a bound is above it.** -/
theorem lt_movingAverage {α c : K} (h₀ : 0 < α) (h₁ : α < 1) {l : List K} (hl : l ≠ []) (h : ∀ r ∈ l, c < r) :
    c < movingAverage α l := by
  induction l using List.reverseRecOn with
  | nil => exact absurd rfl hl
  | append_singleton l r ih =>
    have hr : c < r := h r (by simp)
    by_cases hnil : l = []
    · subst hnil
      simpa using hr
    · have hold : c < movingAverage α l := ih hnil fun r' hr' => h r' (List.mem_append_left _ hr')
      rw [movingAverage_concat α hnil]
      have hnew := mul_lt_mul_of_pos_left hr h₀
      have hrest := mul_lt_mul_of_pos_left hold (sub_pos.mpr h₁)
      linarith

end
