import Mathlib.Algebra.Group.Nat.Defs
import Mathlib.Order.MinMax

/-!
# Backoff

`ExponentialBackoff` of `src/scheduler.rs`. The factor `2f64.powi(attempt as i32)`
is an exact power of two: the cast wraps, a power above `2 ^ 1023` is infinite
and one below `2 ^ -1074` is zero. `Duration::mul_f64` panics when the product
is not a duration, that is `2 ^ 64` seconds or more. The product is exact here, as it is in
the source for a base whose nanoseconds fit in the 53 bits of an `f64`; a longer one, which
`BACKOFF_STRATEGY` does not have, is rounded there first.

The cap is applied to the product, so it does not help against that panic:
`backoffStrategy_sound_iff` says how many retries a request may have before a delay
is asked for that there is not.
-/

namespace DownloadManager

/-- How the thread can panic. -/
inductive Panic where
  /-- `Option::unwrap` of `None`. -/
  | unwrap
  /-- `Duration::mul_f64` of a product that is no duration. -/
  | duration
  deriving DecidableEq, Repr

/-- `Duration`, in nanoseconds. -/
abbrev Duration := ℕ

namespace Duration

/-- `Duration::from_secs`. -/
def fromSecs (secs : ℕ) : Duration := secs * 10 ^ 9

/-- `Duration::as_millis`, cast to `u64`. -/
def asMillis (d : Duration) : ℕ := d / 10 ^ 6 % 2 ^ 64

/-- `n / d` to the nearest integer, ties to even. -/
def roundDiv (n d : ℕ) : ℕ :=
  if 2 * (n % d) < d ∨ (2 * (n % d) = d ∧ n / d % 2 = 0) then n / d else n / d + 1

/-- `Duration::mul_f64` by the power `2 ^ exponent`. -/
def mulPowerOfTwo (d : Duration) (exponent : ℤ) : Except Panic Duration :=
  if 1023 < exponent then .error .duration
  else if exponent < -1074 then .ok 0
  else
    let product := if 0 ≤ exponent then d * 2 ^ exponent.toNat else roundDiv d (2 ^ (-exponent).toNat)
    if product < fromSecs (2 ^ 64) then .ok product else .error .duration

end Duration

/-- `ExponentialBackoff`. -/
structure ExponentialBackoff where
  /-- The delay before the first retry. -/
  baseDelay : Duration
  /-- The longest delay. -/
  maxDelay : Duration

/-- `ExponentialBackoff::next_delay`. -/
def ExponentialBackoff.nextDelay (b : ExponentialBackoff) (attempt : UInt32) : Except Panic Duration :=
  (b.baseDelay.mulPowerOfTwo attempt.toInt32.toInt).map fun delay => min delay b.maxDelay

/-- `BACKOFF_STRATEGY`. -/
def backoffStrategy : ExponentialBackoff where
  baseDelay := .fromSecs 1
  maxDelay := .fromSecs 10

/-! ### What the delays are -/

namespace Duration

/-- A power that is no fraction, of a product that is a duration. -/
theorem mulPowerOfTwo_ok {d : Duration} {n : ℕ} (hn : n ≤ 1023) (h : d * 2 ^ n < fromSecs (2 ^ 64)) :
    d.mulPowerOfTwo n = .ok (d * 2 ^ n) := by
  unfold mulPowerOfTwo
  rw [if_neg (by omega), if_neg (by omega)]
  simp only [Int.natCast_nonneg, if_true, Int.toNat_natCast, if_pos h]

/-- Any other product panics. -/
theorem mulPowerOfTwo_error {d : Duration} {n : ℕ} (h : fromSecs (2 ^ 64) ≤ d * 2 ^ n) :
    d.mulPowerOfTwo n = .error .duration := by
  unfold mulPowerOfTwo
  split_ifs with hn hn'
  · rfl
  · omega
  · simp only [Int.toNat_natCast, if_neg (Nat.not_lt.mpr h)]
  · omega

end Duration

/-- The cast `attempt as i32`, where it does not wrap. -/
theorem toInt_toInt32_of_lt {attempt : UInt32} (h : attempt.toNat < 2 ^ 31) :
    attempt.toInt32.toInt = attempt.toNat := by
  have hdef : attempt.toInt32.toInt = attempt.toBitVec.toInt := rfl
  have hnat : attempt.toBitVec.toNat = attempt.toNat := rfl
  rw [hdef, BitVec.toInt_eq_toNat_of_lt (by omega), hnat]

namespace ExponentialBackoff

/-- The delays a request with so many retries can ask for are as documented. -/
structure Sound (b : ExponentialBackoff) (retries : UInt32) : Prop where
  /-- They are capped powers of two. -/
  exact : ∀ attempt < retries, b.nextDelay attempt = .ok (min (b.baseDelay * 2 ^ attempt.toNat) b.maxDelay)
  /-- They do not decrease. -/
  mono : ∀ attempt attempt' delay delay', attempt ≤ attempt' → attempt' < retries →
    b.nextDelay attempt = .ok delay → b.nextDelay attempt' = .ok delay' → delay ≤ delay'
  /-- The cap holds. -/
  le_max : ∀ attempt < retries, ∀ delay, b.nextDelay attempt = .ok delay → delay ≤ b.maxDelay

variable {b : ExponentialBackoff}

/-- The exact delays grow and are capped. -/
theorem sound_of_exact {retries : UInt32}
    (h : ∀ attempt < retries, b.nextDelay attempt = .ok (min (b.baseDelay * 2 ^ attempt.toNat) b.maxDelay)) :
    b.Sound retries := by
  refine ⟨h, ?_, ?_⟩
  · intro attempt attempt' delay delay' hle hlt hd hd'
    rw [h attempt (UInt32.lt_of_le_of_lt hle hlt)] at hd
    rw [h attempt' hlt] at hd'
    cases hd
    cases hd'
    have hpow : 2 ^ attempt.toNat ≤ 2 ^ attempt'.toNat := Nat.pow_le_pow_right (by omega) hle
    exact min_le_min (Nat.mul_le_mul_left _ hpow) le_rfl
  · intro attempt hlt delay hd
    rw [h attempt hlt] at hd
    cases hd
    exact min_le_right _ _

/-- **The delay is exact where the product is a duration**, whatever the strategy. -/
theorem nextDelay_ok {attempt : UInt32} (hn : attempt.toNat ≤ 1023)
    (h : b.baseDelay * 2 ^ attempt.toNat < .fromSecs (2 ^ 64)) :
    b.nextDelay attempt = .ok (min (b.baseDelay * 2 ^ attempt.toNat) b.maxDelay) := by
  rw [nextDelay, toInt_toInt32_of_lt (by omega), Duration.mulPowerOfTwo_ok hn h]
  rfl

/-- And panics where it is not, before the cap is applied. -/
theorem nextDelay_error {attempt : UInt32} (hn : attempt.toNat < 2 ^ 31)
    (h : .fromSecs (2 ^ 64) ≤ b.baseDelay * 2 ^ attempt.toNat) : b.nextDelay attempt = .error .duration := by
  rw [nextDelay, toInt_toInt32_of_lt hn, Duration.mulPowerOfTwo_error h]
  rfl

end ExponentialBackoff

/-- **`BACKOFF_STRATEGY` is sound for at most 64 retries.** The cap comes after the multiplication, so the
delay of attempt 64 is no duration. -/
theorem backoffStrategy_sound_iff (retries : UInt32) : backoffStrategy.Sound retries ↔ retries ≤ 64 := by
  constructor
  · intro h
    by_contra hlt
    have hpanic : backoffStrategy.nextDelay 64 = .error .duration :=
      ExponentialBackoff.nextDelay_error (by decide) (by decide)
    rw [h.exact 64 (UInt32.not_le.mp hlt)] at hpanic
    cases hpanic
  · intro hle
    refine ExponentialBackoff.sound_of_exact fun attempt hlt => ?_
    have hattempt : attempt.toNat < 64 := UInt32.lt_of_lt_of_le hlt hle
    have hpow : 2 ^ attempt.toNat < 2 ^ 64 := Nat.pow_lt_pow_right (by omega) hattempt
    refine ExponentialBackoff.nextDelay_ok (by omega) ?_
    show 1 * 10 ^ 9 * 2 ^ attempt.toNat < 2 ^ 64 * 10 ^ 9
    rw [Nat.one_mul, Nat.mul_comm]
    exact Nat.mul_lt_mul_of_pos_right hpow (by decide)

example : backoffStrategy.nextDelay 3 = .ok (.fromSecs 8) := by decide

/-- Sixty-five retries are one too many. -/
theorem not_sound_sixty_five : ¬ ∀ retries, backoffStrategy.Sound retries := by
  intro h
  have hpanic : backoffStrategy.nextDelay 64 = .error .duration := by decide
  rw [(h 65).exact 64 (by decide)] at hpanic
  cases hpanic

end DownloadManager
