import DownloadManager.Library.Average
import DownloadManager.Library.Machine
import DownloadManager.Worker
import Mathlib.Algebra.Order.Field.Rat
import Mathlib.Tactic.NormNum

/-!
# Rates and estimates

`Progress` of `src/events.rs`, with the clock and the rates that `Worker` leaves out. The
rates are rational numbers here, where the source has `f64`; an instant is the number of
nanoseconds since some start, and `duration_since` of a later instant is zero. The counts
are 64 bits wide: an addition that overflows panics, or wraps.

`eta` divides what is left by the smoothed rate, and `Duration::from_secs_f64` panics when
the quotient is no duration. The rate is a moving average of the rates sampled
(`emaBps_eq`), so `eta` is safe as long as every sample is faster than one part in `2 ^ 64`
of the total each second (`eta_ok_of_exec`), and not in general (`eta_panics`).
-/

namespace DownloadManager

/-- `Duration::from_secs_f64`. As an `f64`, a quotient of `2 ^ 64 - 1024` or more would be rounded up to `2 ^ 64`. -/
def Duration.fromSecsF64 (secs : ℚ) : Except Panic Duration :=
  if 0 ≤ secs ∧ secs < 2 ^ 64 then .ok (roundDiv (secs.num.toNat * 10 ^ 9) secs.den) else .error .duration

/-- `Duration::as_secs_f64`. -/
def Duration.asSecsF64 (d : Duration) : ℚ := d / 10 ^ 9

namespace Events

/-- `Instant`, in nanoseconds. -/
abbrev Instant := ℕ

/-- `Progress`. -/
structure Progress where
  /-- The bytes there are, a resumed prefix included. -/
  bytes : UInt64
  /-- The expected length. -/
  total : Option UInt64
  /-- When the transfer began. -/
  startedAt : Instant
  /-- When the last sample was taken. -/
  lastSampleAt : Instant
  /-- What had been received by then. -/
  lastSampleBytes : UInt64
  /-- The rate of the last sample that counts. -/
  instantaneousBps : ℚ
  /-- The moving average of the rates. -/
  emaBps : ℚ

namespace Progress

/-- `Progress::EMA_ALPHA`. -/
def emaAlpha : ℚ := 1 / 5

/-- `Progress::MIN_SAMPLE_BYTES`. -/
def minSampleBytes : UInt64 := 64 * 1024

/-- `Progress::MIN_SAMPLE_INTERVAL`. -/
def minSampleInterval : Duration := 200 * 10 ^ 6

/-- `Progress::new`. -/
def new (startingBytes : UInt64) (total : Option UInt64) (now : Instant) : Progress where
  bytes := startingBytes
  total := total
  instantaneousBps := 0
  emaBps := 0
  startedAt := now
  lastSampleAt := now
  lastSampleBytes := startingBytes

/-- `Progress::recompute`. -/
def recompute (p : Progress) (dt : Duration) (byteDelta : UInt64) : Progress :=
  let secs := dt.asSecsF64
  if 0 < secs ∧ 0 < byteDelta then
    let inst := byteDelta.toNat / secs
    { p with
      instantaneousBps := inst
      emaBps := if p.emaBps ≤ 0 then inst else emaAlpha * inst + (1 - emaAlpha) * p.emaBps }
  else p

/-- A sample, and what has been received at its time. -/
def sample (p : Progress) (now : Instant) (byteDelta : UInt64) : Progress :=
  { p.recompute (now - p.lastSampleAt) byteDelta with lastSampleAt := now, lastSampleBytes := p.bytes }

section

variable (overflowChecks : Bool)

/-- `self.bytes - self.last_sample_bytes`, unless it underflows in a build that checks for it. -/
def byteDelta (p : Progress) : Option UInt64 :=
  if overflowChecks ∧ p.bytes < p.lastSampleBytes then none else some (p.bytes - p.lastSampleBytes)

/-- `Progress::add`, unless the sum overflows in a build that checks for it. -/
def add (p : Progress) (n : UInt64) (now : Instant) : Option (Progress × Bool) :=
  if overflowChecks ∧ 2 ^ 64 ≤ p.bytes.toNat + n.toNat then none
  else do
    let p := { p with bytes := p.bytes + n }
    let delta ← p.byteDelta overflowChecks
    if minSampleInterval ≤ now - p.lastSampleAt ∨ minSampleBytes ≤ delta then some (p.sample now delta, true)
    else some (p, false)

/-- `Progress::force_update`. -/
def forceUpdate (p : Progress) (now : Instant) : Option Progress := do
  let delta ← p.byteDelta overflowChecks
  some (p.sample now delta)

end

/-- `Progress::eta`. -/
def eta (p : Progress) : Except Panic (Option Duration) :=
  match p.total with
  | none => .ok none
  | some total =>
    let remaining := if total < p.bytes then 0 else total - p.bytes
    if 0 < p.emaBps then (Duration.fromSecsF64 (remaining.toNat / p.emaBps)).map some else .ok none

/-- What the worker keeps of it. -/
def counts (p : Progress) : DownloadManager.Progress := ⟨p.bytes.toNat, p.total.map UInt64.toNat⟩

/-! ### Runs -/

/-- What the worker does to its progress. -/
inductive Call where
  /-- Some bytes have been written. -/
  | add (n : UInt64)
  /-- The body has ended. -/
  | forceUpdate
  deriving DecidableEq

/-- A call, at a time. -/
def step (overflowChecks : Bool) (p : Progress) : Call × Instant → Option Progress
  | (.add n, now) => (p.add overflowChecks n now).map Prod.fst
  | (.forceUpdate, now) => p.forceUpdate overflowChecks now

/-- The bytes received since the last sample, once a call has been made. -/
def Call.delta (p : Progress) : Call → UInt64
  | add n => p.bytes + n - p.lastSampleBytes
  | forceUpdate => p.bytes - p.lastSampleBytes

/-- Does a call take a sample? -/
def Call.Samples (p : Progress) (call : Call) (now : Instant) : Prop :=
  call = forceUpdate ∨ minSampleInterval ≤ now - p.lastSampleAt ∨ minSampleBytes ≤ call.delta p

instance (p : Progress) (call : Call) (now : Instant) : Decidable (call.Samples p now) :=
  inferInstanceAs (Decidable (_ ∨ _))

/-- The rate a call samples, in bytes per second; a sample without bytes, or without time, does not count. -/
def rate? (p : Progress) : Call × Instant → Option ℚ
  | (call, now) =>
    if call.Samples p now ∧ 0 < now - p.lastSampleAt ∧ 0 < call.delta p then
      some ((call.delta p).toNat / ((now - p.lastSampleAt : ℕ) / 10 ^ 9))
    else none

/-- The rates a run samples. -/
def rates (overflowChecks : Bool) : Progress → List (Call × Instant) → List ℚ
  | _, [] => []
  | p, call :: calls =>
    (p.rate? call).toList ++ (p.step overflowChecks call).elim [] fun p => rates overflowChecks p calls

variable {overflowChecks : Bool} {p p' : Progress} {call : Call × Instant} {calls : List (Call × Instant)}

theorem rate?_pos {r : ℚ} (h : p.rate? call = some r) : 0 < r := by
  obtain ⟨call, now⟩ := call
  simp only [rate?, Option.ite_none_right_eq_some, Option.some.injEq] at h
  obtain ⟨⟨-, hdt, hdelta⟩, rfl⟩ := h
  have hdelta : 0 < (call.delta p).toNat := UInt64.lt_iff_toNat_lt.mp hdelta
  positivity

/-- What a sample makes of the average. -/
def smoothed (ema : ℚ) : Option ℚ → ℚ
  | none => ema
  | some r => if ema ≤ 0 then r else emaAlpha * r + (1 - emaAlpha) * ema

@[simp] theorem recompute_total (p : Progress) (dt : Duration) (delta : UInt64) :
    (p.recompute dt delta).total = p.total := by
  unfold recompute
  dsimp only
  split <;> rfl

theorem recompute_emaBps (p : Progress) (dt : Duration) (delta : UInt64) :
    (p.recompute dt delta).emaBps =
      smoothed p.emaBps (if 0 < dt ∧ 0 < delta then some (delta.toNat / ((dt : ℕ) / 10 ^ 9)) else none) := by
  have hsecs : 0 < dt.asSecsF64 ↔ 0 < dt := by
    rw [Duration.asSecsF64, div_pos_iff_of_pos_right (by norm_num), Nat.cast_pos]
  unfold recompute
  dsimp only
  by_cases h : 0 < dt ∧ 0 < delta
  · rw [if_pos ⟨hsecs.mpr h.1, h.2⟩, if_pos h]
    rfl
  · rw [if_neg fun hc => h ⟨hsecs.mp hc.1, hc.2⟩, if_neg h]
    rfl

theorem byteDelta_eq {delta : UInt64} (h : p.byteDelta overflowChecks = some delta) :
    delta = p.bytes - p.lastSampleBytes := by
  unfold byteDelta at h
  split_ifs at h
  exact (Option.some.inj h).symm

/-- **What a call does**: the total stays, and the average takes the sample in. -/
theorem step_spec (h : p.step overflowChecks call = some p') :
    p'.total = p.total ∧ p'.emaBps = smoothed p.emaBps (p.rate? call) := by
  obtain ⟨call, now⟩ := call
  cases call with
  | add n =>
    obtain ⟨⟨q, sampled⟩, hadd, rfl⟩ := Option.map_eq_some_iff.mp h
    unfold add at hadd
    split_ifs at hadd
    obtain ⟨delta, hdelta, hadd⟩ := Option.bind_eq_some_iff.mp hadd
    have hdelta' : delta = Call.delta p (.add n) := byteDelta_eq hdelta
    subst hdelta'
    split_ifs at hadd with hsamples
    · cases hadd
      exact ⟨recompute_total .., by simp [sample, recompute_emaBps, rate?, Call.Samples, hsamples]⟩
    · cases hadd
      exact ⟨rfl, by simp [rate?, Call.Samples, hsamples, smoothed]⟩
  | forceUpdate =>
    obtain ⟨delta, hdelta, hforce⟩ := Option.bind_eq_some_iff.mp h
    have hdelta' : delta = Call.delta p .forceUpdate := byteDelta_eq hdelta
    subst hdelta'
    cases hforce
    exact ⟨recompute_total .., by simp [sample, recompute_emaBps, rate?, Call.Samples]⟩

@[simp] theorem counts_recompute (p : Progress) (dt : Duration) (delta : UInt64) :
    (p.recompute dt delta).counts = p.counts := by
  unfold recompute
  dsimp only
  split <;> rfl

@[simp] theorem counts_sample (p : Progress) (now : Instant) (delta : UInt64) :
    (p.sample now delta).counts = p.counts := p.counts_recompute _ delta

theorem rates_pos {r : ℚ} (hr : r ∈ p.rates overflowChecks calls) : 0 < r := by
  induction calls generalizing p with
  | nil => cases hr
  | cons call calls ih =>
    rcases List.mem_append.mp hr with hr | hr
    · exact rate?_pos (by simpa using hr)
    · cases hstep : p.step overflowChecks call with
      | none => simp [hstep] at hr
      | some q => exact ih (by simpa [hstep] using hr)

theorem rates_concat (h : Machine.exec (step overflowChecks) p calls = some p') :
    p.rates overflowChecks (calls ++ [call]) = p.rates overflowChecks calls ++ (p'.rate? call).toList := by
  induction calls generalizing p with
  | nil =>
    cases h
    cases hstep : p'.step overflowChecks call <;> simp [rates, hstep]
  | cons call' calls ih =>
    obtain ⟨q, hstep, h⟩ := (Machine.exec_cons_eq_some _).mp h
    simp [rates, hstep, ih h]

/-- **The smoothed rate is the moving average of the rates sampled**, in every run. -/
theorem emaBps_eq {startingBytes : UInt64} {total : Option UInt64} {now : Instant}
    (h : Machine.exec (step overflowChecks) (.new startingBytes total now) calls = some p) :
    p.total = total ∧ p.emaBps = movingAverage emaAlpha ((new startingBytes total now).rates overflowChecks calls) := by
  refine Machine.exec_history (step overflowChecks) (P := fun calls p => p.total = total ∧
    p.emaBps = movingAverage emaAlpha ((new startingBytes total now).rates overflowChecks calls)) ⟨rfl, rfl⟩ ?_ calls h
  rintro calls p call p' hrun ⟨htotal, hema⟩ hstep
  obtain ⟨htotal', hema'⟩ := step_spec hstep
  refine ⟨htotal'.trans htotal, ?_⟩
  rw [hema', rates_concat hrun]
  cases hrate : p.rate? call with
  | none => simpa [smoothed] using hema
  | some r =>
    by_cases hnil : (new startingBytes total now).rates overflowChecks calls = []
    · simp [smoothed, hema, hnil]
    · have hpos : 0 < p.emaBps := by
        rw [hema]
        exact lt_movingAverage (by norm_num [emaAlpha]) (by norm_num [emaAlpha]) hnil fun r hr => rates_pos hr
      rw [Option.toList_some, movingAverage_concat _ hnil, ← hema]
      simp [smoothed, hpos.not_ge]

/-! ### The estimate -/

/-- A quotient is a duration when it is below `2 ^ 64` seconds. -/
theorem fromSecsF64_div {remaining : ℕ} {rate : ℚ} (hrate : 0 < rate) :
    (∃ d, Duration.fromSecsF64 (remaining / rate) = .ok d) ↔ (remaining : ℚ) < 2 ^ 64 * rate := by
  have hnonneg : 0 ≤ (remaining : ℚ) / rate := by positivity
  unfold Duration.fromSecsF64
  rw [← div_lt_iff₀ hrate]
  by_cases hlt : (remaining : ℚ) / rate < 2 ^ 64
  · simp [hnonneg, hlt]
  · simp [hlt]

/-- When there is an estimate, or nothing to estimate. -/
theorem eta_ok_iff (p : Progress) :
    (∃ d, p.eta = .ok d) ↔
      ∀ total ∈ p.total, 0 < p.emaBps → ((total.toNat - p.bytes.toNat : ℕ) : ℚ) < 2 ^ 64 * p.emaBps := by
  cases htotal : p.total with
  | none => simp [eta, htotal]
  | some total =>
    by_cases hrate : 0 < p.emaBps
    · have hremaining : (if total < p.bytes then 0 else total - p.bytes).toNat = total.toNat - p.bytes.toNat := by
        split_ifs with hlt
        · have := UInt64.lt_iff_toNat_lt.mp hlt
          simp
          omega
        · exact UInt64.toNat_sub_of_le _ _ (UInt64.not_lt.mp hlt)
      simp only [eta, htotal, hrate, if_true, hremaining, Option.mem_some_iff, forall_eq', forall_const]
      rw [← fromSecsF64_div hrate]
      cases Duration.fromSecsF64 (↑(total.toNat - p.bytes.toNat) / p.emaBps) <;> simp [Except.map]
    · simp [eta, htotal, hrate]

/-- A call that samples no rate of `total / 2 ^ 64` bytes per second or less. -/
def Brisk (p : Progress) (call : Call × Instant) : Prop :=
  ∀ total ∈ p.total, ∀ r ∈ p.rate? call, (total.toNat : ℚ) / 2 ^ 64 < r

theorem rates_brisk {total : UInt64} {r : ℚ} (htotal : p.total = some total)
    (h : Machine.Along (step overflowChecks) Brisk p calls) (hr : r ∈ p.rates overflowChecks calls) :
    (total.toNat : ℚ) / 2 ^ 64 < r := by
  induction calls generalizing p with
  | nil => cases hr
  | cons call calls ih =>
    rcases List.mem_append.mp hr with hr | hr
    · exact h.1 total htotal r (by simpa using hr)
    · cases hstep : p.step overflowChecks call with
      | none => simp [hstep] at hr
      | some q => exact ih ((step_spec hstep).1.trans htotal) (h.2 q hstep) (by simpa [hstep] using hr)

/-- **When the estimate can be made**, in every run: when nothing has been sampled, or there is no total, or less is
left than the average rate would transfer in `2 ^ 64` seconds. It can when every rate sampled would transfer the
total in that time. -/
theorem eta_ok_of_exec {startingBytes : UInt64} {total : Option UInt64} {now : Instant}
    (h : Machine.exec (step overflowChecks) (.new startingBytes total now) calls = some p) :
    ((∃ d, p.eta = .ok d) ↔ ∀ length ∈ total, (new startingBytes total now).rates overflowChecks calls ≠ [] →
      ((length.toNat - p.bytes.toNat : ℕ) : ℚ) <
        2 ^ 64 * movingAverage emaAlpha ((new startingBytes total now).rates overflowChecks calls)) ∧
    (Machine.Along (step overflowChecks) Brisk (.new startingBytes total now) calls → ∃ d, p.eta = .ok d) := by
  obtain ⟨htotal, hema⟩ := emaBps_eq h
  have hpos : 0 < p.emaBps ↔ (new startingBytes total now).rates overflowChecks calls ≠ [] := by
    rw [hema]
    constructor
    · rintro hlt hnil
      simp [hnil] at hlt
    · exact fun hne => lt_movingAverage (by norm_num [emaAlpha]) (by norm_num [emaAlpha]) hne fun r hr => rates_pos hr
  have hiff := p.eta_ok_iff
  rw [htotal, hpos, hema] at hiff
  refine ⟨hiff, fun hbrisk => hiff.mpr fun length hlength hne => ?_⟩
  have hlt : (length.toNat : ℚ) / 2 ^ 64 <
      movingAverage emaAlpha ((new startingBytes total now).rates overflowChecks calls) :=
    lt_movingAverage (by norm_num [emaAlpha]) (by norm_num [emaAlpha]) hne fun r hr => rates_brisk hlength hbrisk hr
  have hle : ((length.toNat - p.bytes.toNat : ℕ) : ℚ) ≤ length.toNat := by exact_mod_cast Nat.sub_le _ _
  rw [div_lt_iff₀ (by norm_num)] at hlt
  linarith

/-- Of 100 bytes, 50 have been received after a second. -/
theorem eta_ok_of_exec_half :
    ∃ p, Machine.exec (step true) (.new 0 (some 100) 0) [(.add 50, 10 ^ 9)] = some p ∧ ∃ d, p.eta = .ok d := by
  have hsome : (Machine.exec (step true) (.new 0 (some 100) 0) [(.add 50, 10 ^ 9)]).any fun _ => True := by decide
  obtain ⟨p, hp, -⟩ := Machine.exists_exec_of_any (step true) hsome
  have hbrisk : Machine.Along (step true) Brisk (.new 0 (some 100) 0) [(.add 50, 10 ^ 9)] := by
    refine ⟨fun length hlength r hr => ?_, fun _ _ => trivial⟩
    obtain rfl : 100 = length := Option.some.inj hlength
    have hrate : (new 0 (some 100) 0).rate? (.add 50, 10 ^ 9) = some 50 := by decide +kernel
    obtain rfl : 50 = r := Option.some.inj (hrate.symm.trans hr)
    decide +kernel
  exact ⟨p, hp, (eta_ok_of_exec hp).2 hbrisk⟩

/-- **One byte after two seconds**, of a file that is said to have `2 ^ 64 - 1` bytes: the estimate is no duration. -/
theorem eta_panics :
    ∃ p, Machine.exec (step true) (.new 0 (some (2 ^ 64 - 1)) 0) [(.add 1, 2 * 10 ^ 9)] = some p ∧
      p.eta = .error .duration :=
  Machine.exists_exec_of_any (step true) (P := fun p => p.eta = .error .duration) (by decide +kernel)

end Progress

end Events

end DownloadManager
