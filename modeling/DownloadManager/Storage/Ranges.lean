import DownloadManager.Storage.Manifest
import Mathlib.Data.List.Pairwise
import Mathlib.Order.Bounds.Basic
import Mathlib.Order.Interval.Set.Basic

/-!
# Which bytes there are

`Manifest::resume_offset` follows the ranges of a manifest from one to the next. The
ranges are those of a file on disk: they come in any order, and some may overlap or hold no
byte at all. `Loop` is the `while let` of the source, turn by turn, and `covered` is
what the ranges say: the bytes that one of them lists. The loop ends; the bytes below the
offset it returns are covered; and if no two ranges share a byte, it is the first byte that
is not.
-/

namespace DownloadManager

/-- The bytes of a range, `[start, stop)`. -/
def ByteRange.bytes (r : ByteRange) : Set ℕ := Set.Ico r.start r.stop

/-- Two ranges share no byte. -/
def ByteRange.Apart (r q : ByteRange) : Prop := ∀ b ∈ r.bytes, b ∉ q.bytes

theorem ByteRange.Apart.symm {r q : ByteRange} (h : r.Apart q) : q.Apart r := fun b hq hr => h b hr hq

/-- Ranges one of which ends before the other begins. -/
theorem ByteRange.apart_of_le {r q : ByteRange} (h : r.stop ≤ q.start ∨ q.stop ≤ r.start) : r.Apart q := by
  intro b hr hq
  have hr : r.start ≤ b ∧ b < r.stop := hr
  have hq : q.start ≤ b ∧ b < q.stop := hq
  omega

instance : Std.Symm ByteRange.Apart := ⟨fun _ _ => ByteRange.Apart.symm⟩

/-- The bytes that some range lists. -/
def covered (ranges : List ByteRange) : Set ℕ := {b | ∃ r ∈ ranges, b ∈ r.bytes}

namespace Manifest

variable {ranges : List ByteRange} {offset n : ℕ}

/-- What `find` returns: the first range that goes on from the offset. -/
abbrev following (ranges : List ByteRange) (offset : ℕ) : Option ByteRange :=
  ranges.find? fun r => r.start = offset ∧ offset < r.stop

theorem following_eq_some {r : ByteRange} (h : following ranges offset = some r) :
    r ∈ ranges ∧ r.start = offset ∧ offset < r.stop :=
  ⟨List.mem_of_find?_eq_some h, by simpa using List.find?_some h⟩

theorem following_eq_none (h : following ranges offset = none) {r : ByteRange} (hr : r ∈ ranges)
    (hstart : r.start = offset) : r.stop ≤ offset := by
  have hnot := List.find?_eq_none.mp h r hr
  simp only [decide_eq_true_eq, not_and] at hnot
  exact Nat.not_lt.mp (hnot hstart)

/-- The `while let` of `resume_offset`, from an offset to the one it ends with. -/
inductive Loop (ranges : List ByteRange) : ℕ → ℕ → Prop
  /-- A range goes on from the offset. -/
  | turn {offset n : ℕ} {r : ByteRange} (h : following ranges offset = some r) (rest : Loop ranges r.stop n) :
      Loop ranges offset n
  /-- None does. -/
  | exit {offset : ℕ} (h : following ranges offset = none) : Loop ranges offset offset

namespace Loop

theorem le (h : Loop ranges offset n) : offset ≤ n := by
  induction h with
  | turn h _ ih => exact (following_eq_some h).2.2.le.trans ih
  | exit => exact Nat.le_refl _

/-- What the loop returns does not depend on how it got there. -/
theorem unique {n' : ℕ} (h : Loop ranges offset n) (h' : Loop ranges offset n') : n' = n := by
  induction h with
  | turn h _ ih =>
    cases h' with
    | turn h₁ rest =>
      cases h.symm.trans h₁
      exact ih rest
    | exit h₁ => cases h.symm.trans h₁
  | exit h =>
    cases h' with
    | turn h₁ => cases h.symm.trans h₁
    | exit => rfl

/-- No range goes on from where the loop ended. -/
theorem stuck (h : Loop ranges offset n) {r : ByteRange} (hr : r ∈ ranges) (hstart : r.start = n) : r.stop ≤ n := by
  induction h with
  | turn _ _ ih => exact ih hstart
  | exit h => exact following_eq_none h hr hstart

/-- **Every byte the loop went over is listed**, by a range that ends no later than the loop did. -/
theorem exists_range (h : Loop ranges offset n) {b : ℕ} (hle : offset ≤ b) (hlt : b < n) :
    ∃ r ∈ ranges, b ∈ r.bytes ∧ r.stop ≤ n := by
  induction h with
  | @turn _ _ r h rest ih =>
    obtain ⟨hr, hstart, -⟩ := following_eq_some h
    rcases Nat.lt_or_ge b r.stop with hb | hb
    · exact ⟨r, hr, ⟨hstart ▸ hle, hb⟩, rest.le⟩
    · exact ih hb hlt
  | exit => exact absurd (hle.trans_lt hlt) (Nat.lt_irrefl _)

/-- **Ranges without a common byte do not list the byte the loop ends with**: a range that lists it would share its
first byte with one the loop has followed. -/
theorem notMem_covered (hapart : ranges.Pairwise ByteRange.Apart) (h : Loop ranges 0 n) :
    n ∉ covered ranges := by
  rintro ⟨r, hr, hle, hlt⟩
  rcases Nat.eq_or_lt_of_le hle with hstart | hstart
  · exact absurd hlt (Nat.not_lt.mpr (h.stuck hr hstart))
  obtain ⟨q, hq, hmem, hstop⟩ := h.exists_range (Nat.zero_le _) hstart
  have hne : q ≠ r := by
    rintro rfl
    exact absurd hlt (Nat.not_lt.mpr hstop)
  exact hapart.forall hq hr hne _ hmem ⟨Nat.le_refl _, hstart.trans hlt⟩

/-- All the bytes below the offset are listed. -/
theorem covers (h : Loop ranges 0 n) : Set.Iio n ⊆ covered ranges := by
  intro b hb
  obtain ⟨r, hr, hmem, -⟩ := h.exists_range (Nat.zero_le b) hb
  exact ⟨r, hr, hmem⟩

/-- **The offset is the first byte that is not there.** -/
theorem isLeast (hapart : ranges.Pairwise ByteRange.Apart) (h : Loop ranges 0 n) :
    IsLeast (covered ranges)ᶜ n :=
  ⟨h.notMem_covered hapart, fun _ hb => Nat.not_lt.mp fun hlt => hb (h.covers hlt)⟩

end Loop

/-- A range that has been followed starts below the new offset. -/
theorem countP_start_lt {r : ByteRange} (hr : r ∈ ranges) (hlt : r.start < r.stop) :
    ranges.countP (fun q => r.stop ≤ q.start) < ranges.countP fun q => r.start ≤ q.start := by
  obtain ⟨before, after, rfl⟩ := List.append_of_mem hr
  have hmono : ∀ l : List ByteRange, l.countP (fun q => r.stop ≤ q.start) ≤ l.countP fun q => r.start ≤ q.start :=
    fun l => List.countP_mono_left fun q _ hq => decide_eq_true (hlt.le.trans (of_decide_eq_true hq))
  have h₁ := hmono before
  have h₂ := hmono after
  have h₃ : ¬r.stop ≤ r.start := Nat.not_le.mpr hlt
  simp only [List.countP_append, List.countP_cons, h₃, decide_false, decide_true, Nat.le_refl, if_true,
    Bool.false_eq_true, if_false]
  omega

/-- **The loop ends**: each turn leaves fewer ranges that start at the offset or above it. -/
theorem loop_advance (ranges : List ByteRange) (fuel offset : ℕ)
    (hfuel : ranges.countP (fun r => offset ≤ r.start) ≤ fuel) : Loop ranges offset (advance ranges fuel offset) := by
  induction fuel generalizing offset with
  | zero =>
    refine .exit (List.find?_eq_none.mpr fun r hr hfollows => ?_)
    have hnot := List.countP_eq_zero.mp (Nat.le_zero.mp hfuel) r hr
    simp only [decide_eq_true_eq] at hfollows
    exact hnot (decide_eq_true hfollows.1.ge)
  | succ fuel ih =>
    unfold advance
    split
    · next r hnext =>
      obtain ⟨hr, rfl, hlt⟩ := following_eq_some hnext
      have := countP_start_lt hr hlt
      exact .turn hnext (ih r.stop (by omega))
    · next hnext => exact .exit hnext

theorem loop_resumeOffset (manifest : Manifest) : Loop manifest.completedRanges 0 manifest.resumeOffset :=
  loop_advance _ _ _ List.countP_le_length

/-- **`resume_offset` terminates and is sound**, for any list of ranges; and if no two of them share a byte, it returns the
first byte that is not covered, whatever their order. -/
theorem resumeOffset_covers (manifest : Manifest) :
    (∀ n, Loop manifest.completedRanges 0 n ↔ n = manifest.resumeOffset) ∧
      Set.Iio manifest.resumeOffset ⊆ covered manifest.completedRanges ∧
      (manifest.completedRanges.Pairwise ByteRange.Apart →
        IsGreatest {n | Set.Iio n ⊆ covered manifest.completedRanges} manifest.resumeOffset ∧
          IsLeast (covered manifest.completedRanges)ᶜ manifest.resumeOffset ∧
          ∀ manifest' : Manifest, manifest'.completedRanges.Perm manifest.completedRanges →
            manifest'.resumeOffset = manifest.resumeOffset) := by
  have hloop := loop_resumeOffset manifest
  refine ⟨fun n => ⟨fun h => hloop.unique h, fun h => h ▸ hloop⟩, hloop.covers, fun hapart => ?_⟩
  have hleast := hloop.isLeast hapart
  refine ⟨⟨hloop.covers, fun n hn => Nat.not_lt.mp fun hlt => hleast.1 (hn hlt)⟩, hleast, fun manifest' hperm => ?_⟩
  have hsame : covered manifest'.completedRanges = covered manifest.completedRanges :=
    Set.ext fun b => by simp only [covered, hperm.mem_iff]
  have hleast' := (loop_resumeOffset manifest').isLeast (hperm.symm.pairwise hapart ByteRange.Apart.symm)
  rw [hsame] at hleast'
  exact hleast'.unique hleast

/-- Four ranges out of order, the last of them behind a gap. -/
theorem resumeOffset_covers_four :
    let manifest : Manifest := ⟨"http://x/y", none, none, none, [⟨40, 80⟩, ⟨0, 20⟩, ⟨90, 100⟩, ⟨20, 40⟩]⟩
    manifest.resumeOffset = 80 ∧ IsLeast (covered manifest.completedRanges)ᶜ 80 := by
  intro manifest
  have hoffset : manifest.resumeOffset = 80 := by decide
  have hle : manifest.completedRanges.Pairwise fun r q => r.stop ≤ q.start ∨ q.stop ≤ r.start := by decide
  have hapart := hle.imp ByteRange.apart_of_le
  exact ⟨hoffset, hoffset ▸ ((resumeOffset_covers manifest).2.2 hapart).2.1⟩

end Manifest

end DownloadManager
