/-
**Elapsed time** (`mytime.c`, `transfer_has_timeout`, `congestion_avoidance`).

`millitime` keeps 20 bits of the seconds before it scales them, so its values start again at zero
every `2 ^ 20` seconds, and the callers subtract two of them in 64 bits.  Within a block of
`2 ^ 20` seconds the difference is the time that has passed.  From one block to the next it is not:
the earlier value is the larger one, and the difference is close to `2 ^ 64`.  The subtraction would
have to be reduced by the period of the clock.

Main definitions:

* `P2P.Timeval` — a time of day;
* `P2P.Timeval.millitime`, `P2P.Timeval.ms` — the value of the clock, and the time in milliseconds;
* `P2P.Timeval.SameBlock` — the clock did not start again between two times.

Main results:

* `P2P.Timeval.millitime_eq` — the clock is the time modulo its period;
* `P2P.Timeval.sub64_millitime` — **the difference of two values, in closed form**;
* `P2P.Timeval.elapsed_right_iff` — **when the difference and what is computed from it are right**.
-/

import P2PFileTransfer.Congestion

set_option relaxedAutoImplicit false
set_option autoImplicit false

namespace P2P

/-- `struct timeval`, as `gettimeofday` fills it in. -/
structure Timeval where
  tvSec : ℕ
  tvUsec : ℕ
  tvUsec_lt : tvUsec < 1000000

namespace Timeval

/-- The time in microseconds. -/
def us (T : Timeval) : ℕ := T.tvSec * 1000000 + T.tvUsec

/-- The time in whole milliseconds. -/
def ms (T : Timeval) : ℕ := T.us / 1000

/-- The value of `millitime` at the time `T`. -/
def millitime (T : Timeval) : ℕ := P2P.millitime T.tvSec T.tvUsec

/-- The milliseconds after which the clock starts again. -/
def period : ℕ := 2 ^ 20 * 1000

/-- The two times lie in the same block of `2 ^ 20` seconds. -/
def SameBlock (T₀ T₁ : Timeval) : Prop := T₁.tvSec / 2 ^ 20 = T₀.tvSec / 2 ^ 20

instance (T₀ T₁ : Timeval) : Decidable (T₀.SameBlock T₁) :=
  inferInstanceAs (Decidable (_ = _))

theorem ms_eq (T : Timeval) : T.ms = T.tvSec * 1000 + T.tvUsec / 1000 := by
  rw [ms, us]
  omega

/-- **The clock is the time modulo its period.** -/
theorem millitime_eq (T : Timeval) : T.millitime = T.ms % period := by
  have hsec : T.tvSec &&& 0xfffff = T.tvSec % 2 ^ 20 := Nat.and_two_pow_sub_one_eq_mod _ 20
  have husec := T.tvUsec_lt
  rw [millitime, P2P.millitime, hsec, ms_eq, period]
  omega

/-- The blocks are the periods of the clock. -/
theorem ms_div_period (T : Timeval) : T.ms / period = T.tvSec / 2 ^ 20 := by
  have husec := T.tvUsec_lt
  rw [ms_eq, period]
  omega

section Pair

variable {T₀ T₁ : Timeval}

/-- **The difference of two values**: from one block to the next a period is missing. -/
theorem sub64_millitime (hle : T₀.us ≤ T₁.us) (hlt : T₁.us < T₀.us + 2 ^ 20 * 1000000) :
    sub64 T₁.millitime T₀.millitime =
      if T₀.SameBlock T₁ then T₁.ms - T₀.ms
      else (2 ^ 64 + (T₁.ms - T₀.ms) - period) % 2 ^ 64 := by
  have hms : T₀.ms ≤ T₁.ms := Nat.div_le_div_right hle
  have hnear : T₁.ms ≤ T₀.ms + period := by
    rw [ms, ms, period]
    omega
  have hmod₀ := Nat.div_add_mod T₀.ms period
  have hmod₁ := Nat.div_add_mod T₁.ms period
  have hlt₀ : T₀.ms % period < period := Nat.mod_lt _ (by decide)
  have hlt₁ : T₁.ms % period < period := Nat.mod_lt _ (by decide)
  rw [ms_div_period] at hmod₀ hmod₁
  have hperiod : period = 1048576000 := rfl
  rw [millitime_eq, millitime_eq, sub64]
  rw [hperiod] at hmod₀ hmod₁ hlt₀ hlt₁ hnear ⊢
  split_ifs with hblock
  · rw [SameBlock] at hblock
    rw [hblock] at hmod₁
    omega
  · -- the later time is in the next block
    have hnext : T₁.tvSec / 2 ^ 20 = T₀.tvSec / 2 ^ 20 + 1 := by
      rw [SameBlock] at hblock
      omega
    rw [hnext] at hmod₁
    omega

/-- The time that has passed is at most a period, and less within a block. -/
theorem elapsed_le (hlt : T₁.us < T₀.us + 2 ^ 20 * 1000000) : T₁.ms - T₀.ms ≤ period := by
  rw [ms, ms, period]
  omega

theorem elapsed_lt_of_sameBlock (h : T₀.SameBlock T₁) : T₁.ms - T₀.ms < period := by
  have hmod₀ := Nat.div_add_mod T₀.ms period
  have hmod₁ := Nat.div_add_mod T₁.ms period
  have hlt₁ : T₁.ms % period < period := Nat.mod_lt _ (by decide)
  rw [ms_div_period] at hmod₀ hmod₁
  rw [SameBlock] at h
  rw [h] at hmod₁
  omega

/-- **When the difference is right.** -/
theorem difference_iff (hle : T₀.us ≤ T₁.us) (hlt : T₁.us < T₀.us + 2 ^ 20 * 1000000) :
    sub64 T₁.millitime T₀.millitime = T₁.ms - T₀.ms ↔ T₀.SameBlock T₁ := by
  have hle' := elapsed_le hlt
  have hperiod : period = 1048576000 := rfl
  rw [sub64_millitime hle hlt]
  split_ifs with hblock
  · exact ⟨fun _ => hblock, fun _ => rfl⟩
  · refine ⟨fun h => ?_, fun h => absurd h hblock⟩
    omega

/-- **When a timeout is right.**  From one block to the next every transfer has timed out, unless
exactly a period of the clock has passed. -/
theorem timeout_iff (hle : T₀.us ≤ T₁.us) (hlt : T₁.us < T₀.us + 2 ^ 20 * 1000000) {t : Transfer}
    (ht : t.timestamp = T₀.millitime) :
    (transferHasTimeout T₁.millitime t = true ↔ 3000 < T₁.ms - T₀.ms) ↔
      T₀.SameBlock T₁ ∨ 3000 < T₁.ms - T₀.ms ∧ T₁.ms - T₀.ms < period := by
  have hle' := elapsed_le hlt
  have hperiod : period = 1048576000 := rfl
  rw [transferHasTimeout, decide_eq_true_iff, ht, sub64_millitime hle hlt, timeoutThreshold]
  split_ifs with hblock
  · exact ⟨fun _ => Or.inl hblock, fun _ => Iff.rfl⟩
  · simp only [hblock, false_or]
    omega

/-- The window of congestion avoidance: it is not stored when it is the old one. -/
theorem windSize_congestionAvoidance {clock : ℕ → ℕ} {t : Transfer}
    (hrtt : t.cctrl.rtt = fixedRtt) {new : ℕ}
    (hnew : (sub64 (clock 0) t.cctrl.rttTimer / 200 + t.cctrl.startWindSize) % 2 ^ 64 = new) :
    (congestionAvoidance clock t).cctrl.windSize = new ∧ t.cctrl.windSize = new ∨
      (congestionAvoidance clock t).cctrl.windSize = u32 new := by
  have hrtt₀ : ¬ t.cctrl.rtt = 0 := by rw [hrtt]; decide
  have h200 : t.cctrl.rtt = 200 := hrtt
  rw [congestionAvoidance]
  simp only [if_neg hrtt₀]
  rw [h200, hnew]
  split_ifs with hold
  · exact Or.inr rfl
  · exact Or.inl ⟨not_not.1 hold, not_not.1 hold⟩

/-- **When the window of congestion avoidance is right.** -/
theorem window_iff (hle : T₀.us ≤ T₁.us) (hlt : T₁.us < T₀.us + 2 ^ 20 * 1000000)
    {clock : ℕ → ℕ} {t : Transfer} (hrtt : t.cctrl.rtt = fixedRtt)
    (htimer : t.cctrl.rttTimer = T₀.millitime) (hnow : clock 0 = T₁.millitime)
    (hfits : t.cctrl.startWindSize + (T₁.ms - T₀.ms) / 200 < 2 ^ 32) :
    (congestionAvoidance clock t).cctrl.windSize =
        t.cctrl.startWindSize + (T₁.ms - T₀.ms) / 200 ↔ T₀.SameBlock T₁ := by
  have hle' := elapsed_le hlt
  have hperiod : period = 1048576000 := rfl
  have hdiff := sub64_millitime hle hlt
  have hwind := @windSize_congestionAvoidance clock t hrtt _ rfl
  rw [htimer, hnow, hdiff, u32] at hwind
  by_cases hblock : T₀.SameBlock T₁
  · have hlt' := elapsed_lt_of_sameBlock hblock
    rw [if_pos hblock] at hwind
    simp only [hblock, iff_true]
    omega
  · -- the quotient misses the right one by a number that is not zero in 32 bits
    rw [if_neg hblock] at hwind
    simp only [hblock, iff_false]
    omega

end Pair

/-- **When elapsed time is right.**  For two times less than `2 ^ 20` seconds apart, the difference
of the two values of the clock is the milliseconds that have passed exactly if the times lie in one
block of `2 ^ 20` seconds.  The same holds for the window that congestion avoidance computes from
it; a transfer stamped at the first time has timed out exactly after 3000 milliseconds if the times
lie in one block, or if in fact more than that and less than a period have passed. -/
theorem elapsed_right_iff (T₀ T₁ : Timeval) (hle : T₀.us ≤ T₁.us)
    (hlt : T₁.us < T₀.us + 2 ^ 20 * 1000000) :
    (sub64 T₁.millitime T₀.millitime = T₁.ms - T₀.ms ↔ T₀.SameBlock T₁) ∧
      (∀ t : Transfer, t.timestamp = T₀.millitime →
        ((transferHasTimeout T₁.millitime t = true ↔ 3000 < T₁.ms - T₀.ms) ↔
          T₀.SameBlock T₁ ∨ 3000 < T₁.ms - T₀.ms ∧ T₁.ms - T₀.ms < period)) ∧
      ∀ (clock : ℕ → ℕ) (t : Transfer), t.cctrl.rtt = fixedRtt →
        t.cctrl.rttTimer = T₀.millitime → clock 0 = T₁.millitime →
        t.cctrl.startWindSize + (T₁.ms - T₀.ms) / 200 < 2 ^ 32 →
          ((congestionAvoidance clock t).cctrl.windSize =
            t.cctrl.startWindSize + (T₁.ms - T₀.ms) / 200 ↔ T₀.SameBlock T₁) :=
  ⟨difference_iff hle hlt, fun _ ht => timeout_iff hle hlt ht,
    fun _ _ hrtt htimer hnow hfits => window_iff hle hlt hrtt htimer hnow hfits⟩

/-- The beginning of a second. -/
def atSecond (sec : ℕ) : Timeval := ⟨sec, 0, by decide⟩

/-- A second in the middle of a block. -/
theorem elapsed_right_iff_within :
    sub64 (atSecond 8).millitime (atSecond 7).millitime = 1000 ∧
      transferHasTimeout (atSecond 8).millitime (createTransfer 0 0 (atSecond 7).millitime) =
        false := by
  obtain ⟨hdiff, htimeout, -⟩ := elapsed_right_iff (atSecond 7) (atSecond 8) (by decide) (by decide)
  have hblock : (atSecond 7).SameBlock (atSecond 8) := by decide
  refine ⟨hdiff.2 hblock, Bool.eq_false_iff.2 fun hto => ?_⟩
  have hlate := ((htimeout _ rfl).2 (Or.inl hblock)).1 hto
  exact absurd hlate (by decide)

/-- Across the end of a block a second is taken for hundreds of millions of years, and a transfer
that was just stamped has timed out. -/
theorem elapsed_wrong : ¬ ∀ T₀ T₁ : Timeval, T₀.us ≤ T₁.us → T₁.us < T₀.us + 2 ^ 20 * 1000000 →
    sub64 T₁.millitime T₀.millitime = T₁.ms - T₀.ms ∧
      ∀ t : Transfer, t.timestamp = T₀.millitime →
        (transferHasTimeout T₁.millitime t = true ↔ 3000 < T₁.ms - T₀.ms) := by
  intro h
  obtain ⟨-, htimeout⟩ := h (atSecond (2 ^ 20 - 1)) (atSecond (2 ^ 20)) (by decide) (by decide)
  have hearly := (htimeout (createTransfer 0 0 (atSecond (2 ^ 20 - 1)).millitime) rfl).1 (by decide)
  exact absurd hearly (by decide)

end Timeval

end P2P
