/-
**The bitrate that is asked for** (`stream.h`, `bitrate.c`, `lowest_bitrate`,
`highest_bitrate_under`, `choose_bitrate`).

The stream keeps the bitrates of the manifest, in Kbps, and the throughput that was measured, in
bps.  The throughput should be at least 1.5 times the bitrate.  The source takes two thirds of it
and one thousandth of that, and rounds both times; a bitrate is not above the result exactly when
1500 times the bitrate is not above the throughput.

Main definitions:

* `P2P.Stream`, `P2P.available` — the stream, and the bitrates it has;
* `P2P.lowestBitrate`, `P2P.highestBitrateUnder`, `P2P.chooseBitrate` — the functions of the source.

Main results:

* `P2P.foldl_better` — a loop that keeps the best element;
* `P2P.le_twoThirds_iff` — the two roundings;
* `P2P.chooseBitrate_best` — **the choice is the best bitrate that the throughput affords**.
-/

import P2PFileTransfer.HttpBuffer
import Mathlib.Order.Bounds.Basic

set_option relaxedAutoImplicit false
set_option autoImplicit false

namespace P2P

/-! ### The functions -/

/-- `MAX_BITRATES_NUM`. -/
abbrev maxBitratesNum : ℕ := 32

/-- `Stream`, as far as the choice of a bitrate needs it. -/
structure Stream where
  /-- `bitrates`: the bitrates available for this video. -/
  bitrates : Vector ℤ maxBitratesNum
  /-- `bitrates_count`: the number of bitrates read from the manifest. -/
  bitratesCount : ℕ
  /-- The array holds the bitrates that were read. -/
  bitratesCount_le : bitratesCount ≤ maxBitratesNum
  /-- `throughput`: the current throughput for the chunk. -/
  throughput : ℤ

/-- The bitrates that were read. -/
def available (s : Stream) : List ℤ := s.bitrates.toList.take s.bitratesCount

/-- `lowest_bitrate`. -/
def lowestBitrate (s : Stream) : ℤ :=
  (available s).foldl (fun lowest b => if b < lowest then b else lowest) s.bitrates[0]

/-- `highest_bitrate_under`. -/
def highestBitrateUnder (s : Stream) (bitrate : ℤ) : ℤ :=
  (available s).foldl (fun highest b => if b ≤ bitrate ∧ highest < b then b else highest)
    (lowestBitrate s)

/-- `choose_bitrate`.  The block for the text has room for every `int`. -/
def chooseBitrate (s : Stream) : List UInt8 :=
  let bitrate := i32 (2 * s.throughput.tdiv 3)
  sprintfInt (highestBitrateUnder s (bitrate.tdiv 1000))

theorem not_mem_chooseBitrate {ch : UInt8} (hsign : ch ≠ 45) (hdigit : Scan.isDigit ch = false)
    (s : Stream) : ch ∉ chooseBitrate s := not_mem_sprintfInt hsign hdigit _

/-! ### Keeping the best -/

/-- **A loop that keeps the best element** of those it may take: what it keeps is the first one or
may be taken, and nothing that may be taken is better. -/
theorem foldl_better {α : Type*} {p : α → Prop} {r : α → α → Prop} [DecidablePred p]
    [DecidableRel r] (hasymm : ∀ x y, r x y → ¬ r y x)
    (htrans : ∀ x y z, ¬ r x y → ¬ r y z → ¬ r x z) (xs : List α) (seed : α) :
    let best := xs.foldl (fun m x => if p x ∧ r x m then x else m) seed
    (best = seed ∨ best ∈ xs ∧ p best) ∧ ¬ r seed best ∧ ∀ x ∈ xs, p x → ¬ r x best := by
  induction xs generalizing seed with
  | nil => exact ⟨.inl rfl, fun h => hasymm _ _ h h, fun _ h => nomatch h⟩
  | cons a xs ih =>
      rw [List.foldl_cons]
      by_cases ha : p a ∧ r a seed
      · rw [if_pos ha]
        obtain ⟨hmem, hseed, hxs⟩ := ih a
        refine ⟨.inr ?_, htrans _ _ _ (hasymm _ _ ha.2) hseed, fun x hx hmay => ?_⟩
        · rcases hmem with heq | ⟨hin, hmay⟩
          · rw [heq]
            exact ⟨List.mem_cons_self .., ha.1⟩
          · exact ⟨List.mem_cons_of_mem _ hin, hmay⟩
        · rcases List.mem_cons.1 hx with rfl | hx
          · exact hseed
          · exact hxs x hx hmay
      · rw [if_neg ha]
        obtain ⟨hmem, hseed, hxs⟩ := ih seed
        refine ⟨hmem.imp_right fun h => ⟨List.mem_cons_of_mem _ h.1, h.2⟩, hseed,
          fun x hx hmay => ?_⟩
        rcases List.mem_cons.1 hx with rfl | hx
        · exact htrans _ _ _ (fun h => ha ⟨hmay, h⟩) hseed
        · exact hxs x hx hmay

/-! ### The two loops -/

variable {s : Stream}

theorem bitrates_zero_mem (h : 0 < s.bitratesCount) : s.bitrates[0] ∈ available s := by
  refine List.mem_of_getElem? (i := 0) ?_
  rw [available, List.getElem?_take_of_lt h, Vector.getElem?_toList]
  rfl

/-- **The lowest bitrate.** -/
theorem lowestBitrate_isLeast (h : 0 < s.bitratesCount) :
    IsLeast {b | b ∈ available s} (lowestBitrate s) := by
  obtain ⟨hmem, -, hleast⟩ := foldl_better (p := fun _ => True) (r := fun b m : ℤ => b < m)
    (fun _ _ => Int.lt_asymm) (fun _ _ _ => by omega) (available s) s.bitrates[0]
  simp only [true_and] at hmem hleast
  refine ⟨?_, fun b hb => Int.not_lt.1 (hleast b hb trivial)⟩
  rcases hmem with heq | ⟨hin, -⟩
  · exact (congrArg (· ∈ available s) heq).mpr (bitrates_zero_mem h)
  · exact hin

/-- **The highest bitrate under a bound**, or the lowest one. -/
theorem highestBitrateUnder_spec (h : 0 < s.bitratesCount) (bitrate : ℤ) :
    IsGreatest {b | b ∈ available s ∧ b ≤ bitrate} (highestBitrateUnder s bitrate) ∨
      (∀ b ∈ available s, ¬ b ≤ bitrate) ∧
        IsLeast {b | b ∈ available s} (highestBitrateUnder s bitrate) := by
  have hleast := lowestBitrate_isLeast h
  obtain ⟨hmem, -, hbest⟩ := foldl_better (p := (· ≤ bitrate)) (r := fun b m : ℤ => m < b)
    (fun _ _ => Int.lt_asymm) (fun _ _ _ => by omega) (available s) (lowestBitrate s)
  rw [← highestBitrateUnder] at hmem hbest
  by_cases hlow : lowestBitrate s ≤ bitrate
  · refine .inl ⟨?_, fun b hb => Int.not_lt.1 (hbest b hb.1 hb.2)⟩
    rcases hmem with heq | hin
    · rw [heq]
      exact ⟨hleast.1, hlow⟩
    · exact hin
  · -- the bound is under all bitrates, and the loop keeps the first value
    have hnone : ∀ b ∈ available s, ¬ b ≤ bitrate := fun b hb hle =>
      hlow (Int.le_trans (hleast.2 hb) hle)
    rcases hmem with heq | ⟨hin, hle⟩
    · rw [heq]
      exact .inr ⟨hnone, hleast⟩
    · exact absurd hle (hnone _ hin)

/-! ### The choice -/

/-- **The two roundings** do not change what is affordable. -/
theorem le_twoThirds_iff {t : ℤ} (h : 0 ≤ t) (b : ℤ) :
    b ≤ (2 * t.tdiv 3).tdiv 1000 ↔ 1500 * b ≤ t := by
  rw [Int.tdiv_eq_ediv_of_nonneg h, Int.tdiv_eq_ediv_of_nonneg (by omega)]
  omega

/-- **The choice is the best bitrate that the throughput affords**, or the lowest one; and no number
leaves the range of an `int`. -/
theorem chooseBitrate_best (s : Stream) (hcount : 0 < s.bitratesCount) (hnonneg : 0 ≤ s.throughput)
    (hint : s.throughput < 2 ^ 31) :
    (∃ b, chooseBitrate s = sprintfInt b ∧
      (IsGreatest {a | a ∈ available s ∧ 1500 * a ≤ s.throughput} b ∨
        (∀ a ∈ available s, ¬ 1500 * a ≤ s.throughput) ∧ IsLeast {a | a ∈ available s} b)) ∧
      0 ≤ 2 * s.throughput.tdiv 3 ∧ 2 * s.throughput.tdiv 3 < 2 ^ 31 := by
  have hrange : 0 ≤ 2 * s.throughput.tdiv 3 ∧ 2 * s.throughput.tdiv 3 < 2 ^ 31 := by
    rw [Int.tdiv_eq_ediv_of_nonneg hnonneg]
    omega
  refine ⟨⟨highestBitrateUnder s ((2 * s.throughput.tdiv 3).tdiv 1000), ?_, ?_⟩, hrange⟩
  · rw [chooseBitrate, i32_of_range (by omega) hrange.2]
  · have hspec := highestBitrateUnder_spec hcount ((2 * s.throughput.tdiv 3).tdiv 1000)
    simp only [le_twoThirds_iff hnonneg] at hspec
    exact hspec

/-- Two bitrates, and a throughput that affords the lower one. -/
def twoBitrates : Stream where
  bitrates := ⟨(1000 :: 500 :: List.replicate 30 0).toArray, rfl⟩
  bitratesCount := 2
  bitratesCount_le := by decide
  throughput := 900000

/-- At 900000 bps the choice is 500 Kbps, not 1000. -/
theorem chooseBitrate_best_two :
    ∃ b, chooseBitrate twoBitrates = sprintfInt b ∧ 1500 * b ≤ 900000 ∧ b ∈ [1000, 500] := by
  obtain ⟨⟨b, hb, hbest | hbest⟩, -⟩ :=
    chooseBitrate_best twoBitrates (by decide) (by decide) (by decide)
  · exact ⟨b, hb, hbest.1.2, hbest.1.1⟩
  · exact absurd (show 1500 * 500 ≤ twoBitrates.throughput by decide) (hbest.1 500 (by decide))

end P2P
