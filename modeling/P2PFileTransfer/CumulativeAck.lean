/-
**A sliding window with cumulative acknowledgements.**

The sender of a stream of `N` pieces keeps a window: everything below `base` is acknowledged and
everything below `next` has been handed to the channel.  The receiver collects pieces in any order
and answers with the length of its longest initial run.  Pieces and acknowledgements may be lost,
repeated and reordered, so the channel is not part of the state: what matters of it is the set of
all acknowledgements ever issued, any of which may arrive at any time.

This is the pattern by itself, for any number of pieces and with no clock, no window size and no
retransmission policy; a protocol that follows it is related to it by a simulation.

Main definitions:

* `CumulativeAck.prefixLen` — the length of the longest initial run of a set, capped at `N`;
* `CumulativeAck.Link` and `CumulativeAck.Step` — the states and the moves of the pattern;
* `CumulativeAck.Link.Sound` — the invariant.

Main results:

* `CumulativeAck.Link.Sound.step`, `CumulativeAck.Link.Sound.steps` — the invariant is kept;
* `CumulativeAck.Link.Sound.complete` — **a sender that stopped on the acknowledgement `N` has a
  receiver that holds every piece**.
-/

import Mathlib.Data.Nat.Find
import Mathlib.Data.Set.Insert
import Mathlib.Logic.Relation

set_option relaxedAutoImplicit false
set_option autoImplicit false

namespace CumulativeAck

open scoped Classical in
/-- The length of the longest initial run of `got`, capped at `N`. -/
noncomputable def prefixLen (N : ℕ) (got : Set ℕ) : ℕ :=
  Nat.findGreatest (fun k => ∀ i < k, i ∈ got) N

theorem prefixLen_le (N : ℕ) (got : Set ℕ) : prefixLen N got ≤ N := by
  classical
  exact Nat.findGreatest_le N

theorem mem_of_lt_prefixLen {N i : ℕ} {got : Set ℕ} (h : i < prefixLen N got) : i ∈ got := by
  classical
  have hzero : ∀ j < 0, j ∈ got := by simp
  have hspec : ∀ j < prefixLen N got, j ∈ got :=
    Nat.findGreatest_spec (P := fun k => ∀ i < k, i ∈ got) (Nat.zero_le N) hzero
  exact hspec i h

theorem le_prefixLen {N k : ℕ} {got : Set ℕ} (hk : k ≤ N) (h : ∀ i < k, i ∈ got) :
    k ≤ prefixLen N got := by
  classical
  exact Nat.le_findGreatest hk h

/-- The longest initial run is the only run that is initial and cannot be continued. -/
theorem prefixLen_eq {N k : ℕ} {got : Set ℕ} (hk : k ≤ N) (h : ∀ i < k, i ∈ got)
    (hmax : k = N ∨ k ∉ got) : prefixLen N got = k := by
  refine Nat.le_antisymm ?_ (le_prefixLen hk h)
  rcases hmax with rfl | hmax
  · exact prefixLen_le k got
  · by_contra hlt
    have hk' : k < prefixLen N got := by omega
    exact hmax (mem_of_lt_prefixLen hk')

theorem prefixLen_mono {N : ℕ} {got got' : Set ℕ} (h : got ⊆ got') :
    prefixLen N got ≤ prefixLen N got' :=
  le_prefixLen (prefixLen_le N got) fun _ hi => h (mem_of_lt_prefixLen hi)

/-- A state of the pattern. -/
structure Link where
  /-- Every piece below `base` is acknowledged. -/
  base : ℕ
  /-- The next piece the sender hands to the channel. -/
  next : ℕ
  /-- The pieces the receiver holds. -/
  got : Set ℕ
  /-- The acknowledgements issued so far. -/
  acks : Set ℕ
  /-- The sender has stopped because everything was acknowledged. -/
  done : Prop

/-- The moves of the pattern, for a stream of `N` pieces. -/
inductive Step (N : ℕ) : Link → Link → Prop
  /-- A piece reaches the receiver. -/
  | receive (l : Link) (i : ℕ) : Step N l { l with got := insert i l.got }
  /-- The receiver answers with its longest initial run. -/
  | acknowledge (l : Link) : Step N l { l with acks := insert (prefixLen N l.got) l.acks }
  /-- A new acknowledgement moves the window. -/
  | slide (l : Link) (a : ℕ) (ha : a ∈ l.acks) :
      Step N l { l with base := a, next := max l.next a }
  /-- The sender hands more pieces to the channel. -/
  | transmit (l : Link) (k : ℕ) (h : l.next ≤ k) (hk : k ≤ N) : Step N l { l with next := k }
  /-- The sender goes back to the first unacknowledged piece. -/
  | rewind (l : Link) : Step N l { l with next := l.base }
  /-- The sender stops: everything is acknowledged. -/
  | finish (l : Link) (h : N ∈ l.acks) : Step N l { l with done := True }

/-- **The invariant**: no number on either side runs ahead of what the receiver holds. -/
structure Link.Sound (N : ℕ) (l : Link) : Prop where
  /-- The window starts inside the received run. -/
  base_le : l.base ≤ prefixLen N l.got
  /-- The next piece is not behind the window. -/
  base_le_next : l.base ≤ l.next
  /-- The next piece is one of the stream, or its end. -/
  next_le : l.next ≤ N
  /-- No acknowledgement promises more than was received. -/
  acks_le : ∀ a ∈ l.acks, a ≤ prefixLen N l.got
  /-- A sender that has stopped was told of everything. -/
  done_prefix : l.done → prefixLen N l.got = N

variable {N : ℕ} {l l' : Link}

/-- **Each move keeps the invariant.** -/
theorem Link.Sound.step (h : l.Sound N) (hs : Step N l l') : l'.Sound N := by
  cases hs with
  | receive i =>
      have hle : prefixLen N l.got ≤ prefixLen N (insert i l.got) :=
        prefixLen_mono (Set.subset_insert i l.got)
      refine ⟨h.base_le.trans hle, h.base_le_next, h.next_le,
        fun a ha => (h.acks_le a ha).trans hle, fun hd => ?_⟩
      have hfull := h.done_prefix hd
      rw [hfull] at hle
      exact Nat.le_antisymm (prefixLen_le _ _) hle
  | acknowledge =>
      refine ⟨h.base_le, h.base_le_next, h.next_le, ?_, h.done_prefix⟩
      intro a ha
      rcases Set.mem_insert_iff.1 ha with rfl | ha
      · exact Nat.le_refl _
      · exact h.acks_le a ha
  | slide a ha =>
      have hle := h.acks_le a ha
      have hN := prefixLen_le N l.got
      have hnext := h.next_le
      exact ⟨hle, by simp, by simp; omega, h.acks_le, h.done_prefix⟩
  | transmit k hk hkN =>
      have hbn := h.base_le_next
      exact ⟨h.base_le, by simp; omega, hkN, h.acks_le, h.done_prefix⟩
  | rewind =>
      have hbn := h.base_le_next
      have hnext := h.next_le
      exact ⟨h.base_le, Nat.le_refl _, by simp; omega, h.acks_le, h.done_prefix⟩
  | finish hN =>
      refine ⟨h.base_le, h.base_le_next, h.next_le, h.acks_le, fun _ => ?_⟩
      exact Nat.le_antisymm (prefixLen_le _ _) (h.acks_le N hN)

theorem Link.Sound.steps (h : l.Sound N) (hs : Relation.ReflTransGen (Step N) l l') :
    l'.Sound N := by
  induction hs with
  | refl => exact h
  | tail _ hs ih => exact ih.step hs

/-- **A sender that stopped on the last acknowledgement has a complete receiver.** -/
theorem Link.Sound.complete (h : l.Sound N) (hd : l.done) : ∀ i < N, i ∈ l.got := by
  intro i hi
  exact mem_of_lt_prefixLen (by rw [h.done_prefix hd]; exact hi)

end CumulativeAck
