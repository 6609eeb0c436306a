/-
**Iterated hash functions.**

A hash function of this kind has a step that takes a state and a block of `n` letters, and it runs
the step over the blocks of a message, whose end was padded to fill the last one.  A program that is
given a message a part at a time keeps the state after the whole blocks so far, and the letters that
are left over.

What can be said about two messages with one hash is that the step itself was met with two different
arguments and one value, somewhere along the two messages.  The place is named: that there are such
arguments at all says nothing, as there are more blocks than states.

Main definitions:

* `IteratedHash.block`, `IteratedHash.chain` — a block of a message, and the state before it;
* `IteratedHash.absorb`, `IteratedHash.rest` — the state after all whole blocks, and what is left;
* `IteratedHash.Collides` — two messages at which the step collides;
* `IteratedHash.Strengthens` — a padding whose last block tells the length.

Main results:

* `IteratedHash.absorb_append`, `IteratedHash.rest_append` — **streaming**: a message in two parts;
* `IteratedHash.absorb_flatten` — a message that begins with whole blocks;
* `IteratedHash.collides_of_absorb_eq` — messages of one length;
* `IteratedHash.Strengthens.collides` — **a collision of the hash is a collision of the step**.
-/

import Mathlib.Data.List.Basic
import Mathlib.Tactic.Ring

set_option relaxedAutoImplicit false
set_option autoImplicit false

namespace IteratedHash

variable {σ α : Type*} (n : ℕ) (f : σ → List α → σ)

/-- The block at position `k`. -/
def block (l : List α) (k : ℕ) : List α := (l.drop (k * n)).take n

/-- The state after the first `k` blocks. -/
def chain (s : σ) (l : List α) : ℕ → σ
  | 0 => s
  | k + 1 => f (chain s l k) (block n l k)

/-- The state after all whole blocks. -/
def absorb (s : σ) (l : List α) : σ := chain n f s l (l.length / n)

/-- What follows the last whole block. -/
def rest (l : List α) : List α := l.drop (l.length / n * n)

variable {n f}

/-! ### Blocks and states -/

theorem block_append {l : List α} {k : ℕ} (h : (k + 1) * n ≤ l.length) (m : List α) :
    block n (l ++ m) k = block n l k := by
  rw [Nat.succ_mul] at h
  rw [block, block, List.drop_append_of_le_length (by omega),
    List.take_append_of_le_length (by rw [List.length_drop]; omega)]

/-- A state depends on the blocks before it only. -/
theorem chain_append (s : σ) {l : List α} {k : ℕ} (h : k * n ≤ l.length) (m : List α) :
    chain n f s (l ++ m) k = chain n f s l k := by
  induction k with
  | zero => rfl
  | succ k ih =>
      have hk : k * n ≤ l.length := (Nat.mul_le_mul_right n (Nat.le_succ k)).trans h
      rw [chain, chain, ih hk, block_append h]

/-- **Going on** from the state after some blocks. -/
theorem chain_add (s : σ) (l : List α) (j k : ℕ) :
    chain n f s l (j + k) = chain n f (chain n f s l j) (l.drop (j * n)) k := by
  induction k with
  | zero => rfl
  | succ k ih =>
      have hblock : block n (l.drop (j * n)) k = block n l (j + k) := by
        rw [block, block, List.drop_drop, ← Nat.add_mul]
      rw [← Nat.add_assoc, chain, chain, ih, hblock]

/-! ### Streaming -/

theorem length_rest (l : List α) : (rest n l).length = l.length % n := by
  have hmod := Nat.mod_add_div' l.length n
  rw [rest, List.length_drop]
  omega

theorem rest_of_lt {l : List α} (h : l.length < n) : rest n l = l := by
  rw [rest, Nat.div_eq_of_lt h, Nat.zero_mul, List.drop_zero]

theorem absorb_of_lt (s : σ) {l : List α} (h : l.length < n) : absorb n f s l = s := by
  rw [absorb, Nat.div_eq_of_lt h, chain]

theorem length_append_div (hn : 0 < n) (l m : List α) :
    (l ++ m).length / n = l.length / n + (rest n l ++ m).length / n := by
  have hmod := Nat.mod_add_div' l.length n
  have hsum : (l ++ m).length = (l.length % n + m.length) + n * (l.length / n) := by
    rw [List.length_append, Nat.mul_comm n]
    omega
  rw [hsum, Nat.add_mul_div_left _ _ hn, List.length_append, length_rest, Nat.add_comm]

theorem drop_div_mul (l m : List α) :
    (l ++ m).drop (l.length / n * n) = rest n l ++ m := by
  rw [rest, List.drop_append_of_le_length (Nat.div_mul_le_self _ _)]

/-- **The state after a message in two parts**: what was left of the first is put before the
second. -/
theorem absorb_append (hn : 0 < n) (s : σ) (l m : List α) :
    absorb n f s (l ++ m) = absorb n f (absorb n f s l) (rest n l ++ m) := by
  rw [absorb, length_append_div hn, chain_add, chain_append s (Nat.div_mul_le_self _ _),
    drop_div_mul]
  rfl

/-- **What is left of a message in two parts.** -/
theorem rest_append (hn : 0 < n) (l m : List α) :
    rest n (l ++ m) = rest n (rest n l ++ m) := by
  rw [rest, length_append_div hn, Nat.add_mul, ← List.drop_drop, drop_div_mul]
  rfl

/-- A message that fills one block. -/
theorem absorb_block (hn : 0 < n) (s : σ) {l : List α} (h : l.length = n) :
    absorb n f s l = f s l := by
  rw [absorb, h, Nat.div_self hn, chain, chain, block, Nat.zero_mul, List.drop_zero,
    List.take_of_length_le (by omega)]

theorem rest_block (hn : 0 < n) {l : List α} (h : l.length = n) : rest n l = [] := by
  rw [rest, h, Nat.div_self hn, Nat.one_mul, ← h, List.drop_length]

/-- **Whole blocks**, one after the other. -/
theorem absorb_flatten (hn : 0 < n) (s : σ) {bs : List (List α)} (h : ∀ b ∈ bs, b.length = n)
    (l : List α) : absorb n f s (bs.flatten ++ l) = absorb n f (bs.foldl f s) l := by
  induction bs generalizing s with
  | nil => rfl
  | cons b bs ih =>
      have hb : b.length = n := h b (List.mem_cons_self ..)
      rw [List.flatten_cons, List.append_assoc, absorb_append hn, absorb_block hn s hb,
        rest_block hn hb, List.nil_append, ih _ fun c hc => h c (List.mem_cons_of_mem _ hc),
        List.foldl_cons]

/-! ### Collisions -/

variable (n f)

/-- The step is met with different arguments and one value: in the message `l`, read from the state
`s`, at the block `i`, and in the message `m`, read from the state `t`, at the block `j`. -/
structure Collides (s : σ) (l : List α) (i : ℕ) (t : σ) (m : List α) (j : ℕ) : Prop where
  /-- The two blocks are in the messages. -/
  left : (i + 1) * n ≤ l.length
  right : (j + 1) * n ≤ m.length
  distinct : ¬ (chain n f s l i = chain n f t m j ∧ block n l i = block n m j)
  same : f (chain n f s l i) (block n l i) = f (chain n f t m j) (block n m j)

variable {n f}

/-- Two messages agree as far as their blocks do. -/
theorem take_eq_of_blocks {l m : List α} {k : ℕ} (h : ∀ i < k, block n l i = block n m i) :
    l.take (k * n) = m.take (k * n) := by
  induction k with
  | zero => rw [Nat.zero_mul, List.take_zero, List.take_zero]
  | succ k ih =>
      have hlast : (l.drop (k * n)).take n = (m.drop (k * n)).take n := h k (Nat.lt_succ_self k)
      rw [Nat.succ_mul, List.take_add, List.take_add, hlast,
        ih fun i hi => h i (Nat.lt_succ_of_lt hi)]

/-- **Where two messages with one state meet**: going back from the end, the arguments of the step
are the same until they collide. -/
theorem collides_or_agree {s t : σ} {l m : List α} {k : ℕ} (hl : k * n ≤ l.length)
    (hm : k * n ≤ m.length) (h : chain n f s l k = chain n f t m k) :
    (∃ i < k, Collides n f s l i t m i) ∨ s = t ∧ ∀ i < k, block n l i = block n m i := by
  induction k with
  | zero => exact Or.inr ⟨h, fun i hi => absurd hi (Nat.not_lt_zero i)⟩
  | succ k ih =>
      have hle : k * n ≤ (k + 1) * n := Nat.mul_le_mul_right n (Nat.le_succ k)
      by_cases hsame : chain n f s l k = chain n f t m k ∧ block n l k = block n m k
      · rcases ih (hle.trans hl) (hle.trans hm) hsame.1 with ⟨i, hi, hc⟩ | ⟨hst, hblocks⟩
        · exact Or.inl ⟨i, Nat.lt_succ_of_lt hi, hc⟩
        · refine Or.inr ⟨hst, fun i hi => ?_⟩
          rcases Nat.lt_succ_iff_lt_or_eq.1 hi with hi | rfl
          · exact hblocks i hi
          · exact hsame.2
      · exact Or.inl ⟨k, Nat.lt_succ_self k, hl, hm, hsame, h⟩

/-- **Messages of one length with one state collide**, or are the same. -/
theorem collides_of_absorb_eq {s : σ} {l m : List α} (hlen : l.length = m.length)
    (hl : n ∣ l.length) (hne : l ≠ m) (h : absorb n f s l = absorb n f s m) :
    ∃ i, Collides n f s l i s m i := by
  have hk : l.length / n * n = l.length := Nat.div_mul_cancel hl
  rw [absorb, absorb, ← hlen] at h
  rcases collides_or_agree hk.le (hk.trans hlen).le h with ⟨i, -, hc⟩ | ⟨-, hblocks⟩
  · exact ⟨i, hc⟩
  · have htake := take_eq_of_blocks hblocks
    rw [hk, List.take_length, hlen, List.take_length] at htake
    exact absurd htake hne

variable (n)

/-- A padding of the messages in `D` that can be undone, and whose last block tells the length. -/
structure Strengthens (D : List α → Prop) (pad : List α → List α) : Prop where
  whole : ∀ l, D l → n ∣ (pad l).length
  pos : ∀ l, D l → 0 < (pad l).length
  injective : ∀ l m, D l → D m → pad l = pad m → l = m
  /-- The last block tells the length. -/
  last : ∀ l m, D l → D m →
    block n (pad l) ((pad l).length / n - 1) = block n (pad m) ((pad m).length / n - 1) →
      (pad l).length = (pad m).length

variable {n}

/-- **A collision of the hash is a collision of the step**, at named blocks of the two padded
messages. -/
theorem Strengthens.collides {D : List α → Prop} {pad : List α → List α}
    (hpad : Strengthens n D pad) {s : σ} {l m : List α} (hl : D l) (hm : D m) (hne : l ≠ m)
    (h : absorb n f s (pad l) = absorb n f s (pad m)) :
    ∃ i j, Collides n f s (pad l) i s (pad m) j := by
  by_cases hlen : (pad l).length = (pad m).length
  · obtain ⟨i, hc⟩ := collides_of_absorb_eq hlen (hpad.whole l hl)
      (fun heq => hne (hpad.injective l m hl hm heq)) h
    exact ⟨i, i, hc⟩
  · -- the last blocks differ, as they tell the lengths
    have hlast : ∀ x, D x → (pad x).length / n = (pad x).length / n - 1 + 1 ∧
        ((pad x).length / n - 1 + 1) * n ≤ (pad x).length := by
      intro x hx
      have hmul : (pad x).length / n * n = (pad x).length := Nat.div_mul_cancel (hpad.whole x hx)
      have hq : 0 < (pad x).length / n := by
        rcases Nat.eq_zero_or_pos ((pad x).length / n) with h0 | h0
        · rw [h0, Nat.zero_mul] at hmul
          exact absurd (hpad.pos x hx) (by omega)
        · exact h0
      rw [Nat.sub_add_cancel hq]
      exact ⟨rfl, hmul.le⟩
    refine ⟨(pad l).length / n - 1, (pad m).length / n - 1, (hlast l hl).2, (hlast m hm).2,
      fun hboth => hlen (hpad.last l m hl hm hboth.2), ?_⟩
    rw [absorb, absorb, (hlast l hl).1, (hlast m hm).1] at h
    exact h

end IteratedHash
