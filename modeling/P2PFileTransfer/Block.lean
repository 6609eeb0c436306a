/-
**Memory blocks: fixed-size buffers and the copies made into them.**

A C program moves data with `memcpy`: a run of bytes is laid over part of a buffer and the rest of
the buffer keeps its contents.  This module is the algebra of that one operation, over an arbitrary
type of cells and for buffers whose size is part of their type.  It knows nothing about the program
that copies.

Main definitions:

* `Block.blit` — `src` laid over the block `v` from offset `o` on;
* `Block.slice` — the run of `len` cells from offset `o` on;
* `Block.blits` — a sequence of copies, and `Block.Tiles` — one that runs through the block without
  gap or overlap;
* `Block.memory`, `Block.window` — a block seen from outside, as memory that goes on past its end.

Main results:

* `Block.getElem_blit` — every cell after a copy, in one equation;
* `Block.slice_blits_of_mem` — every copy of a tiling can be read back.
-/

import Mathlib.Data.List.Basic
import Mathlib.Tactic.Ring
import Mathlib.Tactic.Linarith

set_option relaxedAutoImplicit false
set_option autoImplicit false

namespace Block

variable {α : Type*} {n : ℕ}

/-! ### Copying into a block -/

/-- `src` laid over the block `v` from offset `o` on.  Cells of `src` that would land beyond the
block are dropped. -/
def blit (v : Vector α n) (o : ℕ) (src : List α) : Vector α n :=
  Vector.ofFn fun i => if h : o ≤ i ∧ i - o < src.length then src[i.val - o] else v[i]

/-- **Every cell after a copy.** -/
theorem getElem_blit (v : Vector α n) (o : ℕ) (src : List α) (i : ℕ) (hi : i < n) :
    (blit v o src)[i] = if h : o ≤ i ∧ i - o < src.length then src[i - o] else v[i] := by
  simp [blit]

theorem getElem_blit_of_mem {v : Vector α n} {o : ℕ} {src : List α} {i : ℕ} (hi : i < n)
    (h₁ : o ≤ i) (h₂ : i - o < src.length) : (blit v o src)[i] = src[i - o] := by
  rw [getElem_blit, dif_pos ⟨h₁, h₂⟩]

theorem getElem_blit_of_lt {v : Vector α n} {o : ℕ} {src : List α} {i : ℕ} (hi : i < n)
    (h : i < o) : (blit v o src)[i] = v[i] := by
  rw [getElem_blit, dif_neg (by omega)]

theorem getElem_blit_of_ge {v : Vector α n} {o : ℕ} {src : List α} {i : ℕ} (hi : i < n)
    (h : o + src.length ≤ i) : (blit v o src)[i] = v[i] := by
  rw [getElem_blit, dif_neg (by omega)]

@[simp] theorem blit_nil (v : Vector α n) (o : ℕ) : blit v o [] = v := by
  ext i hi
  simp [getElem_blit]

/-- The list after a copy that starts at offset `0`: the source, then what it did not cover. -/
theorem toList_blit_zero (v : Vector α n) {src : List α} (h : src.length ≤ n) :
    (blit v 0 src).toList = src ++ v.toList.drop src.length := by
  refine List.ext_getElem (by simp; omega) ?_
  intro i h₁ h₂
  have hi : i < n := by simpa using h₁
  rw [Vector.getElem_toList, getElem_blit, List.getElem_append]
  by_cases hs : i < src.length
  · simp [hs]
  · have hs' : src.length ≤ i := by omega
    simp [hs, hs']

/-- The list after a copy that fits. -/
theorem toList_blit (v : Vector α n) {o : ℕ} {src : List α} (h : o + src.length ≤ n) :
    (blit v o src).toList = v.toList.take o ++ (src ++ v.toList.drop (o + src.length)) := by
  have hlen : (v.toList.take o).length = o := by
    rw [List.length_take, Vector.length_toList]
    omega
  refine List.ext_getElem (by simp; omega) ?_
  intro i h₁ h₂
  have hi : i < n := by simpa using h₁
  rw [Vector.getElem_toList]
  by_cases hlt : i < o
  · rw [getElem_blit_of_lt hi hlt, List.getElem_append_left (by omega),
      List.getElem_take, Vector.getElem_toList]
  · rw [List.getElem_append_right (by omega)]
    simp only [hlen]
    by_cases hmem : i - o < src.length
    · rw [getElem_blit_of_mem hi (by omega) hmem, List.getElem_append_left hmem]
    · rw [getElem_blit_of_ge hi (by omega), List.getElem_append_right (by omega),
        List.getElem_drop, Vector.getElem_toList]
      congr 1
      omega

/-! ### Reading a run of cells -/

/-- The run of `len` cells of `v` from offset `o` on, cut at the end of the block. -/
def slice (v : Vector α n) (o len : ℕ) : List α := (v.toList.drop o).take len

@[simp] theorem length_slice (v : Vector α n) (o len : ℕ) :
    (slice v o len).length = min len (n - o) := by
  simp [slice]

theorem getElem_slice (v : Vector α n) (o len i : ℕ) (h : i < (slice v o len).length)
    (hi : o + i < n) : (slice v o len)[i] = v[o + i] := by
  simp [slice]

/-- Two blocks are equal on a run when they agree cell by cell. -/
theorem slice_congr {v w : Vector α n} {o len : ℕ}
    (h : ∀ i (hi : i < n), o ≤ i → i < o + len → v[i] = w[i]) : slice v o len = slice w o len := by
  refine List.ext_getElem (by simp) ?_
  intro i h₁ h₂
  have hi : i < len ∧ o + i < n := by simp at h₁; omega
  rw [getElem_slice _ _ _ _ _ hi.2, getElem_slice _ _ _ _ _ hi.2]
  exact h (o + i) hi.2 (by omega) (by omega)

/-- Reading back the run that was just copied. -/
theorem slice_blit_self (v : Vector α n) (o : ℕ) (src : List α) (h : o + src.length ≤ n) :
    slice (blit v o src) o src.length = src := by
  refine List.ext_getElem (by simp; omega) ?_
  intro i h₁ h₂
  rw [getElem_slice _ _ _ _ _ (by omega), getElem_blit_of_mem _ (by omega) (by omega)]
  congr 1
  omega

/-- A copy leaves the runs it does not touch alone. -/
theorem slice_blit_of_disjoint (v : Vector α n) (o : ℕ) (src : List α) (o' len : ℕ)
    (h : o' + len ≤ o ∨ o + src.length ≤ o') : slice (blit v o src) o' len = slice v o' len := by
  refine slice_congr ?_
  intro i hi h₁ h₂
  rcases h with h | h
  · exact getElem_blit_of_lt hi (by omega)
  · exact getElem_blit_of_ge hi (by omega)

/-! ### Sequences of copies -/

/-- A sequence of copies, each with its offset. -/
def blits (v : Vector α n) (ws : List (ℕ × List α)) : Vector α n :=
  ws.foldl (fun v w => blit v w.1 w.2) v

@[simp] theorem blits_nil (v : Vector α n) : blits v [] = v := rfl

@[simp] theorem blits_cons (v : Vector α n) (w : ℕ × List α) (ws : List (ℕ × List α)) :
    blits v (w :: ws) = blits (blit v w.1 w.2) ws := rfl

/-- The copies follow one another from offset `o` on, without gap or overlap. -/
def Tiles : ℕ → List (ℕ × List α) → Prop
  | _, [] => True
  | o, w :: ws => w.1 = o ∧ Tiles (o + w.2.length) ws

@[simp] theorem tiles_nil (o : ℕ) : Tiles o ([] : List (ℕ × List α)) := trivial

@[simp] theorem tiles_cons (o : ℕ) (w : ℕ × List α) (ws : List (ℕ × List α)) :
    Tiles o (w :: ws) ↔ w.1 = o ∧ Tiles (o + w.2.length) ws := Iff.rfl

/-- The cells a sequence of copies takes when they follow one another. -/
def extent (ws : List (ℕ × List α)) : ℕ := (ws.map fun w => w.2.length).sum

@[simp] theorem extent_nil : extent ([] : List (ℕ × List α)) = 0 := rfl

@[simp] theorem extent_cons (w : ℕ × List α) (ws : List (ℕ × List α)) :
    extent (w :: ws) = w.2.length + extent ws := by
  simp [extent]

@[simp] theorem extent_append (xs ys : List (ℕ × List α)) :
    extent (xs ++ ys) = extent xs + extent ys := by
  simp [extent]

theorem tiles_append {xs ys : List (ℕ × List α)} {o : ℕ} :
    Tiles o (xs ++ ys) ↔ Tiles o xs ∧ Tiles (o + extent xs) ys := by
  induction xs generalizing o with
  | nil => simp
  | cons w xs ih =>
      rw [List.cons_append, tiles_cons, tiles_cons, ih, extent_cons, and_assoc, Nat.add_assoc]

/-- The copies of a tiling end where its extent says. -/
theorem Tiles.end_le {ws : List (ℕ × List α)} {o : ℕ} (h : Tiles o ws) :
    ∀ w ∈ ws, w.1 + w.2.length ≤ o + extent ws := by
  induction ws generalizing o with
  | nil => simp
  | cons u ws ih =>
      obtain ⟨rfl, hws⟩ := h
      intro w hw
      rw [extent_cons]
      rcases List.mem_cons.1 hw with rfl | hw
      · omega
      · have := ih hws w hw
        omega

/-- Sources of one length, laid out one after the other. -/
theorem tiles_map_range {f : ℕ → List α} {k o m : ℕ} (hf : ∀ i < m, (f i).length = k) :
    Tiles o ((List.range m).map fun i => (o + k * i, f i)) ∧
      extent ((List.range m).map fun i => (o + k * i, f i)) = k * m := by
  induction m with
  | zero => simp
  | succ m ih =>
      obtain ⟨hT, hS⟩ := ih fun i hi => hf i (by omega)
      have hlen : (f m).length = k := hf m (by omega)
      constructor
      · rw [List.range_succ, List.map_append, tiles_append, hS]
        exact ⟨hT, rfl, trivial⟩
      · rw [List.range_succ, List.map_append, extent_append, hS]
        simp [hlen, Nat.mul_succ]

/-- Copies that follow one another do not reach back. -/
theorem slice_blits_of_le {ws : List (ℕ × List α)} {o : ℕ} (h : Tiles o ws) (v : Vector α n)
    {o' len : ℕ} (hle : o' + len ≤ o) : slice (blits v ws) o' len = slice v o' len := by
  induction ws generalizing v o with
  | nil => rfl
  | cons w ws ih =>
      obtain ⟨rfl, hws⟩ := h
      rw [blits_cons, ih hws _ (by omega), slice_blit_of_disjoint _ _ _ _ _ (Or.inl hle)]

/-- **Every copy of a tiling can be read back.** -/
theorem slice_blits_of_mem {ws : List (ℕ × List α)} {o : ℕ} (h : Tiles o ws) (v : Vector α n)
    {w : ℕ × List α} (hw : w ∈ ws) (hfit : w.1 + w.2.length ≤ n) :
    slice (blits v ws) w.1 w.2.length = w.2 := by
  induction ws generalizing v o with
  | nil => simp at hw
  | cons u ws ih =>
      obtain ⟨rfl, hws⟩ := h
      rcases List.mem_cons.1 hw with rfl | hw
      · rw [blits_cons, slice_blits_of_le hws _ (Nat.le_refl _), slice_blit_self _ _ _ hfit]
      · exact ih hws _ hw

/-! ### A block as memory -/

/-- Memory that starts with the block `v` and goes on with whatever follows it. -/
def memory (v : Vector α n) (rest : ℕ → α) (i : ℕ) : α := if h : i < n then v[i] else rest i

/-- The `len` cells of a memory from offset `o` on. -/
def window (mem : ℕ → α) (o len : ℕ) : List α := (List.range len).map fun k => mem (o + k)

@[simp] theorem length_window (mem : ℕ → α) (o len : ℕ) : (window mem o len).length = len := by
  simp [window]

@[simp] theorem getElem_window (mem : ℕ → α) (o len i : ℕ) (h : i < (window mem o len).length) :
    (window mem o len)[i] = mem (o + i) := by
  simp [window]

/-- Inside the block, memory is the block. -/
theorem window_memory (v : Vector α n) (rest : ℕ → α) {o len : ℕ} (h : o + len ≤ n) :
    window (memory v rest) o len = slice v o len := by
  refine List.ext_getElem (by simp; omega) ?_
  intro i h₁ h₂
  have hi : i < len := by simpa using h₁
  have hn : o + i < n := by omega
  rw [getElem_window, getElem_slice _ _ _ _ _ hn, memory, dif_pos hn]

end Block
