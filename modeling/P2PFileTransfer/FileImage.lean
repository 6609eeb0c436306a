/-
**The contents of a file that is written at chosen offsets.**

Seeking past the end of a file and writing there leaves a hole that reads as zeros.  An image is
therefore a size and a byte for every position, zero where nothing was written.  The module has
what is needed to say which runs of bytes a file holds after a sequence of writes.

Main definitions:

* `FileImage.write` — a run of bytes written at an offset;
* `FileImage.Holds` — the file is long enough to have the run at that offset, and has it;
* `FileImage.writes` — a sequence of writes into an empty file.

Main results:

* `FileImage.holds_write_self`, `FileImage.Holds.write_of_disjoint`;
* `FileImage.byte_writes_of_untouched` — a position nothing was written to reads as zero;
* `FileImage.size_writes_le_iff` — the size is the end of the furthest write.
-/

import Mathlib.Data.List.Induction
import Mathlib.Order.Lattice

set_option relaxedAutoImplicit false
set_option autoImplicit false

/-- The contents of a file. -/
structure FileImage where
  /-- The length of the file. -/
  size : ℕ
  /-- The byte at a position; zero in a hole and beyond the end. -/
  byte : ℕ → UInt8

namespace FileImage

/-- The file just after it was opened for writing. -/
def empty : FileImage := ⟨0, fun _ => 0⟩

/-- `src` written at offset `o`.  Writing nothing does not extend the file. -/
def write (f : FileImage) (o : ℕ) (src : List UInt8) : FileImage where
  size := if src.length = 0 then f.size else max f.size (o + src.length)
  byte i := if h : o ≤ i ∧ i - o < src.length then src[i - o] else f.byte i

/-- The file has the run `src` at offset `o`. -/
def Holds (f : FileImage) (o : ℕ) (src : List UInt8) : Prop :=
  o + src.length ≤ f.size ∧ ∀ i (h : i < src.length), f.byte (o + i) = src[i]

/-- A sequence of writes, in order, into an empty file. -/
def writes (ws : List (ℕ × List UInt8)) : FileImage :=
  ws.foldl (fun f w => f.write w.1 w.2) empty

@[simp] theorem writes_nil : writes [] = empty := rfl

@[simp] theorem writes_concat (ws : List (ℕ × List UInt8)) (w : ℕ × List UInt8) :
    writes (ws ++ [w]) = (writes ws).write w.1 w.2 := by
  simp [writes]

theorem byte_write_of_disjoint (f : FileImage) {o : ℕ} {src : List UInt8} {i : ℕ}
    (h : i < o ∨ o + src.length ≤ i) : (f.write o src).byte i = f.byte i := by
  have hn : ¬ (o ≤ i ∧ i - o < src.length) := by omega
  simp [write, hn]

theorem byte_write_of_mem (f : FileImage) {o : ℕ} {src : List UInt8} {i : ℕ}
    (h : i < src.length) : (f.write o src).byte (o + i) = src[i] := by
  simp [write, h]

theorem size_le_write (f : FileImage) (o : ℕ) (src : List UInt8) :
    f.size ≤ (f.write o src).size := by
  simp only [write]
  split <;> omega

/-- What was just written is there. -/
theorem holds_write_self (f : FileImage) (o : ℕ) {src : List UInt8} (h : src.length ≠ 0) :
    (f.write o src).Holds o src :=
  ⟨by simp only [write, h, if_false]; omega, fun _ hi => byte_write_of_mem f hi⟩

/-- A write elsewhere keeps what the file holds. -/
theorem Holds.write_of_disjoint {f : FileImage} {o : ℕ} {src : List UInt8} (h : f.Holds o src)
    {o' : ℕ} {src' : List UInt8} (hd : o + src.length ≤ o' ∨ o' + src'.length ≤ o) :
    (f.write o' src').Holds o src := by
  refine ⟨h.1.trans (size_le_write f o' src'), ?_⟩
  intro i hi
  rw [byte_write_of_disjoint f (by omega)]
  exact h.2 i hi

/-- A position nothing was written to reads as zero. -/
theorem byte_writes_of_untouched {ws : List (ℕ × List UInt8)} {i : ℕ}
    (h : ∀ w ∈ ws, i < w.1 ∨ w.1 + w.2.length ≤ i) : (writes ws).byte i = 0 := by
  induction ws using List.reverseRecOn with
  | nil => rfl
  | append_singleton ws w ih =>
      rw [writes_concat, byte_write_of_disjoint _ (h w (by simp))]
      exact ih fun v hv => h v (by simp [hv])

/-- **The size of a written file** is the end of the furthest write. -/
theorem size_writes_le_iff {ws : List (ℕ × List UInt8)} (hne : ∀ w ∈ ws, w.2.length ≠ 0) {m : ℕ} :
    (writes ws).size ≤ m ↔ ∀ w ∈ ws, w.1 + w.2.length ≤ m := by
  induction ws using List.reverseRecOn with
  | nil => simp [empty]
  | append_singleton ws w ih =>
      have hw : w.2.length ≠ 0 := hne w (by simp)
      have ih' := ih fun v hv => hne v (by simp [hv])
      rw [writes_concat]
      simp only [write, hw, if_false, Nat.max_le, ih']
      constructor
      · rintro ⟨h₁, h₂⟩ v hv
        rcases List.mem_append.1 hv with hv | hv
        · exact h₁ v hv
        · rw [List.mem_singleton.1 hv]; exact h₂
      · intro h
        exact ⟨fun v hv => h v (by simp [hv]), h w (by simp)⟩

/-- After a sequence of writes that do not meet, the file holds each of them. -/
theorem holds_writes {ws : List (ℕ × List UInt8)} (hne : ∀ w ∈ ws, w.2.length ≠ 0)
    (hd : ∀ v ∈ ws, ∀ w ∈ ws, v = w ∨ v.1 + v.2.length ≤ w.1 ∨ w.1 + w.2.length ≤ v.1) :
    ∀ w ∈ ws, (writes ws).Holds w.1 w.2 := by
  induction ws using List.reverseRecOn with
  | nil => simp
  | append_singleton ws v ih =>
      have ih' := ih (fun w hw => hne w (by simp [hw]))
        (fun u hu w hw => hd u (by simp [hu]) w (by simp [hw]))
      intro w hw
      rw [writes_concat]
      by_cases hwv : w = v
      · subst hwv
        exact holds_write_self _ _ (hne w (by simp))
      · have hws : w ∈ ws := by
          rcases List.mem_append.1 hw with h | h
          · exact h
          · exact absurd (List.mem_singleton.1 h) hwv
        rcases hd w (by simp [hws]) v (by simp) with rfl | h | h
        · exact absurd rfl hwv
        · exact (ih' w hws).write_of_disjoint (Or.inl h)
        · exact (ih' w hws).write_of_disjoint (Or.inr h)

end FileImage
