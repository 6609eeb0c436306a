/-
**Lines in a stream that arrives in pieces.**

A separator cuts a stream into lines: a line ends with a separator, and what has come since the
last one is the rest, which may become a line later.  A reader that keeps the rest and puts the next
piece behind it finds the lines of the whole stream, however it was split: that is
`Framing.lines_append`.  The module knows nothing about the reader.

Main definitions:

* `Framing.lines`, `Framing.rest` — the lines of a stream, and what follows the last of them;
* `Framing.Short` — no line, finished or not, reaches a bound.

Main results:

* `Framing.line_induction` — induction on the first line;
* `Framing.lines_append`, `Framing.rest_append` — **a stream in two pieces**;
* `Framing.lines_append_eq_iff` — what adds no line;
* `Framing.Short.of_append` — the lines of a stream that has not ended are no longer.
-/

import Mathlib.Data.List.Basic

set_option relaxedAutoImplicit false
set_option autoImplicit false

namespace Framing

variable {α : Type*} [DecidableEq α] (sep : α)

/-- The finished lines of a stream, without their separators. -/
def lines (as : List α) : List (List α) := (as.splitOn sep).dropLast

/-- What follows the last separator. -/
def rest (as : List α) : List α := (as.splitOn sep).getLast (List.splitOn_ne_nil sep as)

/-- No line reaches the length `n`, and what follows the last one does not either. -/
def Short (n : ℕ) (as : List α) : Prop :=
  (∀ line ∈ lines sep as, line.length < n) ∧ (rest sep as).length < n

variable {sep} {as bs : List α}

/-! ### One line -/

theorem lines_of_not_mem (h : sep ∉ as) : lines sep as = [] := by
  rw [lines, List.splitOn_eq_singleton h, List.dropLast_singleton]

theorem rest_of_not_mem (h : sep ∉ as) : rest sep as = as := by
  simp only [rest, List.splitOn_eq_singleton h, List.getLast_singleton]

/-- The first line. -/
theorem lines_cons_line {line : List α} (h : sep ∉ line) (bs : List α) :
    lines sep (line ++ sep :: bs) = line :: lines sep bs := by
  rw [lines, List.splitOn_append_cons_self_of_not_mem h,
    List.dropLast_cons_of_ne_nil (List.splitOn_ne_nil sep bs), lines]

theorem rest_cons_line {line : List α} (h : sep ∉ line) (bs : List α) :
    rest sep (line ++ sep :: bs) = rest sep bs := by
  simp only [rest, List.splitOn_append_cons_self_of_not_mem h,
    List.getLast_cons (List.splitOn_ne_nil sep bs)]

/-- **Induction on the first line**: a stream has no separator, or it starts with a line. -/
theorem line_induction {P : List α → Prop} (hrest : ∀ as, sep ∉ as → P as)
    (hline : ∀ line as, sep ∉ line → P as → P (line ++ sep :: as)) (as : List α) : P as := by
  induction hn : as.length using Nat.strongRecOn generalizing as with
  | _ n ih =>
      by_cases hsep : sep ∈ as
      · obtain ⟨line, bs, rfl, hne⟩ := List.eq_append_cons_of_mem hsep
        refine hline line bs hne (ih bs.length ?_ bs rfl)
        rw [List.length_append, List.length_cons] at hn
        omega
      · exact hrest as hsep

/-! ### Two pieces -/

/-- **A stream in two pieces**: the lines of the first, and those of what it leaves followed by the
second. -/
theorem lines_append (as bs : List α) :
    lines sep (as ++ bs) = lines sep as ++ lines sep (rest sep as ++ bs) := by
  induction as using line_induction with
  | hrest as h => rw [lines_of_not_mem h, rest_of_not_mem h, List.nil_append]
  | hline line as h ih =>
      rw [lines_cons_line h, rest_cons_line h, List.append_assoc, List.cons_append,
        lines_cons_line h, ih, List.cons_append]

theorem rest_append (as bs : List α) :
    rest sep (as ++ bs) = rest sep (rest sep as ++ bs) := by
  induction as using line_induction with
  | hrest as h => rw [rest_of_not_mem h]
  | hline line as h ih =>
      rw [rest_cons_line h, List.append_assoc, List.cons_append, rest_cons_line h, ih]

theorem not_mem_rest (as : List α) : sep ∉ rest sep as := by
  induction as using line_induction with
  | hrest as h => rwa [rest_of_not_mem h]
  | hline line as h ih => rwa [rest_cons_line h]

/-- What is left is the end of the stream. -/
theorem rest_suffix (as : List α) : rest sep as <:+ as := by
  induction as using line_induction with
  | hrest as h => exact ⟨[], by rw [rest_of_not_mem h, List.nil_append]⟩
  | hline line as h ih =>
      rw [rest_cons_line h]
      exact ih.trans ⟨line ++ [sep], by rw [List.append_assoc, List.singleton_append]⟩

theorem lines_eq_nil_iff : lines sep as = [] ↔ sep ∉ as := by
  refine ⟨fun hnil hsep => ?_, lines_of_not_mem⟩
  obtain ⟨line, bs, rfl, hne⟩ := List.eq_append_cons_of_mem hsep
  rw [lines_cons_line hne] at hnil
  exact List.cons_ne_nil _ _ hnil

/-- **What adds no line** has no separator. -/
theorem lines_append_eq_iff : lines sep (as ++ bs) = lines sep as ↔ sep ∉ bs := by
  rw [lines_append, List.append_right_eq_self, lines_eq_nil_iff, List.mem_append, not_or]
  exact and_iff_right (not_mem_rest as)

/-- What has no separator is part of the rest. -/
theorem rest_append_of_not_mem (h : sep ∉ bs) : rest sep (as ++ bs) = rest sep as ++ bs := by
  rw [rest_append, rest_of_not_mem]
  rw [List.mem_append, not_or]
  exact ⟨not_mem_rest as, h⟩

/-! ### Lengths -/

/-- **Of a stream that goes on**: its lines are no longer than those of the whole, and what follows
the last one is the beginning of a line or of what the whole leaves. -/
theorem Short.of_append {n : ℕ} (h : Short sep n (as ++ bs)) : Short sep n as := by
  obtain ⟨hlines, hrest⟩ := h
  rw [lines_append] at hlines
  refine ⟨fun line hline => hlines line (List.mem_append_left _ hline), ?_⟩
  by_cases hsep : sep ∈ bs
  · obtain ⟨tail, bs, rfl, hne⟩ := List.eq_append_cons_of_mem hsep
    have hend : sep ∉ rest sep as ++ tail := by
      rw [List.mem_append, not_or]
      exact ⟨not_mem_rest as, hne⟩
    rw [← List.append_assoc, lines_cons_line hend] at hlines
    have hlt := hlines _ (List.mem_append_right _ (List.mem_cons_self ..))
    rw [List.length_append] at hlt
    omega
  · rw [rest_append_of_not_mem hsep, List.length_append] at hrest
    omega

end Framing
