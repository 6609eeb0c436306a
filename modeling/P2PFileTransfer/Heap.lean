/-
**A heap of cells shared by address.**

Programs that pass structures around by pointer are modelled over a heap: the structures live in
numbered cells, lists and records hold the numbers, and writing a cell is seen by everyone who
holds its number.  Cells are allocated one after the other and never moved.

Main definitions: `Heap`, `Heap.alloc`, `Heap.modify`, `Heap.ofList`.
-/

import Mathlib.Data.List.Basic

set_option relaxedAutoImplicit false
set_option autoImplicit false

/-- Cells `0, …, next - 1` are allocated; `cell` is their contents. -/
structure Heap (α : Type*) where
  /-- The first address that is not allocated. -/
  next : ℕ
  /-- The contents of a cell. -/
  cell : ℕ → α

namespace Heap

variable {α : Type*}

/-- Allocate a cell for `a`: its address is the old `next`. -/
def alloc (h : Heap α) (a : α) : Heap α :=
  ⟨h.next + 1, fun q => if q = h.next then a else h.cell q⟩

/-- Write the cell at `p`. -/
def modify (h : Heap α) (p : ℕ) (f : α → α) : Heap α :=
  ⟨h.next, fun q => if q = p then f (h.cell p) else h.cell q⟩

/-- The heap whose cells are those of a list; `a` is what unallocated addresses read. -/
def ofList (a : α) (l : List α) : Heap α := ⟨l.length, fun q => l.getD q a⟩

@[simp] theorem next_alloc (h : Heap α) (a : α) : (h.alloc a).next = h.next + 1 := rfl

@[simp] theorem next_modify (h : Heap α) (p : ℕ) (f : α → α) : (h.modify p f).next = h.next := rfl

@[simp] theorem next_ofList (a : α) (l : List α) : (ofList a l).next = l.length := rfl

@[simp] theorem cell_alloc_self (h : Heap α) (a : α) : (h.alloc a).cell h.next = a := by
  simp [alloc]

theorem cell_alloc_of_ne (h : Heap α) (a : α) {q : ℕ} (hq : q ≠ h.next) :
    (h.alloc a).cell q = h.cell q := by
  simp [alloc, hq]

/-- Allocation does not touch the cells that exist. -/
theorem cell_alloc_of_lt (h : Heap α) (a : α) {q : ℕ} (hq : q < h.next) :
    (h.alloc a).cell q = h.cell q :=
  cell_alloc_of_ne h a (by omega)

theorem cell_modify (h : Heap α) (p : ℕ) (f : α → α) (q : ℕ) :
    (h.modify p f).cell q = if q = p then f (h.cell q) else h.cell q := by
  simp only [modify]
  split <;> simp_all

@[simp] theorem cell_modify_self (h : Heap α) (p : ℕ) (f : α → α) :
    (h.modify p f).cell p = f (h.cell p) := by
  simp [modify]

theorem cell_modify_of_ne (h : Heap α) {p q : ℕ} (f : α → α) (hq : q ≠ p) :
    (h.modify p f).cell q = h.cell q := by
  simp [modify, hq]

/-- A projection that the write leaves alone reads the same in every cell. -/
theorem proj_modify {β : Type*} (h : Heap α) (p : ℕ) (f : α → α) (π : α → β)
    (hπ : ∀ a, π (f a) = π a) (q : ℕ) : π ((h.modify p f).cell q) = π (h.cell q) := by
  rw [cell_modify]
  split
  · exact hπ _
  · rfl

end Heap
