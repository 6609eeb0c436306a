/-
**The first place of a word in a text.**

A search returns the first position that a word stands at.  What is done to a text behind that
place does not change the result, and neither does what is done before it, as long as the word is
not put there; the rules of this module say so for a text that is taken apart and put together
again.

Main definitions:

* `Search.Occurs` — the word stands at a position;
* `Search.find` — the first position it stands at;
* `Search.rests` — what follows each of its places.

Main results:

* `Search.find_eq_some_iff`, `Search.find_eq_none_iff` — what a search finds;
* `Search.find_append` — a text that goes on;
* `Search.find_skip`, `Search.find_separator` — **a text with something in front of it**;
* `Search.rests_of_some`, `Search.rests_append` — one place after the other;
* `Search.Skips.erase` — the search goes on behind a place that was overwritten.
-/

import Mathlib.Data.List.Infix

set_option relaxedAutoImplicit false
set_option autoImplicit false

namespace Search

variable {α : Type*} {w t u p : List α} {i j : ℕ}

/-- The word stands in the text from position `i` on. -/
def Occurs (word text : List α) (i : ℕ) : Prop := word <+: text.drop i

instance [DecidableEq α] (word text : List α) (i : ℕ) : Decidable (Occurs word text i) :=
  inferInstanceAs (Decidable (word <+: text.drop i))

/-- The first position that the word stands at. -/
def find [DecidableEq α] (word text : List α) : Option ℕ :=
  (List.range (text.length + 1)).find? fun i => decide (Occurs word text i)

/-! ### Places -/

theorem Occurs.getElem? (h : Occurs w t i) {k : ℕ} (hk : k < w.length) : t[i + k]? = w[k]? := by
  obtain ⟨rest, hrest⟩ := h
  rw [← List.getElem?_drop, ← hrest, List.getElem?_append_left hk]

theorem Occurs.le (h : Occurs w t i) (hw : w ≠ []) : i + w.length ≤ t.length := by
  have hlen := h.length_le
  rw [List.length_drop] at hlen
  have hpos := List.length_pos_of_ne_nil hw
  omega

/-- Every character of the place is one of the word. -/
theorem Occurs.mem (h : Occurs w t i) {k : ℕ} (hik : i ≤ k) (hk : k < i + w.length) {a : α}
    (ha : t[k]? = some a) : a ∈ w := by
  have hget := h.getElem? (k := k - i) (by omega)
  rw [Nat.add_sub_cancel' hik, ha] at hget
  exact List.mem_of_getElem? hget.symm

/-- The text before, at and behind the place. -/
theorem Occurs.split (h : Occurs w t i) (hw : w ≠ []) :
    ∃ pre post, t = pre ++ w ++ post ∧ pre.length = i := by
  have hle := h.le hw
  obtain ⟨post, hpost⟩ := h
  refine ⟨t.take i, post, ?_, List.length_take_of_le (by omega)⟩
  rw [List.append_assoc, hpost, List.take_append_drop]

theorem occurs_length_append (p w post : List α) : Occurs w (p ++ w ++ post) p.length := by
  rw [Occurs, List.append_assoc, List.drop_left]
  exact List.prefix_append w post

theorem Occurs.append (h : Occurs w t i) (hw : w ≠ []) (u : List α) : Occurs w (t ++ u) i := by
  have hle := h.le hw
  rw [Occurs, List.drop_append_of_le_length (by omega)]
  exact h.trans (List.prefix_append _ u)

/-- A place that ends within the first part. -/
theorem Occurs.of_append (h : Occurs w (t ++ u) i) (hle : i + w.length ≤ t.length) :
    Occurs w t i := by
  rw [Occurs, List.drop_append_of_le_length (by omega)] at h
  exact List.prefix_of_prefix_length_le h (List.prefix_append _ _) (by rw [List.length_drop]; omega)

theorem occurs_append_right : Occurs w (p ++ t) (p.length + i) ↔ Occurs w t i := by
  rw [Occurs, List.drop_append]
  simp only [Nat.add_sub_cancel_left, List.drop_of_length_le (Nat.le_add_right p.length i),
    List.nil_append]
  rfl

/-- A word does not begin where its first character is not. -/
theorem not_occurs_of_not_mem {a : α} {w : List α} (ha : a ∉ p) :
    ∀ j < p.length, ¬ Occurs (a :: w) (p ++ t) j := by
  intro j hj hocc
  refine ha ?_
  have hget := hocc.getElem? (k := 0) (Nat.succ_pos _)
  rw [Nat.add_zero, List.getElem?_append_left hj] at hget
  exact List.mem_of_getElem? hget

variable [DecidableEq α]

/-! ### Searching -/

/-- **What a search finds.** -/
theorem find_eq_some_iff : find w t = some i ↔ Occurs w t i ∧ ∀ j < i, ¬ Occurs w t j := by
  rw [find, List.find?_range_eq_some]
  simp only [decide_eq_true_eq, List.mem_range, Bool.not_eq_true', decide_eq_false_iff_not]
  refine ⟨fun ⟨hi, _, hfirst⟩ => ⟨hi, hfirst⟩, fun ⟨hi, hfirst⟩ => ⟨hi, ?_, hfirst⟩⟩
  by_contra hlt
  -- only the empty word stands behind the end, and it stands everywhere
  have hnil : w = [] := by
    rw [Occurs, List.drop_of_length_le (by omega)] at hi
    exact List.prefix_nil.1 hi
  exact hfirst 0 (by omega) (by rw [hnil]; exact List.nil_prefix)

theorem find_eq_none_iff (hw : w ≠ []) : find w t = none ↔ ∀ i, ¬ Occurs w t i := by
  rw [find, List.find?_eq_none]
  simp only [List.mem_range, decide_eq_true_eq]
  refine ⟨fun h i hi => h i ?_ hi, fun h i _ => h i⟩
  have hle := hi.le hw
  omega

/-- What was found is the first place. -/
theorem find_split (h : find w t = some i) (hw : w ≠ []) :
    ∃ pre post, t = pre ++ w ++ post ∧ pre.length = i ∧ find w pre = none := by
  obtain ⟨hi, hfirst⟩ := find_eq_some_iff.1 h
  obtain ⟨pre, post, rfl, rfl⟩ := hi.split hw
  refine ⟨pre, post, rfl, rfl, (find_eq_none_iff hw).2 fun j hj => ?_⟩
  have hle := hj.le hw
  have hpos := List.length_pos_of_ne_nil hw
  refine hfirst j (by omega) ?_
  rw [List.append_assoc]
  exact hj.append hw _

/-- **A text that goes on**: the first place is the same. -/
theorem find_append (h : find w t = some i) (hw : w ≠ []) (u : List α) :
    find w (t ++ u) = some i := by
  obtain ⟨hi, hfirst⟩ := find_eq_some_iff.1 h
  have hle := hi.le hw
  exact find_eq_some_iff.2 ⟨hi.append hw u, fun j hj hocc =>
    hfirst j hj (hocc.of_append (by omega))⟩

/-- **A text with something in front of it**, where the word does not begin. -/
theorem find_skip (hw : w ≠ []) (h : ∀ j < p.length, ¬ Occurs w (p ++ t) j) :
    find w (p ++ t) = (find w t).map (p.length + ·) := by
  cases ht : find w t with
  | none =>
      rw [Option.map_none, find_eq_none_iff hw]
      intro j hj
      by_cases hlt : j < p.length
      · exact h j hlt hj
      · rw [← Nat.add_sub_cancel' (Nat.le_of_not_lt hlt), occurs_append_right] at hj
        exact (find_eq_none_iff hw).1 ht _ hj
  | some i =>
      obtain ⟨hi, hfirst⟩ := find_eq_some_iff.1 ht
      rw [Option.map_some]
      refine find_eq_some_iff.2 ⟨occurs_append_right.2 hi, fun j hj hocc => ?_⟩
      by_cases hlt : j < p.length
      · exact h j hlt hocc
      · rw [← Nat.add_sub_cancel' (Nat.le_of_not_lt hlt), occurs_append_right] at hocc
        exact hfirst _ (by omega) hocc

/-- What is in front has no first character of the word. -/
theorem find_skip_head {a : α} {w : List α} (ha : a ∉ p) :
    find (a :: w) (p ++ t) = (find (a :: w) t).map (p.length + ·) :=
  find_skip (List.cons_ne_nil a w) (not_occurs_of_not_mem ha)

/-- What is in front has no word and ends with a character that is in no word. -/
theorem find_separator {a : α} (hw : w ≠ []) (hp : find w p = none) (ha : a ∉ w) :
    find w (p ++ a :: t) = (find w t).map (p.length + 1 + ·) := by
  have hsplit : p ++ a :: t = (p ++ [a]) ++ t := List.append_cons ..
  have hlen : (p ++ [a]).length = p.length + 1 := by rw [List.length_append]; rfl
  rw [hsplit, ← hlen]
  refine find_skip hw fun j hj hocc => ?_
  by_cases hle : j + w.length ≤ p.length
  · rw [List.append_assoc] at hocc
    exact (find_eq_none_iff hw).1 hp j (hocc.of_append hle)
  · refine ha (hocc.mem (k := p.length) (by omega) (by omega) ?_)
    rw [List.append_assoc, List.getElem?_append_right (Nat.le_refl _), Nat.sub_self]
    rfl

theorem find_self (w t : List α) : find w (w ++ t) = some 0 :=
  find_eq_some_iff.2 ⟨List.prefix_append w t, fun _ hj => absurd hj (Nat.not_lt_zero _)⟩

/-! ### Every place -/

/-- What follows each place of the word, in the order of the places. -/
def rests (word : List α) : List α → List (List α)
  | [] => []
  | a :: as =>
      if word <+: a :: as then (a :: as).drop word.length :: rests word as else rests word as

/-- What is in front has no place. -/
theorem rests_skip (h : ∀ j < p.length, ¬ Occurs w (p ++ t) j) : rests w (p ++ t) = rests w t := by
  induction p with
  | nil => rfl
  | cons a p ih =>
      have hfirst : ¬ w <+: a :: (p ++ t) := h 0 (Nat.succ_pos _)
      rw [List.cons_append, rests, if_neg hfirst]
      exact ih fun j hj => h (j + 1) (Nat.succ_lt_succ hj)

theorem rests_of_none (hw : w ≠ []) (h : find w t = none) : rests w t = [] := by
  rw [← List.append_nil t]
  refine rests_skip fun j _ => ?_
  rw [List.append_nil]
  exact (find_eq_none_iff hw).1 h j

/-- **The first place and the others**, for a word that its first character begins and no other. -/
theorem rests_of_some {a : α} {w : List α} (ha : a ∉ w) (h : find (a :: w) t = some i) :
    rests (a :: w) t =
      t.drop (i + (a :: w).length) :: rests (a :: w) (t.drop (i + (a :: w).length)) := by
  have hw := List.cons_ne_nil a w
  obtain ⟨-, hfirst⟩ := find_eq_some_iff.1 h
  obtain ⟨pre, post, rfl, rfl, -⟩ := find_split h hw
  rw [List.append_assoc] at hfirst ⊢
  have hhere : a :: w <+: a :: (w ++ post) := List.prefix_append (a :: w) post
  have hdrop : (a :: (w ++ post)).drop (a :: w).length = post := List.drop_left
  rw [rests_skip hfirst, List.drop_length_add_append, List.drop_left, List.cons_append, rests,
    if_pos hhere, hdrop, rests_skip (not_occurs_of_not_mem ha)]

theorem rests_of_lt (h : t.length < w.length) : rests w t = [] := by
  induction t with
  | nil => rfl
  | cons a t ih =>
      rw [rests, if_neg fun hprefix => Nat.not_le.2 h hprefix.length_le]
      exact ih (Nat.lt_of_succ_lt h)

/-- **The places of a text are among those of the text that goes on**, and they come first. -/
theorem rests_append (w t u : List α) :
    ∃ extra, rests w (t ++ u) = (rests w t).map (· ++ u) ++ extra := by
  induction t with
  | nil => exact ⟨rests w u, rfl⟩
  | cons a t ih =>
      obtain ⟨extra, hextra⟩ := ih
      by_cases hprefix : w <+: a :: t
      · have hlong : w <+: a :: (t ++ u) := hprefix.trans (List.prefix_append (a :: t) u)
        have hdrop : (a :: (t ++ u)).drop w.length = (a :: t).drop w.length ++ u :=
          List.drop_append_of_le_length hprefix.length_le
        refine ⟨extra, ?_⟩
        rw [List.cons_append, rests, rests, if_pos hprefix, if_pos hlong, hextra, hdrop]
        rfl
      · rw [List.cons_append, rests, rests, if_neg hprefix]
        split
        · -- the place ends in the second part, so that none behind it ends in the first
          rename_i hlong
          have hshort : t.length < w.length := by
            by_contra hge
            exact hprefix (List.prefix_of_prefix_length_le hlong (List.prefix_append (a :: t) u)
              (Nat.le_succ_of_le (Nat.le_of_not_lt hge)))
          rw [rests_of_lt hshort]
          exact ⟨_, rfl⟩
        · exact ⟨extra, hextra⟩

/-! ### Places that were erased -/

/-- The first place of a text does not change when this is put in front of it. -/
def Skips (w done : List α) : Prop := ∀ t, find w (done ++ t) = (find w t).map (done.length + ·)

theorem skips_nil (w : List α) : Skips w [] := fun t => by
  simp only [List.nil_append, List.length_nil, Nat.zero_add, Option.map_id']

/-- **A place whose first character was overwritten.** -/
theorem Skips.erase {a x : α} {w done : List α} (h : Skips (a :: w) done)
    (hp : find (a :: w) p = none) (hx : x ∉ a :: w) (ha : a ∉ w) :
    Skips (a :: w) (done ++ (p ++ x :: w)) := fun t => by
  have hlen : ∀ n, done.length + (p.length + 1 + (w.length + n)) =
      (done ++ (p ++ x :: w)).length + n := fun n => by
    simp only [List.length_append, List.length_cons]
    omega
  rw [List.append_assoc, h, List.append_assoc, List.cons_append,
    find_separator (List.cons_ne_nil a w) hp hx, find_skip_head ha, Option.map_map, Option.map_map]
  exact congrArg (Option.map · _) (funext hlen)

end Search
