/-
**Linked lists of nodes** (`linkedlist.h`, `linkedlist.c`).

Elsewhere a linked list is a list and a node is a position in it.  Here it is what the program has:
nodes in memory that point to one another, one of which the variable of the list points to.
`node_delete` looks for the node from the head of the list and takes it out;
`node_iterate_delete` walks the list and calls `node_delete` for the node it has come to, having
read where to go on before the node is freed.

Main definitions:

* `P2P.Node`, `P2P.NodeState` — nodes, and what the functions read and write;
* `P2P.nodeDelete`, `P2P.nodeIterateDelete` — the functions;
* `P2P.Segment`, `P2P.Represents` — the nodes that a pointer leads to, and a list that is well
  formed;
* `P2P.Deletes` — some nodes were taken out of a list.

Main results:

* `P2P.Represents.nodeDelete` — **a node of the list is deleted**;
* `P2P.Represents.nodeDelete_of_not_mem` — any other pointer is not found;
* `P2P.nodeIterateDeleteLoop_deletes` — **the loop deletes what the test accepts**;
* `P2P.list_deletion_exact` — both functions, on any list.
-/

import P2PFileTransfer.State
import Mathlib.Data.List.Nodup
import Mathlib.Logic.Function.Basic

set_option relaxedAutoImplicit false
set_option autoImplicit false

namespace P2P

/-! ### Nodes -/

/-- The structure `Node`: `NULL` is `none`. -/
structure Node (α : Type*) where
  next : Option ℕ
  data : α

/-- What the functions read and write: the nodes that are allocated, the variable `*head`, and
whatever `remove_data` acts on. -/
structure NodeState (α ω : Type*) where
  nodes : ℕ → Option (Node α)
  head : Option ℕ
  world : ω

/-- `EXIT_SUCCESS`. -/
def exitSuccess : ℤ := 0

/-- `EXIT_FAILURE`. -/
def exitFailure : ℤ := 1

section Functions

variable {α ω : Type*}

/-- The node behind a pointer, unless it is `NULL` or was freed. -/
def deref (nodes : ℕ → Option (Node α)) (p : Option ℕ) : Option (Node α) := p.bind nodes

/-- `free`. -/
def freeNode (nodes : ℕ → Option (Node α)) (p : Option ℕ) : ℕ → Option (Node α) :=
  fun q => if p = some q then none else nodes q

/-- The call of `remove_data`, which may be `NULL`. -/
def callRemove (removeData : Option (α → ω → ω)) (data : α) (world : ω) : ω :=
  match removeData with
  | none => world
  | some f => f data world

/-- The end of `node_delete`, for a node that was taken out of the list. -/
def NodeState.remove (s : NodeState α ω) (removeData : Option (α → ω → ω)) (node : Option ℕ)
    (data : α) : NodeState α ω :=
  { s with nodes := freeNode s.nodes node, world := callRemove removeData data s.world }

/-- The loop of `node_delete` that looks for the node before `node`.  There is no result when a
pointer leads nowhere, or when `fuel` passes are not enough. -/
def previousLoop (nodes : ℕ → Option (Node α)) (node : Option ℕ) :
    ℕ → Option ℕ → Option (Option ℕ)
  | 0, _ => none
  | _ + 1, none => some none
  | fuel + 1, some a =>
      match nodes a with
      | none => none
      | some temp =>
          if temp.next = node then some (some a) else previousLoop nodes node fuel temp.next

/-- `node_delete`. -/
def nodeDelete (fuel : ℕ) (removeData : Option (α → ω → ω)) (s : NodeState α ω)
    (node : Option ℕ) : Option (ℤ × NodeState α ω) :=
  if s.head = none then some (exitFailure, s)
  else if s.head = node then
    match deref s.nodes node with
    | none => none
    | some n => some (exitSuccess, { s with head := n.next }.remove removeData node n.data)
  else
    match previousLoop s.nodes node fuel s.head with
    | none => none
    | some none => some (exitFailure, s)
    | some (some a) =>
        match s.nodes a, deref s.nodes node with
        | some temp, some n =>
            let nodes := Function.update s.nodes a (some { temp with next := n.next })
            some (exitSuccess, { s with nodes := nodes }.remove removeData node n.data)
        | _, _ => none

/-- The loop of `node_iterate_delete`, from the pointer `temp` on, with `rmCount` nodes removed.
`size` bounds the search of `node_delete`. -/
def nodeIterateDeleteLoop (size : ℕ) (test : α → Bool) (removeData : Option (α → ω → ω)) :
    ℕ → Option ℕ → NodeState α ω → ℕ → Option (ℕ × NodeState α ω)
  | _, none, s, rmCount => some (rmCount, s)
  | 0, some _, _, _ => none
  | fuel + 1, some a, s, rmCount =>
      match s.nodes a with
      | none => none
      | some temp =>
          if test temp.data then
            match nodeDelete size removeData s (some a) with
            | none => none
            | some (_, s') =>
                nodeIterateDeleteLoop size test removeData fuel temp.next s' (rmCount + 1)
          else nodeIterateDeleteLoop size test removeData fuel temp.next s rmCount

/-- `node_iterate_delete`: without a test it returns `-1`, as a `size_t`. -/
def nodeIterateDelete (fuel : ℕ) (test : Option (α → Bool)) (removeData : Option (α → ω → ω))
    (s : NodeState α ω) : Option (ℕ × NodeState α ω) :=
  match test with
  | none => some (2 ^ 64 - 1, s)
  | some test => nodeIterateDeleteLoop fuel test removeData fuel s.head s 0

end Functions

/-! ### Lists in memory -/

section Segments

variable {α ω : Type*} {nodes nodes' : ℕ → Option (Node α)}

/-- The pointer `p` leads over the nodes of the list, each with its address and its data, to `q`. -/
inductive Segment (nodes : ℕ → Option (Node α)) : Option ℕ → List (ℕ × α) → Option ℕ → Prop
  | nil (p : Option ℕ) : Segment nodes p [] p
  | cons {a : ℕ} {d : α} {next q : Option ℕ} {l : List (ℕ × α)} (hnode : nodes a = some ⟨next, d⟩)
      (hrest : Segment nodes next l q) : Segment nodes (some a) ((a, d) :: l) q

namespace Segment

variable {p q r : Option ℕ} {l l₁ l₂ : List (ℕ × α)} {a : ℕ} {d : α}

theorem cons_inv (h : Segment nodes p ((a, d) :: l) q) :
    p = some a ∧ ∃ next, nodes a = some ⟨next, d⟩ ∧ Segment nodes next l q := by
  cases h with
  | cons hnode hrest => exact ⟨rfl, _, hnode, hrest⟩

theorem append (h₁ : Segment nodes p l₁ q) (h₂ : Segment nodes q l₂ r) :
    Segment nodes p (l₁ ++ l₂) r := by
  induction h₁ with
  | nil => exact h₂
  | cons hnode _ ih => exact .cons hnode (ih h₂)

theorem split (h : Segment nodes p (l₁ ++ l₂) r) :
    ∃ q, Segment nodes p l₁ q ∧ Segment nodes q l₂ r := by
  induction l₁ generalizing p with
  | nil => exact ⟨p, .nil p, h⟩
  | cons n l₁ ih =>
      obtain ⟨rfl, next, hnode, hrest⟩ := cons_inv h
      obtain ⟨q, h₁, h₂⟩ := ih hrest
      exact ⟨q, .cons hnode h₁, h₂⟩

/-- Only the nodes of the list matter. -/
theorem congr (h : Segment nodes p l q) (hsame : ∀ n ∈ l, nodes' n.1 = nodes n.1) :
    Segment nodes' p l q := by
  induction h with
  | nil => exact .nil _
  | cons hnode _ ih =>
      exact .cons ((hsame _ (List.mem_cons_self ..)).trans hnode)
        (ih fun n hn => hsame n (List.mem_cons_of_mem _ hn))

/-- A list to the end starts where its first node is. -/
theorem start_unique (h : Segment nodes p l none) (h' : Segment nodes' q l none) : p = q := by
  cases l with
  | nil =>
      cases h
      cases h'
      rfl
  | cons n l => rw [(cons_inv h).1, (cons_inv h').1]

/-- A pointer that leads over some nodes is that of one of them. -/
theorem exists_start (h : Segment nodes p l q) (hl : l ≠ []) :
    ∃ a ∈ l.map Prod.fst, p = some a := by
  cases h with
  | nil => exact absurd rfl hl
  | cons => exact ⟨_, List.mem_cons_self .., rfl⟩

end Segment

/-- **A well-formed list**: the variable leads over distinct nodes to `NULL`. -/
structure Represents (s : NodeState α ω) (l : List (ℕ × α)) : Prop where
  segment : Segment s.nodes s.head l none
  nodup : (l.map Prod.fst).Nodup

/-- **The nodes `removed` were taken out**, and `kept` is left: `remove_data` was called for the
data of each removed node, one after the other, the nodes were freed, and no node outside the list
was touched. -/
structure Deletes (removeData : Option (α → ω → ω)) (s s' : NodeState α ω)
    (kept removed : List (ℕ × α)) : Prop where
  represents : Represents s' kept
  world : s'.world = removed.foldl (fun world n => callRemove removeData n.2 world) s.world
  freed : ∀ n ∈ removed, s'.nodes n.1 = none
  others : ∀ q, q ∉ (kept ++ removed).map Prod.fst → s'.nodes q = s.nodes q

/-! ### Deleting a node -/

section Delete

variable {removeData : Option (α → ω → ω)} {s s' : NodeState α ω} {l l₁ l₂ : List (ℕ × α)}
  {a : ℕ} {d : α}

/-- Looking for the node before one that is in the list. -/
theorem previousLoop_of_mem {nodes : ℕ → Option (Node α)} {fuel : ℕ} {p : Option ℕ} {b : ℕ} {e : α}
    (h : Segment nodes p (l₁ ++ (a, d) :: (b, e) :: l₂) none)
    (hnot : b ∉ (l₁ ++ [(a, d)]).map Prod.fst) (hfuel : l₁.length < fuel) :
    previousLoop nodes (some b) fuel p = some (some a) := by
  induction l₁ generalizing p fuel with
  | nil =>
      obtain ⟨fuel, rfl⟩ := Nat.exists_eq_succ_of_ne_zero (Nat.ne_of_gt hfuel)
      obtain ⟨rfl, next, hnode, hrest⟩ := Segment.cons_inv h
      obtain ⟨rfl, -⟩ := Segment.cons_inv hrest
      rw [previousLoop, hnode]
      exact if_pos rfl
  | cons n l₁ ih =>
      obtain ⟨fuel, rfl⟩ := Nat.exists_eq_succ_of_ne_zero (Nat.ne_of_gt (Nat.zero_lt_of_lt hfuel))
      obtain ⟨rfl, next, hnode, hrest⟩ := Segment.cons_inv h
      have hrec := ih hrest (fun hmem => hnot (List.mem_cons_of_mem _ hmem))
        (Nat.lt_of_succ_lt_succ hfuel)
      -- the next node is one before `b`
      have hnext : next ≠ some b := by
        rintro rfl
        have hsplit := hrest
        rw [show l₁.append ((a, d) :: (b, e) :: l₂) = (l₁ ++ [(a, d)]) ++ (b, e) :: l₂ from
          List.append_cons ..] at hsplit
        obtain ⟨q, hfirst, -⟩ := hsplit.split
        obtain ⟨c, hc, heq⟩ := hfirst.exists_start (by simp)
        cases heq
        exact hnot (List.mem_cons_of_mem _ hc)
      rw [previousLoop, hnode]
      exact (if_neg hnext).trans hrec

/-- Looking for the node before one that is not in the list, or is the first. -/
theorem previousLoop_of_not_mem {nodes : ℕ → Option (Node α)} {fuel : ℕ} {p : Option ℕ} {b : ℕ}
    (h : Segment nodes p l none) (hnot : b ∉ l.map Prod.fst) (hfuel : l.length < fuel) :
    previousLoop nodes (some b) fuel p = some none := by
  induction l generalizing p fuel with
  | nil =>
      obtain ⟨fuel, rfl⟩ := Nat.exists_eq_succ_of_ne_zero (Nat.ne_of_gt hfuel)
      cases h
      rfl
  | cons n l ih =>
      obtain ⟨fuel, rfl⟩ := Nat.exists_eq_succ_of_ne_zero (Nat.ne_of_gt (Nat.zero_lt_of_lt hfuel))
      obtain ⟨rfl, next, hnode, hrest⟩ := Segment.cons_inv h
      have hrec := ih hrest (fun hmem => hnot (List.mem_cons_of_mem _ hmem))
        (Nat.lt_of_succ_lt_succ hfuel)
      have hnext : next ≠ some b := by
        rintro rfl
        have hne : l ≠ [] := by
          rintro rfl
          cases hrest
        obtain ⟨c, hc, heq⟩ := hrest.exists_start hne
        cases heq
        exact hnot (List.mem_cons_of_mem _ hc)
      rw [previousLoop, hnode]
      exact (if_neg hnext).trans hrec

theorem freeNode_of_ne {nodes : ℕ → Option (Node α)} {q : ℕ} (h : q ≠ a) :
    freeNode nodes (some a) q = nodes q := if_neg fun heq => h (Option.some.inj heq).symm

/-- A node stands once in a list. -/
theorem nodup_middle (h : ((l₁ ++ (a, d) :: l₂).map Prod.fst).Nodup) :
    a ∉ (l₁ ++ l₂).map Prod.fst ∧ ((l₁ ++ l₂).map Prod.fst).Nodup := by
  rw [List.map_append, List.map_cons, List.nodup_middle, List.nodup_cons] at h
  rw [List.map_append]
  exact h

/-- A node that was unlinked and freed. -/
theorem Deletes.of_unlinked (t : NodeState α ω) (hworld : t.world = s.world)
    (hrep : Represents (t.remove removeData (some a) d) l)
    (hothers : ∀ q, q ∉ (l ++ [(a, d)]).map Prod.fst → freeNode t.nodes (some a) q = s.nodes q) :
    Deletes removeData s (t.remove removeData (some a) d) l [(a, d)] := by
  refine ⟨hrep, congrArg (callRemove removeData d) hworld, fun n hn => ?_, hothers⟩
  rw [List.mem_singleton.1 hn]
  exact if_pos rfl

/-- The first node of the list. -/
theorem Represents.deleteFirst (h : Represents s ((a, d) :: l)) (fuel : ℕ)
    (removeData : Option (α → ω → ω)) :
    ∃ s', nodeDelete fuel removeData s (some a) = some (exitSuccess, s') ∧
      Deletes removeData s s' l [(a, d)] := by
  obtain ⟨hnot, hnodup⟩ := List.nodup_cons.1 h.nodup
  obtain ⟨hhead, next, hnode, hrest⟩ := Segment.cons_inv h.segment
  refine ⟨_, ?_, Deletes.of_unlinked { s with head := next } rfl
    ⟨hrest.congr fun n hn => freeNode_of_ne ?_, hnodup⟩ fun q hq => freeNode_of_ne ?_⟩
  · rw [P2P.nodeDelete, hhead, if_neg (Option.some_ne_none a), if_pos rfl]
    simp only [deref, Option.bind_some, hnode]
  · rintro rfl
    exact hnot (List.mem_map.2 ⟨n, hn, rfl⟩)
  · rintro rfl
    exact hq (by simp)

/-- A node with another one before it, which is made to point to the one behind it. -/
theorem Represents.deleteNext {l₀ : List (ℕ × α)} {b : ℕ} {e : α}
    (h : Represents s (l₀ ++ (b, e) :: (a, d) :: l₂)) {fuel : ℕ} (hfuel : l₀.length < fuel)
    (removeData : Option (α → ω → ω)) :
    ∃ s', nodeDelete fuel removeData s (some a) = some (exitSuccess, s') ∧
      Deletes removeData s s' (l₀ ++ (b, e) :: l₂) [(a, d)] := by
  have hlist := h.nodup
  rw [List.append_cons] at hlist
  obtain ⟨hnot, hnodup⟩ := nodup_middle hlist
  rw [← List.append_cons] at hnot hnodup
  obtain ⟨p, hfront, hback⟩ := h.segment.split
  obtain ⟨rfl, next, hprev, hnode'⟩ := Segment.cons_inv hback
  obtain ⟨rfl, last, hnode, hrest⟩ := Segment.cons_inv hnode'
  have hba : b ≠ a := by
    rintro rfl
    exact hnot (by simp)
  have hfrontNot : a ∉ (l₀ ++ [(b, e)]).map Prod.fst := fun hmem => hnot (by
    rw [List.append_cons, List.map_append]
    exact List.mem_append_left _ hmem)
  have hb : b ∉ (l₀ ++ l₂).map Prod.fst := (nodup_middle hnodup).1
  have hother : ∀ n ∈ l₀ ++ l₂,
      freeNode (Function.update s.nodes b (some ⟨last, e⟩)) (some a) n.1 = s.nodes n.1 := by
    intro n hn
    have hnb : n.1 ≠ b := by
      rintro rfl
      exact hb (List.mem_map_of_mem hn)
    have hna : n.1 ≠ a := by
      rintro rfl
      refine hnot (List.mem_map_of_mem ?_)
      exact (List.mem_append.1 hn).elim (List.mem_append_left _)
        fun hn => List.mem_append_right _ (List.mem_cons_of_mem _ hn)
    rw [freeNode_of_ne hna, Function.update_of_ne hnb]
  have hlink : freeNode (Function.update s.nodes b (some ⟨last, e⟩)) (some a) b =
      some ⟨last, e⟩ := by
    rw [freeNode_of_ne hba, Function.update_self]
  refine ⟨_, ?_, Deletes.of_unlinked
    { s with nodes := Function.update s.nodes b (some ⟨last, e⟩) } rfl ⟨?_, hnodup⟩ fun q hq => ?_⟩
  · have hfound := previousLoop_of_mem h.segment hfrontNot hfuel
    obtain ⟨c, hc, hhead⟩ := (hfront.append (.cons hprev (.nil _))).exists_start (by simp)
    have hca : some c ≠ some a := by
      intro heq
      cases heq
      exact hfrontNot hc
    rw [hhead] at hfound
    rw [P2P.nodeDelete, hhead, if_neg (Option.some_ne_none c), if_neg hca, hfound]
    simp only [hprev, deref, Option.bind_some, hnode]
  · exact (hfront.congr fun n hn => hother n (List.mem_append_left _ hn)).append
      (.cons hlink (hrest.congr fun n hn => hother n (List.mem_append_right _ hn)))
  · have hqb : q ≠ b := by
      rintro rfl
      exact hq (by simp)
    have hqa : q ≠ a := by
      rintro rfl
      exact hq (by simp)
    exact (freeNode_of_ne hqa).trans (Function.update_of_ne hqb _ _)

/-- **A node of the list is deleted**, and no other. -/
theorem Represents.nodeDelete (h : Represents s (l₁ ++ (a, d) :: l₂)) {fuel : ℕ}
    (hfuel : (l₁ ++ (a, d) :: l₂).length < fuel) (removeData : Option (α → ω → ω)) :
    ∃ s', nodeDelete fuel removeData s (some a) = some (exitSuccess, s') ∧
      Deletes removeData s s' (l₁ ++ l₂) [(a, d)] := by
  rcases List.eq_nil_or_concat l₁ with rfl | ⟨l₀, ⟨b, e⟩, rfl⟩
  · exact h.deleteFirst fuel removeData
  · rw [List.concat_eq_append, ← List.append_cons] at h hfuel
    rw [List.concat_eq_append, ← List.append_cons]
    refine h.deleteNext ?_ removeData
    simp only [List.length_append, List.length_cons] at hfuel
    omega

/-- **Any other pointer** is not found, and nothing happens. -/
theorem Represents.nodeDelete_of_not_mem (h : Represents s l) (hnot : a ∉ l.map Prod.fst) {fuel : ℕ}
    (hfuel : l.length < fuel) (removeData : Option (α → ω → ω)) :
    P2P.nodeDelete fuel removeData s (some a) = some (exitFailure, s) := by
  have hloop := previousLoop_of_not_mem h.segment hnot hfuel
  rw [P2P.nodeDelete]
  by_cases hnull : s.head = none
  · rw [if_pos hnull]
  · have hhead : s.head ≠ some a := by
      intro heq
      have hne : l ≠ [] := by
        rintro rfl
        have hseg := h.segment
        rw [heq] at hseg
        cases hseg
      obtain ⟨c, hc, hstart⟩ := h.segment.exists_start hne
      rw [heq] at hstart
      cases hstart
      exact hnot hc
    rw [if_neg hnull, if_neg hhead, hloop]

/-! ### Deleting what a test accepts -/

/-- Nothing was taken out. -/
theorem Deletes.refl (h : Represents s l) : Deletes removeData s s l [] :=
  ⟨h, rfl, fun _ hn => absurd hn List.not_mem_nil, fun _ _ => rfl⟩

/-- One node was taken out, and then others. -/
theorem Deletes.cons {s₁ s₂ : NodeState α ω} {n : ℕ × α} {rest kept removed : List (ℕ × α)}
    (h₁ : Deletes removeData s s₁ rest [n]) (h₂ : Deletes removeData s₁ s₂ kept removed)
    (hperm : (kept ++ removed).Perm rest) (hn : n.1 ∉ rest.map Prod.fst) :
    Deletes removeData s s₂ kept (n :: removed) := by
  have hmem : ∀ q, q ∈ (kept ++ removed).map Prod.fst ↔ q ∈ rest.map Prod.fst :=
    fun q => (hperm.map Prod.fst).mem_iff
  refine ⟨h₂.represents, ?_, fun m hm => ?_, fun q hq => ?_⟩
  · rw [h₂.world, h₁.world]
    rfl
  · rcases List.mem_cons.1 hm with rfl | hm
    · rw [h₂.others m.1 (by rw [hmem]; exact hn)]
      exact h₁.freed m (List.mem_singleton.2 rfl)
    · exact h₂.freed m hm
  · have hqn : q ≠ n.1 := by
      rintro rfl
      exact hq (by simp)
    have hqk : q ∉ (kept ++ removed).map Prod.fst := by
      intro hmem
      refine hq ?_
      simp only [List.map_append, List.map_cons, List.mem_append, List.mem_cons] at hmem ⊢
      exact hmem.imp_right Or.inr
    rw [h₂.others q hqk]
    refine h₁.others q ?_
    rw [List.map_append, List.mem_append, List.map_singleton, List.mem_singleton, ← hmem]
    exact not_or.2 ⟨hqk, hqn⟩

/-- **The loop deletes what the test accepts** of the nodes that it has not come to, and keeps the
others and those it has passed. -/
theorem nodeIterateDeleteLoop_deletes {kept rest : List (ℕ × α)} {p : Option ℕ}
    (h : Represents s (kept ++ rest)) (hp : Segment s.nodes p rest none) (test : α → Bool)
    (removeData : Option (α → ω → ω)) {size fuel : ℕ} (hsize : (kept ++ rest).length < size)
    (hfuel : rest.length ≤ fuel) (rmCount : ℕ) :
    ∃ s', nodeIterateDeleteLoop size test removeData fuel p s rmCount =
        some (rmCount + (rest.filter fun n => test n.2).length, s') ∧
      Deletes removeData s s' (kept ++ rest.filter fun n => !test n.2)
        (rest.filter fun n => test n.2) := by
  induction rest generalizing s p kept fuel rmCount with
  | nil =>
      cases hp
      refine ⟨s, ?_, ?_⟩
      · rw [nodeIterateDeleteLoop]
        rfl
      · exact .refl h
  | cons n rest ih =>
      obtain ⟨fuel, rfl⟩ := Nat.exists_eq_succ_of_ne_zero (Nat.ne_of_gt (Nat.zero_lt_of_lt hfuel))
      obtain ⟨rfl, next, hnode, hrest⟩ := Segment.cons_inv hp
      have hfuel' := Nat.le_of_succ_le_succ hfuel
      by_cases htest : test n.2 = true
      · -- the node is deleted, and the next one was read before
        obtain ⟨s₁, hdelete, hdeleted⟩ := h.nodeDelete hsize removeData
        obtain ⟨hnot, -⟩ := nodup_middle h.nodup
        have hnext : Segment s₁.nodes next rest none := by
          obtain ⟨q, -, hq⟩ := hdeleted.represents.segment.split
          rw [hrest.start_unique hq]
          exact hq
        have hsize' : (kept ++ rest).length < size := by
          rw [List.length_append] at hsize ⊢
          rw [List.length_cons] at hsize
          omega
        obtain ⟨s', hloop, hdeletes⟩ :=
          ih hdeleted.represents hnext hsize' hfuel' (rmCount + 1)
        have haccepted : ((n :: rest).filter fun n => test n.2) =
            n :: rest.filter fun n => test n.2 := List.filter_cons_of_pos htest
        have hkept : ((n :: rest).filter fun n => !test n.2) = rest.filter fun n => !test n.2 :=
          List.filter_cons_of_neg (by simp [htest])
        refine ⟨s', ?_, ?_⟩
        · rw [nodeIterateDeleteLoop, hnode]
          dsimp only
          rw [if_pos htest, hdelete]
          dsimp only
          rw [hloop, haccepted, List.length_cons, Nat.add_right_comm, Nat.add_assoc]
        · rw [haccepted, hkept]
          refine hdeleted.cons hdeletes ?_ hnot
          rw [List.append_assoc]
          refine List.Perm.append_left kept ?_
          exact (List.perm_append_comm).trans (List.filter_append_perm _ rest)
      · -- the node is kept
        rw [List.append_cons] at h hsize
        obtain ⟨s', hloop, hdeletes⟩ := ih h hrest hsize hfuel' rmCount
        have haccepted : ((n :: rest).filter fun n => test n.2) =
            rest.filter fun n => test n.2 := List.filter_cons_of_neg htest
        have hkept : ((n :: rest).filter fun n => !test n.2) =
            n :: rest.filter fun n => !test n.2 := List.filter_cons_of_pos (by simpa using htest)
        refine ⟨s', ?_, ?_⟩
        · rw [nodeIterateDeleteLoop, hnode]
          dsimp only
          rw [if_neg htest, hloop, haccepted]
        · rw [haccepted, hkept, List.append_cons]
          exact hdeletes

/-- **Deletion is exact.**  In a well-formed list `node_delete` takes out the node it is given, if
that is in the list, and calls `remove_data` once; for any other pointer it fails and changes
nothing.  `node_iterate_delete` takes out the nodes that the test accepts, in the order of the list,
and returns their number. -/
theorem list_deletion_exact (removeData : Option (α → ω → ω)) (s : NodeState α ω)
    (l : List (ℕ × α)) (h : Represents s l) (fuel : ℕ) (hfuel : l.length < fuel) :
    (∀ l₁ a d l₂, l = l₁ ++ (a, d) :: l₂ → ∃ s',
      P2P.nodeDelete fuel removeData s (some a) = some (exitSuccess, s') ∧
        Deletes removeData s s' (l₁ ++ l₂) [(a, d)]) ∧
    (∀ a, a ∉ l.map Prod.fst →
      P2P.nodeDelete fuel removeData s (some a) = some (exitFailure, s)) ∧
    ∀ test : α → Bool, ∃ s', nodeIterateDelete fuel (some test) removeData s =
        some ((l.filter fun n => test n.2).length, s') ∧
      Deletes removeData s s' (l.filter fun n => !test n.2) (l.filter fun n => test n.2) := by
  refine ⟨?_, fun a hnot => h.nodeDelete_of_not_mem hnot hfuel removeData, fun test => ?_⟩
  · rintro l₁ a d l₂ rfl
    exact h.nodeDelete hfuel removeData
  · have hlist : Represents s ([] ++ l) := h
    obtain ⟨s', hloop, hdeletes⟩ := nodeIterateDeleteLoop_deletes hlist h.segment test
      removeData hfuel (Nat.le_of_lt hfuel) 0
    rw [Nat.zero_add] at hloop
    exact ⟨s', hloop, hdeletes⟩

end Delete

end Segments

/-- Two nodes, the first one at a higher address. -/
def twoNodes : NodeState ℕ (List ℕ) where
  nodes q := if q = 7 then some ⟨some 3, 10⟩ else if q = 3 then some ⟨none, 20⟩ else none
  head := some 7
  world := []

theorem list_deletion_exact_twoNodes : ∃ s',
    nodeIterateDelete 3 (some (· == 10)) (some fun d world => world ++ [d]) twoNodes =
      some (1, s') ∧ s'.world = [10] ∧ Represents s' [(3, 20)] := by
  have hlist : Represents twoNodes [(7, 10), (3, 20)] :=
    ⟨.cons rfl (.cons rfl (.nil none)), by decide⟩
  obtain ⟨s', hdelete, hdeletes⟩ := (list_deletion_exact (some fun d world => world ++ [d])
    twoNodes [(7, 10), (3, 20)] hlist 3 (by decide)).2.2 (· == 10)
  exact ⟨s', hdelete, hdeletes.world, hdeletes.represents⟩

/-! ### Positions -/

/-- **The list of transfers** of a peer that is kept in memory: deleting its node does to it what
`deleteOutgoing` does. -/
theorem State.deleteOutgoing_nodeDelete {ω : Type*} (st : State) {s : NodeState Transfer ω}
    {l : List (ℕ × Transfer)} (h : Represents s l) (hlist : l.map Prod.snd = st.outgoing) {i a : ℕ}
    {t : Transfer} (hi : l[i]? = some (a, t)) (removeData : Option (Transfer → ω → ω)) :
    ∃ s' l', nodeDelete (l.length + 1) removeData s (some a) = some (exitSuccess, s') ∧
      Represents s' l' ∧ l'.map Prod.snd = (st.deleteOutgoing i).outgoing := by
  obtain ⟨hlt, hget⟩ := List.getElem?_eq_some_iff.1 hi
  have hsplit : l = l.take i ++ (a, t) :: l.drop (i + 1) := by
    rw [← hget, List.getElem_cons_drop, List.take_append_drop]
  have hlen : (l.take i ++ (a, t) :: l.drop (i + 1)).length < l.length + 1 := by
    rw [← hsplit]
    exact Nat.lt_succ_self _
  rw [hsplit] at h
  obtain ⟨s', hdelete, hdeletes⟩ := h.nodeDelete hlen removeData
  have hout : st.outgoing[i]? = some t := by
    rw [← hlist, List.getElem?_map, hi]
    rfl
  refine ⟨s', _, hdelete, hdeletes.represents, ?_⟩
  rw [State.deleteOutgoing_eq hout, ← List.eraseIdx_eq_take_drop_succ, ← hlist]
  exact (List.eraseIdx_map ..).symm

end P2P
