/-
**What the timeout handlers find** (`handle_client_timeout`, `handle_server_timeout`).

Each handler goes through its list once.  A transfer that was quiet for long enough has a timeout
counted, and the one whose count reaches the limit is dead: it is removed.  What happens to a node
depends on the state that the nodes before it left, since the client may stamp another transfer
than the one it looks at; so the verdicts are collected along the loop.

Main definitions:

* `P2P.Verdict` — what becomes of a node;
* `P2P.clientTimeoutPass`, `P2P.serverTimeoutPass` — one pass of a loop, with its verdict;
* `P2P.clientFindings`, `P2P.serverFindings` — **the transfers that the loops look at, with the
  verdicts**;
* `P2P.Settles` — a list of nodes before and after a handler, with what the handler found.

Main results:

* `P2P.clientTimeoutLoop_succ`, `P2P.serverTimeoutLoop_succ` — the loops are made of these passes;
* `P2P.clientTimeoutPass_cases` — **what a pass does** on the client;
* `P2P.settles_clientTimeoutLoop`, `P2P.settles_serverTimeoutLoop` — **the loops go through their
  nodes**: exactly the dead ones are removed, and a timeout of the others is counted.
-/

import P2PFileTransfer.Moves

set_option relaxedAutoImplicit false
set_option autoImplicit false

namespace P2P

/-- What becomes of a node in a timeout handler. -/
inductive Verdict where
  /-- There is no timeout. -/
  | quiet
  /-- A timeout is counted. -/
  | counted
  /-- The timeout that is counted is the last one, and the node is removed. -/
  | dead
  deriving DecidableEq

/-- The position that the loop looks at next: a node that is removed makes room for the next one. -/
def Verdict.next (i : ℕ) : Verdict → ℕ
  | .dead => i
  | _ => i + 1

/-- What becomes of the transfer, with the clock reading `now`. -/
def Transfer.verdict (t : Transfer) (now : ℕ) : Verdict :=
  if transferHasTimeout now t then
    if maxToCounts ≤ u32 (1 + t.cctrl.timeoutCount) then .dead else .counted
  else .quiet

/-- One more timeout, in 32 bits. -/
theorem u32_succ_count {n : ℕ} (h : n < maxToCounts) : u32 (1 + n) = n + 1 := by
  rw [maxToCounts] at h
  rw [u32]
  omega

/-- **When a transfer is dead**, and when a timeout is counted. -/
theorem verdict_spec {t : Transfer} (h : t.cctrl.timeoutCount < maxToCounts) (now : ℕ) :
    (t.verdict now = .counted → t.cctrl.timeoutCount + 1 < maxToCounts) ∧
      (t.verdict now = .dead → maxToCounts ≤ t.cctrl.timeoutCount + 1) := by
  rw [Transfer.verdict, u32_succ_count h]
  split_ifs with _ hcount
  · exact ⟨nofun, fun _ => hcount⟩
  · exact ⟨fun _ => lt_of_not_ge hcount, nofun⟩
  · exact ⟨nofun, nofun⟩

/-! ### Lists beside the nodes -/

section Settle

variable {α β : Type*}

/-- What becomes of a list with an entry beside every node, when the verdicts are as given: the
entry of a node whose timeout is counted is `bump`ed, the one of a dead node goes. -/
def settle (bump : α → α) : List α → List Verdict → List α
  | a :: l, .quiet :: vs => a :: settle bump l vs
  | a :: l, .counted :: vs => bump a :: settle bump l vs
  | _ :: l, .dead :: vs => settle bump l vs
  | l, [] => l
  | [], _ => []

@[simp] theorem settle_nil (bump : α → α) (l : List α) : settle bump l [] = l := by
  cases l <;> rfl

/-- One pass over the node at position `i`. -/
def Verdict.apply (bump : α → α) (i : ℕ) (l : List α) : Verdict → List α
  | .quiet => l
  | .counted => l.modify i bump
  | .dead => l.eraseIdx i

/-- The list, when the loop has come to position `i` and the verdicts from there on are `vs`. -/
def settleFrom (bump : α → α) (i : ℕ) (l : List α) (vs : List Verdict) : List α :=
  l.take i ++ settle bump (l.drop i) vs

theorem settleFrom_nil (bump : α → α) (i : ℕ) (l : List α) : settleFrom bump i l [] = l := by
  rw [settleFrom, settle_nil, List.take_append_drop]

/-- **The verdicts one by one.** -/
theorem settleFrom_cons (bump : α → α) {i : ℕ} {l : List α} (hi : i < l.length) (v : Verdict)
    (vs : List Verdict) : settleFrom bump i l (v :: vs) =
      settleFrom bump (v.next i) (v.apply bump i l) vs := by
  obtain ⟨xs, a, ys, rfl, rfl⟩ : ∃ xs a ys, l = xs ++ a :: ys ∧ xs.length = i :=
    ⟨l.take i, l[i], l.drop (i + 1), by rw [List.getElem_cons_drop, List.take_append_drop],
      List.length_take_of_le (Nat.le_of_lt hi)⟩
  have hmodify : (xs ++ a :: ys).modify xs.length bump = xs ++ bump a :: ys := by
    clear hi
    induction xs with
    | nil => rfl
    | cons x xs ih => exact congrArg (x :: ·) ih
  have herase : (xs ++ a :: ys).eraseIdx xs.length = xs ++ ys := by
    rw [List.eraseIdx_append_of_length_le (Nat.le_refl _), Nat.sub_self, List.eraseIdx_cons_zero]
  have htake : ∀ b, (xs ++ b :: ys).take (xs.length + 1) = xs ++ [b] := by
    intro b
    rw [List.take_append, List.take_of_length_le (Nat.le_succ _), Nat.add_sub_cancel_left]
    rfl
  cases v with
  | quiet => simp [settleFrom, Verdict.next, Verdict.apply, settle, htake]
  | counted => simp [settleFrom, Verdict.next, Verdict.apply, settle, hmodify, htake]
  | dead => simp [settleFrom, Verdict.next, Verdict.apply, settle, herase]

end Settle

/-! ### Nodes -/

/-- The ends of a transfer, and the timeouts that were counted. -/
def Transfer.node (t : Transfer) : (ℕ × ℕ) × ℕ := (t.ends, t.cctrl.timeoutCount)

/-- One more timeout is counted. -/
def bumpNode (n : (ℕ × ℕ) × ℕ) : (ℕ × ℕ) × ℕ := (n.1, n.2 + 1)

/-- No count has reached the limit. -/
def Alive (l : List ((ℕ × ℕ) × ℕ)) : Prop := ∀ n ∈ l, n.2 < maxToCounts

/-- **A timeout handler goes through a list of nodes** from position `i` on: a timeout that is
counted is not the last one, and one that is the last one ends the transfer. -/
inductive Settles : ℕ → List ((ℕ × ℕ) × ℕ) → List (Transfer × Verdict) → List ((ℕ × ℕ) × ℕ) → Prop
  | done (i : ℕ) (l : List ((ℕ × ℕ) × ℕ)) : Settles i l [] l
  | pass {i : ℕ} {l l' : List ((ℕ × ℕ) × ℕ)} {t : Transfer} {v : Verdict}
      {found : List (Transfer × Verdict)} (hi : l[i]? = some t.node)
      (hcounted : v = .counted → t.cctrl.timeoutCount + 1 < maxToCounts)
      (hdead : v = .dead → maxToCounts ≤ t.cctrl.timeoutCount + 1)
      (h : Settles (v.next i) (v.apply bumpNode i l) found l') : Settles i l ((t, v) :: found) l'

/-- A pass leaves no count at the limit. -/
theorem Alive.apply {l : List ((ℕ × ℕ) × ℕ)} (h : Alive l) {i : ℕ} {t : Transfer} {v : Verdict}
    (hi : l[i]? = some t.node) (hcounted : v = .counted → t.cctrl.timeoutCount + 1 < maxToCounts) :
    Alive (v.apply bumpNode i l) := by
  intro n hn
  cases v with
  | quiet => exact h n hn
  | dead => exact h n (List.mem_of_mem_eraseIdx hn)
  | counted =>
      obtain ⟨j, hj⟩ := List.mem_iff_getElem?.1 hn
      by_cases hij : i = j
      · rw [Verdict.apply, ← hij, List.getElem?_modify_eq, hi] at hj
        rw [← Option.some.inj hj]
        exact hcounted rfl
      · rw [Verdict.apply, List.getElem?_modify_ne _ _ hij] at hj
        exact h n (List.mem_of_getElem? hj)

namespace Settles

variable {i : ℕ} {l l' : List ((ℕ × ℕ) × ℕ)} {found : List (Transfer × Verdict)}

/-- **What is left**: exactly the dead nodes are gone, and the counts of the others are right. -/
theorem eq (h : Settles i l found l') :
    l' = settleFrom bumpNode i l (found.map Prod.snd) := by
  induction h with
  | done i l => exact (settleFrom_nil bumpNode i l).symm
  | pass hi hcounted hdead h ih =>
      rw [ih, List.map_cons, settleFrom_cons bumpNode (List.getElem?_eq_some_iff.1 hi).1]

theorem alive (h : Settles i l found l') (hl : Alive l) : Alive l' := by
  induction h with
  | done i l => exact hl
  | pass hi hcounted hdead h ih => exact ih (hl.apply hi hcounted)

/-- **What was found** is what was in the list, and is dead only if the count reached the limit. -/
theorem found_eq (h : Settles i l found l') {j : ℕ} {t : Transfer} {v : Verdict}
    (hj : found[j]? = some (t, v)) : ∃ n, l[i + j]? = some n ∧ n.1 = t.ends ∧
      (v = .dead → maxToCounts ≤ n.2 + 1) := by
  induction h generalizing j with
  | done i l => cases hj
  | @pass i l l' u w found hi hcounted hdead h ih =>
      cases j with
      | zero =>
          cases hj
          exact ⟨t.node, hi, rfl, hdead⟩
      | succ j =>
          rw [List.getElem?_cons_succ] at hj
          obtain ⟨n, hn, hends, hcount⟩ := ih hj
          refine ⟨n, ?_, hends, hcount⟩
          have hnext : i + 1 + j = i + (j + 1) := by omega
          cases w with
          | quiet =>
              dsimp only [Verdict.next, Verdict.apply] at hn
              rwa [hnext] at hn
          | counted =>
              dsimp only [Verdict.next, Verdict.apply] at hn
              rwa [List.getElem?_modify_ne _ _ (by omega), hnext] at hn
          | dead =>
              dsimp only [Verdict.next, Verdict.apply] at hn
              rwa [List.getElem?_eraseIdx_of_ge (Nat.le_add_right i j)] at hn

end Settles

/-! ### The client -/

/-- One pass of the loop of `handle_client_timeout`, for the transfer `t` at position `i`. -/
def clientTimeoutPass (s : State) (i : ℕ) (t : Transfer) : State :=
  match t.verdict (s.clock 0) with
  | .quiet => s.tick 1
  | .counted =>
      let s := (s.tick 1).countIncoming i
      if (s.chunks.cell t.c).bitsCount = 0 then sendGET s t.peer (s.binHash t.c) 1
      else sendACK s t.peer (dataFindLargestConsecSeq (s.chunks.cell t.c))
  | .dead => handleTransferDead ((s.tick 1).countIncoming i) i t

/-- The loop is made of these passes. -/
theorem clientTimeoutLoop_succ {fuel i : ℕ} {s : State} {t : Transfer}
    (h : s.incoming[i]? = some t) : clientTimeoutLoop (fuel + 1) i s =
      clientTimeoutLoop fuel ((t.verdict (s.clock 0)).next i) (clientTimeoutPass s i t) := by
  rw [clientTimeoutLoop, h]
  dsimp only
  rw [clientTimeoutPass, Transfer.verdict]
  split_ifs with _ _ h₃
  · rfl
  · dsimp only [Verdict.next]
    rw [if_pos h₃]
  · dsimp only [Verdict.next]
    rw [if_neg h₃]
  · rfl

/-- **What the loop finds**, from the node at position `i` on. -/
def clientFindings : ℕ → ℕ → State → List (Transfer × Verdict)
  | 0, _, _ => []
  | fuel + 1, i, s =>
      match s.incoming[i]? with
      | none => []
      | some t =>
          (t, t.verdict (s.clock 0)) ::
            clientFindings fuel ((t.verdict (s.clock 0)).next i) (clientTimeoutPass s i t)

/-- What `handle_client_timeout` finds. -/
def State.clientFindings (s : State) : List (Transfer × Verdict) :=
  if s.missing = [] then [] else P2P.clientFindings s.incoming.length 0 s

/-- The rule for the loop: what holds of the state when the list is at its end, and is passed from
the state after a pass to the state before it, holds of the state before the loop. -/
theorem clientTimeoutLoop_induction {P : ℕ → State → List (Transfer × Verdict) → State → Prop}
    (hend : ∀ i s, P i s [] s)
    (hpass : ∀ i s t found s', s.incoming[i]? = some t →
      P ((t.verdict (s.clock 0)).next i) (clientTimeoutPass s i t) found s' →
        P i s ((t, t.verdict (s.clock 0)) :: found) s')
    (fuel i : ℕ) (s : State) :
    P i s (clientFindings fuel i s) (clientTimeoutLoop fuel i s) := by
  induction fuel generalizing i s with
  | zero => exact hend i s
  | succ fuel ih =>
      cases hi : s.incoming[i]? with
      | none =>
          rw [clientFindings, clientTimeoutLoop, hi]
          exact hend i s
      | some t =>
          rw [clientFindings, clientTimeoutLoop_succ hi, hi]
          exact hpass i s t _ _ hi (ih _ _)

/-- **What a pass does**: it stamps transfers, counts a timeout of the one it looks at, or removes
that one and forgets its peer. -/
theorem clientTimeoutPass_cases (s : State) (i : ℕ) (t : Transfer) :
    t.verdict (s.clock 0) = .quiet ∧ clientTimeoutPass s i t = s.tick 1 ∨
    t.verdict (s.clock 0) = .counted ∧ (clientTimeoutPass s i t =
          sendGET ((s.tick 1).countIncoming i) t.peer (s.binHash t.c) 1 ∨
        ∃ n, clientTimeoutPass s i t = sendACK ((s.tick 1).countIncoming i) t.peer n) ∨
    t.verdict (s.clock 0) = .dead ∧ maxToCounts ≤ u32 (1 + t.cctrl.timeoutCount) ∧
      clientTimeoutPass s i t = handleTransferDead ((s.tick 1).countIncoming i) i t := by
  rw [clientTimeoutPass, Transfer.verdict]
  split_ifs with _ hcount
  · exact Or.inr (Or.inr ⟨rfl, hcount, rfl⟩)
  · refine Or.inr (Or.inl ⟨rfl, ?_⟩)
    dsimp only
    split_ifs
    · exact Or.inl rfl
    · exact Or.inr ⟨_, rfl⟩
  · exact Or.inl ⟨rfl, rfl⟩

/-- The nodes of the transfers of the client. -/
def State.inNodes (s : State) : List ((ℕ × ℕ) × ℕ) := s.incoming.map Transfer.node

/-- A loop leaves the nodes that its body leaves. -/
theorem inNodes_foldl {α : Type*} {body : State → α → State}
    (h : ∀ s a, (body s a).inNodes = s.inNodes) (l : List α) (s : State) :
    (l.foldl body s).inNodes = s.inNodes := by
  induction l generalizing s with
  | nil => rfl
  | cons a l ih => rw [List.foldl_cons, ih, h]

theorem inNodes_stampIncoming (s : State) (i : ℕ) : (s.stampIncoming i).inNodes = s.inNodes :=
  map_modify_same (f := fun t : Transfer => { t with timestamp := s.clock 0 }) (fun _ => rfl) i

theorem inNodes_sendGET (s : State) (peer : ℕ) (hash : BinHash) (count : ℕ) :
    (sendGET s peer hash count).inNodes = s.inNodes := by
  rw [sendGET]
  split
  · rfl
  · exact inNodes_stampIncoming s _

theorem inNodes_sendACK (s : State) (peer ackNum : ℕ) :
    (sendACK s peer ackNum).inNodes = s.inNodes := by
  rw [sendACK]
  split
  · rfl
  · exact inNodes_stampIncoming s _

theorem inNodes_deleteIncoming (s : State) (i : ℕ) :
    (s.deleteIncoming i).inNodes = s.inNodes.eraseIdx i := by
  cases hi : s.incoming[i]? with
  | none =>
      have hlen : s.inNodes.length ≤ i := by
        rw [State.inNodes, List.length_map]
        exact List.getElem?_eq_none_iff.1 hi
      rw [List.eraseIdx_of_length_le hlen, State.deleteIncoming, hi]
  | some t =>
      rw [State.deleteIncoming_eq hi]
      exact (List.eraseIdx_map ..).symm

theorem inNodes_countIncoming {s : State} (h : Alive s.inNodes) (i : ℕ) :
    (s.countIncoming i).inNodes = s.inNodes.modify i bumpNode := by
  refine map_modify_eq fun t ht => ?_
  have hlt : t.cctrl.timeoutCount < maxToCounts :=
    h t.node (List.mem_map_of_mem (List.mem_of_getElem? ht))
  exact Prod.ext rfl (u32_succ_count hlt)

theorem inNodes_handleTransferDead (s : State) (i : ℕ) (t : Transfer) :
    (handleTransferDead s i t).inNodes = s.inNodes.eraseIdx i := by
  have hforget : ∀ (s : State) (q : ℕ), (forgetPeer t.peer s q).inNodes = s.inNodes :=
    fun _ _ => rfl
  rw [handleTransferDead, inNodes_deleteIncoming, inNodes_foldl hforget]

theorem eraseIdx_modify_self {α : Type*} (l : List α) (i : ℕ) (f : α → α) :
    (l.modify i f).eraseIdx i = l.eraseIdx i := by
  induction l generalizing i with
  | nil => cases i <;> rfl
  | cons a l ih =>
      cases i with
      | zero => rfl
      | succ i => exact congrArg (a :: ·) (ih i)

/-- **What a pass does to the nodes.** -/
theorem inNodes_clientTimeoutPass {s : State} (h : Alive s.inNodes) {i : ℕ} {t : Transfer} :
    (clientTimeoutPass s i t).inNodes =
      (t.verdict (s.clock 0)).apply bumpNode i s.inNodes := by
  have hcount : ((s.tick 1).countIncoming i).inNodes = s.inNodes.modify i bumpNode :=
    inNodes_countIncoming h i
  obtain ⟨hv, heq⟩ | ⟨hv, heq | ⟨n, heq⟩⟩ | ⟨hv, -, heq⟩ := clientTimeoutPass_cases s i t
  · rw [hv, heq]
    rfl
  · rw [hv, heq, inNodes_sendGET, hcount]
    rfl
  · rw [hv, heq, inNodes_sendACK, hcount]
    rfl
  · rw [hv, heq, inNodes_handleTransferDead, hcount]
    exact eraseIdx_modify_self s.inNodes i bumpNode

/-- **The loop of the client goes through its nodes.** -/
theorem settles_clientTimeoutLoop (fuel i : ℕ) {s : State} (h : Alive s.inNodes) :
    Settles i s.inNodes (clientFindings fuel i s) (clientTimeoutLoop fuel i s).inNodes := by
  refine clientTimeoutLoop_induction (P := fun i s found s' => Alive s.inNodes →
    Settles i s.inNodes found s'.inNodes) (fun i s _ => .done i s.inNodes) ?_ fuel i s h
  intro i s t found s' hi ih h
  have hnode : s.inNodes[i]? = some t.node := by
    rw [State.inNodes, List.getElem?_map, hi]
    rfl
  obtain ⟨hcounted, hdead⟩ := verdict_spec (h t.node (List.mem_of_getElem? hnode)) (s.clock 0)
  refine .pass hnode hcounted hdead ?_
  rw [← inNodes_clientTimeoutPass h]
  refine ih ?_
  rw [inNodes_clientTimeoutPass h]
  exact h.apply hnode hcounted

/-! ### The server -/

/-- **What a timeout does to a transfer of the server**: one that is dead is removed, and for
another one only a timeout that is counted changes the count. -/
theorem timeoutTransfer_verdict (clock : ℕ → ℕ) (t : Transfer) :
    t.verdict (clock 0) = .dead ∧ timeoutTransfer clock t = none ∨
      ∃ t', timeoutTransfer clock t = some t' ∧ t'.ends = t.ends ∧
        (t.verdict (clock 0) = .quiet ∧ t'.cctrl.timeoutCount = t.cctrl.timeoutCount ∨
          t.verdict (clock 0) = .counted ∧
            t'.cctrl.timeoutCount = u32 (1 + t.cctrl.timeoutCount)) := by
  rw [timeoutTransfer, Transfer.verdict]
  dsimp only
  split_ifs with _ hcount
  · exact Or.inl ⟨rfl, rfl⟩
  · have hsame := detectedFirstLoss_same (fun i => clock (1 + i))
      { t with cctrl := { t.cctrl with timeoutCount := u32 (1 + t.cctrl.timeoutCount) } }
    exact Or.inr ⟨_, rfl, Prod.ext hsame.peer hsame.c, Or.inr ⟨rfl, hsame.timeoutCount⟩⟩
  · exact Or.inr ⟨t, rfl, rfl, Or.inl ⟨rfl, rfl⟩⟩

/-- One pass of the loop of `handle_server_timeout`, for the transfer `t` at position `i`. -/
def serverTimeoutPass (s : State) (i : ℕ) (t : Transfer) : State :=
  match timeoutTransfer s.clock t with
  | none => (s.tick 2).deleteOutgoing i
  | some t' => { s.tick 2 with outgoing := s.outgoing.set i t' }

/-- The loop is made of these passes. -/
theorem serverTimeoutLoop_succ {fuel i : ℕ} {s : State} {t : Transfer}
    (h : s.outgoing[i]? = some t) : serverTimeoutLoop (fuel + 1) i s =
      serverTimeoutLoop fuel ((t.verdict (s.clock 0)).next i) (serverTimeoutPass s i t) := by
  rw [serverTimeoutLoop, h]
  dsimp only
  rw [serverTimeoutPass]
  obtain ⟨hv, ht⟩ | ⟨t', ht, -, ⟨hv, -⟩ | ⟨hv, -⟩⟩ := timeoutTransfer_verdict s.clock t
  · rw [ht, hv]
    rfl
  · rw [ht, hv]
    rfl
  · rw [ht, hv]
    rfl

/-- **What the loop finds**, from the node at position `i` on. -/
def serverFindings : ℕ → ℕ → State → List (Transfer × Verdict)
  | 0, _, _ => []
  | fuel + 1, i, s =>
      match s.outgoing[i]? with
      | none => []
      | some t =>
          (t, t.verdict (s.clock 0)) ::
            serverFindings fuel ((t.verdict (s.clock 0)).next i) (serverTimeoutPass s i t)

/-- What `handle_server_timeout` finds. -/
def State.serverFindings (s : State) : List (Transfer × Verdict) :=
  P2P.serverFindings s.outgoing.length 0 s

/-- The nodes of the transfers of the server. -/
def State.outNodes (s : State) : List ((ℕ × ℕ) × ℕ) := s.outgoing.map Transfer.node

theorem outNodes_deleteOutgoing (s : State) (i : ℕ) :
    (s.deleteOutgoing i).outNodes = s.outNodes.eraseIdx i := by
  cases hi : s.outgoing[i]? with
  | none =>
      have hlen : s.outNodes.length ≤ i := by
        rw [State.outNodes, List.length_map]
        exact List.getElem?_eq_none_iff.1 hi
      rw [List.eraseIdx_of_length_le hlen, State.deleteOutgoing, hi]
  | some t =>
      rw [State.deleteOutgoing_eq hi]
      exact (List.eraseIdx_map ..).symm

/-- **What a pass does to the nodes.** -/
theorem outNodes_serverTimeoutPass {s : State} (h : Alive s.outNodes) {i : ℕ} {t : Transfer}
    (hi : s.outgoing[i]? = some t) : (serverTimeoutPass s i t).outNodes =
      (t.verdict (s.clock 0)).apply bumpNode i s.outNodes := by
  have hlt : t.cctrl.timeoutCount < maxToCounts :=
    h t.node (List.mem_map_of_mem (List.mem_of_getElem? hi))
  have hset : ∀ {t' : Transfer} (k : (ℕ × ℕ) × ℕ → (ℕ × ℕ) × ℕ), t'.node = k t.node →
      (s.outgoing.set i t').map Transfer.node = s.outNodes.modify i k := by
    intro t' k hk
    rw [List.set_eq_modify]
    refine map_modify_eq fun u hu => ?_
    rw [hi] at hu
    cases hu
    exact hk
  rw [serverTimeoutPass]
  obtain ⟨hv, ht⟩ | ⟨t', ht, hends, ⟨hv, hcount⟩ | ⟨hv, hcount⟩⟩ :=
    timeoutTransfer_verdict s.clock t
  · rw [ht, hv]
    exact outNodes_deleteOutgoing (s.tick 2) i
  · rw [ht, hv]
    exact (hset id (Prod.ext hends hcount)).trans (List.modify_id i s.outNodes)
  · rw [ht, hv]
    rw [u32_succ_count hlt] at hcount
    exact hset bumpNode (Prod.ext hends hcount)

/-- **The loop of the server goes through its nodes.** -/
theorem settles_serverTimeoutLoop (fuel i : ℕ) {s : State} (h : Alive s.outNodes) :
    Settles i s.outNodes (serverFindings fuel i s) (serverTimeoutLoop fuel i s).outNodes := by
  induction fuel generalizing i s with
  | zero => exact .done i s.outNodes
  | succ fuel ih =>
      cases hi : s.outgoing[i]? with
      | none =>
          rw [serverFindings, serverTimeoutLoop, hi]
          exact .done i s.outNodes
      | some t =>
          have hnode : s.outNodes[i]? = some t.node := by
            rw [State.outNodes, List.getElem?_map, hi]
            rfl
          obtain ⟨hcounted, hdead⟩ :=
            verdict_spec (h t.node (List.mem_of_getElem? hnode)) (s.clock 0)
          rw [serverFindings, serverTimeoutLoop_succ hi, hi]
          refine .pass hnode hcounted hdead ?_
          rw [← outNodes_serverTimeoutPass h hi]
          refine ih _ ?_
          rw [outNodes_serverTimeoutPass h hi]
          exact h.apply hnode hcounted

end P2P
