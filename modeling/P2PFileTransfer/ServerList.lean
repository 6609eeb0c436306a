/-
**The transfers of the server** (`receive_GET`, `receive_ACK`, `handle_server_timeout`).

The list of the server grows by `GET` only, and there the limit of connections and the hashes that
are running are looked at first.  An acknowledgement or a timeout takes transfers out of the list or
moves their windows: what is left is a part of the list, in its order, each transfer with the peer
and the chunk it had and a window that did not go back.

Main definitions:

* `P2P.Advance`, `P2P.Progress` — what becomes of a transfer, and of the list;
* `P2P.ServerList` — **the invariant**.

Main results:

* `P2P.progress_receiveACK`, `P2P.progress_handleServerTimeout` — the two handlers that move
  windows;
* `P2P.ServerList.step` — every step keeps the invariant, and a transfer that stays goes on;
* `P2P.server_list_invariant` — **the invariant in every reachable state, and the windows over the
  life of a transfer**.
-/

import P2PFileTransfer.Answers
import P2PFileTransfer.Handlers
import P2PFileTransfer.Reactions
import Mathlib.Data.List.Forall2

set_option relaxedAutoImplicit false
set_option autoImplicit false

namespace P2P

/-! ### What becomes of a transfer -/

/-- What becomes of a transfer of the server while it lasts: its window does not go back, and ends
where it starts at the earliest. -/
structure Advance (t t' : Transfer) : Prop where
  ends : SameEnds t t'
  begin_le : t.cctrl.begin ≤ t'.cctrl.begin
  begin_le_index : t.cctrl.begin ≤ t.cctrl.index → t'.cctrl.begin ≤ t'.cctrl.index

theorem Advance.refl (t : Transfer) : Advance t t := ⟨⟨rfl, rfl⟩, le_rfl, id⟩

theorem Advance.trans {t t' t'' : Transfer} (h : Advance t t') (h' : Advance t' t'') :
    Advance t t'' :=
  ⟨⟨h'.ends.1.trans h.ends.1, h'.ends.2.trans h.ends.2⟩, h.begin_le.trans h'.begin_le,
    fun hi => h'.begin_le_index (h.begin_le_index hi)⟩

/-- An acknowledgement moves the window on, or goes back to its beginning. -/
theorem advance_ackTransfer {clock : ℕ → ℕ} {c : Chunk} {t t' : Transfer} {ackNum : ℕ}
    {sent : List Packet} (h : ackTransfer clock c t ackNum = some (t', sent)) : Advance t t' := by
  have hends := ackTransfer_same h
  obtain ⟨-, hnone⟩ | ⟨-, u, hsome, -, -, hbegin, hindex⟩ := ackTransfer_cases clock c t ackNum
  · rw [hnone] at h
    cases h
  · rw [hsome] at h
    cases h
    refine ⟨⟨hends.1, hends.2.1⟩, ?_, fun hle => ?_⟩
    · rw [hbegin]
      obtain ⟨hnew, t₁, hs, hw⟩ | ⟨-, t₁, -, -, hb, -, hw⟩ | ⟨-, t₁, -, -, hb, -, hw⟩ :=
        ackWindow_cases clock c t ackNum
      · rw [hw, sendDATA_begin, hs.begin]
        exact le_of_lt hnew
      · rw [hw, sendDATA_begin, hb]
      · rw [hw, hb]
    · rw [hbegin, hindex]
      obtain ⟨-, t₁, hs, hw⟩ | ⟨-, t₁, -, -, hb, hi, hw⟩ | ⟨-, t₁, -, -, hb, hi, hw⟩ :=
        ackWindow_cases clock c t ackNum
      · rw [hw, sendDATA_begin, sendDATA_index, hs.begin, hs.index]
        refine le_max_of_le_left ?_
        simp only [adjustWindow]
        split_ifs <;> omega
      · rw [hw, sendDATA_begin, sendDATA_index, hb, hi]
        exact le_max_left _ _
      · rw [hw, hb, hi]
        exact hle

theorem advance_timeoutTransfer {clock : ℕ → ℕ} {t t' : Transfer}
    (h : timeoutTransfer clock t = some t') : Advance t t' := by
  obtain ⟨hpeer, hc, hbegin, hindex⟩ := timeoutTransfer_same h
  exact ⟨⟨hpeer, hc⟩, le_of_eq hbegin.symm, fun hle => by rw [hbegin, hindex]; exact hle⟩

/-! ### What becomes of the list -/

/-- **What becomes of a list of transfers** when none is added: some are left, in their order. -/
def Progress (l l' : List Transfer) : Prop := List.SublistForall₂ (fun t' t => Advance t t') l' l

namespace Progress

variable {l l' l'' : List Transfer}

theorem refl (l : List Transfer) : Progress l l := by
  induction l with
  | nil => exact .nil
  | cons t l ih => exact .cons (Advance.refl t) ih

theorem of_sublist (h : l'.Sublist l) : Progress l l' := by
  induction h with
  | slnil => exact .nil
  | cons t _ ih => exact .cons_right ih
  | cons_cons t _ ih => exact .cons (Advance.refl t) ih

theorem trans (h : Progress l l') (h' : Progress l' l'') : Progress l l'' := by
  have : IsTrans Transfer fun t' t => Advance t t' := ⟨fun _ _ _ h₂ h₁ => h₁.trans h₂⟩
  exact List.SublistForall₂.is_trans.trans _ _ _ h' h

/-- One transfer of the list goes on. -/
theorem set {i : ℕ} {t t' : Transfer} (hi : l[i]? = some t) (h : Advance t t') :
    Progress l (l.set i t') := by
  induction l generalizing i with
  | nil => exact .nil
  | cons u l ih =>
      cases i with
      | zero =>
          cases hi
          exact .cons h (refl l)
      | succ i => exact .cons (Advance.refl u) (ih hi)

theorem length_le (h : Progress l l') : l'.length ≤ l.length := by
  obtain ⟨m, hm, hsub⟩ := List.sublistForall₂_iff.1 h
  rw [hm.length_eq]
  exact hsub.length_le

theorem mem (h : Progress l l') {t' : Transfer} (ht : t' ∈ l') : ∃ t ∈ l, Advance t t' := by
  induction h with
  | nil => exact absurd ht List.not_mem_nil
  | @cons u' u _ _ hu _ ih =>
      rcases List.mem_cons.1 ht with rfl | ht
      · exact ⟨u, List.mem_cons_self .., hu⟩
      · obtain ⟨t, hmem, hadv⟩ := ih ht
        exact ⟨t, List.mem_cons_of_mem _ hmem, hadv⟩
  | cons_right _ ih =>
      obtain ⟨t, hmem, hadv⟩ := ih ht
      exact ⟨t, List.mem_cons_of_mem _ hmem, hadv⟩

/-- The chunks that are left were there, in the same order. -/
theorem map_chunk {β : Type*} (g : ℕ → β) (h : Progress l l') :
    (l'.map fun t => g t.c).Sublist (l.map fun t => g t.c) := by
  induction h with
  | nil => exact List.nil_sublist _
  | cons hu _ ih =>
      rw [List.map_cons, List.map_cons, hu.ends.2]
      exact ih.cons_cons _
  | cons_right _ ih => exact ih.cons _

end Progress

/-- Deleting a transfer leaves the others. -/
theorem progress_deleteOutgoing (s : State) (i : ℕ) :
    Progress s.outgoing (s.deleteOutgoing i).outgoing := by
  rw [State.deleteOutgoing]
  split
  · exact .refl _
  · exact .of_sublist (List.eraseIdx_sublist ..)

/-- **An acknowledgement** moves one window, or ends one transfer. -/
theorem progress_receiveACK (s : State) (pack : Packet) (peer : ℕ) :
    Progress s.outgoing (receiveACK s pack peer).outgoing := by
  rw [receiveACK]
  split
  · exact .refl _
  · rename_i i t hfind
    split
    · exact progress_deleteOutgoing s i
    · rename_i t' sent hack
      exact .set (State.findOutgoing_getElem? hfind).1 (advance_ackTransfer hack)

/-- **Timeouts** end transfers and leave the windows of the others. -/
theorem progress_handleServerTimeout (s : State) :
    Progress s.outgoing (handleServerTimeout s).outgoing := by
  have hloop : ∀ (fuel i : ℕ) (s : State),
      Progress s.outgoing (serverTimeoutLoop fuel i s).outgoing := by
    intro fuel
    induction fuel with
    | zero => exact fun _ s => .refl s.outgoing
    | succ fuel ih =>
        intro i s
        rw [serverTimeoutLoop]
        split
        · exact .refl _
        · rename_i t ht
          split
          · exact (progress_deleteOutgoing (s.tick 2) i).trans (ih _ _)
          · rename_i t' hto
            exact (Progress.set ht (advance_timeoutTransfer hto)).trans (ih _ _)
  exact hloop _ 0 s

/-! ### The limit of connections -/

theorem maxConn_deleteOutgoing (s : State) (i : ℕ) : (s.deleteOutgoing i).maxConn = s.maxConn := by
  rw [State.deleteOutgoing]
  split <;> rfl

theorem maxConn_receiveACK (s : State) (pack : Packet) (peer : ℕ) :
    (receiveACK s pack peer).maxConn = s.maxConn := by
  rw [receiveACK]
  split
  · rfl
  · split
    · exact maxConn_deleteOutgoing s _
    · rfl

theorem maxConn_handleServerTimeout (s : State) : (handleServerTimeout s).maxConn = s.maxConn := by
  have hloop : ∀ (fuel i : ℕ) (s : State), (serverTimeoutLoop fuel i s).maxConn = s.maxConn := by
    intro fuel
    induction fuel with
    | zero => exact fun _ _ => rfl
    | succ fuel ih =>
        intro i s
        rw [serverTimeoutLoop]
        split
        · rfl
        · split
          · rw [ih, maxConn_deleteOutgoing]
            rfl
          · exact ih _ _
  exact hloop _ 0 s

theorem maxConn_receiveGET (s : State) (pack : Packet) (peer : ℕ) :
    (receiveGET s pack peer).maxConn = s.maxConn := by
  rcases receiveGET_cases s pack peer with
    ⟨-, heq⟩ | ⟨-, -, heq⟩ | ⟨-, -, -, heq⟩ | ⟨-, -, q, -, -, heq⟩ <;> rw [heq] <;> rfl

/-- No step changes the limit of connections. -/
theorem maxConn_step {shahash : List UInt8 → BinHash} {s s' : State} {e : Event}
    (he : step shahash s e = .ok s') : s'.maxConn = s.maxConn := by
  rcases ServerKept.of_handled (handled_of_step he) with hk | ⟨-, rfl⟩ |
    ⟨src, pack, peer, -, -, ⟨-, rfl⟩ | ⟨-, rfl⟩⟩
  · exact hk.maxConn
  · exact maxConn_handleServerTimeout s
  · exact maxConn_receiveGET s pack peer
  · exact maxConn_receiveACK s pack peer

/-! ### The invariant -/

/-- **The invariant** of the list. -/
structure ServerList (s : State) : Prop where
  length_le : (s.outgoing.length : ℤ) ≤ max 0 s.maxConn
  nodup : (s.outgoing.map fun t => s.binHash t.c).Nodup
  owned : Serving s
  begin_le_index : ∀ t ∈ s.outgoing, t.cctrl.begin ≤ t.cctrl.index

/-- What a step does to a transfer that it leaves: there is one transfer of a chunk at most, so it
is found by its chunk. -/
def Continues (s s' : State) : Prop :=
  ∀ t ∈ s.outgoing, ∀ t' ∈ s'.outgoing, t'.c = t.c → Advance t t'

namespace ServerList

variable {s s' : State}

/-- In a list without repetitions, a transfer is found by the hash of its chunk. -/
theorem eq_of_hash (h : ServerList s) {t u : Transfer} (ht : t ∈ s.outgoing)
    (hu : u ∈ s.outgoing) (heq : s.binHash t.c = s.binHash u.c) : t = u :=
  List.inj_on_of_nodup_map h.nodup ht hu heq

/-- **A step that adds no transfer keeps the invariant.** -/
theorem of_progress (h : ServerList s) (hp : Progress s.outgoing s'.outgoing)
    (hmax : s'.maxConn = s.maxConn) (hbin : ∀ t ∈ s.outgoing, s'.binHash t.c = s.binHash t.c)
    (hown : Serving s') : ServerList s' ∧ Continues s s' := by
  refine ⟨⟨?_, ?_, hown, fun t' ht' => ?_⟩, fun t ht t' ht' hc => ?_⟩
  · rw [hmax]
    exact le_trans (Int.ofNat_le.2 hp.length_le) h.length_le
  · have hsame : s'.outgoing.map (fun t => s'.binHash t.c) =
        s'.outgoing.map fun t => s.binHash t.c := by
      refine List.map_congr_left fun t' ht' => ?_
      obtain ⟨t, ht, hadv⟩ := hp.mem ht'
      rw [hadv.ends.2]
      exact hbin t ht
    rw [hsame]
    exact (hp.map_chunk s.binHash).nodup h.nodup
  · obtain ⟨t, ht, hadv⟩ := hp.mem ht'
    exact hadv.begin_le_index (h.begin_le_index t ht)
  · obtain ⟨u, hu, hadv⟩ := hp.mem ht'
    have hut : u = t := h.eq_of_hash hu ht (by rw [← hadv.ends.2, hc])
    rwa [hut] at hadv

/-- A handler of the other side keeps the invariant. -/
theorem of_serverKept (h : ServerList s) (hk : ServerKept s s')
    (hbin : ∀ t ∈ s.outgoing, s'.binHash t.c = s.binHash t.c) (hown : Serving s') :
    ServerList s' ∧ Continues s s' :=
  h.of_progress (by rw [hk.outgoing]; exact .refl _) hk.maxConn hbin hown

/-- **A `GET` keeps the invariant**: a transfer is added only if there is room for it and its hash
is not there. -/
theorem receiveGET (h : ServerList s) (pack : Packet) (peer : ℕ) :
    ServerList (receiveGET s pack peer) ∧ Continues s (receiveGET s pack peer) := by
  have hsame : ∀ {s'}, ServerKept s s' → (∀ q, s'.binHash q = s.binHash q) →
      s'.haveList = s.haveList → ServerList s' ∧ Continues s s' := by
    intro s' hk hbin hhave
    refine h.of_serverKept hk (fun t _ => hbin t.c) fun t ht => ?_
    rw [hk.outgoing] at ht
    rw [hhave]
    exact h.owned t ht
  rcases receiveGET_cases s pack peer with
    ⟨-, heq⟩ | ⟨-, -, heq⟩ | ⟨-, -, -, heq⟩ | ⟨hroom, hnone, q, hq, hhash, heq⟩
  · rw [heq]
    exact hsame ⟨rfl, rfl⟩ (fun _ => rfl) rfl
  · rw [heq]
    exact hsame ⟨rfl, rfl⟩ (fun _ => rfl) rfl
  · rw [heq]
    exact ⟨h, fun t ht t' ht' hc => by rw [h.eq_of_hash ht' ht (by rw [hc])]; exact .refl t⟩
  · rw [heq]
    have hnew : (s.served peer q).1.c = q := by rw [State.served, sendDATA_c]; rfl
    refine ⟨⟨?_, ?_, fun t ht => ?_, fun t ht => ?_⟩, fun t ht t' ht' hc => ?_⟩
    · show ((s.outgoing.length + 1 : ℕ) : ℤ) ≤ max 0 s.maxConn
      omega
    · refine List.nodup_cons.2 ⟨fun hmem => ?_, h.nodup⟩
      obtain ⟨t, ht, hc⟩ := List.mem_map.1 hmem
      refine hnone t ht (Eq.trans hc ?_)
      show s.binHash (s.served peer q).1.c = _
      rw [hnew, hhash]
    · rcases List.mem_cons.1 ht with rfl | ht
      · rw [hnew]
        exact hq
      · exact h.owned t ht
    · rcases List.mem_cons.1 ht with rfl | ht
      · rw [begin_served]
        exact Nat.zero_le _
      · exact h.begin_le_index t ht
    · rcases List.mem_cons.1 ht' with rfl | ht'
      · refine absurd ?_ (hnone t ht)
        rw [← hc, hnew, hhash]
      · rw [h.eq_of_hash ht' ht (by rw [hc])]
        exact .refl t

/-- **Every step keeps the invariant**, and the transfers that it leaves go on. -/
theorem step {shahash : List UInt8 → BinHash} {e : Event} (h : ServerList s)
    (hbin : ∀ t ∈ s.outgoing, s'.binHash t.c = s.binHash t.c)
    (he : step shahash s e = .ok s') : ServerList s' ∧ Continues s s' := by
  have hown : Serving s' := step_serving h.owned he
  rcases ServerKept.of_handled (handled_of_step he) with hk | ⟨-, rfl⟩ |
    ⟨src, pack, peer, -, -, ⟨-, rfl⟩ | ⟨-, rfl⟩⟩
  · exact h.of_serverKept hk hbin hown
  · exact h.of_progress (progress_handleServerTimeout s) (maxConn_handleServerTimeout s) hbin hown
  · exact h.receiveGET pack peer
  · exact h.of_progress (progress_receiveACK s pack peer) (maxConn_receiveACK s pack peer) hbin hown

end ServerList

/-! ### Runs -/

section Runs

variable {shahash : List UInt8 → BinHash} {own : ℕ} {start : ℕ → Chunk} {kept : List ℕ}

/-- The invariant with the one of the have list, which says that the chunks of the transfers
exist. -/
def ServerSound (shahash : List UInt8 → BinHash) (own : ℕ) (start : ℕ → Chunk) (kept : List ℕ)
    (s : State) : Prop := ServerList s ∧ Intact shahash own start kept s

theorem ServerSound.step {s s' : State} {e : Event} (h : ServerSound shahash own start kept s)
    (he : step shahash s e = .ok s') : ServerSound shahash own start kept s' ∧ Continues s s' := by
  have hout : ∀ t ∈ s.outgoing, t.c < s.chunks.next := fun t ht =>
    h.2.lt_of_owned (h.1.owned t ht)
  have hbin := (step_reacts (fun t ht => (h.2.incoming t ht).2) hout he).binHash
  obtain ⟨hlist, hcont⟩ := h.1.step (fun t ht => hbin t.c (hout t ht)) he
  exact ⟨⟨hlist, h.2.step he⟩, hcont⟩

/-- **Over the life of a transfer its window does not go back**: as long as every state has a
transfer of the chunk, it is the same one that goes on. -/
theorem ServerSound.life {s u : State} {es : List Event} (h : ServerSound shahash own start kept s)
    (hrun : Machine.run (P2P.step shahash) s es = .ok u) {q : ℕ}
    (hlife : ∀ v, Machine.Visits (P2P.step shahash) s es v → ∃ t ∈ v.outgoing, t.c = q)
    {t t' : Transfer} (ht : t ∈ s.outgoing) (hq : t.c = q) (ht' : t' ∈ u.outgoing)
    (hq' : t'.c = q) : Advance t t' := by
  induction es generalizing s t with
  | nil =>
      cases hrun
      rw [h.1.eq_of_hash ht' ht (by rw [hq, hq'])]
      exact .refl t
  | cons e es ih =>
      obtain ⟨v, hv, hrest⟩ := Machine.run_cons_inv _ hrun
      obtain ⟨hsound, hcont⟩ := h.step hv
      obtain ⟨r, hr, hrq⟩ := hlife v ((Machine.visits_cons hv).2 (Or.inr (.start v es)))
      refine (hcont t ht r hr (hrq.trans hq.symm)).trans (ih hsound hrest (fun w hw => ?_) hr hrq)
      exact hlife w ((Machine.visits_cons hv).2 (Or.inr hw))

end Runs

theorem serverList_peerSetup (setup : Setup) (clock : ℕ → ℕ) (junk : ℕ → Packet) :
    ServerList (peerSetup setup clock junk) where
  length_le := le_max_left _ _
  nodup := List.nodup_nil
  owned := fun _ ht => absurd ht List.not_mem_nil
  begin_le_index := fun _ ht => absurd ht List.not_mem_nil

/-- **The transfers of the server in every reachable state**: there are at most `max 0 max_conn`, no
two for the same hash, each for a chunk that is owned and with a window that ends where it starts at
the earliest; and over the life of a transfer its window does not go back. -/
theorem server_list_invariant (shahash : List UInt8 → BinHash) (setup : Setup) (clock : ℕ → ℕ)
    (junk : ℕ → Packet) (es : List Event) (s : State)
    (h : Machine.run (step shahash) (peerSetup setup clock junk) es = .ok s) :
    (s.outgoing.length : ℤ) ≤ max 0 setup.maxConn ∧
      (s.outgoing.map fun t => s.binHash t.c).Nodup ∧
      (∀ t ∈ s.outgoing, t.c ∈ s.haveList) ∧ (∀ t ∈ s.outgoing, t.cctrl.begin ≤ t.cctrl.index) ∧
      ∀ (es' : List Event) (u : State), Machine.run (step shahash) s es' = .ok u →
        ∀ q, (∀ v, Machine.Visits (step shahash) s es' v → ∃ t ∈ v.outgoing, t.c = q) →
          ∀ t ∈ s.outgoing, ∀ t' ∈ u.outgoing, t.c = q → t'.c = q →
            t'.peer = t.peer ∧ t.cctrl.begin ≤ t'.cctrl.begin := by
  have hmax : s.maxConn = setup.maxConn :=
    Machine.run_invariant (P := fun s => s.maxConn = setup.maxConn)
      (fun _ _ _ hs he => (maxConn_step he).trans hs) rfl h
  have hsound := Machine.run_invariant (fun _ _ _ hs he => (ServerSound.step hs he).1)
    ⟨serverList_peerSetup setup clock junk, Intact.setup shahash setup clock junk⟩ h
  refine ⟨hmax ▸ hsound.1.length_le, hsound.1.nodup, hsound.1.owned, hsound.1.begin_le_index, ?_⟩
  intro es' u hrun q hlife t ht t' ht' hq hq'
  have hadv := hsound.life hrun hlife ht hq ht' hq'
  exact ⟨hadv.ends.1, hadv.begin_le⟩

/-- The neighbour asks for the chunk and acknowledges the first piece. -/
def ackedOnce : List Event :=
  [.packet ⟨0, 2222⟩ (getPacket zeroPacket (binHashOf (Vector.replicate hexHashSize 48)) 1),
    .packet ⟨0, 2222⟩ (ackPacket zeroPacket 1)]

theorem server_list_invariant_acked : ∃ s,
    Machine.run (step fun _ => Vector.replicate binHashSize 0)
      (peerSetup lender (fun _ => 0) fun _ => zeroPacket) ackedOnce = .ok s ∧
    (s.outgoing.length : ℤ) ≤ max 0 lender.maxConn :=
  ⟨_, rfl, (server_list_invariant (fun _ => Vector.replicate binHashSize 0) lender (fun _ => 0)
    (fun _ => zeroPacket) ackedOnce _ rfl).1⟩

end P2P
