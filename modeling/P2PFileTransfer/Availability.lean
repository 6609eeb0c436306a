/-
**One transfer of the client for each peer** (`transfer.c`, `bt_client.c`, `bt_server.c`).

`receive_DATA` and `receive_DENIED` find the client's transfer by the peer alone, so there had
better be one at most.  The flag `available` is what keeps it so: `create_transfer` clears it, and
`get_chunk_data` asks only peers that have it set.  But `delete_transfer` sets it again for the
transfers of both lists, and a transfer of the server that ends frees a peer that the client still
has a transfer with.  This module shows that nothing else can go wrong.

Main definitions:

* `P2P.State.Exclusive` — the client has one transfer at most with each peer, and no peer it has one
  with is available;
* `P2P.Addressed` — transfers and offers are with peers of the configuration, and these are told
  apart by their identifiers;
* `P2P.ClosesAlone` — the condition on a step.

Main results:

* `P2P.Move.exclusive` — the moves of the client and the starts of the server keep it;
* `P2P.exclusive_freed_iff`, `P2P.serverTimeoutLoop_frees` — what the ends of the server do to it;
* `P2P.incoming_exclusive_iff` — **the transfers are exclusive in all states of a run if and only if
  all its steps meet the condition**;
* `P2P.incoming_not_exclusive` — a run that does not.
-/

import P2PFileTransfer.Output

set_option relaxedAutoImplicit false
set_option autoImplicit false

namespace P2P

/-- **The property**: one transfer of the client at most for each peer identifier, and none with an
available peer. -/
structure State.Exclusive (s : State) : Prop where
  nodup : (s.incoming.map fun t => s.peerId t.peer).Nodup
  busy : ∀ t ∈ s.incoming, (s.peers.cell t.peer).available = 0

/-- Transfers and offers are with peers of the configuration, and no two of these have the same
identifier. -/
structure Addressed (s : State) : Prop where
  ids : ∀ p p', p < s.peers.next → p' < s.peers.next → s.peerId p = s.peerId p' → p = p'
  incoming : ∀ t ∈ s.incoming, t.peer < s.peers.next
  offered : ∀ q, ∀ p ∈ (s.chunks.cell q).peer, p < s.peers.next

/-- The condition on a step: where the server closes a transfer, because its last piece was
acknowledged or because it timed out too often, the client has no transfer with the same peer.  For
each transfer the timeout handler reads the clock twice. -/
def ClosesAlone (s : State) : Event → Prop
  | .packet src pack =>
      ∀ peer i t, findPeer s src = some peer → pack.type = .ack → pack.ackNum.toNat = maxSeqNum →
        s.findOutgoing peer = some (i, t) → ∀ u ∈ s.incoming, u.peer ≠ t.peer
  | .serverTimeout =>
      ∀ i t, s.outgoing[i]? = some t → timeoutTransfer (fun j => s.clock (2 * i + j)) t = none →
        ∀ u ∈ s.incoming, u.peer ≠ t.peer
  | _ => True

/-! ### Moves -/

theorem cell_setAvailable_self (s : State) (p a : ℕ) :
    ((s.setAvailable p a).peers.cell p).available = a := by
  simp [State.setAvailable]

theorem cell_setAvailable_of_ne (s : State) {p p' : ℕ} (a : ℕ) (h : p' ≠ p) :
    ((s.setAvailable p a).peers.cell p').available = (s.peers.cell p').available := by
  rw [State.setAvailable, Heap.cell_modify_of_ne _ _ h]

/-- In a list without repetitions, what is left after a removal differs from what was removed. -/
theorem ne_of_mem_eraseIdx {α β : Type*} {f : α → β} {l : List α} (h : (l.map f).Nodup) {i : ℕ}
    {a b : α} (hi : l[i]? = some b) (ha : a ∈ l.eraseIdx i) : f a ≠ f b := by
  obtain ⟨j, hji, hj⟩ := List.mem_eraseIdx_iff_getElem?.1 ha
  intro hab
  have hlt : j < (l.map f).length := by
    rw [List.length_map]
    exact (List.getElem?_eq_some_iff.1 hj).1
  refine hji ((List.getElem?_inj hlt h).1 ?_)
  rw [List.getElem?_map, List.getElem?_map, hj, hi, Option.map_some, Option.map_some, hab]

/-- **Moves stay among the peers of the configuration.** -/
theorem Move.addressed {may : Kind → Prop} {s s' : State} (h : Move may s s')
    (ha : Addressed s) : Addressed s' := by
  have hf := h.frame
  have hids : ∀ p p', p < s'.peers.next → p' < s'.peers.next → s'.peerId p = s'.peerId p' →
      p = p' := by
    intro p p' hp hp' heq
    rw [hf.peersNext] at hp hp'
    rw [hf.peerId, hf.peerId] at heq
    exact ha.ids p p' hp hp' heq
  have hkeep : ∀ l : List Transfer, (∀ t ∈ l, ∃ u ∈ s.incoming, t.peer = u.peer) →
      ∀ t ∈ l, t.peer < s.peers.next := by
    intro l hl t ht
    obtain ⟨u, hu, heq⟩ := hl t ht
    rw [heq]
    exact ha.incoming u hu
  cases h with
  | touchIn i f hsame =>
      refine ⟨hids, hkeep _ fun t ht => ?_, ha.offered⟩
      obtain ⟨u, hu, rfl | rfl⟩ := mem_modify ht
      · exact ⟨t, hu, rfl⟩
      · exact ⟨u, hu, (hsame u).1⟩
  | offer q p hq hp =>
      refine ⟨hids, ha.incoming, fun r p' hp' => ?_⟩
      rw [State.modifyChunk, Heap.cell_modify] at hp'
      split at hp'
      · rcases List.mem_cons.1 hp' with rfl | hp'
        · exact hp
        · exact ha.offered r p' hp'
      · exact ha.offered r p' hp'
  | forget q keep hq =>
      refine ⟨hids, ha.incoming, fun r p' hp' => ?_⟩
      rw [State.modifyChunk, Heap.cell_modify] at hp'
      split at hp'
      · exact ha.offered r p' (List.mem_of_mem_filter hp')
      · exact ha.offered r p' hp'
  | openIn q p hq hp hav hno hk =>
      refine ⟨hids, fun t ht => ?_, ha.offered⟩
      rcases List.mem_cons.1 ht with rfl | ht
      · exact ha.offered q p hp
      · exact ha.incoming t ht
  | closeIn i hk =>
      unfold State.deleteIncoming at hids ⊢
      split at hids
      · exact ha
      · exact ⟨hids, fun t ht => ha.incoming t (List.mem_of_mem_eraseIdx ht), ha.offered⟩
  | closeOut i hk =>
      unfold State.deleteOutgoing at hids ⊢
      split at hids
      · exact ha
      · exact ⟨hids, ha.incoming, ha.offered⟩
  | _ => exact ⟨hids, ha.incoming, ha.offered⟩

/-- **The moves of the client, and the starts of the server, keep the property.** -/
theorem Move.exclusive {s s' : State} (h : Move Kind.NoRelease s s') (ha : Addressed s)
    (hx : s.Exclusive) : s'.Exclusive := by
  have hid : ∀ l : List Transfer,
      l.map (fun t => s'.peerId t.peer) = l.map fun t => s.peerId t.peer :=
    fun l => List.map_congr_left fun t _ => h.frame.peerId t.peer
  cases h with
  | touchIn i f hf =>
      refine ⟨?_, fun t ht => ?_⟩
      · rw [hid, map_modify_same (g := fun t => s.peerId t.peer) fun t =>
          congrArg s.peerId (hf t).1]
        exact hx.nodup
      · obtain ⟨u, hu, rfl | rfl⟩ := mem_modify ht
        · exact hx.busy t hu
        · rw [(hf u).1]
          exact hx.busy u hu
  | openIn q p hq hp hav hno hk =>
      -- an available peer is one that no transfer of the client is with
      have hnew : ∀ t ∈ s.incoming, t.peer ≠ p := by
        intro t ht heq
        have h₀ := hx.busy t ht
        rw [heq, hav] at h₀
        cases h₀
      refine ⟨?_, fun t ht => ?_⟩
      · rw [hid]
        refine List.nodup_cons.2 ⟨fun hmem => ?_, hx.nodup⟩
        obtain ⟨t, ht, heq⟩ := List.mem_map.1 hmem
        exact hnew t ht (ha.ids t.peer p (ha.incoming t ht) (ha.offered q p hp) heq)
      · rcases List.mem_cons.1 ht with rfl | ht
        · exact cell_setAvailable_self (s.tick 1) p 0
        · exact (cell_setAvailable_of_ne (s.tick 1) 0 (hnew t ht)).trans (hx.busy t ht)
  | closeIn i hk =>
      cases hi : s.incoming[i]? with
      | none =>
          unfold State.deleteIncoming
          rw [hi]
          exact hx
      | some t =>
          rw [State.deleteIncoming_eq hi] at hid ⊢
          refine ⟨?_, fun u hu => ?_⟩
          · rw [hid, ← List.eraseIdx_map]
            exact hx.nodup.eraseIdx i
          · have hne : u.peer ≠ t.peer := fun heq =>
              ne_of_mem_eraseIdx hx.nodup hi hu (congrArg s.peerId heq)
            exact (cell_setAvailable_of_ne s 1 hne).trans (hx.busy u (List.mem_of_mem_eraseIdx hu))
  | openOut t ht hk =>
      refine ⟨?_, fun u hu => ?_⟩
      · rw [hid]
        exact hx.nodup
      · by_cases heq : u.peer = t.peer
        · rw [heq]
          exact cell_setAvailable_self (s.tick 1) t.peer 0
        · exact (cell_setAvailable_of_ne (s.tick 1) 0 heq).trans (hx.busy u hu)
  | closeOut i hk => exact absurd rfl hk
  | _ => exact ⟨hx.nodup, hx.busy⟩

theorem Moves.addressed {may : Kind → Prop} {s s' : State} (h : Moves may s s')
    (ha : Addressed s) : Addressed s' := by
  induction h with
  | refl => exact ha
  | tail _ hm ih => exact hm.addressed ih

theorem Moves.exclusive {s s' : State} (h : Moves Kind.NoRelease s s') (ha : Addressed s)
    (hx : s.Exclusive) : s'.Exclusive := by
  induction h with
  | refl => exact hx
  | tail hs hm ih => exact hm.exclusive (Moves.addressed hs ha) ih

/-! ### Storing, checking and reading -/

/-- What lies between two states when nothing but the contents of chunks and the lists of chunks
changed. -/
structure Quiet (s s' : State) : Prop where
  peers : s'.peers = s.peers
  incoming : s'.incoming = s.incoming
  offered : ∀ q, ∀ p ∈ (s'.chunks.cell q).peer, p ∈ (s.chunks.cell q).peer

namespace Quiet

variable {s s' s'' : State}

theorem refl (s : State) : Quiet s s := ⟨rfl, rfl, fun _ _ h => h⟩

theorem trans (h : Quiet s s') (h' : Quiet s' s'') : Quiet s s'' :=
  ⟨h'.peers.trans h.peers, h'.incoming.trans h.incoming,
    fun q p hp => h.offered q p (h'.offered q p hp)⟩

theorem addressed (h : Quiet s s') (ha : Addressed s) : Addressed s' := by
  refine ⟨?_, ?_, ?_⟩
  · unfold State.peerId
    rw [h.peers]
    exact ha.ids
  · rw [h.peers, h.incoming]
    exact ha.incoming
  · rw [h.peers]
    exact fun q p hp => ha.offered q p (h.offered q p hp)

theorem exclusive (h : Quiet s s') (hx : s.Exclusive) : s'.Exclusive := by
  refine ⟨?_, ?_⟩
  · unfold State.peerId
    rw [h.peers, h.incoming]
    exact hx.nodup
  · rw [h.peers, h.incoming]
    exact hx.busy

theorem modifyChunk (s : State) (q : ℕ) {f : Chunk → Chunk}
    (hf : (f (s.chunks.cell q)).peer = (s.chunks.cell q).peer) : Quiet s (s.modifyChunk q f) := by
  refine ⟨rfl, rfl, fun r p hp => ?_⟩
  rw [State.modifyChunk, Heap.cell_modify] at hp
  split at hp
  · rename_i hrq
    rw [hrq, hf] at hp
    rw [hrq]
    exact hp
  · exact hp

theorem checkAllReceived (s : State) : Quiet s (checkAllReceived s) := by
  unfold P2P.checkAllReceived
  split
  · exact ⟨rfl, rfl, fun _ _ h => h⟩
  · exact refl s

theorem finishChunk (shahash : List UInt8 → BinHash) (s : State) (q : ℕ) :
    Quiet s (finishChunk shahash s q) := by
  obtain ⟨-, heq⟩ | ⟨-, -, heq⟩ | ⟨-, i, r, -, -, -, heq⟩ := finishChunk_cases shahash s q
  · rw [heq]
    exact modifyChunk s q rfl
  · rw [heq]
    exact checkAllReceived s
  · rw [heq]
    have haccept : Quiet s (s.accept i q) := ⟨rfl, rfl, fun _ _ h => h⟩
    exact haccept.trans (checkAllReceived (s.accept i q))

theorem wantLine (s : State) (line : UInt32 × HexHash) : Quiet s (wantLine s line) := by
  unfold P2P.wantLine
  split
  · refine ⟨rfl, rfl, fun q p hp => ?_⟩
    simp only [Heap.alloc] at hp
    split at hp
    · exact absurd hp List.not_mem_nil
    · exact hp
  · rename_i q _
    have hid := modifyChunk s q (f := fun c => { c with id := line.1 }) rfl
    exact ⟨hid.peers, hid.incoming, hid.offered⟩

theorem wantLines (s : State) (lines : List (UInt32 × HexHash)) :
    Quiet s (lines.foldl P2P.wantLine s) := by
  induction lines generalizing s with
  | nil => exact refl s
  | cons line lines ih => exact (wantLine s line).trans (ih _)

end Quiet

/-- What every step but the ends of the server does to the property. -/
def Harmless (s s' : State) : Prop := Addressed s → Addressed s' ∧ (s.Exclusive → s'.Exclusive)

theorem Harmless.trans {s s' s'' : State} (h : Harmless s s') (h' : Harmless s' s'') :
    Harmless s s'' :=
  fun ha => ⟨(h' (h ha).1).1, fun hx => (h' (h ha).1).2 ((h ha).2 hx)⟩

theorem Moves.harmless {s s' : State} (h : Moves Kind.NoRelease s s') : Harmless s s' :=
  fun ha => ⟨h.addressed ha, h.exclusive ha⟩

theorem Quiet.harmless {s s' : State} (h : Quiet s s') : Harmless s s' :=
  fun ha => ⟨h.addressed ha, h.exclusive⟩

theorem harmless_receiveDATA {shahash : List UInt8 → BinHash} {s s' : State} {pack : Packet}
    {peer : ℕ} (h : receiveDATA shahash s pack peer = .ok s') : Harmless s s' := by
  obtain ⟨-, rfl⟩ | ⟨i, t, c, hfind, hstore, s₁, hs₁, hend⟩ := receiveDATA_cases h
  · exact (Quiet.refl s').harmless
  · have hpeer : c.peer = (s.chunks.cell t.c).peer := by
      obtain ⟨-, ⟨-, rfl⟩ | ⟨-, -, -, rfl⟩⟩ := storeData_cases hstore <;> rfl
    have hmoves : Moves Kind.NoRelease (s.modifyChunk t.c fun _ => c) s₁ :=
      hs₁ ▸ moves_sendACK _ _ _
    have h₁ := (Quiet.modifyChunk s t.c (f := fun _ => c) hpeer).harmless.trans hmoves.harmless
    rcases hend with ⟨-, rfl⟩ | ⟨-, rfl⟩
    · exact h₁
    · exact (h₁.trans (Quiet.finishChunk shahash s₁ t.c).harmless).trans
        (moves_afterFinish nofun nofun _ i : Moves Kind.NoRelease _ _).harmless

/-! ### The ends of the server -/

/-- **What freeing some peers does**: the property is left if and only if the client has no transfer
with any of them. -/
theorem exclusive_freed_iff {s s' : State} {D : ℕ → Prop} (hx : s.Exclusive)
    (hin : s'.incoming = s.incoming) (hid : ∀ p, s'.peerId p = s.peerId p)
    (hfree : ∀ p, D p → (s'.peers.cell p).available = 1)
    (hkeep : ∀ p, ¬ D p → (s'.peers.cell p).available = (s.peers.cell p).available) :
    s'.Exclusive ↔ ∀ u ∈ s.incoming, ¬ D u.peer := by
  constructor
  · intro hx' u hu hD
    have h₀ := hx'.busy u (hin ▸ hu)
    rw [hfree u.peer hD] at h₀
    cases h₀
  · intro hD
    refine ⟨?_, fun u hu => ?_⟩
    · simp only [hin, hid]
      exact hx.nodup
    · rw [hin] at hu
      rw [hkeep u.peer (hD u hu)]
      exact hx.busy u hu

/-- The end of one transfer of the server. -/
theorem exclusive_deleteOutgoing_iff {s : State} (hx : s.Exclusive) {i : ℕ} {t : Transfer}
    (hi : s.outgoing[i]? = some t) :
    (s.deleteOutgoing i).Exclusive ↔ ∀ u ∈ s.incoming, u.peer ≠ t.peer := by
  rw [State.deleteOutgoing_eq hi]
  refine exclusive_freed_iff (D := fun p => p = t.peer) hx rfl (peerId_setAvailable s t.peer 1)
    ?_ ?_
  · rintro p rfl
    exact cell_setAvailable_self s t.peer 1
  · exact fun p hp => cell_setAvailable_of_ne s 1 hp

/-- A transfer with the peer `p`, at position `i + k`, is one that the timeout handler ends if it
gets there from position `i`: for each transfer it reads the clock twice. -/
def State.Dying (s : State) (i p : ℕ) : Prop :=
  ∃ k t, s.outgoing[i + k]? = some t ∧ timeoutTransfer (fun j => s.clock (2 * k + j)) t = none ∧
    t.peer = p

theorem not_dying {s : State} {i : ℕ} (h : s.outgoing[i]? = none) (p : ℕ) : ¬ s.Dying i p := by
  rintro ⟨k, t, hk, -⟩
  have hlen := List.getElem?_eq_none_iff.1 h
  rw [List.getElem?_eq_none (by omega)] at hk
  cases hk

/-- The transfer at position `i` dies, or, after two more readings of the clock, a later one. -/
theorem dying_iff {s s' : State} {i i' p : ℕ} {t : Transfer} (hi : s.outgoing[i]? = some t)
    (hclock : s'.clock = fun j => s.clock (2 + j))
    (hrest : ∀ k, s'.outgoing[i' + k]? = s.outgoing[i + 1 + k]?) :
    s.Dying i p ↔ timeoutTransfer s.clock t = none ∧ t.peer = p ∨ s'.Dying i' p := by
  have hread : ∀ k, (fun j => s'.clock (2 * k + j)) = fun j => s.clock (2 * (k + 1) + j) := by
    intro k
    funext j
    rw [hclock, Nat.mul_add, Nat.add_right_comm, Nat.add_comm _ (2 * 1)]
  constructor
  · rintro ⟨k, u, hu, hdead, hp⟩
    cases k with
    | zero =>
        rw [Nat.add_zero, hi] at hu
        cases hu
        simp only [Nat.mul_zero, Nat.zero_add] at hdead
        exact Or.inl ⟨hdead, hp⟩
    | succ k =>
        refine Or.inr ⟨k, u, ?_, by rw [hread]; exact hdead, hp⟩
        rw [hrest, Nat.add_right_comm]
        exact hu
  · rintro (⟨hdead, hp⟩ | ⟨k, u, hu, hdead, hp⟩)
    · exact ⟨0, t, hi, by simpa only [Nat.mul_zero, Nat.zero_add] using hdead, hp⟩
    · rw [hrest, Nat.add_right_comm] at hu
      rw [hread] at hdead
      exact ⟨k + 1, u, hu, hdead, hp⟩

theorem serverTimeoutLoop_dead {fuel i : ℕ} {s : State} {t : Transfer}
    (hi : s.outgoing[i]? = some t) (ht : timeoutTransfer s.clock t = none) :
    serverTimeoutLoop (fuel + 1) i s =
      serverTimeoutLoop fuel i ((s.tick 2).deleteOutgoing i) := by
  rw [serverTimeoutLoop, hi]
  simp only [ht]

theorem serverTimeoutLoop_alive {fuel i : ℕ} {s : State} {t t' : Transfer}
    (hi : s.outgoing[i]? = some t) (ht : timeoutTransfer s.clock t = some t') :
    serverTimeoutLoop (fuel + 1) i s =
      serverTimeoutLoop fuel (i + 1) { s.tick 2 with outgoing := s.outgoing.set i t' } := by
  rw [serverTimeoutLoop, hi]
  simp only [ht]

/-- **What the timeout handler of the server frees**: the peers of the transfers that die, and no
others. -/
theorem serverTimeoutLoop_frees {fuel i : ℕ} {s : State} (h : s.outgoing.length ≤ i + fuel) :
    (serverTimeoutLoop fuel i s).incoming = s.incoming ∧ ∀ p,
      (s.Dying i p → ((serverTimeoutLoop fuel i s).peers.cell p).available = 1) ∧
      (¬ s.Dying i p → ((serverTimeoutLoop fuel i s).peers.cell p).available =
        (s.peers.cell p).available) := by
  induction fuel generalizing i s with
  | zero =>
      have hnone : s.outgoing[i]? = none := List.getElem?_eq_none h
      exact ⟨rfl, fun p => ⟨fun hd => absurd hd (not_dying hnone p), fun _ => rfl⟩⟩
  | succ fuel ih =>
      cases hi : s.outgoing[i]? with
      | none =>
          rw [serverTimeoutLoop, hi]
          exact ⟨rfl, fun p => ⟨fun hd => absurd hd (not_dying hi p), fun _ => rfl⟩⟩
      | some t =>
          have hlt : i < s.outgoing.length := (List.getElem?_eq_some_iff.1 hi).1
          cases hto : timeoutTransfer s.clock t with
          | none =>
              -- the node is deleted, so the next one takes its position
              rw [serverTimeoutLoop_dead hi hto]
              set s₁ := (s.tick 2).deleteOutgoing i with hs₁
              have heq := State.deleteOutgoing_eq (s := s.tick 2) hi
              rw [← hs₁] at heq
              have hout : s₁.outgoing = s.outgoing.eraseIdx i := by rw [heq]; rfl
              have hrest : ∀ k, s₁.outgoing[i + k]? = s.outgoing[i + 1 + k]? := by
                intro k
                rw [hout, List.getElem?_eraseIdx_of_ge (Nat.le_add_right i k), Nat.add_right_comm]
              have hlen : s₁.outgoing.length ≤ i + fuel := by
                rw [hout, List.length_eraseIdx_of_lt hlt]
                omega
              obtain ⟨hin, hav⟩ := ih hlen
              refine ⟨hin.trans (by rw [heq]; rfl), fun p => ?_⟩
              have hself : p = t.peer → (s₁.peers.cell p).available = 1 := by
                rintro rfl
                rw [heq]
                exact cell_setAvailable_self (s.tick 2) t.peer 1
              have hne : p ≠ t.peer → (s₁.peers.cell p).available = (s.peers.cell p).available := by
                intro hp
                rw [heq]
                exact cell_setAvailable_of_ne (s.tick 2) 1 hp
              rw [dying_iff hi (by rw [heq]; rfl) hrest]
              refine ⟨?_, fun hno => ?_⟩
              · rintro (⟨-, hp⟩ | hlater)
                · by_cases hlater : s₁.Dying i p
                  · exact (hav p).1 hlater
                  · exact ((hav p).2 hlater).trans (hself hp.symm)
                · exact (hav p).1 hlater
              · have hp : p ≠ t.peer := fun hp => hno (Or.inl ⟨hto, hp.symm⟩)
                exact ((hav p).2 fun hlater => hno (Or.inr hlater)).trans (hne hp)
          | some t' =>
              -- the node stays, with the same peer: the loop goes on behind it
              rw [serverTimeoutLoop_alive hi hto]
              have hrest : ∀ k, (s.outgoing.set i t')[i + 1 + k]? = s.outgoing[i + 1 + k]? :=
                fun k => List.getElem?_set_ne (by omega)
              have hlen : (s.outgoing.set i t').length ≤ i + 1 + fuel := by
                rw [List.length_set]
                omega
              obtain ⟨hin, hav⟩ := ih (s := { s.tick 2 with outgoing := s.outgoing.set i t' }) hlen
              refine ⟨hin, fun p => ?_⟩
              have hiff : s.Dying i p ↔ timeoutTransfer s.clock t = none ∧ t.peer = p ∨
                  State.Dying { s.tick 2 with outgoing := s.outgoing.set i t' } (i + 1) p :=
                dying_iff hi rfl hrest
              rw [hiff]
              refine ⟨?_, fun hno => (hav p).2 fun hlater => hno (Or.inr hlater)⟩
              rintro (⟨hdead, -⟩ | hlater)
              · rw [hto] at hdead
                cases hdead
              · exact (hav p).1 hlater

/-! ### Steps -/

/-- **The exact condition on a step.** -/
theorem step_exclusive_iff {shahash : List UInt8 → BinHash} {s s' : State} {e : Event}
    (ha : Addressed s) (hx : s.Exclusive) (he : step shahash s e = .ok s') :
    Addressed s' ∧ (ClosesAlone s e ↔ s'.Exclusive) := by
  have hharm : Harmless s s' → ClosesAlone s e → Addressed s' ∧ (ClosesAlone s e ↔ s'.Exclusive) :=
    fun h hc => ⟨(h ha).1, fun _ => (h ha).2 hx, fun _ => hc⟩
  have hother : ∀ src pack, pack.type ≠ .ack → ClosesAlone s (.packet src pack) :=
    fun _ _ hne _ _ _ _ hack => absurd hack hne
  cases handled_of_step he with
  | userGet chunkFile outputFile lines =>
      refine hharm ?_ trivial
      have hnames : Quiet s
          { s with userGetChunkFile := chunkFile, userOutputFilename := outputFile } :=
        ⟨rfl, rfl, fun _ _ h => h⟩
      have hread := (hnames.trans (Quiet.wantLines _ lines)).trans (Quiet.checkAllReceived _)
      exact hread.harmless.trans (moves_sendWHOHAS _ : Moves Kind.NoRelease _ _).harmless
  | clientTimeout =>
      have hmoves : Moves Kind.NoRelease s (handleClientTimeout s) :=
        moves_handleClientTimeout nofun nofun s
      exact hharm hmoves.harmless trivial
  | serverTimeout =>
      have hmoves : Moves Kind.Any s (handleServerTimeout s) := moves_handleServerTimeout trivial s
      obtain ⟨hin, hav⟩ :=
        serverTimeoutLoop_frees (s := s) (i := 0) (Nat.le_of_eq (Nat.zero_add _).symm)
      refine ⟨hmoves.addressed ha, ?_⟩
      have hiff := exclusive_freed_iff hx hin hmoves.frame.peerId (fun p => (hav p).1)
        fun p => (hav p).2
      refine Iff.trans ?_ hiff.symm
      constructor
      · rintro hc u hu ⟨k, t, hk, hdead, hp⟩
        rw [Nat.zero_add] at hk
        exact hc k t hk hdead u hu hp.symm
      · intro hno k t hk hdead u hu hp
        exact hno u hu ⟨k, t, by rw [Nat.zero_add]; exact hk, hdead, hp.symm⟩
  | stranger src pack hp =>
      refine hharm (Quiet.refl s).harmless fun peer i t hpeer => ?_
      rw [hp] at hpeer
      cases hpeer
  | whohas src pack peer s' hp ht hr =>
      exact hharm (moves_receiveWHOHAS hr : Moves Kind.NoRelease _ _).harmless
        (hother src pack (by rw [ht]; nofun))
  | ihave src pack peer hp ht =>
      have hmoves : Moves Kind.NoRelease s (receiveIHAVE s pack peer) :=
        moves_receiveIHAVE nofun pack (findPeer_lt hp)
      exact hharm hmoves.harmless (hother src pack (by rw [ht]; nofun))
  | get src pack peer hp ht =>
      exact hharm (moves_receiveGET nofun s pack peer : Moves Kind.NoRelease _ _).harmless
        (hother src pack (by rw [ht]; nofun))
  | denied src pack peer hp ht =>
      exact hharm (moves_receiveDENIED nofun s peer : Moves Kind.NoRelease _ _).harmless
        (hother src pack (by rw [ht]; nofun))
  | data src pack peer s' hp ht hr =>
      exact hharm (harmless_receiveDATA hr) (hother src pack (by rw [ht]; nofun))
  | ack src pack peer hp ht =>
      by_cases hends : pack.ackNum.toNat = maxSeqNum ∧ (s.findOutgoing peer).isSome
      · -- the last piece was acknowledged, so the transfer with the sender ends
        obtain ⟨hlast, hsome⟩ := hends
        obtain ⟨⟨i, t⟩, hfind⟩ := Option.isSome_iff_exists.1 hsome
        have hi := (State.findOutgoing_getElem? hfind).1
        have hs' : receiveACK s pack peer = s.deleteOutgoing i := by
          simp only [receiveACK, hfind, ackTransfer, if_pos hlast]
        have hiff := exclusive_deleteOutgoing_iff hx hi
        rw [hs']
        have hmove : Move Kind.Any s (s.deleteOutgoing i) := .closeOut s i trivial
        refine ⟨hmove.addressed ha, Iff.trans ?_ hiff.symm⟩
        constructor
        · exact fun hc => hc peer i t hp ht hlast hfind
        · intro hno p j u hpeer _ _ hu
          rw [hp] at hpeer
          cases hpeer
          rw [hfind] at hu
          cases hu
          exact hno
      · have hmoves : Moves Kind.NoRelease s (receiveACK s pack peer) :=
          moves_receiveACK fun hlast i t hfind => absurd ⟨hlast, by rw [hfind]; rfl⟩ hends
        refine hharm hmoves.harmless ?_
        intro p i t hpeer _ hlast hfind
        rw [hp] at hpeer
        cases hpeer
        exact absurd ⟨hlast, by rw [hfind]; rfl⟩ hends

/-- The peers of a set-up are told apart by their identifiers, if the configuration does so. -/
theorem addressed_peerSetup {setup : Setup} (h : (setup.peers.map Prod.fst).Nodup) (clock : ℕ → ℕ)
    (junk : ℕ → Packet) : Addressed (peerSetup setup clock junk) := by
  have hnext : (peerSetup setup clock junk).peers.next = setup.peers.length := by
    simp [peerSetup]
  have hid : ∀ p < setup.peers.length, (setup.peers.map Prod.fst)[p]? =
      some ((peerSetup setup clock junk).peerId p) := by
    intro p hp
    simp [peerSetup, State.peerId, Heap.ofList, hp]
  refine ⟨?_, fun _ ht => absurd ht List.not_mem_nil, ?_⟩
  · intro p p' hp hp' heq
    rw [hnext] at hp hp'
    refine (List.getElem?_inj (by rw [List.length_map]; exact hp) h).1 ?_
    rw [hid p hp, hid p' hp', heq]
  · intro q p hp
    have hnil : ((peerSetup setup clock junk).chunks.cell q).peer = [] := by
      have hown : ∀ line, (ownChunk setup.master line).peer = [] := by
        intro line
        unfold ownChunk
        split <;> rfl
      simp only [peerSetup, Heap.ofList, List.getD, List.getElem?_map]
      cases setup.own[q]? with
      | none => rfl
      | some line => exact hown line
    rw [hnil] at hp
    exact absurd hp List.not_mem_nil

/-- **One transfer of the client for each peer.**  When the configuration tells its peers apart, a
run passes through states with exclusive transfers only, if and only if the server never closes a
transfer with a peer that the client has a transfer with. -/
theorem incoming_exclusive_iff (shahash : List UInt8 → BinHash) (setup : Setup) (clock : ℕ → ℕ)
    (junk : ℕ → Packet) (hids : (setup.peers.map Prod.fst).Nodup) (es : List Event) (u : State)
    (hrun : Machine.run (step shahash) (peerSetup setup clock junk) es = .ok u) :
    Machine.Along (step shahash) ClosesAlone (peerSetup setup clock junk) es ↔
      ∀ s, Machine.Visits (step shahash) (peerSetup setup clock junk) es s → s.Exclusive :=
  Machine.along_iff (fun _ _ _ ha hx he _ => (step_exclusive_iff ha hx he).1)
    (fun _ _ _ ha hx he => (step_exclusive_iff ha hx he).2) (addressed_peerSetup hids clock junk)
    ⟨List.nodup_nil, fun _ ht => absurd ht List.not_mem_nil⟩ hrun

/-- A peer that owns a chunk and knows one other peer. -/
def bothSides : Setup := ⟨[(1, ⟨0, 1111⟩), (2, ⟨0, 2222⟩)], 1, 1, [(0, onesHex)], none⟩

/-- The hash text `2222…22`. -/
def twosHex : HexHash := Vector.replicate hexHashSize 50

/-- Two chunks are requested, the other peer offers both, and one of them is fetched from it; then
it asks for the chunk that is owned. -/
def crossing : List Event :=
  [.userGet "a" "b" [(0, zeroHex), (1, twosHex)],
    .packet ⟨0, 2222⟩ (ihavePacket zeroPacket [binHashOf zeroHex, binHashOf twosHex]),
    .packet ⟨0, 2222⟩ (getPacket zeroPacket (binHashOf onesHex) 1)]

/-- As long as the server closes nothing, the transfers are exclusive. -/
theorem incoming_exclusive_crossing : ∃ u, Machine.run (step headHash)
      (peerSetup bothSides (fun _ => 0) fun _ => zeroPacket) crossing = .ok u ∧
    (Machine.Along (step headHash) ClosesAlone
        (peerSetup bothSides (fun _ => 0) fun _ => zeroPacket) crossing ↔
      ∀ s, Machine.Visits (step headHash) (peerSetup bothSides (fun _ => 0) fun _ => zeroPacket)
        crossing s → s.Exclusive) :=
  ⟨_, rfl, incoming_exclusive_iff headHash bothSides (fun _ => 0) (fun _ => zeroPacket) (by decide)
    crossing _ rfl⟩

/-- **Two transfers with one peer.**  When the other peer has acknowledged what it asked for, it
counts as available, and the second chunk is requested from it too. -/
theorem incoming_not_exclusive : ∃ s, Machine.run (step headHash)
      (peerSetup bothSides (fun _ => 0) fun _ => zeroPacket)
      (crossing ++ [.packet ⟨0, 2222⟩ (ackPacket zeroPacket 525), .clientTimeout]) = .ok s ∧
    ¬ s.Exclusive := by
  refine ⟨_, rfl, fun h => absurd h.nodup ?_⟩
  have htwice : ∀ l : List ℤ, l = [2, 2] → ¬ l.Nodup := by
    rintro _ rfl
    decide
  exact htwice _ rfl

end P2P
