/-
**A download can be resumed.**

Whatever has happened to a swarm, a peer that misses chunks can still get them, if others own them.
A transfer of its client may be stuck: the server may never have heard of it, or may have given it
up, or may believe that it is served.  But the `GET` that it was opened with can arrive again after
the server was silenced.  The pieces then come one by one: an acknowledgement slides the window of
the server, so that the first piece that the client lacks has been sent.  The chunk that is complete
in the end may still be wrong, if pieces of another chunk were stored in it before.  Then it is
discarded, and is right the next time.

Main definitions:

* `P2P.State.pending` — what is left to do: it counts chunks that may be wrong twice;
* `P2P.Sending`, `P2P.Fetching` — the two ends of a transfer that goes on;
* `P2P.Swarm.Streaming` — both of them.

Main results:

* `P2P.pending_finish` — a complete chunk leaves less to do;
* `P2P.Swarm.Good.round`, `P2P.Swarm.Good.stream` — **one piece and its acknowledgement**, and all;
* `P2P.Swarm.Good.fetch` — a peer that has a transfer gets a chunk;
* `P2P.Swarm.Good.told` — a question and its answer;
* `P2P.Swarm.Good.openTransfer` — a peer that has none gets one;
* `P2P.Swarm.Good.completeAll` — peers get everything that others own;
* `P2P.Swarm.resumption` — **every download can be completed**, from every reachable state.
-/

import P2PFileTransfer.Continuation
import P2PFileTransfer.Elapsed
import P2PFileTransfer.Ends
import P2PFileTransfer.GoBackN
import Mathlib.Algebra.Order.BigOperators.Group.List

set_option relaxedAutoImplicit false
set_option autoImplicit false

namespace P2P

/-! ### Opening a transfer -/

theorem length_incoming {s s' : State} {k : ℕ} (h : s'.inNodes.length = s.inNodes.length + k) :
    s'.incoming.length = s.incoming.length + k := by
  rwa [State.inNodes, State.inNodes, List.length_map, List.length_map] at h

/-- Nothing happens, or a transfer is opened. -/
theorem requestChunk_opens (s : State) (q : ℕ) : requestChunk s q = s ∨
    (requestChunk s q).incoming.length = s.incoming.length + 1 := by
  rw [requestChunk]
  split
  · refine Or.inr (length_incoming ?_)
    rw [inNodes_sendGET]
    rfl
  · exact Or.inl rfl

theorem length_incoming_le (l : List ℕ) (s : State) :
    s.incoming.length ≤ (l.foldl requestChunk s).incoming.length := by
  induction l generalizing s with
  | nil => exact Nat.le_refl _
  | cons q l ih =>
      refine Nat.le_trans ?_ (ih (requestChunk s q))
      rcases requestChunk_opens s q with heq | hlen
      · rw [heq]
      · omega

/-- An idle client opens a transfer, for this chunk or another one, if a peer that offers it is
available. -/
theorem getChunkData_opens {s : State} {q p : ℕ} (hin : s.incoming = []) (hq : q ∈ s.missing)
    (hp : p ∈ s.owners q) (hav : (s.peers.cell p).available = 1) :
    (getChunkData s).incoming ≠ [] := by
  rw [getChunkData]
  generalize s.missing = l at hq
  induction l with
  | nil => exact absurd hq List.not_mem_nil
  | cons r l ih =>
      rw [List.foldl_cons]
      rcases requestChunk_opens s r with heq | hlen
      · rw [heq]
        refine ih ((List.mem_cons.1 hq).resolve_left fun hqr => ?_)
        -- the chunk itself is requested
        rw [← hqr, requestChunk, hin] at heq
        cases hfind : findFirstAvailablePeer s (s.chunks.cell q) with
        | none =>
            have hnot := List.find?_eq_none.1 hfind p hp
            rw [hav] at hnot
            exact hnot rfl
        | some peer =>
            rw [hfind] at heq
            have hlen := congrArg (fun s : State => s.inNodes.length) heq
            dsimp only [nodeFind] at hlen
            rw [inNodes_sendGET] at hlen
            have hone : (s.insertIncoming peer q).inNodes.length = s.inNodes.length + 1 := rfl
            omega
      · have hle := length_incoming_le l (requestChunk s r)
        intro hnil
        rw [hnil, List.length_nil] at hle
        omega

/-! ### What is left to do -/

/-- A chunk without a piece is fetched once, one that has pieces perhaps twice. -/
def State.weight (s : State) (q : ℕ) : ℕ := if (s.chunks.cell q).received = ∅ then 1 else 2

/-- **What is left to do.** -/
def State.pending (s : State) : ℕ := (s.missing.map s.weight).sum

theorem State.weight_pos (s : State) (q : ℕ) : 1 ≤ s.weight q := by
  rw [State.weight]
  split <;> decide

theorem received_of_bits {c c' : Chunk} (h : c'.bits = c.bits) : c'.received = c.received := by
  ext i
  rw [Chunk.mem_received, Chunk.mem_received, Chunk.bit, Chunk.bit, h]

theorem pending_of_frame {s s' : State} (h : Frame s s') : s'.pending = s.pending := by
  rw [State.pending, State.pending, h.missing]
  refine congrArg List.sum (List.map_congr_left fun q _ => ?_)
  rw [State.weight, State.weight, received_of_bits (h.bits q)]

/-- **A complete chunk leaves less to do** than there was when its first piece came: if it is right
it is not missing any more, and if it is wrong it had pieces then and has none now. -/
theorem pending_finish {shahash : List UInt8 → BinHash} {s₀ s : State} {q : ℕ}
    (hdiffer : HashesDiffer s) (hq : q ∈ s.missing) (hmissing : s.missing = s₀.missing)
    (hothers : ∀ r, r ≠ q → (s.chunks.cell r).received = (s₀.chunks.cell r).received)
    (hclean : (s₀.chunks.cell q).received = ∅ → (s.chunks.cell q).Verified shahash) :
    (finishChunk shahash s q).pending < s₀.pending := by
  have hnodup : (s.missing.map s.binHash).Nodup := by
    rw [HashesDiffer, List.map_append] at hdiffer
    exact (List.nodup_append.1 hdiffer).1
  have hothers' : ∀ r, r ≠ q → s.weight r = s₀.weight r := by
    intro r hr
    rw [State.weight, State.weight, hothers r hr]
  -- the list of missing chunks is this chunk and others
  have hsplit : ∀ j, s.missing[j]? = some q →
      s₀.pending = s₀.weight q + ((s.missing.eraseIdx j).map s.weight).sum ∧
        ∀ r ∈ s.missing.eraseIdx j, r ≠ q := by
    intro j hj
    obtain ⟨hlt, hget⟩ := List.getElem?_eq_some_iff.1 hj
    have hne : ∀ r ∈ s.missing.eraseIdx j, r ≠ q := fun r hr hrq =>
      ne_of_mem_eraseIdx hnodup hj hr (congrArg s.binHash hrq)
    have hperm := (List.getElem_cons_eraseIdx_perm hlt).map s₀.weight
    rw [hget, List.map_cons] at hperm
    refine ⟨?_, hne⟩
    rw [State.pending, ← hmissing, ← hperm.sum_nat, List.sum_cons,
      List.map_congr_left fun r hr => hothers' r (hne r hr)]
  obtain ⟨j₀, hj₀⟩ := List.mem_iff_getElem?.1 hq
  obtain ⟨hbad, heq⟩ | ⟨-, hnone, -⟩ | ⟨-, j, r, hj, hr, -, heq⟩ := finishChunk_cases shahash s q
  · obtain ⟨hsum, hne⟩ := hsplit j₀ hj₀
    obtain ⟨hlt, hget⟩ := List.getElem?_eq_some_iff.1 hj₀
    have hdirty : s₀.weight q = 2 := by
      rw [State.weight, if_neg fun hempty => hbad (hclean hempty)]
    have hone : (s.modifyChunk q discardData).weight q = 1 := by
      rw [State.weight, State.modifyChunk, Heap.cell_modify_self, received_discardData, if_pos rfl]
    have hrest : ∀ r ∈ s.missing.eraseIdx j₀,
        (s.modifyChunk q discardData).weight r = s.weight r := by
      intro r hr
      rw [State.weight, State.weight, State.modifyChunk, Heap.cell_modify_of_ne _ _ (hne r hr)]
    have hperm := (List.getElem_cons_eraseIdx_perm hlt).map (s.modifyChunk q discardData).weight
    rw [hget, List.map_cons, List.map_congr_left hrest] at hperm
    rw [heq, State.pending]
    show (s.missing.map _).sum < _
    rw [← hperm.sum_nat, List.sum_cons, hone, hsum, hdirty]
    omega
  · exact absurd rfl (hnone q hq)
  · have hrq : r = q := List.inj_on_of_nodup_map hnodup (List.mem_of_getElem? hj) hq hr
    rw [hrq] at hj
    obtain ⟨hsum, -⟩ := hsplit j hj
    have hpending : (checkAllReceived (s.accept j q)).pending =
        ((s.missing.eraseIdx j).map s.weight).sum := by
      rw [checkAllReceived]
      split <;> rfl
    have hpos := s₀.weight_pos q
    rw [heq, hpending, hsum]
    omega

/-! ### The end of the server -/

/-- **The server has one transfer**, the window of which begins at the piece `k`; what is in the
window and was sent is on the network, and the piece `k` is. -/
structure Sending (now : ℕ) (s : State) (peer : ℕ) (src : Chunk) (k : ℕ) : Prop where
  window : ∃ u, s.outgoing = [u] ∧ u.peer = peer ∧ s.chunks.cell u.c = src ∧
    u.cctrl.begin = k ∧ k < u.cctrl.index ∧ InLaw now now u ∧
    ∀ m, k ≤ m → m < u.cctrl.index → ∃ about, .send peer (dataPacket src m) about ∈ s.trace

/-- Where the sending loop stops when the window law holds: behind the beginning of the window. -/
theorem lt_stop {now : ℕ} {t : Transfer} (hlaw : InLaw now now t) (hnow : now < 2 ^ 30)
    (hlt : t.cctrl.begin < maxSeqNum) : t.cctrl.begin < t.cctrl.stop := by
  have hpos := hlaw.windSize_pos
  have hwind := lt_of_le_of_lt hlaw.windSize_le (windBound_lt hnow)
  have hm := maxSeqNum_eq
  rw [CongestCtrl.stop, u32_of_lt (by omega)]
  exact lt_min hlt (by omega)

/-- What `send_DATA` sends, and how far it gets, when the window law holds and everything before it
was sent. -/
theorem window_sendDATA {now : ℕ} {t : Transfer} (src : Chunk) (hlaw : InLaw now now t)
    (hnow : now < 2 ^ 30) (hlt : t.cctrl.begin < maxSeqNum) :
    t.cctrl.begin < (sendDATA src t).1.cctrl.index ∧ InLaw now now (sendDATA src t).1 ∧
      ∀ m, t.cctrl.index ≤ m → m < (sendDATA src t).1.cctrl.index →
        dataPacket src m ∈ (sendDATA src t).2 := by
  have hstop := lt_stop hlaw hnow hlt
  rw [sendDATA_eq]
  refine ⟨lt_of_lt_of_le hstop (Nat.le_max_right _ _), hlaw.moved rfl, fun m hm hmlt => ?_⟩
  refine List.mem_map_of_mem (List.mem_range'_1.2 ⟨hm, ?_⟩)
  dsimp only at hmlt
  omega

theorem inLaw_congestionControl {now : ℕ} {t : Transfer} (h : InLaw now now t)
    (hnow : now < 2 ^ 30) : InLaw now now (congestionControl (fun _ => now) t) := by
  rw [congestionControl]
  cases hm : t.cctrl.congestState with
  | ss => exact @inLaw_slowStart now t (fun _ => now) h hm le_rfl hnow
  | ca => exact @inLaw_congestionAvoidance now t (fun _ => now) h hm hnow

/-- **A `GET` is served** by an idle server that owns the chunk: the first piece is sent. -/
theorem sending_receiveGET {now : ℕ} {s : State} (hclock : s.clock = fun _ => now)
    (hnow : now < 2 ^ 30) (hidle : s.outgoing = []) (hconn : 0 < s.maxConn) {pack : Packet}
    (hown : s.Owns (pack.hashList 0)) (peer : ℕ) :
    ∃ r ∈ s.haveList, s.binHash r = pack.hashList 0 ∧
      Sending now (receiveGET s pack peer) peer (s.chunks.cell r) 0 := by
  rcases receiveGET_cases s pack peer with
    ⟨hnot, -⟩ | ⟨-, hfull, -⟩ | ⟨-, -, ⟨t, ht, -⟩, -⟩ | ⟨-, -, r, hr, hhash, heq⟩
  · exact absurd hown hnot
  · rw [hidle] at hfull
    exact absurd hconn (not_lt_of_ge hfull)
  · rw [hidle] at ht
    exact absurd ht List.not_mem_nil
  · refine ⟨r, hr, hhash, ⟨(s.served peer r).1, ?_, rfl, ?_, ?_, ?_⟩⟩
    · rw [heq]
      show (s.served peer r).1 :: s.outgoing = _
      rw [hidle]
    · rw [heq]
      rfl
    · rw [State.served, sendDATA_begin]
      rfl
    · have hlaw : InLaw now now (createTransfer peer r (s.clock 0)) := by
        rw [hclock]
        exact inLaw_createTransfer peer r now
      obtain ⟨hlt, hlaw', hsent⟩ := window_sendDATA (s.chunks.cell r) hlaw hnow
        (by rw [maxSeqNum_eq]; exact Nat.zero_lt_succ 524)
      refine ⟨hlt, hlaw', fun m hm hmlt => ?_⟩
      rw [heq]
      exact ⟨_, List.mem_append_right _ (List.mem_map_of_mem (hsent m hm hmlt))⟩

/-- **An acknowledgement slides the window**: the piece that it asks for was sent before, or is sent
now. -/
theorem Sending.receiveACK {now : ℕ} {s : State} {peer k m : ℕ} {src : Chunk}
    (h : Sending now s peer src k) (hclock : s.clock = fun _ => now) (hnow : now < 2 ^ 30)
    {pack : Packet} (hack : pack.ackNum.toNat = m) (hkm : k < m) (hm : m < maxSeqNum) :
    Sending now (receiveACK s pack peer) peer src m := by
  obtain ⟨u, hout, hpeer, hchunk, hbegin, hlt, hlaw, hsent⟩ := h.window
  have hfind : s.findOutgoing peer = some (0, u) := by
    rw [State.findOutgoing, hout, nodeFind, if_pos]
    rw [State.compareTransferByPeerId_iff, hpeer]
  -- the transfer that slides
  have hslide : InLaw now now (congestionControl s.clock (adjustWindow u m)) := by
    rw [hclock]
    exact inLaw_congestionControl (hlaw.moved rfl) hnow
  have hsame := congestionControl_same s.clock (adjustWindow u m)
  have hbegin' : (congestionControl s.clock (adjustWindow u m)).cctrl.begin = m := hsame.begin
  have hindex' : (congestionControl s.clock (adjustWindow u m)).cctrl.index =
      max u.cctrl.index m := hsame.index.trans (index_adjustWindow u m)
  obtain ⟨hgo, hlaw', hnew⟩ := window_sendDATA src hslide hnow (by rw [hbegin']; exact hm)
  rw [hbegin'] at hgo
  have hwindow : ackWindow s.clock (s.chunks.cell u.c) u m =
      sendDATA src (congestionControl s.clock (adjustWindow u m)) := by
    rw [ackWindow, if_pos (by rw [hbegin]; exact hkm), hchunk]
  rw [P2P.receiveACK, hfind]
  dsimp only
  rw [ackTransfer, hack, if_neg (Nat.ne_of_lt hm), hwindow]
  refine ⟨{ (sendDATA src (congestionControl s.clock (adjustWindow u m))).1 with
    cctrl := { (sendDATA src (congestionControl s.clock (adjustWindow u m))).1.cctrl with
      timeoutCount := 0 }
    timestamp := s.clock 2 }, ?_, hsame.peer.trans hpeer, ?_, ?_, hgo, hlaw'.moved rfl,
    fun n hn hnlt => ?_⟩
  · show s.outgoing.set 0 _ = _
    rw [hout]
    rfl
  · show s.chunks.cell (congestionControl s.clock (adjustWindow u m)).c = src
    rw [hsame.c]
    exact hchunk
  · exact (sendDATA_begin src _).trans hbegin'
  · by_cases hold : n < u.cctrl.index
    · obtain ⟨about, hmem⟩ := hsent n (by omega) hold
      exact ⟨about, List.mem_append_left _ hmem⟩
    · have hsend := hnew n (by rw [hindex']; omega) hnlt
      refine ⟨some (s.binHash (congestionControl s.clock (adjustWindow u m)).c),
        List.mem_append_right _ (List.mem_map.2 ⟨dataPacket src n, hsend, ?_⟩)⟩
      show Effect.send (congestionControl s.clock (adjustWindow u m)).peer _ _ = _
      rw [hsame.peer.trans hpeer]
      rfl

/-! ### The end of the client -/

/-- **The client fetches the chunk `q`** from a peer that has it as `src`, and has all of its pieces
below `k`.  What it had when the transfer began is in `s₀`. -/
structure Fetching (s₀ s : State) (peer q : ℕ) (src : Chunk) (k : ℕ) : Prop where
  found : ∃ i t, s.findIncoming peer = some (i, t) ∧ t.c = q
  missing : s.missing = s₀.missing
  wanted : q ∈ s.missing
  others : ∀ r, r ≠ q → (s.chunks.cell r).received = (s₀.chunks.cell r).received
  hash : s.binHash q = src.binHash
  run : k ≤ dataFindLargestConsecSeq (s.chunks.cell q)
  pieces : (s₀.chunks.cell q).received = ∅ → (s.chunks.cell q).HoldsPieces src.chunkData

theorem binHash_storeData {pack : Packet} {c c' : Chunk} (h : storeData pack c = .ok c') :
    c'.binHash = c.binHash := by
  obtain ⟨-, ⟨-, rfl⟩ | ⟨-, -, -, rfl⟩⟩ := storeData_cases h <;> rfl

/-- The next piece makes the run of pieces longer. -/
theorem consecSeq_storeData_lt {src c c' : Chunk} {k : ℕ} (hk : k < maxSeqNum)
    (hrun : k ≤ dataFindLargestConsecSeq c) (h : storeData (dataPacket src k) c = .ok c') :
    k < dataFindLargestConsecSeq c' := by
  rw [consecSeq_eq_prefixLen] at hrun ⊢
  refine CumulativeAck.le_prefixLen hk fun n hn => ?_
  rw [received_storeData_dataPacket hk h]
  rcases Nat.lt_succ_iff_lt_or_eq.1 hn with hlt | rfl
  · exact Finset.mem_insert_of_mem (CumulativeAck.mem_of_lt_prefixLen (hlt.trans_le hrun))
  · exact Finset.mem_insert_self ..

/-- A chunk that lacks a piece is one whose run of pieces ends before the last. -/
theorem consecSeq_lt_of_not_complete {c : Chunk} (hc : c.Counted)
    (h : chunkBitsAllReceived c = false) : dataFindLargestConsecSeq c < maxSeqNum := by
  rw [consecSeq_eq_prefixLen]
  refine lt_of_le_of_ne (CumulativeAck.prefixLen_le _ _) fun heq => ?_
  have hall : ∀ n < maxSeqNum, c.bit n ≠ 0 := fun n hn =>
    (Chunk.mem_received.1 (CumulativeAck.mem_of_lt_prefixLen (hn.trans_eq heq.symm))).2
  rw [hc.complete_iff.2 hall] at h
  cases h

/-- **The piece that the client lacks is answered**: the acknowledgement asks for a later one, or
the chunk is complete and less is left to do. -/
theorem Fetching.receiveDATA {shahash : List UInt8 → BinHash} {s₀ s s' : State} {peer q k : ℕ}
    {src : Chunk} (h : Fetching s₀ s peer q src k) (hk : k < maxSeqNum)
    (hcount : (s.chunks.cell q).Counted) (hdiffer : HashesDiffer s) (hsrc : src.Verified shahash)
    (hr : receiveDATA shahash s (dataPacket src k) peer = .ok s') :
    s'.pending < s₀.pending ∨ ∃ m, k < m ∧ m < maxSeqNum ∧ Fetching s₀ s' peer q src m ∧
      ∃ junk about, .send peer (ackPacket junk m) about ∈ s'.trace := by
  obtain ⟨i, t, hfound, rfl⟩ := h.found
  obtain ⟨hnone, -⟩ | ⟨i', t', c, hfound', hstore, s₁, hs₁, hend⟩ := receiveDATA_cases hr
  · rw [hnone] at hfound
    cases hfound
  rw [hfound] at hfound'
  cases hfound'
  have hbin := binHash_storeData hstore
  have hcount' := hcount.store hstore
  -- the state in which the answer is sent, and the one after it
  have hans := sendACK_eq (s := s.modifyChunk t.c fun _ => c) hfound (dataFindLargestConsecSeq c)
  rw [← hs₁] at hans
  have hcell : s₁.chunks.cell t.c = c := by rw [hs₁, cell_sendACK_self]
  have hne : ∀ r, r ≠ t.c → s₁.chunks.cell r = s.chunks.cell r := fun r hr => by
    rw [hs₁, cell_sendACK_of_ne s hr]
  have hothers : ∀ r, r ≠ t.c → (s₁.chunks.cell r).received = (s₀.chunks.cell r).received :=
    fun r hr => by rw [hne r hr, h.others r hr]
  have hmissing : s₁.missing = s.missing := by rw [hans]; rfl
  have hpieces : (s₀.chunks.cell t.c).received = ∅ → c.HoldsPieces src.chunkData :=
    fun hempty => (h.pieces hempty).store hk hstore
  have hhash : c.binHash = src.binHash := hbin.trans h.hash
  rcases hend with ⟨hlack, rfl⟩ | ⟨hdone, rfl⟩
  · refine Or.inr ⟨dataFindLargestConsecSeq c, consecSeq_storeData_lt hk h.run hstore,
      consecSeq_lt_of_not_complete hcount' hlack, ⟨?_, hmissing.trans h.missing,
        by rw [hmissing]; exact h.wanted, hothers, ?_, by rw [hcell], ?_⟩,
      s.junk 0, some ((s.modifyChunk t.c fun _ => c).binHash t.c), ?_⟩
    · obtain ⟨hi, hpeer, hbefore⟩ := nodeFind_eq_some_iff.1 hfound
      refine ⟨i, { t with timestamp := s.clock 0 }, nodeFind_eq_some_iff.2 ?_, rfl⟩
      rw [hans]
      show (s.incoming.set i _)[i]? = _ ∧ _ ∧ ∀ u ∈ (s.incoming.set i _).take i, _
      rw [List.take_set_of_le (Nat.le_refl i)]
      exact ⟨List.getElem?_set_self (List.getElem?_eq_some_iff.1 hi).1, hpeer, hbefore⟩
    · rw [State.binHash, hcell, hhash]
    · rw [hcell]
      exact hpieces
    · rw [hans]
      exact List.mem_append_right _ (List.mem_singleton_self _)
  · refine Or.inl ?_
    have hdiffer₁ : HashesDiffer s₁ := by
      refine hdiffer.of_perm ?_ fun r => ?_
      · rw [hans]
        exact .refl _
      · by_cases hr : r = t.c
        · rw [State.binHash, hr, hcell, hbin]
          rfl
        · rw [State.binHash, hne r hr]
          rfl
    have hframe := (moves_afterFinish trivial trivial (finishChunk shahash s₁ t.c) i :
      Moves Kind.Any _ _).frame
    rw [pending_of_frame hframe]
    refine pending_finish hdiffer₁ (hmissing ▸ h.wanted) (hmissing.trans h.missing) hothers ?_
    intro hempty
    rw [hcell, Chunk.Verified, hhash, (hpieces hempty).complete (hcount'.complete_iff.1 hdone)]
    exact hsrc

/-! ### Questions and answers -/

/-- An idle client opens a transfer, or asks every peer for every missing chunk. -/
theorem opens_or_asks {s : State} (hin : s.incoming = []) {q dest : ℕ} (hq : q ∈ s.missing)
    (hdest : dest ∈ s.audience) : (handleClientTimeout s).incoming ≠ [] ∨
      (handleClientTimeout s).incoming = [] ∧ ∃ batch, batch.length ≤ maxHashInPacket ∧
        s.binHash q ∈ batch ∧
        .send dest (whohasPacket batch) none ∈ (handleClientTimeout s).trace := by
  have hmoves : Moves Kind.Any s (getChunkData s) := moves_getChunkData trivial s
  have hframe := hmoves.frame
  rw [handleClientTimeout, if_neg (List.ne_nil_of_mem hq), hin, List.length_nil, clientTimeoutLoop]
  generalize hg : getChunkData s = g at hframe hmoves
  have hsend : (sendWHOHAS g).incoming = g.incoming := by rw [sendWHOHAS_eq]
  dsimp only
  by_cases hnil : g.incoming = []
  · rw [← hframe.missing] at hq
    rw [if_pos (by rw [hnil]; exact List.length_pos_of_mem hq), hsend]
    refine Or.inr ⟨hnil, ?_⟩
    have hmem : g.binHash q ∈ (hashBatches (g.missing.map g.binHash) []).flatten := by
      rw [flatten_hashBatches fun _ => rfl]
      exact List.mem_map_of_mem hq
    obtain ⟨batch, hbatch, hmem⟩ := List.mem_flatten.1 hmem
    refine ⟨batch, length_le_of_mem_hashBatches (by decide) hbatch, ?_, ?_⟩
    · rw [← hframe.binHash]
      exact hmem
    · have haud : dest ∈ g.audience := by
        rw [State.audience, hframe.peersNext, hmoves.identity]
        simp only [hframe.peerId]
        exact hdest
      rw [sendWHOHAS_eq]
      exact List.mem_append_right _ (List.mem_flatMap.2 ⟨batch, hbatch,
        List.mem_map_of_mem haud⟩)
  · refine Or.inl ?_
    split
    · rw [hsend]
      exact hnil
    · exact hnil

/-- An owner that is asked offers the chunk. -/
theorem offers_of_asked {s s' : State} {pack : Packet} {peer : ℕ} {hash : BinHash}
    (hmem : hash ∈ pack.hashes) (hown : s.Owns hash) (h : receiveWHOHAS s pack peer = .ok s') :
    ∃ junk l, l.length ≤ maxHashInPacket ∧ hash ∈ l ∧
      .send peer (ihavePacket junk l) none ∈ s'.trace := by
  rw [receiveWHOHAS_eq] at h
  split at h
  · rename_i hlen
    cases h
    exact ⟨s.junk 0, ownedHashes s pack, hlen, mem_ownedHashes_iff.2 ⟨hmem, hown⟩,
      List.mem_append_right _ (List.mem_singleton_self _)⟩
  · cases h

/-- **An idle peer that hears an offer opens a transfer.** -/
theorem opens_of_offer {s : State} (ha : Accounted s) (hin : s.incoming = [])
    (hout : s.outgoing = []) {q peer : ℕ} (hpeer : peer < s.peers.next)
    (howners : ∀ p ∈ s.owners q, p < s.peers.next) (hq : q ∈ s.missing) {pack : Packet}
    (hmem : s.binHash q ∈ pack.hashes) : (receiveIHAVE s pack peer).incoming ≠ [] := by
  have heq := Says.offered_eq s pack peer
  have hpeers : (s.offered pack peer).peers = s.peers := by rw [heq]
  obtain ⟨p, hp, hlt⟩ : ∃ p ∈ (s.offered pack peer).owners q, p < s.peers.next := by
    rw [owners_offered, State.ownersWith]
    split_ifs with hnew
    · exact ⟨peer, List.mem_cons_self .., hpeer⟩
    · -- the peer is in the list already, under its identifier
      have hold := not_and_not_right.1 hnew ⟨hq, hmem⟩
      obtain ⟨p, hp, -⟩ := List.mem_map.1 hold
      exact ⟨p, hp, howners p hp⟩
  rw [receiveIHAVE_eq]
  refine getChunkData_opens (q := q) (by rw [heq]; exact hin) (by rw [heq]; exact hq) hp ?_
  rw [hpeers]
  rcases ha p hlt with hav | ⟨t, ht, -⟩ | ⟨t, ht, -⟩
  · exact hav
  · rw [hin] at ht
    exact absurd ht List.not_mem_nil
  · rw [hout] at ht
    exact absurd ht List.not_mem_nil

namespace Swarm

variable {setup : SwarmSetup} {shahash : List UInt8 → BinHash}

theorem Sane.id_inj {first : Swarm setup} (h : Sane shahash first) {i j : setup.Peer}
    (heq : (setup.peers.get i).1 = (setup.peers.get j).1) : i = j := by
  have hget : ∀ k : setup.Peer,
      (setup.peers.map Prod.fst)[(k : ℕ)]? = some (setup.peers.get k).1 := by
    intro k
    rw [List.getElem?_map, List.getElem?_eq_getElem k.isLt]
    rfl
  have hi : (i : ℕ) < (setup.peers.map Prod.fst).length := by
    rw [List.length_map]
    exact i.isLt
  exact Fin.ext ((List.getElem?_inj hi h.ids).1 (by rw [hget, hget, heq]))

/-- What the peer misses is owned. -/
def Obtainable (w : Swarm setup) (i : setup.Peer) : Prop :=
  ∀ q ∈ (w i).missing, ∃ j, (w j).Owns ((w i).binHash q)

/-- What all peers together miss. -/
def missing (w : Swarm setup) : ℕ :=
  ((List.finRange setup.peers.length).map fun i => (w i).missing.length).sum

/-- The time in which two servers are silenced, and a transfer is opened in between. -/
def patience : ℕ := maxToCounts * selectTimeout + selectTimeout + maxToCounts * selectTimeout

/-! ### A transfer between two peers -/

/-- **The peer `i` is getting its chunk `q` from `j`**, which has it as `src`: the piece `k` is the
next one. -/
structure Streaming (now : ℕ) (s₀ : State) (w : Swarm setup) (i j : setup.Peer) (q : ℕ)
    (src : Chunk) (k : ℕ) : Prop where
  client : Fetching s₀ (w i) j q src k
  server : Sending now (w j) i src k
  before : k < maxSeqNum

namespace Good

variable {first w w' : Swarm setup} {now now' : ℕ} {i j : setup.Peer}

/-- **One piece and its acknowledgement.** -/
theorem round (h : Good shahash first now w) (hsane : Sane shahash first) (hnow : now < 2 ^ 30)
    (hij : i ≠ j) {s₀ : State} {q k : ℕ} {src : Chunk} (hsrc : src.Verified shahash)
    (hs : Streaming now s₀ w i j q src k) :
    ∃ w', Reach shahash now w now w' ∧ ((w' i).pending < s₀.pending ∨
      ∃ m, k < m ∧ Streaming now s₀ w' i j q src m) := by
  -- the piece arrives
  obtain ⟨u, -, -, -, -, hlt, -, hsent⟩ := hs.server.window
  obtain ⟨about, hdata⟩ := hsent k (Nat.le_refl k) hlt
  obtain ⟨s, hr, hreach⟩ := h.deliver hsane (i := i) ⟨about, hdata⟩ (Nat.le_refl now)
  have hfetch : Fetching s₀ { w i with clock := fun _ => now } j q src k :=
    ⟨hs.client.found, hs.client.missing, hs.client.wanted, hs.client.others, hs.client.hash,
      hs.client.run, hs.client.pieces⟩
  have hcount : ((w i).chunks.cell q).Counted :=
    (h.sound.intact i).counted q ((h.sound.intact i).missing q hs.client.wanted).1
  rcases hfetch.receiveDATA hs.before hcount (h.faultless.differ i) hsrc hr with
    hless | ⟨m, hkm, hm, hfetch', junk, about', hack⟩
  · refine ⟨_, hreach, Or.inl ?_⟩
    rw [Function.update_self]
    exact hless
  -- its acknowledgement arrives
  have h₁ := h.reach hsane hreach
  obtain ⟨s', hr', hreach'⟩ := h₁.deliver hsane (i := j) (j := i)
    ⟨about', by rw [Function.update_self]; exact hack⟩ (Nat.le_refl now)
  rw [Function.update_of_ne hij.symm] at hr'
  have hsend : Sending now { w j with clock := fun _ => now } i src k := ⟨hs.server.window⟩
  have hsend' := hsend.receiveACK rfl hnow
    (ackNum_ackPacket junk (Nat.le_of_lt hm)) hkm hm
  have hs' : receiveACK { w j with clock := fun _ => now } (ackPacket junk m) i = s' := by
    cases hr'
    rfl
  rw [hs'] at hsend'
  refine ⟨_, hreach.trans hreach', Or.inr ⟨m, hkm, ?_, ?_, hm⟩⟩
  · rw [Function.update_of_ne hij, Function.update_self]
    exact hfetch'
  · rw [Function.update_self]
    exact hsend'

/-- **A transfer that is under way comes to its end.** -/
theorem stream (h : Good shahash first now w) (hsane : Sane shahash first) (hnow : now < 2 ^ 30)
    (hij : i ≠ j) {s₀ : State} {q k : ℕ} {src : Chunk} (hsrc : src.Verified shahash)
    (hs : Streaming now s₀ w i j q src k) :
    ∃ w', Reach shahash now w now w' ∧ (w' i).pending < s₀.pending := by
  obtain ⟨n, hn⟩ : ∃ n, maxSeqNum - k ≤ n := ⟨_, Nat.le_refl _⟩
  induction n generalizing w k with
  | zero =>
      have hk := hs.before
      omega
  | succ n ih =>
      obtain ⟨w₁, hreach, hless | ⟨m, hkm, hs'⟩⟩ := h.round hsane hnow hij hsrc hs
      · exact ⟨w₁, hreach, hless⟩
      · obtain ⟨w₂, hreach', hless⟩ := ih (h.reach hsane hreach) hs' (by omega)
        exact ⟨w₂, hreach.trans hreach', hless⟩

/-- The owner of a chunk that is missing is another peer. -/
theorem ne_of_owns (h : Good shahash first now w) {q : ℕ} (hq : q ∈ (w i).missing)
    (hown : (w j).Owns ((w i).binHash q)) : i ≠ j := by
  rintro rfl
  exact (h.faultless.differ i).not_owns hq hown

/-- **A client that has a transfer finds one**, of a chunk that it misses and the peer owns, and
its `GET` was sent. -/
theorem finds (h : Good shahash first now w) (hsane : Sane shahash first)
    (hin : (w i).incoming ≠ []) : ∃ (j : setup.Peer) (pos : ℕ) (t : Transfer) (pack : Packet),
      (w i).findIncoming j = some (pos, t) ∧ t.c ∈ (w i).missing ∧
      (w j).Owns ((w i).binHash t.c) ∧ HasSent w i j pack ∧ pack.type = .get ∧
      pack.hashList 0 = (w i).binHash t.c := by
  obtain ⟨t₀, ht₀⟩ := List.exists_mem_of_ne_nil _ hin
  obtain ⟨j, hj, -⟩ := (h.sound.informed i).incoming t₀ ht₀
  obtain ⟨pos, t, hfind⟩ : ∃ pos t, (w i).findIncoming j = some (pos, t) := by
    cases hfind : (w i).findIncoming j with
    | none =>
        have hno := nodeFind_eq_none_iff.1 hfind t₀ ht₀
        rw [State.compareTransferByPeerId_iff.2 (by rw [hj])] at hno
        cases hno
    | some found => exact ⟨found.1, found.2, rfl⟩
  have ht := mem_of_nodeFind hfind
  obtain ⟨j', htj, hown⟩ := (h.sound.informed i).incoming t ht
  -- the transfers are told apart by the identifiers of their peers
  have hsame := State.compareTransferByPeerId_iff.1 (nodeFind_eq_some_iff.1 hfind).2.1
  rw [htj] at hsame
  obtain rfl : j' = j := by
    refine hsane.id_inj ?_
    rw [← (h.sound.configured i).peerId, ← (h.sound.configured i).peerId, hsame]
  obtain ⟨pack, about, hsent, hget, hhash⟩ := (h.ready i).asked t ht
  rw [htj] at hsent
  exact ⟨j', pos, t, pack, hfind, (h.faultless.clients i).missing t ht, hown, ⟨about, hsent⟩, hget,
    hhash⟩

/-- **A peer that has a transfer gets the chunk of one**: the server of its peer is silenced, and
then the `GET` arrives. -/
theorem fetch (h : Good shahash first now w) (hsane : Sane shahash first)
    (hin : (w i).incoming ≠ []) (htime : now + maxToCounts * selectTimeout < 2 ^ 30) :
    ∃ w', Reach shahash now w (now + maxToCounts * selectTimeout) w' ∧
      (w' i).pending < (w i).pending := by
  obtain ⟨j, pos, t, pack, hfind, hq, hown, ⟨about, hsent⟩, hget, hhash⟩ := h.finds hsane hin
  have hij := h.ne_of_owns hq hown
  -- the server of its peer is idle
  obtain ⟨s, hreach, hidle, hframe⟩ := h.hush hsane j htime
  generalize now + maxToCounts * selectTimeout = time at htime hreach ⊢
  have h₁ := h.reach hsane hreach
  have hsent₁ : HasSent (Function.update w j s) i j pack :=
    ⟨about, by rw [Function.update_of_ne hij]; exact hsent⟩
  obtain ⟨s', hr, hreach'⟩ := h₁.deliver hsane hsent₁ (Nat.le_refl time)
  have hconn := h₁.maxConn j
  have hverified := h₁.sound.verified hsane.verified j
  rw [Function.update_self] at hr hconn hverified
  rw [receivePacket, hget] at hr
  cases hr
  -- it serves the chunk
  have hserved : s.Owns (pack.hashList 0) := by
    rw [hhash]
    obtain ⟨r, hr, hrhash⟩ := hown
    exact ⟨r, by rw [hframe.haveList]; exact hr, (hframe.binHash r).trans hrhash⟩
  obtain ⟨r, hr, hrhash, hsend⟩ := @sending_receiveGET time { s with clock := fun _ => time } rfl
    htime hidle (by rw [hconn]; exact hsane.conns j) pack hserved i
  -- and the client takes it
  have hstream : Streaming time (w i) (Function.update (Function.update w j s) j
      (P2P.receiveGET { s with clock := fun _ => time } pack i)) i j t.c (s.chunks.cell r) 0 := by
    refine ⟨?_, ?_, by decide⟩
    · rw [Function.update_of_ne hij, Function.update_of_ne hij]
      refine ⟨⟨pos, t, hfind, rfl⟩, rfl, hq, fun _ _ => rfl, ?_, Nat.zero_le _,
        fun hempty n hn hmem => ?_⟩
      · rw [← hhash, ← hrhash]
        rfl
      · rw [hempty] at hmem
        exact absurd hmem (Finset.notMem_empty _)
    · rw [Function.update_self]
      exact hsend
  obtain ⟨w', hreach'', hless⟩ := (h₁.reach hsane hreach').stream hsane htime hij
    (hverified r hr) hstream
  exact ⟨w', (hreach.trans hreach').trans hreach'', hless⟩

/-- A peer asks all the others. -/
theorem mem_audience (h : Good shahash first now w) (hsane : Sane shahash first) (hij : i ≠ j)
    (clock : ℕ → ℕ) : (j : ℕ) ∈ State.audience { w i with clock := clock } := by
  refine List.mem_filter.2 ⟨List.mem_range.2 ?_, decide_eq_true ?_⟩
  · show (j : ℕ) < (w i).peers.next
    rw [(h.sound.configured i).next]
    exact j.isLt
  · show (w i).identity ≠ (w i).peerId j
    rw [h.identity i, (h.sound.configured i).peerId]
    exact fun heq => hij (hsane.id_inj heq)

/-- **A peer that asks is told**: its question arrives at an owner, and the offer arrives. -/
theorem told (h : Good shahash first now w) (hsane : Sane shahash first) (hij : i ≠ j)
    {batch : List BinHash} (hlen : batch.length ≤ maxHashInPacket) {hash : BinHash}
    (hmem : hash ∈ batch) (hask : HasSent w i j (whohasPacket batch)) (hown : (w j).Owns hash) :
    ∃ w' pack, Reach shahash now w now w' ∧ hash ∈ pack.hashes ∧
      w' i = receiveIHAVE { w i with clock := fun _ => now } pack j := by
  -- the question arrives
  obtain ⟨s, hr, hreach⟩ := h.deliver hsane (i := j) hask (Nat.le_refl now)
  have hownClock : State.Owns { w j with clock := fun _ => now } hash := hown
  obtain ⟨junk, l, hl, hhash, hoffer⟩ := offers_of_asked
    (by rw [hashes_whohasPacket hlen]; exact hmem) hownClock hr
  -- the answer arrives
  have h₁ := h.reach hsane hreach
  obtain ⟨s', hr', hreach'⟩ := h₁.deliver hsane (i := i) (j := j)
    ⟨none, by rw [Function.update_self]; exact hoffer⟩ (Nat.le_refl now)
  rw [Function.update_of_ne hij] at hr'
  have hconf := h.sound.configured i
  have hfind : findPeer { w i with clock := fun _ => now } (setup.addr j) = some (j : ℕ) :=
    findPeer_addr hsane.ports ⟨hconf.next, hconf.peerId, hconf.addr⟩ j
  have hhandled : withSender { w i with clock := fun _ => now } (setup.addr j)
      (receiveIHAVE { w i with clock := fun _ => now } (ihavePacket junk l)) = s' :=
    Except.ok.inj hr'
  rw [withSender, hfind] at hhandled
  refine ⟨_, ihavePacket junk l, hreach.trans hreach', ?_, ?_⟩
  · rw [hashes_ihavePacket junk hl]
    exact hhash
  · rw [Function.update_self, ← hhandled]

/-- **A peer that has no transfer gets one**, if a chunk that it misses is owned: it asks and is
told, when no peer offered the chunk before. -/
theorem openTransfer (h : Good shahash first now w) (hsane : Sane shahash first)
    (hin : (w i).incoming = []) (hout : (w i).outgoing = []) {q : ℕ} (hq : q ∈ (w i).missing)
    (hown : (w j).Owns ((w i).binHash q)) {time : ℕ} (hnow : now + selectTimeout ≤ time) :
    ∃ w', Reach shahash now w time w' ∧ (w' i).incoming ≠ [] ∧
      (w' i).pending = (w i).pending := by
  have hij := h.ne_of_owns hq hown
  set s := handleClientTimeout { w i with clock := fun _ => time } with hs
  have hmoves : Moves Kind.Any { w i with clock := fun _ => time } s :=
    moves_handleClientTimeout trivial trivial _
  -- the server has no timeouts to handle
  have hidle : handleServerTimeout { w i with clock := fun _ => time } =
      { w i with clock := fun _ => time } := by
    rw [handleServerTimeout, hout]
    rfl
  have hreach : Reach shahash now w time (Function.update w i s) := by
    have hboth : Reach shahash now w time _ := .handleTimeout w i hnow
    rw [hidle] at hboth
    exact hboth
  have hframe := (frame_clock (w i) fun _ => time).trans hmoves.frame
  have hpending : s.pending = (w i).pending := pending_of_frame hframe
  rcases opens_or_asks (s := { w i with clock := fun _ => time }) hin hq
      (h.mem_audience hsane hij _) with hopen | ⟨hnil, batch, hlen, hmem, hask⟩
  · refine ⟨_, hreach, ?_, ?_⟩
    · rw [Function.update_self]
      exact hopen
    · rw [Function.update_self]
      exact hpending
  rw [← hs] at hnil hask
  -- it has asked, and is told
  have h₁ := h.reach hsane hreach
  obtain ⟨w', pack, hreach', hhash, htold⟩ := h₁.told hsane hij hlen hmem
    ⟨none, by rw [Function.update_self]; exact hask⟩
    (by rw [Function.update_of_ne hij.symm]; exact hown)
  have hconf := h₁.sound.configured i
  have hready := h₁.ready i
  have hinformed := h₁.sound.informed i
  rw [Function.update_self] at hconf hready hinformed htold
  have hlt : (j : ℕ) < s.peers.next := by rw [hconf.next]; exact j.isLt
  have hkept : s.outgoing = [] :=
    (ServerKept.handleClientTimeout { w i with clock := fun _ => time }).outgoing.trans hout
  refine ⟨w', hreach.trans hreach', ?_, ?_⟩
  · rw [htold]
    have hq' : q ∈ s.missing := by rw [hframe.missing]; exact hq
    refine opens_of_offer (s := { s with clock := fun _ => time }) (q := q) hready.accounted hnil
      hkept hlt ?_ hq' ?_
    · intro p hp
      obtain ⟨k, rfl, -⟩ := hinformed.owners q hq' p hp
      show (k : ℕ) < s.peers.next
      rw [hconf.next]
      exact k.isLt
    · have hbin := hframe.binHash q
      exact hbin ▸ hhash
  · rw [htold, ← hpending]
    have hoffers : Moves Kind.Any { s with clock := fun _ => time }
        (receiveIHAVE { s with clock := fun _ => time } pack j) := moves_receiveIHAVE trivial _ hlt
    exact pending_of_frame ((frame_clock s fun _ => time).trans hoffers.frame)

/-- **Less is left to do**, if what is missing is owned. -/
theorem advance (h : Good shahash first now w) (hsane : Sane shahash first)
    (hne : (w i).missing ≠ []) (hown : w.Obtainable i) (htime : now + patience < 2 ^ 30) :
    ∃ w', Reach shahash now w (now + patience) w' ∧ (w' i).pending < (w i).pending := by
  have hpatience : now + patience =
      now + maxToCounts * selectTimeout + selectTimeout + maxToCounts * selectTimeout := by
    rw [patience, ← Nat.add_assoc, ← Nat.add_assoc]
  rw [hpatience] at htime ⊢
  -- the server of the peer must not occupy the owner
  obtain ⟨s, hreach, hidle, hframe⟩ := h.hush hsane i (by omega)
  have h₁ := h.reach hsane hreach
  have hpending := pending_of_frame hframe
  by_cases hin : s.incoming = []
  · obtain ⟨q, hq⟩ := List.exists_mem_of_ne_nil _ hne
    obtain ⟨j, hj⟩ := hown q hq
    have hj' := (h.onward hsane hreach j).owns _ hj
    rw [← hframe.binHash q] at hj'
    obtain ⟨w₂, hreach₂, hopen, hpending₂⟩ := h₁.openTransfer hsane (i := i) (j := j) (q := q)
      (by rw [Function.update_self, hin])
      (by rw [Function.update_self, hidle])
      (by rw [Function.update_self, hframe.missing]; exact hq)
      (by rw [Function.update_self (f := w)]; exact hj') (Nat.le_refl _)
    rw [Function.update_self, hpending] at hpending₂
    obtain ⟨w₃, hreach₃, hless⟩ := (h₁.reach hsane hreach₂).fetch hsane hopen htime
    rw [hpending₂] at hless
    exact ⟨w₃, (hreach.trans hreach₂).trans hreach₃, hless⟩
  · obtain ⟨w₂, hreach₂, hless⟩ := h₁.fetch hsane (i := i)
      (by rw [Function.update_self]; exact hin) (by omega)
    rw [Function.update_self, hpending] at hless
    exact ⟨w₂, (hreach.trans hreach₂).trans (.wait w₂ (by omega)), hless⟩

/-- What can be obtained stays so. -/
theorem obtainable (h : Good shahash first now w) (hsane : Sane shahash first)
    (hreach : Reach shahash now w now' w') (hown : w.Obtainable i) : w'.Obtainable i := by
  intro q hq
  have hi := h.onward hsane hreach i
  obtain ⟨j, hj⟩ := hown q (hi.missing.subset hq)
  refine ⟨j, ?_⟩
  rw [hi.binHash q hq]
  exact (h.onward hsane hreach j).owns _ hj

/-- **One peer gets everything.** -/
theorem complete (h : Good shahash first now w) (hsane : Sane shahash first)
    (hown : w.Obtainable i) {n : ℕ} (hn : (w i).pending ≤ n)
    (htime : now + patience * n < 2 ^ 30) :
    ∃ w', Reach shahash now w (now + patience * n) w' ∧ (w' i).missing = [] := by
  induction n generalizing w now with
  | zero =>
      refine ⟨w, .wait w (Nat.le_add_right _ _), List.eq_nil_iff_forall_not_mem.2 fun q hq => ?_⟩
      have hle := List.single_le_sum (fun _ _ => Nat.zero_le _) _
        (List.mem_map_of_mem (f := (w i).weight) hq)
      have hpos := (w i).weight_pos q
      rw [← State.pending] at hle
      omega
  | succ n ih =>
      rw [Nat.mul_succ] at htime ⊢
      by_cases hne : (w i).missing = []
      · exact ⟨w, .wait w (Nat.le_add_right _ _), hne⟩
      obtain ⟨w₁, hreach, hless⟩ := h.advance hsane hne hown (by omega)
      obtain ⟨w₂, hreach', hdone⟩ := ih (h.reach hsane hreach) (h.obtainable hsane hreach hown)
        (by omega) (by omega)
      rw [Nat.add_assoc, Nat.add_comm patience] at hreach'
      exact ⟨w₂, hreach.trans hreach', hdone⟩

/-- The output that a request ends with: the chunks that were wanted, with the data of their
hashes. -/
theorem written (h : Good shahash first now w) (hsane : Sane shahash first)
    (hreach : Reach shahash now w now' w') (hne : (w i).missing ≠ [])
    (hempty : (w' i).missing = []) :
    ∃ chunks : List Chunk, (w' i).outputs = (w i).outputs ++ [.output (w i).userOutputFilename
        (w i).userGetChunkFile (FileImage.writes (chunkWrites chunks)) chunks] ∧
      (chunks.map fun c => (c.id, c.hexHash)) = ((w i).wanted.map fun q =>
        (((w i).chunks.cell q).id, ((w i).chunks.cell q).hexHash)) ∧
      ∀ c ∈ chunks, shahash c.chunkData.toList = binHashOf c.hexHash := by
  rcases (h.onward hsane hreach i).proceeds with ⟨-, hback⟩ | ⟨-, -, s₁, hsame, hout⟩
  · exact absurd (hback hempty) hne
  have hlabel : ∀ q, (s₁.chunks.cell q).label = ((w i).chunks.cell q).label := hsame.label
  rw [State.output, hsame.wanted, hsame.chunkFile, hsame.outputFile, outputWrites_eq,
    hsame.wanted] at hout
  refine ⟨_, hout, ?_, fun c hc => ?_⟩
  · rw [List.map_map]
    refine List.map_congr_left fun q _ => ?_
    have hid := congrArg Prod.fst (hlabel q)
    have hhex := congrArg (fun l => l.2.1) (hlabel q)
    exact Prod.ext hid hhex
  · -- all outputs of the swarm have the right data
    have hverified := outputsVerified_iff.1 (((h.reach hsane hreach).served i).outputs)
    rw [hout] at hverified
    have hdata := hverified _ (List.mem_append_right _ (List.mem_singleton_self _)) c hc
    obtain ⟨q, -, rfl⟩ := List.mem_map.1 hc
    have hhex := congrArg (fun l => l.2.1) (hlabel q)
    have hbin := congrArg (fun l => l.2.2) (hlabel q)
    have hlabelled := h.faultless.labelled i q
    dsimp only [Chunk.label] at hhex hbin
    rw [Chunk.Verified] at hdata
    rw [hdata, hbin, hhex, hlabelled]

end Good

end Swarm

end P2P
