/-
**A chunk arrives** (`receive_DATA`, from the first piece to the last).

A client that is sent the pieces of a chunk in order stores each of them and answers with its
number, and checks the chunk after the last.  If it waits for nothing else, the chunk is then in the
have list and the output file is written.

Main definitions:

* `P2P.FirstPieces` — the first pieces of a chunk are there;
* `P2P.Arriving` — they are, for the only transfer of the client.

Main results:

* `P2P.Arriving.step`, `P2P.Arriving.last` — what a piece does, and what the last one does;
* `P2P.Arriving.run`, `P2P.Arriving.arrives` — any number of pieces short of all, and **all
  pieces**;
* `P2P.getChunkData_idle` — an idle client requests one chunk from a peer.
-/

import P2PFileTransfer.Moves
import P2PFileTransfer.Pieces

set_option relaxedAutoImplicit false
set_option autoImplicit false

namespace P2P

/-! ### The first pieces -/

/-- The chunk has the hash of `src`, and the first `k` of its pieces. -/
structure FirstPieces (src : Chunk) (k : ℕ) (c : Chunk) : Prop where
  binHash : c.binHash = src.binHash
  counted : c.Counted
  received : ∀ i, i ∈ c.received ↔ i < k
  pieces : c.HoldsPieces src.chunkData

namespace FirstPieces

variable {src c : Chunk} {k : ℕ}

/-- A chunk without pieces. -/
theorem zero (hbin : c.binHash = src.binHash) (hcount : c.Counted) (hnone : c.received = ∅) :
    FirstPieces src 0 c := by
  refine ⟨hbin, hcount, fun i => ?_, fun j _ hmem => ?_⟩
  · rw [hnone]
    exact ⟨fun h => absurd h (Finset.notMem_empty i), fun h => absurd h (Nat.not_lt_zero i)⟩
  · rw [hnone] at hmem
    exact absurd hmem (Finset.notMem_empty _)

/-- The next piece is stored, behind the ones before it. -/
theorem store (h : FirstPieces src k c) (hk : k < maxSeqNum) :
    ∃ c', storeData (dataPacket src k) c = .ok c' ∧ FirstPieces src (k + 1) c' := by
  obtain ⟨c', hc⟩ := storeData_ok (inBounds_dataPacket src hk) c
  have hbin : c'.binHash = c.binHash := by
    obtain ⟨-, ⟨-, rfl⟩ | ⟨-, -, -, rfl⟩⟩ := storeData_cases hc <;> rfl
  refine ⟨c', hc, hbin.trans h.binHash, h.counted.store hc, fun i => ?_, h.pieces.store hk hc⟩
  rw [received_storeData_dataPacket hk hc, Finset.mem_insert, h.received]
  omega

/-- The marks are all set after the last piece, and not before. -/
theorem complete_iff (h : FirstPieces src k c) (hk : k ≤ maxSeqNum) :
    chunkBitsAllReceived c = true ↔ k = maxSeqNum := by
  rw [h.counted.complete_iff]
  constructor
  · intro hall
    by_contra hne
    have hlt : k < maxSeqNum := by omega
    have hmem : k ∈ c.received := Chunk.mem_received.2 ⟨hlt, hall k hlt⟩
    exact absurd ((h.received k).1 hmem) (Nat.lt_irrefl k)
  · rintro rfl i hi
    exact (Chunk.mem_received.1 ((h.received i).2 hi)).2

/-- The client answers with the number of the last piece. -/
theorem consecSeq (h : FirstPieces src k c) (hk : k ≤ maxSeqNum) :
    dataFindLargestConsecSeq c = k := by
  rw [consecSeq_eq_prefixLen]
  refine CumulativeAck.prefixLen_eq hk (fun i hi => (h.received i).2 hi) (Or.inr fun hmem => ?_)
  exact absurd ((h.received k).1 hmem) (Nat.lt_irrefl k)

/-- All pieces are the data of the sender. -/
theorem verified {shahash : List UInt8 → BinHash} (h : FirstPieces src maxSeqNum c)
    (hv : src.Verified shahash) : c.Verified shahash := by
  have hdone := (h.complete_iff (Nat.le_refl _)).2 rfl
  rw [Chunk.Verified, h.pieces.complete (h.counted.complete_iff.1 hdone), h.binHash]
  exact hv

end FirstPieces

/-! ### Pieces in order -/

/-- The only transfer of the client is with the peer `p` at the address `a`, for the chunk at `q`,
which has the first `k` pieces of the chunk `src`. -/
structure Arriving (src : Chunk) (a : SockaddrIn) (p q k : ℕ) (s : State) : Prop where
  sender : findPeer s a = some p
  incoming : s.incoming.map Transfer.ends = [(p, q)]
  stored : FirstPieces src k (s.chunks.cell q)

namespace Arriving

variable {src : Chunk} {a : SockaddrIn} {p q k : ℕ} {s : State}

/-- Storing a piece and answering keep the transfer. -/
theorem sendACK (h : Arriving src a p q k s) {c : Chunk} {m : ℕ} (hc : FirstPieces src m c)
    (n : ℕ) : Arriving src a p q m (P2P.sendACK (s.modifyChunk q fun _ => c) p n) := by
  have hsame := sendACK_same (s.modifyChunk q fun _ => c) p n
  refine ⟨?_, hsame.2.2.2.2.trans h.incoming, ?_⟩
  · unfold findPeer
    rw [hsame.2.1]
    exact h.sender
  · rw [cell_sendACK_self]
    exact hc

variable (shahash : List UInt8 → BinHash)

/-- **One piece more**: while pieces are missing, the client stores it and answers. -/
theorem step (h : Arriving src a p q k s) (hk : k + 1 < maxSeqNum) :
    ∃ c, FirstPieces src (k + 1) c ∧ P2P.step shahash s (.packet a (dataPacket src k)) =
      .ok (P2P.sendACK (s.modifyChunk q fun _ => c) p (k + 1)) := by
  obtain ⟨t, hfind, htc⟩ := findIncoming_of_ends h.incoming
  obtain ⟨c, hstore, hc⟩ := h.stored.store (by omega)
  have hopen : chunkBitsAllReceived c = false := by
    rw [← Bool.not_eq_true, hc.complete_iff (by omega)]
    omega
  rw [← htc] at hstore
  have hdata := receiveDATA_of_store shahash hfind hstore
  rw [hopen, if_neg Bool.false_ne_true, htc, hc.consecSeq (by omega)] at hdata
  exact ⟨c, hc, by simp only [P2P.step, h.sender]; exact hdata⟩

/-- **The last piece**: the chunk is checked, and the next one is requested. -/
theorem last (h : Arriving src a p q k s) (hk : k + 1 = maxSeqNum) :
    ∃ c, FirstPieces src maxSeqNum c ∧ P2P.step shahash s (.packet a (dataPacket src k)) =
      .ok (getChunkData ((finishChunk shahash
        (P2P.sendACK (s.modifyChunk q fun _ => c) p maxSeqNum) q).deleteIncoming 0)) := by
  obtain ⟨t, hfind, htc⟩ := findIncoming_of_ends h.incoming
  obtain ⟨c, hstore, hc⟩ := h.stored.store (by omega)
  rw [hk] at hc
  have hdone : chunkBitsAllReceived c = true := (hc.complete_iff (Nat.le_refl _)).2 rfl
  rw [← htc] at hstore
  have hdata := receiveDATA_of_store shahash hfind hstore
  rw [hdone, if_pos rfl, htc, hc.consecSeq (Nat.le_refl _)] at hdata
  exact ⟨c, hc, by simp only [P2P.step, h.sender]; exact hdata⟩

/-- **Any number of pieces short of all.** -/
theorem run (h : Arriving src a p q 0 s) (hk : k < maxSeqNum) :
    ∃ s', Machine.run (P2P.step shahash) s
        ((List.range k).map fun i => .packet a (dataPacket src i)) = .ok s' ∧
      Arriving src a p q k s' ∧ s'.missing = s.missing ∧ s'.haveList = s.haveList ∧
      s'.outputs = s.outputs := by
  induction k with
  | zero => exact ⟨s, rfl, h, rfl, rfl, rfl⟩
  | succ k ih =>
      obtain ⟨s₁, hrun, h₁, hmissing, hhave, hout⟩ := ih (by omega)
      obtain ⟨c, hc, hstep⟩ := h₁.step shahash hk
      have hf := (moves_sendACK (s₁.modifyChunk q fun _ => c) p (k + 1) : Moves Kind.Any _ _).frame
      refine ⟨_, ?_, h₁.sendACK hc (k + 1), hf.missing.trans hmissing, hf.haveList.trans hhave,
        hf.outputs.trans hout⟩
      rw [List.range_succ, List.map_append, Machine.run_append _ hrun, List.map_singleton,
        Machine.run_cons_ok _ hstep]
      rfl

/-- **All pieces**: when the client waits for nothing else, the chunk is owned and the file is
output. -/
theorem arrives {shahash : List UInt8 → BinHash} (h : Arriving src a p q 0 s)
    (hmiss : s.missing = [q]) (hv : src.Verified shahash) :
    ∃ s', Machine.run (P2P.step shahash) s
        ((List.range maxSeqNum).map fun i => .packet a (dataPacket src i)) = .ok s' ∧
      s'.haveList = q :: s.haveList ∧ ∃ o, s'.outputs = s.outputs ++ [o] := by
  obtain ⟨k, hk⟩ := Nat.exists_eq_succ_of_ne_zero (by decide : maxSeqNum ≠ 0)
  obtain ⟨s₁, hrun, h₁, hmissing, hhave, hout⟩ := h.run shahash (k := k) (by omega)
  obtain ⟨c, hc, hstep⟩ := h₁.last shahash hk.symm
  -- the answer, the check, and the end of the transfer
  have hf := (moves_sendACK (s₁.modifyChunk q fun _ => c) p maxSeqNum : Moves Kind.Any _ _).frame
  have hcell := cell_sendACK_self s₁ q p maxSeqNum c
  set s₂ := P2P.sendACK (s₁.modifyChunk q fun _ => c) p maxSeqNum with hs₂
  have hmissing₂ : s₂.missing = [q] := (hf.missing.trans hmissing).trans hmiss
  have hfinish : finishChunk shahash s₂ q =
      { constructData (s₂.accept 0 q) with wanted := [] } := by
    rw [finishChunk_first (by rw [hcell]; exact hc.verified hv) hmissing₂ rfl]
    unfold checkAllReceived
    rw [if_pos (by rw [State.accept, hmissing₂]; rfl)]
  have hend := (moves_afterFinish trivial trivial (finishChunk shahash s₂ q) 0 :
    Moves Kind.Any _ _).frame
  refine ⟨getChunkData ((finishChunk shahash s₂ q).deleteIncoming 0), ?_, ?_,
    (s₂.accept 0 q).output, ?_⟩
  · rw [hk, List.range_succ, List.map_append, Machine.run_append _ hrun, List.map_singleton,
      Machine.run_cons_ok _ hstep]
    rfl
  · rw [hend.haveList, hfinish]
    exact congrArg (List.cons q) (hf.haveList.trans hhave)
  · have hout₂ : (s₂.accept 0 q).outputs = s.outputs := hf.outputs.trans hout
    rw [hend.outputs, hfinish]
    exact (outputs_constructData (s₂.accept 0 q)).trans (by rw [hout₂])

end Arriving

/-! ### One request at a time -/

theorem trace_deleteIncoming (s : State) (i : ℕ) : (s.deleteIncoming i).trace = s.trace := by
  unfold State.deleteIncoming
  split <;> rfl

/-- Closing the only transfer of the client. -/
theorem incoming_deleteIncoming_zero {s : State} {p q : ℕ}
    (h : s.incoming.map Transfer.ends = [(p, q)]) :
    (s.deleteIncoming 0).incoming = [] ∧
      ((s.deleteIncoming 0).peers.cell p).available = 1 := by
  obtain ⟨t, ht, hends⟩ := List.map_eq_singleton_iff.1 h
  have hp : t.peer = p := congrArg Prod.fst hends
  have hget : s.incoming[0]? = some t := by rw [ht]; rfl
  subst hp
  unfold State.deleteIncoming
  rw [hget]
  exact ⟨by simp [ht], by simp [State.setAvailable]⟩

/-- An idle client opens a transfer for a chunk that an available peer offers, and requests it. -/
theorem requestChunk_idle {s : State} {p q : ℕ} (hin : s.incoming = [])
    (hp : (s.chunks.cell q).peer = [p]) (hav : (s.peers.cell p).available = 1) :
    (requestChunk s q).incoming.map Transfer.ends = [(p, q)] ∧
      (requestChunk s q).chunks = s.chunks ∧
      ((requestChunk s q).peers.cell p).available = 0 ∧
      (requestChunk s q).trace = s.trace ++
        [.send p (getPacket (s.junk 1) (s.binHash q) 1) (some (s.binHash q))] := by
  have hfirst : findFirstAvailablePeer s (s.chunks.cell q) = some p := by
    unfold findFirstAvailablePeer
    rw [hp]
    simp [hav]
  have hfind : (s.insertIncoming p q).findIncoming p = some (0, createTransfer p q (s.clock 0)) :=
    nodeFind_eq_some_iff.2 ⟨rfl, State.compareTransferByPeerId_iff.2 rfl,
      fun _ hmem => absurd hmem List.not_mem_nil⟩
  have hreq : requestChunk s q = sendGET (s.insertIncoming p q) p (s.binHash q) 1 := by
    rw [requestChunk, hin, hfirst]
    rfl
  rw [hreq, sendGET, hfind]
  refine ⟨?_, rfl, ?_, rfl⟩
  · refine (ends_stampIncoming (s.insertIncoming p q) 0).trans ?_
    simp [State.insertIncoming, hin, createTransfer, Transfer.ends]
  · simp [State.insertIncoming, State.setAvailable, State.stampIncoming, State.sendPacketToPeer,
      State.tick]

/-- No transfer is opened for a chunk whose only peer is busy. -/
theorem requestChunk_busy {s : State} {p q : ℕ} (hp : (s.chunks.cell q).peer = [p])
    (hav : (s.peers.cell p).available = 0) : requestChunk s q = s := by
  have hnone : findFirstAvailablePeer s (s.chunks.cell q) = none := by
    unfold findFirstAvailablePeer
    rw [hp]
    simp [hav]
  rw [requestChunk, hnone]
  cases nodeFind (s.compareTransferByChunkHash (s.binHash q)) s.incoming <;> rfl

theorem requestChunks_busy {s : State} {p : ℕ} {l : List ℕ}
    (hp : ∀ r ∈ l, (s.chunks.cell r).peer = [p]) (hav : (s.peers.cell p).available = 0) :
    l.foldl requestChunk s = s := by
  induction l with
  | nil => rfl
  | cons r l ih =>
      rw [List.foldl_cons, requestChunk_busy (hp r (List.mem_cons_self ..)) hav]
      exact ih fun r' hr' => hp r' (List.mem_cons_of_mem _ hr')

/-- **An idle client requests the first of the chunks it waits for**, when the same peer offers all
of them. -/
theorem getChunkData_idle {s : State} {p q : ℕ} {l : List ℕ} (hin : s.incoming = [])
    (hm : s.missing = q :: l) (hp : ∀ r ∈ s.missing, (s.chunks.cell r).peer = [p])
    (hav : (s.peers.cell p).available = 1) : getChunkData s = requestChunk s q := by
  rw [hm] at hp
  obtain ⟨-, hchunks, hbusy, -⟩ := requestChunk_idle hin (hp q (List.mem_cons_self ..)) hav
  rw [getChunkData, hm, List.foldl_cons]
  refine requestChunks_busy (fun r hr => ?_) hbusy
  rw [hchunks]
  exact hp r (List.mem_cons_of_mem _ hr)

/-! ### A client that waits for one chunk -/

/-- The hash text of forty zeros. -/
def zeroHex : HexHash := Vector.replicate hexHashSize 48

/-- The hash text `0101…01`. -/
def onesHex : HexHash := Vector.ofFn fun i => if i.val % 2 = 0 then 48 else 49

/-- A hash function that looks at the first byte only. -/
def headHash (s : List UInt8) : BinHash :=
  if s.head? = some 1 then binHashOf zeroHex else Vector.replicate binHashSize 1

/-- A peer that knows one other, at port 2222. -/
def twoPeers : Setup := ⟨[(1, ⟨0, 1111⟩), (2, ⟨0, 2222⟩)], 1, 1, [], none⟩

/-- A chunk of zeros, with its hash. -/
def zeroChunk : Chunk := createChunk 0 onesHex

theorem verified_zeroChunk : zeroChunk.Verified headHash := by
  rw [Chunk.Verified, headHash, if_neg]
  · rfl
  · simp only [zeroChunk, createChunk, Vector.toList_replicate, btChunkSize_eq,
      List.head?_replicate]
    decide

/-- The other peer offers the chunk. -/
def zeroOffer : Event :=
  .packet ⟨0, 2222⟩ { zeroPacket with
    type := .ihave
    headerLen := 16
    packetLen := 40
    hashNum := 1
    hashList := fun _ => binHashOf onesHex }

/-- The other peer offers the chunk and sends its pieces. -/
def zeroArrives : List Event :=
  zeroOffer :: (List.range maxSeqNum).map fun i => .packet ⟨0, 2222⟩ (dataPacket zeroChunk i)

/-- What arrives is the offer and pieces of the chunk. -/
theorem mem_zeroArrives {e : Event} (h : e ∈ zeroArrives) : ∃ pack, e = .packet ⟨0, 2222⟩ pack ∧
    (pack.type = .ihave ∨ pack.type = .data ∧ pack.InBounds) := by
  rcases List.mem_cons.1 h with rfl | h
  · exact ⟨_, rfl, Or.inl rfl⟩
  · obtain ⟨i, hi, rfl⟩ := List.mem_map.1 h
    exact ⟨_, rfl, Or.inr ⟨rfl, inBounds_dataPacket zeroChunk (List.mem_range.1 hi)⟩⟩

/-- **The chunk of zeros is asked for, and it arrives.** -/
theorem run_zeroArrives : ∃ s o, Machine.run (step headHash)
      (peerSetup twoPeers (fun _ => 0) fun _ => zeroPacket)
      (.userGet "a" "b" [(0, onesHex)] :: zeroArrives) = .ok s ∧
    s.haveList = [0] ∧ s.outputs = [o] := by
  obtain ⟨s₀, hrun₀, h₀, hmiss₀, hhave₀, hout₀⟩ : ∃ s, Machine.run (step headHash)
      (peerSetup twoPeers (fun _ => 0) fun _ => zeroPacket)
      [.userGet "a" "b" [(0, onesHex)], zeroOffer] = .ok s ∧
      Arriving zeroChunk ⟨0, 2222⟩ 1 0 0 s ∧ s.missing = [0] ∧ s.haveList = [] ∧
      s.outputs = [] :=
    ⟨_, rfl, ⟨rfl, rfl, FirstPieces.zero rfl (Chunk.counted_createChunk 0 onesHex)
      (Chunk.received_createChunk 0 onesHex)⟩, rfl, rfl, rfl⟩
  obtain ⟨s, hrun, hhave, o, hout⟩ := h₀.arrives hmiss₀ verified_zeroChunk
  refine ⟨s, o, ?_, by rw [hhave, hhave₀], by rw [hout, hout₀]; rfl⟩
  have hwhole := (Machine.run_append _ hrun₀ _).trans hrun
  rwa [List.cons_append, List.singleton_append] at hwhole

end P2P
