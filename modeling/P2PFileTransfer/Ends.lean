/-
**The two ends of a transfer inside a peer** (`receive_DATA`, `receive_ACK` and the loops of the two
timeout handlers).

`Pair` has one transfer on either side.  A peer has lists of them and much else; its handlers find a
transfer by the peer that a packet came from, and then do to it and to its chunk what the end of a
pair does.  This module says so for each of the four, for the transfer that is found: the end of the
pair tells what becomes of the transfer, of the chunk, and what is sent.

Main definitions:

* `P2P.ClientEnd`, `P2P.ServerEnd` — a transfer that is found is the end of a pair.

Main results:

* `P2P.ServerEnd.receiveACK` — **an acknowledgement**;
* `P2P.ClientEnd.receiveDATA`, `P2P.ClientEnd.receiveDATA_error` — **a piece of data**;
* `P2P.serverTimeoutLoop_eq`, `P2P.ClientEnd.clientTimeoutLoop` — one pass of the timeout loops.
-/

import P2PFileTransfer.Reactions
import P2PFileTransfer.Window

set_option relaxedAutoImplicit false
set_option autoImplicit false

namespace P2P

/-- The transfer that the client finds for a peer, at position `i`, is the client's end of `p`. -/
structure ClientEnd (s : State) (peer i : ℕ) (t : Transfer) (p : Pair) : Prop where
  found : s.findIncoming peer = some (i, t)
  client : p.client = some t
  chunk : p.c = s.chunks.cell t.c

/-- The transfer that the server finds for a peer, at position `i`, is the server's end of `p`. -/
structure ServerEnd (s : State) (peer i : ℕ) (t : Transfer) (p : Pair) : Prop where
  found : s.findOutgoing peer = some (i, t)
  server : p.server = some t
  chunk : p.src = s.chunks.cell t.c

/-- Acknowledgements, as they are sent for the transfer `t`. -/
def State.acksFor (s : State) (peer : ℕ) (t : Transfer) (acks : List Packet) : List Effect :=
  acks.map fun pack => .send peer pack (some (s.binHash t.c))

/-! ### The server -/

/-- **An acknowledgement** does to the transfer that is found what it does to the end of the pair,
and the pieces that the pair sends are sent. -/
theorem ServerEnd.receiveACK {s : State} {peer i : ℕ} {t : Transfer} {p : Pair}
    (h : ServerEnd s peer i t p) (pack : Packet) :
    receiveACK s pack peer =
      match (p.receiveAck s.clock pack).server with
      | none => s.deleteOutgoing i
      | some t' => State.sendPieces { s.tick 3 with outgoing := s.outgoing.set i t' } t'
          ((p.receiveAck s.clock pack).data.drop p.data.length) := by
  unfold P2P.receiveACK Pair.receiveAck
  rw [h.found, h.server]
  simp only [← h.chunk]
  cases ackTransfer s.clock p.src t pack.ackNum.toNat with
  | none => rfl
  | some sent => simp only [List.drop_left]

/-- **One pass of the server's timeout loop**, which looks nothing up. -/
theorem serverTimeoutLoop_eq {s : State} {fuel i : ℕ} {t : Transfer} {p : Pair}
    (hi : s.outgoing[i]? = some t) (hp : p.server = some t) :
    serverTimeoutLoop (fuel + 1) i s =
      match (p.serverTimeout s.clock).server with
      | none => serverTimeoutLoop fuel i ((s.tick 2).deleteOutgoing i)
      | some t' =>
          serverTimeoutLoop fuel (i + 1) { s.tick 2 with outgoing := s.outgoing.set i t' } := by
  have hserver : (p.serverTimeout s.clock).server = timeoutTransfer s.clock t := by
    unfold Pair.serverTimeout
    rw [hp]
  rw [hserver]
  cases ht : timeoutTransfer s.clock t with
  | none => exact serverTimeoutLoop_dead hi ht
  | some t' => exact serverTimeoutLoop_alive hi ht

/-! ### The client -/

theorem findIncoming_getElem? {s : State} {peer i : ℕ} {t : Transfer}
    (h : s.findIncoming peer = some (i, t)) : s.incoming[i]? = some t :=
  (nodeFind_eq_some_iff.1 h).1

theorem modify_incoming {s : State} {peer i : ℕ} {t : Transfer}
    (h : s.findIncoming peer = some (i, t)) (f : Transfer → Transfer) :
    s.incoming.modify i f = s.incoming.set i (f t) := by
  rw [List.modify_eq_set_getElem?, findIncoming_getElem? h]
  rfl

/-- An answer, when the transfer that it is sent for is known. -/
theorem sendACK_eq {s : State} {peer i : ℕ} {t : Transfer}
    (h : s.findIncoming peer = some (i, t)) (n : ℕ) :
    sendACK s peer n = { s.tick 1 with
      incoming := s.incoming.set i { t with timestamp := s.clock 0 }
      trace := s.trace ++ s.acksFor peer t [ackPacket (s.junk 0) n] } := by
  unfold sendACK
  rw [h]
  simp only [State.stampIncoming, State.sendPacketToPeer, modify_incoming h]
  rfl

/-- A `GET`, when the transfer that it is sent for is known. -/
theorem sendGET_eq {s : State} {peer i : ℕ} {t : Transfer}
    (h : s.findIncoming peer = some (i, t)) (hash : BinHash) (count : ℕ) :
    sendGET s peer hash count = { s.tick 1 with
      incoming := s.incoming.set i { t with timestamp := s.clock 0 }
      trace := s.trace ++ [.send peer (getPacket (s.junk 0) hash count) (some hash)] } := by
  unfold sendGET
  rw [h]
  simp only [State.stampIncoming, State.sendPacketToPeer, modify_incoming h]
  rfl

/-- The transfer that is found is still the one when its count was raised. -/
theorem findIncoming_countIncoming {s : State} {peer i : ℕ} {t : Transfer}
    (h : s.findIncoming peer = some (i, t)) :
    (s.countIncoming i).findIncoming peer = some (i,
      { t with cctrl := { t.cctrl with timeoutCount := u32 (1 + t.cctrl.timeoutCount) } }) := by
  obtain ⟨hi, hpeer, hbefore⟩ := nodeFind_eq_some_iff.1 h
  have hlt := (List.getElem?_eq_some_iff.1 hi).1
  unfold State.findIncoming State.countIncoming
  refine nodeFind_eq_some_iff.2 ?_
  rw [modify_incoming h, List.take_set_of_le (Nat.le_refl i)]
  exact ⟨List.getElem?_set_self hlt, hpeer, hbefore⟩

/-- After a complete chunk was checked, the chunk is as the check left it, the transfer is closed,
and chunks are requested. -/
theorem afterFinish (shahash : List UInt8 → BinHash) (s : State) (q i : ℕ) :
    ((finishChunk shahash s q).deleteIncoming i).chunks.cell q =
        (if chunkIsValid shahash (s.chunks.cell q) then s.chunks.cell q
          else discardData (s.chunks.cell q)) ∧
      ((finishChunk shahash s q).deleteIncoming i).incoming = s.incoming.eraseIdx i ∧
      ∃ es, (getChunkData ((finishChunk shahash s q).deleteIncoming i)).trace = s.trace ++ es := by
  have hfinish : (finishChunk shahash s q).chunks.cell q =
      (if chunkIsValid shahash (s.chunks.cell q) then s.chunks.cell q
        else discardData (s.chunks.cell q)) ∧
      (finishChunk shahash s q).incoming = s.incoming := by
    obtain ⟨hbad, heq⟩ | ⟨hok, -, heq⟩ | ⟨hok, j, r, -, -, -, heq⟩ := finishChunk_cases shahash s q
    · rw [heq, if_neg fun hv => hbad (chunkIsValid_iff.1 hv)]
      exact ⟨Heap.cell_modify_self s.chunks q discardData, rfl⟩
    · have hsame := checkAllReceived_same s
      rw [heq, hsame.1, hsame.2, if_pos (chunkIsValid_iff.2 hok)]
      exact ⟨rfl, rfl⟩
    · have hsame := checkAllReceived_same (s.accept j q)
      rw [heq, hsame.1, hsame.2, if_pos (chunkIsValid_iff.2 hok)]
      exact ⟨rfl, rfl⟩
  refine ⟨?_, ?_, ?_⟩
  · rw [State.chunks_deleteIncoming]
    exact hfinish.1
  · rw [← hfinish.2]
    unfold State.deleteIncoming
    split
    · rename_i hnone
      rw [List.eraseIdx_of_length_le (List.getElem?_eq_none_iff.1 hnone)]
    · rfl
  · have hclose : Moves (Kind.closeIn = ·) (finishChunk shahash s q)
        ((finishChunk shahash s q).deleteIncoming i) := .single (.closeIn _ i rfl)
    have hask : Moves (Kind.openIn = ·) ((finishChunk shahash s q).deleteIncoming i)
        (getChunkData ((finishChunk shahash s q).deleteIncoming i)) := moves_getChunkData rfl _
    obtain ⟨es, htrace, -⟩ :=
      ((Fades.finishChunk shahash s q).trans (.of_moves nofun nofun hclose)).sent
    obtain ⟨es', htrace', -⟩ := hask.sent nofun nofun
    exact ⟨es ++ es', by rw [htrace', htrace, List.append_assoc]⟩

namespace ClientEnd

variable {shahash : List UInt8 → BinHash} {s : State} {peer i : ℕ} {t : Transfer} {p p' : Pair}

/-- A piece of data that the end of the pair cannot take is one that the peer cannot take. -/
theorem receiveDATA_error (h : ClientEnd s peer i t p) {pack : Packet} {x : Fault}
    (hp : p.receiveData shahash s.clock (s.junk 0) pack = .error x) :
    receiveDATA shahash s pack peer = .error x := by
  unfold Pair.receiveData at hp
  rw [h.client, h.chunk] at hp
  unfold P2P.receiveDATA
  rw [h.found]
  simp only at hp ⊢
  cases hstore : storeData pack (s.chunks.cell t.c) with
  | error y =>
      rw [hstore] at hp
      cases hp
      rfl
  | ok c =>
      rw [hstore] at hp
      simp only at hp
      split_ifs at hp

/-- **A piece of data** does to the chunk and to the transfer that is found what it does to the end
of the pair, and the pair's answer is sent.  When the pair closes its transfer, the peer does, and
requests chunks. -/
theorem receiveDATA (h : ClientEnd s peer i t p) {pack : Packet}
    (hp : p.receiveData shahash s.clock (s.junk 0) pack = .ok p') :
    ∃ s', receiveDATA shahash s pack peer = .ok s' ∧ s'.chunks.cell t.c = p'.c ∧
      (∃ es, s'.trace = s.trace ++ s.acksFor peer t (p'.acks.drop p.acks.length) ++ es) ∧
      (∀ u, p'.client = some u → s'.incoming = s.incoming.set i u) ∧
      (p'.client = none → ∃ s₁, s₁.incoming = s.incoming.eraseIdx i ∧ s' = getChunkData s₁) := by
  unfold Pair.receiveData at hp
  rw [h.client, h.chunk] at hp
  simp only at hp
  cases hstore : storeData pack (s.chunks.cell t.c) with
  | error x =>
      rw [hstore] at hp
      cases hp
  | ok c =>
      rw [hstore] at hp
      simp only at hp
      have hdata := receiveDATA_of_store shahash h.found hstore
      have hbin : c.binHash = (s.chunks.cell t.c).binHash := by
        obtain ⟨-, ⟨-, rfl⟩ | ⟨-, -, -, rfl⟩⟩ := storeData_cases hstore <;> rfl
      have hcell := cell_sendACK_self s t.c peer (dataFindLargestConsecSeq c) c
      have hans := sendACK_eq (s := s.modifyChunk t.c fun _ => c) h.found
        (dataFindLargestConsecSeq c)
      -- storing a piece leaves the hash, so the answer is sent on behalf of the same one
      have hacks : (s.modifyChunk t.c fun _ => c).acksFor peer t = s.acksFor peer t := by
        funext acks
        simp only [State.acksFor, State.binHash, State.modifyChunk, Heap.cell_modify_self, hbin]
      rw [hacks] at hans
      set s₁ := sendACK (s.modifyChunk t.c fun _ => c) peer (dataFindLargestConsecSeq c) with hs₁
      have hin : s₁.incoming = s.incoming.set i { t with timestamp := s.clock 0 } := by
        rw [hans]
        rfl
      have htrace : s₁.trace = s.trace ++
          s.acksFor peer t [ackPacket (s.junk 0) (dataFindLargestConsecSeq c)] := by
        rw [hans]
        rfl
      cases hdone : chunkBitsAllReceived c with
      | false =>
          rw [hdone, if_neg Bool.false_ne_true] at hdata hp
          cases hp
          refine ⟨s₁, hdata, hcell, ⟨[], ?_⟩, ?_, fun hn => absurd hn (Option.some_ne_none _)⟩
          · simp only [Pair.answer, List.drop_left, List.append_nil]
            exact htrace
          · rintro u ⟨⟩
            exact hin
      | true =>
          rw [hdone, if_pos rfl] at hdata hp
          obtain ⟨hchunk, hgone, es, hes⟩ := afterFinish shahash s₁ t.c i
          rw [hcell] at hchunk
          rw [hin, List.eraseIdx_set_eq] at hgone
          have hsent : (getChunkData ((finishChunk shahash s₁ t.c).deleteIncoming i)).trace =
              s.trace ++ s.acksFor peer t
                [ackPacket (s.junk 0) (dataFindLargestConsecSeq c)] ++ es := by
            rw [hes, htrace]
          refine ⟨_, hdata, ?_, ?_, ?_, ?_⟩
          · rw [chunks_getChunkData, hchunk]
            split_ifs at hp ⊢ <;> cases hp <;> rfl
          · refine ⟨es, ?_⟩
            rw [hsent]
            split_ifs at hp <;> cases hp <;> simp only [Pair.answer, List.drop_left]
          · intro u hu
            split_ifs at hp <;> cases hp <;> cases hu
          · exact fun _ => ⟨_, hgone, rfl⟩

/-- **One pass of the client's timeout loop**, for a transfer that is the one found for its peer: it
is given up when the pair gives up its end, and otherwise the pair's answer is sent, or a `GET`. -/
theorem clientTimeoutLoop (h : ClientEnd s t.peer i t p) (fuel : ℕ) :
    match (p.clientTimeout s.clock (s.junk 1)).client with
    | none => clientTimeoutLoop (fuel + 1) i s =
        clientTimeoutLoop fuel i (handleTransferDead ((s.tick 1).countIncoming i) i t)
    | some u => ∃ s', clientTimeoutLoop (fuel + 1) i s = clientTimeoutLoop fuel (i + 1) s' ∧
        s'.chunks = s.chunks ∧ s'.incoming = s.incoming.set i u ∧
        ∃ gets, (∀ e ∈ gets, ∃ pack, pack.type = .get ∧
            e = .send t.peer pack (some (s.binHash t.c))) ∧
          s'.trace = s.trace ++ gets ++ s.acksFor t.peer t
            ((p.clientTimeout s.clock (s.junk 1)).acks.drop p.acks.length) := by
  have hi := findIncoming_getElem? h.found
  -- the answer is sent after the timeout was counted, and looks the transfer up again
  have hfound := findIncoming_countIncoming (s := s.tick 1) h.found
  have hcount : ((s.tick 1).countIncoming i).incoming = s.incoming.set i
      { t with cctrl := { t.cctrl with timeoutCount := u32 (1 + t.cctrl.timeoutCount) } } :=
    modify_incoming h.found _
  rw [P2P.clientTimeoutLoop, hi]
  unfold Pair.clientTimeout
  rw [h.client, h.chunk]
  dsimp only
  by_cases hto : transferHasTimeout (s.clock 0) t = true
  · rw [if_pos hto, if_pos hto]
    by_cases hdead : maxToCounts ≤ u32 (1 + t.cctrl.timeoutCount)
    · rw [if_pos hdead, if_pos hdead]
    · rw [if_neg hdead, if_neg hdead]
      by_cases hnone : (s.chunks.cell t.c).bitsCount = 0
      · have hzero : (((s.tick 1).countIncoming i).chunks.cell t.c).bitsCount = 0 := hnone
        rw [if_pos hnone, if_pos hzero, sendGET_eq hfound]
        refine ⟨_, rfl, rfl, ?_, [.send t.peer (getPacket (s.junk 1) (s.binHash t.c) 1)
          (some (s.binHash t.c))], ?_, ?_⟩
        · simp only [hcount, List.set_set]
          rfl
        · intro e he
          exact ⟨_, rfl, List.mem_singleton.1 he⟩
        · simp only [List.drop_length, State.acksFor, List.map_nil, List.append_nil]
          rfl
      · have hsome : ¬ (((s.tick 1).countIncoming i).chunks.cell t.c).bitsCount = 0 := hnone
        rw [if_neg hnone, if_neg hsome, sendACK_eq hfound]
        refine ⟨_, rfl, rfl, ?_, [], fun _ he => absurd he List.not_mem_nil, ?_⟩
        · simp only [hcount, List.set_set]
          rfl
        · simp only [Pair.answer, List.drop_left, List.append_nil]
          rfl
  · rw [if_neg hto, if_neg hto, h.client]
    obtain ⟨hlt, rfl⟩ := List.getElem?_eq_some_iff.1 hi
    refine ⟨_, rfl, rfl, (List.set_getElem_self hlt).symm, [],
      fun _ he => absurd he List.not_mem_nil, ?_⟩
    simp only [List.drop_length, State.acksFor, List.map_nil, List.append_nil]
    rfl

end ClientEnd

end P2P
