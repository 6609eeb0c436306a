/-
**From the packet that is sent to the packet that is received** (`send_packet_to_peer`,
`process_inbound_udp`).

What is sent is a datagram: the `packet_len` bytes that `serialize_packet` made.  What is received
is a buffer that begins with these bytes and goes on with whatever the buffer held before, since
`deserialize_packet` is not told how long the datagram is.  For the packets that a peer makes, the
two ends fit: the receiver does with the datagram what it would do with the packet itself.

Main definitions:

* `P2P.Packet.Made` — the packets that the six functions of a peer make;
* `P2P.Packet.Received` — a packet as its receiver has it.

Main results:

* `P2P.Packet.Made.framed` — all of them but those of `send_DENIED` are framed;
* `P2P.Packet.Made.received` — every one of them is decoded, and to what was meant;
* `P2P.processInboundUdp_made` — **receiving the datagram is receiving the packet**;
* `P2P.Packet.Made.safe` — the decoder stays inside the datagram.
-/

import P2PFileTransfer.Discovery

set_option relaxedAutoImplicit false
set_option autoImplicit false

namespace P2P

/-! ### The packets that a peer makes -/

/-- The packets that the six functions of a peer make, with any contents of the memory that they are
made in. -/
inductive Packet.Made : Packet → Prop
  | whohas (hashes : List BinHash) (h : hashes.length ≤ maxHashInPacket) :
      Made (whohasPacket hashes)
  | ihave (junk : Packet) (hashes : List BinHash) (h : hashes.length ≤ maxHashInPacket) :
      Made (ihavePacket junk hashes)
  | get (junk : Packet) (binHash : BinHash) (count : ℕ) : Made (getPacket junk binHash count)
  | data (c : Chunk) (i : ℕ) (h : i < maxSeqNum) : Made (dataPacket c i)
  | ack (junk : Packet) (ackNum : ℕ) : Made (ackPacket junk ackNum)
  | denied (junk : Packet) : Made (deniedPacket junk)

/-- The length field of a piece. -/
theorem packetLen_dataPacket (c : Chunk) {i : ℕ} (h : i < maxSeqNum) :
    (dataPacket c i).packetLen.toNat =
      standardHeaderLen + min dataSize (btChunkSize - i * dataSize) := by
  have hpiece := (pieceLen_eq h).2
  have hd := dataSize_eq
  have hs : standardHeaderLen = 16 := rfl
  simp only [dataPacket, hpiece, UInt16.toNat_ofNat']
  omega

/-- **A packet that is made is framed**, if it is no `DENIED`. -/
theorem Packet.Made.framed {p : Packet} (h : p.Made) (hd : p.type ≠ .denied) : p.Framed := by
  cases h with
  | whohas hashes h => exact framed_whohasPacket h
  | ihave junk hashes h => exact framed_ihavePacket junk h
  | get junk binHash count =>
      exact framed_of_hashes (n := 1) (by decide) (Or.inr (Or.inr rfl)) rfl rfl rfl
  | data c i h =>
      exact ⟨rfl, Or.inr (Or.inl ⟨rfl, _, Nat.min_le_left _ _, packetLen_dataPacket c h⟩)⟩
  | ack junk ackNum => exact ⟨rfl, Or.inr (Or.inr ⟨rfl, rfl⟩)⟩
  | denied junk => exact absurd rfl hd

/-! ### What is received -/

/-- The packet `q` is the packet `p` as its receiver has it: everything that a handler reads is as
it was sent. -/
structure Packet.Received (p q : Packet) : Prop where
  type : q.type = p.type
  hashes : p.type = .whohas ∨ p.type = .ihave → q.hashes = p.hashes
  request : p.type = .get → q.hashList 0 = p.hashList 0
  piece : p.type = .data →
    q.seqNum = p.seqNum ∧ q.copyLen = p.copyLen ∧ ∀ i < p.copyLen, q.data i = p.data i
  ackNum : p.type = .ack → q.ackNum = p.ackNum

/-- A `DENIED` datagram is decoded to a `DENIED` packet, although its payload is not in it. -/
theorem deserializePacket_denied (junk : Packet) (rest : ℕ → UInt8) :
    ∃ q, (deserializePacket
      (Block.memory (serializePacket (deniedPacket junk)) rest)).packet = some q ∧
        q.type = .denied := by
  have htiles : Block.Tiles 0 (serializeWrites (deniedPacket junk)) := by
    have hlist : (deniedPacket junk).type.hashTyped = true := rfl
    rw [serializeWrites, serializePayload, if_pos hlist, Block.tiles_append, Block.tiles_append]
    refine ⟨by simp, by simp [standardHeaderLen], ?_⟩
    have hT := (tiles_hashList (deniedPacket junk) (standardHeaderLen + headerPadLen)).1
    simpa [standardHeaderLen, headerPadLen] using hT
  -- what is written into the header is found there
  have hread : ∀ w ∈ serializeWrites (deniedPacket junk), w.1 + w.2.length ≤ standardHeaderLen →
      Block.window (Block.memory (serializePacket (deniedPacket junk)) rest) w.1 w.2.length =
        w.2 := by
    intro w hw hfit
    have hlen : (deniedPacket junk).packetLen.toNat = standardHeaderLen := rfl
    rw [Block.window_memory _ _ (hfit.trans_eq hlen.symm)]
    exact Block.slice_blits_of_mem htiles _ hw (hfit.trans_eq hlen.symm)
  have hmagic : readNet (Block.memory (serializePacket (deniedPacket junk)) rest) 0 2 =
      magicNum := by
    have hwin := hread (0, NetOrder.encode 2 magicNum) (by simp [serializeWrites]) (by decide)
    simp only [NetOrder.length_encode] at hwin
    rw [readNet, hwin, NetOrder.decode_encode_of_lt (by decide)]
  have hver : Block.memory (serializePacket (deniedPacket junk)) rest 2 = UInt8.ofNat verNum := by
    have hwin := hread (2, [UInt8.ofNat verNum]) (by simp [serializeWrites]) (by decide)
    simpa [Block.window] using hwin
  have htype : Block.memory (serializePacket (deniedPacket junk)) rest 3 =
      PacketType.denied.toByte := by
    have hwin := hread (3, [PacketType.denied.toByte])
      (by simp [serializeWrites, deniedPacket]) (by decide)
    simpa [Block.window] using hwin
  have hheader : (readHeader (Block.memory (serializePacket (deniedPacket junk)) rest) 2).type =
      .denied := by
    have hbyte : PacketType.ofByte PacketType.denied.toByte = .denied :=
      PacketType.ofByte_toByte trivial
    rw [← hbyte, ← htype]
    rfl
  have hv : ¬ (Block.memory (serializePacket (deniedPacket junk)) rest 2).toNat ≠ verNum := by
    rw [hver]
    decide
  rw [deserializePacket, if_pos hmagic, deserializeFrom, if_neg hv,
    deserializePayload_of_hashTyped (by rw [hheader]; rfl)]
  exact ⟨_, rfl, hheader⟩

theorem copyLen_congr {p q : Packet} (hheader : q.headerLen = p.headerLen)
    (hpacket : q.packetLen = p.packetLen) : q.copyLen = p.copyLen := by
  rw [Packet.copyLen, Packet.copyLen, hheader, hpacket]

/-- The piece that a `DATA` datagram is decoded to. -/
theorem deserializePacket_dataPacket (c : Chunk) {i : ℕ} (h : i < maxSeqNum) (rest : ℕ → UInt8) :
    ∃ q, (deserializePacket (Block.memory (serializePacket (dataPacket c i)) rest)).packet =
      some q ∧ (dataPacket c i).Received q := by
  have hframed : (dataPacket c i).Framed := (Packet.Made.data c i h).framed fun ht => by cases ht
  obtain ⟨hdec, htype, hhl, hpl, hseq, hack⟩ := deserializePacket_serializePacket hframed rest
  set r := readHeader (Block.memory (serializePacket (dataPacket c i)) rest) 2 with hr
  have hdata : r.type = .data := htype trivial
  have hcopy : r.copyLen = (dataPacket c i).copyLen := copyLen_congr hhl hpl
  have hq := congrArg Parse.packet (deserializePayload_of_data (p := r) (by rw [hdata]; rfl)
    (by rw [hdata]; decide) (Block.memory (serializePacket (dataPacket c i)) rest)
    standardHeaderLen [(0, 2), (2, 1), (3, 1), (4, 2), (6, 2), (8, 4), (12, 4)])
  rw [← hdec] at hq
  refine ⟨_, hq, ⟨hdata, fun ht => ?_, fun ht => ?_,
    fun _ => ⟨hseq, copyLen_congr hhl hpl, fun j hj => ?_⟩, fun ht => ?_⟩⟩
  · rcases ht with ht | ht <;> cases ht
  · cases ht
  · have hw : (standardHeaderLen, Block.window (dataPacket c i).data 0 (dataPacket c i).copyLen) ∈
        serializeWrites (dataPacket c i) := by
      have ht : (dataPacket c i).type = .data := rfl
      simp [serializeWrites, serializePayload, ht, PacketType.hashTyped]
    simp only [hcopy, hj, if_true]
    exact data_serializePacket hframed rest hw hj
  · cases ht

/-- **What a peer makes is decoded to what was meant**, whatever follows the datagram in memory. -/
theorem Packet.Made.received {p : Packet} (h : p.Made) (rest : ℕ → UInt8) :
    ∃ q, (deserializePacket (Block.memory (serializePacket p) rest)).packet = some q ∧
      p.Received q := by
  -- a list of hashes comes back as a whole
  have hlist : p.type = .whohas ∨ p.type = .ihave →
      ∃ q, (deserializePacket (Block.memory (serializePacket p) rest)).packet = some q ∧
        p.Received q := by
    intro ht
    have hd : p.type ≠ .denied ∧ p.type ≠ .get ∧ p.type ≠ .data ∧ p.type ≠ .ack := by
      rcases ht with ht | ht <;> rw [ht] <;> decide
    obtain ⟨q, hq, hqt, hhashes⟩ := arrives (h.framed hd.1) ht rest
    exact ⟨q, hq, hqt, fun _ => hhashes, fun hget => absurd hget hd.2.1,
      fun hdata => absurd hdata hd.2.2.1, fun hack => absurd hack hd.2.2.2⟩
  cases h with
  | whohas hashes h => exact hlist (Or.inl rfl)
  | ihave junk hashes h => exact hlist (Or.inr rfl)
  | get junk binHash count =>
      obtain ⟨q, hq, hqt, -, -, -, -, -, hfirst⟩ := hashes_serializePacket
        ((Packet.Made.get junk binHash count).framed fun ht => by cases ht) rest
        (Or.inr (Or.inr rfl))
      refine ⟨q, hq, hqt, fun ht => ?_, fun _ => hfirst 0 Nat.one_pos, fun ht => ?_, fun ht => ?_⟩
      · rcases ht with ht | ht <;> cases ht
      · cases ht
      · cases ht
  | data c i h => exact deserializePacket_dataPacket c h rest
  | ack junk ackNum =>
      obtain ⟨hdec, htype, -, -, -, hack⟩ := deserializePacket_serializePacket
        ((Packet.Made.ack junk ackNum).framed fun ht => by cases ht) rest
      have hrt := htype trivial
      rw [hdec, deserializePayload_of_ack hrt]
      refine ⟨_, rfl, hrt, fun ht => ?_, fun ht => ?_, fun ht => ?_, fun _ => hack⟩
      · rcases ht with ht | ht <;> cases ht
      · cases ht
      · cases ht
  | denied junk =>
      obtain ⟨q, hq, hqt⟩ := deserializePacket_denied junk rest
      refine ⟨q, hq, hqt, fun ht => ?_, fun ht => ?_, fun ht => ?_, fun ht => ?_⟩
      · rcases ht with ht | ht <;> cases ht
      · cases ht
      · cases ht
      · cases ht

/-! ### What a receiver does -/

/-- A piece is stored the same way. -/
theorem storeData_congr {p q : Packet} (hseq : q.seqNum = p.seqNum) (hcopy : q.copyLen = p.copyLen)
    (hdata : ∀ i < p.copyLen, q.data i = p.data i) (c : Chunk) :
    storeData q c = storeData p c := by
  have hindex : storeIndex q = storeIndex p := by rw [storeIndex, storeIndex, hseq]
  have hpayload : payload q = payload p := by
    rw [payload, payload, hcopy]
    refine List.ext_getElem (by simp) fun i h₁ h₂ => ?_
    rw [Block.length_window] at h₁
    rw [Block.getElem_window, Block.getElem_window, Nat.zero_add]
    exact hdata i h₁
  have hstored : dataAlreadyStored q c = dataAlreadyStored p c := by
    unfold dataAlreadyStored
    simp only [hindex]
  have hstore : dataStore q c = dataStore p c := by
    unfold dataStore storeOffset
    simp only [hindex, hcopy, hpayload]
  rw [storeData, storeData, hstored, hstore]

/-- **A handler does with what is received what it would do with what was sent.** -/
theorem Packet.Received.receivePacket {p q : Packet} (h : p.Received q)
    (shahash : List UInt8 → BinHash) (s : State) (src : SockaddrIn) (peer : ℕ) :
    receivePacket shahash s src peer q = receivePacket shahash s src peer p := by
  rw [P2P.receivePacket, P2P.receivePacket, h.type]
  cases ht : p.type with
  | whohas =>
      dsimp only
      rw [receiveWHOHAS_eq, receiveWHOHAS_eq, ownedHashes_eq, ownedHashes_eq, h.hashes (Or.inl ht)]
  | get =>
      dsimp only
      rw [receiveGET, receiveGET, h.request ht]
  | ack =>
      dsimp only
      rw [receiveACK, receiveACK, h.ackNum ht]
  | ihave =>
      have hsame : receiveIHAVE s q = receiveIHAVE s p := by
        funext peer
        rw [receiveIHAVE_eq, receiveIHAVE_eq, State.offered, State.offered, h.hashes (Or.inr ht)]
      rw [hsame]
  | denied => rfl
  | data =>
      obtain ⟨hseq, hcopy, hdata⟩ := h.piece ht
      dsimp only
      rw [receiveDATA, receiveDATA]
      simp only [storeData_congr hseq hcopy hdata]
  | invalid b => rfl

/-- **Receiving the datagram is receiving the packet**: whatever the sender's memory held when the
packet was made, and whatever the receiver's buffer holds behind the datagram. -/
theorem processInboundUdp_made {p : Packet} (h : p.Made) (shahash : List UInt8 → BinHash)
    (s : State) (src : SockaddrIn) (rest : ℕ → UInt8) :
    processInboundUdp shahash s src (Block.memory (serializePacket p) rest) =
      step shahash s (.packet src p) := by
  obtain ⟨q, hq, hreceived⟩ := h.received rest
  rw [processInboundUdp_eq, hq]
  show step shahash s (.packet src q) = _
  rw [step, step]
  cases findPeer s src with
  | none => rfl
  | some peer => exact hreceived.receivePacket shahash s src peer

/-! ### Staying inside the datagram -/

/-- **The decoder stays inside the datagram** and inside the packet, if it is no `DENIED`. -/
theorem Packet.Made.safe {p : Packet} (h : p.Made) (hd : p.type ≠ .denied) (rest : ℕ → UInt8) :
    (deserializePacket (Block.memory (serializePacket p) rest)).Safe p.packetLen.toNat := by
  have hframed := h.framed hd
  have hmagic : readNet (Block.memory (serializePacket p) rest) 0 2 = magicNum :=
    readNet_serializePacket hframed rest (by simp [serializeWrites]) (by decide)
  have hver : Block.memory (serializePacket p) rest 2 = UInt8.ofNat verNum :=
    byte_serializePacket hframed rest (by simp [serializeWrites])
  have hv : ¬ (Block.memory (serializePacket p) rest 2).toNat ≠ verNum := by
    rw [hver]
    decide
  obtain ⟨-, htype, hhl, hpl, -, -⟩ := deserializePacket_serializePacket hframed rest
  have hknown : p.type.Known := by cases h <;> trivial
  have hheader : p.headerLen.toNat = 16 := hframed.headerLen
  have hcopy : (readHeader (Block.memory (serializePacket p) rest) 2).copyLen = p.copyLen :=
    copyLen_congr hhl hpl
  have hs : standardHeaderLen = 16 := rfl
  have hlong : 16 ≤ p.packetLen.toNat := by
    rcases hframed.payload with ⟨-, -, hlen⟩ | ⟨-, ⟨n, -, hlen⟩⟩ | ⟨-, hlen⟩ <;> omega
  rw [Parse.safe_iff, WellFormed, if_pos hmagic, HeaderFits, if_neg hv, hhl, hpl]
  refine ⟨hlong, UInt16.le_iff_toNat_le.2 (hheader.trans_le hlong), ?_⟩
  rw [PayloadFits, htype hknown, hcopy, hhl, hpl]
  rcases hframed.payload with ⟨ht, hnum, hlen⟩ | ⟨ht, ⟨n, hn, hlen⟩⟩ | ⟨ht, -⟩
  · have hlist : p.type.hashTyped = true := by rcases ht with ht | ht | ht <;> rw [ht] <;> rfl
    have hcount : Block.memory (serializePacket p) rest p.headerLen.toNat = p.hashNum :=
      byte_serializePacket hframed rest (by
        rw [hframed.headerLen]
        simp [serializeWrites, serializePayload, hlist])
    have hpad : headerPadLen = 4 := rfl
    rw [hcount, hheader]
    rcases ht with ht | ht | ht <;> rw [ht]
    all_goals exact ⟨by omega, hnum, Or.inr (by rw [← hs]; exact hlen.ge)⟩
  · have hpcopy : p.copyLen = n := by
      rw [Packet.copyLen_of_le (UInt16.le_iff_toNat_le.2 (hheader.trans_le hlong)), hlen, hheader]
      omega
    rw [ht]
    exact ⟨hpcopy.trans_le hn, Or.inr le_rfl⟩
  · rw [ht]
    trivial

end P2P
