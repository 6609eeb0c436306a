/-
**The round trip of a packet** (`serialize_packet`, `deserialize_packet`).

The encoder writes the header at absolute offsets and the payload through a running pointer; the
decoder reads the header through a running pointer and finds the payload from `header_len`.  For
every packet whose length field says what its payload takes, the encoder tiles its buffer exactly,
so the decoder reads back what was written, whatever lies in memory behind the datagram.

Main definitions:

* `P2P.Packet.Framed` — the packets whose `packet_len` matches their payload.

Main results:

* `P2P.Packet.Framed.tiles` — the writes follow one another and end at `packet_len`;
* `P2P.window_serializePacket` — every field of the datagram is where it was written;
* `P2P.hashes_serializePacket` — the hashes come back;
* `P2P.serializePacket_roundTrip` — **the round trip**.
-/

import P2PFileTransfer.Packet
import Mathlib.Tactic.Ring

set_option relaxedAutoImplicit false
set_option autoImplicit false

namespace P2P

/-- The packets whose length field matches their payload. -/
structure Packet.Framed (p : Packet) : Prop where
  headerLen : p.headerLen.toNat = standardHeaderLen
  payload :
    (p.type = .whohas ∨ p.type = .ihave ∨ p.type = .get) ∧ p.hashNum.toNat ≤ maxHashInPacket ∧
        p.packetLen.toNat = standardHeaderLen + headerPadLen + binHashSize * p.hashNum.toNat ∨
      p.type = .data ∧ (∃ n ≤ dataSize, p.packetLen.toNat = standardHeaderLen + n) ∨
      p.type = .ack ∧ p.packetLen.toNat = standardHeaderLen

/-! ### The layout of a datagram -/

/-- The hashes of a payload follow one another. -/
theorem tiles_hashList (p : Packet) (o : ℕ) :
    Block.Tiles o ((List.range p.hashNum.toNat).map fun i =>
        (o + binHashSize * i, (p.hashList i).toList)) ∧
      Block.extent ((List.range p.hashNum.toNat).map fun i =>
        (o + binHashSize * i, (p.hashList i).toList)) = binHashSize * p.hashNum.toNat :=
  Block.tiles_map_range fun _ _ => by simp

/-- The payload follows the header and ends at `packet_len`. -/
theorem Packet.Framed.tiles_payload {p : Packet} (h : p.Framed) :
    Block.Tiles standardHeaderLen (serializePayload p standardHeaderLen) ∧
      standardHeaderLen + Block.extent (serializePayload p standardHeaderLen) =
        p.packetLen.toNat := by
  rcases h.payload with ⟨ht, -, hlen⟩ | ⟨ht, ⟨n, hn, hlen⟩⟩ | ⟨ht, hlen⟩
  · have hlist : p.type.hashTyped = true := by rcases ht with ht | ht | ht <;> rw [ht] <;> rfl
    obtain ⟨hT, hE⟩ := tiles_hashList p (standardHeaderLen + headerPadLen)
    rw [serializePayload, if_pos hlist, Block.tiles_append, Block.extent_append, hE, hlen]
    refine ⟨⟨by simp, hT⟩, ?_⟩
    simp [headerPadLen]
    omega
  · have hcopy : p.copyLen = n := by
      rw [Packet.copyLen_of_le, hlen, h.headerLen]
      · omega
      · rw [UInt16.le_iff_toNat_le, hlen, h.headerLen]; omega
    rw [serializePayload, ht, if_neg (by decide), if_neg (by decide), hlen, hcopy]
    simp
  · rw [serializePayload, ht, if_neg (by decide), if_pos rfl, hlen]
    simp

/-- **The writes of a framed packet follow one another and end at `packet_len`.** -/
theorem Packet.Framed.tiles {p : Packet} (h : p.Framed) :
    Block.Tiles 0 (serializeWrites p) ∧ Block.extent (serializeWrites p) = p.packetLen.toNat := by
  obtain ⟨hT, hE⟩ := h.tiles_payload
  rw [serializeWrites, Block.tiles_append, Block.extent_append]
  refine ⟨⟨by simp, ?_⟩, ?_⟩
  · simpa [standardHeaderLen] using hT
  · rw [← hE]; simp [standardHeaderLen]

/-- The writes of a framed packet stay inside the buffer. -/
theorem Packet.Framed.writes_le {p : Packet} (h : p.Framed) :
    ∀ w ∈ serializeWrites p, w.1 + w.2.length ≤ p.packetLen.toNat := by
  intro w hw
  have hle := h.tiles.1.end_le w hw
  rwa [h.tiles.2, Nat.zero_add] at hle

/-! ### Reading a datagram back -/

/-- Every write of a framed packet is found at its place in the datagram, whatever follows the
datagram in memory. -/
theorem window_serializePacket {p : Packet} (h : p.Framed) (rest : ℕ → UInt8)
    {w : ℕ × List UInt8} (hw : w ∈ serializeWrites p) :
    Block.window (Block.memory (serializePacket p) rest) w.1 w.2.length = w.2 := by
  have hfit := h.writes_le w hw
  rw [Block.window_memory _ _ hfit]
  exact Block.slice_blits_of_mem h.tiles.1 _ hw hfit

section Decode

variable {p : Packet} (h : p.Framed) (rest : ℕ → UInt8)
include h

/-- A number in the datagram reads as what was encoded there. -/
theorem readNet_serializePacket {o w m : ℕ} (hw : (o, NetOrder.encode w m) ∈ serializeWrites p)
    (hm : m < 256 ^ w) : readNet (Block.memory (serializePacket p) rest) o w = m := by
  have hwin := window_serializePacket h rest hw
  simp only [NetOrder.length_encode] at hwin
  rw [readNet, hwin, NetOrder.decode_encode_of_lt hm]

/-- A byte in the datagram reads as what was written there. -/
theorem byte_serializePacket {o : ℕ} {b : UInt8} (hw : (o, [b]) ∈ serializeWrites p) :
    Block.memory (serializePacket p) rest o = b := by
  have hwin := window_serializePacket h rest hw
  simpa [Block.window] using hwin

/-- The decoder finds the magic number and the version and goes on to the payload. -/
theorem deserializePacket_serializePacket :
    deserializePacket (Block.memory (serializePacket p) rest) =
      deserializePayload (readHeader (Block.memory (serializePacket p) rest) 2)
        (Block.memory (serializePacket p) rest) standardHeaderLen
        [(0, 2), (2, 1), (3, 1), (4, 2), (6, 2), (8, 4), (12, 4)] ∧
    (p.type.Known → (readHeader (Block.memory (serializePacket p) rest) 2).type = p.type) ∧
    (readHeader (Block.memory (serializePacket p) rest) 2).headerLen = p.headerLen ∧
    (readHeader (Block.memory (serializePacket p) rest) 2).packetLen = p.packetLen ∧
    (readHeader (Block.memory (serializePacket p) rest) 2).seqNum = p.seqNum ∧
    (readHeader (Block.memory (serializePacket p) rest) 2).ackNum = p.ackNum := by
  have hmagic := readNet_serializePacket h rest (o := 0) (w := 2) (m := magicNum)
    (by simp [serializeWrites]) (by decide)
  have hver := byte_serializePacket h rest (o := 2) (b := UInt8.ofNat verNum)
    (by simp [serializeWrites])
  have htype := byte_serializePacket h rest (o := 3) (b := p.type.toByte)
    (by simp [serializeWrites])
  have hhl := readNet_serializePacket h rest (o := 4) (w := 2) (m := p.headerLen.toNat)
    (by simp [serializeWrites]) p.headerLen.toNat_lt
  have hpl := readNet_serializePacket h rest (o := 6) (w := 2) (m := p.packetLen.toNat)
    (by simp [serializeWrites]) p.packetLen.toNat_lt
  have hseq := readNet_serializePacket h rest (o := 8) (w := 4) (m := p.seqNum.toNat)
    (by simp [serializeWrites]) p.seqNum.toNat_lt
  have hack := readNet_serializePacket h rest (o := 12) (w := 4) (m := p.ackNum.toNat)
    (by simp [serializeWrites]) p.ackNum.toNat_lt
  have hlen : (readHeader (Block.memory (serializePacket p) rest) 2).headerLen = p.headerLen := by
    simp [readHeader, hhl]
  refine ⟨?_, ?_, hlen, ?_, ?_, ?_⟩
  · have hv : ¬ (Block.memory (serializePacket p) rest 2).toNat ≠ verNum := by rw [hver]; decide
    rw [deserializePacket, if_pos hmagic, deserializeFrom, if_neg hv]
    simp only [hlen, h.headerLen]
    rfl
  · intro hk
    simp [readHeader, htype, PacketType.ofByte_toByte hk]
  · simp [readHeader, hpl]
  · simp [readHeader, hseq]
  · simp [readHeader, hack]

/-- A hash in the datagram reads as what was written there. -/
theorem readHash_serializePacket {o : ℕ} {hash : BinHash}
    (hw : (o, hash.toList) ∈ serializeWrites p) :
    readHash (Block.memory (serializePacket p) rest) o = hash := by
  have hwin := window_serializePacket h rest hw
  ext k hk : 1
  have hk' : k < (Block.window (Block.memory (serializePacket p) rest) o
      hash.toList.length).length := by simpa using hk
  have hget := Block.getElem_window (Block.memory (serializePacket p) rest) o _ k hk'
  simp only [hwin] at hget
  simp [readHash, ← hget]

/-- The payload of a `DATA` packet is found where the writes end. -/
theorem data_serializePacket {n i : ℕ}
    (hw : (standardHeaderLen, Block.window p.data 0 n) ∈ serializeWrites p) (hi : i < n) :
    Block.memory (serializePacket p) rest (standardHeaderLen + i) = p.data i := by
  have hwin := window_serializePacket h rest hw
  have hi' : i < (Block.window (Block.memory (serializePacket p) rest) standardHeaderLen
      (Block.window p.data 0 n).length).length := by simpa using hi
  have hget := Block.getElem_window (Block.memory (serializePacket p) rest) _ _ i hi'
  simp only [hwin] at hget
  rw [← hget]
  simp

/-- **The hashes come back**, with the type and the header fields. -/
theorem hashes_serializePacket (ht : p.type = .whohas ∨ p.type = .ihave ∨ p.type = .get) :
    ∃ q, (deserializePacket (Block.memory (serializePacket p) rest)).packet = some q ∧
      q.type = p.type ∧ q.headerLen = p.headerLen ∧ q.packetLen = p.packetLen ∧
      q.seqNum = p.seqNum ∧ q.ackNum = p.ackNum ∧ q.hashNum = p.hashNum ∧
      ∀ i < p.hashNum.toNat, q.hashList i = p.hashList i := by
  obtain ⟨hdec, htype, hhl, hpl, hseq, hack⟩ := deserializePacket_serializePacket h rest
  have hrt := htype (by rcases ht with ht | ht | ht <;> rw [ht] <;> trivial)
  have hlist : p.type.hashTyped = true := by rcases ht with ht | ht | ht <;> rw [ht] <;> rfl
  have hnum : Block.memory (serializePacket p) rest standardHeaderLen = p.hashNum :=
    byte_serializePacket h rest (by simp [serializeWrites, serializePayload, hlist])
  have hq := deserializePayload_of_hashTyped (by rw [hrt, hlist])
    (Block.memory (serializePacket p) rest) standardHeaderLen
    [(0, 2), (2, 1), (3, 1), (4, 2), (6, 2), (8, 4), (12, 4)]
  rw [← hdec] at hq
  refine ⟨_, hq, hrt, hhl, hpl, hseq, hack, hnum, fun i hi => ?_⟩
  have hw : (standardHeaderLen + headerPadLen + binHashSize * i, (p.hashList i).toList) ∈
      serializeWrites p := by
    rw [serializeWrites, serializePayload, if_pos hlist]
    refine List.mem_append_right _ (List.mem_append_right _ ?_)
    exact List.mem_map.2 ⟨i, List.mem_range.2 hi, rfl⟩
  simp only [hnum, hi, if_true]
  exact readHash_serializePacket h rest hw

end Decode

/-- **The round trip.**  A framed packet is serialized inside the `packet_len` bytes it allocates,
and deserializing the datagram gives back its type, its header fields, its hashes and its data. -/
theorem serializePacket_roundTrip (p : Packet) (h : p.Framed) (rest : ℕ → UInt8) :
    (∀ w ∈ serializeWrites p, w.1 + w.2.length ≤ p.packetLen.toNat) ∧
    ∃ q, (deserializePacket (Block.memory (serializePacket p) rest)).packet = some q ∧
      q.type = p.type ∧ q.headerLen = p.headerLen ∧ q.packetLen = p.packetLen ∧
      q.seqNum = p.seqNum ∧ q.ackNum = p.ackNum ∧
      (p.type = .whohas ∨ p.type = .ihave ∨ p.type = .get →
        q.hashNum = p.hashNum ∧ ∀ i < p.hashNum.toNat, q.hashList i = p.hashList i) ∧
      (p.type = .data →
        ∀ i < p.packetLen.toNat - standardHeaderLen, q.data i = p.data i) := by
  obtain ⟨hdec, htype, hhl, hpl, hseq, hack⟩ := deserializePacket_serializePacket h rest
  refine ⟨h.writes_le, ?_⟩
  set buf := Block.memory (serializePacket p) rest with hbuf
  set r := readHeader buf 2 with hr
  rcases h.payload with ⟨ht, -, hlen⟩ | ⟨ht, ⟨n, hn, hlen⟩⟩ | ⟨ht, hlen⟩
  · obtain ⟨q, hq, hqt, hqhl, hqpl, hqseq, hqack, hqhashes⟩ := hashes_serializePacket h rest ht
    refine ⟨q, hq, hqt, hqhl, hqpl, hqseq, hqack, fun _ => hqhashes, fun hd => ?_⟩
    rw [hd] at ht
    simp at ht
  · have hrt : r.type = p.type := htype (by rw [ht]; trivial)
    have hcopy : r.copyLen = n := by
      rw [Packet.copyLen_of_le, hhl, hpl, hlen, h.headerLen]
      · omega
      · rw [UInt16.le_iff_toNat_le, hhl, hpl, hlen, h.headerLen]; omega
    have hpcopy : p.copyLen = n := by rw [← hcopy, Packet.copyLen, Packet.copyLen, hhl, hpl]
    have hq := congrArg Parse.packet (deserializePayload_of_data (p := r)
      (by rw [hrt, ht]; rfl) (by rw [hrt, ht]; decide) buf standardHeaderLen
      [(0, 2), (2, 1), (3, 1), (4, 2), (6, 2), (8, 4), (12, 4)])
    rw [← hdec] at hq
    refine ⟨_, hq, hrt, hhl, hpl, hseq, hack, ?_, ?_⟩
    · intro hl
      rw [ht] at hl
      simp at hl
    · intro _ i hi
      have hi' : i < n := by omega
      have hw : (standardHeaderLen, Block.window p.data 0 n) ∈ serializeWrites p := by
        simp [serializeWrites, serializePayload, ht, PacketType.hashTyped, hpcopy]
      simp only [hcopy, hi', if_true]
      exact data_serializePacket h rest hw hi'
  · have hrt : r.type = p.type := htype (by rw [ht]; trivial)
    refine ⟨r, by rw [hdec, deserializePayload_of_ack (by rw [hrt, ht])], hrt, hhl, hpl, hseq, hack,
      ?_, ?_⟩
    · intro hl
      rw [ht] at hl
      simp at hl
    · intro hd
      rw [ht] at hd
      simp at hd

/-- The round trip of a `GET` for one hash. -/
theorem serializePacket_roundTrip_get :
    ∃ q, (deserializePacket (Block.memory (serializePacket
        ⟨.get, 16, 40, 1, 0, 1, fun _ => Vector.replicate binHashSize 7, fun _ => 0⟩)
        fun _ => 9)).packet = some q ∧ q.type = .get ∧
      q.hashList 0 = Vector.replicate binHashSize 7 := by
  obtain ⟨-, q, hq, ht, -, -, -, -, hl, -⟩ := serializePacket_roundTrip
    ⟨.get, 16, 40, 1, 0, 1, fun _ => Vector.replicate binHashSize 7, fun _ => 0⟩
    ⟨rfl, Or.inl ⟨Or.inr (Or.inr rfl), by decide, by decide⟩⟩ (fun _ => 9)
  exact ⟨q, hq, ht, (hl (Or.inr (Or.inr rfl))).2 0 (by decide)⟩

end P2P
