/-
**The packets a peer builds** (`send_GET`, `send_ACK`, `send_WHOHAS`, `send_IHAVE`, `send_DATA`,
`send_DENIED`).

Six functions fill in a packet and hand it to `serialize_packet`, which takes its view of the packet
from the type alone.  Two things should hold of what they hand over: every field that is read was
assigned, so that what memory held before does not matter, and the buffer of `packet_len` bytes has
room for all that is written.  `send_DENIED` misses both: it assigns neither the numbers nor the
count of hashes, and its `packet_len` has no room for the count.  And `send_IHAVE` hands nothing
over when its list is longer than the array in the packet: it has left the array by then.

Main definitions:

* `P2P.Sender`, `P2P.Sender.run`, `P2P.Sender.built` — the six functions with their arguments, what
  they do, and the packets they hand to `serialize_packet`;
* `P2P.hashBatches` — the lists of hashes that `send_WHOHAS` puts in one packet each;
* `P2P.Sender.Safe` — what should hold of the packets.

Main results:

* `P2P.sendWHOHAS_eq`, `P2P.flatten_hashBatches` — `send_WHOHAS` sends one packet a batch, and the
  batches are the hashes of the missing chunks;
* `P2P.Sender.mem_trace_run` — what is sent is what was built;
* `P2P.below_serializeWrites_iff` — **when a buffer has room for a packet**;
* `P2P.Sender.builders_safe_iff` — **which packets are as they should be**.
-/

import P2PFileTransfer.PacketSafety

set_option relaxedAutoImplicit false
set_option autoImplicit false

namespace P2P

/-! ### The batches of `send_WHOHAS` -/

/-- The lists of hashes that `send_WHOHAS` puts in one packet each; `hashes` are waiting. -/
def hashBatches : List BinHash → List BinHash → List (List BinHash)
  | [], _ => []
  | hash :: rest, hashes =>
      let hashes := hashes ++ [hash]
      if hashes.length = maxHashInPacket ∨ rest = [] then hashes :: hashBatches rest []
      else hashBatches rest hashes

/-- The peers that a packet for everyone goes to. -/
def State.audience (s : State) : List ℕ :=
  (List.range s.peers.next).filter fun p => s.identity ≠ s.peerId p

/-- Sending to everyone leaves everything but the trace. -/
theorem sendPacketToAll_eq (s : State) (pack : Packet) : s.sendPacketToAll pack =
    { s with trace := s.trace ++ s.audience.map fun p => .send p pack none } := by
  suffices hl : ∀ (l : List ℕ) (s' : State), l.foldl
      (fun s' p => if s.identity ≠ s.peerId p then s'.sendPacketToPeer p pack none else s') s' =
        { s' with trace := s'.trace ++
            (l.filter fun p => s.identity ≠ s.peerId p).map fun p => .send p pack none } from
    hl (List.range s.peers.next) s
  intro l
  induction l with
  | nil =>
      intro s'
      rw [List.filter_nil, List.map_nil, List.append_nil]
      rfl
  | cons p l ih =>
      intro s'
      rw [List.foldl_cons, ih]
      by_cases hid : s.identity = s.peerId p
      · simp [hid]
      · simp [hid, State.sendPacketToPeer]

/-- The packets that go out for one batch. -/
def State.asks (s : State) (batch : List BinHash) : List Effect :=
  s.audience.map fun p => .send p (whohasPacket batch) none

theorem sendWHOHASLoop_eq (l : List ℕ) (hashes : List BinHash) (s : State) :
    sendWHOHASLoop l hashes s =
      { s with trace := s.trace ++ (hashBatches (l.map s.binHash) hashes).flatMap s.asks } := by
  induction l generalizing hashes s with
  | nil =>
      rw [sendWHOHASLoop, List.map_nil, hashBatches, List.flatMap_nil, List.append_nil]
  | cons q l ih =>
      rw [sendWHOHASLoop, List.map_cons, hashBatches]
      simp only [List.map_eq_nil_iff]
      split_ifs with hfull
      · rw [ih, sendPacketToAll_eq, List.flatMap_cons, ← List.append_assoc]
        rfl
      · exact ih _ s

/-- **`send_WHOHAS` sends one packet a batch.** -/
theorem sendWHOHAS_eq (s : State) : sendWHOHAS s =
    { s with trace := s.trace ++ (hashBatches (s.missing.map s.binHash) []).flatMap s.asks } :=
  sendWHOHASLoop_eq s.missing [] s

/-- The batches are the hashes of the missing chunks, in order. -/
theorem flatten_hashBatches {l hashes : List BinHash} (h : l = [] → hashes = []) :
    (hashBatches l hashes).flatten = hashes ++ l := by
  induction l generalizing hashes with
  | nil => rw [h rfl, hashBatches, List.flatten_nil, List.append_nil]
  | cons hash l ih =>
      rw [hashBatches]
      split_ifs with hfull
      · rw [List.flatten_cons, ih fun _ => rfl, List.nil_append, List.append_assoc,
          List.singleton_append]
      · rw [ih fun hl => absurd (Or.inr hl) hfull, List.append_assoc, List.singleton_append]

/-- No batch has more hashes than a packet. -/
theorem length_le_of_mem_hashBatches {l hashes batch : List BinHash}
    (hlen : hashes.length < maxHashInPacket) (h : batch ∈ hashBatches l hashes) :
    batch.length ≤ maxHashInPacket := by
  induction l generalizing hashes with
  | nil => exact absurd h List.not_mem_nil
  | cons hash l ih =>
      have hnext : (hashes ++ [hash]).length ≤ maxHashInPacket := by
        rw [List.length_append]
        exact hlen
      simp only [hashBatches] at h
      split_ifs at h with hfull
      · rcases List.mem_cons.1 h with rfl | h
        · exact hnext
        · exact ih (by decide) h
      · exact ih (lt_of_le_of_ne hnext fun heq => hfull (Or.inl heq)) h

/-- Every batch has a hash. -/
theorem ne_nil_of_mem_hashBatches {l hashes batch : List BinHash}
    (h : batch ∈ hashBatches l hashes) : batch ≠ [] := by
  induction l generalizing hashes with
  | nil => exact absurd h List.not_mem_nil
  | cons hash l ih =>
      simp only [hashBatches] at h
      split_ifs at h with hfull
      · rcases List.mem_cons.1 h with rfl | h
        · exact List.append_ne_nil_of_right_ne_nil _ (List.cons_ne_nil _ _)
        · exact ih h
      · exact ih h

/-- All batches but the last one are full. -/
theorem length_eq_of_mem_dropLast {l hashes batch : List BinHash}
    (h : batch ∈ (hashBatches l hashes).dropLast) : batch.length = maxHashInPacket := by
  induction l generalizing hashes with
  | nil => exact absurd h List.not_mem_nil
  | cons hash l ih =>
      simp only [hashBatches] at h
      split_ifs at h with hfull
      · cases hrest : hashBatches l [] with
        | nil =>
            rw [hrest] at h
            exact absurd h List.not_mem_nil
        | cons next batches =>
            -- a batch follows, so the list has not ended
            have hl : l ≠ [] := by
              rintro rfl
              rw [hashBatches] at hrest
              cases hrest
            rw [hrest, List.dropLast_cons_cons, ← hrest] at h
            rcases List.mem_cons.1 h with rfl | h
            · exact hfull.resolve_right hl
            · exact ih h
      · exact ih h

/-! ### The six functions -/

/-- A call of one of the functions that build packets. -/
inductive Sender where
  | get (peer : ℕ) (binHash : BinHash) (count : ℕ)
  | ack (peer ackNum : ℕ)
  | whohas
  | ihave (peer : ℕ) (binHashList : List BinHash)
  | data (transfer : Transfer)
  | denied (peer : ℕ)

namespace Sender

/-- What the call does. -/
def run : Sender → State → Except Fault State
  | get peer binHash count, s => .ok (sendGET s peer binHash count)
  | ack peer ackNum, s => .ok (sendACK s peer ackNum)
  | whohas, s => .ok (sendWHOHAS s)
  | ihave peer binHashList, s => sendIHAVE s peer binHashList
  | data t, s =>
      let sent := sendDATA (s.chunks.cell t.c) t
      .ok (s.sendPieces sent.1 sent.2)
  | denied peer, s => .ok (sendDENIED s peer)

/-- The packets that the call hands to `serialize_packet`. -/
def built : Sender → State → Except Fault (List Packet)
  | get peer binHash count, s =>
      .ok (if (s.findIncoming peer).isSome then [getPacket (s.junk 0) binHash count] else [])
  | ack peer ackNum, s =>
      .ok (if (s.findIncoming peer).isSome then [ackPacket (s.junk 0) ackNum] else [])
  | whohas, s => .ok ((hashBatches (s.missing.map s.binHash) []).map whohasPacket)
  | ihave _ binHashList, s =>
      if binHashList.length ≤ maxHashInPacket then .ok [ihavePacket (s.junk 0) binHashList]
      else .error .outOfBounds
  | data t, s => .ok (sendDATA (s.chunks.cell t.c) t).2
  | denied _, s => .ok [deniedPacket (s.junk 0)]

/-- **What is sent is what was built.** -/
theorem mem_trace_run {b : Sender} {s s' : State} (hrun : b.run s = .ok s') {e : Effect}
    (h : e ∈ s'.trace) : e ∈ s.trace ∨ ∃ packs, b.built s = .ok packs ∧
      ∃ pack ∈ packs, ∃ dest about, e = .send dest pack about := by
  have happend : ∀ {e e' : Effect} {l : List Effect}, e ∈ l ++ [e'] → e ∈ l ∨ e = e' := by
    intro e e' l he
    simpa using he
  cases b with
  | get peer binHash count =>
      cases hrun
      rw [sendGET] at h
      rw [built]
      cases hfind : s.findIncoming peer with
      | none =>
          simp only [hfind] at h
          exact Or.inl h
      | some n =>
          simp only [hfind] at h
          exact (happend h).imp_right fun he => ⟨_, rfl, _, List.mem_singleton.2 rfl, peer, _, he⟩
  | ack peer ackNum =>
      cases hrun
      rw [sendACK] at h
      rw [built]
      cases hfind : s.findIncoming peer with
      | none =>
          simp only [hfind] at h
          exact Or.inl h
      | some n =>
          simp only [hfind] at h
          exact (happend h).imp_right fun he => ⟨_, rfl, _, List.mem_singleton.2 rfl, peer, _, he⟩
  | whohas =>
      cases hrun
      rw [sendWHOHAS_eq] at h
      refine (List.mem_append.1 h).imp_right fun he => ?_
      obtain ⟨batch, hbatch, he⟩ := List.mem_flatMap.1 he
      obtain ⟨p, -, rfl⟩ := List.mem_map.1 he
      exact ⟨_, rfl, _, List.mem_map_of_mem hbatch, p, none, rfl⟩
  | ihave peer binHashList =>
      rw [run, sendIHAVE] at hrun
      split_ifs at hrun with hlen
      cases hrun
      exact (happend h).imp_right fun he =>
        ⟨_, if_pos hlen, _, List.mem_singleton.2 rfl, peer, _, he⟩
  | data t =>
      cases hrun
      refine (List.mem_append.1 h).imp_right fun he => ?_
      obtain ⟨pack, hpack, rfl⟩ := List.mem_map.1 he
      exact ⟨_, rfl, pack, hpack, _, _, rfl⟩
  | denied peer =>
      cases hrun
      exact (happend h).imp_right fun he => ⟨_, rfl, _, List.mem_singleton.2 rfl, peer, _, he⟩

/-! ### What should hold of a packet -/

/-- The runs of bytes that `serialize_packet` writes: offset and length. -/
def written (p : Packet) : List (ℕ × ℕ) := (serializeWrites p).map fun w => (w.1, w.2.length)

/-- **What should hold of the packets of a call**: they are built inside their arrays, what is
written does not depend on what memory held before, and lies inside the buffer. -/
structure Safe (b : Sender) (s : State) : Prop where
  assigned : ∀ junk : ℕ → Packet, List.map serializeWrites <$> b.built { s with junk := junk } =
    List.map serializeWrites <$> b.built s
  inside : ∃ packs, b.built s = .ok packs ∧ ∀ p ∈ packs, Below p.packetLen.toNat (written p)

/-- The calls whose packets are as they should be: all but those of `send_DENIED`, and those of
`send_IHAVE` with more hashes than the packet has room for. -/
def Fits : Sender → Prop
  | denied _ => False
  | ihave _ binHashList => binHashList.length ≤ maxHashInPacket
  | _ => True

end Sender

/-! ### Room in the buffer -/

/-- **When a buffer has room for a packet.** -/
theorem below_serializeWrites_iff {p : Packet} {n : ℕ} :
    Below n (Sender.written p) ↔ standardHeaderLen ≤ n ∧
      (if p.type.hashTyped then
        standardHeaderLen + headerPadLen + binHashSize * p.hashNum.toNat ≤ n
      else p.type = .ack ∨ p.copyLen = 0 ∨ standardHeaderLen + p.copyLen ≤ n) := by
  have hheader : Below n (Sender.written p) ↔ standardHeaderLen ≤ n ∧
      Below n ((serializePayload p standardHeaderLen).map fun w => (w.1, w.2.length)) := by
    rw [Sender.written, serializeWrites, List.map_append, below_append]
    refine and_congr_left fun _ => ?_
    simp only [List.map_cons, List.map_nil, below_cons, below_nil, NetOrder.length_encode,
      List.length_singleton, standardHeaderLen, OfNat.ofNat_ne_zero, one_ne_zero, false_or,
      and_true]
    omega
  rw [hheader]
  refine and_congr_right fun hn => ?_
  rw [serializePayload]
  split_ifs with hlist hack
  · have hhashes := below_map_range (n := n) (o := standardHeaderLen + headerPadLen)
      (m := p.hashNum.toNat) (by decide : 0 < binHashSize)
    simp only [List.map_append, List.map_map, List.map_cons, List.map_nil, below_append, below_cons,
      below_nil, Function.comp_def, Vector.length_toList, List.length_singleton, hhashes,
      one_ne_zero, false_or, and_true]
    simp only [standardHeaderLen, headerPadLen, binHashSize] at hn ⊢
    omega
  · simp [hack]
  · simp [hack]

/-- Two packets with the same header and hashes are written alike. -/
theorem serializeWrites_congr_of_hashTyped {p q : Packet} (hlist : p.type.hashTyped = true)
    (ht : p.type = q.type) (hhl : p.headerLen = q.headerLen) (hpl : p.packetLen = q.packetLen)
    (hseq : p.seqNum = q.seqNum) (hack : p.ackNum = q.ackNum) (hnum : p.hashNum = q.hashNum)
    (hhash : ∀ i < p.hashNum.toNat, p.hashList i = q.hashList i) :
    serializeWrites p = serializeWrites q := by
  have hq : q.type.hashTyped = true := by rw [← ht, hlist]
  rw [serializeWrites, serializeWrites, serializePayload, serializePayload, if_pos hlist, if_pos hq,
    ht, hhl, hpl, hseq, hack, hnum]
  congr 2
  refine List.map_congr_left fun i hi => ?_
  rw [hhash i (by rw [hnum]; exact List.mem_range.1 hi)]

/-! ### The packets of each function -/

theorem length_toUInt8_of_le {n : ℕ} (h : n ≤ maxHashInPacket) : (UInt8.ofNat n).toNat = n := by
  have hmax : maxHashInPacket = 74 := rfl
  rw [UInt8.toNat_ofNat']
  omega

/-- A list of hashes that fits a packet fits its buffer. -/
theorem below_written_of_hashes {p : Packet} {n : ℕ} (hn : n ≤ maxHashInPacket)
    (hlist : p.type.hashTyped = true)
    (hpl : p.packetLen = UInt16.ofNat (standardHeaderLen + headerPadLen + n * binHashSize))
    (hnum : p.hashNum = UInt8.ofNat n) : Below p.packetLen.toNat (Sender.written p) := by
  have hmax : maxHashInPacket = 74 := rfl
  have hsize : binHashSize = 20 := rfl
  have hlen : p.packetLen.toNat = standardHeaderLen + headerPadLen + n * binHashSize := by
    rw [hpl, UInt16.toNat_ofNat']
    refine Nat.mod_eq_of_lt ?_
    rw [hsize, standardHeaderLen, headerPadLen]
    omega
  rw [below_serializeWrites_iff, if_pos hlist, hlen, hnum, length_toUInt8_of_le hn]
  refine ⟨by rw [standardHeaderLen]; omega, ?_⟩
  rw [Nat.mul_comm]

namespace Sender

theorem safe_get (peer : ℕ) (binHash : BinHash) (count : ℕ) (s : State) :
    (get peer binHash count).Safe s := by
  refine ⟨fun junk => ?_, _, rfl, fun p hp => ?_⟩
  · rw [built, built]
    have hfind : State.findIncoming { s with junk := junk } peer = s.findIncoming peer := rfl
    rw [hfind]
    refine congrArg Except.ok ?_
    split_ifs
    · rw [List.map_singleton, List.map_singleton, List.singleton_inj]
      refine serializeWrites_congr_of_hashTyped rfl rfl rfl rfl rfl rfl rfl fun i hi => ?_
      have hi₀ : i = 0 := Nat.lt_one_iff.1 hi
      rw [hi₀]
      rfl
    · rfl
  · split_ifs at hp
    · rw [List.mem_singleton.1 hp]
      exact below_written_of_hashes (n := 1) (by decide) rfl rfl rfl
    · exact absurd hp List.not_mem_nil

theorem safe_ack (peer ackNum : ℕ) (s : State) : (ack peer ackNum).Safe s := by
  refine ⟨fun junk => ?_, _, rfl, fun p hp => ?_⟩
  · rw [built, built]
    have hfind : State.findIncoming { s with junk := junk } peer = s.findIncoming peer := rfl
    rw [hfind]
    split_ifs <;> rfl
  · split_ifs at hp
    · rw [List.mem_singleton.1 hp, below_serializeWrites_iff]
      exact ⟨le_rfl, Or.inl rfl⟩
    · exact absurd hp List.not_mem_nil

theorem safe_whohas (s : State) : whohas.Safe s := by
  refine ⟨fun junk => rfl, _, rfl, fun p hp => ?_⟩
  obtain ⟨batch, hbatch, rfl⟩ := List.mem_map.1 hp
  exact below_written_of_hashes (length_le_of_mem_hashBatches (by decide) hbatch) rfl rfl rfl

theorem safe_data (t : Transfer) (s : State) : (data t).Safe s := by
  refine ⟨fun junk => rfl, _, rfl, fun p hp => ?_⟩
  obtain ⟨i, hi, rfl⟩ := mem_sendDATA hp
  have hlen : (dataPacket (s.chunks.cell t.c) i).packetLen.toNat =
      standardHeaderLen + min dataSize (btChunkSize - i * dataSize) := by
    have hpiece := (pieceLen_eq hi).2
    have hd := dataSize_eq
    have hs : standardHeaderLen = 16 := rfl
    simp only [dataPacket, hpiece, UInt16.toNat_ofNat']
    omega
  rw [below_serializeWrites_iff, hlen, copyLen_dataPacket _ hi]
  exact ⟨Nat.le_add_right _ _, Or.inr (Or.inr le_rfl)⟩

/-- The list is written as it was handed over. -/
theorem assigned_ihave (peer : ℕ) (l : List BinHash) (s : State) (junk : ℕ → Packet) :
    List.map serializeWrites <$> (ihave peer l).built { s with junk := junk } =
      List.map serializeWrites <$> (ihave peer l).built s := by
  rw [built, built]
  split_ifs
  · refine congrArg Except.ok ?_
    rw [List.map_singleton, List.map_singleton, List.singleton_inj]
    refine serializeWrites_congr_of_hashTyped rfl rfl rfl rfl rfl rfl rfl fun i hi => ?_
    have hi' : i < l.length := lt_of_lt_of_le hi (by
      show (UInt8.ofNat l.length).toNat ≤ l.length
      rw [UInt8.toNat_ofNat']
      exact Nat.mod_le _ _)
    have hget : ∀ hash, l.getD i hash = l[i] := fun hash => by simp [hi']
    exact (hget _).trans (hget _).symm
  · rfl

theorem safe_ihave_iff (peer : ℕ) (l : List BinHash) (s : State) :
    (ihave peer l).Safe s ↔ (ihave peer l).Fits := by
  constructor
  · intro h
    obtain ⟨packs, hpacks, -⟩ := h.inside
    rw [built] at hpacks
    split_ifs at hpacks with hlen
    exact hlen
  · intro hlen
    refine ⟨assigned_ihave peer l s, _, if_pos hlen, fun p hp => ?_⟩
    rw [List.mem_singleton.1 hp]
    exact below_written_of_hashes hlen rfl rfl rfl

/-- The count of hashes of a `DENIED` packet has no room in its buffer, which ends with the
header. -/
theorem not_safe_denied (peer : ℕ) (s : State) : ¬ (denied peer).Safe s := by
  intro h
  obtain ⟨packs, hpacks, hroom⟩ := h.inside
  cases hpacks
  replace hroom := hroom _ (List.mem_singleton.2 rfl)
  rw [below_serializeWrites_iff] at hroom
  have hle : standardHeaderLen + headerPadLen +
      binHashSize * (deniedPacket (s.junk 0)).hashNum.toNat ≤ standardHeaderLen := hroom.2
  simp only [headerPadLen] at hle
  omega

/-- **Which packets are as they should be**: those of every call but `send_DENIED`, whatever the
state and the arguments, as long as the packet of an `IHAVE` has room for its hashes. -/
theorem builders_safe_iff (b : Sender) (s : State) : b.Safe s ↔ b.Fits := by
  cases b with
  | get peer binHash count => exact ⟨fun _ => trivial, fun _ => safe_get peer binHash count s⟩
  | ack peer ackNum => exact ⟨fun _ => trivial, fun _ => safe_ack peer ackNum s⟩
  | whohas => exact ⟨fun _ => trivial, fun _ => safe_whohas s⟩
  | ihave peer l => exact safe_ihave_iff peer l s
  | data t => exact ⟨fun _ => trivial, fun _ => safe_data t s⟩
  | denied peer => exact ⟨fun h => not_safe_denied peer s h, False.elim⟩

/-- A peer without chunks denies a `GET`: the count of hashes of the packet is the byte that memory
held, and it is written behind the buffer. -/
theorem denied_writes_past_buffer :
    ¬ ∀ b : Sender, b.Safe (peerSetup ⟨[(1, ⟨0, 1⟩)], 2, 4, [], none⟩ (fun _ => 0)
      fun _ => zeroPacket) := by
  intro h
  obtain ⟨packs, hpacks, hroom⟩ := (h (denied 0)).inside
  cases hpacks
  have hlast := hroom _ (List.mem_singleton.2 rfl) (16, 1) (by decide) 0 (by decide)
  exact absurd hlast (by decide)

end Sender

end P2P
