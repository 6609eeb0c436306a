/-
**Which hashes are asked for, and which are answered** (`send_WHOHAS`, `receive_WHOHAS`,
`send_IHAVE`).

The client puts the hashes of its missing chunks into packets of at most 74: the packets that any
other peer is sent list each of them once, in the order of the list.  The server should answer with
the hashes of the packet that it owns.  But it looks for every hash in the whole have list and does
not stop at the first chunk that has it.  A has-chunks file may name a hash on several lines; then
the hash is answered several times, and the array on the stack is too short for all of them.

Main definitions:

* `P2P.RepliesExactly` — what the answer to a packet should be.

Main results:

* `P2P.whohas_batches` — **what the other peers are asked**;
* `P2P.flatMap_replicate_eq_filter_iff` — when a list with multiplicities is a part of a list;
* `P2P.replies_exactly_iff` — **when the answer is what it should be**.
-/

import P2PFileTransfer.Discovery

set_option relaxedAutoImplicit false
set_option autoImplicit false

namespace P2P

/-! ### Questions -/

/-- The lengths of a packet of hashes. -/
theorem packetLen_of_le {n : ℕ} (h : n ≤ maxHashInPacket) :
    (UInt16.ofNat (standardHeaderLen + headerPadLen + n * binHashSize)).toNat = 20 + 20 * n := by
  have hmax : maxHashInPacket = 74 := rfl
  have hsize : binHashSize = 20 := rfl
  rw [UInt16.toNat_ofNat', hsize, standardHeaderLen, headerPadLen]
  omega

/-- **What the other peers are asked.**  `send_WHOHAS` sends packets and does nothing else.  The
packets that a peer of another identifier is sent list the hashes of the missing chunks, in the
order of the list; each has 1 to 74 hashes, all but the last one have 74, and the length is that of
the hashes.  A peer of the program's own identifier is sent none. -/
theorem whohas_batches (s : State) : ∃ es, sendWHOHAS s = { s with trace := s.trace ++ es } ∧
    (∀ p < s.peers.next, s.peerId p ≠ s.identity →
      (sentTo p es).flatMap Packet.hashes = s.missing.map s.binHash ∧
        (∀ pack ∈ sentTo p es, pack.type = .whohas ∧ 1 ≤ pack.hashNum.toNat ∧
          pack.hashNum.toNat ≤ 74 ∧ pack.packetLen.toNat = 20 + 20 * pack.hashNum.toNat ∧
          pack.packetLen.toNat ≤ 1500) ∧
        ∀ pack ∈ (sentTo p es).dropLast, pack.hashNum.toNat = 74) ∧
    ∀ p, s.peerId p = s.identity → sentTo p es = [] := by
  refine ⟨_, sendWHOHAS_eq s, fun p hp hid => ?_, fun p hid => ?_⟩
  · have hmem : p ∈ s.audience :=
      List.mem_filter.2 ⟨List.mem_range.2 hp, decide_eq_true (Ne.symm hid)⟩
    have hle : ∀ batch ∈ hashBatches (s.missing.map s.binHash) [],
        batch.length ≤ maxHashInPacket :=
      fun batch => length_le_of_mem_hashBatches (by decide)
    have hnum : ∀ batch ∈ hashBatches (s.missing.map s.binHash) [],
        (whohasPacket batch).hashNum.toNat = batch.length :=
      fun batch hbatch => length_toUInt8_of_le (hle batch hbatch)
    rw [sentTo_asks, if_pos hmem]
    refine ⟨?_, fun pack hpack => ?_, fun pack hpack => ?_⟩
    · rw [List.flatMap_map]
      refine (List.flatMap_congr fun batch hbatch =>
        hashes_whohasPacket (hle batch hbatch)).trans ?_
      rw [List.flatMap_id', flatten_hashBatches fun _ => rfl, List.nil_append]
    · obtain ⟨batch, hbatch, rfl⟩ := List.mem_map.1 hpack
      have hlen : (whohasPacket batch).packetLen.toNat = 20 + 20 * batch.length :=
        packetLen_of_le (hle batch hbatch)
      have hpos := List.length_pos_of_ne_nil (ne_nil_of_mem_hashBatches hbatch)
      have h74 : batch.length ≤ 74 := hle batch hbatch
      rw [hnum batch hbatch, hlen]
      exact ⟨rfl, hpos, h74, rfl, by omega⟩
    · rw [← List.map_dropLast] at hpack
      obtain ⟨batch, hbatch, rfl⟩ := List.mem_map.1 hpack
      rw [hnum batch (List.dropLast_subset _ hbatch), length_eq_of_mem_dropLast hbatch]
      rfl
  · have hmem : p ∉ s.audience := fun hp =>
      of_decide_eq_true (List.mem_filter.1 hp).2 hid.symm
    rw [sentTo_asks, if_neg hmem]

/-! ### Answers -/

/-- **When a list with multiplicities is a part of a list**: each entry comes at most once. -/
theorem flatMap_replicate_eq_filter_iff {α : Type*} (c : α → ℕ) (l : List α) :
    (l.flatMap fun a => List.replicate (c a) a) = l.filter (fun a => 0 < c a) ↔
      ∀ a ∈ l, c a ≤ 1 := by
  have hle : ∀ l : List α, (l.filter fun a => 0 < c a).length ≤
      (l.flatMap fun a => List.replicate (c a) a).length := by
    intro l
    induction l with
    | nil => exact Nat.le_refl _
    | cons a l ih =>
        rw [List.flatMap_cons, List.length_append, List.length_replicate, List.filter_cons]
        split_ifs with hpos
        · rw [List.length_cons]
          have hpos' : 0 < c a := by simpa using hpos
          omega
        · omega
  induction l with
  | nil => simp
  | cons a l ih =>
      rw [List.flatMap_cons, List.filter_cons, List.forall_mem_cons]
      refine Iff.trans ?_ (and_congr_right fun _ => ih)
      rcases hc : c a with _ | _ | k
      · simp
      · simp
      · -- the entry alone makes the list too long
        refine ⟨fun heq => ?_, fun hle₁ => absurd hle₁.1 (by omega)⟩
        rw [if_pos (decide_eq_true (Nat.succ_pos _))] at heq
        have hlen := congrArg List.length heq
        have hrest := hle l
        rw [List.length_append, List.length_replicate, List.length_cons] at hlen
        omega

/-- The number of owned chunks with a hash. -/
def State.copies (s : State) (hash : BinHash) : ℕ :=
  s.haveList.countP fun q => compareBinHash (s.binHash q) hash

theorem State.copies_pos_iff {s : State} {hash : BinHash} : 0 < s.copies hash ↔ s.Owns hash := by
  rw [State.copies, List.countP_pos_iff]
  simp only [compareBinHash_iff]
  rfl

/-- Every hash is answered as often as it is owned. -/
theorem ownedHashes_eq_replicate (s : State) (pack : Packet) :
    ownedHashes s pack = pack.hashes.flatMap fun hash => List.replicate (s.copies hash) hash := by
  rw [ownedHashes_eq]
  refine List.flatMap_congr fun hash _ => ?_
  rw [List.eq_replicate_iff, List.length_map, ← List.countP_eq_length_filter]
  refine ⟨rfl, fun b hb => ?_⟩
  obtain ⟨q, hq, rfl⟩ := List.mem_map.1 hb
  exact compareBinHash_iff.1 (List.mem_filter.1 hq).2

/-- **What the answer to a packet should be**: it is computed inside the array, and one packet goes
out that lists the hashes of the packet that are owned, in their order, and has the length of
them. -/
def RepliesExactly (s : State) (pack : Packet) (peer : ℕ) : Prop :=
  ∃ s' answer, receiveWHOHAS s pack peer = .ok s' ∧
    s'.trace = s.trace ++ [.send peer answer none] ∧ answer.type = .ihave ∧
    answer.hashes = pack.hashes.filter (fun hash => s.Owns hash) ∧
    answer.packetLen.toNat = 20 + 20 * answer.hashNum.toNat ∧ answer.packetLen.toNat ≤ 1500

/-- **When the answer is what it should be**: no hash of the packet is owned by two chunks. -/
theorem replies_exactly_iff (s : State) (pack : Packet) (peer : ℕ) (h : pack.hashNum.toNat ≤ 74) :
    RepliesExactly s pack peer ↔ ∀ hash ∈ pack.hashes, s.copies hash ≤ 1 := by
  have hmax : maxHashInPacket = 74 := rfl
  have hown : pack.hashes.filter (fun hash => s.Owns hash) =
      pack.hashes.filter fun hash => 0 < s.copies hash :=
    List.filter_congr fun hash _ => decide_eq_decide.2 State.copies_pos_iff.symm
  rw [← flatMap_replicate_eq_filter_iff, ← ownedHashes_eq_replicate, ← hown]
  constructor
  · rintro ⟨s', answer, hok, htrace, -, hhashes, -⟩
    rw [receiveWHOHAS_eq] at hok
    split_ifs at hok with hlen
    cases hok
    have hsent := List.append_cancel_left htrace
    cases hsent
    rw [← hhashes, hashes_ihavePacket _ hlen]
  · intro hanswer
    have hlen : (ownedHashes s pack).length ≤ maxHashInPacket := by
      rw [hanswer]
      refine le_trans (List.length_filter_le _ _) ?_
      rw [Packet.hashes, List.length_map, List.length_range]
      exact h
    have hnum : (ihavePacket (s.junk 0) (ownedHashes s pack)).hashNum.toNat =
        (ownedHashes s pack).length := length_toUInt8_of_le hlen
    have hplen : (ihavePacket (s.junk 0) (ownedHashes s pack)).packetLen.toNat =
        20 + 20 * (ownedHashes s pack).length := packetLen_of_le hlen
    refine ⟨_, _, receiveWHOHAS_of_le _ hlen, rfl, rfl, ?_, ?_, ?_⟩
    · rw [hashes_ihavePacket _ hlen, hanswer]
    · rw [hplen, hnum]
    · omega

/-- A question for the hash of forty zeros, `n` times. -/
def zeroQuestion (n : ℕ) : Packet :=
  whohasPacket (List.replicate n (binHashOf (Vector.replicate hexHashSize 48)))

theorem hashes_zeroQuestion {n : ℕ} (h : n ≤ maxHashInPacket) : (zeroQuestion n).hashes =
    List.replicate n (binHashOf (Vector.replicate hexHashSize 48)) :=
  hashes_whohasPacket (by rwa [List.length_replicate])

/-- A peer that owns the hash once answers it once. -/
theorem replies_exactly_iff_once :
    RepliesExactly (peerSetup lender (fun _ => 0) fun _ => zeroPacket) (zeroQuestion 1) 0 := by
  refine (replies_exactly_iff _ _ 0 (by decide)).2 fun hash hhash => ?_
  rw [hashes_zeroQuestion (by decide)] at hhash
  rw [List.eq_of_mem_replicate hhash]
  decide

/-- A has-chunks file that names a hash on two lines. -/
def ownedTwice : Setup :=
  ⟨[(2, ⟨0, 2222⟩)], 1, 4, [(0, Vector.replicate hexHashSize 48),
    (1, Vector.replicate hexHashSize 48)], none⟩

/-- Asked for the hash 74 times, the peer writes 148 entries into the array. -/
theorem replies_past_array : ¬ ∀ (setup : Setup) (clock : ℕ → ℕ) (junk : ℕ → Packet) (pack : Packet)
    (peer : ℕ), pack.type = .whohas → pack.hashNum.toNat ≤ 74 →
      RepliesExactly (peerSetup setup clock junk) pack peer := by
  intro h
  obtain ⟨s', -, hok, -⟩ := h ownedTwice (fun _ => 0) (fun _ => zeroPacket) (zeroQuestion 74) 0 rfl
    (by decide)
  have hcopies : (peerSetup ownedTwice (fun _ => 0) fun _ => zeroPacket).copies
      (binHashOf (Vector.replicate hexHashSize 48)) = 2 := by decide
  have hlen : (ownedHashes (peerSetup ownedTwice (fun _ => 0) fun _ => zeroPacket)
      (zeroQuestion 74)).length = 148 := by
    rw [ownedHashes_eq_replicate, hashes_zeroQuestion (by decide), List.flatMap_replicate, hcopies]
    rfl
  rw [receiveWHOHAS_eq, if_neg (by rw [hlen]; decide)] at hok
  cases hok

end P2P
