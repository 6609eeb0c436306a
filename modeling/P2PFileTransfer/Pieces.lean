/-
**Fragmentation and reassembly** (`send_DATA`, the store step of `receive_DATA`).

The packets of one chunk may reach a client in any order and any number of times.  What the client
has then depends only on the set of pieces that were delivered: those pieces are the sender's, the
rest of a fresh chunk is still zero, and the count of marks is the number of different pieces.

Main definitions:

* `P2P.piece` — the packet of the piece numbered `s` on the wire;
* `P2P.storeAll` — the store step for one packet after the other;
* `P2P.Chunk.HoldsPieces`, `P2P.Chunk.ZeroElsewhere` — a chunk under construction.

Main results:

* `P2P.chunkData_storeData_dataPacket` — every byte after storing a piece;
* `P2P.storeAll_pieces`, `P2P.storeAll_fresh` — what the store step makes of any sequence of pieces;
* `P2P.pieces_reassemble` — **reassembly undoes fragmentation, in any order**.
-/

import P2PFileTransfer.Machine
import P2PFileTransfer.Sending
import Mathlib.Data.Finset.Image

set_option relaxedAutoImplicit false
set_option autoImplicit false

namespace P2P

/-- The packet of the piece numbered `s`, as `send_DATA` makes it when `index` is `s - 1`. -/
def piece (c : Chunk) (s : ℕ) : Packet := dataPacket c (s - 1)

/-- The store step, for one packet after the other. -/
def storeAll (c : Chunk) (packs : List Packet) : Except Fault Chunk :=
  Machine.run (fun c pack => storeData pack c) c packs

namespace Chunk

/-- Every marked piece is the piece of `content`. -/
def HoldsPieces (c : Chunk) (content : ChunkData) : Prop :=
  ∀ j (hj : j < btChunkSize), j / dataSize ∈ c.received → c.chunkData[j] = content[j]

/-- Every piece that is not marked is zero. -/
def ZeroElsewhere (c : Chunk) : Prop :=
  ∀ j (hj : j < btChunkSize), j / dataSize ∉ c.received → c.chunkData[j] = 0

end Chunk

theorem div_dataSize_lt {j : ℕ} (hj : j < btChunkSize) : j / dataSize < maxSeqNum := by
  have hm := maxSeqNum_eq
  have hd := dataSize_eq
  have hb := btChunkSize_eq
  rw [hd]
  omega

/-- A byte after the beginning of a piece and not in it is after its end. -/
theorem end_piece_le {i j : ℕ} (h : j / dataSize ≠ i) (hle : i * dataSize ≤ j) :
    i * dataSize + dataSize ≤ j := by
  have hpos : 0 < dataSize := by decide
  have hi : i ≤ j / dataSize := (Nat.le_div_iff_mul_le hpos).2 hle
  have hnext : i + 1 ≤ j / dataSize := lt_of_le_of_ne hi (Ne.symm h)
  rw [← Nat.succ_mul]
  exact (Nat.le_div_iff_mul_le hpos).1 hnext

/-! ### Storing one piece -/

/-- **Every byte after storing a piece.** -/
theorem chunkData_storeData_dataPacket {src c c' : Chunk} {i : ℕ} (hi : i < maxSeqNum)
    (h : storeData (dataPacket src i) c = .ok c') (j : ℕ) (hj : j < btChunkSize) :
    c'.chunkData[j] =
      if i ∉ c.received ∧ j / dataSize = i then src.chunkData[j] else c.chunkData[j] := by
  have hd := dataSize_eq
  obtain ⟨hlt, hcases⟩ := storeData_cases h
  rw [storeIndex_dataPacket src hi] at hcases
  rcases hcases with ⟨hne, rfl⟩ | ⟨hz, -, -, rfl⟩
  · have hmem : i ∈ c'.received := Chunk.mem_received.2 ⟨hi, hne⟩
    rw [if_neg (fun hn => hn.1 hmem)]
  · have hnot : i ∉ c.received := fun hm => (Chunk.mem_received.1 hm).2 hz
    simp only [payload_dataPacket src hi]
    by_cases hji : j / dataSize = i
    · have h₁ : i * dataSize ≤ j := by rw [hd] at hji ⊢; omega
      have h₂ : j - i * dataSize < (Block.slice src.chunkData (i * dataSize) dataSize).length := by
        rw [Block.length_slice, hd] at *
        omega
      rw [if_pos ⟨hnot, hji⟩, Block.getElem_blit_of_mem hj h₁ h₂,
        Block.getElem_slice _ _ _ _ _ (by omega)]
      have hidx : i * dataSize + (j - i * dataSize) = j := by omega
      simp only [hidx]
    · rw [if_neg (fun hn => hji hn.2)]
      rcases Nat.lt_or_ge j (i * dataSize) with hlow | hhigh
      · exact Block.getElem_blit_of_lt hj hlow
      · refine Block.getElem_blit_of_ge hj ?_
        rw [Block.length_slice]
        exact (Nat.add_le_add_left (Nat.min_le_left _ _) _).trans (end_piece_le hji hhigh)

theorem received_storeData_dataPacket {src c c' : Chunk} {i : ℕ} (hi : i < maxSeqNum)
    (h : storeData (dataPacket src i) c = .ok c') : c'.received = insert i c.received := by
  rw [received_storeData h, storeIndex_dataPacket src hi]

/-- Storing a piece of the content keeps the marked pieces right. -/
theorem Chunk.HoldsPieces.store {src c c' : Chunk} {i : ℕ} (hi : i < maxSeqNum)
    (hc : c.HoldsPieces src.chunkData) (h : storeData (dataPacket src i) c = .ok c') :
    c'.HoldsPieces src.chunkData := by
  intro j hj hmem
  rw [received_storeData_dataPacket hi h, Finset.mem_insert] at hmem
  rw [chunkData_storeData_dataPacket hi h j hj]
  split_ifs with hnew
  · rfl
  · refine hc j hj ?_
    rcases hmem with hji | hmem
    · by_contra hnot
      exact hnew ⟨by rw [← hji]; exact hnot, hji⟩
    · exact hmem

/-- Storing a piece leaves the pieces that are not marked zero. -/
theorem Chunk.ZeroElsewhere.store {src c c' : Chunk} {i : ℕ} (hi : i < maxSeqNum)
    (hc : c.ZeroElsewhere) (h : storeData (dataPacket src i) c = .ok c') : c'.ZeroElsewhere := by
  intro j hj hmem
  rw [received_storeData_dataPacket hi h, Finset.mem_insert, not_or] at hmem
  rw [chunkData_storeData_dataPacket hi h j hj, if_neg (fun hn => hmem.1 hn.2)]
  exact hc j hj hmem.2

theorem Chunk.zeroElsewhere_createChunk (id : UInt8) (hash : HexHash) :
    (createChunk id hash).ZeroElsewhere := by
  intro j hj _
  exact Vector.getElem_replicate hj

theorem Chunk.holdsPieces_createChunk (id : UInt8) (hash : HexHash) (content : ChunkData) :
    (createChunk id hash).HoldsPieces content := by
  intro j _ hmem
  rw [Chunk.received_createChunk] at hmem
  exact absurd hmem (Finset.notMem_empty _)

/-- A chunk all of whose pieces are marked and right is the content. -/
theorem Chunk.HoldsPieces.complete {c : Chunk} {content : ChunkData} (hc : c.HoldsPieces content)
    (hall : ∀ i < maxSeqNum, c.bit i ≠ 0) : c.chunkData = content := by
  ext j hj
  have hlt := div_dataSize_lt hj
  exact congrArg UInt8.toNat (hc j hj (Chunk.mem_received.2 ⟨hlt, hall _ hlt⟩))

/-! ### Storing any sequence of pieces -/

/-- **What the store step makes of any sequence of pieces.** -/
theorem storeAll_pieces (src : Chunk) {ds : List ℕ} (hds : ∀ i ∈ ds, i < maxSeqNum) {c : Chunk}
    (hcount : c.Counted) (hholds : c.HoldsPieces src.chunkData) (hzero : c.ZeroElsewhere) :
    ∃ c', storeAll c (ds.map (dataPacket src)) = .ok c' ∧
      c'.received = ds.toFinset ∪ c.received ∧ c'.Counted ∧ c'.HoldsPieces src.chunkData ∧
      c'.ZeroElsewhere := by
  unfold storeAll
  induction ds generalizing c with
  | nil => exact ⟨c, rfl, by simp, hcount, hholds, hzero⟩
  | cons i ds ih =>
      have hi : i < maxSeqNum := hds i (by simp)
      obtain ⟨c₁, h₁⟩ := storeData_ok (inBounds_dataPacket src hi) c
      obtain ⟨c', hrun, hrec, hgood⟩ := ih (fun k hk => hds k (by simp [hk]))
        (hcount.store h₁) (hholds.store hi h₁) (hzero.store hi h₁)
      refine ⟨c', ?_, ?_, hgood⟩
      · rw [List.map_cons, Machine.run_cons_ok _ h₁, hrun]
      · rw [hrec, received_storeData_dataPacket hi h₁, List.toFinset_cons, Finset.union_insert,
          Finset.insert_union]

/-! ### A fresh chunk -/

/-- **What a fresh chunk is after any sequence of pieces**, numbered from `1` on. -/
theorem storeAll_fresh (src : Chunk) (id : UInt8) (hash : HexHash) {ds : List ℕ}
    (hds : ∀ s ∈ ds, 1 ≤ s ∧ s ≤ maxSeqNum) :
    ∃ c, storeAll (createChunk id hash) (ds.map (piece src)) = .ok c ∧
      c.received = (ds.map (· - 1)).toFinset ∧ (∀ i, i ∈ c.received ↔ i + 1 ∈ ds) ∧
      c.Counted ∧ c.HoldsPieces src.chunkData ∧ c.ZeroElsewhere := by
  have hpred : ∀ i ∈ ds.map (· - 1), i < maxSeqNum := by
    intro i hi
    obtain ⟨s, hs, rfl⟩ := List.mem_map.1 hi
    have := hds s hs
    omega
  obtain ⟨c, hrun, hrec, hcount, hholds, hzero⟩ := storeAll_pieces src hpred
    (Chunk.counted_createChunk id hash) (Chunk.holdsPieces_createChunk id hash src.chunkData)
    (Chunk.zeroElsewhere_createChunk id hash)
  rw [Chunk.received_createChunk, Finset.union_empty] at hrec
  refine ⟨c, ?_, hrec, fun i => ?_, hcount, hholds, hzero⟩
  · rw [List.map_map] at hrun
    exact hrun
  · rw [hrec, List.mem_toFinset, List.mem_map]
    constructor
    · rintro ⟨s, hs, rfl⟩
      have := hds s hs
      rwa [Nat.sub_add_cancel this.1]
    · intro hi
      exact ⟨i + 1, hi, rfl⟩

/-- The marks of a chunk are all set when every piece was delivered, and only then. -/
theorem forall_bit_iff {c : Chunk} {ds : List ℕ} (h : ∀ i, i ∈ c.received ↔ i + 1 ∈ ds) :
    (∀ i < maxSeqNum, c.bit i ≠ 0) ↔ ∀ s, 1 ≤ s → s ≤ maxSeqNum → s ∈ ds := by
  constructor
  · intro hall s h₁ h₂
    have hs : s - 1 ∈ c.received := Chunk.mem_received.2 ⟨by omega, hall (s - 1) (by omega)⟩
    rw [h, Nat.sub_add_cancel h₁] at hs
    exact hs
  · intro hall i hi
    exact (Chunk.mem_received.1 ((h i).2 (hall (i + 1) (by omega) (by omega)))).2

/-- A fresh chunk that was given every piece has the sender's data. -/
theorem storeAll_every_piece (src : Chunk) (id : UInt8) (hash : HexHash) {ds : List ℕ}
    (hds : ∀ s ∈ ds, 1 ≤ s ∧ s ≤ maxSeqNum) (hall : ∀ s, 1 ≤ s → s ≤ maxSeqNum → s ∈ ds) :
    ∃ c, storeAll (createChunk id hash) (ds.map (piece src)) = .ok c ∧
      chunkBitsAllReceived c = true ∧ c.chunkData = src.chunkData := by
  obtain ⟨c, hrun, -, hmem, hcount, hholds, -⟩ := storeAll_fresh src id hash hds
  have hbits := (forall_bit_iff hmem).2 hall
  exact ⟨c, hrun, hcount.complete_iff.2 hbits, hholds.complete hbits⟩

/-- **Reassembly undoes fragmentation, in any order.**  `send_DATA` emits the pieces of a chunk;
after any sequence of deliveries of them to a fresh chunk the delivered pieces are the sender's,
everything else is zero, the count is the number of different pieces, and the chunk is complete
exactly when every piece was delivered, with the sender's data. -/
theorem pieces_reassemble (src : Chunk) (id : UInt8) (hash : HexHash) (ds : List ℕ)
    (hds : ∀ s ∈ ds, 1 ≤ s ∧ s ≤ maxSeqNum) :
    (∀ t : Transfer, (sendDATA src t).2 =
      (List.range' (t.cctrl.index + 1) (t.cctrl.stop - t.cctrl.index)).map (piece src)) ∧
    ∃ c, storeAll (createChunk id hash) (ds.map (piece src)) = .ok c ∧
      (∀ j (hj : j < btChunkSize), j / dataSize + 1 ∈ ds → c.chunkData[j] = src.chunkData[j]) ∧
      (∀ j (hj : j < btChunkSize), j / dataSize + 1 ∉ ds → c.chunkData[j] = 0) ∧
      c.bitsCount = ds.toFinset.card ∧
      (chunkBitsAllReceived c = true ↔ ∀ s, 1 ≤ s → s ≤ maxSeqNum → s ∈ ds) ∧
      (chunkBitsAllReceived c = true → c.chunkData = src.chunkData) := by
  obtain ⟨c, hrun, hrec, hmem, hcount, hholds, hzero⟩ := storeAll_fresh src id hash hds
  refine ⟨?_, c, hrun, ?_, ?_, ?_, ?_, ?_⟩
  · intro t
    rw [sendDATA_eq, List.range'_succ_left, List.map_map]
    rfl
  · intro j hj hd
    exact hholds j hj ((hmem _).2 hd)
  · intro j hj hd
    exact hzero j hj fun hr => hd ((hmem _).1 hr)
  · -- numbers from `1` on stay different when each is lowered by one
    have himage : (ds.map (· - 1)).toFinset = ds.toFinset.image (· - 1) := by
      ext i
      simp
    rw [hcount, hrec, himage]
    refine Finset.card_image_of_injOn ?_
    intro s hs s' hs' heq
    have h₁ := (hds s (List.mem_toFinset.1 hs)).1
    have h₂ := (hds s' (List.mem_toFinset.1 hs')).1
    simp only at heq
    omega
  · rw [hcount.complete_iff, forall_bit_iff hmem]
  · intro hdone
    exact hholds.complete (hcount.complete_iff.1 hdone)

/-- Three deliveries of two pieces, the last one first. -/
theorem pieces_reassemble_twice : ∃ c,
    storeAll (createChunk 0 (Vector.replicate hexHashSize 48))
        ([525, 1, 525].map (piece (createChunk 1 (Vector.replicate hexHashSize 49)))) = .ok c ∧
      c.bitsCount = 2 := by
  obtain ⟨-, c, hrun, -, -, hcount, -, -⟩ := pieces_reassemble
    (createChunk 1 (Vector.replicate hexHashSize 49)) 0 (Vector.replicate hexHashSize 48)
    [525, 1, 525] (by decide)
  exact ⟨c, hrun, hcount⟩

end P2P
