/-
**Putting a chunk together** (the part of `bt_client.c` that works on one chunk).

An incoming piece is copied to its place in the chunk unless its mark says that it was copied
before; the client answers with the number of pieces in the longest initial run, and when the count
of marks reaches the number of pieces the whole chunk is hashed.  Both the mark and the place come
from the sequence number of the packet and the length from its two length fields, all unchecked: an
access outside the arrays of the chunk is the fault `Fault.outOfBounds`.

Main definitions:

* `P2P.dataAlreadyStored`, `P2P.dataStore`, and the two together, `P2P.storeData`;
* `P2P.dataFindLargestConsecSeq`, `P2P.chunkBitsAllReceived`;
* `P2P.chunkIsValid`, `P2P.discardData` — the two halves of `validate_chunk` that concern one chunk.

Main results:

* `P2P.storeData_cases` — **what storing a packet can do**;
* `P2P.Chunk.Counted` — the count of marks is right, and `P2P.Chunk.Counted.store`,
  `P2P.Chunk.Counted.complete_iff`;
* `P2P.consecSeq_eq_prefixLen` — the client's answer is the cumulative acknowledgement.
-/

import P2PFileTransfer.Block
import P2PFileTransfer.CumulativeAck
import P2PFileTransfer.Packet
import P2PFileTransfer.Transfer

set_option relaxedAutoImplicit false
set_option autoImplicit false

namespace P2P

/-- How the program can stop behaving as written. -/
inductive Fault where
  /-- An access outside an array. -/
  | outOfBounds
  /-- `assert(0)`. -/
  | assertion
  deriving DecidableEq

/-! ### Storing a piece -/

/-- `seq_num - 1`, in 32 bits. -/
def storeIndex (pack : Packet) : ℕ := u32 (2 ^ 32 - 1 + pack.seqNum.toNat)

/-- `data_already_stored`. -/
def dataAlreadyStored (pack : Packet) (c : Chunk) : Except Fault Bool :=
  if h : storeIndex pack < maxSeqNum then .ok (c.bits[storeIndex pack] != 0)
  else .error .outOfBounds

/-- The bytes `data_store` copies. -/
def payload (pack : Packet) : List UInt8 := Block.window pack.data 0 pack.copyLen

/-- Where `data_store` copies them. -/
def storeOffset (pack : Packet) : ℕ := u32 (storeIndex pack * dataSize)

/-- `data_store`. -/
def dataStore (pack : Packet) (c : Chunk) : Except Fault Chunk :=
  if h : storeIndex pack < maxSeqNum ∧ storeOffset pack + pack.copyLen ≤ btChunkSize then
    .ok { c with
      chunkData := Block.blit c.chunkData (storeOffset pack) (payload pack)
      bits := c.bits.set (storeIndex pack) 1 h.1
      bitsCount := c.bitsCount + 1 }
  else .error .outOfBounds

/-- The store step of `receive_DATA`: a piece is stored unless it was stored before. -/
def storeData (pack : Packet) (c : Chunk) : Except Fault Chunk :=
  match dataAlreadyStored pack c with
  | .error x => .error x
  | .ok true => .ok c
  | .ok false => dataStore pack c

/-- `data_find_largest_consec_seq`: the marks before the first that is not set. -/
def dataFindLargestConsecSeq (c : Chunk) : ℕ := (c.bits.toList.takeWhile (· != 0)).length

/-- The packet `send_ACK` sends.  It is built on the stack and never cleared: the fields that are
not assigned are those of `junk`. -/
def ackPacket (junk : Packet) (ackNum : ℕ) : Packet :=
  { junk with
    type := .ack
    headerLen := UInt16.ofNat standardHeaderLen
    packetLen := UInt16.ofNat standardHeaderLen
    seqNum := 0
    ackNum := UInt32.ofNat ackNum }

/-- `chunk_bits_all_received`. -/
def chunkBitsAllReceived (c : Chunk) : Bool := c.bitsCount == maxSeqNum

/-- The test of `validate_chunk`: the hash of the data is the hash of the chunk. -/
def chunkIsValid (shahash : List UInt8 → BinHash) (c : Chunk) : Bool :=
  compareBinHash (shahash c.chunkData.toList) c.binHash

/-- What `validate_chunk` does to a chunk with invalid data. -/
def discardData (c : Chunk) : Chunk :=
  { c with
    chunkData := Vector.replicate btChunkSize 0
    bits := Vector.replicate maxSeqNum 0
    bitsCount := 0 }

/-- The data of the chunk has the hash of the chunk. -/
def Chunk.Verified (shahash : List UInt8 → BinHash) (c : Chunk) : Prop :=
  shahash c.chunkData.toList = c.binHash

@[simp] theorem chunkIsValid_iff {shahash : List UInt8 → BinHash} {c : Chunk} :
    chunkIsValid shahash c = true ↔ c.Verified shahash := compareBinHash_iff

/-- A packet whose piece is one of the chunk's and whose payload ends inside the chunk. -/
structure Packet.InBounds (pack : Packet) : Prop where
  one_le : 1 ≤ pack.seqNum.toNat
  le_max : pack.seqNum.toNat ≤ maxSeqNum
  fits : (pack.seqNum.toNat - 1) * dataSize + pack.copyLen ≤ btChunkSize

theorem storeIndex_of_le {pack : Packet} (h : 1 ≤ pack.seqNum.toNat) :
    storeIndex pack = pack.seqNum.toNat - 1 := by
  have hlt := pack.seqNum.toNat_lt
  unfold storeIndex u32
  omega

theorem storeOffset_of_lt {pack : Packet} (h : storeIndex pack < maxSeqNum) :
    storeOffset pack = storeIndex pack * dataSize := by
  have hm := maxSeqNum_eq
  have hd := dataSize_eq
  unfold storeOffset
  rw [u32_of_lt]
  rw [hd]
  omega

/-- **What storing a packet can do**: nothing, because the piece is marked, or copy the payload and
set a mark that was clear. -/
theorem storeData_cases {pack : Packet} {c c' : Chunk} (h : storeData pack c = .ok c') :
    storeIndex pack < maxSeqNum ∧
      (c.bit (storeIndex pack) ≠ 0 ∧ c' = c ∨
        c.bit (storeIndex pack) = 0 ∧
          storeIndex pack * dataSize + pack.copyLen ≤ btChunkSize ∧
          ∃ hlt : storeIndex pack < maxSeqNum,
            c' = { c with
              chunkData := Block.blit c.chunkData (storeIndex pack * dataSize) (payload pack)
              bits := c.bits.set (storeIndex pack) 1 hlt
              bitsCount := c.bitsCount + 1 }) := by
  unfold storeData at h
  by_cases hlt : storeIndex pack < maxSeqNum
  · refine ⟨hlt, ?_⟩
    have hbit := Chunk.bit_eq_getElem (c := c) hlt
    have hoff := storeOffset_of_lt hlt
    simp only [dataAlreadyStored, dif_pos hlt] at h
    by_cases hz : c.bits[storeIndex pack] = 0
    · have hst : (c.bits[storeIndex pack] != 0) = false := by simp [hz]
      rw [hst] at h
      -- `data_store` fails only if the payload ends outside the chunk
      simp only [dataStore, hoff] at h
      split at h
      · rename_i hfit
        cases h
        exact Or.inr ⟨by rw [hbit, hz], hfit.2, hlt, rfl⟩
      · cases h
    · have hst : (c.bits[storeIndex pack] != 0) = true := by simp [hz]
      rw [hst] at h
      cases h
      exact Or.inl ⟨by rw [hbit]; exact hz, rfl⟩
  · simp only [dataAlreadyStored, dif_neg hlt] at h
    cases h

/-- A packet in bounds is stored without a fault. -/
theorem storeData_ok {pack : Packet} (h : pack.InBounds) (c : Chunk) :
    ∃ c', storeData pack c = .ok c' := by
  have hidx := storeIndex_of_le h.one_le
  have hlt : storeIndex pack < maxSeqNum := by have := h.le_max; have := h.one_le; omega
  unfold storeData
  simp only [dataAlreadyStored, dif_pos hlt]
  cases hb : (c.bits[storeIndex pack] != 0) with
  | true => exact ⟨c, rfl⟩
  | false =>
      have hfit : storeOffset pack + pack.copyLen ≤ btChunkSize := by
        rw [storeOffset_of_lt hlt, hidx]; exact h.fits
      exact ⟨_, dif_pos ⟨hlt, hfit⟩⟩

/-! ### The marks after a store -/

theorem bit_set (c : Chunk) {i : ℕ} (hi : i < maxSeqNum) (j : ℕ) (d : ChunkData) (n : ℕ) :
    ({ c with chunkData := d, bits := c.bits.set i 1 hi, bitsCount := n } : Chunk).bit j =
      if j = i then 1 else c.bit j := by
  simp only [Chunk.bit, Vector.getElem?_set]
  by_cases h : i = j
  · subst h; simp
  · simp [h, Ne.symm h]

theorem received_set (c : Chunk) {i : ℕ} (hi : i < maxSeqNum) (d : ChunkData) (n : ℕ) :
    ({ c with chunkData := d, bits := c.bits.set i 1 hi, bitsCount := n } : Chunk).received =
      insert i c.received := by
  ext j
  rw [Chunk.mem_received, bit_set, Finset.mem_insert, Chunk.mem_received]
  by_cases h : j = i
  · subst h; simp [hi]
  · simp [h]

/-- The marks after storing a packet: the packet's piece joins them. -/
theorem received_storeData {pack : Packet} {c c' : Chunk} (h : storeData pack c = .ok c') :
    c'.received = insert (storeIndex pack) c.received := by
  obtain ⟨hlt, ⟨hne, rfl⟩ | ⟨-, -, -, rfl⟩⟩ := storeData_cases h
  · rw [Finset.insert_eq_of_mem (Chunk.mem_received.2 ⟨hlt, hne⟩)]
  · exact received_set c hlt _ _

/-! ### The count of marks -/

/-- The count kept by hand is the number of marks. -/
def Chunk.Counted (c : Chunk) : Prop := c.bitsCount = c.received.card

theorem Chunk.counted_createChunk (id : UInt8) (hash : HexHash) :
    (createChunk id hash).Counted := by
  rw [Chunk.Counted, Chunk.received_createChunk]
  rfl

theorem received_discardData (c : Chunk) : (discardData c).received = ∅ := by
  ext i
  rw [Chunk.mem_received]
  have hb : (discardData c).bit i = 0 := by
    simp only [Chunk.bit, discardData, Vector.getElem?_replicate]
    split <;> rfl
  simp [hb]

theorem Chunk.counted_discardData (c : Chunk) : (discardData c).Counted := by
  rw [Chunk.Counted, received_discardData]
  rfl

/-- Storing a packet keeps the count right. -/
theorem Chunk.Counted.store {pack : Packet} {c c' : Chunk} (hc : c.Counted)
    (h : storeData pack c = .ok c') : c'.Counted := by
  obtain ⟨hlt, ⟨-, rfl⟩ | ⟨hz, -, -, rfl⟩⟩ := storeData_cases h
  · exact hc
  · have hnot : storeIndex pack ∉ c.received := fun hm => (Chunk.mem_received.1 hm).2 hz
    rw [Chunk.Counted, received_set, Finset.card_insert_of_notMem hnot, ← hc]

/-- With the right count, the test for completeness tests the marks. -/
theorem Chunk.Counted.complete_iff {c : Chunk} (hc : c.Counted) :
    chunkBitsAllReceived c = true ↔ ∀ i < maxSeqNum, c.bit i ≠ 0 := by
  rw [← Chunk.card_received_eq_iff, ← hc, chunkBitsAllReceived, beq_iff_eq]

/-! ### The client's answer -/

theorem ackNum_ackPacket (junk : Packet) {n : ℕ} (h : n ≤ maxSeqNum) :
    (ackPacket junk n).ackNum.toNat = n := by
  have hm := maxSeqNum_eq
  simp only [ackPacket, UInt32.toNat_ofNat']
  omega

/-- The leading entries of a list that satisfy a test, and the first that does not. -/
theorem takeWhile_spec {α : Type*} (q : α → Bool) (l : List α) :
    (∀ i (h : i < l.length), i < (l.takeWhile q).length → q l[i] = true) ∧
      ((l.takeWhile q).length = l.length ∨
        ∃ h : (l.takeWhile q).length < l.length, q l[(l.takeWhile q).length] = false) := by
  induction l with
  | nil => simp
  | cons a l ih =>
      cases ha : q a with
      | false =>
          refine ⟨by simp [ha], Or.inr ⟨by simp [ha], by simp [ha]⟩⟩
      | true =>
          have htw : (a :: l).takeWhile q = a :: l.takeWhile q := by simp [ha]
          rw [htw]
          constructor
          · intro i hi hlt
            cases i with
            | zero => exact ha
            | succ i => exact ih.1 i (by simpa using hi) (by simpa using hlt)
          · rcases ih.2 with h | ⟨h, hq⟩
            · exact Or.inl (by simp [h])
            · exact Or.inr ⟨by simpa using h, by simpa using hq⟩

/-- **The client's answer is the cumulative acknowledgement**: the length of the longest initial run
of marks. -/
theorem consecSeq_eq_prefixLen (c : Chunk) :
    dataFindLargestConsecSeq c = CumulativeAck.prefixLen maxSeqNum ↑c.received := by
  obtain ⟨hall, hend⟩ := takeWhile_spec (· != 0) c.bits.toList
  have hlen : c.bits.toList.length = maxSeqNum := Vector.length_toList
  have hle : dataFindLargestConsecSeq c ≤ maxSeqNum := by
    rw [← hlen]; exact (List.takeWhile_prefix _).length_le
  refine (CumulativeAck.prefixLen_eq hle ?_ ?_).symm
  · intro i hi
    have hil : i < maxSeqNum := by omega
    refine Finset.mem_coe.2 (Chunk.mem_received.2 ⟨hil, ?_⟩)
    have hq := hall i (by omega) hi
    rw [Vector.getElem_toList] at hq
    rw [Chunk.bit_eq_getElem hil]
    intro hz
    rw [hz] at hq
    exact absurd hq (by decide)
  · -- the run ends with the chunk or before a piece that is not marked
    rcases hend with h | ⟨h, hz⟩
    · exact Or.inl (by rw [← hlen]; exact h)
    · refine Or.inr fun hmem => ?_
      obtain ⟨hlt, hne⟩ := Chunk.mem_received.1 (Finset.mem_coe.1 hmem)
      rw [Chunk.bit_eq_getElem hlt] at hne
      rw [Vector.getElem_toList] at hz
      have hz' : (c.bits[dataFindLargestConsecSeq c] != 0) = false := hz
      exact hne (by simpa using hz')

end P2P
