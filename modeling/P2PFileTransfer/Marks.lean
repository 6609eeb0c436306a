/-
**The marks of a chunk** (`receive_DATA`, `data_store`, `validate_chunk`).

A piece is looked up and marked in `bits` at the index `seq_num - 1`, counted in `bits_count`, and
copied to `chunk_data`.  The number comes from the packet and nothing checks it, nor the length of
the copy, so a packet for a piece that the chunk does not have, or a piece that is too long for its
place, is an access outside the two arrays.  Packets that stay inside keep the marks 0 or 1 and
their count right, in whatever transfers they come; and when the complete chunk turns out wrong, all
three are set back to zero, the lists stay as they are, and the transfer is gone before new ones
are opened.

Main definitions:

* `P2P.Packet.Fits` — the packet is for a piece of the chunk and fits its place;
* `P2P.Chunk.Marked` — the marks are 0 or 1;
* `P2P.Rejected` — what is left of a chunk that was rejected.

Main results:

* `P2P.data_in_bounds_iff` — **when storing stays in bounds**;
* `P2P.count_bits` — the count of marks is the number of ones;
* `P2P.bitmap_and_retry` — **the marks in every reachable state, and the clean retry**.
-/

import Mathlib.Data.Nat.Count
import P2PFileTransfer.Missing
import P2PFileTransfer.Silence
import P2PFileTransfer.Timeouts

set_option relaxedAutoImplicit false
set_option autoImplicit false

namespace P2P

/-! ### Bounds -/

/-- The packet is for a piece of the chunk; and the piece is marked, so that it is not stored again,
or its bytes end inside the chunk. -/
def Packet.Fits (pack : Packet) (c : Chunk) : Prop :=
  1 ≤ pack.seqNum.toNat ∧ pack.seqNum.toNat ≤ maxSeqNum ∧
    (c.bit (pack.seqNum.toNat - 1) ≠ 0 ∨
      (pack.seqNum.toNat - 1) * dataSize + pack.copyLen ≤ btChunkSize)

instance (pack : Packet) (c : Chunk) : Decidable (pack.Fits c) :=
  inferInstanceAs (Decidable (_ ∧ _ ∧ (_ ∨ _)))

/-- The index of a piece lies inside `bits` exactly if the chunk has the piece. -/
theorem storeIndex_lt_iff {pack : Packet} :
    storeIndex pack < maxSeqNum ↔ 1 ≤ pack.seqNum.toNat ∧ pack.seqNum.toNat ≤ maxSeqNum := by
  have hm := maxSeqNum_eq
  have hlt := pack.seqNum.toNat_lt
  rw [storeIndex, u32]
  omega

/-- **When a packet is stored without a fault.** -/
theorem storeData_ok_iff {pack : Packet} {c : Chunk} :
    (∃ c', storeData pack c = .ok c') ↔ pack.Fits c := by
  constructor
  · rintro ⟨c', h⟩
    obtain ⟨hlt, hcase⟩ := storeData_cases h
    obtain ⟨hone, hmax⟩ := storeIndex_lt_iff.1 hlt
    rw [storeIndex_of_le hone] at hcase
    exact ⟨hone, hmax, hcase.imp And.left fun hnew => hnew.2.1⟩
  · rintro ⟨hone, hmax, hcase⟩
    have hidx := storeIndex_of_le hone
    have hlt : storeIndex pack < maxSeqNum := storeIndex_lt_iff.2 ⟨hone, hmax⟩
    rcases hcase with hmark | hfits
    · -- the piece was stored before
      rw [← hidx, Chunk.bit_eq_getElem hlt] at hmark
      refine ⟨c, ?_⟩
      rw [storeData, dataAlreadyStored, dif_pos hlt, bne_iff_ne.2 hmark]
    · exact storeData_ok ⟨hone, hmax, hfits⟩ c

/-- Storing can fail in one way only. -/
theorem storeData_error {pack : Packet} {c : Chunk} {x : Fault} (h : storeData pack c = .error x) :
    x = .outOfBounds := by
  rw [storeData] at h
  by_cases hlt : storeIndex pack < maxSeqNum
  · rw [dataAlreadyStored, dif_pos hlt] at h
    split at h
    · rename_i heq
      cases heq
    · cases h
    · rw [dataStore] at h
      split at h
      · cases h
      · cases h
        rfl
  · rw [dataAlreadyStored, dif_neg hlt] at h
    cases h
    rfl

/-- **When storing stays in bounds.**  A client with a transfer from the sender accesses the arrays
of the chunk inside their bounds exactly if the packet is for one of the 525 pieces, and the piece
is marked or its bytes end inside the chunk. -/
theorem data_in_bounds_iff (shahash : List UInt8 → BinHash) (s : State) (pack : Packet)
    (peer i : ℕ) (t : Transfer) (hfind : s.findIncoming peer = some (i, t)) :
    receiveDATA shahash s pack peer ≠ .error .outOfBounds ↔ pack.Fits (s.chunks.cell t.c) := by
  rw [← storeData_ok_iff]
  cases hstore : storeData pack (s.chunks.cell t.c) with
  | error x =>
      have hr : receiveDATA shahash s pack peer = .error x := by
        rw [receiveDATA, hfind]
        simp only [hstore]
      rw [hr, storeData_error hstore]
      exact ⟨fun h => absurd rfl h, fun ⟨_, h⟩ => nomatch h⟩
  | ok c =>
      rw [receiveDATA_of_store shahash hfind hstore]
      refine ⟨fun _ => ⟨c, rfl⟩, fun _ => ?_⟩
      split <;> nofun

/-- The first piece of the chunk that was requested. -/
theorem data_in_bounds_iff_first : ∃ s i t,
    Machine.run (step fun _ => Vector.replicate binHashSize 0)
      (peerSetup lender (fun _ => 0) fun _ => zeroPacket) wantsOne = .ok s ∧
    s.findIncoming 0 = some (i, t) ∧
    receiveDATA (fun _ => Vector.replicate binHashSize 0) s firstPiece 0 ≠ .error .outOfBounds :=
  ⟨_, 0, _, rfl, rfl, (data_in_bounds_iff _ _ firstPiece 0 0 _ rfl).2
    ⟨by decide, by decide, Or.inr (by decide)⟩⟩

/-- A datagram of sixteen bytes: a `DATA` packet with the number 0 and no payload. -/
def pieceZero : ℕ → UInt8 := fun i => [60, 81, 1, 3, 0, 16, 0, 16].getD i 0

/-- The piece before the first one is looked up and marked before the array. -/
theorem data_out_of_bounds : ¬ ∀ (shahash : List UInt8 → BinHash) (setup : Setup) (clock : ℕ → ℕ)
    (junk : ℕ → Packet) (es : List Event) (s : State) (buf : ℕ → UInt8) (pack : Packet)
    (peer i : ℕ) (t : Transfer),
    Machine.run (step shahash) (peerSetup setup clock junk) es = .ok s →
    s.findIncoming peer = some (i, t) → (deserializePacket buf).packet = some pack →
    pack.type = .data → receiveDATA shahash s pack peer ≠ .error .outOfBounds := by
  intro h
  exact h (fun _ => Vector.replicate binHashSize 0) lender (fun _ => 0) (fun _ => zeroPacket)
    wantsOne _ pieceZero _ 0 0 _ rfl rfl rfl rfl rfl

/-! ### The count of marks -/

/-- The marks are 0 or 1. -/
def Chunk.Marked (c : Chunk) : Prop := ∀ i < maxSeqNum, c.bit i = 0 ∨ c.bit i = 1

theorem Chunk.marked_createChunk (id : UInt8) (hash : HexHash) : (createChunk id hash).Marked :=
  fun i _ => Or.inl (Chunk.bit_createChunk id hash i)

theorem stable_marked : Chunk.Stable Chunk.Marked where
  content _ := Iff.rfl
  create := Chunk.marked_createChunk
  setId _ _ h := h
  store := by
    intro pack c c' h hc i hi
    obtain ⟨-, ⟨-, rfl⟩ | ⟨-, -, hlt, rfl⟩⟩ := storeData_cases h
    · exact hc i hi
    · rw [bit_set]
      split
      · exact Or.inr rfl
      · exact hc i hi
  discard c _ i hi := by
    have hnot : i ∉ (discardData c).received := by
      rw [received_discardData]
      exact Finset.notMem_empty i
    rw [Chunk.mem_received] at hnot
    exact Or.inl (by_contra fun hne => hnot ⟨hi, hne⟩)

/-- The array of marks. -/
theorem toList_bits (c : Chunk) : c.bits.toList = (List.range maxSeqNum).map c.bit := by
  refine List.ext_getElem ?_ fun i h₁ h₂ => ?_
  · rw [Vector.length_toList, List.length_map, List.length_range]
  · rw [Vector.length_toList] at h₁
    rw [List.getElem_map, List.getElem_range, Vector.getElem_toList, Chunk.bit_eq_getElem h₁]

/-- **The count of marks is the number of ones.** -/
theorem count_bits {c : Chunk} (h : c.Marked) (hc : c.Counted) :
    c.bitsCount = c.bits.toList.count 1 := by
  rw [hc, Chunk.received, ← Nat.count_eq_card_filter_range, Nat.count, toList_bits, List.count,
    List.countP_map]
  refine List.countP_congr fun i hi => ?_
  rw [decide_eq_true_iff, Function.comp_apply, beq_iff_eq]
  rcases h i (List.mem_range.1 hi) with h₀ | h₁
  · simp [h₀]
  · simp [h₁]

/-! ### Chunks that are rejected -/

/-- **What is left of a chunk that was rejected**: its marks, their count and its data are those of
a fresh chunk, and other chunks and the lists are as they were. -/
structure Rejected (s s' : State) (q : ℕ) : Prop where
  fresh : ∀ id hash, (s'.chunks.cell q).bits = (createChunk id hash).bits ∧
    (s'.chunks.cell q).bitsCount = (createChunk id hash).bitsCount ∧
    (s'.chunks.cell q).chunkData = (createChunk id hash).chunkData
  others : ∀ r ≠ q, s'.chunks.cell r = s.chunks.cell r
  wanted : s'.wanted = s.wanted
  missing : s'.missing = s.missing
  haveList : s'.haveList = s.haveList

/-- **A rejection**: `validate_chunk` clears the chunk and does nothing else. -/
theorem rejected_validateChunk {shahash : List UInt8 → BinHash} {s : State} {q : ℕ}
    (h : (validateChunk shahash s q).2 = false) : Rejected s (validateChunk shahash s q).1 q := by
  have heq : validateChunk shahash s q = (s.modifyChunk q discardData, false) := by
    rw [validateChunk] at h ⊢
    split_ifs at h ⊢ with hvalid
    · split at h <;> cases h
    · rfl
  rw [heq]
  refine ⟨fun id hash => ?_, fun r hr => ?_, rfl, rfl, rfl⟩
  · rw [State.modifyChunk, Heap.cell_modify_self]
    exact ⟨rfl, rfl, rfl⟩
  · rw [State.modifyChunk, Heap.cell_modify_of_ne _ _ hr]

/-- The transfer that was found is deleted, whatever is stamped on it in between. -/
theorem incoming_deleteIncoming (s : State) (i : ℕ) :
    (s.deleteIncoming i).incoming = s.incoming.eraseIdx i := by
  rw [State.deleteIncoming]
  split
  · rename_i hnone
    exact (List.eraseIdx_of_length_le (List.getElem?_eq_none_iff.1 hnone)).symm
  · rfl

/-- **A rejection in `receive_DATA`**: the transfer is gone when the client looks for new ones. -/
theorem receiveDATA_rejected {shahash : List UInt8 → BinHash} {s : State} {pack : Packet}
    {peer i : ℕ} {t : Transfer} {c : Chunk} (hfind : s.findIncoming peer = some (i, t))
    (hstore : storeData pack (s.chunks.cell t.c) = .ok c) (hdone : chunkBitsAllReceived c = true)
    (hwrong : ¬ c.Verified shahash) :
    ∃ u, receiveDATA shahash s pack peer = .ok (getChunkData u) ∧ Rejected s u t.c ∧
      u.incoming = s.incoming.eraseIdx i := by
  have hchunks := (sendACK_same (s.modifyChunk t.c fun _ => c) peer (dataFindLargestConsecSeq c)).1
  have hframe : Frame (s.modifyChunk t.c fun _ => c) (s.validating t.c c peer) :=
    (moves_sendACK _ _ _ : Moves Kind.Any _ _).frame
  have hin : ∃ f : Transfer → Transfer, (s.validating t.c c peer).incoming =
      s.incoming.modify i f := by
    have hfind' : (s.modifyChunk t.c fun _ => c).findIncoming peer = some (i, t) := hfind
    rw [State.validating, sendACK, hfind']
    exact ⟨_, rfl⟩
  -- the chunk is cleared after the answer
  have hfinish : finishChunk shahash (s.validating t.c c peer) t.c =
      (s.validating t.c c peer).modifyChunk t.c discardData := by
    have hcell := cell_sendACK_self s t.c peer (dataFindLargestConsecSeq c) c
    obtain ⟨-, heq⟩ | ⟨hv, -⟩ | ⟨hv, -⟩ :=
      finishChunk_cases shahash (s.validating t.c c peer) t.c
    · exact heq
    · exact absurd (hcell ▸ hv) hwrong
    · exact absurd (hcell ▸ hv) hwrong
  have hdelete := Frame.deleteIncoming (finishChunk shahash (s.validating t.c c peer) t.c) i
  refine ⟨(finishChunk shahash (s.validating t.c c peer) t.c).deleteIncoming i,
    by rw [receiveDATA_of_store shahash hfind hstore, if_pos hdone]; rfl, ?_, ?_⟩
  · rw [hfinish] at hdelete ⊢
    refine ⟨fun id hash => ?_, fun r hr => ?_, hdelete.wanted.trans hframe.wanted,
      hdelete.missing.trans hframe.missing, hdelete.haveList.trans hframe.haveList⟩
    · rw [State.chunks_deleteIncoming, State.modifyChunk, Heap.cell_modify_self]
      exact ⟨rfl, rfl, rfl⟩
    · rw [State.chunks_deleteIncoming, State.modifyChunk, Heap.cell_modify_of_ne _ _ hr,
        State.validating, hchunks, State.modifyChunk, Heap.cell_modify_of_ne _ _ hr]
  · obtain ⟨f, hf⟩ := hin
    rw [incoming_deleteIncoming, hfinish]
    show (s.validating t.c c peer).incoming.eraseIdx i = _
    rw [hf, eraseIdx_modify_self]

/-- **The marks in every reachable state, and the clean retry.**  In every state that a peer
reaches, the chunks of the missing list have marks 0 or 1 and the count of the ones, whatever
became of the transfers they came in.  When `validate_chunk` rejects a chunk, then of that chunk the
marks, the count and the data are those of a fresh one, and no other chunk and none of the three
lists changes; and in `receive_DATA` the transfer is taken out before the client looks for new
ones.  Every sequence of events of a client whose pieces fit is a run. -/
theorem bitmap_and_retry (shahash : List UInt8 → BinHash) (setup : Setup) (clock : ℕ → ℕ)
    (junk : ℕ → Packet) (es : List Event) :
    (∀ s, Machine.run (step shahash) (peerSetup setup clock junk) es = .ok s →
      (∀ q ∈ s.missing, (∀ b ∈ (s.chunks.cell q).bits.toList, b = 0 ∨ b = 1) ∧
        (s.chunks.cell q).bitsCount = (s.chunks.cell q).bits.toList.count 1) ∧
      (∀ q, (validateChunk shahash s q).2 = false → Rejected s (validateChunk shahash s q).1 q) ∧
      ∀ pack peer i t c, s.findIncoming peer = some (i, t) →
        storeData pack (s.chunks.cell t.c) = .ok c → chunkBitsAllReceived c = true →
        ¬ c.Verified shahash →
          ∃ u, receiveDATA shahash s pack peer = .ok (getChunkData u) ∧ Rejected s u t.c ∧
            u.incoming = s.incoming.eraseIdx i) ∧
    ((∀ e ∈ es, e.ClientSide) →
      ∃ s, Machine.run (step shahash) (peerSetup setup clock junk) es = .ok s) := by
  constructor
  · intro s hrun
    have hintact := Machine.run_invariant (fun _ _ _ h he => Intact.step h he)
      (Intact.setup shahash setup clock junk) hrun
    have hmarked : ∀ q, (s.chunks.cell q).Marked := by
      refine Machine.run_invariant (fun _ _ _ h he => stable_marked.step h he)
        (stable_marked.setup setup clock junk fun line => ?_) hrun
      cases hm : setup.master with
      | none => exact Chunk.marked_createChunk _ _
      | some file =>
          have hbits : (ownChunk (some file) line).bits =
              (createChunk line.1.toUInt8 line.2).bits := rfl
          intro i hi
          rw [Chunk.bit, hbits]
          exact Chunk.marked_createChunk line.1.toUInt8 line.2 i hi
    refine ⟨fun q hq => ⟨fun b hb => ?_, ?_⟩, fun q => rejected_validateChunk,
      fun pack peer i t c => receiveDATA_rejected⟩
    · rw [toList_bits] at hb
      obtain ⟨i, hi, rfl⟩ := List.mem_map.1 hb
      exact hmarked q i (List.mem_range.1 hi)
    · exact count_bits (hmarked q) (hintact.counted q (hintact.missing q hq).1)
  · intro hes
    obtain ⟨s, hs, -⟩ : ∃ s,
        Machine.run (step shahash) (peerSetup setup clock junk) es = .ok s ∧ True :=
      Machine.run_total (fun s _ e he =>
        (step_clientSide (hes e he) shahash s).imp fun _ h => ⟨h, trivial⟩) trivial
    exact ⟨s, hs⟩

/-- A chunk is requested and its first piece arrives. -/
theorem bitmap_and_retry_first : ∃ s,
    Machine.run (step fun _ => Vector.replicate binHashSize 0)
      (peerSetup lender (fun _ => 0) fun _ => zeroPacket)
      (wantsOne ++ [.packet ⟨0, 2222⟩ firstPiece]) = .ok s ∧
    ∀ q ∈ s.missing, (s.chunks.cell q).bitsCount = (s.chunks.cell q).bits.toList.count 1 := by
  obtain ⟨hmarks, hruns⟩ := bitmap_and_retry (fun _ => Vector.replicate binHashSize 0) lender
    (fun _ => 0) (fun _ => zeroPacket) (wantsOne ++ [.packet ⟨0, 2222⟩ firstPiece])
  obtain ⟨s, hs⟩ := hruns fun e he => by
    rcases List.mem_append.1 he with he | he
    · rcases List.mem_cons.1 he with rfl | he
      · trivial
      · rw [List.mem_singleton.1 he]
        exact Or.inl rfl
    · rw [List.mem_singleton.1 he]
      exact Or.inr (Or.inr ⟨rfl, inBounds_dataPacket _ (by decide)⟩)
  exact ⟨s, hs, fun q hq => ((hmarks s hs).1 q hq).2⟩

end P2P
