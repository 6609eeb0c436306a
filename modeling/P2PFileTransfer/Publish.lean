/-
**Publishing a file and seeding it** (`make_chunks`, `read_chunk_data_file_by_id`,
`load_own_chunk_data`).

`make-chunks` hashes a file chunk by chunk, and the hash of the last chunk is that of the bytes that
are left, however few.  A seeder reads a chunk into a zeroed buffer of the full size, at an offset
computed in 32 bits, and a client hashes the full buffer.  The two hashes are of the same bytes
exactly when the chunk is a full one and the offset reaches the right place.

Main definitions:

* `P2P.makeChunks` — the hashes of a file;
* `P2P.readChunkDataFileById`, `P2P.loadOwnChunkData` — the seeder's chunk;
* `P2P.seededChunk` — a chunk with the data a seeder reads for an identifier.

Main results:

* `P2P.getElem?_makeChunks`, `P2P.lt_length_makeChunks_iff` — what is hashed for every chunk;
* `P2P.makeChunks_accepted_iff` — **when an honest client accepts a published chunk**.
-/

import P2PFileTransfer.Pieces

set_option relaxedAutoImplicit false
set_option autoImplicit false

namespace P2P

/-! ### Publishing -/

/-- The loop of `make_chunks`: `fread` fills the buffer as far as the file goes. -/
def makeChunksLoop (shahash : List UInt8 → BinHash) : ℕ → List UInt8 → List BinHash
  | 0, _ => []
  | fuel + 1, rest =>
      let buffer := rest.take btChunkSize
      if 0 < buffer.length then
        shahash buffer :: makeChunksLoop shahash fuel (rest.drop btChunkSize)
      else []

/-- `make_chunks`: the hashes of a file.  Every pass reads at least one byte. -/
def makeChunks (shahash : List UInt8 → BinHash) (file : List UInt8) : List BinHash :=
  makeChunksLoop shahash (1 + file.length) file

/-! ### Seeding -/

/-- `read_chunk_data_file_by_id`: the offset is a product of two 32-bit numbers. -/
def readChunkDataFileById (file : List UInt8) (id : UInt32) (buf : ChunkData) : ChunkData :=
  Block.blit buf 0 ((file.drop (u32 (id.toNat * btChunkSize))).take btChunkSize)

/-- What `load_own_chunk_data` does to one chunk. -/
def loadOwnChunkData (file : List UInt8) (c : Chunk) : Chunk :=
  { c with chunkData := readChunkDataFileById file c.id c.chunkData, bitsCount := maxSeqNum }

/-- A chunk with what a seeder reads for `id` into zeroed data. -/
def seededChunk (file : List UInt8) (id : UInt32) (hash : HexHash) : Chunk :=
  { createChunk 0 hash with
    id := id
    chunkData := readChunkDataFileById file id (Vector.replicate btChunkSize 0) }

/-! ### What is hashed -/

/-- The bytes of the chunk at position `i`. -/
def fileChunk (file : List UInt8) (i : ℕ) : List UInt8 :=
  (file.drop (i * btChunkSize)).take btChunkSize

@[simp] theorem length_fileChunk (file : List UInt8) (i : ℕ) :
    (fileChunk file i).length = min btChunkSize (file.length - i * btChunkSize) := by
  simp [fileChunk]

theorem getElem?_makeChunksLoop (shahash : List UInt8 → BinHash) {fuel : ℕ} {rest : List UInt8}
    (hfuel : rest.length < fuel) (i : ℕ) :
    (makeChunksLoop shahash fuel rest)[i]? =
      if i * btChunkSize < rest.length then some (shahash (fileChunk rest i)) else none := by
  have hpos := btChunkSize_pos
  induction fuel generalizing rest i with
  | zero => omega
  | succ fuel ih =>
      rw [makeChunksLoop]
      by_cases hne : 0 < (rest.take btChunkSize).length
      · have hlen : 0 < rest.length := by rw [List.length_take] at hne; omega
        rw [if_pos hne]
        cases i with
        | zero => simp [fileChunk, hlen]
        | succ i =>
            have hdrop : (rest.drop btChunkSize).length < fuel := by
              rw [List.length_drop]; omega
            have hchunk : fileChunk (rest.drop btChunkSize) i = fileChunk rest (i + 1) := by
              rw [fileChunk, List.drop_drop, fileChunk, Nat.add_one_mul, Nat.add_comm]
            have hiff : i * btChunkSize < (rest.drop btChunkSize).length ↔
                (i + 1) * btChunkSize < rest.length := by
              rw [List.length_drop, Nat.succ_mul]
              omega
            rw [List.getElem?_cons_succ, ih hdrop, hchunk]
            simp only [hiff]
      · have hlen : rest.length = 0 := by rw [List.length_take] at hne; omega
        rw [if_neg hne, hlen]
        simp

/-- **What `make_chunks` hashes for every chunk.** -/
theorem getElem?_makeChunks (shahash : List UInt8 → BinHash) (file : List UInt8) (i : ℕ) :
    (makeChunks shahash file)[i]? =
      if i * btChunkSize < file.length then some (shahash (fileChunk file i)) else none :=
  getElem?_makeChunksLoop shahash (by omega) i

/-- The number of chunks is the length of the file, divided and rounded up. -/
theorem lt_length_makeChunks_iff (shahash : List UInt8 → BinHash) (file : List UInt8) (i : ℕ) :
    i < (makeChunks shahash file).length ↔ i * btChunkSize < file.length := by
  have hget := getElem?_makeChunks shahash file i
  constructor
  · intro h
    by_contra hn
    rw [if_neg hn, List.getElem?_eq_none_iff] at hget
    omega
  · intro h
    rw [if_pos h] at hget
    exact (List.getElem?_eq_some_iff.1 hget).1

/-- Where the seeder's 32-bit offset leads. -/
theorem u32_mul_btChunkSize (n : ℕ) : u32 (n * btChunkSize) = n % 8192 * btChunkSize := by
  have hwidth : 2 ^ 32 = 8192 * btChunkSize := by rw [btChunkSize_eq]; decide
  rw [u32, hwidth, Nat.mul_mod_mul_right]

/-- The data a seeder reads: the chunk at the place its offset leads to, then zeros. -/
theorem toList_seededChunk (file : List UInt8) (id : UInt32) (hash : HexHash) :
    (seededChunk file id hash).chunkData.toList =
      fileChunk file (id.toNat % 8192) ++
        List.replicate (btChunkSize - (fileChunk file (id.toNat % 8192)).length) 0 := by
  have hle : (fileChunk file (id.toNat % 8192)).length ≤ btChunkSize := by
    rw [length_fileChunk]; exact Nat.min_le_left _ _
  have hread : (seededChunk file id hash).chunkData =
      Block.blit (Vector.replicate btChunkSize 0) 0 (fileChunk file (id.toNat % 8192)) := by
    rw [fileChunk, ← u32_mul_btChunkSize]
    rfl
  rw [hread, Block.toList_blit_zero _ hle, Vector.toList_replicate, List.drop_replicate]

/-! ### What a client accepts -/

/-- Two runs of bytes have the same hash under every hash function only if they are equal. -/
theorem hash_eq_iff {xs ys : List UInt8} :
    (∀ shahash : List UInt8 → BinHash, shahash xs = shahash ys) ↔ xs = ys := by
  constructor
  · intro h
    by_contra hne
    -- a hash function that tells `xs` from everything else
    have hsep := h fun s => Vector.replicate binHashSize (if s = xs then 1 else 0)
    have hbyte := congrArg (fun v : BinHash => v.toList[0]?) hsep
    simp [Ne.symm hne, binHashSize] at hbyte
  · rintro rfl shahash
    rfl

/-- The published bytes are the seeder's exactly when the chunk is full and the offset leads to
the same bytes. -/
theorem fileChunk_eq_seeded_iff {file : List UInt8} {i : ℕ} (hi : i * btChunkSize < file.length)
    {id : UInt32} (hid : id.toNat % 8192 ≤ i) (hash : HexHash) :
    fileChunk file i = (seededChunk file id hash).chunkData.toList ↔
      (i + 1) * btChunkSize ≤ file.length ∧
        fileChunk file i = fileChunk file (id.toNat % 8192) := by
  have hfull : (i + 1) * btChunkSize ≤ file.length ↔ (fileChunk file i).length = btChunkSize := by
    rw [length_fileChunk, Nat.succ_mul]
    omega
  rw [hfull, toList_seededChunk]
  constructor
  · intro h
    have hlen : (fileChunk file i).length = btChunkSize := by
      rw [h]
      simp
    -- what the seeder reads starts no later in the file, so it is a full chunk too
    have hmono : id.toNat % 8192 * btChunkSize ≤ i * btChunkSize := Nat.mul_le_mul_right _ hid
    have hread : (fileChunk file (id.toNat % 8192)).length = btChunkSize := by
      rw [length_fileChunk] at *
      omega
    refine ⟨hlen, ?_⟩
    rw [hread, Nat.sub_self, List.replicate_zero, List.append_nil] at h
    exact h
  · rintro ⟨hlen, heq⟩
    rw [← heq, hlen, Nat.sub_self, List.replicate_zero, List.append_nil]

/-- **When an honest client accepts a published chunk.**  A file `file` is published, a seeder loads
the chunk at position `i`, and a client collects all of its pieces, in any order and with any
repetitions.  The client's hash is the published one, whatever the hash function, exactly when the
chunk is a full one and the file has the same bytes at the place the 32-bit offset leads to.  On
the seeder's own set-up path the identifier is cut to 8 bits before. -/
theorem makeChunks_accepted_iff (file : List UInt8) (i : ℕ) (hi : i * btChunkSize < file.length)
    (hash : HexHash) (ds : List ℕ) (hds : ∀ s ∈ ds, 1 ≤ s ∧ s ≤ maxSeqNum)
    (hall : ∀ s, 1 ≤ s → s ≤ maxSeqNum → s ∈ ds) :
    (∃ c, storeAll (createChunk 0 hash)
          (ds.map (piece (seededChunk file (UInt32.ofNat i) hash))) = .ok c ∧
        chunkBitsAllReceived c = true ∧
        ((∀ shahash, (makeChunks shahash file)[i]? = some (shahash c.chunkData.toList)) ↔
          (i + 1) * btChunkSize ≤ file.length ∧
            fileChunk file i = fileChunk file (i % 8192))) ∧
    (∃ c, storeAll (createChunk 0 hash)
          (ds.map (piece (loadOwnChunkData file (createChunk (UInt8.ofNat i) hash)))) = .ok c ∧
        chunkBitsAllReceived c = true ∧
        ((∀ shahash, (makeChunks shahash file)[i]? = some (shahash c.chunkData.toList)) ↔
          (i + 1) * btChunkSize ≤ file.length ∧
            fileChunk file i = fileChunk file (i % 256))) := by
  have key : ∀ (src : Chunk) (id : UInt32), id.toNat % 8192 ≤ i →
      src.chunkData = (seededChunk file id hash).chunkData →
      ∃ c, storeAll (createChunk 0 hash) (ds.map (piece src)) = .ok c ∧
        chunkBitsAllReceived c = true ∧
        ((∀ shahash, (makeChunks shahash file)[i]? = some (shahash c.chunkData.toList)) ↔
          (i + 1) * btChunkSize ≤ file.length ∧
            fileChunk file i = fileChunk file (id.toNat % 8192)) := by
    intro src id hid hsrc
    obtain ⟨c, hrun, hdone, hdata⟩ := storeAll_every_piece src 0 hash hds hall
    refine ⟨c, hrun, hdone, ?_⟩
    rw [hdata, hsrc, ← fileChunk_eq_seeded_iff hi hid hash, ← hash_eq_iff]
    simp only [getElem?_makeChunks, hi, if_true, Option.some.injEq]
  constructor
  · have hid : (UInt32.ofNat i).toNat % 8192 = i % 8192 := by
      rw [UInt32.toNat_ofNat']; omega
    have h := key (seededChunk file (UInt32.ofNat i) hash) (UInt32.ofNat i)
      (by rw [hid]; exact Nat.mod_le _ _) rfl
    rwa [hid] at h
  · have hid : (UInt8.ofNat i).toUInt32.toNat % 8192 = i % 256 := by
      rw [UInt8.toNat_toUInt32, UInt8.toNat_ofNat']; omega
    have h := key (loadOwnChunkData file (createChunk (UInt8.ofNat i) hash))
      (UInt8.ofNat i).toUInt32 (by rw [hid]; exact Nat.mod_le _ _) rfl
    rwa [hid] at h

/-- A file of one byte. -/
theorem makeChunks_accepted_iff_one : ∃ c,
    storeAll (createChunk 0 (Vector.replicate hexHashSize 48)) ((List.range' 1 maxSeqNum).map
        (piece (seededChunk [7] 0 (Vector.replicate hexHashSize 48)))) = .ok c ∧
      chunkBitsAllReceived c = true := by
  obtain ⟨⟨c, hrun, hdone, -⟩, -⟩ := makeChunks_accepted_iff [7] 0 (by decide)
    (Vector.replicate hexHashSize 48) (List.range' 1 maxSeqNum)
    (fun s hs => by rw [List.mem_range'_1] at hs; omega)
    (fun s h₁ h₂ => List.mem_range'_1.2 ⟨h₁, by omega⟩)
  exact ⟨c, hrun, hdone⟩

/-- The only chunk of a file of one byte is refused: the published hash is that of one byte, the
client's that of 524288. -/
theorem makeChunks_last_refused : ∃ (shahash : List UInt8 → BinHash) (c : Chunk),
    storeAll (createChunk 0 (Vector.replicate hexHashSize 48)) ((List.range' 1 maxSeqNum).map
        (piece (seededChunk [7] 0 (Vector.replicate hexHashSize 48)))) = .ok c ∧
      chunkBitsAllReceived c = true ∧
      (makeChunks shahash [7])[0]? ≠ some (shahash c.chunkData.toList) := by
  obtain ⟨c, hrun, hdone, -⟩ := storeAll_every_piece
    (seededChunk [7] 0 (Vector.replicate hexHashSize 48)) 0 (Vector.replicate hexHashSize 48)
    (fun s hs => by rw [List.mem_range'_1] at hs; omega)
    (fun s h₁ h₂ => List.mem_range'_1 (m := s) (s := 1) (n := maxSeqNum).2 ⟨h₁, by omega⟩)
  refine ⟨fun s => Vector.replicate binHashSize (UInt8.ofNat s.length), c, hrun, hdone, ?_⟩
  have hone : (fileChunk [7] 0).length = 1 := by decide
  have hall : c.chunkData.toList.length = btChunkSize := Vector.length_toList
  rw [getElem?_makeChunks, if_pos (by decide)]
  simp only [hone, hall, ne_eq, Option.some.injEq]
  decide

end P2P
