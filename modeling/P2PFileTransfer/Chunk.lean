/-
**Chunks and their hashes** (`chunk.h`, `chunk.c`, `hash.c`).

A chunk is 512 KiB of a file, identified by the hash of its contents.  The hash is kept twice: as
the 40 characters read from a chunk file and as the 20 bytes that travel in packets.  Chunks are
sent in pieces of `dataSize` bytes, so a chunk under construction also carries one mark for every
piece and the number of marks set.

Main definitions:

* `P2P.Chunk` — the structure `chunk`;
* `P2P.compareBinHash`, `P2P.compareHexHash` — the two comparisons of `hash.c`;
* `P2P.hex2binary`, `P2P.createChunk` — reading a hash, and a fresh chunk for it;
* `P2P.Chunk.received` — the pieces that are marked.

Main results:

* `P2P.compareBinHash_iff`, `P2P.compareHexHash_iff` — the comparisons decide equality;
* `P2P.length_hex2binary` — two characters make a byte.
-/

import Mathlib.Data.Finset.Card
import Mathlib.Data.Finset.Range
import Mathlib.Data.List.FinRange
import Mathlib.Order.Lattice

set_option relaxedAutoImplicit false
set_option autoImplicit false

namespace P2P

/-! ### Sizes -/

/-- `BT_CHUNK_SIZE`: the bytes of a chunk. -/
def btChunkSize : ℕ := 512 * 1024

/-- `DATA_SIZE`: the bytes of a piece, except the last one of a chunk. -/
def dataSize : ℕ := 1000

/-- `MAX_SEQ_NUM`: the pieces of a chunk. -/
def maxSeqNum : ℕ := btChunkSize / dataSize + 1

/-- `HEX_HASH_SIZE`. -/
def hexHashSize : ℕ := 40

/-- `BIN_HASH_SIZE`. -/
def binHashSize : ℕ := 20

theorem btChunkSize_eq : btChunkSize = 524288 := rfl

theorem dataSize_eq : dataSize = 1000 := rfl

theorem maxSeqNum_eq : maxSeqNum = 525 := rfl

theorem btChunkSize_pos : 0 < btChunkSize := by decide

/-! ### Hashes -/

/-- The 40 characters of a hash in a chunk file. -/
abbrev HexHash := Vector UInt8 hexHashSize

/-- The 20 bytes of a hash. -/
abbrev BinHash := Vector UInt8 binHashSize

/-- The bytes of a chunk. -/
abbrev ChunkData := Vector UInt8 btChunkSize

/-- `compare_bin_hash`: every byte is compared. -/
def compareBinHash (a b : BinHash) : Bool :=
  (List.finRange binHashSize).all fun i => a[i] == b[i]

/-- `compare_hex_hash`: every character is compared. -/
def compareHexHash (a b : HexHash) : Bool :=
  (List.finRange hexHashSize).all fun i => a[i] == b[i]

/-- Comparing all entries of two vectors decides equality. -/
theorem all_finRange_iff {n : ℕ} (a b : Vector UInt8 n) :
    ((List.finRange n).all fun i => a.get i == b.get i) = true ↔ a = b := by
  simp only [List.all_eq_true, List.mem_finRange, forall_const, beq_iff_eq]
  constructor
  · intro h
    ext i hi
    exact congrArg UInt8.toNat (h ⟨i, hi⟩)
  · rintro rfl i
    rfl

@[simp] theorem compareBinHash_iff {a b : BinHash} : compareBinHash a b = true ↔ a = b :=
  all_finRange_iff a b

@[simp] theorem compareHexHash_iff {a b : HexHash} : compareHexHash a b = true ↔ a = b :=
  all_finRange_iff a b

/-- `toupper`, in the C locale. -/
def toupper (ch : UInt8) : UInt8 := if 97 ≤ ch ∧ ch ≤ 122 then ch - 32 else ch

/-- `_hex2binary`: one comparison with `'9'` tells digits from letters.  A `char` is signed, so a
byte of `128` or more compares as a negative number. -/
def hexDigit (hex : UInt8) : UInt8 :=
  let hex := toupper hex
  if hex ≤ 57 ∨ 128 ≤ hex then hex - 48 else hex - (65 - 10)

/-- `hex2binary`: two characters make a byte, the first one the high half. -/
def hex2binary : List UInt8 → List UInt8
  | hi :: lo :: rest => (hexDigit hi <<< 4 ||| hexDigit lo) :: hex2binary rest
  | _ => []

theorem length_hex2binary : ∀ hex : List UInt8, (hex2binary hex).length = hex.length / 2
  | [] => rfl
  | [_] => by simp [hex2binary]
  | _ :: _ :: rest => by
      simp only [hex2binary, List.length_cons, length_hex2binary rest]
      omega

/-- The binary form of a 40-character hash. -/
def binHashOf (hash : HexHash) : BinHash :=
  ⟨(hex2binary hash.toList).toArray, by
    rw [List.size_toArray, length_hex2binary, Vector.length_toList]; rfl⟩

/-! ### Chunks -/

/-- The structure `chunk`. -/
structure Chunk where
  /-- The position of the chunk in a file. -/
  id : UInt32
  hexHash : HexHash
  binHash : BinHash
  chunkData : ChunkData
  /-- One mark for each piece; the piece numbered `s` on the wire has index `s - 1`. -/
  bits : Vector UInt8 maxSeqNum
  /-- The number of marks set, kept by hand. -/
  bitsCount : ℕ
  /-- The peers known to own the chunk: a list of pointers. -/
  peer : List ℕ

/-- `create_chunk`: everything but the two hashes and the identifier is zero.  The identifier goes
through a parameter of type `uint8_t`. -/
def createChunk (id : UInt8) (hash : HexHash) : Chunk where
  id := id.toUInt32
  hexHash := hash
  binHash := binHashOf hash
  chunkData := Vector.replicate btChunkSize 0
  bits := Vector.replicate maxSeqNum 0
  bitsCount := 0
  peer := []

/-- `compare_chunk_by_hex_hash`. -/
def compareChunkByHexHash (c : Chunk) (hexHash : HexHash) : Bool :=
  compareHexHash c.hexHash hexHash

/-- `compare_chunk_by_bin_hash`. -/
def compareChunkByBinHash (c : Chunk) (binHash : BinHash) : Bool :=
  compareBinHash c.binHash binHash

@[simp] theorem compareChunkByHexHash_iff {c : Chunk} {hexHash : HexHash} :
    compareChunkByHexHash c hexHash = true ↔ c.hexHash = hexHash := compareHexHash_iff

@[simp] theorem compareChunkByBinHash_iff {c : Chunk} {binHash : BinHash} :
    compareChunkByBinHash c binHash = true ↔ c.binHash = binHash := compareBinHash_iff

namespace Chunk

/-! ### The pieces that are marked -/

/-- The mark of a piece; an index outside the array has none. -/
def bit (c : Chunk) (i : ℕ) : UInt8 := c.bits[i]?.getD 0

/-- The pieces that are marked. -/
def received (c : Chunk) : Finset ℕ := (Finset.range maxSeqNum).filter fun i => c.bit i ≠ 0

@[simp] theorem mem_received {c : Chunk} {i : ℕ} :
    i ∈ c.received ↔ i < maxSeqNum ∧ c.bit i ≠ 0 := by
  simp [received]

theorem received_subset (c : Chunk) : c.received ⊆ Finset.range maxSeqNum :=
  Finset.filter_subset _ _

/-- All pieces are marked exactly when there are `maxSeqNum` marks. -/
theorem card_received_eq_iff (c : Chunk) :
    c.received.card = maxSeqNum ↔ ∀ i < maxSeqNum, c.bit i ≠ 0 := by
  constructor
  · intro h i hi
    have heq : c.received = Finset.range maxSeqNum :=
      Finset.eq_of_subset_of_card_le c.received_subset (by simp [h])
    have hmem : i ∈ c.received := by rw [heq]; exact Finset.mem_range.2 hi
    exact (mem_received.1 hmem).2
  · intro h
    have heq : c.received = Finset.range maxSeqNum := by
      ext i
      rw [mem_received, Finset.mem_range]
      exact ⟨fun hi => hi.1, fun hi => ⟨hi, h i hi⟩⟩
    simp [heq]

theorem bit_eq_getElem {c : Chunk} {i : ℕ} (h : i < maxSeqNum) : c.bit i = c.bits[i] := by
  simp [bit, h]

@[simp] theorem bit_createChunk (id : UInt8) (hash : HexHash) (i : ℕ) :
    (createChunk id hash).bit i = 0 := by
  simp only [bit, createChunk, Vector.getElem?_replicate]
  split <;> rfl

@[simp] theorem received_createChunk (id : UInt8) (hash : HexHash) :
    (createChunk id hash).received = ∅ := by
  ext i
  simp

end Chunk

end P2P
