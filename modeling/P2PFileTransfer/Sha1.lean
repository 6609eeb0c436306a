/-
**The hash of a chunk** (`sha.h`, `sha.c`, and `shahash` of `chunk.c`).

The program hashes with a context that is given a message in parts: bytes wait in a buffer of 64
until it is full, and then `SHA1Guts` works them into the five words of the hash.  The machine keeps
words least significant byte first, so every word is turned around when it is read from the buffer,
and the length of the message before it is put behind the message.

An access outside the buffer, outside the data, outside the 80 words of `SHA1Guts`, or to one of
them that was not written yet, is a fault.

Main definitions:

* `P2P.SHA1Context` — the context;
* `P2P.sha1Guts`, `P2P.sha1Init`, `P2P.sha1Update`, `P2P.sha1Final`, `P2P.shahash`;
* `P2P.SHA1Context.Absorbs` — the context after a message.

Main results:

* `P2P.byteswap_littleEndian` — a word that was turned around;
* `P2P.sha1Guts_eq` — **the compression is that of the standard**;
* `P2P.SHA1Context.Absorbs.update` — `SHA1Update` takes its data to the message;
* `P2P.sha1_of_parts` — **the hash is that of the standard**, whatever parts the message comes in;
* `P2P.shahash_eq` — the same for a message that is there as a whole.
-/

import P2PFileTransfer.Block
import P2PFileTransfer.HttpBuffer
import P2PFileTransfer.SecureHash
import Mathlib.Tactic.IntervalCases

set_option relaxedAutoImplicit false
set_option autoImplicit false

namespace P2P

open SecureHash (Registers compress initial)

/-! ### Words -/

/-- `ROTL`. -/
def rotl (x n : UInt32) : UInt32 := (x <<< n) ||| (x >>> (32 - n))

/-- `ROTR`. -/
def rotr (x n : UInt32) : UInt32 := (x >>> n) ||| (x <<< (32 - n))

/-- `BYTESWAP`, on a machine that keeps words least significant byte first. -/
def byteswap (x : UInt32) : UInt32 := (rotr x 8 &&& 0xff00ff00) ||| (rotl x 8 &&& 0x00ff00ff)

/-- `_byteswap64`. -/
def byteswap64 (x : UInt64) : UInt64 :=
  let a := (x >>> 32).toUInt32
  let b := x.toUInt32
  ((byteswap b).toUInt64 <<< 32) ||| (byteswap a).toUInt64

/-- `F_0_19`. -/
def f0To19 (x y z : UInt32) : UInt32 := z ^^^ (x &&& (y ^^^ z))

/-- `F_20_39`. -/
def f20To39 (x y z : UInt32) : UInt32 := x ^^^ y ^^^ z

/-- `F_40_59`. -/
def f40To59 (x y z : UInt32) : UInt32 := (x &&& (y ||| z)) ||| (y &&& z)

/-- `F_60_79`. -/
def f60To79 (x y z : UInt32) : UInt32 := x ^^^ y ^^^ z

def k0To19 : UInt32 := 0x5a827999

def k20To39 : UInt32 := 0x6ed9eba1

def k40To59 : UInt32 := 0x8f1bbcdc

def k60To79 : UInt32 := 0xca62c1d6

/-- The word that four bytes of memory hold. -/
def littleEndian (b₀ b₁ b₂ b₃ : UInt8) : UInt32 :=
  b₀.toUInt32 ||| b₁.toUInt32 <<< 8 ||| b₂.toUInt32 <<< 16 ||| b₃.toUInt32 <<< 24

/-- The bytes of a 64-bit number in memory. -/
def bytes64 (x : UInt64) : List UInt8 :=
  [x.toUInt8, (x >>> 8).toUInt8, (x >>> 16).toUInt8, (x >>> 24).toUInt8,
    (x >>> 32).toUInt8, (x >>> 40).toUInt8, (x >>> 48).toUInt8, (x >>> 56).toUInt8]

/-! ### The context -/

/-- `SHA1Context`.  The buffer is a union of 64 bytes and 16 words. -/
structure SHA1Context where
  totalLength : UInt64
  hash : Vector UInt32 5
  bufferLength : UInt32
  buffer : Vector UInt8 64

/-- `SHA1Init`. -/
def sha1Init (sc : SHA1Context) : SHA1Context :=
  { sc with
    totalLength := 0
    hash := #v[0x67452301, 0xefcdab89, 0x98badcfe, 0x10325476, 0xc3d2e1f0]
    bufferLength := 0 }

/-! ### `SHA1Guts` -/

/-- `buffer.words[i]`. -/
def bufferWord (buffer : Vector UInt8 64) (i : ℕ) : Except Fault UInt32 :=
  if h : 4 * i + 3 < 64 then
    .ok (littleEndian (buffer.get ⟨4 * i, by omega⟩) (buffer.get ⟨4 * i + 1, by omega⟩)
      (buffer.get ⟨4 * i + 2, by omega⟩) (buffer.get ⟨4 * i + 3, h⟩))
  else .error .outOfBounds

/-- The word at `p` in the array `buf`, of which the words so far are written. -/
def readWord (buf : List UInt32) (p : ℕ) : Except Fault UInt32 :=
  match buf[p]? with
  | some w => .ok w
  | none => .error .outOfBounds

/-- `*(W++) = w` in the array `buf`, where `W` points behind the words so far. -/
def writeWord (buf : List UInt32) (w : UInt32) : Except Fault (List UInt32) :=
  if buf.length < 80 then .ok (buf ++ [w]) else .error .outOfBounds

/-- The first loop of `SHA1Guts`: `n` words more are read, from `cbuf` on. -/
def loadLoop (buffer : Vector UInt8 64) : ℕ → ℕ → List UInt32 → Except Fault (List UInt32)
  | 0, _, buf => .ok buf
  | n + 1, cbuf, buf => do
      let w ← bufferWord buffer cbuf
      let buf ← writeWord buf (byteswap w)
      loadLoop buffer n (cbuf + 1) buf

/-- The second loop: `n` words more, and four pointers that move along. -/
def expandLoop : ℕ → (w3 w8 w14 w16 : ℕ) → List UInt32 → Except Fault (List UInt32)
  | 0, _, _, _, _, buf => .ok buf
  | n + 1, w3, w8, w14, w16, buf => do
      let x3 ← readWord buf w3
      let x8 ← readWord buf w8
      let x14 ← readWord buf w14
      let x16 ← readWord buf w16
      let buf ← writeWord buf (rotl (x3 ^^^ x8 ^^^ x14 ^^^ x16) 1)
      expandLoop n (w3 + 1) (w8 + 1) (w14 + 1) (w16 + 1) buf

/-- `DO_ROUND`, with the word that `W` points to. -/
def doRound (F : UInt32 → UInt32 → UInt32 → UInt32) (K w : UInt32) (r : Registers) : Registers where
  a := rotl r.a 5 + F r.b r.c r.d + r.e + w + K
  b := r.a
  c := rotl r.b 30
  d := r.c
  e := r.d

/-- `n` times `DO_ROUND`, from the word at `W` on. -/
def doRounds (buf : List UInt32) (F : UInt32 → UInt32 → UInt32 → UInt32) (K : UInt32) :
    ℕ → ℕ → Registers → Except Fault Registers
  | 0, _, r => .ok r
  | n + 1, W, r => do
      let w ← readWord buf W
      doRounds buf F K n (W + 1) (doRound F K w r)

/-- `SHA1Guts`, for the words of the buffer. -/
def sha1Guts (sc : SHA1Context) : Except Fault SHA1Context := do
  let buf ← loadLoop sc.buffer 16 0 []
  let buf ← expandLoop 64 13 8 2 0 buf
  let r : Registers := ⟨sc.hash[0], sc.hash[1], sc.hash[2], sc.hash[3], sc.hash[4]⟩
  let r ← doRounds buf f0To19 k0To19 20 0 r
  let r ← doRounds buf f20To39 k20To39 20 20 r
  let r ← doRounds buf f40To59 k40To59 20 40 r
  let r ← doRounds buf f60To79 k60To79 20 60 r
  .ok { sc with hash := #v[sc.hash[0] + r.a, sc.hash[1] + r.b, sc.hash[2] + r.c, sc.hash[3] + r.d,
    sc.hash[4] + r.e] }

/-! ### `SHA1Update` and `SHA1Final` -/

/-- `memcpy (&sc->buffer.bytes[sc->bufferLength], data, bytesToCopy)`. -/
def fillBuffer (sc : SHA1Context) (data : List UInt8) (bytesToCopy : UInt32) :
    Except Fault (Vector UInt8 64) :=
  if sc.bufferLength.toNat + bytesToCopy.toNat ≤ 64 ∧ bytesToCopy.toNat ≤ data.length then
    .ok (Block.blit sc.buffer sc.bufferLength.toNat (data.take bytesToCopy.toNat))
  else .error .outOfBounds

/-- A pass of the loop of `SHA1Update`: bytes are copied, and a full buffer is worked in. -/
def updatePass (sc : SHA1Context) (data : List UInt8) (bytesToCopy : UInt32) :
    Except Fault SHA1Context := do
  let buffer ← fillBuffer sc data bytesToCopy
  let sc := { sc with
    buffer := buffer
    totalLength := sc.totalLength + bytesToCopy.toUInt64 * 8
    bufferLength := sc.bufferLength + bytesToCopy }
  if sc.bufferLength = 64 then
    let sc ← sha1Guts sc
    .ok { sc with bufferLength := 0 }
  else .ok sc

/-- The loop of `SHA1Update`, for `fuel` passes at most. -/
def updateLoop : ℕ → SHA1Context → List UInt8 → UInt32 → Except Fault SHA1Context
  | 0, sc, _, _ => .ok sc
  | fuel + 1, sc, data, len =>
      if len = 0 then .ok sc
      else do
        let bufferBytesLeft := 64 - sc.bufferLength
        let bytesToCopy := if bufferBytesLeft > len then len else bufferBytesLeft
        let sc ← updatePass sc data bytesToCopy
        updateLoop fuel sc (data.drop bytesToCopy.toNat) (len - bytesToCopy)

/-- `SHA1Update`: every pass copies a byte, except the first one into a full buffer. -/
def sha1Update (sc : SHA1Context) (data : List UInt8) (len : UInt32) : Except Fault SHA1Context :=
  updateLoop (len.toNat + 1) sc data len

/-- The array `padding`. -/
def paddingBytes : List UInt8 := 0x80 :: List.replicate 63 0

/-- The bytes `SHA1Final` writes for a word of the hash. -/
def wordBytes (w : UInt32) : List UInt8 :=
  [(w >>> 24).toUInt8, (w >>> 16).toUInt8, (w >>> 8).toUInt8, w.toUInt8]

/-- What the loop of `SHA1Final` writes to `hash`. -/
def hashBytes (hash : Vector UInt32 5) : BinHash :=
  ⟨(hash.toList.flatMap wordBytes).toArray, by
    simp [List.length_flatMap, wordBytes, binHashSize]⟩

/-- `SHA1Final`. -/
def sha1Final (sc : SHA1Context) : Except Fault (SHA1Context × BinHash) := do
  let bytesToPad := 120 - sc.bufferLength
  let bytesToPad := if bytesToPad > 64 then bytesToPad - 64 else bytesToPad
  let lengthPad := byteswap64 sc.totalLength
  let sc ← sha1Update sc paddingBytes bytesToPad
  let sc ← sha1Update sc (bytes64 lengthPad) 8
  .ok (sc, hashBytes sc.hash)

/-- `shahash`, for a context on the stack that may hold anything. -/
def shahash (sha : SHA1Context) (str : List UInt8) (len : ℤ) : Except Fault BinHash := do
  let sha ← sha1Update (sha1Init sha) str (UInt32.ofInt len)
  let (_, hash) ← sha1Final sha
  .ok hash

/-! ### Words and bytes -/

/-- The bytes of a word in memory. -/
def wordMemory (w : UInt32) : List UInt8 :=
  [w.toUInt8, (w >>> 8).toUInt8, (w >>> 16).toUInt8, (w >>> 24).toUInt8]

theorem wordMemory_littleEndian (b₀ b₁ b₂ b₃ : UInt8) :
    wordMemory (littleEndian b₀ b₁ b₂ b₃) = [b₀, b₁, b₂, b₃] := by
  simp only [wordMemory, List.cons.injEq, and_true]
  refine ⟨?_, ?_, ?_, ?_⟩ <;>
  · apply UInt8.eq_of_toBitVec_eq
    apply BitVec.eq_of_getLsbD_eq
    intro i hi
    simp only [littleEndian, UInt32.toBitVec_toUInt8, UInt32.toBitVec_shiftRight,
      UInt32.toBitVec_or, UInt32.toBitVec_shiftLeft, UInt8.toBitVec_toUInt32]
    interval_cases i <;> simp

/-- Turning a word around turns its bytes around. -/
theorem wordBytes_byteswap (x : UInt32) : wordBytes (byteswap x) = wordMemory x := by
  simp only [wordBytes, wordMemory, List.cons.injEq, and_true]
  refine ⟨?_, ?_, ?_, ?_⟩ <;>
  · apply UInt8.eq_of_toBitVec_eq
    apply BitVec.eq_of_getLsbD_eq
    intro i hi
    simp only [byteswap, rotl, rotr, UInt32.toBitVec_toUInt8, UInt32.toBitVec_shiftRight,
      UInt32.toBitVec_or, UInt32.toBitVec_and, UInt32.toBitVec_shiftLeft]
    interval_cases i <;> simp

theorem wordMemory_byteswap (x : UInt32) : wordMemory (byteswap x) = wordBytes x := by
  have h := congrArg List.reverse (wordBytes_byteswap x)
  exact h

/-- The bytes of two words that were put together. -/
theorem bytes64_or (a b : UInt32) :
    bytes64 ((b.toUInt64 <<< 32) ||| a.toUInt64) = wordMemory a ++ wordMemory b := by
  simp only [bytes64, wordMemory, List.cons_append, List.nil_append, List.cons.injEq, and_true]
  refine ⟨?_, ?_, ?_, ?_, ?_, ?_, ?_, ?_⟩ <;>
  · apply UInt8.eq_of_toBitVec_eq
    apply BitVec.eq_of_getLsbD_eq
    intro i hi
    simp only [UInt64.toBitVec_toUInt8, UInt64.toBitVec_shiftRight, UInt64.toBitVec_or,
      UInt64.toBitVec_shiftLeft, UInt32.toBitVec_toUInt64, UInt32.toBitVec_toUInt8,
      UInt32.toBitVec_shiftRight]
    interval_cases i <;> simp

theorem toUInt8_shiftRight (w : UInt32) {k : UInt32} (hk : k.toNat < 32) :
    (w >>> k).toUInt8 = UInt8.ofNat (w.toNat / 2 ^ k.toNat % 256) := by
  apply UInt8.toNat.inj
  rw [UInt32.toNat_toUInt8, UInt32.toNat_shiftRight, Nat.mod_eq_of_lt hk,
    Nat.shiftRight_eq_div_pow, UInt8.toNat_ofNat']
  omega

/-- **The bytes of a word are those of network byte order.** -/
theorem wordBytes_eq (w : UInt32) : wordBytes w = NetOrder.encode 4 w.toNat := by
  have h₀ : w.toUInt8 = UInt8.ofNat (w.toNat % 256) := by
    apply UInt8.toNat.inj
    rw [UInt32.toNat_toUInt8, UInt8.toNat_ofNat']
    omega
  rw [wordBytes, toUInt8_shiftRight w (by decide), toUInt8_shiftRight w (by decide),
    toUInt8_shiftRight w (by decide), h₀]
  simp only [NetOrder.encode, List.nil_append, List.cons_append, Nat.div_div_eq_div_mul]
  rfl

/-- A word is determined by its bytes. -/
theorem eq_ofNat_of_wordBytes {w : UInt32} {bs : List UInt8} (h : wordBytes w = bs) :
    w = UInt32.ofNat (NetOrder.decode bs) := by
  have hw := w.toNat_lt
  rw [← h, wordBytes_eq, NetOrder.decode_encode_of_lt (by norm_num; omega), UInt32.ofNat_toNat]

/-- **A word that is turned around when it is read** is the number that its bytes stand for, most
significant byte first. -/
theorem byteswap_littleEndian (b₀ b₁ b₂ b₃ : UInt8) :
    byteswap (littleEndian b₀ b₁ b₂ b₃) = UInt32.ofNat (NetOrder.decode [b₀, b₁, b₂, b₃]) := by
  refine eq_ofNat_of_wordBytes ?_
  rw [wordBytes_byteswap, wordMemory_littleEndian]

/-- **A length that was turned around** has its bytes in network byte order. -/
theorem bytes64_byteswap64 (x : UInt64) : bytes64 (byteswap64 x) = NetOrder.encode 8 x.toNat := by
  have hlow : NetOrder.encode 4 (x.toNat % 256 ^ 4) = NetOrder.encode 4 x.toNat :=
    NetOrder.encode_mod 4 x.toNat
  have hhigh : NetOrder.encode 4 (x.toNat / 256 ^ 4 % 256 ^ 4) =
      NetOrder.encode 4 (x.toNat / 256 ^ 4) :=
    NetOrder.encode_mod 4 _
  have ha : (x >>> 32).toUInt32.toNat = x.toNat / 256 ^ 4 % 256 ^ 4 := by
    rw [UInt64.toNat_toUInt32, UInt64.toNat_shiftRight, Nat.shiftRight_eq_div_pow]
    rfl
  have hb : x.toUInt32.toNat = x.toNat % 256 ^ 4 := UInt64.toNat_toUInt32 x
  rw [byteswap64, bytes64_or, wordMemory_byteswap, wordMemory_byteswap, wordBytes_eq, wordBytes_eq,
    ha, hb, hlow, hhigh, ← NetOrder.encode_add 4 4]

/-! ### The functions of the rounds -/

theorem rotl_eq (x : UInt32) {n : UInt32} (h : n.toNat < 32) (hpos : 0 < n.toNat) :
    rotl x n = SecureHash.rotateLeft x n.toNat := by
  have hn : (n.toBitVec % 32).toNat = n.toNat := by
    rw [BitVec.toNat_umod]
    exact Nat.mod_eq_of_lt h
  have hsub : ((32 - n).toBitVec % 32).toNat = 32 - n.toNat := by
    have hle : (32 - n).toNat = 32 - n.toNat :=
      UInt32.toNat_sub_of_le _ _ (UInt32.le_iff_toNat_le.2 h.le)
    rw [BitVec.toNat_umod]
    show (32 - n).toNat % 32 = _
    omega
  apply UInt32.eq_of_toBitVec_eq
  rw [rotl, SecureHash.rotateLeft, UInt32.toBitVec_or, UInt32.toBitVec_shiftLeft,
    UInt32.toBitVec_shiftRight, BitVec.rotateLeft_def, BitVec.shiftLeft_eq', BitVec.ushiftRight_eq',
    hn, hsub, Nat.mod_eq_of_lt h]

theorem f0To19_eq : f0To19 = SecureHash.ch := by
  funext x y z
  apply UInt32.eq_of_toBitVec_eq
  apply BitVec.eq_of_getLsbD_eq
  intro i hi
  simp only [f0To19, SecureHash.ch, UInt32.toBitVec_xor, UInt32.toBitVec_and, UInt32.toBitVec_not,
    BitVec.getLsbD_xor, BitVec.getLsbD_and, BitVec.getLsbD_not, hi]
  cases x.toBitVec.getLsbD i <;> cases y.toBitVec.getLsbD i <;> cases z.toBitVec.getLsbD i <;> rfl

theorem f40To59_eq : f40To59 = SecureHash.maj := by
  funext x y z
  apply UInt32.eq_of_toBitVec_eq
  apply BitVec.eq_of_getLsbD_eq
  intro i _
  simp only [f40To59, SecureHash.maj, UInt32.toBitVec_xor, UInt32.toBitVec_and, UInt32.toBitVec_or,
    BitVec.getLsbD_xor, BitVec.getLsbD_and, BitVec.getLsbD_or]
  cases x.toBitVec.getLsbD i <;> cases y.toBitVec.getLsbD i <;> cases z.toBitVec.getLsbD i <;> rfl

/-- **A round of the program** is the round of the standard with the same function and constant. -/
theorem doRound_eq {F : UInt32 → UInt32 → UInt32 → UInt32} {K : UInt32} {t : ℕ}
    (hF : F = SecureHash.logical t) (hK : K = SecureHash.constant t) (w : UInt32) (r : Registers) :
    doRound F K w r = SecureHash.round t w r := by
  have h5 : rotl r.a 5 = SecureHash.rotateLeft r.a 5 := rotl_eq r.a (by decide) (by decide)
  have h30 : rotl r.b 30 = SecureHash.rotateLeft r.b 30 := rotl_eq r.b (by decide) (by decide)
  rw [doRound, SecureHash.round, h5, h30, hF, hK]
  congr 1
  rw [UInt32.add_assoc, UInt32.add_assoc _ (SecureHash.constant t), UInt32.add_comm w]

/-! ### The words of a block -/

theorem drop_toList {n : ℕ} {α : Type*} (v : Vector α n) {j : ℕ} (hj : j < n) :
    v.toList.drop j = v.get ⟨j, hj⟩ :: v.toList.drop (j + 1) := by
  rw [List.drop_eq_getElem_cons (by rw [Vector.length_toList]; exact hj), Vector.getElem_toList]
  rfl

/-- **A word that is read from the buffer and turned around** is the word of the block. -/
theorem bufferWord_eq (buffer : Vector UInt8 64) {i : ℕ} (h : i < 16) :
    ∃ w, bufferWord buffer i = .ok w ∧ byteswap w = SecureHash.word buffer.toList i := by
  have hi : 4 * i + 3 < 64 := by omega
  refine ⟨_, dif_pos hi, ?_⟩
  rw [byteswap_littleEndian, SecureHash.word, drop_toList buffer (j := 4 * i) (by omega),
    drop_toList buffer (j := 4 * i + 1) (by omega),
    drop_toList buffer (j := 4 * i + 1 + 1) (by omega),
    drop_toList buffer (j := 4 * i + 1 + 1 + 1) (by omega)]
  rfl

theorem writeWord_eq {buf : List UInt32} (h : buf.length < 80) (w : UInt32) :
    writeWord buf w = .ok (buf ++ [w]) := if_pos h

theorem readWord_eq {buf : List UInt32} {p : ℕ} {w : UInt32} (h : buf[p]? = some w) :
    readWord buf p = .ok w := by
  rw [readWord, h]

/-- The words of the first `n` rounds. -/
def scheduled (block : List UInt8) (n : ℕ) : List UInt32 :=
  (List.range n).map (SecureHash.schedule block)

theorem length_scheduled (block : List UInt8) (n : ℕ) : (scheduled block n).length = n := by
  rw [scheduled, List.length_map, List.length_range]

theorem scheduled_succ (block : List UInt8) (n : ℕ) :
    scheduled block (n + 1) = scheduled block n ++ [SecureHash.schedule block n] := by
  rw [scheduled, List.range_succ, List.map_append, List.map_singleton, scheduled]

theorem getElem?_scheduled (block : List UInt8) {n t : ℕ} (h : t < n) :
    (scheduled block n)[t]? = some (SecureHash.schedule block t) := by
  rw [scheduled, List.getElem?_map, List.getElem?_range h, Option.map_some]

/-- **The first loop** writes the words of the block. -/
theorem loadLoop_eq (buffer : Vector UInt8 64) {n k : ℕ} (h : k + n ≤ 16) :
    loadLoop buffer n k (scheduled buffer.toList k) = .ok (scheduled buffer.toList (k + n)) := by
  induction n generalizing k with
  | zero => rfl
  | succ n ih =>
      obtain ⟨w, hw, hswap⟩ := bufferWord_eq buffer (i := k) (by omega)
      have hword : SecureHash.schedule buffer.toList k = byteswap w := by
        rw [SecureHash.schedule, if_pos (by omega), hswap]
      rw [loadLoop, hw, ok_bind, writeWord_eq (by rw [length_scheduled]; omega), ok_bind, ← hword,
        ← scheduled_succ, ih (by omega), Nat.add_right_comm, Nat.add_assoc]

/-- **The second loop** writes the words that the schedule makes of earlier ones; none of them is
read before it was written. -/
theorem expandLoop_eq (block : List UInt8) {n k : ℕ} (h : k + n ≤ 64) :
    expandLoop n (13 + k) (8 + k) (2 + k) k (scheduled block (16 + k)) =
      .ok (scheduled block (16 + k + n)) := by
  induction n generalizing k with
  | zero => rfl
  | succ n ih =>
      have hread : ∀ t < 16 + k, readWord (scheduled block (16 + k)) t =
          .ok (SecureHash.schedule block t) := fun t ht => readWord_eq (getElem?_scheduled block ht)
      have hrotl : ∀ x, rotl x 1 = SecureHash.rotateLeft x 1 :=
        fun x => rotl_eq x (by decide) (by decide)
      have hword : SecureHash.schedule block (16 + k) =
          rotl (SecureHash.schedule block (13 + k) ^^^ SecureHash.schedule block (8 + k) ^^^
            SecureHash.schedule block (2 + k) ^^^ SecureHash.schedule block k) 1 := by
        have h3 : 16 + k - 3 = 13 + k := by omega
        have h8 : 16 + k - 8 = 8 + k := by omega
        have h14 : 16 + k - 14 = 2 + k := by omega
        rw [SecureHash.schedule, if_neg (by omega), hrotl, h3, h8, h14, Nat.add_sub_cancel_left]
      rw [expandLoop, hread _ (by omega), ok_bind, hread _ (by omega), ok_bind,
        hread _ (by omega), ok_bind, hread _ (by omega), ok_bind,
        writeWord_eq (by rw [length_scheduled]; omega), ok_bind, ← hword, ← scheduled_succ]
      have hnext := ih (k := k + 1) (by omega)
      have hend : 16 + k + (n + 1) = 16 + (k + 1) + n := by omega
      rw [hend]
      exact hnext

/-- **Twenty rounds**, or any number with one function and one constant. -/
theorem doRounds_eq (block : List UInt8) (h : Registers) {F : UInt32 → UInt32 → UInt32 → UInt32}
    {K : UInt32} {n W : ℕ} (hF : ∀ t, W ≤ t → t < W + n → F = SecureHash.logical t)
    (hK : ∀ t, W ≤ t → t < W + n → K = SecureHash.constant t) (hend : W + n ≤ 80) :
    doRounds (scheduled block 80) F K n W (SecureHash.rounds block h W) =
      .ok (SecureHash.rounds block h (W + n)) := by
  induction n generalizing W with
  | zero => rfl
  | succ n ih =>
      have hround : doRound F K (SecureHash.schedule block W) (SecureHash.rounds block h W) =
          SecureHash.rounds block h (W + 1) :=
        doRound_eq (hF W (Nat.le_refl W) (by omega)) (hK W (Nat.le_refl W) (by omega)) _ _
      rw [doRounds, readWord_eq (getElem?_scheduled block (by omega)), ok_bind, hround,
        ih (fun t h₁ h₂ => hF t (by omega) (by omega)) (fun t h₁ h₂ => hK t (by omega) (by omega))
          (by omega), Nat.add_right_comm, Nat.add_assoc]

/-! ### The compression -/

/-- The registers that are kept in the array `hash`. -/
def registers (hash : Vector UInt32 5) : Registers :=
  ⟨hash[0], hash[1], hash[2], hash[3], hash[4]⟩

/-- The array that keeps the registers. -/
def hashOf (r : Registers) : Vector UInt32 5 := #v[r.a, r.b, r.c, r.d, r.e]

@[simp] theorem registers_hashOf (r : Registers) : registers (hashOf r) = r := rfl

theorem hashOf_registers (hash : Vector UInt32 5) : hashOf (registers hash) = hash := by
  ext i hi
  interval_cases i <;> rfl

/-- **`SHA1Guts` is the compression of the standard**, whatever the context holds; it stays in its
arrays. -/
theorem sha1Guts_eq (sc : SHA1Context) : sha1Guts sc =
    .ok { sc with hash := hashOf (compress (registers sc.hash) sc.buffer.toList) } := by
  have hload : loadLoop sc.buffer 16 0 [] = .ok (scheduled sc.buffer.toList 16) :=
    loadLoop_eq sc.buffer (k := 0) (by decide)
  have hexpand : expandLoop 64 13 8 2 0 (scheduled sc.buffer.toList 16) =
      .ok (scheduled sc.buffer.toList 80) := expandLoop_eq sc.buffer.toList (k := 0) (by decide)
  have hrounds : ∀ (F : UInt32 → UInt32 → UInt32 → UInt32) (K : UInt32) (W : ℕ),
      (∀ t, W ≤ t → t < W + 20 → F = SecureHash.logical t) →
      (∀ t, W ≤ t → t < W + 20 → K = SecureHash.constant t) → W + 20 ≤ 80 →
      doRounds (scheduled sc.buffer.toList 80) F K 20 W
          (SecureHash.rounds sc.buffer.toList (registers sc.hash) W) =
        .ok (SecureHash.rounds sc.buffer.toList (registers sc.hash) (W + 20)) :=
    fun F K W hF hK hend => doRounds_eq _ _ hF hK hend
  have h₀ := hrounds f0To19 k0To19 0
    (fun t _ ht => by rw [f0To19_eq, SecureHash.logical, if_pos (by omega)])
    (fun t _ ht => by rw [SecureHash.constant, if_pos (by omega)]; rfl) (by decide)
  have h₁ := hrounds f20To39 k20To39 20
    (fun t hlo ht => by rw [SecureHash.logical, if_neg (by omega), if_pos (by omega)]; rfl)
    (fun t hlo ht => by rw [SecureHash.constant, if_neg (by omega), if_pos (by omega)]; rfl)
    (by decide)
  have h₂ := hrounds f40To59 k40To59 40
    (fun t hlo ht => by
      rw [f40To59_eq, SecureHash.logical, if_neg (by omega), if_neg (by omega), if_pos (by omega)])
    (fun t hlo ht => by
      rw [SecureHash.constant, if_neg (by omega), if_neg (by omega), if_pos (by omega)]; rfl)
    (by decide)
  have h₃ := hrounds f60To79 k60To79 60
    (fun t hlo ht => by
      rw [SecureHash.logical, if_neg (by omega), if_neg (by omega), if_neg (by omega)]; rfl)
    (fun t hlo ht => by
      rw [SecureHash.constant, if_neg (by omega), if_neg (by omega), if_neg (by omega)]; rfl)
    (by decide)
  rw [sha1Guts, hload, ok_bind, hexpand, ok_bind]
  dsimp only
  have hstart : (⟨sc.hash[0], sc.hash[1], sc.hash[2], sc.hash[3], sc.hash[4]⟩ : Registers) =
      SecureHash.rounds sc.buffer.toList (registers sc.hash) 0 := rfl
  rw [hstart, h₀, ok_bind, h₁, ok_bind, h₂, ok_bind, h₃, ok_bind]
  rfl

/-! ### Messages in parts -/

/-- **The context after the message `msg`**: the hash has the whole blocks, the buffer begins with
what is left. -/
structure SHA1Context.Absorbs (sc : SHA1Context) (msg : List UInt8) : Prop where
  total : sc.totalLength.toNat = 8 * msg.length % 2 ^ 64
  hash : registers sc.hash = IteratedHash.absorb 64 compress initial msg
  waiting : sc.bufferLength.toNat = (IteratedHash.rest 64 msg).length
  buffer : sc.buffer.toList.take (IteratedHash.rest 64 msg).length = IteratedHash.rest 64 msg

theorem absorbs_sha1Init (sc : SHA1Context) : (sha1Init sc).Absorbs [] where
  total := rfl
  hash := rfl
  waiting := rfl
  buffer := rfl

/-- Bytes that are put behind those that a buffer begins with. -/
theorem take_toList_blit {α : Type*} {n : ℕ} {v : Vector α n} {l m : List α}
    (h : v.toList.take l.length = l) (hfit : l.length + m.length ≤ n) :
    (Block.blit v l.length m).toList.take (l.length + m.length) = l ++ m := by
  rw [Block.toList_blit v hfit, h, ← List.append_assoc, ← List.length_append, List.take_left]

/-- **A pass** takes its bytes to the message. -/
theorem SHA1Context.Absorbs.pass {sc : SHA1Context} {msg : List UInt8} (h : sc.Absorbs msg)
    {data : List UInt8} {k : UInt32} (hfit : sc.bufferLength.toNat + k.toNat ≤ 64)
    (hdata : k.toNat ≤ data.length) :
    ∃ sc', updatePass sc data k = .ok sc' ∧ sc'.Absorbs (msg ++ data.take k.toNat) := by
  have hk : (data.take k.toNat).length = k.toNat := by rw [List.length_take]; omega
  rw [updatePass, fillBuffer, if_pos ⟨hfit, hdata⟩, ok_bind]
  generalize data.take k.toNat = part at hk
  rw [h.waiting, ← hk] at hfit
  have hbuffer := take_toList_blit h.buffer hfit
  rw [← List.length_append] at hbuffer
  have hlen : (sc.bufferLength + k).toNat = (IteratedHash.rest 64 msg ++ part).length := by
    rw [UInt32.toNat_add, h.waiting, ← hk, List.length_append]
    omega
  have htotal : (sc.totalLength + k.toUInt64 * 8).toNat = 8 * (msg ++ part).length % 2 ^ 64 := by
    have hk64 : k.toUInt64.toNat = part.length := by rw [UInt32.toNat_toUInt64, hk]
    rw [UInt64.toNat_add, UInt64.toNat_mul, h.total, hk64, List.length_append]
    show (8 * msg.length % 2 ^ 64 + part.length * 8 % 2 ^ 64) % 2 ^ 64 = _
    omega
  have hdec : (sc.bufferLength + k = 64) ↔ (IteratedHash.rest 64 msg ++ part).length = 64 := by
    rw [← hlen, ← UInt32.toNat_inj]
    rfl
  rw [h.waiting]
  dsimp only
  by_cases hfull : (IteratedHash.rest 64 msg ++ part).length = 64
  · have hall : (Block.blit sc.buffer (IteratedHash.rest 64 msg).length part).toList =
        IteratedHash.rest 64 msg ++ part := by
      rw [hfull, List.take_of_length_le (by simp)] at hbuffer
      exact hbuffer
    have hrest : IteratedHash.rest 64 (msg ++ part) = [] := by
      rw [IteratedHash.rest_append (by decide), IteratedHash.rest_block (by decide) hfull]
    rw [if_pos (hdec.2 hfull), sha1Guts_eq, ok_bind]
    refine ⟨_, rfl, htotal, ?_, ?_, ?_⟩
    · rw [IteratedHash.absorb_append (by decide), IteratedHash.absorb_block (by decide) _ hfull,
        ← h.hash, ← hall]
      rfl
    · rw [hrest]
      rfl
    · rw [hrest]
      rfl
  · have hlt : (IteratedHash.rest 64 msg ++ part).length < 64 := by
      rw [List.length_append] at hfull ⊢
      omega
    have hrest : IteratedHash.rest 64 (msg ++ part) = IteratedHash.rest 64 msg ++ part := by
      rw [IteratedHash.rest_append (by decide), IteratedHash.rest_of_lt hlt]
    rw [if_neg (fun heq => hfull (hdec.1 heq))]
    refine ⟨_, rfl, htotal, ?_, ?_, ?_⟩
    · rw [IteratedHash.absorb_append (by decide), IteratedHash.absorb_of_lt _ hlt, ← h.hash]
    · rw [hrest, ← hlen]
    · rw [hrest]
      exact hbuffer

theorem SHA1Context.Absorbs.bufferLength_lt {sc : SHA1Context} {msg : List UInt8}
    (h : sc.Absorbs msg) : sc.bufferLength.toNat < 64 := by
  rw [h.waiting, IteratedHash.length_rest]
  exact Nat.mod_lt _ (by decide)

/-- **`SHA1Update`**: no pass leaves the buffer or the data, and the loop ends when all bytes were
taken. -/
theorem SHA1Context.Absorbs.updateLoop {sc : SHA1Context} {msg : List UInt8} (h : sc.Absorbs msg)
    {fuel : ℕ} (data : List UInt8) (len : UInt32) (hdata : len.toNat ≤ data.length)
    (hfuel : len.toNat ≤ fuel) :
    ∃ sc', updateLoop fuel sc data len = .ok sc' ∧ sc'.Absorbs (msg ++ data.take len.toNat) := by
  induction fuel generalizing sc msg data len with
  | zero =>
      have hzero : len.toNat = 0 := by omega
      rw [hzero, List.take_zero, List.append_nil]
      exact ⟨sc, rfl, h⟩
  | succ fuel ih =>
      rw [P2P.updateLoop]
      by_cases hlen : len = 0
      · rw [if_pos hlen, hlen]
        refine ⟨sc, rfl, ?_⟩
        rw [show (0 : UInt32).toNat = 0 from rfl, List.take_zero, List.append_nil]
        exact h
      · have hlt := h.bufferLength_lt
        have hpos : 0 < len.toNat := by
          rcases Nat.eq_zero_or_pos len.toNat with h0 | h0
          · exact absurd (UInt32.toNat_inj.1 h0) hlen
          · exact h0
        have hleft : (64 - sc.bufferLength).toNat = 64 - sc.bufferLength.toNat :=
          UInt32.toNat_sub_of_le _ _ (UInt32.le_iff_toNat_le.2 hlt.le)
        rw [if_neg hlen]
        dsimp only
        -- the number of bytes that are copied
        obtain ⟨k, hk, hkpos, hklen, hkfit⟩ : ∃ k : UInt32,
            (if 64 - sc.bufferLength > len then len else 64 - sc.bufferLength) = k ∧
              0 < k.toNat ∧ k.toNat ≤ len.toNat ∧ sc.bufferLength.toNat + k.toNat ≤ 64 := by
          refine ⟨_, rfl, ?_⟩
          split
          · rename_i hgt
            rw [gt_iff_lt, UInt32.lt_iff_toNat_lt, hleft] at hgt
            exact ⟨hpos, Nat.le_refl _, by omega⟩
          · rename_i hle
            rw [gt_iff_lt, UInt32.lt_iff_toNat_lt, hleft] at hle
            rw [hleft]
            exact ⟨by omega, by omega, by omega⟩
        rw [hk]
        obtain ⟨sc₁, hpass, h₁⟩ := h.pass hkfit (hklen.trans hdata)
        have hsub : (len - k).toNat = len.toNat - k.toNat :=
          UInt32.toNat_sub_of_le _ _ (UInt32.le_iff_toNat_le.2 hklen)
        obtain ⟨sc₂, hloop, h₂⟩ := ih h₁ (data.drop k.toNat) (len - k)
          (by rw [hsub, List.length_drop]; omega) (by omega)
        refine ⟨sc₂, by rw [hpass, ok_bind, hloop], ?_⟩
        have hsplit : data.take len.toNat =
            data.take k.toNat ++ (data.drop k.toNat).take (len - k).toNat := by
          rw [hsub, ← List.take_add, Nat.add_sub_cancel' hklen]
        rw [hsplit, ← List.append_assoc]
        exact h₂

/-- **`SHA1Update` takes its data to the message.** -/
theorem SHA1Context.Absorbs.update {sc : SHA1Context} {msg : List UInt8} (h : sc.Absorbs msg)
    (data : List UInt8) (len : UInt32) (hdata : len.toNat ≤ data.length) :
    ∃ sc', sha1Update sc data len = .ok sc' ∧ sc'.Absorbs (msg ++ data.take len.toNat) :=
  h.updateLoop data len hdata (Nat.le_succ _)

/-! ### The hash -/

/-- The hash of the standard, as the program keeps hashes. -/
def sha1Hash (msg : List UInt8) : BinHash :=
  ⟨(SecureHash.sha1 msg).toArray, by rw [List.size_toArray, SecureHash.length_sha1]; rfl⟩

theorem toList_hashBytes (hash : Vector UInt32 5) :
    (hashBytes hash).toList = (registers hash).bytes := by
  have hlist : hash.toList = [hash[0], hash[1], hash[2], hash[3], hash[4]] := by
    refine List.ext_getElem (by simp) fun i h₁ h₂ => ?_
    rw [Vector.getElem_toList]
    simp only [List.length_cons, List.length_nil] at h₂
    interval_cases i <;> rfl
  have hlist' : (hashBytes hash).toList = hash.toList.flatMap wordBytes := rfl
  rw [hlist', hlist]
  simp only [List.flatMap_cons, List.flatMap_nil, wordBytes_eq, registers, Registers.bytes,
    List.append_nil, List.append_assoc]

/-- **`SHA1Final`** pads the message and gives its hash. -/
theorem SHA1Context.Absorbs.final {sc : SHA1Context} {msg : List UInt8} (h : sc.Absorbs msg) :
    ∃ sc', sha1Final sc = .ok (sc', sha1Hash msg) := by
  have hlt := h.bufferLength_lt
  have hlen : sc.bufferLength.toNat = msg.length % 64 := by rw [h.waiting, IteratedHash.length_rest]
  obtain ⟨k, hk, hkz⟩ : ∃ k : UInt32, (if 120 - sc.bufferLength > 64 then
      120 - sc.bufferLength - 64 else 120 - sc.bufferLength) = k ∧
      k.toNat = SecureHash.zeros msg.length + 1 := by
    have hsub : (120 - sc.bufferLength).toNat = 120 - sc.bufferLength.toNat :=
      UInt32.toNat_sub_of_le _ _ (UInt32.le_iff_toNat_le.2 (by show _ ≤ 120; omega))
    refine ⟨_, rfl, ?_⟩
    unfold SecureHash.zeros
    split
    · rename_i hgt
      rw [gt_iff_lt, UInt32.lt_iff_toNat_lt, hsub] at hgt
      have hgt' : 64 < 120 - sc.bufferLength.toNat := hgt
      rw [UInt32.toNat_sub_of_le _ _ (UInt32.le_iff_toNat_le.2 (by rw [hsub]; exact hgt'.le)), hsub]
      show 120 - sc.bufferLength.toNat - 64 = _
      omega
    · rename_i hle
      rw [gt_iff_lt, UInt32.lt_iff_toNat_lt, hsub] at hle
      have hle' : ¬ 64 < 120 - sc.bufferLength.toNat := hle
      rw [hsub]
      omega
  have hzeros : SecureHash.zeros msg.length ≤ 63 := by unfold SecureHash.zeros; omega
  obtain ⟨sc₁, hup₁, h₁⟩ := h.update paddingBytes k
    (by rw [hkz]; show _ ≤ 64; omega)
  obtain ⟨sc₂, hup₂, h₂⟩ := h₁.update (bytes64 (byteswap64 sc.totalLength)) 8
    (Nat.le_refl 8)
  refine ⟨sc₂, ?_⟩
  rw [sha1Final, hk, hup₁, ok_bind, hup₂, ok_bind]
  have hpad : msg ++ paddingBytes.take k.toNat ++
      (bytes64 (byteswap64 sc.totalLength)).take (8 : UInt32).toNat = SecureHash.pad msg := by
    have hlength : bytes64 (byteswap64 sc.totalLength) = NetOrder.encode 8 (8 * msg.length) := by
      rw [bytes64_byteswap64, h.total]
      exact NetOrder.encode_mod 8 _
    have hall : (NetOrder.encode 8 (8 * msg.length)).take (8 : UInt32).toNat =
        NetOrder.encode 8 (8 * msg.length) :=
      List.take_of_length_le (NetOrder.length_encode 8 _).le
    rw [hlength, hall, hkz, paddingBytes, List.take_succ_cons, List.take_replicate,
      Nat.min_eq_left hzeros, SecureHash.pad, SecureHash.padding, List.append_assoc]
  rw [hpad] at h₂
  have hhash : hashBytes sc₂.hash = sha1Hash msg := by
    apply Vector.toList_inj.1
    rw [toList_hashBytes, h₂.hash]
    rfl
  rw [hhash]

/-- The message in parts, each given to `SHA1Update` with its length. -/
def sha1Updates (sc : SHA1Context) : List (List UInt8) → Except Fault SHA1Context
  | [] => .ok sc
  | part :: parts => do
      let sc ← sha1Update sc part (UInt32.ofNat part.length)
      sha1Updates sc parts

theorem SHA1Context.Absorbs.updates {sc : SHA1Context} {msg : List UInt8} (h : sc.Absorbs msg)
    {parts : List (List UInt8)} (hparts : ∀ part ∈ parts, part.length < 2 ^ 32) :
    ∃ sc', sha1Updates sc parts = .ok sc' ∧ sc'.Absorbs (msg ++ parts.flatten) := by
  induction parts generalizing sc msg with
  | nil => exact ⟨sc, rfl, by rwa [List.flatten_nil, List.append_nil]⟩
  | cons part parts ih =>
      have hlen : (UInt32.ofNat part.length).toNat = part.length :=
        UInt32.toNat_ofNat_of_lt' (hparts part List.mem_cons_self)
      obtain ⟨sc₁, hup, h₁⟩ := h.update part (UInt32.ofNat part.length) hlen.le
      rw [hlen, List.take_length] at h₁
      obtain ⟨sc₂, hups, h₂⟩ := ih h₁ fun p hp => hparts p (List.mem_cons_of_mem _ hp)
      refine ⟨sc₂, by rw [sha1Updates, hup, ok_bind, hups], ?_⟩
      rwa [List.append_assoc, ← List.flatten_cons] at h₂

/-- **Whatever the parts a message comes in**, and whatever the context held before, the program
computes the hash of the standard, and it stays in its arrays. -/
theorem sha1_of_parts (sc : SHA1Context) (parts : List (List UInt8))
    (hparts : ∀ part ∈ parts, part.length < 2 ^ 32) :
    ∃ sc', (sha1Updates (sha1Init sc) parts >>= sha1Final) = .ok (sc', sha1Hash parts.flatten) := by
  obtain ⟨sc₁, hups, h₁⟩ := (absorbs_sha1Init sc).updates hparts
  obtain ⟨sc₂, hfinal⟩ := h₁.final
  exact ⟨sc₂, by rw [hups, ok_bind, hfinal, List.nil_append]⟩

theorem sha1_of_parts_two : ∃ sc',
    (sha1Updates (sha1Init ⟨7, #v[0, 0, 0, 0, 0], 65, Vector.replicate 64 1⟩)
      [[97, 98], [99]] >>= sha1Final) = .ok (sc', sha1Hash [[97, 98], [99]].flatten) :=
  sha1_of_parts _ _ (by decide)

/-- **`shahash` is the hash of the standard.** -/
theorem shahash_eq (sha : SHA1Context) {str : List UInt8} {len : ℕ} (hlen : len ≤ str.length)
    (h : len < 2 ^ 31) : shahash sha str len = .ok (sha1Hash (str.take len)) := by
  have hint : (UInt32.ofInt len).toNat = len := by
    have hmod : ((len : ℤ) % 2 ^ 32).toNat = len := by omega
    rw [UInt32.ofInt, hmod]
    exact UInt32.toNat_ofNat_of_lt' (by show len < 2 ^ 32; omega)
  obtain ⟨sc₁, hup, h₁⟩ := (absorbs_sha1Init sha).update str (UInt32.ofInt len)
    (by rw [hint]; exact hlen)
  obtain ⟨sc₂, hfinal⟩ := h₁.final
  rw [shahash, hup, ok_bind, hfinal, hint, List.nil_append]
  rfl

/-- The first of the messages with a known hash. -/
example : shahash ⟨0, #v[0, 0, 0, 0, 0], 0, Vector.replicate 64 0⟩ [97, 98, 99] 3 =
    .ok #v[0xa9, 0x99, 0x3e, 0x36, 0x47, 0x06, 0x81, 0x6a, 0xba, 0x3e, 0x25, 0x71, 0x78, 0x50,
      0xc2, 0x6c, 0x9c, 0xd0, 0xd8, 0x9d] := by
  decide +kernel

end P2P
