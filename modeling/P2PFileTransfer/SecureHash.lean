/-
**The hash function SHA-1**, as the standard defines it.

A message is padded with a one bit, zeros, and its length in bits, so that it fills blocks of 64
bytes.  A block is 16 words, most significant byte first; the schedule makes 80 of them, and a round
for each of the 80 mixes five registers.  What the registers are after a block is added to what they
were before.

Nothing here is about a program: how the words are kept in memory, and in how many parts a message
comes, is a matter of the implementation.

Main definitions:

* `SecureHash.schedule`, `SecureHash.round`, `SecureHash.compress` — from a block to the registers;
* `SecureHash.pad`, `SecureHash.sha1` — from a message to its hash.

Main results:

* `SecureHash.zeros_least` — the padding is the shortest one that fills a block;
* `SecureHash.strengthens_pad` — the padding tells the length;
* `SecureHash.collides_of_sha1_eq` — **two messages with one hash make the compression collide**.
-/

import P2PFileTransfer.IteratedHash
import P2PFileTransfer.NetOrder

set_option relaxedAutoImplicit false
set_option autoImplicit false

namespace SecureHash

open IteratedHash (absorb Collides Strengthens)

/-! ### Rounds -/

/-- The five registers. -/
@[ext] structure Registers where
  a : UInt32
  b : UInt32
  c : UInt32
  d : UInt32
  e : UInt32

/-- A word turned left by `n` bits. -/
def rotateLeft (x : UInt32) (n : ℕ) : UInt32 := ⟨x.toBitVec.rotateLeft n⟩

def ch (x y z : UInt32) : UInt32 := (x &&& y) ^^^ (~~~x &&& z)

def parity (x y z : UInt32) : UInt32 := x ^^^ y ^^^ z

def maj (x y z : UInt32) : UInt32 := (x &&& y) ^^^ (x &&& z) ^^^ (y &&& z)

/-- The function of round `t`. -/
def logical (t : ℕ) : UInt32 → UInt32 → UInt32 → UInt32 :=
  if t < 20 then ch else if t < 40 then parity else if t < 60 then maj else parity

/-- The constant of round `t`. -/
def constant (t : ℕ) : UInt32 :=
  if t < 20 then 0x5a827999 else if t < 40 then 0x6ed9eba1
  else if t < 60 then 0x8f1bbcdc else 0xca62c1d6

/-- The word at position `t` of a block. -/
def word (block : List UInt8) (t : ℕ) : UInt32 :=
  UInt32.ofNat (NetOrder.decode ((block.drop (4 * t)).take 4))

/-- The word of round `t`. -/
def schedule (block : List UInt8) (t : ℕ) : UInt32 :=
  if t < 16 then word block t
  else
    rotateLeft (schedule block (t - 3) ^^^ schedule block (t - 8) ^^^ schedule block (t - 14) ^^^
      schedule block (t - 16)) 1

/-- Round `t`, with the word `w`. -/
def round (t : ℕ) (w : UInt32) (r : Registers) : Registers where
  a := rotateLeft r.a 5 + logical t r.b r.c r.d + r.e + constant t + w
  b := r.a
  c := rotateLeft r.b 30
  d := r.c
  e := r.d

/-- The first `t` rounds. -/
def rounds (block : List UInt8) (r : Registers) : ℕ → Registers
  | 0 => r
  | t + 1 => round t (schedule block t) (rounds block r t)

/-- The registers after a block. -/
def compress (h : Registers) (block : List UInt8) : Registers :=
  let r := rounds block h 80
  ⟨h.a + r.a, h.b + r.b, h.c + r.c, h.d + r.d, h.e + r.e⟩

/-- The registers at the start. -/
def initial : Registers := ⟨0x67452301, 0xefcdab89, 0x98badcfe, 0x10325476, 0xc3d2e1f0⟩

/-! ### Messages -/

/-- The bytes of a block. -/
def blockSize : ℕ := 64

/-- How many zero bytes the padding of a message of `len` bytes has. -/
def zeros (len : ℕ) : ℕ := (119 - len % 64) % 64

/-- What is put behind a message of `len` bytes. -/
def padding (len : ℕ) : List UInt8 :=
  0x80 :: List.replicate (zeros len) 0 ++ NetOrder.encode 8 (8 * len)

/-- The message with its padding. -/
def pad (msg : List UInt8) : List UInt8 := msg ++ padding msg.length

/-- The bytes of the registers. -/
def Registers.bytes (r : Registers) : List UInt8 :=
  NetOrder.encode 4 r.a.toNat ++ NetOrder.encode 4 r.b.toNat ++ NetOrder.encode 4 r.c.toNat ++
    NetOrder.encode 4 r.d.toNat ++ NetOrder.encode 4 r.e.toNat

/-- The hash of a message. -/
def sha1 (msg : List UInt8) : List UInt8 := (absorb blockSize compress initial (pad msg)).bytes

theorem length_sha1 (msg : List UInt8) : (sha1 msg).length = 20 := by
  simp [sha1, Registers.bytes]

/-! ### The padding -/

theorem zeros_fill (len : ℕ) : (len + 1 + zeros len) % 64 = 56 := by
  unfold zeros
  omega

/-- **The padding is the shortest one** that leaves eight bytes of the last block for the length. -/
theorem zeros_least {len z : ℕ} (h : (len + 1 + z) % 64 = 56) : zeros len ≤ z := by
  unfold zeros
  omega

theorem length_padding (len : ℕ) : (padding len).length = zeros len + 9 := by
  simp only [padding, List.length_append, List.length_cons, List.length_replicate,
    NetOrder.length_encode]

theorem length_pad (msg : List UInt8) : (pad msg).length = msg.length + zeros msg.length + 9 := by
  rw [pad, List.length_append, length_padding]
  omega

theorem dvd_length_pad (msg : List UInt8) : blockSize ∣ (pad msg).length := by
  have hfill := zeros_fill msg.length
  rw [length_pad, blockSize]
  omega

/-- The last eight bytes are the length. -/
theorem drop_pad (msg : List UInt8) :
    (pad msg).drop ((pad msg).length - 8) = NetOrder.encode 8 (8 * msg.length) := by
  have hsplit : pad msg = (msg ++ 0x80 :: List.replicate (zeros msg.length) 0) ++
      NetOrder.encode 8 (8 * msg.length) := by
    rw [pad, padding, List.append_assoc]
  have hlen : (pad msg).length - 8 =
      (msg ++ 0x80 :: List.replicate (zeros msg.length) 0).length := by
    rw [length_pad, List.length_append, List.length_cons, List.length_replicate]
    omega
  rw [hlen, hsplit, List.drop_left]

theorem encode_injective {w a b : ℕ} (ha : a < 256 ^ w) (hb : b < 256 ^ w)
    (h : NetOrder.encode w a = NetOrder.encode w b) : a = b := by
  rw [← NetOrder.decode_encode_of_lt ha, h, NetOrder.decode_encode_of_lt hb]

/-- The last eight bytes of the last block are those of the padded message. -/
theorem drop_lastBlock (msg : List UInt8) :
    (IteratedHash.block blockSize (pad msg) ((pad msg).length / blockSize - 1)).drop 56 =
      (pad msg).drop ((pad msg).length - 8) := by
  obtain ⟨k, hk⟩ := dvd_length_pad msg
  have hlen := length_pad msg
  rw [blockSize] at hk ⊢
  have hdiv : (pad msg).length / 64 = k := by rw [hk, Nat.mul_div_cancel_left k (by decide)]
  rw [IteratedHash.block, hdiv, List.take_of_length_le (by rw [List.length_drop]; omega),
    List.drop_drop]
  congr 1
  omega

/-- **The padding tells the length**, of messages whose length in bits is a 64-bit number. -/
theorem strengthens_pad : Strengthens blockSize (fun l => l.length < 2 ^ 61) pad where
  whole := fun l _ => dvd_length_pad l
  pos := by
    intro l _
    rw [length_pad]
    omega
  injective := by
    intro l m hl hm h
    have hdrop := drop_pad l
    rw [h, drop_pad m] at hdrop
    have hlen := encode_injective (by norm_num; omega) (by norm_num; omega) hdrop
    have hprefix := congrArg (List.take l.length) h
    rwa [pad, pad, List.take_left, show l.length = m.length by omega, List.take_left] at hprefix
  last := by
    intro l m hl hm h
    have hdrop := congrArg (List.drop 56) h
    rw [drop_lastBlock, drop_lastBlock, drop_pad, drop_pad] at hdrop
    have hlen := encode_injective (by norm_num; omega) (by norm_num; omega) hdrop
    rw [length_pad, length_pad, show l.length = m.length by omega]

/-! ### Collisions -/

theorem toNat_inj_of_encode {x y : UInt32}
    (h : NetOrder.encode 4 x.toNat = NetOrder.encode 4 y.toNat) : x = y := by
  have hx := x.toNat_lt
  have hy := y.toNat_lt
  exact UInt32.toNat.inj (encode_injective (by norm_num; omega) (by norm_num; omega) h)

theorem bytes_injective {r s : Registers} (h : r.bytes = s.bytes) : r = s := by
  unfold Registers.bytes at h
  obtain ⟨h, he⟩ := List.append_inj' h (by simp)
  obtain ⟨h, hd⟩ := List.append_inj' h (by simp)
  obtain ⟨h, hc⟩ := List.append_inj' h (by simp)
  obtain ⟨ha, hb⟩ := List.append_inj' h (by simp)
  exact Registers.ext (toNat_inj_of_encode ha) (toNat_inj_of_encode hb) (toNat_inj_of_encode hc)
    (toNat_inj_of_encode hd) (toNat_inj_of_encode he)

/-- **Two messages with one hash make the compression collide**, at named blocks of the two. -/
theorem collides_of_sha1_eq {l m : List UInt8} (hl : l.length < 2 ^ 61) (hm : m.length < 2 ^ 61)
    (hne : l ≠ m) (h : sha1 l = sha1 m) :
    ∃ i j, Collides blockSize compress initial (pad l) i initial (pad m) j :=
  strengthens_pad.collides hl hm hne (bytes_injective h)

end SecureHash
