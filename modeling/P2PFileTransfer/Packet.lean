/-
**Packets on the wire** (`packet.h`, `packet.c`).

A packet is a 16-byte header in network byte order and a payload: a count, three bytes of padding
and a list of hashes for `WHOHAS`, `IHAVE`, `GET` and `DENIED`, raw bytes for `DATA`, nothing for
`ACK`.  Both directions are modelled with their memory accesses: what `serialize_packet` writes is
a list of writes into the buffer it allocated, and `deserialize_packet` returns, next to its
result, the runs of bytes it read and how much it stored in the packet.

The two array fields of a packet are the memory from their first element on.  Nothing in the code
stops an index at the declared bounds `maxHashInPacket` and `dataSize`; where an index can pass
them is a question for the theorems, not something the model rules out.

Main definitions:

* `P2P.PacketType`, `P2P.Packet`;
* `P2P.serializePacket` and `P2P.serializeWrites`;
* `P2P.deserializePacket` and its report `P2P.Parse`.
-/

import P2PFileTransfer.Block
import P2PFileTransfer.Chunk
import P2PFileTransfer.NetOrder

set_option relaxedAutoImplicit false
set_option autoImplicit false

namespace P2P

/-- `MAGIC_NUM`. -/
def magicNum : ℕ := 15441

/-- `VER_NUM`. -/
def verNum : ℕ := 1

/-- `MAX_PACKET_SIZE`. -/
def maxPacketSize : ℕ := 1500

/-- `STANDARD_HEADER_LEN`. -/
def standardHeaderLen : ℕ := 16

/-- `HEADER_PAD_LEN`. -/
def headerPadLen : ℕ := 4

/-- `MAX_HASH_IN_PACKET`. -/
def maxHashInPacket : ℕ := (maxPacketSize - standardHeaderLen - headerPadLen) / binHashSize

/-! ### The type of a packet -/

/-- `enum packet_type`.  The variable that holds it is filled from a byte of the datagram, so it
can also hold a code that names no type. -/
inductive PacketType where
  | whohas
  | ihave
  | get
  | data
  | ack
  | denied
  | invalid (code : UInt8)
  deriving DecidableEq

namespace PacketType

/-- The value of the enumeration a byte is converted to. -/
def ofByte (b : UInt8) : PacketType :=
  if b = 0 then whohas else if b = 1 then ihave else if b = 2 then get
  else if b = 3 then data else if b = 4 then ack else if b = 5 then denied else invalid b

/-- The byte a value of the enumeration is sent as. -/
def toByte : PacketType → UInt8
  | whohas => 0
  | ihave => 1
  | get => 2
  | data => 3
  | ack => 4
  | denied => 5
  | invalid b => b

/-- One of the six packet types. -/
def Known : PacketType → Prop
  | invalid _ => False
  | _ => True

/-- The types whose payload is a list of hashes. -/
def hashTyped : PacketType → Bool
  | whohas | ihave | get | denied => true
  | _ => false

theorem ofByte_toByte {t : PacketType} (h : t.Known) : ofByte t.toByte = t := by
  cases t with
  | invalid b => exact absurd h id
  | _ => rfl

end PacketType

/-! ### Packets -/

/-- The structure `Packet`. -/
structure Packet where
  type : PacketType
  headerLen : UInt16
  packetLen : UInt16
  seqNum : UInt32
  ackNum : UInt32
  hashNum : UInt8
  /-- The memory from `hash_list[0]` on, in hashes. -/
  hashList : ℕ → BinHash
  /-- The memory from `data[0]` on. -/
  data : ℕ → UInt8

/-- `packet_len - header_len` as the length of a `memcpy`: a negative difference becomes a huge
`size_t`. -/
def Packet.copyLen (p : Packet) : ℕ :=
  (2 ^ 64 + p.packetLen.toNat - p.headerLen.toNat) % 2 ^ 64

theorem Packet.copyLen_of_le {p : Packet} (h : p.headerLen ≤ p.packetLen) :
    p.copyLen = p.packetLen.toNat - p.headerLen.toNat := by
  have h₁ := UInt16.le_iff_toNat_le.1 h
  have h₂ := p.packetLen.toNat_lt
  unfold copyLen
  omega

/-! ### Serializing -/

/-- What `serialize_payload` writes, at `at_`. -/
def serializePayload (p : Packet) (at_ : ℕ) : List (ℕ × List UInt8) :=
  if p.type.hashTyped then
    [(at_, [p.hashNum]), (at_ + 1, [0]), (at_ + 2, [0]), (at_ + 3, [0])] ++
      (List.range p.hashNum.toNat).map fun i =>
        (at_ + headerPadLen + binHashSize * i, (p.hashList i).toList)
  else if p.type = .ack then []
  else [(at_, Block.window p.data 0 p.copyLen)]

/-- What `serialize_packet` writes, in order: offset and bytes. -/
def serializeWrites (p : Packet) : List (ℕ × List UInt8) :=
  [(0, NetOrder.encode 2 magicNum), (2, [UInt8.ofNat verNum]), (3, [p.type.toByte]),
    (4, NetOrder.encode 2 p.headerLen.toNat), (6, NetOrder.encode 2 p.packetLen.toNat),
    (8, NetOrder.encode 4 p.seqNum.toNat), (12, NetOrder.encode 4 p.ackNum.toNat)] ++
    serializePayload p standardHeaderLen

/-- `serialize_packet`: the writes, made into a zeroed buffer of `packet_len` bytes. -/
def serializePacket (p : Packet) : Vector UInt8 p.packetLen.toNat :=
  Block.blits (Vector.replicate p.packetLen.toNat 0) (serializeWrites p)

/-! ### Deserializing -/

/-- What one call of `deserialize_packet` does. -/
structure Parse where
  /-- The packet, or `NULL`. -/
  packet : Option Packet
  /-- The runs of the buffer that were read: offset and length. -/
  reads : List (ℕ × ℕ)
  /-- The entries of `hash_list` that were stored. -/
  hashesStored : ℕ
  /-- The bytes of `data` that were stored. -/
  bytesStored : ℕ

/-- A number of `w` bytes in network byte order. -/
def readNet (buf : ℕ → UInt8) (o w : ℕ) : ℕ := NetOrder.decode (Block.window buf o w)

/-- The hash at an offset. -/
def readHash (buf : ℕ → UInt8) (o : ℕ) : BinHash := Vector.ofFn fun k => buf (o + k)

/-- `deserialize_payload`, reading at `at_`. -/
def deserializePayload (p : Packet) (buf : ℕ → UInt8) (at_ : ℕ) (reads : List (ℕ × ℕ)) : Parse :=
  if p.type.hashTyped then
    let hashNum := buf at_
    { packet := some { p with
        hashNum := hashNum
        hashList := fun i =>
          if i < hashNum.toNat then readHash buf (at_ + headerPadLen + binHashSize * i)
          else p.hashList i }
      reads := reads ++ (at_, 1) ::
        (List.range hashNum.toNat).map fun i =>
          (at_ + headerPadLen + binHashSize * i, binHashSize)
      hashesStored := hashNum.toNat
      bytesStored := 0 }
  else if p.type = .ack then ⟨some p, reads, 0, 0⟩
  else
    { packet := some { p with
        hashNum := 0
        data := fun i => if i < p.copyLen then buf (at_ + i) else p.data i }
      reads := reads ++ [(at_, p.copyLen)]
      hashesStored := 0
      bytesStored := p.copyLen }

theorem deserializePayload_of_hashTyped {p : Packet} (h : p.type.hashTyped = true)
    (buf : ℕ → UInt8) (at_ : ℕ) (reads : List (ℕ × ℕ)) :
    (deserializePayload p buf at_ reads).packet = some { p with
      hashNum := buf at_
      hashList := fun i =>
        if i < (buf at_).toNat then readHash buf (at_ + headerPadLen + binHashSize * i)
        else p.hashList i } := by
  rw [deserializePayload, if_pos h]

theorem deserializePayload_of_ack {p : Packet} (h : p.type = .ack)
    (buf : ℕ → UInt8) (at_ : ℕ) (reads : List (ℕ × ℕ)) :
    deserializePayload p buf at_ reads = ⟨some p, reads, 0, 0⟩ := by
  rw [deserializePayload, h, if_neg (by decide), if_pos rfl]

theorem deserializePayload_of_data {p : Packet} (h : p.type.hashTyped = false)
    (h' : p.type ≠ .ack) (buf : ℕ → UInt8) (at_ : ℕ) (reads : List (ℕ × ℕ)) :
    deserializePayload p buf at_ reads =
      { packet := some { p with
          hashNum := 0
          data := fun i => if i < p.copyLen then buf (at_ + i) else p.data i }
        reads := reads ++ [(at_, p.copyLen)]
        hashesStored := 0
        bytesStored := p.copyLen } := by
  rw [deserializePayload, if_neg (by simp [h]), if_neg h']

/-- The header, read at `o`, the position after the magic number.  The structure comes from
`calloc`. -/
def readHeader (buf : ℕ → UInt8) (o : ℕ) : Packet where
  type := PacketType.ofByte (buf (o + 1))
  headerLen := UInt16.ofNat (readNet buf (o + 2) 2)
  packetLen := UInt16.ofNat (readNet buf (o + 4) 2)
  seqNum := UInt32.ofNat (readNet buf (o + 6) 4)
  ackNum := UInt32.ofNat (readNet buf (o + 10) 4)
  hashNum := 0
  hashList := fun _ => Vector.replicate binHashSize 0
  data := fun _ => 0

/-- `deserialize_packet` from the version number on.  The payload is found from `header_len`,
counted from the start of the datagram. -/
def deserializeFrom (buf : ℕ → UInt8) (o : ℕ) (reads : List (ℕ × ℕ)) : Parse :=
  if (buf o).toNat ≠ verNum then ⟨none, reads ++ [(o, 1)], 0, 0⟩
  else
    let p := readHeader buf o
    deserializePayload p buf p.headerLen.toNat
      (reads ++ [(o, 1), (o + 1, 1), (o + 2, 2), (o + 4, 2), (o + 6, 4), (o + 10, 4)])

/-- `deserialize_packet`: two bytes of an extension may come before the magic number.  The function
is given no length; `buf` is the memory from the start of the datagram on. -/
def deserializePacket (buf : ℕ → UInt8) : Parse :=
  if readNet buf 0 2 = magicNum then deserializeFrom buf 2 [(0, 2)]
  else if readNet buf 2 2 = magicNum then deserializeFrom buf 4 [(0, 2), (2, 2)]
  else ⟨none, [(0, 2), (2, 2)], 0, 0⟩

end P2P
