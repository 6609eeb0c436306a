/-
**When the decoder stays inside its buffers** (`deserialize_packet`, `process_inbound_udp`).

The decoder is not told how long the datagram is and takes the type, both length fields and the
number of hashes as they come.  It is safe exactly on the datagrams whose fields fit: this module
says what that means, field by field, and that nothing else is safe.

Main definitions:

* `P2P.Parse.Safe` — what a call of the decoder should guarantee for a datagram of `n` bytes;
* `P2P.WellFormed` — the datagrams whose fields fit.

Main results:

* `P2P.Parse.safe_deserializePayload_iff`, `P2P.Parse.safe_deserializeFrom_iff`;
* `P2P.deserializePacket_safe_iff` — **the decoder is safe exactly on those datagrams**, and on them
  the dispatcher does not reach its assertion.
-/

import P2PFileTransfer.Peer

set_option relaxedAutoImplicit false
set_option autoImplicit false

namespace P2P

/-- What a call of the decoder should guarantee for a datagram of `n` bytes. -/
structure Parse.Safe (n : ℕ) (r : Parse) : Prop where
  /-- Only bytes of the datagram are read. -/
  reads : ∀ run ∈ r.reads, ∀ k < run.2, run.1 + k < n
  known : ∀ p ∈ r.packet, p.type.Known
  hashes : r.hashesStored ≤ maxHashInPacket
  bytes : r.bytesStored ≤ dataSize
  lengths : ∀ p ∈ r.packet, p.headerLen ≤ p.packetLen

/-- The payload of a datagram of `n` bytes fits what the header `p` says. -/
def PayloadFits (buf : ℕ → UInt8) (n : ℕ) (p : Packet) : Prop :=
  match p.type with
  | .ack => True
  | .data => p.copyLen ≤ dataSize ∧ (p.copyLen = 0 ∨ p.packetLen.toNat ≤ n)
  | .invalid _ => False
  | _ =>
      p.headerLen.toNat < n ∧ (buf p.headerLen.toNat).toNat ≤ maxHashInPacket ∧
        ((buf p.headerLen.toNat).toNat = 0 ∨
          p.headerLen.toNat + headerPadLen + binHashSize * (buf p.headerLen.toNat).toNat ≤ n)

/-- A datagram of `n` bytes fits what it says from the version number, at `o`, on. -/
def HeaderFits (buf : ℕ → UInt8) (n o : ℕ) : Prop :=
  if (buf o).toNat ≠ verNum then o < n
  else
    o + 14 ≤ n ∧ (readHeader buf o).headerLen ≤ (readHeader buf o).packetLen ∧
      PayloadFits buf n (readHeader buf o)

/-- The datagrams of `n` bytes whose fields fit. -/
def WellFormed (buf : ℕ → UInt8) (n : ℕ) : Prop :=
  if readNet buf 0 2 = magicNum then HeaderFits buf n 2
  else if readNet buf 2 2 = magicNum then HeaderFits buf n 4
  else 4 ≤ n

/-! ### Runs of bytes -/

/-- All runs lie inside the first `n` bytes. -/
def Below (n : ℕ) (runs : List (ℕ × ℕ)) : Prop := ∀ run ∈ runs, ∀ k < run.2, run.1 + k < n

@[simp] theorem below_nil (n : ℕ) : Below n [] := fun _ h => absurd h List.not_mem_nil

@[simp] theorem below_cons {n o len : ℕ} {runs : List (ℕ × ℕ)} :
    Below n ((o, len) :: runs) ↔ (len = 0 ∨ o + len ≤ n) ∧ Below n runs := by
  unfold Below
  rw [List.forall_mem_cons]
  refine and_congr_left fun _ => ⟨fun h => ?_, fun h k hk => by simp only at hk ⊢; omega⟩
  rcases Nat.eq_zero_or_pos len with h₀ | hpos
  · exact Or.inl h₀
  · have hlast := h (len - 1) (by simp only; omega)
    simp only at hlast
    exact Or.inr (by omega)

@[simp] theorem below_append {n : ℕ} {xs ys : List (ℕ × ℕ)} :
    Below n (xs ++ ys) ↔ Below n xs ∧ Below n ys :=
  List.forall_mem_append

/-- Runs of one length, one after the other. -/
theorem below_map_range {n o len m : ℕ} (hlen : 0 < len) :
    Below n ((List.range m).map fun i => (o + len * i, len)) ↔ m = 0 ∨ o + len * m ≤ n := by
  induction m with
  | zero => simp
  | succ m ih =>
      rw [List.range_succ, List.map_append, below_append, ih, List.map_singleton, below_cons,
        Nat.mul_succ]
      simp only [below_nil, and_true]
      constructor
      · rintro ⟨-, h⟩
        exact Or.inr (by omega)
      · rintro (h | h)
        · omega
        · exact ⟨Or.inr (by omega), Or.inr (by omega)⟩

/-! ### The payload -/

section Payload

variable {buf : ℕ → UInt8} {n : ℕ} {p : Packet} {reads : List (ℕ × ℕ)}

/-- A list of hashes is decoded safely exactly when it fits. -/
theorem Parse.safe_hashTyped_iff (hreads : Below n reads) (h : p.type.hashTyped = true) :
    (deserializePayload p buf p.headerLen.toNat reads).Safe n ↔
      p.headerLen ≤ p.packetLen ∧ p.headerLen.toNat < n ∧
        (buf p.headerLen.toNat).toNat ≤ maxHashInPacket ∧
        ((buf p.headerLen.toNat).toNat = 0 ∨
          p.headerLen.toNat + headerPadLen + binHashSize * (buf p.headerLen.toNat).toNat ≤ n) := by
  have hknown : p.type.Known := by cases ht : p.type <;> rw [ht] at h <;> trivial
  have hruns : Below n (deserializePayload p buf p.headerLen.toNat reads).reads ↔
      p.headerLen.toNat < n ∧ ((buf p.headerLen.toNat).toNat = 0 ∨
        p.headerLen.toNat + headerPadLen + binHashSize * (buf p.headerLen.toNat).toNat ≤ n) := by
    rw [deserializePayload, if_pos h, below_append, below_cons, below_map_range (by decide)]
    simp only [hreads, true_and, one_ne_zero, false_or, Nat.succ_le_iff]
  have hpacket := deserializePayload_of_hashTyped h buf p.headerLen.toNat reads
  have hstored : (deserializePayload p buf p.headerLen.toNat reads).hashesStored =
      (buf p.headerLen.toNat).toNat := by rw [deserializePayload, if_pos h]
  have hbytes : (deserializePayload p buf p.headerLen.toNat reads).bytesStored = 0 := by
    rw [deserializePayload, if_pos h]
  constructor
  · intro hs
    obtain ⟨h₁, h₂⟩ := hruns.1 hs.reads
    have hlens := hs.lengths
    rw [hpacket] at hlens
    have hle := hlens _ rfl
    exact ⟨hle, h₁, hstored ▸ hs.hashes, h₂⟩
  · rintro ⟨hle, h₁, hmax, h₂⟩
    refine ⟨hruns.2 ⟨h₁, h₂⟩, ?_, by rw [hstored]; exact hmax, by rw [hbytes]; exact Nat.zero_le _,
      ?_⟩
    · rw [hpacket]
      rintro q ⟨⟩
      exact hknown
    · rw [hpacket]
      rintro q ⟨⟩
      exact hle

/-- A piece of a chunk is decoded safely exactly when it fits. -/
theorem Parse.safe_data_iff (hreads : Below n reads) (ht : p.type = .data) :
    (deserializePayload p buf p.headerLen.toNat reads).Safe n ↔
      p.headerLen ≤ p.packetLen ∧ p.copyLen ≤ dataSize ∧
        (p.copyLen = 0 ∨ p.packetLen.toNat ≤ n) := by
  -- the payload ends where `packet_len` says, unless the lengths are the wrong way round
  have hend : p.headerLen ≤ p.packetLen → p.headerLen.toNat + p.copyLen = p.packetLen.toNat := by
    intro hle
    have hle' := UInt16.le_iff_toNat_le.1 hle
    rw [Packet.copyLen_of_le hle]
    omega
  rw [deserializePayload_of_data (by rw [ht]; rfl) (by rw [ht]; decide)]
  constructor
  · intro hs
    have hle := hs.lengths _ rfl
    have hruns := (below_append.1 hs.reads).2
    rw [below_cons, hend hle] at hruns
    exact ⟨hle, hs.bytes, hruns.1⟩
  · rintro ⟨hle, hmax, hfit⟩
    rw [← hend hle] at hfit
    refine ⟨below_append.2 ⟨hreads, below_cons.2 ⟨hfit, below_nil n⟩⟩, ?_, Nat.zero_le _, hmax, ?_⟩
    · rintro q ⟨⟩
      rw [ht]
      trivial
    · rintro q ⟨⟩
      exact hle

/-- **The payload is decoded safely exactly when it fits.** -/
theorem Parse.safe_deserializePayload_iff (hreads : Below n reads) :
    (deserializePayload p buf p.headerLen.toNat reads).Safe n ↔
      p.headerLen ≤ p.packetLen ∧ PayloadFits buf n p := by
  cases ht : p.type with
  | whohas => rw [safe_hashTyped_iff hreads (by rw [ht]; rfl), PayloadFits, ht]
  | ihave => rw [safe_hashTyped_iff hreads (by rw [ht]; rfl), PayloadFits, ht]
  | get => rw [safe_hashTyped_iff hreads (by rw [ht]; rfl), PayloadFits, ht]
  | denied => rw [safe_hashTyped_iff hreads (by rw [ht]; rfl), PayloadFits, ht]
  | ack =>
      rw [deserializePayload_of_ack ht, PayloadFits, ht]
      constructor
      · exact fun hs => ⟨hs.lengths p rfl, trivial⟩
      · rintro ⟨hle, -⟩
        refine ⟨hreads, ?_, Nat.zero_le _, Nat.zero_le _, ?_⟩
        · rintro q ⟨⟩
          rw [ht]
          trivial
        · rintro q ⟨⟩
          exact hle
  | data => rw [safe_data_iff hreads ht, PayloadFits, ht]
  | invalid b =>
      -- the packet has a payload like a `DATA` packet, but no known type
      rw [deserializePayload_of_data (by rw [ht]; rfl) (by rw [ht]; exact PacketType.noConfusion),
        PayloadFits, ht]
      refine ⟨fun hs => ?_, fun h => absurd h.2 id⟩
      exact absurd (hs.known _ rfl) id

end Payload

/-! ### The header -/

/-- A call that returns `NULL` is safe when it read inside the datagram. -/
theorem Parse.safe_null_iff {n : ℕ} {reads : List (ℕ × ℕ)} :
    (⟨none, reads, 0, 0⟩ : Parse).Safe n ↔ Below n reads :=
  ⟨fun h => h.reads, fun h => ⟨h, fun _ hp => absurd hp (Option.not_mem_none _), Nat.zero_le _,
    Nat.zero_le _, fun _ hp => absurd hp (Option.not_mem_none _)⟩⟩

/-- Decoding reads everything it was said to have read before. -/
theorem reads_deserializePayload (p : Packet) (buf : ℕ → UInt8) (o : ℕ) (reads : List (ℕ × ℕ)) :
    reads <+: (deserializePayload p buf o reads).reads := by
  unfold deserializePayload
  split_ifs
  · exact List.prefix_append _ _
  · exact List.prefix_refl _
  · exact List.prefix_append _ _

/-- **From the version number on, decoding is safe exactly when the datagram fits.** -/
theorem Parse.safe_deserializeFrom_iff {buf : ℕ → UInt8} {n o : ℕ} {reads : List (ℕ × ℕ)}
    (hreads : o ≤ n → Below n reads) :
    (deserializeFrom buf o reads).Safe n ↔ HeaderFits buf n o := by
  unfold deserializeFrom HeaderFits
  by_cases hver : (buf o).toNat ≠ verNum
  · rw [if_pos hver, if_pos hver, safe_null_iff, below_append, below_cons]
    constructor
    · rintro ⟨-, h, -⟩
      omega
    · intro h
      exact ⟨hreads h.le, Or.inr h, below_nil n⟩
  · rw [if_neg hver, if_neg hver]
    dsimp only
    by_cases hlen : o + 14 ≤ n
    · have hall : Below n
          (reads ++ [(o, 1), (o + 1, 1), (o + 2, 2), (o + 4, 2), (o + 6, 4), (o + 10, 4)]) := by
        rw [below_append]
        simp only [below_cons, below_nil, and_true]
        exact ⟨hreads (by omega), by omega⟩
      rw [safe_deserializePayload_iff hall]
      exact ⟨fun h => ⟨hlen, h⟩, fun h => h.2⟩
    · -- the last byte of the header is read whatever the payload is
      refine ⟨fun hs => absurd ?_ hlen, fun h => absurd h.1 hlen⟩
      have hlast : (o + 10, 4) ∈ (deserializePayload (readHeader buf o) buf
          (readHeader buf o).headerLen.toNat
          (reads ++ [(o, 1), (o + 1, 1), (o + 2, 2), (o + 4, 2), (o + 6, 4), (o + 10, 4)])).reads :=
        (reads_deserializePayload _ _ _ _).subset (by simp)
      have h₃ := hs.reads _ hlast 3 (Nat.lt_succ_self 3)
      simp only at h₃
      omega

/-- The decoder is safe exactly on the datagrams whose fields fit. -/
theorem Parse.safe_iff (buf : ℕ → UInt8) (n : ℕ) :
    (deserializePacket buf).Safe n ↔ WellFormed buf n := by
  unfold deserializePacket WellFormed
  split_ifs
  · refine safe_deserializeFrom_iff fun h => ?_
    simp only [below_cons, below_nil, and_true]
    omega
  · refine safe_deserializeFrom_iff fun h => ?_
    simp only [below_cons, below_nil, and_true]
    omega
  · rw [safe_null_iff]
    simp only [below_cons, below_nil, and_true]
    omega

/-! ### The dispatcher -/

theorem ok_ne_assertion {s : State} : (Except.ok s : Except Fault State) ≠ .error .assertion :=
  nofun

/-- Storing a piece never reaches the assertion. -/
theorem receiveDATA_ne_assertion (shahash : List UInt8 → BinHash) (s : State) (pack : Packet)
    (peer : ℕ) : receiveDATA shahash s pack peer ≠ .error .assertion := by
  unfold receiveDATA
  cases s.findIncoming peer with
  | none => exact ok_ne_assertion
  | some node =>
      cases hstore : storeData pack (s.chunks.cell node.2.c) with
      | error x =>
          simp only [hstore]
          intro h
          have hx : x = .assertion := Except.error.inj h
          rw [hx] at hstore
          unfold storeData dataAlreadyStored dataStore at hstore
          split_ifs at hstore <;> grind
      | ok c =>
          simp only [hstore]
          split_ifs <;> exact ok_ne_assertion

/-- **The dispatcher reaches its assertion exactly on a packet of no known type.** -/
theorem receivePacket_eq_assertion_iff (shahash : List UInt8 → BinHash) (s : State)
    (src : SockaddrIn) (peer : ℕ) (pack : Packet) :
    receivePacket shahash s src peer pack = .error .assertion ↔ ¬ pack.type.Known := by
  unfold receivePacket
  cases pack.type with
  | whohas =>
      refine ⟨fun h => ?_, fun h => absurd trivial h⟩
      dsimp only at h
      rw [receiveWHOHAS_eq] at h
      split at h <;> cases h
  | get => exact ⟨fun h => absurd h ok_ne_assertion, fun h => absurd trivial h⟩
  | ack => exact ⟨fun h => absurd h ok_ne_assertion, fun h => absurd trivial h⟩
  | ihave => exact ⟨fun h => absurd h ok_ne_assertion, fun h => absurd trivial h⟩
  | denied => exact ⟨fun h => absurd h ok_ne_assertion, fun h => absurd trivial h⟩
  | data =>
      exact ⟨fun h => absurd h (receiveDATA_ne_assertion shahash s pack peer),
        fun h => absurd trivial h⟩
  | invalid b => exact ⟨fun _ => id, fun _ => rfl⟩

/-- **The decoder is safe exactly on the datagrams whose fields fit**, and these never make the
dispatcher reach its assertion, in whatever state the peer is and whoever sent them. -/
theorem deserializePacket_safe_iff (buf : ℕ → UInt8) (n : ℕ) :
    ((deserializePacket buf).Safe n ∧
      ∀ shahash s src, processInboundUdp shahash s src buf ≠ .error .assertion) ↔
    WellFormed buf n := by
  rw [← Parse.safe_iff]
  refine ⟨fun h => h.1, fun hs => ⟨hs, ?_⟩⟩
  intro shahash s src
  unfold processInboundUdp
  cases findPeer s src with
  | none => exact ok_ne_assertion
  | some peer =>
      cases hp : (deserializePacket buf).packet with
      | none => exact ok_ne_assertion
      | some pack =>
          intro h
          exact (receivePacket_eq_assertion_iff shahash s src peer pack).1 h (hs.known pack hp)

/-- A datagram of 16 bytes with type `6`: a magic number, a version, and both lengths `16`. -/
def strayDatagram (i : ℕ) : UInt8 := [0x3c, 0x51, 1, 6, 0, 16, 0, 16].getD i 0

/-- The datagram of 16 bytes is decoded to a packet of no type, and the assertion is reached when it
comes from a known peer. -/
theorem deserializePacket_stray :
    (¬ (deserializePacket strayDatagram).Safe 16) ∧
    processInboundUdp (fun _ => Vector.replicate binHashSize 0)
      (peerSetup ⟨[(1, ⟨0, 1111⟩)], 1, 1, [], none⟩ (fun _ => 0) fun _ => zeroPacket) ⟨0, 1111⟩
      strayDatagram = .error .assertion := by
  have hpacket : ∃ p, (deserializePacket strayDatagram).packet = some p ∧ ¬ p.type.Known :=
    ⟨_, rfl, id⟩
  obtain ⟨p, hp, hunknown⟩ := hpacket
  refine ⟨fun hs => hunknown (hs.known p hp), ?_⟩
  have hpeer : findPeer
      (peerSetup ⟨[(1, ⟨0, 1111⟩)], 1, 1, [], none⟩ (fun _ => 0) fun _ => zeroPacket)
      ⟨0, 1111⟩ = some 0 := by decide
  unfold processInboundUdp
  rw [hpeer, hp]
  exact (receivePacket_eq_assertion_iff _ _ _ _ _).2 hunknown

end P2P
