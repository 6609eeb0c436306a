/-
**Sending a chunk** (the part of `bt_server.c` that works on one transfer).

The server cuts a chunk into pieces and sends as many as its window allows.  A new acknowledgement
moves the window and sends more; the third repetition of the last one goes back to the piece after
it; a transfer that has not been acknowledged for too long counts a timeout, and is given up at the
fifth.  The window is only ever moved by acknowledgements, and the loop that sends is bounded both
by the end of the window and by the end of the chunk.

Main definitions:

* `P2P.dataPacket` — the packet of one piece;
* `P2P.sendDATA` — the sending loop;
* `P2P.adjustWindow`, `P2P.ackTransfer` — the part of `receive_ACK` after the transfer was found;
* `P2P.timeoutTransfer` — the body of the loop of `handle_server_timeout`.

Main results:

* `P2P.sendDATALoop_eq`, `P2P.sendDATA_eq` — **what the sending loop does, in closed form**;
* `P2P.ackTransfer_cases` — what an acknowledgement does to a transfer;
* `P2P.storeIndex_dataPacket`, `P2P.payload_dataPacket` — where a piece belongs and what it holds.
-/

import P2PFileTransfer.Packet
import P2PFileTransfer.Reassembly
import P2PFileTransfer.Transfer

set_option relaxedAutoImplicit false
set_option autoImplicit false

namespace P2P

/-! ### One piece -/

/-- A packet after `memset(&packet, 0, sizeof(Packet))`. -/
def zeroPacket : Packet where
  type := .whohas
  headerLen := 0
  packetLen := 0
  seqNum := 0
  ackNum := 0
  hashNum := 0
  hashList := fun _ => Vector.replicate binHashSize 0
  data := fun _ => 0

/-- The bytes of the piece that starts at `index`: the last piece of a chunk is shorter. -/
def pieceLen (index : ℕ) : ℕ :=
  if u32 (2 ^ 32 + btChunkSize - index) < dataSize then btChunkSize - index else dataSize

/-- The packet `send_DATA` makes of the piece with index `i`. -/
def dataPacket (c : Chunk) (i : ℕ) : Packet :=
  let index := u32 (i * dataSize)
  { zeroPacket with
    type := .data
    headerLen := UInt16.ofNat standardHeaderLen
    packetLen := UInt16.ofNat (standardHeaderLen + pieceLen index)
    seqNum := UInt32.ofNat (1 + i)
    data := fun j => if j < pieceLen index then c.chunkData[index + j]?.getD 0 else 0 }

/-! ### The sending loop -/

/-- The loop of `send_DATA`: it stops at the end of the chunk or at the end of the window.  Every
pass moves `index`, so `maxSeqNum` passes are enough. -/
def sendDATALoop (c : Chunk) : ℕ → CongestCtrl → CongestCtrl × List Packet
  | 0, k => (k, [])
  | fuel + 1, k =>
      if k.index < maxSeqNum ∧ k.index < u32 (k.begin + k.windSize) then
        let rest := sendDATALoop c fuel { k with index := k.index + 1 }
        (rest.1, dataPacket c k.index :: rest.2)
      else (k, [])

/-- `send_DATA`: the transfer after it, and the packets it sends. -/
def sendDATA (c : Chunk) (t : Transfer) : Transfer × List Packet :=
  let sent := sendDATALoop c maxSeqNum { t.cctrl with dupCount := 0 }
  ({ t with cctrl := sent.1 }, sent.2)

/-! ### Acknowledgements and timeouts -/

/-- `MAX_DUP_ACKS`. -/
def maxDupAcks : ℕ := 3

/-- `adjust_window`. -/
def adjustWindow (t : Transfer) (newIndex : ℕ) : Transfer :=
  { t with cctrl := { t.cctrl with
      begin := newIndex
      index := if t.cctrl.index < newIndex then newIndex else t.cctrl.index } }

/-- A repetition of the last acknowledgement is counted. -/
def countDup (t : Transfer) : Transfer :=
  { t with cctrl := { t.cctrl with dupCount := u32 (1 + t.cctrl.dupCount) } }

/-- Go back to the piece after the last one acknowledged. -/
def goBack (t : Transfer) : Transfer := { t with cctrl := { t.cctrl with index := t.cctrl.begin } }

/-- The branches of `receive_ACK` for an acknowledgement that is not the last one. -/
def ackWindow (clock : ℕ → ℕ) (c : Chunk) (t : Transfer) (ackNum : ℕ) : Transfer × List Packet :=
  if t.cctrl.begin < ackNum then
    sendDATA c (congestionControl clock (adjustWindow t ackNum))
  else if ackNum = t.cctrl.begin then
    if maxDupAcks ≤ (countDup t).cctrl.dupCount then
      sendDATA c (detectedFirstLoss clock (goBack (countDup t)))
    else (countDup t, [])
  else (t, [])

/-- `receive_ACK` from the point where the transfer was found: nothing is left of a transfer that
was acknowledged completely. -/
def ackTransfer (clock : ℕ → ℕ) (c : Chunk) (t : Transfer) (ackNum : ℕ) :
    Option (Transfer × List Packet) :=
  if ackNum = maxSeqNum then none
  else
    let sent := ackWindow clock c t ackNum
    some ({ sent.1 with
      cctrl := { sent.1.cctrl with timeoutCount := 0 }
      timestamp := clock 2 }, sent.2)

/-- What `handle_server_timeout` does to one transfer: nothing is left of a transfer that died. -/
def timeoutTransfer (clock : ℕ → ℕ) (t : Transfer) : Option Transfer :=
  if transferHasTimeout (clock 0) t then
    let t := { t with cctrl := { t.cctrl with timeoutCount := u32 (1 + t.cctrl.timeoutCount) } }
    if maxToCounts ≤ t.cctrl.timeoutCount then none
    else some (detectedFirstLoss (fun i => clock (1 + i)) t)
  else some t

/-! ### What the sending loop does -/

/-- Where the sending loop stops. -/
def CongestCtrl.stop (k : CongestCtrl) : ℕ := min maxSeqNum (u32 (k.begin + k.windSize))

theorem CongestCtrl.stop_le (k : CongestCtrl) : k.stop ≤ maxSeqNum := Nat.min_le_left _ _

/-- **The sending loop in closed form**: it sends the pieces from `index` to where it stops, in
order, and `index` moves there. -/
theorem sendDATALoop_eq (c : Chunk) {fuel : ℕ} {k : CongestCtrl} (h : maxSeqNum ≤ k.index + fuel) :
    sendDATALoop c fuel k =
      ({ k with index := max k.index k.stop },
        (List.range' k.index (k.stop - k.index)).map (dataPacket c)) := by
  induction fuel generalizing k with
  | zero =>
      have hstop := k.stop_le
      have hmax : max k.index k.stop = k.index := by omega
      have hnil : k.stop - k.index = 0 := by omega
      rw [sendDATALoop, hmax, hnil]
      rfl
  | succ fuel ih =>
      rw [sendDATALoop]
      by_cases hgo : k.index < maxSeqNum ∧ k.index < u32 (k.begin + k.windSize)
      · -- one piece is sent, and the loop stops where it would have stopped from here
        have hlt : k.index < k.stop := lt_min hgo.1 hgo.2
        have hstop : CongestCtrl.stop { k with index := k.index + 1 } = k.stop := rfl
        have hrest := ih (k := { k with index := k.index + 1 }) (by simp only; omega)
        rw [hstop] at hrest
        have hmax : max (k.index + 1) k.stop = max k.index k.stop := by omega
        have hlen : k.stop - k.index = (k.stop - (k.index + 1)) + 1 := by omega
        rw [if_pos hgo, hrest, hlen, List.range'_succ, List.map_cons]
        simp only [hmax]
      · have hle : k.stop ≤ k.index := by
          by_contra hlt
          exact hgo (lt_min_iff.1 (Nat.lt_of_not_le hlt))
        have hmax : max k.index k.stop = k.index := by omega
        have hnil : k.stop - k.index = 0 := by omega
        rw [if_neg hgo, hmax, hnil]
        rfl

/-- **`send_DATA` in closed form.** -/
theorem sendDATA_eq (c : Chunk) (t : Transfer) :
    sendDATA c t =
      ({ t with cctrl :=
          { t.cctrl with dupCount := 0, index := max t.cctrl.index t.cctrl.stop } },
        (List.range' t.cctrl.index (t.cctrl.stop - t.cctrl.index)).map (dataPacket c)) := by
  unfold sendDATA
  rw [sendDATALoop_eq c (k := { t.cctrl with dupCount := 0 }) (Nat.le_add_left _ _)]
  rfl

/-- Every packet that `send_DATA` sends is a piece of the chunk. -/
theorem mem_sendDATA {c : Chunk} {t : Transfer} {pack : Packet} (h : pack ∈ (sendDATA c t).2) :
    ∃ i < maxSeqNum, pack = dataPacket c i := by
  rw [sendDATA_eq] at h
  obtain ⟨i, hi, rfl⟩ := List.mem_map.1 h
  have hstop := t.cctrl.stop_le
  rw [List.mem_range'_1] at hi
  exact ⟨i, by omega, rfl⟩

@[simp] theorem sendDATA_peer (c : Chunk) (t : Transfer) : (sendDATA c t).1.peer = t.peer := rfl

@[simp] theorem sendDATA_c (c : Chunk) (t : Transfer) : (sendDATA c t).1.c = t.c := rfl

@[simp] theorem sendDATA_begin (c : Chunk) (t : Transfer) :
    (sendDATA c t).1.cctrl.begin = t.cctrl.begin := by
  rw [sendDATA_eq]

theorem sendDATA_index (c : Chunk) (t : Transfer) :
    (sendDATA c t).1.cctrl.index = max t.cctrl.index t.cctrl.stop := by
  rw [sendDATA_eq]

/-! ### What an acknowledgement does -/

/-- **What an acknowledgement does to the window**: it slides and more is sent, it goes back and
more is sent, or it stays. -/
theorem ackWindow_cases (clock : ℕ → ℕ) (c : Chunk) (t : Transfer) (ackNum : ℕ) :
    (t.cctrl.begin < ackNum ∧
        ∃ t₁, (adjustWindow t ackNum).SameWindow t₁ ∧ ackWindow clock c t ackNum = sendDATA c t₁) ∨
      (ackNum = t.cctrl.begin ∧ ∃ t₁, t₁.peer = t.peer ∧ t₁.c = t.c ∧
        t₁.cctrl.begin = t.cctrl.begin ∧ t₁.cctrl.index = t.cctrl.begin ∧
        ackWindow clock c t ackNum = sendDATA c t₁) ∨
      (ackNum ≤ t.cctrl.begin ∧ ∃ t₁, t₁.peer = t.peer ∧ t₁.c = t.c ∧
        t₁.cctrl.begin = t.cctrl.begin ∧ t₁.cctrl.index = t.cctrl.index ∧
        ackWindow clock c t ackNum = (t₁, [])) := by
  unfold ackWindow
  by_cases hnew : t.cctrl.begin < ackNum
  · rw [if_pos hnew]
    exact Or.inl ⟨hnew, _, congestionControl_same clock _, rfl⟩
  · rw [if_neg hnew]
    by_cases hdup : ackNum = t.cctrl.begin
    · rw [if_pos hdup]
      by_cases hthird : maxDupAcks ≤ (countDup t).cctrl.dupCount
      · rw [if_pos hthird]
        have hsame := detectedFirstLoss_same clock (goBack (countDup t))
        exact Or.inr (Or.inl ⟨hdup, _, hsame.peer, hsame.c, hsame.begin, hsame.index, rfl⟩)
      · rw [if_neg hthird]
        exact Or.inr (Or.inr ⟨by omega, countDup t, rfl, rfl, rfl, rfl, rfl⟩)
    · rw [if_neg hdup]
      exact Or.inr (Or.inr ⟨by omega, t, rfl, rfl, rfl, rfl, rfl⟩)

/-- **What an acknowledgement does to a transfer.** -/
theorem ackTransfer_cases (clock : ℕ → ℕ) (c : Chunk) (t : Transfer) (ackNum : ℕ) :
    (ackNum = maxSeqNum ∧ ackTransfer clock c t ackNum = none) ∨
      (ackNum ≠ maxSeqNum ∧ ∃ t', ackTransfer clock c t ackNum =
          some (t', (ackWindow clock c t ackNum).2) ∧
        t'.peer = (ackWindow clock c t ackNum).1.peer ∧ t'.c = (ackWindow clock c t ackNum).1.c ∧
        t'.cctrl.begin = (ackWindow clock c t ackNum).1.cctrl.begin ∧
        t'.cctrl.index = (ackWindow clock c t ackNum).1.cctrl.index) := by
  by_cases h : ackNum = maxSeqNum
  · exact Or.inl ⟨h, if_pos h⟩
  · exact Or.inr ⟨h, _, if_neg h, rfl, rfl, rfl, rfl⟩

/-- A transfer that an acknowledgement leaves has the peer and the chunk it had. -/
theorem ackTransfer_same {clock : ℕ → ℕ} {c : Chunk} {t t' : Transfer} {ackNum : ℕ}
    {sent : List Packet} (h : ackTransfer clock c t ackNum = some (t', sent)) :
    t'.peer = t.peer ∧ t'.c = t.c ∧ ∀ pack ∈ sent, ∃ i < maxSeqNum, pack = dataPacket c i := by
  obtain ⟨-, h₀⟩ | ⟨-, t'', h₁, hp, hc, -, -⟩ := ackTransfer_cases clock c t ackNum
  · rw [h₀] at h; cases h
  · rw [h₁] at h
    cases h
    rw [hp, hc]
    obtain ⟨-, t₁, hs, hw⟩ | ⟨-, t₁, hp₁, hc₁, -, -, hw⟩ | ⟨-, t₁, hp₁, hc₁, -, -, hw⟩ :=
      ackWindow_cases clock c t ackNum
    · rw [hw]
      exact ⟨hs.peer, hs.c, fun _ => mem_sendDATA⟩
    · rw [hw]
      exact ⟨hp₁, hc₁, fun _ => mem_sendDATA⟩
    · rw [hw]
      exact ⟨hp₁, hc₁, fun _ hmem => absurd hmem List.not_mem_nil⟩

/-- A transfer that a timeout leaves has the peer, the chunk and the window it had. -/
theorem timeoutTransfer_same {clock : ℕ → ℕ} {t t' : Transfer}
    (h : timeoutTransfer clock t = some t') :
    t'.peer = t.peer ∧ t'.c = t.c ∧ t'.cctrl.begin = t.cctrl.begin ∧
      t'.cctrl.index = t.cctrl.index := by
  unfold timeoutTransfer at h
  by_cases hto : transferHasTimeout (clock 0) t = true
  · rw [if_pos hto] at h
    dsimp only at h
    split at h
    · cases h
    · cases h
      have hsame := detectedFirstLoss_same (fun i => clock (1 + i))
        { t with cctrl := { t.cctrl with timeoutCount := u32 (1 + t.cctrl.timeoutCount) } }
      exact ⟨hsame.peer, hsame.c, hsame.begin, hsame.index⟩
  · rw [if_neg hto] at h
    cases h
    exact ⟨rfl, rfl, rfl, rfl⟩

/-! ### What a piece holds -/

theorem pieceLen_eq {i : ℕ} (hi : i < maxSeqNum) :
    u32 (i * dataSize) = i * dataSize ∧
      pieceLen (u32 (i * dataSize)) = min dataSize (btChunkSize - i * dataSize) := by
  have hm := maxSeqNum_eq
  have hd := dataSize_eq
  have hb := btChunkSize_eq
  have hidx : u32 (i * dataSize) = i * dataSize := u32_of_lt (by rw [hd]; omega)
  refine ⟨hidx, ?_⟩
  have hle : i * dataSize ≤ btChunkSize := by rw [hd, hb]; omega
  have hleft : u32 (2 ^ 32 + btChunkSize - i * dataSize) = btChunkSize - i * dataSize := by
    unfold u32
    omega
  rw [hidx, pieceLen, hleft]
  split <;> omega

/-- The number of bytes of a piece. -/
theorem copyLen_dataPacket (c : Chunk) {i : ℕ} (hi : i < maxSeqNum) :
    (dataPacket c i).copyLen = min dataSize (btChunkSize - i * dataSize) := by
  have hlen := (pieceLen_eq hi).2
  have hd := dataSize_eq
  have hh : (dataPacket c i).headerLen.toNat = standardHeaderLen := rfl
  have hp : (dataPacket c i).packetLen.toNat =
      standardHeaderLen + min dataSize (btChunkSize - i * dataSize) := by
    have hs : standardHeaderLen = 16 := rfl
    simp only [dataPacket, hlen, UInt16.toNat_ofNat']
    omega
  rw [Packet.copyLen_of_le, hh, hp]
  · omega
  · rw [UInt16.le_iff_toNat_le, hh, hp]; omega

theorem seqNum_dataPacket (c : Chunk) {i : ℕ} (hi : i < maxSeqNum) :
    (dataPacket c i).seqNum.toNat = i + 1 := by
  have hm := maxSeqNum_eq
  simp only [dataPacket, UInt32.toNat_ofNat']
  omega

@[simp] theorem ackNum_dataPacket (c : Chunk) (i : ℕ) : (dataPacket c i).ackNum = 0 := rfl

/-- Where a piece belongs. -/
theorem storeIndex_dataPacket (c : Chunk) {i : ℕ} (hi : i < maxSeqNum) :
    storeIndex (dataPacket c i) = i := by
  rw [storeIndex_of_le (by rw [seqNum_dataPacket c hi]; omega), seqNum_dataPacket c hi]
  omega

/-- **What a piece holds**: the run of the chunk at its place. -/
theorem payload_dataPacket (c : Chunk) {i : ℕ} (hi : i < maxSeqNum) :
    payload (dataPacket c i) = Block.slice c.chunkData (i * dataSize) dataSize := by
  obtain ⟨hidx, hlen⟩ := pieceLen_eq hi
  rw [hidx] at hlen
  have hcopy := copyLen_dataPacket c hi
  refine List.ext_getElem ?_ ?_
  · rw [payload, Block.length_window, Block.length_slice, hcopy]
  · intro j h₁ h₂
    have hj : j < min dataSize (btChunkSize - i * dataSize) := by
      rw [Block.length_slice] at h₂; exact h₂
    have hin : i * dataSize + j < btChunkSize := by omega
    rw [Block.getElem_slice _ _ _ _ _ hin]
    simp only [payload, Block.getElem_window, dataPacket, hlen, hidx, Nat.zero_add, hj, if_true]
    rw [Vector.getElem?_eq_getElem hin, Option.getD_some]

/-- A piece fits its place. -/
theorem inBounds_dataPacket (c : Chunk) {i : ℕ} (hi : i < maxSeqNum) :
    (dataPacket c i).InBounds := by
  have hm := maxSeqNum_eq
  have hd := dataSize_eq
  have hb := btChunkSize_eq
  have hseq := seqNum_dataPacket c hi
  refine ⟨by omega, by omega, ?_⟩
  rw [copyLen_dataPacket c hi, hseq, hd, hb]
  omega

end P2P
