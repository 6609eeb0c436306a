/-
**The server side of a peer** (`bt_server.c`).

The server answers `WHOHAS` with the hashes it owns, opens a transfer on `GET`, and from then on
acts on acknowledgements and on timeouts only.  An acknowledgement says nothing but a number: it
counts for the first transfer in the list with a peer of the same identifier.

Main definitions: `P2P.sendIHAVE`, `P2P.sendDENIED`, `P2P.receiveGET`, `P2P.receiveWHOHAS`,
`P2P.receiveACK`, `P2P.handleServerTimeout`.
-/

import P2PFileTransfer.Sending
import P2PFileTransfer.State

set_option relaxedAutoImplicit false
set_option autoImplicit false

namespace P2P

/-! ### Packets of the server -/

/-- The packet `send_IHAVE` builds, on the stack, when its array `hash_list` has room for the
hashes. -/
def ihavePacket (junk : Packet) (binHashList : List BinHash) : Packet :=
  { junk with
    type := .ihave
    headerLen := UInt16.ofNat standardHeaderLen
    packetLen :=
      UInt16.ofNat (standardHeaderLen + headerPadLen + binHashList.length * binHashSize)
    seqNum := 0
    ackNum := 0
    hashNum := UInt8.ofNat binHashList.length
    hashList := fun i => binHashList.getD i (junk.hashList i) }

/-- The packet `send_DENIED` builds, on the stack. -/
def deniedPacket (junk : Packet) : Packet :=
  { junk with
    type := .denied
    headerLen := UInt16.ofNat standardHeaderLen
    packetLen := UInt16.ofNat standardHeaderLen }

/-- What `send_IHAVE` does with a list that fits. -/
def State.sendOffer (s : State) (peer : ℕ) (binHashList : List BinHash) : State :=
  (s.tick 1).sendPacketToPeer peer (ihavePacket (s.junk 0) binHashList) none

/-- `send_IHAVE`: the hashes are copied into an array of `maxHashInPacket` entries. -/
def sendIHAVE (s : State) (peer : ℕ) (binHashList : List BinHash) : Except Fault State :=
  if binHashList.length ≤ maxHashInPacket then .ok (s.sendOffer peer binHashList)
  else .error .outOfBounds

/-- `send_DENIED`. -/
def sendDENIED (s : State) (peer : ℕ) : State :=
  (s.tick 1).sendPacketToPeer peer (deniedPacket (s.junk 0)) none

/-- The packets that `send_DATA` sends for the transfer `t`. -/
def State.sendPieces (s : State) (t : Transfer) (sent : List Packet) : State :=
  { s with trace := s.trace ++ sent.map fun pack => .send t.peer pack (some (s.binHash t.c)) }

/-! ### Requests -/

/-- `receive_GET`: the transfer is created only if no transfer of the same hash is running, to
whomever. -/
def receiveGET (s : State) (pack : Packet) (peer : ℕ) : State :=
  match nodeFind (fun q => compareChunkByBinHash (s.chunks.cell q) (pack.hashList 0))
      s.haveList with
  | none => sendDENIED s peer
  | some (_, q) =>
      if s.maxConn ≤ s.outgoing.length then sendDENIED s peer
      else if (nodeFind (s.compareTransferByChunkHash (pack.hashList 0)) s.outgoing).isSome then s
      else
        let sent := sendDATA (s.chunks.cell q) (createTransfer peer q (s.clock 0))
        (s.insertOutgoing sent.1).sendPieces sent.1 sent.2

/-- The hashes `receive_WHOHAS` collects: for every hash of the packet, every owned chunk that
has it. -/
def ownedHashes (s : State) (pack : Packet) : List BinHash :=
  (List.range pack.hashNum.toNat).flatMap fun i =>
    (s.haveList.filter fun q => compareBinHash (s.binHash q) (pack.hashList i)).map s.binHash

/-- `receive_WHOHAS`: the hashes are collected in an array of `maxHashInPacket` entries. -/
def receiveWHOHAS (s : State) (pack : Packet) (peer : ℕ) : Except Fault State :=
  if (ownedHashes s pack).length ≤ maxHashInPacket then sendIHAVE s peer (ownedHashes s pack)
  else .error .outOfBounds

/-- The two arrays have the same size. -/
theorem receiveWHOHAS_eq (s : State) (pack : Packet) (peer : ℕ) : receiveWHOHAS s pack peer =
    if (ownedHashes s pack).length ≤ maxHashInPacket then
      .ok (s.sendOffer peer (ownedHashes s pack))
    else .error .outOfBounds := by
  rw [receiveWHOHAS, sendIHAVE]
  split_ifs <;> rfl

theorem receiveWHOHAS_of_le {s : State} {pack : Packet} (peer : ℕ)
    (h : (ownedHashes s pack).length ≤ maxHashInPacket) :
    receiveWHOHAS s pack peer = .ok (s.sendOffer peer (ownedHashes s pack)) := by
  rw [receiveWHOHAS_eq, if_pos h]

/-! ### Acknowledgements and timeouts -/

/-- `receive_ACK`. -/
def receiveACK (s : State) (pack : Packet) (peer : ℕ) : State :=
  match s.findOutgoing peer with
  | none => s
  | some (i, t) =>
      match ackTransfer s.clock (s.chunks.cell t.c) t pack.ackNum.toNat with
      | none => s.deleteOutgoing i
      | some (t', sent) =>
          State.sendPieces { s.tick 3 with outgoing := s.outgoing.set i t' } t' sent

/-- The loop of `handle_server_timeout`, from the node at position `i` on; `fuel` nodes are left. -/
def serverTimeoutLoop : ℕ → ℕ → State → State
  | 0, _, s => s
  | fuel + 1, i, s =>
      match s.outgoing[i]? with
      | none => s
      | some t =>
          match timeoutTransfer s.clock t with
          | none => serverTimeoutLoop fuel i ((s.tick 2).deleteOutgoing i)
          | some t' =>
              serverTimeoutLoop fuel (i + 1) { s.tick 2 with outgoing := s.outgoing.set i t' }

/-- `handle_server_timeout`. -/
def handleServerTimeout (s : State) : State := serverTimeoutLoop s.outgoing.length 0 s

end P2P
