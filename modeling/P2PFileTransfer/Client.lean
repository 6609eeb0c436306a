/-
**The client side of a peer** (`bt_client.c`).

A chunk is missing until its data has arrived and has the right hash.  Peers that say they own it
are put in its list; a `GET` goes to the first of them that is available.  A `DATA` packet says
nothing but a sequence number: it counts for the first transfer in the list with a peer of the
sender's identifier.

Main definitions:

* `P2P.getChunkData` — `get_chunk_data`, the only place where the client opens transfers;
* `P2P.receiveDENIED`, `P2P.receiveIHAVE`, `P2P.receiveDATA`;
* `P2P.validateChunk`, `P2P.constructData`, `P2P.checkAllReceived`;
* `P2P.handleClientTimeout`.
-/

import P2PFileTransfer.Publish
import P2PFileTransfer.State

set_option relaxedAutoImplicit false
set_option autoImplicit false

namespace P2P

/-! ### Packets of the client -/

/-- The packet `send_GET` builds, on the stack. -/
def getPacket (junk : Packet) (binHash : BinHash) (count : ℕ) : Packet :=
  { junk with
    type := .get
    headerLen := UInt16.ofNat standardHeaderLen
    packetLen := UInt16.ofNat (standardHeaderLen + headerPadLen + binHashSize)
    seqNum := UInt32.ofNat count
    ackNum := 0
    hashNum := 1
    hashList := fun i => if i = 0 then binHash else junk.hashList i }

/-- The packet `send_WHOHAS` builds, in memory from `calloc`. -/
def whohasPacket (hashes : List BinHash) : Packet :=
  { zeroPacket with
    type := .whohas
    headerLen := UInt16.ofNat standardHeaderLen
    packetLen := UInt16.ofNat (standardHeaderLen + headerPadLen + hashes.length * binHashSize)
    hashNum := UInt8.ofNat hashes.length
    hashList := fun i => hashes.getD i (zeroPacket.hashList i) }

/-- `send_GET`: the time is stamped on the transfer that the peer is found by. -/
def sendGET (s : State) (peer : ℕ) (binHash : BinHash) (count : ℕ) : State :=
  match s.findIncoming peer with
  | none => s
  | some (i, _) =>
      (s.stampIncoming i).sendPacketToPeer peer (getPacket (s.junk 0) binHash count)
        (some binHash)

/-- `send_ACK`. -/
def sendACK (s : State) (peer : ℕ) (ackNum : ℕ) : State :=
  match s.findIncoming peer with
  | none => s
  | some (i, t) =>
      (s.stampIncoming i).sendPacketToPeer peer (ackPacket (s.junk 0) ackNum)
        (some (s.binHash t.c))

/-- The loop of `send_WHOHAS`: a packet goes out when it is full or the list ends. -/
def sendWHOHASLoop : List ℕ → List BinHash → State → State
  | [], _, s => s
  | q :: rest, hashes, s =>
      let hashes := hashes ++ [s.binHash q]
      if hashes.length = maxHashInPacket ∨ rest = [] then
        sendWHOHASLoop rest [] (s.sendPacketToAll (whohasPacket hashes))
      else sendWHOHASLoop rest hashes s

/-- `send_WHOHAS`. -/
def sendWHOHAS (s : State) : State := sendWHOHASLoop s.missing [] s

/-! ### Opening transfers -/

/-- `find_first_available_peer`. -/
def findFirstAvailablePeer (s : State) (c : Chunk) : Option ℕ :=
  c.peer.find? fun p => (s.peers.cell p).available == 1

/-- The body of the loop of `get_chunk_data`: a transfer is opened if none with the hash of the
chunk is running and a peer is available. -/
def requestChunk (s : State) (q : ℕ) : State :=
  match nodeFind (s.compareTransferByChunkHash (s.binHash q)) s.incoming,
      findFirstAvailablePeer s (s.chunks.cell q) with
  | none, some peer => sendGET (s.insertIncoming peer q) peer (s.binHash q) 1
  | _, _ => s

/-- `get_chunk_data`. -/
def getChunkData (s : State) : State := s.missing.foldl requestChunk s

/-! ### Denials and offers -/

/-- `receive_DENIED`, once the peer was found by its address. -/
def receiveDENIED (s : State) (peer : ℕ) : State :=
  match s.findIncoming peer with
  | none => s
  | some (i, _) => s.deleteIncoming i

/-- `peer_exist_in_list`. -/
def peerExistInList (s : State) (l : List ℕ) (peer : ℕ) : Bool :=
  l.any fun p => s.peerId p == s.peerId peer

/-- The body of the inner loop of `receive_IHAVE`. -/
def offerPeer (peer : ℕ) (hash : BinHash) (s : State) (q : ℕ) : State :=
  if compareBinHash (s.binHash q) hash ∧ peerExistInList s (s.chunks.cell q).peer peer = false then
    s.modifyChunk q fun c => { c with peer := peer :: c.peer }
  else s

/-- `receive_IHAVE`, once the peer was found by its address. -/
def receiveIHAVE (s : State) (pack : Packet) (peer : ℕ) : State :=
  getChunkData ((List.range pack.hashNum.toNat).foldl
    (fun s i => s.missing.foldl (offerPeer peer (pack.hashList i)) s) s)

/-! ### Data -/

/-- `validate_chunk`: the node it removes from the missing list is found by its hash. -/
def validateChunk (shahash : List UInt8 → BinHash) (s : State) (q : ℕ) : State × Bool :=
  if chunkIsValid shahash (s.chunks.cell q) then
    match nodeFind (fun r => compareChunkByBinHash (s.chunks.cell r) (s.binHash q)) s.missing with
    | none => (s, true)
    | some (i, _) =>
        ({ s with missing := s.missing.eraseIdx i, haveList := q :: s.haveList }, true)
  else (s.modifyChunk q discardData, false)

/-- The writes of `construct_data`: the offset is a product of two 32-bit numbers. -/
def outputWrites (s : State) : List (ℕ × List UInt8) :=
  s.wanted.map fun q =>
    (u32 ((s.chunks.cell q).id.toNat * btChunkSize), (s.chunks.cell q).chunkData.toList)

/-- `construct_data`. -/
def constructData (s : State) : State :=
  { s with trace := s.trace ++
      [.output s.userOutputFilename s.userGetChunkFile (FileImage.writes (outputWrites s))
        (s.wanted.map s.chunks.cell)] }

/-- `check_all_received`. -/
def checkAllReceived (s : State) : State :=
  if s.missing = [] then { constructData s with wanted := [] } else s

/-- What `receive_DATA` does with a chunk that is complete, before it ends the transfer. -/
def finishChunk (shahash : List UInt8 → BinHash) (s : State) (q : ℕ) : State :=
  if (validateChunk shahash s q).2 then checkAllReceived (validateChunk shahash s q).1
  else (validateChunk shahash s q).1

/-- `receive_DATA`. -/
def receiveDATA (shahash : List UInt8 → BinHash) (s : State) (pack : Packet) (peer : ℕ) :
    Except Fault State :=
  match s.findIncoming peer with
  | none => .ok s
  | some (i, t) =>
      match storeData pack (s.chunks.cell t.c) with
      | .error x => .error x
      | .ok c =>
          let s := sendACK (s.modifyChunk t.c fun _ => c) peer (dataFindLargestConsecSeq c)
          if chunkBitsAllReceived c then
            .ok (getChunkData ((finishChunk shahash s t.c).deleteIncoming i))
          else .ok s

/-! ### Timeouts -/

/-- The body of the loops of `handle_transfer_dead`, for one missing chunk. -/
def forgetPeer (peer : ℕ) (s : State) (q : ℕ) : State :=
  s.modifyChunk q fun c => { c with peer := c.peer.filter fun p => s.peerId p != s.peerId peer }

/-- `handle_transfer_dead`. -/
def handleTransferDead (s : State) (i : ℕ) (t : Transfer) : State :=
  (s.missing.foldl (forgetPeer t.peer) s).deleteIncoming i

/-- The loop of `handle_client_timeout`, from the node at position `i` on; `fuel` nodes are left. -/
def clientTimeoutLoop : ℕ → ℕ → State → State
  | 0, _, s => s
  | fuel + 1, i, s =>
      match s.incoming[i]? with
      | none => s
      | some t =>
          if transferHasTimeout (s.clock 0) t then
            let s := (s.tick 1).countIncoming i
            if maxToCounts ≤ u32 (1 + t.cctrl.timeoutCount) then
              clientTimeoutLoop fuel i (handleTransferDead s i t)
            else if (s.chunks.cell t.c).bitsCount = 0 then
              clientTimeoutLoop fuel (i + 1) (sendGET s t.peer (s.binHash t.c) 1)
            else
              clientTimeoutLoop fuel (i + 1)
                (sendACK s t.peer (dataFindLargestConsecSeq (s.chunks.cell t.c)))
          else clientTimeoutLoop fuel (i + 1) (s.tick 1)

/-- `handle_client_timeout`. -/
def handleClientTimeout (s : State) : State :=
  if s.missing = [] then s
  else
    let s := getChunkData (clientTimeoutLoop s.incoming.length 0 s)
    if s.incoming.length < s.missing.length then sendWHOHAS s else s

end P2P
