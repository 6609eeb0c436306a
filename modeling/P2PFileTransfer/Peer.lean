/-
**A running peer** (`peer.c`, `bt_io.c`).

After set-up a peer reacts to four things: a `GET` command of the user, a datagram, and the timeouts
of its two sides, which `peer_run` handles one after the other.  The steps of the model are these
four; a datagram is a packet here, as `deserialize_packet` returned it, and `processInboundUdp` is
the way from the one to the other.

Main definitions:

* `P2P.createWantedMissingList`, `P2P.processGet`;
* `P2P.findPeer`, `P2P.receivePacket`, `P2P.processInboundUdp`;
* `P2P.Setup`, `P2P.peerSetup` — the first state;
* `P2P.Event`, `P2P.step` — the steps.

Main results:

* `P2P.Handled`, `P2P.handled_of_step` — **what a step is**, handler by handler;
* `P2P.findPeer_lt` — a sender that is found is a peer of the configuration.
-/

import P2PFileTransfer.Client
import P2PFileTransfer.Server

set_option relaxedAutoImplicit false
set_option autoImplicit false

namespace P2P

/-! ### Requests of the user -/

/-- The body of the loop of `create_wanted_missing_list`, for a line `id hash`.  A chunk that is
owned is not created again, but its identifier is overwritten. -/
def wantLine (s : State) (line : UInt32 × HexHash) : State :=
  match nodeFind (fun q => compareChunkByHexHash (s.chunks.cell q) line.2) s.haveList with
  | none =>
      { s with
        chunks := s.chunks.alloc { createChunk line.1.toUInt8 line.2 with id := line.1 }
        missing := s.chunks.next :: s.missing
        wanted := s.chunks.next :: s.wanted }
  | some (_, q) =>
      { s.modifyChunk q fun c => { c with id := line.1 } with wanted := q :: s.wanted }

/-- `create_wanted_missing_list`, for the lines of the chunk file. -/
def createWantedMissingList (s : State) (lines : List (UInt32 × HexHash)) : State :=
  checkAllReceived (lines.foldl wantLine s)

/-- `process_get`. -/
def processGet (s : State) (chunkFile outputFile : String) (lines : List (UInt32 × HexHash)) :
    State :=
  sendWHOHAS (createWantedMissingList
    { s with userGetChunkFile := chunkFile, userOutputFilename := outputFile } lines)

/-! ### Datagrams -/

/-- An address in dotted notation. -/
def dottedQuad (addr : UInt32) : String :=
  toString (addr % 256) ++ "." ++ toString (addr / 256 % 256) ++ "." ++
    toString (addr / 65536 % 256) ++ "." ++ toString (addr / 16777216)

/-- `compare_peer_addr`.  `inet_ntoa` formats into one static buffer and returns its address, so
`strcmp` is given that buffer twice. -/
def comparePeerAddr (p₁ p₂ : SockaddrIn) : Bool :=
  let buffer := dottedQuad p₂.sinAddr
  p₁.sinPort == p₂.sinPort && buffer == buffer

/-- `find_peer`. -/
def findPeer (s : State) (src : SockaddrIn) : Option ℕ :=
  (List.range s.peers.next).find? fun p => comparePeerAddr (s.peers.cell p).addr src

/-- The handlers that look the sender up by its address again. -/
def withSender (s : State) (src : SockaddrIn) (handle : ℕ → State) : State :=
  match findPeer s src with
  | none => s
  | some peer => handle peer

/-- The dispatch of `process_inbound_udp`, for a packet from the known peer `peer`. -/
def receivePacket (shahash : List UInt8 → BinHash) (s : State) (src : SockaddrIn) (peer : ℕ)
    (pack : Packet) : Except Fault State :=
  match pack.type with
  | .whohas => receiveWHOHAS s pack peer
  | .get => .ok (receiveGET s pack peer)
  | .ack => .ok (receiveACK s pack peer)
  | .ihave => .ok (withSender s src (receiveIHAVE s pack))
  | .denied => .ok (withSender s src (receiveDENIED s))
  | .data => receiveDATA shahash s pack peer
  | .invalid _ => .error .assertion

/-- `process_inbound_udp`, for the datagram in `buf`. -/
def processInboundUdp (shahash : List UInt8 → BinHash) (s : State) (src : SockaddrIn)
    (buf : ℕ → UInt8) : Except Fault State :=
  match findPeer s src with
  | none => .ok s
  | some peer =>
      match (deserializePacket buf).packet with
      | none => .ok s
      | some pack => receivePacket shahash s src peer pack

/-! ### Set-up -/

/-- What a peer is started with: the peers in the order of `config->peers`, the lines of its
has-chunks file, and the contents of its data file, if its master chunk file names one. -/
structure Setup where
  peers : List (ℤ × SockaddrIn)
  identity : ℤ
  maxConn : ℤ
  own : List (UInt32 × HexHash)
  master : Option (List UInt8)

/-- A chunk of the has-chunks file, as `parse_chunkfile` creates it and `load_own_chunk_data` loads
it. -/
def ownChunk (master : Option (List UInt8)) (line : UInt32 × HexHash) : Chunk :=
  match master with
  | none => createChunk line.1.toUInt8 line.2
  | some file => loadOwnChunkData file (createChunk line.1.toUInt8 line.2)

/-- `bt_parse_peer_list` and `peer_setup`.  What the program has no value for is arbitrary. -/
def peerSetup (setup : Setup) (clock : ℕ → ℕ) (junk : ℕ → Packet) : State where
  peers := Heap.ofList ⟨0, ⟨0, 0⟩, 0⟩ (setup.peers.map fun peer => ⟨peer.1, peer.2, 1⟩)
  identity := setup.identity
  maxConn := setup.maxConn
  chunks := Heap.ofList (createChunk 0 (Vector.replicate hexHashSize 0))
    (setup.own.map (ownChunk setup.master))
  wanted := []
  haveList := (List.range setup.own.length).reverse
  missing := []
  incoming := []
  outgoing := []
  userGetChunkFile := ""
  userOutputFilename := ""
  clock := clock
  junk := junk
  trace := []

/-! ### Steps -/

/-- What a peer reacts to. -/
inductive Event where
  /-- `GET` typed by the user, with the lines of the chunk file. -/
  | userGet (chunkFile outputFile : String) (lines : List (UInt32 × HexHash))
  /-- A datagram from `src`, as it was decoded. -/
  | packet (src : SockaddrIn) (pack : Packet)
  | serverTimeout
  | clientTimeout

/-- One step of a peer. -/
def step (shahash : List UInt8 → BinHash) (s : State) : Event → Except Fault State
  | .userGet chunkFile outputFile lines => .ok (processGet s chunkFile outputFile lines)
  | .packet src pack =>
      match findPeer s src with
      | none => .ok s
      | some peer => receivePacket shahash s src peer pack
  | .serverTimeout => .ok (handleServerTimeout s)
  | .clientTimeout => .ok (handleClientTimeout s)

/-- **What a step is**: the work of one handler, or nothing when the sender is not known. -/
inductive Handled (shahash : List UInt8 → BinHash) (s : State) : Event → State → Prop
  | userGet (chunkFile outputFile : String) (lines : List (UInt32 × HexHash)) :
      Handled shahash s (.userGet chunkFile outputFile lines)
        (processGet s chunkFile outputFile lines)
  | serverTimeout : Handled shahash s .serverTimeout (handleServerTimeout s)
  | clientTimeout : Handled shahash s .clientTimeout (handleClientTimeout s)
  | stranger (src : SockaddrIn) (pack : Packet) (hp : findPeer s src = none) :
      Handled shahash s (.packet src pack) s
  | whohas (src : SockaddrIn) (pack : Packet) (peer : ℕ) (s' : State)
      (hp : findPeer s src = some peer) (ht : pack.type = .whohas)
      (h : receiveWHOHAS s pack peer = .ok s') : Handled shahash s (.packet src pack) s'
  | ihave (src : SockaddrIn) (pack : Packet) (peer : ℕ) (hp : findPeer s src = some peer)
      (ht : pack.type = .ihave) : Handled shahash s (.packet src pack) (receiveIHAVE s pack peer)
  | get (src : SockaddrIn) (pack : Packet) (peer : ℕ) (hp : findPeer s src = some peer)
      (ht : pack.type = .get) : Handled shahash s (.packet src pack) (receiveGET s pack peer)
  | data (src : SockaddrIn) (pack : Packet) (peer : ℕ) (s' : State)
      (hp : findPeer s src = some peer) (ht : pack.type = .data)
      (h : receiveDATA shahash s pack peer = .ok s') : Handled shahash s (.packet src pack) s'
  | ack (src : SockaddrIn) (pack : Packet) (peer : ℕ) (hp : findPeer s src = some peer)
      (ht : pack.type = .ack) : Handled shahash s (.packet src pack) (receiveACK s pack peer)
  | denied (src : SockaddrIn) (pack : Packet) (peer : ℕ) (hp : findPeer s src = some peer)
      (ht : pack.type = .denied) : Handled shahash s (.packet src pack) (receiveDENIED s peer)

theorem handled_of_step {shahash : List UInt8 → BinHash} {s s' : State} {e : Event}
    (h : step shahash s e = .ok s') : Handled shahash s e s' := by
  cases e with
  | userGet chunkFile outputFile lines => cases h; exact .userGet chunkFile outputFile lines
  | serverTimeout => cases h; exact .serverTimeout
  | clientTimeout => cases h; exact .clientTimeout
  | packet src pack =>
      simp only [step] at h
      cases hpeer : findPeer s src with
      | none =>
          rw [hpeer] at h
          cases h
          exact .stranger src pack hpeer
      | some peer =>
          have hsender : ∀ handle : ℕ → State, withSender s src handle = handle peer := by
            intro handle
            rw [withSender, hpeer]
          simp only [hpeer, receivePacket, hsender] at h
          cases ht : pack.type with
          | whohas => rw [ht] at h; exact .whohas src pack peer s' hpeer ht h
          | ihave => rw [ht] at h; cases h; exact .ihave src pack peer hpeer ht
          | get => rw [ht] at h; cases h; exact .get src pack peer hpeer ht
          | data => rw [ht] at h; exact .data src pack peer s' hpeer ht h
          | ack => rw [ht] at h; cases h; exact .ack src pack peer hpeer ht
          | denied => rw [ht] at h; cases h; exact .denied src pack peer hpeer ht
          | invalid b => rw [ht] at h; cases h

/-- A datagram that decodes to a packet is the event of that packet; any other does nothing. -/
theorem processInboundUdp_eq (shahash : List UInt8 → BinHash) (s : State) (src : SockaddrIn)
    (buf : ℕ → UInt8) :
    processInboundUdp shahash s src buf =
      match (deserializePacket buf).packet with
      | none => .ok s
      | some pack => step shahash s (.packet src pack) := by
  unfold processInboundUdp
  cases (deserializePacket buf).packet with
  | none => cases findPeer s src <;> rfl
  | some pack => rfl

theorem findPeer_lt {s : State} {src : SockaddrIn} {peer : ℕ} (h : findPeer s src = some peer) :
    peer < s.peers.next :=
  List.mem_range.1 (List.mem_of_find?_eq_some h)

end P2P
