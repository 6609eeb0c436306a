/-
**The state of a peer** (`peer.h`, `bt_parse.h`, `linkedlist.c`, `transfer.c`, and the senders of
`packet.c`).

A peer is at the same time a client and a server.  Chunks and peers are shared by pointer: a chunk
can be in the missing list, in the wanted list, in the have list and in a transfer at once, and the
one flag that says whether a peer is available is written by both sides.  Both therefore live in a
heap, and lists and transfers hold addresses.  The peers of the configuration keep the order in
which `config->peers` lists them: peer `0` is the first.

A linked list is a list, a node is a position in it.  What the program cannot foresee comes from two
streams: the readings of the clock, and the contents of memory it never initialised.

Main definitions:

* `P2P.State`, `P2P.Effect` — the state, and what a peer does to the outside world;
* `P2P.nodeFind` — `node_find`;
* `P2P.State.insertIncoming`, `P2P.State.deleteIncoming` and their outgoing twins — the two lists of
  transfers with `create_transfer` and `delete_transfer`;
* `P2P.State.sendPacketToPeer`, `P2P.State.sendPacketToAll`.

Main results:

* `P2P.nodeFind_eq_some_iff` — what `node_find` finds;
* `P2P.State.deleteIncoming_eq`, `P2P.State.deleteOutgoing_eq` — what deleting a node leaves.
-/

import P2PFileTransfer.FileImage
import P2PFileTransfer.Heap
import P2PFileTransfer.Packet
import P2PFileTransfer.Transfer

set_option relaxedAutoImplicit false
set_option autoImplicit false

namespace P2P

/-! ### Linked lists -/

/-- `node_find`: the first node whose data the comparison accepts, as its position and its data. -/
def nodeFind {α : Type*} (compare : α → Bool) : List α → Option (ℕ × α)
  | [] => none
  | a :: l => if compare a then some (0, a) else (nodeFind compare l).map fun n => (n.1 + 1, n.2)

theorem nodeFind_cons_of_false {α : Type*} {compare : α → Bool} {a : α} (h : compare a = false)
    (l : List α) :
    nodeFind compare (a :: l) = (nodeFind compare l).map fun n => (n.1 + 1, n.2) := by
  simp [nodeFind, h]

theorem nodeFind_eq_none_iff {α : Type*} {compare : α → Bool} {l : List α} :
    nodeFind compare l = none ↔ ∀ a ∈ l, compare a = false := by
  induction l with
  | nil => simp [nodeFind]
  | cons a l ih =>
      cases h : compare a with
      | false => simp [nodeFind, h, ih]
      | true => simp [nodeFind, h]

/-- **What `node_find` finds**: the first node that the comparison accepts. -/
theorem nodeFind_eq_some_iff {α : Type*} {compare : α → Bool} {l : List α} {i : ℕ} {a : α} :
    nodeFind compare l = some (i, a) ↔
      l[i]? = some a ∧ compare a = true ∧ ∀ b ∈ l.take i, compare b = false := by
  induction l generalizing i with
  | nil => simp [nodeFind]
  | cons b l ih =>
      cases h : compare b with
      | true =>
          simp only [nodeFind, h, if_true]
          cases i with
          | zero =>
              simp only [List.getElem?_cons_zero, Option.some.injEq, Prod.mk.injEq, true_and,
                List.take_zero, List.not_mem_nil, false_implies, implies_true, and_true]
              constructor
              · rintro rfl
                exact ⟨rfl, h⟩
              · exact fun hab => hab.1
          | succ i =>
              constructor
              · intro hab
                simp at hab
              · rintro ⟨-, -, hno⟩
                have hb := hno b (by simp)
                rw [h] at hb
                cases hb
      | false =>
          rw [nodeFind_cons_of_false h, Option.map_eq_some_iff]
          cases i with
          | zero =>
              constructor
              · rintro ⟨n, -, hn⟩
                simp at hn
              · rintro ⟨hab, ha, -⟩
                cases hab
                rw [h] at ha
                cases ha
          | succ i =>
              simp only [List.getElem?_cons_succ, List.take_succ_cons, List.forall_mem_cons, h,
                true_and]
              rw [← ih]
              constructor
              · rintro ⟨⟨j, c⟩, hj, hn⟩
                cases hn
                exact hj
              · intro hi
                exact ⟨(i, a), hi, rfl⟩

theorem mem_of_nodeFind {α : Type*} {compare : α → Bool} {l : List α} {i : ℕ} {a : α}
    (h : nodeFind compare l = some (i, a)) : a ∈ l :=
  List.mem_of_getElem? (nodeFind_eq_some_iff.1 h).1

/-- **What touching one node does to an image of the list.** -/
theorem map_modify_eq {α β : Type*} {g : α → β} {f : α → α} {k : β → β} {l : List α} {i : ℕ}
    (h : ∀ a, l[i]? = some a → g (f a) = k (g a)) :
    (l.modify i f).map g = (l.map g).modify i k := by
  refine List.ext_getElem? fun j => ?_
  rw [List.getElem?_map]
  by_cases hij : i = j
  · rw [← hij, List.getElem?_modify_eq, List.getElem?_modify_eq, List.getElem?_map]
    cases hi : l[i]? with
    | none => rfl
    | some a => exact congrArg some (h a hi)
  · rw [List.getElem?_modify_ne _ _ hij, List.getElem?_modify_ne _ _ hij, List.getElem?_map]

/-- A touch that the image does not show. -/
theorem map_modify_same {α β : Type*} {g : α → β} {f : α → α} {l : List α}
    (h : ∀ a, g (f a) = g a) (i : ℕ) : (l.modify i f).map g = l.map g := by
  rw [map_modify_eq (k := id) fun a _ => h a, List.modify_id]

/-! ### Peers, transfers, effects -/

/-- `struct sockaddr_in`. -/
structure SockaddrIn where
  sinAddr : UInt32
  sinPort : UInt16
  deriving DecidableEq

/-- The structure `bt_peer_t`.  Its timer and its count of timeouts are written and never read. -/
structure BtPeer where
  id : ℤ
  addr : SockaddrIn
  /-- The peer may be sent a new `GET`. -/
  available : ℕ

/-- What a peer does to the outside world. -/
inductive Effect where
  /-- A packet for the peer `dest`.  The hash of the chunk of the transfer that the packet was sent
  for is recorded beside it: it is not part of the datagram. -/
  | send (dest : ℕ) (pack : Packet) (about : Option BinHash)
  /-- An output file, for the chunk file of a `GET`; `chunks` are the chunks it was made of. -/
  | output (file chunkFile : String) (image : FileImage) (chunks : List Chunk)

/-- The state of a peer. -/
structure State where
  /-- `config->peers`. -/
  peers : Heap BtPeer
  /-- `config->identity`. -/
  identity : ℤ
  /-- `config->max_conn`. -/
  maxConn : ℤ
  chunks : Heap Chunk
  /-- The chunks the user requested. -/
  wanted : List ℕ
  /-- `have`: the chunks locally owned. -/
  haveList : List ℕ
  /-- `wanted - have`. -/
  missing : List ℕ
  /-- The `transfers` of `bt_client.c`. -/
  incoming : List Transfer
  /-- The `transfers` of `bt_server.c`. -/
  outgoing : List Transfer
  userGetChunkFile : String
  userOutputFilename : String
  /-- The readings of `millitime` to come. -/
  clock : ℕ → ℕ
  /-- The packets that uninitialised memory will hold. -/
  junk : ℕ → Packet
  /-- What was done so far. -/
  trace : List Effect

namespace State

/-- The hash of the chunk at `q`. -/
def binHash (s : State) (q : ℕ) : BinHash := (s.chunks.cell q).binHash

/-- The identifier of the peer at `p`. -/
def peerId (s : State) (p : ℕ) : ℤ := (s.peers.cell p).id

/-- `n` readings of the environment are used up. -/
def tick (s : State) (n : ℕ) : State :=
  { s with clock := fun i => s.clock (n + i), junk := fun i => s.junk (n + i) }

/-- Write the chunk at `q`. -/
def modifyChunk (s : State) (q : ℕ) (f : Chunk → Chunk) : State :=
  { s with chunks := s.chunks.modify q f }

/-- Write the flag of the peer at `p`. -/
def setAvailable (s : State) (p a : ℕ) : State :=
  { s with peers := s.peers.modify p fun b => { b with available := a } }

/-- `compare_transfer_by_peer_id`. -/
def compareTransferByPeerId (s : State) (peer : ℕ) (t : Transfer) : Bool :=
  s.peerId t.peer == s.peerId peer

/-- `compare_transfer_by_chunk_hash`. -/
def compareTransferByChunkHash (s : State) (hash : BinHash) (t : Transfer) : Bool :=
  compareChunkByBinHash (s.chunks.cell t.c) hash

/-! ### Sending -/

/-- `send_packet_to_peer`. -/
def sendPacketToPeer (s : State) (dest : ℕ) (pack : Packet) (about : Option BinHash) :
    State :=
  { s with trace := s.trace ++ [.send dest pack about] }

/-- `send_packet_to_all`: to everyone but the peer itself. -/
def sendPacketToAll (s : State) (pack : Packet) : State :=
  (List.range s.peers.next).foldl
    (fun s' p => if s.identity ≠ s.peerId p then s'.sendPacketToPeer p pack none else s') s

/-! ### The two lists of transfers -/

/-- `create_transfer` and `node_insert`, in the list of the client. -/
def insertIncoming (s : State) (peer q : ℕ) : State :=
  { (s.tick 1).setAvailable peer 0 with
    incoming := createTransfer peer q (s.clock 0) :: s.incoming }

/-- `node_delete` with `delete_transfer`, in the list of the client. -/
def deleteIncoming (s : State) (i : ℕ) : State :=
  match s.incoming[i]? with
  | none => s
  | some t => { s.setAvailable t.peer 1 with incoming := s.incoming.eraseIdx i }

/-- `create_transfer` and `node_insert`, in the list of the server. -/
def insertOutgoing (s : State) (t : Transfer) : State :=
  { (s.tick 1).setAvailable t.peer 0 with outgoing := t :: s.outgoing }

/-- `node_delete` with `delete_transfer`, in the list of the server. -/
def deleteOutgoing (s : State) (i : ℕ) : State :=
  match s.outgoing[i]? with
  | none => s
  | some t => { s.setAvailable t.peer 1 with outgoing := s.outgoing.eraseIdx i }

/-- The client's transfer with a peer. -/
def findIncoming (s : State) (peer : ℕ) : Option (ℕ × Transfer) :=
  nodeFind (s.compareTransferByPeerId peer) s.incoming

/-- The server's transfer with a peer. -/
def findOutgoing (s : State) (peer : ℕ) : Option (ℕ × Transfer) :=
  nodeFind (s.compareTransferByPeerId peer) s.outgoing

/-- `millitime(&(transfer->timestamp))`, for a transfer of the client. -/
def stampIncoming (s : State) (i : ℕ) : State :=
  { s.tick 1 with incoming := s.incoming.modify i fun t => { t with timestamp := s.clock 0 } }

/-- `++(transfer->cctrl.timeout_count)`, for a transfer of the client. -/
def countIncoming (s : State) (i : ℕ) : State :=
  { s with incoming := s.incoming.modify i fun t =>
      { t with cctrl := { t.cctrl with timeoutCount := u32 (1 + t.cctrl.timeoutCount) } } }

/-! ### What was found -/

@[simp] theorem compareTransferByPeerId_iff {s : State} {peer : ℕ} {t : Transfer} :
    s.compareTransferByPeerId peer t = true ↔ s.peerId t.peer = s.peerId peer := by
  simp [compareTransferByPeerId]

@[simp] theorem compareTransferByChunkHash_iff {s : State} {hash : BinHash} {t : Transfer} :
    s.compareTransferByChunkHash hash t = true ↔ s.binHash t.c = hash :=
  compareChunkByBinHash_iff

theorem deleteIncoming_eq {s : State} {i : ℕ} {t : Transfer} (h : s.incoming[i]? = some t) :
    s.deleteIncoming i = { s.setAvailable t.peer 1 with incoming := s.incoming.eraseIdx i } := by
  unfold deleteIncoming
  rw [h]

theorem chunks_deleteIncoming (s : State) (i : ℕ) : (s.deleteIncoming i).chunks = s.chunks := by
  unfold deleteIncoming
  split <;> rfl

theorem deleteOutgoing_eq {s : State} {i : ℕ} {t : Transfer} (h : s.outgoing[i]? = some t) :
    s.deleteOutgoing i = { s.setAvailable t.peer 1 with outgoing := s.outgoing.eraseIdx i } := by
  unfold deleteOutgoing
  rw [h]

theorem findOutgoing_getElem? {s : State} {peer i : ℕ} {t : Transfer}
    (h : s.findOutgoing peer = some (i, t)) :
    s.outgoing[i]? = some t ∧ s.peerId t.peer = s.peerId peer := by
  obtain ⟨hi, hc, -⟩ := nodeFind_eq_some_iff.1 h
  exact ⟨hi, compareTransferByPeerId_iff.1 hc⟩

end State

end P2P
