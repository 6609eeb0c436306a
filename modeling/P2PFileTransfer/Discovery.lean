/-
**Finding out who owns what** (`send_WHOHAS`, `receive_WHOHAS`, `send_IHAVE`, `receive_IHAVE`).

A client asks everyone for the hashes of its missing chunks, in packets of at most 74 hashes.  A
server answers each packet with the hashes that it owns, and the client puts the server in the lists
of the missing chunks that the answer names.  Every datagram may be late, come more than once and
come in any order; in between the two peers may do anything else that starts no request, completes
no chunk and declares no peer dead.

When every question and every answer has arrived at least once, the server is in the list of a
missing chunk exactly if it owns a chunk with that hash, and it is there once.

Main definitions:

* `P2P.Parties`, `P2P.Exchange`, `P2P.Exchange.Label`, `P2P.Exchange.step` — a client, a server and
  what was sent between them;
* `P2P.Event.Calm` — what may happen in between;
* `P2P.State.listing` — the entries of a peer in the list of a chunk;
* `P2P.Exchange.Good` — the invariant.

Main results:

* `P2P.mem_ownedHashes_iff`, `P2P.length_ownedHashes_le` — **what a server answers**, and that the
  answer fits one packet;
* `P2P.listing_offered`, `P2P.Event.Calm.listing` — **what an answer does to the lists**, and that
  nothing else does anything;
* `P2P.discovery` — **discovery is sound and complete**.
-/

import P2PFileTransfer.Machine
import P2PFileTransfer.PacketRoundTrip
import P2PFileTransfer.Silence

set_option relaxedAutoImplicit false
set_option autoImplicit false

namespace P2P

/-! ### Lists of hashes on the wire -/

/-- A list of hashes that fits a packet is framed. -/
theorem framed_of_hashes {p : Packet} {n : ℕ} (hn : n ≤ maxHashInPacket)
    (ht : p.type = .whohas ∨ p.type = .ihave ∨ p.type = .get)
    (hhl : p.headerLen = UInt16.ofNat standardHeaderLen)
    (hpl : p.packetLen = UInt16.ofNat (standardHeaderLen + headerPadLen + n * binHashSize))
    (hnum : p.hashNum = UInt8.ofNat n) : p.Framed := by
  have hmax : maxHashInPacket = 74 := rfl
  have hsize : binHashSize = 20 := rfl
  have hcount : p.hashNum.toNat = n := by rw [hnum, length_toUInt8_of_le hn]
  refine ⟨by rw [hhl]; rfl, Or.inl ⟨ht, hcount ▸ hn, ?_⟩⟩
  rw [hpl, hcount, UInt16.toNat_ofNat', Nat.mul_comm binHashSize]
  refine Nat.mod_eq_of_lt ?_
  rw [hsize, standardHeaderLen, headerPadLen]
  omega

/-- The hashes of a packet that was built for the list `l`. -/
theorem hashes_of_list {p : Packet} {l : List BinHash} (hn : l.length ≤ maxHashInPacket)
    (hnum : p.hashNum = UInt8.ofNat l.length) (hl : ∀ i, ∃ d, p.hashList i = l.getD i d) :
    p.hashes = l := by
  have hcount : p.hashNum.toNat = l.length := by rw [hnum, length_toUInt8_of_le hn]
  refine List.ext_getElem? fun i => ?_
  rw [Packet.hashes, hcount, List.getElem?_map]
  by_cases hi : i < l.length
  · obtain ⟨d, hd⟩ := hl i
    rw [List.getElem?_range hi, Option.map_some, hd, List.getD_eq_getElem?_getD,
      List.getElem?_eq_getElem hi, Option.getD_some]
  · rw [List.getElem?_eq_none (by rw [List.length_range]; omega),
      List.getElem?_eq_none (by omega)]
    rfl

theorem framed_whohasPacket {l : List BinHash} (h : l.length ≤ maxHashInPacket) :
    (whohasPacket l).Framed :=
  framed_of_hashes h (Or.inl rfl) rfl rfl rfl

theorem hashes_whohasPacket {l : List BinHash} (h : l.length ≤ maxHashInPacket) :
    (whohasPacket l).hashes = l :=
  hashes_of_list h rfl fun _ => ⟨_, rfl⟩

theorem framed_ihavePacket (junk : Packet) {l : List BinHash} (h : l.length ≤ maxHashInPacket) :
    (ihavePacket junk l).Framed :=
  framed_of_hashes h (Or.inr (Or.inl rfl)) rfl rfl rfl

theorem hashes_ihavePacket (junk : Packet) {l : List BinHash} (h : l.length ≤ maxHashInPacket) :
    (ihavePacket junk l).hashes = l :=
  hashes_of_list h rfl fun _ => ⟨_, rfl⟩

/-- **What a datagram brings**: a packet of the same type with the same hashes. -/
theorem arrives {p : Packet} (h : p.Framed) (ht : p.type = .whohas ∨ p.type = .ihave)
    (rest : ℕ → UInt8) :
    ∃ q, (deserializePacket (Block.memory (serializePacket p) rest)).packet = some q ∧
      q.type = p.type ∧ q.hashes = p.hashes := by
  obtain ⟨q, hq, hqt, -, -, -, -, hnum, hlist⟩ :=
    hashes_serializePacket h rest (ht.imp_right Or.inl)
  refine ⟨q, hq, hqt, ?_⟩
  rw [Packet.hashes, Packet.hashes, hnum]
  exact List.map_congr_left fun i hi => hlist i (List.mem_range.1 hi)

/-! ### The answers of a server -/

theorem ownedHashes_eq (s : State) (pack : Packet) : ownedHashes s pack =
    pack.hashes.flatMap fun hash =>
      (s.haveList.filter fun q => compareBinHash (s.binHash q) hash).map s.binHash := by
  rw [ownedHashes, Packet.hashes, List.flatMap_map]

/-- **What a server answers**: the hashes that were asked for and that it owns. -/
theorem mem_ownedHashes_iff {s : State} {pack : Packet} {hash : BinHash} :
    hash ∈ ownedHashes s pack ↔ hash ∈ pack.hashes ∧ s.Owns hash := by
  rw [ownedHashes_eq, List.mem_flatMap]
  constructor
  · rintro ⟨asked, hasked, hmem⟩
    obtain ⟨q, hq, rfl⟩ := List.mem_map.1 hmem
    obtain ⟨hown, heq⟩ := List.mem_filter.1 hq
    rw [compareBinHash_iff.1 heq]
    exact ⟨hasked, q, hown, compareBinHash_iff.1 heq⟩
  · rintro ⟨hasked, q, hown, rfl⟩
    exact ⟨_, hasked, List.mem_map.2 ⟨q, List.mem_filter.2 ⟨hown, compareBinHash_iff.2 rfl⟩, rfl⟩⟩

/-- **The answer is no longer than the question** when no hash is owned twice. -/
theorem length_ownedHashes_le {s : State} (h : (s.haveList.map s.binHash).Nodup) (pack : Packet) :
    (ownedHashes s pack).length ≤ pack.hashes.length := by
  have hone : ∀ hash, ((s.haveList.filter fun q => compareBinHash (s.binHash q) hash).map
      s.binHash).length ≤ 1 := by
    intro hash
    have hcount := List.nodup_iff_count_le_one.1 h hash
    rw [List.count, List.countP_map] at hcount
    rw [List.length_map, ← List.countP_eq_length_filter]
    refine le_of_eq_of_le (List.countP_congr fun q _ => ?_) hcount
    rw [compareBinHash_iff, Function.comp_apply, beq_iff_eq]
  rw [ownedHashes_eq]
  generalize pack.hashes = hashes
  induction hashes with
  | nil => exact Nat.le_refl _
  | cons hash hashes ih =>
      rw [List.flatMap_cons, List.length_append, List.length_cons, Nat.add_comm]
      exact Nat.add_le_add ih (hone hash)

/-! ### The entries of a peer -/

/-- The entries of the list of the chunk at `q` that have the identifier of the peer. -/
def State.listing (s : State) (peer q : ℕ) : List ℕ :=
  (s.owners q).filter fun p => s.peerId p == s.peerId peer

theorem listing_congr {s s' : State} {q : ℕ} (hid : ∀ p, s'.peerId p = s.peerId p)
    (hown : s'.owners q = s.owners q) (peer : ℕ) : s'.listing peer q = s.listing peer q := by
  rw [State.listing, State.listing, hown, hid]
  exact List.filter_congr fun p _ => by rw [hid]

theorem listing_eq_nil_iff {s : State} {peer q : ℕ} :
    s.listing peer q = [] ↔ s.peerId peer ∉ (s.owners q).map s.peerId := by
  rw [State.listing, List.filter_eq_nil_iff, List.mem_map]
  simp only [beq_iff_eq, not_exists, not_and]

/-- An offer of another peer. -/
theorem listing_offered_of_ne {s : State} {pack : Packet} {p peer q : ℕ}
    (hne : s.binHash q ∈ pack.hashes → s.peerId p ≠ s.peerId peer) :
    (s.offered pack p).listing peer q = s.listing peer q := by
  have hids : (s.offered pack p).peerId = s.peerId := funext (frame_offered s pack p).peerId
  rw [State.listing, owners_offered, State.ownersWith, hids, State.listing]
  split_ifs with hnew
  · rw [List.filter_cons_of_neg]
    rw [beq_iff_eq]
    exact hne hnew.1.2
  · rfl

/-- **What an answer does to the lists**: the peer is put in once. -/
theorem listing_offered (s : State) (pack : Packet) (peer q : ℕ) :
    (s.offered pack peer).listing peer q =
      if (q ∈ s.missing ∧ s.binHash q ∈ pack.hashes) ∧ s.listing peer q = [] then [peer]
      else s.listing peer q := by
  have hids : (s.offered pack peer).peerId = s.peerId := funext (frame_offered s pack peer).peerId
  rw [State.listing, owners_offered, State.ownersWith, hids]
  simp only [← listing_eq_nil_iff]
  split_ifs with hnew
  · rw [List.filter_cons, if_pos (beq_self_eq_true _)]
    exact congrArg (peer :: ·) hnew.2
  · rfl

/-! ### What may happen in between -/

/-- The event is a piece that completes its chunk. -/
def Event.CompletesChunk (s : State) : Event → Prop
  | .packet src pack => ∃ peer i t, findPeer s src = some peer ∧ pack.type = .data ∧
      s.findIncoming peer = some (i, t) ∧ s.Completes pack t = true
  | _ => False

/-- **What may happen in between**: the event is no request of the user, completes no chunk and
declares no peer dead. -/
structure Event.Calm (s : State) (e : Event) : Prop where
  noGet : e.NoGet
  noCompletion : ¬ e.CompletesChunk s
  noDeath : ∀ p, ¬ DeclaresDead s e p

/-- What neither side of an exchange changes. -/
structure Steady (s s' : State) : Prop where
  haveList : s'.haveList = s.haveList
  missing : s'.missing = s.missing
  binHash : ∀ q, s'.binHash q = s.binHash q
  peerId : ∀ p, s'.peerId p = s.peerId p
  findPeer : ∀ src, findPeer s' src = findPeer s src

namespace Steady

variable {s s' s'' : State}

theorem of_frame (h : Frame s s') : Steady s s' :=
  ⟨h.haveList, h.missing, h.binHash, h.peerId, h.findPeer⟩

theorem trans (h : Steady s s') (h' : Steady s' s'') : Steady s s'' :=
  ⟨h'.haveList.trans h.haveList, h'.missing.trans h.missing,
    fun q => (h'.binHash q).trans (h.binHash q), fun p => (h'.peerId p).trans (h.peerId p),
    fun src => (h'.findPeer src).trans (h.findPeer src)⟩

theorem owns_iff (h : Steady s s') {hash : BinHash} : s'.Owns hash ↔ s.Owns hash := by
  simp only [State.Owns, h.haveList, h.binHash]

/-- A piece is stored and acknowledged. -/
theorem validating {q : ℕ} (peer : ℕ) {pack : Packet} {c : Chunk}
    (hc : storeData pack (s.chunks.cell q) = .ok c) :
    Steady s (s.validating q c peer) ∧ ∀ r, (s.validating q c peer).owners r = s.owners r := by
  have hsame : c.binHash = (s.chunks.cell q).binHash ∧ c.peer = (s.chunks.cell q).peer := by
    obtain ⟨-, ⟨-, rfl⟩ | ⟨-, -, -, rfl⟩⟩ := storeData_cases hc <;> exact ⟨rfl, rfl⟩
  have hstore : Steady s (s.modifyChunk q fun _ => c) :=
    ⟨rfl, rfl, (Fades.modifyChunk s q (f := fun _ => c) hsame.1).binHash, fun _ => rfl,
      fun _ => rfl⟩
  refine ⟨hstore.trans (of_frame (moves_sendACK _ peer _ : Moves Kind.Any _ _).frame), ?_⟩
  intro r
  rw [State.owners, State.validating, (sendACK_same _ peer _).1, State.modifyChunk,
    Heap.cell_modify]
  split
  · rename_i hrq
    rw [hsame.2, hrq]
    rfl
  · rfl

end Steady

/-- A piece that does not complete its chunk. -/
theorem receiveDATA_of_not_completes {shahash : List UInt8 → BinHash} {s s' : State} {pack : Packet}
    {peer : ℕ} (hr : receiveDATA shahash s pack peer = .ok s')
    (hnot : ∀ i t, s.findIncoming peer = some (i, t) → s.Completes pack t ≠ true) :
    Steady s s' ∧ ∀ q, s'.owners q = s.owners q := by
  obtain ⟨-, rfl⟩ | ⟨i, t, c, hfind, hstore, s₁, rfl, hend⟩ := receiveDATA_cases hr
  · exact ⟨.of_frame (.refl s'), fun _ => rfl⟩
  · rcases hend with ⟨-, rfl⟩ | ⟨hall, -⟩
    · exact Steady.validating peer hstore
    · refine absurd ?_ (hnot i t hfind)
      rw [State.Completes, hstore]
      exact hall

/-- **A timeout handler that finds nobody dead leaves the lists alone.** -/
theorem owners_handleClientTimeout {s : State}
    (halive : ∀ t, (t, Verdict.dead) ∉ s.clientFindings) {q : ℕ} (hq : q ∈ s.missing) :
    (handleClientTimeout s).owners q = s.owners q := by
  have hm : s.missing ≠ [] := List.ne_nil_of_mem hq
  rw [State.clientFindings, if_neg hm] at halive
  have hloop : (clientTimeoutLoop s.incoming.length 0 s).owners q = s.owners q := by
    refine clientTimeoutLoop_induction (P := fun _ s found s' =>
      (∀ t, (t, Verdict.dead) ∉ found) → q ∈ s.missing → s'.owners q = s.owners q)
      (fun _ _ _ _ => rfl) ?_ s.incoming.length 0 s halive hq
    intro i s t found s' hi ih halive hq
    obtain ⟨hf, howners⟩ := owners_clientTimeoutPass hi
    rw [ih (fun u hu => halive u (List.mem_cons_of_mem _ hu)) (hf.missing ▸ hq), howners q hq,
      if_neg]
    intro hdead
    exact halive t (hdead ▸ List.mem_cons_self ..)
  have hget : (getChunkData (clientTimeoutLoop s.incoming.length 0 s)).owners q = s.owners q := by
    rw [State.owners, chunks_getChunkData]
    exact hloop
  rw [handleClientTimeout, if_neg hm]
  dsimp only
  split
  · rw [State.owners, chunks_sendWHOHAS]
    exact hget
  · exact hget

namespace Event.Calm

variable {shahash : List UInt8 → BinHash} {s s' : State} {e : Event}

/-- **A calm step changes nothing that the exchange looks at.** -/
theorem steady (h : e.Calm s) (he : step shahash s e = .ok s') : Steady s s' := by
  rcases step_split he with ⟨_, _, _, rfl, -⟩ | ⟨src, pack, peer, rfl, hp, ht, hr⟩ | ⟨-, hmoves⟩
  · exact absurd h.noGet id
  · refine (receiveDATA_of_not_completes hr fun i t hfind hcompletes => ?_).1
    exact h.noCompletion ⟨peer, i, t, hp, ht, hfind, hcompletes⟩
  · exact .of_frame hmoves.frame

/-- **The entries of a peer stay** in a calm step that is no offer of the peer. -/
theorem listing (h : e.Calm s) (he : step shahash s e = .ok s') {peer q : ℕ} (hq : q ∈ s.missing)
    (hoffer : ∀ p hash, e.Offers s p hash → s.peerId p ≠ s.peerId peer) :
    s'.listing peer q = s.listing peer q := by
  have hid := (h.steady he).peerId
  rcases ClientKept.of_handled (handled_of_step he) with ⟨hk, -⟩ | ⟨_, _, _, rfl, -⟩ | ⟨rfl, rfl⟩ |
    ⟨src, pack, p, rfl, hp, ⟨ht, rfl⟩ | ⟨-, rfl⟩ | ⟨ht, hr⟩⟩
  · refine listing_congr hid ?_ peer
    rw [State.owners, hk.chunks]
    rfl
  · exact absurd h.noGet id
  · refine listing_congr hid (owners_handleClientTimeout (fun t ht => ?_) hq) peer
    exact h.noDeath t.peer ⟨rfl, t, ht, rfl⟩
  · rw [receiveIHAVE_eq] at hid ⊢
    refine (listing_congr (s := s.offered pack p) ?_ ?_ peer).trans
      (listing_offered_of_ne fun hlisted => hoffer p _ ⟨hp, ht, hlisted⟩)
    · exact (moves_getChunkData trivial _ : Moves Kind.Any _ _).frame.peerId
    · rw [State.owners, chunks_getChunkData]
      rfl
  · refine listing_congr hid ?_ peer
    rw [receiveDENIED]
    split
    · rfl
    · rw [State.owners, State.chunks_deleteIncoming]
      rfl
  · refine listing_congr hid ((receiveDATA_of_not_completes hr fun i t hfind hcompletes => ?_).2 q)
      peer
    exact h.noCompletion ⟨p, i, t, hp, ht, hfind, hcompletes⟩

end Event.Calm

/-! ### The exchange -/

/-- How the two sides know each other: by address, and by the place in `config->peers`. -/
structure Parties where
  clientAddr : SockaddrIn
  serverAddr : SockaddrIn
  /-- The client, among the peers of the server. -/
  client : ℕ
  /-- The server, among the peers of the client. -/
  server : ℕ

/-- The packets for the peer at `dest`. -/
def sentTo (dest : ℕ) (es : List Effect) : List Packet :=
  es.filterMap fun
    | .send p pack _ => if p = dest then some pack else none
    | .output _ _ _ _ => none

/-- A client that has asked, a server, and what was sent between them: it stays in flight, and may
arrive at any time and any number of times. -/
structure Exchange where
  client : State
  server : State
  /-- The `WHOHAS` packets for the server. -/
  questions : List Packet
  /-- The replies to them. -/
  answers : List Packet

namespace Exchange

/-- What happens: a question or an answer arrives, in memory that holds `rest` behind the datagram,
or one of the sides does something else. -/
inductive Label where
  | question (k : ℕ) (rest : ℕ → UInt8)
  | answer (k : ℕ) (rest : ℕ → UInt8)
  | client (e : Event)
  | server (e : Event)

/-- The client has run `send_WHOHAS` once. -/
def start (n : Parties) (c s : State) : Exchange where
  client := sendWHOHAS c
  server := s
  questions := sentTo n.server ((sendWHOHAS c).trace.drop c.trace.length)
  answers := []

/-- The server has worked on a question, and what it sends to the client is an answer. -/
def reply (n : Parties) (x : Exchange) (s : State) : Exchange where
  client := x.client
  server := s
  questions := x.questions
  answers := x.answers ++ sentTo n.client (s.trace.drop x.server.trace.length)

/-- One step. -/
def step (shahash : List UInt8 → BinHash) (n : Parties) (x : Exchange) :
    Label → Except Fault Exchange
  | .question k rest =>
      match x.questions[k]? with
      | none => .ok x
      | some pack =>
          (processInboundUdp shahash x.server n.clientAddr
            (Block.memory (serializePacket pack) rest)).map (reply n x)
  | .answer k rest =>
      match x.answers[k]? with
      | none => .ok x
      | some pack =>
          (processInboundUdp shahash x.client n.serverAddr
            (Block.memory (serializePacket pack) rest)).map fun c => { x with client := c }
  | .client e => (P2P.step shahash x.client e).map fun c => { x with client := c }
  | .server e => (P2P.step shahash x.server e).map fun s => { x with server := s }

/-- **What may happen**: a datagram that arrives was sent, and everything else is calm and no offer
in the name of the server. -/
def Meanwhile (n : Parties) (x : Exchange) : Label → Prop
  | .question k _ => k < x.questions.length
  | .answer k _ => k < x.answers.length
  | .client e => e.Calm x.client ∧
      ∀ p hash, e.Offers x.client p hash → x.client.peerId p ≠ x.client.peerId n.server
  | .server e => e.Calm x.server

/-- **What is assumed** of the client `c` and the server `s` before. -/
structure Setting (n : Parties) (c s : State) : Prop where
  /-- Datagrams of the server are attributed to it. -/
  server : findPeer c n.serverAddr = some n.server
  /-- Datagrams of the client are attributed to it. -/
  client : findPeer s n.clientAddr = some n.client
  /-- The server is another peer. -/
  other : c.identity ≠ c.peerId n.server
  /-- The server owns no hash twice. -/
  distinct : (s.haveList.map s.binHash).Nodup
  /-- The server is in no list. -/
  unknown : ∀ q ∈ c.missing, c.peerId n.server ∉ (c.owners q).map c.peerId

/-- An answer that lists the hash has arrived. -/
def Heard (es : List Label) (answers : List Packet) (hash : BinHash) : Prop :=
  ∃ k rest pack, Label.answer k rest ∈ es ∧ answers[k]? = some pack ∧ hash ∈ pack.hashes

/-- **The invariant**, after the steps `es` from the client `c` and the server `s`. -/
structure Good (n : Parties) (c s : State) (es : List Label) (x : Exchange) : Prop where
  client : Steady c x.client
  server : Steady s x.server
  questions : x.questions = (hashBatches (c.missing.map c.binHash) []).map whohasPacket
  answers : ∀ pack ∈ x.answers, pack.Framed ∧ pack.type = .ihave ∧
    ∀ hash ∈ pack.hashes, s.Owns hash
  sent : ∀ k rest, Label.answer k rest ∈ es → k < x.answers.length
  answered : ∀ k rest pack, Label.question k rest ∈ es → x.questions[k]? = some pack →
    ∀ hash ∈ pack.hashes, s.Owns hash → ∃ answer ∈ x.answers, hash ∈ answer.hashes
  heard : ∀ q ∈ c.missing,
    Heard es x.answers (c.binHash q) ∧ x.client.listing n.server q = [n.server] ∨
      ¬ Heard es x.answers (c.binHash q) ∧ x.client.listing n.server q = []

end Exchange

/-! ### What a delivery does -/

theorem Packet.Framed.length_hashes_le {p : Packet} (h : p.Framed)
    (ht : p.type = .whohas ∨ p.type = .ihave) : p.hashes.length ≤ maxHashInPacket := by
  rw [Packet.hashes, List.length_map, List.length_range]
  rcases h.payload with ⟨-, hle, -⟩ | ⟨hd, -⟩ | ⟨ha, -⟩
  · exact hle
  · rw [hd] at ht
    simp at ht
  · rw [ha] at ht
    simp at ht

/-- **A question is answered.** -/
theorem server_answers (shahash : List UInt8 → BinHash) {s : State} {src : SockaddrIn} {peer : ℕ}
    (hp : findPeer s src = some peer) (hdistinct : (s.haveList.map s.binHash).Nodup) {p : Packet}
    (h : p.Framed) (ht : p.type = .whohas) (rest : ℕ → UInt8) :
    ∃ q, q.hashes = p.hashes ∧ (ownedHashes s q).length ≤ maxHashInPacket ∧
      processInboundUdp shahash s src (Block.memory (serializePacket p) rest) =
        .ok (s.sendOffer peer (ownedHashes s q)) := by
  obtain ⟨q, hq, hqt, hhashes⟩ := arrives h (Or.inl ht) rest
  have hlen : (ownedHashes s q).length ≤ maxHashInPacket := by
    refine (length_ownedHashes_le hdistinct q).trans ?_
    rw [hhashes]
    exact h.length_hashes_le (Or.inl ht)
  refine ⟨q, hhashes, hlen, ?_⟩
  rw [processInboundUdp, hp, hq]
  dsimp only
  rw [receivePacket, hqt, ht]
  dsimp only
  rw [receiveWHOHAS_of_le _ hlen]

/-- **An answer is heard.** -/
theorem client_hears (shahash : List UInt8 → BinHash) {s : State} {src : SockaddrIn} {peer : ℕ}
    (hp : findPeer s src = some peer) {p : Packet} (h : p.Framed) (ht : p.type = .ihave)
    (rest : ℕ → UInt8) :
    ∃ q, q.hashes = p.hashes ∧
      processInboundUdp shahash s src (Block.memory (serializePacket p) rest) =
        .ok (receiveIHAVE s q peer) := by
  obtain ⟨q, hq, hqt, hhashes⟩ := arrives h (Or.inr ht) rest
  refine ⟨q, hhashes, ?_⟩
  rw [processInboundUdp, hp, hq]
  dsimp only
  rw [receivePacket, hqt, ht]
  dsimp only
  rw [withSender, hp]

/-- One packet for each in the list. -/
theorem sentTo_map {l : List ℕ} (h : l.Nodup) (dest : ℕ) (pack : Packet) :
    sentTo dest (l.map fun p => .send p pack none) = if dest ∈ l then [pack] else [] := by
  induction l with
  | nil => rfl
  | cons p l ih =>
      obtain ⟨hp, hl⟩ := List.nodup_cons.1 h
      rw [List.map_cons, sentTo, List.filterMap_cons, ← sentTo, ih hl]
      by_cases hpd : p = dest
      · simp [hpd, hpd ▸ hp]
      · simp [hpd, Ne.symm hpd]

/-- **What one peer is asked**: one packet a batch, if it is among those that are asked. -/
theorem sentTo_asks (s : State) (dest : ℕ) (batches : List (List BinHash)) :
    sentTo dest (batches.flatMap s.asks) =
      if dest ∈ s.audience then batches.map whohasPacket else [] := by
  have hnodup : s.audience.Nodup := List.nodup_range.filter _
  induction batches with
  | nil => rw [List.flatMap_nil, List.map_nil, ite_self, sentTo, List.filterMap_nil]
  | cons batch batches ih =>
      rw [List.flatMap_cons, sentTo, List.filterMap_append, ← sentTo, ← sentTo, ih, State.asks,
        sentTo_map hnodup, List.map_cons]
      split_ifs <;> rfl

/-- **The questions**: one packet a batch. -/
theorem Exchange.questions_start {n : Parties} {c s : State} (h : Setting n c s) :
    (start n c s).questions = (hashBatches (c.missing.map c.binHash) []).map whohasPacket := by
  have hmem : n.server ∈ c.audience :=
    List.mem_filter.2 ⟨List.mem_range.2 (findPeer_lt h.server), decide_eq_true h.other⟩
  rw [start, sendWHOHAS_eq]
  dsimp only
  rw [List.drop_left, sentTo_asks, if_pos hmem]

/-! ### The invariant -/

namespace Exchange

variable {shahash : List UInt8 → BinHash} {n : Parties} {c s : State} {es : List Label}
  {x x' : Exchange}

theorem exists_of_map_ok {α β : Type*} {r : Except Fault α} {f : α → β} {b : β}
    (h : r.map f = .ok b) : ∃ a, r = .ok a ∧ b = f a := by
  cases r with
  | error e => cases h
  | ok a =>
      cases h
      exact ⟨a, rfl, rfl⟩

/-- Nothing is heard when a step is no answer. -/
theorem heard_concat_iff {l : Label} (hl : ∀ k rest, l ≠ .answer k rest) {answers new : List Packet}
    (hsent : ∀ k rest, Label.answer k rest ∈ es → k < answers.length) (hash : BinHash) :
    Heard (es ++ [l]) (answers ++ new) hash ↔ Heard es answers hash := by
  have hold : ∀ k rest, Label.answer k rest ∈ es ++ [l] ↔ Label.answer k rest ∈ es := by
    intro k rest
    rw [List.mem_append, List.mem_singleton]
    exact or_iff_left fun h => hl k rest h.symm
  constructor
  · rintro ⟨k, rest, pack, hk, hpack, hhash⟩
    rw [hold] at hk
    rw [List.getElem?_append_left (hsent k rest hk)] at hpack
    exact ⟨k, rest, pack, hk, hpack, hhash⟩
  · rintro ⟨k, rest, pack, hk, hpack, hhash⟩
    refine ⟨k, rest, pack, (hold k rest).2 hk, ?_, hhash⟩
    rw [List.getElem?_append_left (hsent k rest hk)]
    exact hpack

/-- What is heard when an answer arrives. -/
theorem heard_concat_answer_iff {k : ℕ} {rest : ℕ → UInt8} {answers : List Packet} {pack : Packet}
    (hpack : answers[k]? = some pack) (hash : BinHash) :
    Heard (es ++ [.answer k rest]) answers hash ↔ Heard es answers hash ∨ hash ∈ pack.hashes := by
  constructor
  · rintro ⟨j, rest', pack', hj, hpack', hhash⟩
    rcases List.mem_append.1 hj with hj | hj
    · exact Or.inl ⟨j, rest', pack', hj, hpack', hhash⟩
    · cases List.mem_singleton.1 hj
      rw [hpack] at hpack'
      cases hpack'
      exact Or.inr hhash
  · rintro (⟨j, rest', pack', hj, hpack', hhash⟩ | hhash)
    · exact ⟨j, rest', pack', List.mem_append_left _ hj, hpack', hhash⟩
    · exact ⟨k, rest, pack, List.mem_append_right _ (List.mem_singleton.2 rfl), hpack, hhash⟩

namespace Good

/-- **The invariant at the start.** -/
theorem initial (h : Setting n c s) : Good n c s [] (start n c s) where
  client := .of_frame (moves_sendWHOHAS c : Moves Kind.Any _ _).frame
  server := .of_frame (.refl s)
  questions := questions_start h
  answers := fun _ hmem => absurd hmem List.not_mem_nil
  sent := fun _ _ hmem => absurd hmem List.not_mem_nil
  answered := fun _ _ _ hmem => absurd hmem List.not_mem_nil
  heard := by
    intro q hq
    refine Or.inr ⟨fun ⟨_, _, _, hmem, _⟩ => absurd hmem List.not_mem_nil, ?_⟩
    have howners : (sendWHOHAS c).owners q = c.owners q := by
      rw [State.owners, chunks_sendWHOHAS]
      rfl
    rw [← listing_eq_nil_iff.2 (h.unknown q hq)]
    exact listing_congr (moves_sendWHOHAS c : Moves Kind.Any _ _).frame.peerId howners n.server

/-- A step that leaves the packets in flight, and the entries of the server. -/
theorem quiet (h : Good n c s es x) {l : Label} (hq : ∀ k rest, l ≠ .question k rest)
    (ha : ∀ k rest, l ≠ .answer k rest) (hclient : Steady c x'.client)
    (hserver : Steady s x'.server) (hquestions : x'.questions = x.questions)
    (hanswers : x'.answers = x.answers)
    (hlisting : ∀ q ∈ c.missing, x'.client.listing n.server q = x.client.listing n.server q) :
    Good n c s (es ++ [l]) x' where
  client := hclient
  server := hserver
  questions := hquestions.trans h.questions
  answers := hanswers ▸ h.answers
  sent := by
    intro k rest hk
    rw [hanswers]
    rcases List.mem_append.1 hk with hk | hk
    · exact h.sent k rest hk
    · exact absurd (List.mem_singleton.1 hk).symm (ha k rest)
  answered := by
    intro k rest pack hk
    rw [hquestions, hanswers]
    rcases List.mem_append.1 hk with hk | hk
    · exact h.answered k rest pack hk
    · exact absurd (List.mem_singleton.1 hk).symm (hq k rest)
  heard := by
    intro q hq'
    have hiff : Heard (es ++ [l]) (x.answers ++ []) (c.binHash q) ↔
        Heard es x.answers (c.binHash q) := heard_concat_iff ha h.sent _
    rw [List.append_nil] at hiff
    rw [hanswers, hiff, hlisting q hq']
    exact h.heard q hq'

/-- The questions are lists of hashes that fit a packet. -/
theorem framed_question (h : Good n c s es x) {k : ℕ} {pack : Packet}
    (hk : x.questions[k]? = some pack) : pack.Framed ∧ pack.type = .whohas := by
  have hmem := List.mem_of_getElem? hk
  rw [h.questions] at hmem
  obtain ⟨batch, hbatch, rfl⟩ := List.mem_map.1 hmem
  exact ⟨framed_whohasPacket (length_le_of_mem_hashBatches (by decide) hbatch), rfl⟩

/-- **A question arrives.** -/
theorem question (h : Good n c s es x) (hset : Setting n c s) {k : ℕ}
    (hk : k < x.questions.length) (rest : ℕ → UInt8) :
    ∃ x', Exchange.step shahash n x (.question k rest) = .ok x' ∧
      Good n c s (es ++ [.question k rest]) x' := by
  obtain ⟨pack, hpack⟩ : ∃ pack, x.questions[k]? = some pack :=
    ⟨_, List.getElem?_eq_getElem hk⟩
  obtain ⟨hframed, htype⟩ := h.framed_question hpack
  have hdistinct : (x.server.haveList.map x.server.binHash).Nodup := by
    rw [h.server.haveList, funext h.server.binHash]
    exact hset.distinct
  obtain ⟨q, hhashes, hlen, hanswer⟩ := server_answers shahash
    ((h.server.findPeer n.clientAddr).trans hset.client) hdistinct hframed htype rest
  -- the only packet that the server sends is the answer
  set answer := ihavePacket (x.server.junk 0) (ownedHashes x.server q) with hdef
  have hreply : reply n x (x.server.sendOffer n.client (ownedHashes x.server q)) =
      { x with
        server := x.server.sendOffer n.client (ownedHashes x.server q)
        answers := x.answers ++ [answer] } := by
    rw [reply, State.sendOffer, State.sendPacketToPeer]
    dsimp only
    rw [State.tick, List.drop_left, sentTo, List.filterMap_cons]
    simp [hdef]
  have hlisted : answer.hashes = ownedHashes x.server q := hashes_ihavePacket _ hlen
  have howns : ∀ hash, hash ∈ answer.hashes ↔ hash ∈ pack.hashes ∧ s.Owns hash := by
    intro hash
    rw [hlisted, mem_ownedHashes_iff, hhashes, h.server.owns_iff]
  refine ⟨_, by rw [Exchange.step, hpack]; dsimp only; rw [hanswer]; rfl, ?_⟩
  rw [hreply]
  refine ⟨h.client, h.server.trans ⟨rfl, rfl, fun _ => rfl, fun _ => rfl, fun _ => rfl⟩,
    h.questions, ?_, ?_, ?_, ?_⟩
  · intro pack' hpack'
    rcases List.mem_append.1 hpack' with hpack' | hpack'
    · exact h.answers pack' hpack'
    · rw [List.mem_singleton.1 hpack']
      exact ⟨framed_ihavePacket _ hlen, rfl, fun hash hhash => ((howns hash).1 hhash).2⟩
  · intro j rest' hj
    rcases List.mem_append.1 hj with hj | hj
    · rw [List.length_append]
      exact Nat.lt_add_right 1 (h.sent j rest' hj)
    · cases List.mem_singleton.1 hj
  · intro j rest' pack' hj hpack' hash hhash hown
    rcases List.mem_append.1 hj with hj | hj
    · obtain ⟨old, hold, hin⟩ := h.answered j rest' pack' hj hpack' hash hhash hown
      exact ⟨old, List.mem_append_left _ hold, hin⟩
    · cases List.mem_singleton.1 hj
      rw [hpack] at hpack'
      cases hpack'
      exact ⟨answer, List.mem_append_right _ (List.mem_singleton.2 rfl),
        (howns hash).2 ⟨hhash, hown⟩⟩
  · intro r hr
    dsimp only
    rw [heard_concat_iff (l := .question k rest) (fun _ _ h => Label.noConfusion h) h.sent]
    exact h.heard r hr

/-- **An answer arrives.** -/
theorem answer (h : Good n c s es x) (hset : Setting n c s) {k : ℕ}
    (hk : k < x.answers.length) (rest : ℕ → UInt8) :
    ∃ x', Exchange.step shahash n x (.answer k rest) = .ok x' ∧
      Good n c s (es ++ [.answer k rest]) x' := by
  obtain ⟨pack, hpack⟩ : ∃ pack, x.answers[k]? = some pack := ⟨_, List.getElem?_eq_getElem hk⟩
  obtain ⟨hframed, htype, -⟩ := h.answers pack (List.mem_of_getElem? hpack)
  obtain ⟨q, hhashes, hhears⟩ := client_hears shahash
    ((h.client.findPeer n.serverAddr).trans hset.server) hframed htype rest
  refine ⟨_, by rw [Exchange.step, hpack]; dsimp only; rw [hhears]; rfl, ?_⟩
  rw [receiveIHAVE_eq]
  have hget := (moves_getChunkData trivial (x.client.offered q n.server) : Moves Kind.Any _ _).frame
  refine ⟨h.client.trans (.of_frame ((frame_offered x.client q n.server).trans hget)), h.server,
    h.questions, h.answers, ?_, ?_, ?_⟩
  · intro j rest' hj
    rcases List.mem_append.1 hj with hj | hj
    · exact h.sent j rest' hj
    · cases List.mem_singleton.1 hj
      exact hk
  · intro j rest' pack' hj
    rcases List.mem_append.1 hj with hj | hj
    · exact h.answered j rest' pack' hj
    · cases List.mem_singleton.1 hj
  · intro r hr
    have hmiss : r ∈ x.client.missing := h.client.missing ▸ hr
    have hlisting : (getChunkData (x.client.offered q n.server)).listing n.server r =
        (x.client.offered q n.server).listing n.server r := by
      refine listing_congr hget.peerId ?_ n.server
      rw [State.owners, chunks_getChunkData]
      rfl
    dsimp only
    rw [heard_concat_answer_iff hpack, hlisting, listing_offered, h.client.binHash, hhashes]
    rcases h.heard r hr with ⟨hheard, hsome⟩ | ⟨hnot, hnil⟩
    · refine Or.inl ⟨Or.inl hheard, ?_⟩
      rw [if_neg (by rw [hsome]; exact fun hc => List.cons_ne_nil _ _ hc.2)]
      exact hsome
    · by_cases hlisted : c.binHash r ∈ pack.hashes
      · exact Or.inl ⟨Or.inr hlisted, if_pos ⟨⟨hmiss, hlisted⟩, hnil⟩⟩
      · exact Or.inr ⟨not_or.2 ⟨hnot, hlisted⟩, by rw [if_neg fun hc => hlisted hc.1.2, hnil]⟩

/-- **Every step keeps the invariant.** -/
theorem next (h : Good n c s es x) (hset : Setting n c s) {l : Label} (hl : Meanwhile n x l)
    (hx' : Exchange.step shahash n x l = .ok x') : Good n c s (es ++ [l]) x' := by
  cases l with
  | question k rest =>
      obtain ⟨x'', hx'', hgood⟩ := h.question hset hl rest
      rw [hx'] at hx''
      cases hx''
      exact hgood
  | answer k rest =>
      obtain ⟨x'', hx'', hgood⟩ := h.answer hset hl rest
      rw [hx'] at hx''
      cases hx''
      exact hgood
  | client e =>
      obtain ⟨c', hc', rfl⟩ := exists_of_map_ok hx'
      refine h.quiet nofun nofun (h.client.trans (hl.1.steady hc')) h.server rfl rfl fun q hq => ?_
      exact hl.1.listing hc' (h.client.missing ▸ hq) hl.2
  | server e =>
      obtain ⟨s', hs', rfl⟩ := exists_of_map_ok hx'
      exact h.quiet nofun nofun h.client (h.server.trans (hl.steady hs')) rfl rfl fun _ _ => rfl

end Good

/-- **The invariant along a run.** -/
theorem Good.of_run (h : Setting n c s)
    (hrun : Machine.run (step shahash n) (start n c s) es = .ok x)
    (hal : Machine.Along (step shahash n) (Meanwhile n) (start n c s) es) : Good n c s es x := by
  refine Machine.history_invariant (P := fun es x =>
    Machine.Along (step shahash n) (Meanwhile n) (start n c s) es → Good n c s es x)
    (fun _ => .initial h) ?_ hrun hal
  intro es x l x' hrun ih hx' hal
  obtain ⟨hbefore, hl⟩ := (Machine.along_concat hrun).1 hal
  exact (ih hbefore).next h hl hx'

/-- **When everything has arrived**, the server is listed for what it owns. -/
theorem Good.listing_eq (h : Good n c s es x)
    (hquestions : ∀ k < x.questions.length, ∃ rest, Label.question k rest ∈ es)
    (hanswers : ∀ k < x.answers.length, ∃ rest, Label.answer k rest ∈ es) {q : ℕ}
    (hq : q ∈ c.missing) :
    s.Owns (c.binHash q) ∧ x.client.listing n.server q = [n.server] ∨
      ¬ s.Owns (c.binHash q) ∧ x.client.listing n.server q = [] := by
  rcases h.heard q hq with ⟨⟨k, rest, pack, -, hpack, hhash⟩, hsome⟩ | ⟨hnot, hnil⟩
  · exact Or.inl ⟨(h.answers pack (List.mem_of_getElem? hpack)).2.2 _ hhash, hsome⟩
  · refine Or.inr ⟨fun howns => hnot ?_, hnil⟩
    -- the hash was asked for in one of the questions
    have hflat : c.binHash q ∈ (hashBatches (c.missing.map c.binHash) []).flatten := by
      rw [flatten_hashBatches fun _ => rfl]
      exact List.mem_map_of_mem hq
    obtain ⟨batch, hbatch, hin⟩ := List.mem_flatten.1 hflat
    have hmem : whohasPacket batch ∈ x.questions := by
      rw [h.questions]
      exact List.mem_map_of_mem hbatch
    obtain ⟨k, hk⟩ := List.mem_iff_getElem?.1 hmem
    obtain ⟨rest, hasked⟩ := hquestions k (List.getElem?_eq_some_iff.1 hk).1
    rw [← hashes_whohasPacket (length_le_of_mem_hashBatches (by decide) hbatch)] at hin
    obtain ⟨answer, hanswer, hlists⟩ := h.answered k rest _ hasked hk _ hin howns
    obtain ⟨j, hj⟩ := List.mem_iff_getElem?.1 hanswer
    obtain ⟨rest', hheard⟩ := hanswers j (List.getElem?_eq_some_iff.1 hj).1
    exact ⟨j, rest', answer, hheard, hj, hlists⟩

end Exchange

/-- **Discovery is sound and complete.**  The client has asked once; the server owns no hash twice,
and is in no list of the client.  Whatever happens then: a question or an answer that arrives is
worked on without a fault, and once all questions and all answers have arrived, the server is in the
list of a missing chunk exactly if it owns a chunk with that hash, and there is no second entry with
its identifier. -/
theorem discovery (shahash : List UInt8 → BinHash) (n : Parties) (c s : State)
    (h : Exchange.Setting n c s) (es : List Exchange.Label) (x : Exchange)
    (hrun : Machine.run (Exchange.step shahash n) (Exchange.start n c s) es = .ok x)
    (hal : Machine.Along (Exchange.step shahash n) (Exchange.Meanwhile n)
      (Exchange.start n c s) es) :
    (∀ k < x.questions.length, ∀ rest, ∃ x', x.step shahash n (.question k rest) = .ok x') ∧
    (∀ k < x.answers.length, ∀ rest, ∃ x', x.step shahash n (.answer k rest) = .ok x') ∧
    ((∀ k < x.questions.length, ∃ rest, Exchange.Label.question k rest ∈ es) →
      (∀ k < x.answers.length, ∃ rest, Exchange.Label.answer k rest ∈ es) →
      x.client.missing = c.missing ∧ ∀ q ∈ x.client.missing,
        (n.server ∈ x.client.owners q ↔ x.server.Owns (x.client.binHash q)) ∧
        (n.server ∈ x.client.owners q → x.client.listing n.server q = [n.server])) := by
  have hgood := Exchange.Good.of_run h hrun hal
  refine ⟨fun k hk rest => ?_, fun k hk rest => ?_, fun hquestions hanswers => ?_⟩
  · exact (hgood.question h hk rest).imp fun _ hx' => hx'.1
  · exact (hgood.answer h hk rest).imp fun _ hx' => hx'.1
  · refine ⟨hgood.client.missing, fun q hq => ?_⟩
    have hlisting := hgood.listing_eq hquestions hanswers (hgood.client.missing ▸ hq)
    rw [← hgood.server.owns_iff, ← hgood.client.binHash] at hlisting
    have hmem : n.server ∈ x.client.owners q ↔ n.server ∈ x.client.listing n.server q :=
      ⟨fun h => List.mem_filter.2 ⟨h, beq_self_eq_true _⟩, fun h => (List.mem_filter.1 h).1⟩
    rw [hmem]
    rcases hlisting with ⟨howns, hsome⟩ | ⟨hnot, hnil⟩
    · rw [hsome]
      exact ⟨iff_of_true (List.mem_singleton.2 rfl) howns, fun _ => rfl⟩
    · rw [hnil]
      exact ⟨iff_of_false List.not_mem_nil hnot, fun h => absurd h List.not_mem_nil⟩

/-- A client that wants two chunks. -/
def asker : State :=
  createWantedMissingList (peerSetup lender (fun _ => 0) fun _ => zeroPacket)
    [(0, Vector.replicate hexHashSize 49), (1, Vector.replicate hexHashSize 50)]

/-- A server that owns one of them. -/
def owner : State :=
  peerSetup ⟨[(1, ⟨0, 1111⟩)], 2, 4, [(0, Vector.replicate hexHashSize 49)], none⟩ (fun _ => 0)
    fun _ => zeroPacket

def askerAndOwner : Parties := ⟨⟨0, 1111⟩, ⟨0, 2222⟩, 0, 0⟩

/-- The question arrives twice, and the second answer before the first. -/
def askedTwiceAnsweredBackwards : List Exchange.Label :=
  [.question 0 fun _ => 9, .question 0 fun _ => 9, .answer 1 fun _ => 9, .answer 0 fun _ => 9]

theorem discovery_asker : ∃ x,
    Machine.run (Exchange.step (fun _ => Vector.replicate binHashSize 0) askerAndOwner)
      (Exchange.start askerAndOwner asker owner) askedTwiceAnsweredBackwards = .ok x ∧
    x.client.missing = [2, 1] ∧
    ∀ q ∈ x.client.missing, (0 ∈ x.client.owners q ↔ x.server.Owns (x.client.binHash q)) ∧
      (0 ∈ x.client.owners q → x.client.listing 0 q = [0]) := by
  have hset : Exchange.Setting askerAndOwner asker owner := by
    refine ⟨rfl, rfl, by decide, List.nodup_singleton _, fun q hq => ?_⟩
    rcases List.mem_pair.1 (show q ∈ [2, 1] from hq) with rfl | rfl <;> exact List.not_mem_nil
  have hquestions : ∀ k < 1, ∃ rest, Exchange.Label.question k rest ∈
      askedTwiceAnsweredBackwards := by
    intro k hk
    rw [Nat.lt_one_iff.1 hk]
    exact ⟨_, List.mem_cons_self ..⟩
  have hanswers : ∀ k < 2, ∃ rest, Exchange.Label.answer k rest ∈
      askedTwiceAnsweredBackwards := by
    intro k hk
    refine ⟨fun _ => 9, List.mem_cons_of_mem _ (List.mem_cons_of_mem _ ?_)⟩
    rcases Nat.le_one_iff_eq_zero_or_eq_one.1 (Nat.le_of_lt_succ hk) with rfl | rfl
    · exact List.mem_cons_of_mem _ (List.mem_cons_self ..)
    · exact List.mem_cons_self ..
  obtain ⟨-, -, hall⟩ := discovery (fun _ => Vector.replicate binHashSize 0) askerAndOwner asker
    owner hset askedTwiceAnsweredBackwards _ rfl
    (Machine.along_cons rfl Nat.zero_lt_one (Machine.along_cons rfl Nat.zero_lt_one
      (Machine.along_cons rfl Nat.one_lt_two (Machine.along_cons rfl Nat.zero_lt_two trivial))))
  exact ⟨_, rfl, hall hquestions hanswers⟩

end P2P
