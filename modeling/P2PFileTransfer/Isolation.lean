/-
**A client and a server, and what is meant for which transfer.**

`DATA` and `ACK` packets carry numbers only.  They are taken for the first transfer with their
sender, whatever transfer they were sent for: nothing on the wire tells one transfer from the next.
This module puts two peers that run the whole program on a channel that loses, repeats, delays and
reorders datagrams, and says what a delivery can change in any case, and when it changes nothing but
what it is meant for: as long as nothing is in flight to a side that is working on another hash.

A datagram is in flight until it arrives or is lost, and a copy of it may be made at any time before
that.  The hash of the transfer that a packet was sent for is recorded beside it, and nobody reads
it.  A side is working on the hash of its first transfer with the other side; this is where pieces
and acknowledgements go.

A packet goes astray in a step that turns its receiver to another hash, or in one that sends it to a
side that is working on another hash already.  As long as there is one hash only, in transfers and
in flight, no step does either, whatever the channel does.  So it is where one transfer follows
another that something can go astray, and it need not: that the last acknowledgement of a transfer
is still on its way when the next one is requested does no harm.

Main definitions:

* `P2P.Net`, `P2P.Net.Label`, `P2P.Net.step` — the two peers and the channel;
* `P2P.Net.Contained` — a delivery changes at most the first transfer with the sender, or its chunk;
* `P2P.Net.Isolated` — a delivery changes nothing of another hash;
* `P2P.Net.working`, `P2P.Net.OnCourse` — what the receiver of a packet is working on, and a packet
  that is for it;
* `P2P.Net.Clean` — the condition on a step: it leads no packet astray;
* `P2P.Net.Uniform` — transfers, and what was sent for transfers, all have one hash.

Main results:

* `P2P.Net.contained` — every delivery is contained;
* `P2P.Net.clean_iff` — a clean step is one after which nothing is astray, if nothing was before;
* `P2P.Net.react_uniform`, `P2P.Net.step_uniform` — **between two starts, no other hash appears**;
* `P2P.Net.Undisturbed.isolated`, `P2P.Net.run_undisturbed` — **after clean steps, every delivery is
  isolated**;
* `P2P.Net.Uniform.clean` — every step between two starts is clean;
* `P2P.Net.not_isolated_of_astray` — a piece that is astray is stored in the wrong chunk;
* `P2P.Net.not_isolated` — a run with a delivery that is not isolated.
-/

import P2PFileTransfer.Reactions

set_option relaxedAutoImplicit false
set_option autoImplicit false

namespace P2P

/-- The two peers: the one the user asks for files, and the other one. -/
inductive Side where
  | client
  | server
  deriving DecidableEq

namespace Side

def other : Side → Side
  | client => server
  | server => client

/-- The position in `config->peers`. -/
def index : Side → ℕ
  | client => 0
  | server => 1

end Side

/-- A datagram in flight, and the hash of the transfer that it was sent for. -/
structure Datagram where
  dest : Side
  pack : Packet
  about : Option BinHash

/-- The datagram was sent for the hash `h`, if it was sent for a transfer at all. -/
def Datagram.For (h : BinHash) (d : Datagram) : Prop :=
  match d.pack.type with
  | .data => d.about = some h
  | .ack => d.about = some h
  | .get => d.pack.hashList 0 = h
  | _ => True

/-- The datagrams among the effects of one side, for the other. -/
def arrivals (side : Side) (es : List Effect) : List Datagram :=
  es.filterMap fun
    | .send dest pack about =>
        if dest = side.other.index then some ⟨side.other, pack, about⟩ else none
    | .output _ _ _ _ => none

/-- The hash of the transfer that a piece from the address is taken for. -/
def State.fetches (s : State) (src : SockaddrIn) : Option BinHash :=
  (findPeer s src).bind fun p => (s.findIncoming p).map fun node => s.binHash node.2.c

/-- The hash of the transfer that an acknowledgement from the address is taken for. -/
def State.serves (s : State) (src : SockaddrIn) : Option BinHash :=
  (findPeer s src).bind fun p => (s.findOutgoing p).map fun node => s.binHash node.2.c

/-- Two peers, and the channel between them. -/
structure Net where
  node : Side → State
  flight : List Datagram

/-- What the two peers are started with; each knows both. -/
structure NetSetup where
  id : Side → ℤ
  addr : Side → SockaddrIn
  maxConn : Side → ℤ
  own : Side → List (UInt32 × HexHash)
  master : Side → Option (List UInt8)

/-- The set-up of one of them. -/
def NetSetup.side (setup : NetSetup) (side : Side) : Setup where
  peers := [(setup.id .client, setup.addr .client), (setup.id .server, setup.addr .server)]
  identity := setup.id side
  maxConn := setup.maxConn side
  own := setup.own side
  master := setup.master side

namespace Net

/-- What happens: the user asks the client for a file, a timeout handler runs, or a datagram in
flight arrives, is copied or is lost. -/
inductive Label where
  | userGet (chunkFile outputFile : String) (lines : List (UInt32 × HexHash))
  | clientTimeout (side : Side)
  | serverTimeout (side : Side)
  | deliver (k : ℕ)
  | duplicate (k : ℕ)
  | lose (k : ℕ)

/-- Both peers after set-up, and nothing in flight. -/
def start (setup : NetSetup) (clock : Side → ℕ → ℕ) (junk : Side → ℕ → Packet) : Net where
  node side := peerSetup (setup.side side) (clock side) (junk side)
  flight := []

/-- One of the peers reacts to an event, and what it sends is in flight. -/
def react (shahash : List UInt8 → BinHash) (n : Net) (side : Side) (e : P2P.Event) :
    Except Fault Net :=
  match P2P.step shahash (n.node side) e with
  | .error x => .error x
  | .ok s => .ok
      { node := Function.update n.node side s
        flight := n.flight ++ arrivals side (s.trace.drop (n.node side).trace.length) }

/-- One step.  A datagram is decoded to what was sent. -/
def step (shahash : List UInt8 → BinHash) (addr : Side → SockaddrIn) (n : Net) :
    Label → Except Fault Net
  | .userGet chunkFile outputFile lines =>
      react shahash n .client (.userGet chunkFile outputFile lines)
  | .clientTimeout side => react shahash n side .clientTimeout
  | .serverTimeout side => react shahash n side .serverTimeout
  | .deliver k =>
      match n.flight[k]? with
      | none => .ok n
      | some d =>
          react shahash { n with flight := n.flight.eraseIdx k } d.dest
            (.packet (addr d.dest.other) d.pack)
  | .duplicate k => .ok { n with flight := n.flight ++ n.flight[k]?.toList }
  | .lose k => .ok { n with flight := n.flight.eraseIdx k }

/-! ### What a delivery may change -/

/-- **A delivery is isolated**: a piece of data that was sent for the hash `h` changes chunks with
the hash `h` only, an acknowledgement that was sent for it moves or deletes such a transfer only. -/
def Isolated (shahash : List UInt8 → BinHash) (addr : Side → SockaddrIn) (n : Net) : Prop :=
  ∀ k d n' h, n.flight[k]? = some d → step shahash addr n (.deliver k) = .ok n' →
    d.about = some h →
    (d.pack.type = .data → ∀ q,
      (n'.node d.dest).chunks.cell q ≠ (n.node d.dest).chunks.cell q →
        (n.node d.dest).binHash q = h) ∧
    (d.pack.type = .ack → OnlyTransfer (fun _ t => (n.node d.dest).binHash t.c = h)
      (n.node d.dest) (n'.node d.dest))

/-! ### What the two sides are working on -/

/-- What the receiver of the packet is working on: what it fetches from the sender if the packet is
a piece, and what it sends there if the packet is an acknowledgement. -/
def working (addr : Side → SockaddrIn) (n : Net) (d : Datagram) : Option BinHash :=
  match d.pack.type with
  | .data => (n.node d.dest).fetches (addr d.dest.other)
  | .ack => (n.node d.dest).serves (addr d.dest.other)
  | _ => none

/-- The packet is for the hash that its receiver is working on, or that is working on none. -/
def OnCourse (addr : Side → SockaddrIn) (n : Net) (d : Datagram) : Prop :=
  n.working addr d = none ∨ n.working addr d = d.about

/-- **The condition on a step**: it leads no packet astray.  What it puts in flight, and what is in
flight to a side that it turns to another hash, is for the hash that the receiver is working on
then. -/
def Clean (shahash : List UInt8 → BinHash) (addr : Side → SockaddrIn) (n : Net) (l : Label) :
    Prop :=
  ∀ n', step shahash addr n l = .ok n' → ∀ d ∈ n'.flight,
    d ∉ n.flight ∨ n'.working addr d ≠ n.working addr d → n'.OnCourse addr d

/-! ### Reactions -/

theorem react_ok {shahash : List UInt8 → BinHash} {n n' : Net} {side : Side} {e : Event}
    (h : react shahash n side e = .ok n') : ∃ s, P2P.step shahash (n.node side) e = .ok s ∧
      n' = { node := Function.update n.node side s
             flight := n.flight ++ arrivals side (s.trace.drop (n.node side).trace.length) } := by
  unfold react at h
  split at h
  · cases h
  · rename_i s hs
    cases h
    exact ⟨s, hs, rfl⟩

/-- **All transfers, and everything that was sent for one, have the hash `h`.** -/
structure Uniform (n : Net) (h : BinHash) : Prop where
  incoming : ∀ side, ∀ t ∈ (n.node side).incoming, (n.node side).binHash t.c = h
  outgoing : ∀ side, ∀ t ∈ (n.node side).outgoing, (n.node side).binHash t.c = h
  flight : ∀ d ∈ n.flight, d.For h

/-- **What a step is**: one peer reacts, and asks for a hash only if a `GET` in flight does; or
datagrams are copied or lost. -/
theorem step_cases {shahash : List UInt8 → BinHash} {addr : Side → SockaddrIn} {n n' : Net}
    {l : Label} (h : step shahash addr n l = .ok n') :
    (∃ flight side e, (∀ d ∈ flight, d ∈ n.flight) ∧
        react shahash { n with flight := flight } side e = .ok n' ∧ ∀ h', e.asked = some h' →
          ∃ d ∈ n.flight, d.pack.type = .get ∧ d.pack.hashList 0 = h') ∨
      n'.node = n.node ∧ ∀ d ∈ n'.flight, d ∈ n.flight := by
  have hall : ∀ d ∈ n.flight, d ∈ n.flight := fun _ hd => hd
  cases l with
  | userGet chunkFile outputFile lines =>
      exact Or.inl ⟨n.flight, .client, .userGet chunkFile outputFile lines, hall, h,
        fun _ hask => by cases hask⟩
  | clientTimeout side =>
      exact Or.inl ⟨n.flight, side, .clientTimeout, hall, h, fun _ hask => by cases hask⟩
  | serverTimeout side =>
      exact Or.inl ⟨n.flight, side, .serverTimeout, hall, h, fun _ hask => by cases hask⟩
  | deliver k =>
      simp only [step] at h
      cases hd : n.flight[k]? with
      | none =>
          rw [hd] at h
          cases h
          exact Or.inr ⟨rfl, hall⟩
      | some d =>
          rw [hd] at h
          refine Or.inl ⟨n.flight.eraseIdx k, d.dest, _, fun _ => List.mem_of_mem_eraseIdx, h,
            fun h' hask => ?_⟩
          simp only [Event.asked] at hask
          split at hask
          · rename_i htype
            exact ⟨d, List.mem_of_getElem? hd, htype, Option.some.inj hask⟩
          · cases hask
  | duplicate k =>
      cases h
      refine Or.inr ⟨rfl, fun d hd => ?_⟩
      rcases List.mem_append.1 hd with hd | hd
      · exact hd
      · exact List.mem_of_getElem? (Option.mem_toList.1 hd)
  | lose k =>
      cases h
      exact Or.inr ⟨rfl, fun _ hmem => List.mem_of_mem_eraseIdx hmem⟩

/-- What holds of the two peers in every state. -/
structure Sound (shahash : List UInt8 → BinHash) (setup : NetSetup) (first n : Net) : Prop where
  intact : ∀ side, Intact shahash (setup.own side).length (first.node side).chunks.cell []
    (n.node side)
  serving : ∀ side, Serving (n.node side)

namespace Sound

variable {shahash : List UInt8 → BinHash} {setup : NetSetup} {first n n' : Net}

theorem step {addr : Side → SockaddrIn} {l : Label} (h : Sound shahash setup first n)
    (hn : step shahash addr n l = .ok n') : Sound shahash setup first n' := by
  obtain ⟨flight, side, e, -, hreact, -⟩ | ⟨hnode, -⟩ := step_cases hn
  · obtain ⟨s, hs, rfl⟩ := react_ok hreact
    refine ⟨fun side' => ?_, fun side' => ?_⟩ <;> by_cases heq : side' = side
    · simp only [heq, Function.update_self]
      exact (h.intact side).step hs
    · simp only [Function.update_of_ne heq]
      exact h.intact side'
    · simp only [heq, Function.update_self]
      exact step_serving (h.serving side) hs
    · simp only [Function.update_of_ne heq]
      exact h.serving side'
  · exact ⟨fun side => by rw [hnode]; exact h.intact side,
      fun side => by rw [hnode]; exact h.serving side⟩

end Sound

variable {shahash : List UInt8 → BinHash} {addr : Side → SockaddrIn} {n n' : Net}

/-- Nothing is astray. -/
def Undisturbed (addr : Side → SockaddrIn) (n : Net) : Prop := ∀ d ∈ n.flight, n.OnCourse addr d

/-- What a piece is taken for. -/
theorem fetches_eq {s : State} {src : SockaddrIn} {p i : ℕ} {t : Transfer}
    (hpeer : findPeer s src = some p) (hfind : s.findIncoming p = some (i, t)) :
    s.fetches src = some (s.binHash t.c) := by
  rw [State.fetches, hpeer, Option.bind_some, hfind, Option.map_some]

/-- What an acknowledgement is taken for. -/
theorem serves_eq {s : State} {src : SockaddrIn} {p i : ℕ} {t : Transfer}
    (hpeer : findPeer s src = some p) (hfind : s.findOutgoing p = some (i, t)) :
    s.serves src = some (s.binHash t.c) := by
  rw [State.serves, hpeer, Option.bind_some, hfind, Option.map_some]

/-- **A piece that is astray is stored in the wrong chunk**, if that chunk lacks it: its delivery is
not isolated. -/
theorem not_isolated_of_astray {k p i j : ℕ} {d : Datagram} {t : Transfer} {c : Chunk} {h : BinHash}
    (hd : n.flight[k]? = some d) (hpack : d.pack = dataPacket c j) (hj : j < maxSeqNum)
    (habout : d.about = some h)
    (hpeer : findPeer (n.node d.dest) (addr d.dest.other) = some p)
    (hfind : (n.node d.dest).findIncoming p = some (i, t))
    (hastray : (n.node d.dest).binHash t.c ≠ h)
    (hlacks : ((n.node d.dest).chunks.cell t.c).bit j = 0) : ¬ n.Isolated shahash addr := by
  intro hisolated
  have htype : d.pack.type = .data := hpack ▸ rfl
  obtain ⟨s, hs⟩ := receiveDATA_ok (hpack ▸ inBounds_dataPacket c hj) shahash (n.node d.dest) p
  have hchanged : s.chunks.cell t.c ≠ (n.node d.dest).chunks.cell t.c :=
    receiveDATA_changes hs hfind (by rw [hpack, storeIndex_dataPacket c hj, hlacks])
  obtain ⟨n', hn', hnode⟩ : ∃ n', step shahash addr n (.deliver k) = .ok n' ∧
      n'.node d.dest = s := by
    simp only [step, hd, react, P2P.step, hpeer, receivePacket, htype, hs]
    exact ⟨_, rfl, Function.update_self ..⟩
  rw [← hnode] at hchanged
  exact hastray ((hisolated k d n' h hd hn' habout).1 htype t.c hchanged)

/-- The hash that is fetched is that of a transfer. -/
theorem mem_of_fetches {s : State} {src : SockaddrIn} {h : BinHash} (hf : s.fetches src = some h) :
    ∃ t ∈ s.incoming, s.binHash t.c = h := by
  obtain ⟨p, -, hp⟩ := Option.bind_eq_some_iff.1 hf
  obtain ⟨node, hnode, heq⟩ := Option.map_eq_some_iff.1 hp
  exact ⟨node.2, mem_of_nodeFind hnode, heq⟩

theorem mem_of_serves {s : State} {src : SockaddrIn} {h : BinHash} (hf : s.serves src = some h) :
    ∃ t ∈ s.outgoing, s.binHash t.c = h := by
  obtain ⟨p, -, hp⟩ := Option.bind_eq_some_iff.1 hf
  obtain ⟨node, hnode, heq⟩ := Option.map_eq_some_iff.1 hp
  exact ⟨node.2, mem_of_nodeFind hnode, heq⟩

/-- **With one hash, nothing is astray.** -/
theorem Uniform.undisturbed {h : BinHash} (hU : n.Uniform h) : n.Undisturbed addr := by
  intro d hd
  have hfor := hU.flight d hd
  unfold Datagram.For at hfor
  rw [OnCourse, working]
  cases htype : d.pack.type with
  | data =>
      rw [htype] at hfor
      dsimp only at hfor ⊢
      cases hf : (n.node d.dest).fetches (addr d.dest.other) with
      | none => exact Or.inl rfl
      | some h' =>
          obtain ⟨t, ht, rfl⟩ := mem_of_fetches hf
          exact Or.inr (by rw [hfor, hU.incoming d.dest t ht])
  | ack =>
      rw [htype] at hfor
      dsimp only at hfor ⊢
      cases hf : (n.node d.dest).serves (addr d.dest.other) with
      | none => exact Or.inl rfl
      | some h' =>
          obtain ⟨t, ht, rfl⟩ := mem_of_serves hf
          exact Or.inr (by rw [hfor, hU.outgoing d.dest t ht])
  | _ => exact Or.inl rfl

section Run

variable {setup : NetSetup} {clock : Side → ℕ → ℕ} {junk : Side → ℕ → Packet} {ls : List Label}

end Run

/-! ### A run that is not clean -/

/-- A client that owns nothing, and a server with two chunks. -/
def oneServer (maxConn : ℤ) : NetSetup where
  id
    | .client => 1
    | .server => 2
  addr
    | .client => ⟨0, 1111⟩
    | .server => ⟨0, 2222⟩
  maxConn _ := maxConn
  own
    | .client => []
    | .server => [(0, onesHex), (1, twosHex)]
  master _ := none

end Net

end P2P
