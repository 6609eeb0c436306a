/-
**A swarm of peers.**

Any number of peers run the program, with one list of peers between them, on a network that loses,
repeats, delays and reorders datagrams.  A datagram that was sent may arrive at any later time and
any number of times, with anything behind it in the buffer of its receiver; so the network is what
was sent so far, and that is what every peer records.  The clock of a peer may show anything.

The peers of a swarm know each other by their ports, so these have to differ.  Then what a peer
thinks of the others is right at all times: whoever it lists as an owner of a chunk owns it.  No
request is in vain, no offer is false, and no piece is wrong, as long as the chunks that peers were
started with are right.

Main definitions:

* `P2P.SwarmSetup`, `P2P.Swarm` — the peers;
* `P2P.Swarm.Label`, `P2P.Swarm.Action`, `P2P.Swarm.step` — what can happen;
* `P2P.Swarm.Known` — who owns what;
* `P2P.Swarm.Sound` — **the invariant**.

Main results:

* `P2P.Swarm.step_eq` — **what a step is**: one peer takes a step of its own on what was sent;
* `P2P.Swarm.Sound.step` — every step keeps the invariant;
* `P2P.Swarm.knowledge` — **what peers know, ask, offer and send is right**, in every run.
-/

import P2PFileTransfer.Honesty
import P2PFileTransfer.Isolation
import P2PFileTransfer.Sources

set_option relaxedAutoImplicit false
set_option autoImplicit false

namespace P2P

/-! ### Peers and what can happen -/

/-- What the peers of a swarm are started with: they share the list of peers. -/
structure SwarmSetup where
  peers : List (ℤ × SockaddrIn)
  maxConn : Fin peers.length → ℤ
  own : Fin peers.length → List ChunkLine
  master : Fin peers.length → Option (List UInt8)

namespace SwarmSetup

/-- The peers, by their position in the list. -/
abbrev Peer (setup : SwarmSetup) : Type := Fin setup.peers.length

variable (setup : SwarmSetup)

def addr (i : setup.Peer) : SockaddrIn := (setup.peers.get i).2

/-- No two peers have the same port: it is all that `find_peer` looks at. -/
def PortsDiffer : Prop := Function.Injective fun i => (setup.addr i).sinPort

/-- The set-up of one peer. -/
def side (i : setup.Peer) : Setup where
  peers := setup.peers
  identity := (setup.peers.get i).1
  maxConn := setup.maxConn i
  own := setup.own i
  master := setup.master i

end SwarmSetup

/-- The states of all peers. -/
abbrev Swarm (setup : SwarmSetup) : Type := setup.Peer → State

namespace Swarm

variable {setup : SwarmSetup}

/-- What happens: the user of a peer asks for a file, a timeout handler runs, or what the peer `i`
has sent as its effect number `k` arrives, in a buffer that holds `rest` behind it. -/
inductive Label (setup : SwarmSetup) where
  | userGet (i : setup.Peer) (chunkFile outputFile : String) (lines : List ChunkLine)
  | clientTimeout (i : setup.Peer)
  | serverTimeout (i : setup.Peer)
  | deliver (i : setup.Peer) (k : ℕ) (rest : ℕ → UInt8)

/-- What happens, and what the clock of the peer that reacts shows. -/
structure Action (setup : SwarmSetup) where
  label : Label setup
  clock : ℕ → ℕ

/-- All peers after set-up. -/
def start (setup : SwarmSetup) (clock : setup.Peer → ℕ → ℕ) (junk : setup.Peer → ℕ → Packet) :
    Swarm setup :=
  fun i => peerSetup (setup.side i) (clock i) (junk i)

/-- One peer does something. -/
def react (w : Swarm setup) (i : setup.Peer) (clock : ℕ → ℕ)
    (handle : State → Except Fault State) : Except Fault (Swarm setup) :=
  match handle { w i with clock := clock } with
  | .error x => .error x
  | .ok s => .ok (Function.update w i s)

/-- One step. -/
def step (shahash : List UInt8 → BinHash) (w : Swarm setup) (a : Action setup) :
    Except Fault (Swarm setup) :=
  match a.label with
  | .userGet i chunkFile outputFile lines =>
      react w i a.clock fun s => P2P.step shahash s (.userGet chunkFile outputFile lines)
  | .clientTimeout i => react w i a.clock fun s => P2P.step shahash s .clientTimeout
  | .serverTimeout i => react w i a.clock fun s => P2P.step shahash s .serverTimeout
  | .deliver i k rest =>
      match (w i).trace[k]? with
      | some (.send dest pack _) =>
          if h : dest < setup.peers.length then
            react w ⟨dest, h⟩ a.clock fun s => processInboundUdp shahash s (setup.addr i)
              (Block.memory (serializePacket pack) rest)
          else .ok w
      | _ => .ok w

/-- The peer `i` has sent the packet to `j`. -/
def HasSent (w : Swarm setup) (i j : setup.Peer) (pack : Packet) : Prop :=
  ∃ about, .send j pack about ∈ (w i).trace

/-- Everything that was sent is a packet that peers make. -/
def AllMade (w : Swarm setup) : Prop :=
  ∀ i, ∀ e ∈ (w i).trace, ∀ dest pack about, e = .send dest pack about → pack.Made

/-- The action is the event `e` of the peer `i`, and a packet was sent to it. -/
def Causes (w : Swarm setup) (a : Action setup) (i : setup.Peer) : Event → Prop
  | .userGet chunkFile outputFile lines => a.label = .userGet i chunkFile outputFile lines
  | .packet src pack => ∃ j, w.HasSent j i pack ∧ src = setup.addr j
  | _ => True

/-- **What a step is**: one peer takes a step of its own, on a packet only if that was sent to it;
or nothing happens. -/
theorem step_eq {w : Swarm setup} (hmade : w.AllMade) (shahash : List UInt8 → BinHash)
    (a : Action setup) :
    step shahash w a = .ok w ∨ ∃ i e, w.Causes a i e ∧
      step shahash w a = react w i a.clock fun s => P2P.step shahash s e := by
  obtain ⟨label, clock⟩ := a
  cases label with
  | userGet i chunkFile outputFile lines =>
      exact Or.inr ⟨i, .userGet chunkFile outputFile lines, rfl, rfl⟩
  | clientTimeout i => exact Or.inr ⟨i, .clientTimeout, trivial, rfl⟩
  | serverTimeout i => exact Or.inr ⟨i, .serverTimeout, trivial, rfl⟩
  | deliver i k rest =>
      simp only [step]
      split
      · rename_i dest pack about hk
        have hmem := List.mem_of_getElem? hk
        split
        · rename_i hdest
          refine Or.inr ⟨⟨dest, hdest⟩, .packet (setup.addr i) pack, ⟨i, ⟨about, hmem⟩, rfl⟩, ?_⟩
          simp only [processInboundUdp_made (hmade i _ hmem dest pack about rfl)]
        · exact Or.inl rfl
      · exact Or.inl rfl

/-- **A datagram arrives.** -/
theorem step_deliver {w : Swarm setup} {i j : setup.Peer} {k : ℕ} {pack : Packet}
    {about : Option BinHash} (hk : (w i).trace[k]? = some (.send j pack about)) (hmade : pack.Made)
    (shahash : List UInt8 → BinHash) (rest : ℕ → UInt8) (clock : ℕ → ℕ) :
    step shahash w ⟨.deliver i k rest, clock⟩ =
      react w j clock fun s => P2P.step shahash s (.packet (setup.addr i) pack) := by
  simp only [step, hk, j.isLt, dif_pos, processInboundUdp_made hmade]

theorem react_ok {w w' : Swarm setup} {i : setup.Peer} {clock : ℕ → ℕ}
    {handle : State → Except Fault State} (h : react w i clock handle = .ok w') :
    ∃ s, handle { w i with clock := clock } = .ok s ∧ w' = Function.update w i s := by
  unfold react at h
  split at h
  · cases h
  · rename_i s hs
    cases h
    exact ⟨s, hs, rfl⟩

/-! ### What peers know -/

/-- The peer `p` owns the hash. -/
def Known (w : Swarm setup) (p : ℕ) (hash : BinHash) : Prop :=
  ∃ j : setup.Peer, p = j ∧ (w j).Owns hash

/-- The state has the peers of the list. -/
structure Configured (setup : SwarmSetup) (s : State) : Prop where
  next : s.peers.next = setup.peers.length
  peerId : ∀ i : setup.Peer, s.peerId i = (setup.peers.get i).1
  addr : ∀ i : setup.Peer, (s.peers.cell i).addr = setup.addr i

theorem configured_start (clock : setup.Peer → ℕ → ℕ) (junk : setup.Peer → ℕ → Packet)
    (i : setup.Peer) : Configured setup (start setup clock junk i) := by
  have hcell : ∀ j : setup.Peer, (start setup clock junk i).peers.cell j =
      ⟨(setup.peers.get j).1, (setup.peers.get j).2, 1⟩ := by
    intro j
    show (setup.peers.map fun peer => (⟨peer.1, peer.2, 1⟩ : BtPeer)).getD j _ = _
    rw [List.getD, List.getElem?_map, List.getElem?_eq_getElem j.isLt]
    rfl
  refine ⟨?_, fun j => ?_, fun j => ?_⟩
  · show (setup.peers.map _).length = _
    rw [List.length_map]
  · rw [State.peerId, hcell]
  · rw [hcell]
    rfl

/-- A datagram is attributed to the peer that sent it, when the ports differ. -/
theorem findPeer_addr (hports : setup.PortsDiffer) {s : State}
    (h : Configured setup s) (j : setup.Peer) : findPeer s (setup.addr j) = some (j : ℕ) := by
  rw [findPeer, h.next, List.find?_range_eq_some]
  refine ⟨?_, List.mem_range.2 j.isLt, fun k hk => ?_⟩
  · rw [h.addr, comparePeerAddr_iff]
  · have hlt : k < setup.peers.length := hk.trans j.isLt
    have haddr : (s.peers.cell k).addr = setup.addr ⟨k, hlt⟩ := h.addr ⟨k, hlt⟩
    rw [haddr, Bool.not_eq_true', Bool.eq_false_iff, Ne, comparePeerAddr_iff]
    intro heq
    exact absurd (congrArg Fin.val (hports heq)) hk.ne

/-- A step leaves the peers of the configuration. -/
theorem Configured.step {shahash : List UInt8 → BinHash} {s s' : State} {e : Event}
    (h : Configured setup s) (he : P2P.step shahash s e = .ok s') : Configured setup s' := by
  have hframe : ∀ {s s' : State}, Frame s s' → Configured setup s → Configured setup s' :=
    fun hf h => ⟨hf.peersNext.trans h.next, fun i => (hf.peerId i).trans (h.peerId i),
      fun i => (hf.addr i).trans (h.addr i)⟩
  have hsame : ∀ {s s' : State}, s'.peers = s.peers → Configured setup s → Configured setup s' := by
    intro s s' heq h
    exact ⟨heq ▸ h.next, fun i => by rw [State.peerId, heq]; exact h.peerId i,
      fun i => by rw [heq]; exact h.addr i⟩
  have hall : ∀ s : State, (checkAllReceived s).peers = s.peers := by
    intro s
    rw [checkAllReceived]
    split <;> rfl
  obtain ⟨chunkFile, outputFile, lines, -, rfl⟩ | ⟨_, pack, peer, -, -, -, hr⟩ | hmoves :=
    step_cases he
  · have hlines : ∀ (lines : List ChunkLine) (s : State),
        (lines.foldl wantLine s).peers = s.peers := by
      intro lines
      induction lines with
      | nil => exact fun _ => rfl
      | cons line lines ih =>
          intro s
          rw [List.foldl_cons, ih, wantLine]
          split <;> rfl
    refine hframe (moves_sendWHOHAS _ : Moves Kind.Any _ _).frame (hsame (hall _) (hsame ?_ h))
    exact hlines lines _
  · obtain ⟨-, rfl⟩ | ⟨i, t, c, -, -, s₁, rfl, hend⟩ := receiveDATA_cases hr
    · exact h
    · have h₁ : Configured setup (sendACK (s.modifyChunk t.c fun _ => c) peer
          (dataFindLargestConsecSeq c)) :=
        hframe (moves_sendACK _ _ _ : Moves Kind.Any _ _).frame (hsame (s := s) rfl h)
      rcases hend with ⟨-, rfl⟩ | ⟨-, rfl⟩
      · exact h₁
      · refine hframe (moves_afterFinish trivial trivial _ i : Moves Kind.Any _ _).frame ?_
        generalize sendACK (s.modifyChunk t.c fun _ => c) peer (dataFindLargestConsecSeq c) = s₁
          at h₁
        obtain ⟨-, heq⟩ | ⟨-, -, heq⟩ | ⟨-, j, r, -, -, -, heq⟩ := finishChunk_cases shahash s₁ t.c
        · rw [heq]
          exact hsame (s := s₁) rfl h₁
        · rw [heq]
          exact hsame (hall s₁) h₁
        · rw [heq]
          exact hsame (hall _) (hsame (s := s₁) rfl h₁)
  · exact hframe hmoves.frame h

/-- A hash that is owned stays owned. -/
theorem owns_step {shahash : List UInt8 → BinHash} {own : ℕ} {start : ℕ → Chunk} {kept : List ℕ}
    {s s' : State} {e : Event} (h : Intact shahash own start kept s) (hserving : Serving s)
    (he : P2P.step shahash s e = .ok s') {hash : BinHash} (hown : s.Owns hash) :
    s'.Owns hash := by
  obtain ⟨q, hq, rfl⟩ := hown
  have hreacts := step_reacts (fun t ht => (h.incoming t ht).2)
    (fun t ht => h.lt_of_owned (hserving t ht)) he
  exact ⟨q, (h.rebase.step he).kept.subset hq, hreacts.binHash q (h.lt_of_owned hq)⟩

/-! ### The invariant -/

/-- **The invariant**: for every peer, what its own invariants say, and that it is informed and
honest. -/
structure Sound (shahash : List UInt8 → BinHash) (first w : Swarm setup) : Prop where
  configured : ∀ i, Configured setup (w i)
  intact : ∀ i, Intact shahash (setup.own i).length (first i).chunks.cell [] (w i)
  serving : ∀ i, Serving (w i)
  informed : ∀ i, Informed w.Known (w i)
  honest : ∀ i, ∀ e ∈ (w i).trace, e.Honest (w i).Owns w.Known fun c => c.Verified shahash

namespace Sound

variable {shahash : List UInt8 → BinHash} {first w w' : Swarm setup}

theorem allMade (h : Sound shahash first w) : w.AllMade := by
  rintro i e he dest pack about rfl
  exact (h.honest i _ he).1

/-- All owned chunks have the right data, if those of the set-up do. -/
theorem verified (h : Sound shahash first w)
    (hown : ∀ i, ∀ q < (setup.own i).length, ((first i).chunks.cell q).Verified shahash)
    (i : setup.Peer) : ∀ q ∈ (w i).haveList, ((w i).chunks.cell q).Verified shahash := by
  intro q hq
  rcases (h.intact i).sealed_of_mem hq with hlt | ⟨-, hsealed⟩
  · obtain ⟨hdata, hbin⟩ := (h.intact i).data q hlt
    rw [Chunk.Verified, hdata, hbin]
    exact hown i q hlt
  · exact hsealed.2

/-- The invariants of one peer do not mention the clock. -/
theorem clock {own : ℕ} {start : ℕ → Chunk} {kept : List ℕ} {s : State}
    (h : Intact shahash own start kept s) (clock : ℕ → ℕ) :
    Intact shahash own start kept { s with clock := clock } :=
  ⟨h.own_le, h.missing, h.incoming, h.data, h.counted, h.owned, h.kept⟩

/-- What a peer owns, others know to be owned after any step of its own. -/
theorem known_update (h : Sound shahash first w) {i : setup.Peer} {clock : ℕ → ℕ} {e : Event}
    {s : State} (he : P2P.step shahash { w i with clock := clock } e = .ok s) :
    (∀ hash, (w i).Owns hash → s.Owns hash) ∧
      ∀ p hash, w.Known p hash → Known (Function.update w i s) p hash := by
  have howns : ∀ hash, (w i).Owns hash → s.Owns hash := fun hash hown =>
    owns_step (Sound.clock (h.intact i) clock) (h.serving i) he hown
  refine ⟨howns, ?_⟩
  rintro p hash ⟨j, rfl, hown⟩
  refine ⟨j, rfl, ?_⟩
  by_cases hj : j = i
  · subst hj
    rw [Function.update_self]
    exact howns hash hown
  · rw [Function.update_of_ne hj]
    exact hown

/-- **Every step keeps the invariant.** -/
theorem step (h : Sound shahash first w) (hports : setup.PortsDiffer)
    (hown : ∀ i, ∀ q < (setup.own i).length, ((first i).chunks.cell q).Verified shahash)
    {a : Action setup} (hw : step shahash w a = .ok w') : Sound shahash first w' := by
  rcases step_eq h.allMade shahash a with heq | ⟨i, e, hcauses, heq⟩
  · rw [hw] at heq
    cases heq
    exact h
  · rw [heq] at hw
    obtain ⟨s, he, rfl⟩ := react_ok hw
    have hclock := Sound.clock (h.intact i) a.clock
    obtain ⟨howns, hknown⟩ := h.known_update he
    -- an offer that arrives was sent, and what was sent is true
    have hoffer : ∀ p hash, e.Offers { w i with clock := a.clock } p hash → w.Known p hash := by
      intro p hash hoffers
      cases e with
      | packet src pack =>
          obtain ⟨hp, ht, hmem⟩ := hoffers
          obtain ⟨j, ⟨about, hsent⟩, rfl⟩ := hcauses
          have hconf : Configured setup { w i with clock := a.clock } :=
            ⟨(h.configured i).next, (h.configured i).peerId, (h.configured i).addr⟩
          rw [findPeer_addr hports hconf j] at hp
          exact ⟨j, (Option.some.inj hp).symm, (h.honest j _ hsent).2.2.1 ht hash hmem⟩
      | userGet chunkFile outputFile lines => exact absurd hoffers id
      | serverTimeout => exact absurd hoffers id
      | clientTimeout => exact absurd hoffers id
    have hinformed : Informed w.Known { w i with clock := a.clock } :=
      ⟨(h.informed i).owners, (h.informed i).incoming⟩
    obtain ⟨hinf, es, htrace, hes⟩ := Says.step (K := w.Known)
      (G := fun c => c.Verified shahash) (fun q hq => (hclock.missing q hq).2)
      (fun t ht => (hclock.incoming t ht).2) (h.serving i) (h.verified hown i) hoffer he hinformed
    have hother : ∀ {j}, j ≠ i → Function.update w i s j = w j :=
      fun hj => Function.update_of_ne hj ..
    refine ⟨fun j => ?_, fun j => ?_, fun j => ?_, fun j => ?_, fun j => ?_⟩ <;>
      by_cases hj : j = i
    · subst hj
      rw [Function.update_self]
      exact Configured.step (s := { w j with clock := a.clock })
        ⟨(h.configured j).next, (h.configured j).peerId, (h.configured j).addr⟩ he
    · rw [hother hj]
      exact h.configured j
    · subst hj
      rw [Function.update_self]
      exact hclock.step he
    · rw [hother hj]
      exact h.intact j
    · subst hj
      rw [Function.update_self]
      exact step_serving (s := { w j with clock := a.clock }) (h.serving j) he
    · rw [hother hj]
      exact h.serving j
    · subst hj
      rw [Function.update_self]
      exact hinf.mono hknown
    · rw [hother hj]
      exact (h.informed j).mono hknown
    · subst hj
      rw [Function.update_self, htrace]
      intro e' he'
      rcases List.mem_append.1 he' with he' | he'
      · exact (h.honest j e' he').mono howns hknown
      · exact (hes e' he').mono howns hknown
    · rw [hother hj]
      exact fun e' he' => (h.honest j e' he').mono (fun _ hown => hown) hknown

/-- **The invariant after set-up.** -/
theorem start (shahash : List UInt8 → BinHash) (setup : SwarmSetup)
    (clock : setup.Peer → ℕ → ℕ) (junk : setup.Peer → ℕ → Packet) :
    Sound shahash (start setup clock junk) (start setup clock junk) where
  configured := configured_start clock junk
  intact i := { Intact.setup shahash (setup.side i) (clock i) (junk i) with
    kept := List.nil_suffix }
  serving _ _ ht := absurd ht List.not_mem_nil
  informed _ := ⟨fun _ hq => absurd hq List.not_mem_nil, fun _ ht => absurd ht List.not_mem_nil⟩
  honest _ _ he := absurd he List.not_mem_nil

/-- The chunks of the set-up have the right data after set-up. -/
theorem verified_start
    (hown : ∀ i, ∀ line ∈ setup.own i, (ownChunk (setup.master i) line).Verified shahash)
    (clock : setup.Peer → ℕ → ℕ) (junk : setup.Peer → ℕ → Packet) (i : setup.Peer) :
    ∀ q < (setup.own i).length,
      ((Swarm.start setup clock junk i).chunks.cell q).Verified shahash := by
  intro q hq
  have hcell : (Swarm.start setup clock junk i).chunks.cell q =
      ownChunk (setup.master i) (setup.own i)[q] := by
    show ((setup.own i).map _).getD q _ = _
    rw [List.getD, List.getElem?_map, List.getElem?_eq_getElem hq]
    rfl
  rw [hcell]
  exact hown i _ (List.getElem_mem hq)

/-- A run keeps the invariant. -/
theorem of_run {clock : setup.Peer → ℕ → ℕ} {junk : setup.Peer → ℕ → Packet}
    (hports : setup.PortsDiffer)
    (hown : ∀ i, ∀ line ∈ setup.own i, (ownChunk (setup.master i) line).Verified shahash)
    {as : List (Action setup)}
    (hrun : Machine.run (Swarm.step shahash) (Swarm.start setup clock junk) as = .ok w) :
    Sound shahash (Swarm.start setup clock junk) w := by
  exact Machine.run_invariant
    (fun _ _ _ hs hw => hs.step hports (verified_start hown clock junk) hw)
    (Sound.start shahash setup clock junk) hrun

/-- **A request is refused only for want of a connection.** -/
theorem refused (h : Sound shahash first w) (hports : setup.PortsDiffer) {i j : setup.Peer}
    {k : ℕ} {pack : Packet} {about : Option BinHash} {rest : ℕ → UInt8} {clock : ℕ → ℕ}
    (hk : (w i).trace[k]? = some (.send j pack about)) (hget : pack.type = .get)
    (hw : Swarm.step shahash w ⟨.deliver i k rest, clock⟩ = .ok w') {dest : ℕ} {denied : Packet}
    {about' : Option BinHash} (hsent : Sent (w j) (w' j) (.send dest denied about'))
    (hdenied : denied.type = .denied) : (w j).maxConn ≤ (w j).outgoing.length := by
  obtain ⟨hmade, hknown, -, -⟩ := h.honest i _ (List.mem_of_getElem? hk)
  obtain ⟨j', hj', howns⟩ := hknown hget
  rw [← Fin.ext hj'] at howns
  have hconf : Configured setup { w j with clock := clock } :=
    ⟨(h.configured j).next, (h.configured j).peerId, (h.configured j).addr⟩
  rw [step_deliver hk hmade] at hw
  obtain ⟨s, hs, rfl⟩ := react_ok hw
  rw [Function.update_self] at hsent
  rw [P2P.step, findPeer_addr hports hconf i] at hs
  dsimp only at hs
  rw [receivePacket, hget] at hs
  cases hs
  obtain ⟨es, htrace, hmem⟩ := hsent
  obtain ⟨hnot, -⟩ | ⟨-, hfull, -⟩ | ⟨-, -, -, heq⟩ | ⟨-, -, q, -, -, heq⟩ :=
    receiveGET_cases { w j with clock := clock } pack i
  · exact absurd howns hnot
  · exact hfull
  · -- nothing was sent
    rw [heq] at htrace
    have hnil : es = [] := List.self_eq_append_right.1 htrace
    rw [hnil] at hmem
    exact absurd hmem List.not_mem_nil
  · -- pieces were sent
    rw [heq] at htrace
    have hes := List.append_cancel_left htrace
    rw [← hes] at hmem
    obtain ⟨piece, hpiece, heff⟩ := List.mem_map.1 hmem
    obtain ⟨n, -, rfl⟩ := mem_sendDATA hpiece
    cases heff
    cases hdenied

end Sound

/-- **What peers know, ask, offer and send is right**, in every state that a swarm can reach:
whoever is listed as an owner of a missing chunk owns it; a peer that is asked for a chunk owns it,
and refuses only when all its connections are taken; a hash that is offered is owned; and a piece is
one of a chunk that its sender owns, of the hash that the transfer is about, and whose data has that
hash. -/
theorem knowledge (shahash : List UInt8 → BinHash) (setup : SwarmSetup)
    (hports : setup.PortsDiffer)
    (hown : ∀ i, ∀ line ∈ setup.own i, (ownChunk (setup.master i) line).Verified shahash)
    (clock : setup.Peer → ℕ → ℕ) (junk : setup.Peer → ℕ → Packet) (as : List (Action setup))
    (w : Swarm setup)
    (hrun : Machine.run (step shahash) (start setup clock junk) as = .ok w) :
    (∀ i, ∀ q ∈ (w i).missing, ∀ p ∈ (w i).owners q, w.Known p ((w i).binHash q)) ∧
    ∀ i j k pack about, (w i).trace[k]? = some (.send (j : setup.Peer) pack about) →
      (pack.type = .get → (w j).Owns (pack.hashList 0) ∧
        ∀ rest now w', step shahash w ⟨.deliver i k rest, now⟩ = .ok w' →
          ∀ dest denied about', Sent (w j) (w' j) (.send dest denied about') →
            denied.type = .denied → (w j).maxConn ≤ (w j).outgoing.length) ∧
      (pack.type = .ihave → ∀ hash ∈ pack.hashes, (w i).Owns hash) ∧
      (pack.type = .data → ∃ c n, about = some c.binHash ∧ (w i).Owns c.binHash ∧
        c.Verified shahash ∧ n < maxSeqNum ∧ pack = dataPacket c n) := by
  have h := Sound.of_run hports hown hrun
  refine ⟨fun i => (h.informed i).owners, fun i j k pack about hk => ?_⟩
  obtain ⟨-, hget, hihave, hdata⟩ := h.honest i _ (List.mem_of_getElem? hk)
  refine ⟨fun ht => ⟨?_, fun rest now w' hw dest denied about' hsent hdenied => ?_⟩, hihave, hdata⟩
  · obtain ⟨j', hj', howns⟩ := hget ht
    rw [← Fin.ext hj'] at howns
    exact howns
  · exact h.refused hports hk ht hw hsent hdenied

/-- Two peers, of which the second owns a chunk of zeros. -/
def zerosSwarm : SwarmSetup where
  peers := [(1, ⟨0, 1111⟩), (2, ⟨0, 2222⟩)]
  maxConn := fun _ => 1
  own := fun i => if i.val = 0 then [] else [(0, onesHex)]
  master := fun _ => none

/-- The first peer asks for the chunk, the second offers it. -/
def zerosActions : List (Action zerosSwarm) :=
  [⟨.userGet ⟨0, by decide⟩ "a" "b" [(0, onesHex)], fun _ => 0⟩,
    ⟨.deliver ⟨0, by decide⟩ 0 fun _ => 0, fun _ => 0⟩,
    ⟨.deliver ⟨1, by decide⟩ 0 fun _ => 0, fun _ => 0⟩]

theorem portsDiffer_zerosSwarm : zerosSwarm.PortsDiffer := by
  intro i j hij
  revert i j
  decide

theorem verified_zerosSwarm : ∀ i, ∀ line ∈ zerosSwarm.own i,
    (ownChunk (zerosSwarm.master i) line).Verified headHash := by
  intro i line hl
  have hline : line = (0, onesHex) := by
    by_cases hi : i.val = 0
    · simp [zerosSwarm, hi] at hl
    · simpa [zerosSwarm, hi] using hl
  rw [hline, Chunk.Verified, headHash, if_neg]
  · rfl
  · simp only [ownChunk, zerosSwarm, createChunk, Vector.toList_replicate, btChunkSize_eq,
      List.head?_replicate]
    decide

theorem knowledge_zeros : ∃ w, Machine.run (step headHash)
      (start zerosSwarm (fun _ _ => 0) fun _ _ => zeroPacket) zerosActions = .ok w ∧
    ∃ (i j : zerosSwarm.Peer) (k : ℕ) (pack : Packet) (about : Option BinHash),
      (w i).trace[k]? = some (.send j pack about) ∧
      pack.type = .get ∧ (w j).Owns (pack.hashList 0) := by
  refine ⟨_, rfl, ⟨0, by decide⟩, ⟨1, by decide⟩, 1, _, _, rfl, rfl, ?_⟩
  exact (((knowledge headHash zerosSwarm portsDiffer_zerosSwarm verified_zerosSwarm
    (fun _ _ => 0) (fun _ _ => zeroPacket) zerosActions _ rfl).2 ⟨0, by decide⟩ ⟨1, by decide⟩ 1
    _ _ rfl).1 rfl).1

end Swarm

end P2P
