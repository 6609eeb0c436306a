/-
**A swarm without faults.**

A step of a peer fails in three ways: `receive_WHOHAS` and `send_IHAVE` write behind their arrays
when a question matches more than 74 owned chunks, `store_data` writes outside a chunk when a piece
claims a place there, and `process_inbound_udp` asserts that it knows the type of a packet.  The
last two take packets that no peer makes.  The first takes a hash that is owned twice, and it is the
users who can bring that about: with a chunk file that names a hash twice, or one that is missing
already, or with a text of an owned hash that is not the text that the peer has.

So if no request does that, then no step fails, whatever the network does and whatever the data of
the chunks is.

Three more places of the program leave an array, and no step fails there, since the state has
nothing behind these arrays: `send_DENIED` writes behind the 16 bytes of its datagram, whoever
receives that copies up to 255 hashes to an array of 74, and `sscanf` writes the NUL of a hash of 40
digits behind the array that it is read into.  Nothing is said of them here, but that a packet of
any other type is written and read inside its datagram.

Main definitions:

* `P2P.HashesDiffer` — no hash is missing twice, owned twice, or both;
* `P2P.State.Clear` — a chunk file keeps it so;
* `P2P.Swarm.Faultless` — **the invariant** of a swarm.

Main results:

* `P2P.HashesDiffer.step` — every step keeps the hashes different, if requests are clear;
* `P2P.step_total` — then no packet that a peer makes is a fault;
* `P2P.Swarm.faultless` — **no run fails**, and no packet of a run, but a `DENIED`, is written or
  read out of bounds.
-/

import P2PFileTransfer.Missing
import P2PFileTransfer.Spelling
import P2PFileTransfer.Swarm

set_option relaxedAutoImplicit false
set_option autoImplicit false

namespace P2P

/-! ### Hashes that are owned once -/

/-- No hash is missing twice, or owned twice, or missing and owned. -/
def HashesDiffer (s : State) : Prop := ((s.missing ++ s.haveList).map s.binHash).Nodup

/-- The lines whose texts no owned chunk has bring hashes that are neither missing nor owned, and
each of them once. -/
def State.Clear (s : State) (lines : List ChunkLine) : Prop :=
  ((((lines.map Prod.snd).filter fun hash => ¬ s.OwnsText hash).reverse.map binHashOf) ++
    (s.missing ++ s.haveList).map s.binHash).Nodup

/-- A request that is clear, or no request. -/
def Event.Clear (s : State) : Event → Prop
  | .userGet _ _ lines => s.Clear lines
  | _ => True

namespace HashesDiffer

variable {shahash : List UInt8 → BinHash} {s s' : State}

/-- No hash is owned twice. -/
theorem owned (h : HashesDiffer s) : (s.haveList.map s.binHash).Nodup := by
  rw [HashesDiffer, List.map_append] at h
  exact (List.nodup_append.1 h).2.1

/-- What is missing is not owned. -/
theorem not_owns (h : HashesDiffer s) {q : ℕ} (hq : q ∈ s.missing) : ¬ s.Owns (s.binHash q) := by
  rintro ⟨r, hr, heq⟩
  rw [HashesDiffer, List.map_append] at h
  exact (List.nodup_append.1 h).2.2 _ (List.mem_map_of_mem hq) _ (List.mem_map_of_mem hr) heq.symm

/-- The hashes may come in another order, and the chunks may change. -/
theorem of_perm (h : HashesDiffer s) (hperm : (s'.missing ++ s'.haveList).Perm
      (s.missing ++ s.haveList)) (hbin : ∀ q, s'.binHash q = s.binHash q) : HashesDiffer s' := by
  rw [HashesDiffer, (hperm.map _).nodup_iff, List.map_congr_left fun q _ => hbin q]
  exact h

theorem of_frame (h : HashesDiffer s) (hf : Frame s s') : HashesDiffer s' :=
  h.of_perm (by rw [hf.missing, hf.haveList]) hf.binHash

theorem checkAllReceived (h : HashesDiffer s) : HashesDiffer (checkAllReceived s) := by
  rw [P2P.checkAllReceived]
  split
  · exact h
  · exact h

/-- **Checking a complete chunk keeps the hashes different**: it moves from one list to the other.
-/
theorem finish (h : HashesDiffer s) (shahash : List UInt8 → BinHash) {q : ℕ} (hq : q ∈ s.missing) :
    HashesDiffer (finishChunk shahash s q) := by
  obtain ⟨-, heq⟩ | ⟨-, hnone, -⟩ | ⟨-, j, r, hj, hr, -, heq⟩ := finishChunk_cases shahash s q
  · rw [heq]
    exact h.of_perm (.refl _) (Fades.modifyChunk s q (f := discardData) rfl).binHash
  · exact absurd rfl (hnone q hq)
  · have hmissing : (s.missing.map s.binHash).Nodup := by
      rw [HashesDiffer, List.map_append] at h
      exact (List.nodup_append.1 h).1
    have hrq : r = q := List.inj_on_of_nodup_map hmissing (List.mem_of_getElem? hj) hq hr
    rw [hrq] at hj
    rw [heq]
    refine @checkAllReceived (s.accept j q) (h.of_perm ?_ fun _ => rfl)
    show (s.missing.eraseIdx j ++ q :: s.haveList).Perm _
    obtain ⟨hlt, hget⟩ := List.getElem?_eq_some_iff.1 hj
    refine List.perm_middle.trans ?_
    rw [← List.cons_append, ← hget]
    exact (List.getElem_cons_eraseIdx_perm hlt).append_right _

/-- **A clear chunk file keeps the hashes different.** -/
theorem wantLines (hl : Labelled s) (hp : Placed s) {lines : List ChunkLine}
    (hclear : s.Clear lines) : HashesDiffer (createWantedMissingList s lines) := by
  obtain ⟨-, -, -, -, hbin⟩ := wantLines_transfers lines s
  have hsame : (createWantedMissingList s lines).chunks = (lines.foldl wantLine s).chunks :=
    (checkAllReceived_same _).1
  have hhave : (createWantedMissingList s lines).haveList = s.haveList := by
    refine Eq.trans ?_ (haveList_wantLines lines s)
    rw [createWantedMissingList, P2P.checkAllReceived]
    split <;> rfl
  have hlabels : ∀ q, (createWantedMissingList s lines).binHash q =
      binHashOf ((createWantedMissingList s lines).hexHash q) := by
    intro q
    rw [State.binHash, State.hexHash, hsame]
    exact hl.wantLines lines q
  have hold : ∀ q ∈ s.haveList, (createWantedMissingList s lines).binHash q = s.binHash q := by
    intro q hq
    rw [← hbin q (hp.owned q hq), State.binHash, hsame]
    rfl
  have hmissing : (createWantedMissingList s lines).missing.map
      (createWantedMissingList s lines).binHash =
        (((lines.map Prod.snd).filter fun hash => ¬ s.OwnsText hash).reverse.map binHashOf) ++
          s.missing.map s.binHash := by
    have htexts := congrArg (List.map binHashOf) (hexHashes_missing hp lines)
    rw [List.map_map, List.map_append, List.map_map] at htexts
    rw [List.map_congr_left fun q (_ : q ∈ s.missing) => show s.binHash q = _ from hl q,
      List.map_congr_left fun q _ => hlabels q]
    exact htexts
  rw [HashesDiffer, List.map_append, hmissing, hhave, List.map_congr_left hold, List.append_assoc,
    ← List.map_append]
  exact hclear

/-- **Every step keeps the hashes different**, if requests are clear. -/
theorem step {own : ℕ} {start : ℕ → Chunk} {kept : List ℕ} {e : Event} (h : HashesDiffer s)
    (hl : Labelled s) (hi : Intact shahash own start kept s) (hc : ClientList s)
    (hclear : e.Clear s) (he : step shahash s e = .ok s') : HashesDiffer s' := by
  obtain ⟨chunkFile, outputFile, lines, rfl, rfl⟩ | ⟨src, pack, peer, rfl, -, -, hr⟩ |
    ⟨-, hmoves⟩ := step_split he
  · refine of_frame ?_ (moves_sendWHOHAS _ : Moves Kind.Any _ _).frame
    exact wantLines (s := { s with
      userGetChunkFile := chunkFile, userOutputFilename := outputFile }) hl
      ⟨fun q hq => (hi.missing q hq).2, fun _ hq => hi.lt_of_owned hq⟩ hclear
  · obtain ⟨-, rfl⟩ | ⟨i, t, c, hfind, hstore, s₁, rfl, hend⟩ := receiveDATA_cases hr
    · exact h
    · have hbin : c.binHash = (s.chunks.cell t.c).binHash := by
        obtain ⟨-, ⟨-, rfl⟩ | ⟨-, -, -, rfl⟩⟩ := storeData_cases hstore <;> rfl
      have hack := (moves_sendACK (s.modifyChunk t.c fun _ => c) peer
        (dataFindLargestConsecSeq c) : Moves Kind.Any _ _).frame
      have hkeep : HashesDiffer (s.modifyChunk t.c fun _ => c) :=
        h.of_perm (.refl _) (Fades.modifyChunk s t.c (f := fun _ => c) hbin).binHash
      have h₁ : HashesDiffer (s.validating t.c c peer) := hkeep.of_frame hack
      rcases hend with ⟨-, rfl⟩ | ⟨-, rfl⟩
      · exact h₁
      · have hmiss : t.c ∈ (s.validating t.c c peer).missing := by
          rw [State.validating, hack.missing]
          exact hc.missing t (mem_of_nodeFind hfind)
        have hend := (moves_afterFinish trivial trivial
          (finishChunk shahash (s.validating t.c c peer) t.c) i : Moves Kind.Any _ _).frame
        exact (h₁.finish shahash hmiss).of_frame hend
  · exact h.of_frame hmoves.frame

/-- The hashes differ after set-up, if those of the has-chunks file do. -/
theorem setup (setup : Setup) (clock : ℕ → ℕ) (junk : ℕ → Packet)
    (hown : (setup.own.map fun line => binHashOf line.2).Nodup) :
    HashesDiffer (peerSetup setup clock junk) := by
  have hhash : ∀ line, (ownChunk setup.master line).binHash = binHashOf line.2 := by
    intro line
    cases hm : setup.master <;> rfl
  have hmap : (List.range setup.own.length).map (peerSetup setup clock junk).binHash =
      setup.own.map fun line => binHashOf line.2 := by
    refine List.ext_getElem (by rw [List.length_map, List.length_map, List.length_range]) ?_
    intro q hq hq'
    rw [List.length_map] at hq'
    have hcell : (peerSetup setup clock junk).chunks.cell q =
        ownChunk setup.master setup.own[q] := by
      show (setup.own.map _).getD q _ = _
      rw [List.getD, List.getElem?_map, List.getElem?_eq_getElem hq']
      rfl
    rw [List.getElem_map, List.getElem_map, List.getElem_range, State.binHash, hcell, hhash]
  show ((List.range setup.own.length).reverse.map (peerSetup setup clock junk).binHash).Nodup
  rw [List.map_reverse, List.nodup_reverse, hmap]
  exact hown

end HashesDiffer

/-! ### Steps that do not fail -/

/-- **No packet that a peer makes is a fault** to a peer that owns no hash twice. -/
theorem step_total {shahash : List UInt8 → BinHash} {s : State} (h : HashesDiffer s) {e : Event}
    (hmade : ∀ src pack, e = .packet src pack → pack.Made) : ∃ s', step shahash s e = .ok s' := by
  cases e with
  | userGet chunkFile outputFile lines => exact ⟨_, rfl⟩
  | serverTimeout => exact ⟨_, rfl⟩
  | clientTimeout => exact ⟨_, rfl⟩
  | packet src pack =>
      have hpack := hmade src pack rfl
      simp only [step]
      cases findPeer s src with
      | none => exact ⟨_, rfl⟩
      | some peer =>
          dsimp only
          cases hpack with
          | whohas hashes hlen =>
              -- every hash is answered once at most, so the answers are no more than the questions
              have hfit := (length_ownedHashes_le h.owned (whohasPacket hashes)).trans_eq
                (congrArg List.length (hashes_whohasPacket hlen))
              exact ⟨_, receiveWHOHAS_of_le _ (hfit.trans hlen)⟩
          | data c i hi => exact receiveDATA_ok (inBounds_dataPacket c hi) shahash s peer
          | ihave junk hashes hlen => exact ⟨_, rfl⟩
          | get junk binHash count => exact ⟨_, rfl⟩
          | ack junk ackNum => exact ⟨_, rfl⟩
          | denied junk => exact ⟨_, rfl⟩

/-- A framed packet fits the buffer that `send_packet` makes it in. -/
theorem Packet.Framed.packetLen_le {p : Packet} (h : p.Framed) :
    p.packetLen.toNat ≤ maxPacketSize := by
  have hmax : maxPacketSize = 1500 := rfl
  have hheader : standardHeaderLen = 16 := rfl
  have hpad : headerPadLen = 4 := rfl
  have hhash : binHashSize = 20 := rfl
  have hcount : maxHashInPacket = 74 := rfl
  have hdata := dataSize_eq
  rcases h.payload with ⟨-, hle, hlen⟩ | ⟨-, n, hn, hlen⟩ | ⟨-, hlen⟩
  · rw [hhash] at hlen
    omega
  · omega
  · omega

/-! ### The swarm -/

namespace Swarm

variable {setup : SwarmSetup} {shahash : List UInt8 → BinHash}

/-- The request of the user of a peer is clear to that peer. -/
def ClearRequest (w : Swarm setup) (a : Action setup) : Prop :=
  ∀ i chunkFile outputFile lines, a.label = .userGet i chunkFile outputFile lines →
    (w i).Clear lines

/-- **The invariant**: for every peer, what its own invariants say, that its hashes differ, and that
it sends nothing but what the six functions make. -/
structure Faultless (shahash : List UInt8 → BinHash) (first w : Swarm setup) : Prop where
  intact : ∀ i, Intact shahash (setup.own i).length (first i).chunks.cell [] (w i)
  serving : ∀ i, Serving (w i)
  labelled : ∀ i, Labelled (w i)
  clients : ∀ i, ClientList (w i)
  differ : ∀ i, HashesDiffer (w i)
  made : w.AllMade

namespace Faultless

variable {first w : Swarm setup}

/-- **Every step is possible and keeps the invariant**, if requests are clear. -/
theorem step (h : Faultless shahash first w) {a : Action setup} (hclear : w.ClearRequest a) :
    ∃ w', Swarm.step shahash w a = .ok w' ∧ Faultless shahash first w' := by
  rcases step_eq h.made shahash a with heq | ⟨i, e, hcauses, heq⟩
  · exact ⟨w, heq, h⟩
  · have hintact := Sound.clock (h.intact i) a.clock
    have hclients : ClientList { w i with clock := a.clock } :=
      ⟨(h.clients i).nodup, (h.clients i).missing⟩
    have hdiffer : HashesDiffer { w i with clock := a.clock } := h.differ i
    have hevent : e.Clear { w i with clock := a.clock } := by
      cases e with
      | userGet chunkFile outputFile lines => exact hclear i chunkFile outputFile lines hcauses
      | packet src pack => trivial
      | serverTimeout => trivial
      | clientTimeout => trivial
    obtain ⟨s, hs⟩ : ∃ s, P2P.step shahash { w i with clock := a.clock } e = .ok s := by
      refine step_total hdiffer ?_
      rintro src pack rfl
      obtain ⟨j, ⟨about, hmem⟩, -⟩ := hcauses
      exact h.made j _ hmem _ pack about rfl
    -- what is sent is well made whatever is known
    obtain ⟨-, es, htrace, hes⟩ := Says.step (K := fun _ _ => True) (G := fun _ => True)
      (fun q hq => (hintact.missing q hq).2) (fun t ht => (hintact.incoming t ht).2)
      (h.serving i) (fun _ _ => trivial) (fun _ _ _ => trivial) hs
      ⟨fun _ _ _ _ => trivial, fun _ _ => trivial⟩
    refine ⟨Function.update w i s, by rw [heq, react, hs], ?_⟩
    have hother : ∀ {j}, j ≠ i → Function.update w i s j = w j :=
      fun hj => Function.update_of_ne hj ..
    refine ⟨fun j => ?_, fun j => ?_, fun j => ?_, fun j => ?_, fun j => ?_, fun j => ?_⟩ <;>
      by_cases hj : j = i
    · subst hj
      rw [Function.update_self]
      exact hintact.step hs
    · rw [hother hj]
      exact h.intact j
    · subst hj
      rw [Function.update_self]
      exact step_serving (s := { w j with clock := a.clock }) (h.serving j) hs
    · rw [hother hj]
      exact h.serving j
    · subst hj
      rw [Function.update_self]
      exact Labelled.step (s := { w j with clock := a.clock }) (h.labelled j) hs
    · rw [hother hj]
      exact h.labelled j
    · subst hj
      rw [Function.update_self]
      exact hclients.step hintact hs
    · rw [hother hj]
      exact h.clients j
    · subst hj
      rw [Function.update_self]
      exact hdiffer.step (h.labelled j) hintact hclients hevent hs
    · rw [hother hj]
      exact h.differ j
    · subst hj
      rw [Function.update_self, htrace]
      rintro e' he' dest pack about rfl
      rcases List.mem_append.1 he' with he' | he'
      · exact h.made j _ he' dest pack about rfl
      · exact (hes _ he').1
    · rw [hother hj]
      exact h.made j

/-- **The invariant after set-up.** -/
theorem start (shahash : List UInt8 → BinHash) {setup : SwarmSetup}
    (hown : ∀ i, ((setup.own i).map fun line => binHashOf line.2).Nodup)
    (clock : setup.Peer → ℕ → ℕ) (junk : setup.Peer → ℕ → Packet) :
    Faultless shahash (start setup clock junk) (start setup clock junk) where
  intact := (Sound.start shahash setup clock junk).intact
  serving := (Sound.start shahash setup clock junk).serving
  labelled i := labelled_peerSetup (setup.side i) (clock i) (junk i)
  clients _ := ⟨List.nodup_nil, fun _ ht => absurd ht List.not_mem_nil⟩
  differ i := HashesDiffer.setup (setup.side i) (clock i) (junk i) (hown i)
  made := (Sound.start shahash setup clock junk).allMade

end Faultless

/-- **No run of a swarm fails**, if no peer is started with a hash twice and all requests are clear:
no assertion on the type of a packet is hit, no answer to a question leaves the arrays of
`receive_WHOHAS` and `send_IHAVE`, and no piece is stored outside its chunk, whatever is lost,
repeated, delayed or reordered, and whatever the data of the chunks is.  And a packet that is sent
in the run is written inside its datagram, which is no longer than the buffer, and is decoded inside
it, unless it is a `DENIED`. -/
theorem faultless (shahash : List UInt8 → BinHash) (setup : SwarmSetup)
    (hown : ∀ i, ((setup.own i).map fun line => binHashOf line.2).Nodup)
    (clock : setup.Peer → ℕ → ℕ) (junk : setup.Peer → ℕ → Packet) (as : List (Action setup))
    (hclear : Machine.Along (step shahash) ClearRequest (start setup clock junk) as) :
    ∃ w, Machine.run (step shahash) (start setup clock junk) as = .ok w ∧
      ∀ i dest pack about, .send dest pack about ∈ (w i).trace → pack.type ≠ .denied →
        pack.packetLen.toNat ≤ maxPacketSize ∧
        (∀ write ∈ serializeWrites pack, write.1 + write.2.length ≤ pack.packetLen.toNat) ∧
        ∀ rest, (deserializePacket (Block.memory (serializePacket pack) rest)).Safe
          pack.packetLen.toNat := by
  obtain ⟨w, hrun, hw⟩ := Machine.run_total_along
    (fun _ _ hw hclear => Faultless.step hw hclear)
    (Faultless.start shahash hown clock junk) hclear
  refine ⟨w, hrun, fun i dest pack about hmem hd => ?_⟩
  have hmade := hw.made i _ hmem dest pack about rfl
  exact ⟨(hmade.framed hd).packetLen_le, (hmade.framed hd).writes_le, hmade.safe hd⟩

theorem nodup_zerosSwarm (i : zerosSwarm.Peer) :
    ((zerosSwarm.own i).map fun line => binHashOf line.2).Nodup := by
  by_cases hi : i.val = 0
  · simp [zerosSwarm, hi]
  · simp [zerosSwarm, hi]

theorem clear_zerosActions : Machine.Along (step headHash) ClearRequest
    (start zerosSwarm (fun _ _ => 0) fun _ _ => zeroPacket) zerosActions := by
  refine ⟨?_, fun w _ => ⟨?_, fun w _ => ⟨?_, ?_⟩⟩⟩
  · rintro i chunkFile outputFile lines hlabel
    cases hlabel
    exact List.nodup_singleton _
  · intro i chunkFile outputFile lines hlabel
    cases hlabel
  · intro i chunkFile outputFile lines hlabel
    cases hlabel
  · exact fun _ _ => trivial

theorem faultless_zeros : ∃ w, Machine.run (step headHash)
      (start zerosSwarm (fun _ _ => 0) fun _ _ => zeroPacket) zerosActions = .ok w ∧
    ∀ i dest pack about, .send dest pack about ∈ (w i).trace → pack.type ≠ .denied →
      pack.packetLen.toNat ≤ maxPacketSize ∧
      (∀ write ∈ serializeWrites pack, write.1 + write.2.length ≤ pack.packetLen.toNat) ∧
      ∀ rest, (deserializePacket (Block.memory (serializePacket pack) rest)).Safe
        pack.packetLen.toNat :=
  faultless headHash zerosSwarm nodup_zerosSwarm _ _ zerosActions clear_zerosActions

end Swarm

end P2P
