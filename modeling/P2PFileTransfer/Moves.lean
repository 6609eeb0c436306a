/-
**What the handlers are made of.**

Apart from storing data, checking a complete chunk and reading a chunk file, everything a peer does
is made of ten small moves: packets go out, transfers are opened, touched and closed on either side,
and the peers of a missing chunk change.  This module says so once, one lemma for each handler, and
it says what no move changes.  What a later module proves about runs it proves about the moves.

Some results need to know which transfers a handler may open or close, so the relation says which
kinds of moves it is about; a handler has what its lemma asks for.

Main definitions:

* `P2P.Kind` — the moves that open or close a transfer;
* `P2P.Move`, `P2P.Moves` — the moves, and sequences of them;
* `P2P.Sendable` — what the moves send, and on behalf of which transfer;
* `P2P.Frame` — what two states have in common that moves do not change.

Main results:

* `P2P.Moves.frame` — **moves change nothing else**;
* `P2P.moves_getChunkData`, `P2P.moves_receiveIHAVE`, `P2P.moves_handleClientTimeout`, … — what each
  handler is made of;
* `P2P.receiveDATA_cases` — **what a piece of data can do**;
* `P2P.step_split`, `P2P.step_cases` — **what a step is**.
-/

import P2PFileTransfer.Peer
import Mathlib.Logic.Relation

set_option relaxedAutoImplicit false
set_option autoImplicit false

namespace P2P

open Relation (ReflTransGen)

/-! ### Moves -/

/-- A packet that is sent on behalf of a transfer is recorded with the hash of the transfer's chunk,
and a `GET` asks for it. -/
def Sendable (s : State) : Effect → Prop
  | .output _ _ _ _ => False
  | .send _ pack about =>
      match pack.type with
      | .data => ∃ t ∈ s.outgoing, about = some (s.binHash t.c)
      | .ack => ∃ t ∈ s.incoming, about = some (s.binHash t.c)
      | .get => ∃ t ∈ s.incoming, about = some (s.binHash t.c) ∧ pack.hashList 0 = s.binHash t.c
      | _ => True

/-- Two states of a transfer with the same peer and the same chunk. -/
def SameEnds (t t' : Transfer) : Prop := t'.peer = t.peer ∧ t'.c = t.c

/-- The moves that open or close a transfer. -/
inductive Kind where
  | openIn
  | closeIn
  | openOut
  | closeOut

/-- All kinds. -/
abbrev Kind.Any (_ : Kind) : Prop := True

/-- Every kind but the end of a transfer of the server. -/
abbrev Kind.NoRelease (k : Kind) : Prop := k ≠ .closeOut

/-- The moves; `may` says of which kind they may be. -/
inductive Move (may : Kind → Prop) : State → State → Prop
  /-- Time passes. -/
  | tick (s : State) (n : ℕ) : Move may s (s.tick n)
  /-- Packets go out. -/
  | emit (s : State) (es : List Effect) (h : ∀ e ∈ es, Sendable s e) :
      Move may s { s with trace := s.trace ++ es }
  /-- A transfer of the client gets a new time or a new count. -/
  | touchIn (s : State) (i : ℕ) (f : Transfer → Transfer) (h : ∀ t, SameEnds t (f t)) :
      Move may s { s with incoming := s.incoming.modify i f }
  /-- A transfer of the server gets a new window. -/
  | touchOut (s : State) (i : ℕ) (t t' : Transfer) (hi : s.outgoing[i]? = some t)
      (h : SameEnds t t') : Move may s { s with outgoing := s.outgoing.set i t' }
  /-- A peer says that it owns a missing chunk. -/
  | offer (s : State) (q p : ℕ) (hq : q ∈ s.missing) (hp : p < s.peers.next) :
      Move may s (s.modifyChunk q fun c => { c with peer := p :: c.peer })
  /-- Some peers of a missing chunk are forgotten. -/
  | forget (s : State) (q : ℕ) (keep : ℕ → Bool) (hq : q ∈ s.missing) :
      Move may s (s.modifyChunk q fun c => { c with peer := c.peer.filter keep })
  /-- The client opens a transfer, for a missing chunk with an available peer. -/
  | openIn (s : State) (q p : ℕ) (hq : q ∈ s.missing) (hp : p ∈ (s.chunks.cell q).peer)
      (hav : (s.peers.cell p).available = 1) (hno : ∀ t ∈ s.incoming, s.binHash t.c ≠ s.binHash q)
      (h : may .openIn) : Move may s (s.insertIncoming p q)
  /-- The client closes a transfer. -/
  | closeIn (s : State) (i : ℕ) (h : may .closeIn) : Move may s (s.deleteIncoming i)
  /-- The server opens a transfer, for an owned chunk. -/
  | openOut (s : State) (t : Transfer) (ht : t.c ∈ s.haveList) (h : may .openOut) :
      Move may s (s.insertOutgoing t)
  /-- The server closes a transfer. -/
  | closeOut (s : State) (i : ℕ) (h : may .closeOut) : Move may s (s.deleteOutgoing i)

/-- Sequences of moves. -/
abbrev Moves (may : Kind → Prop) : State → State → Prop := ReflTransGen (Move may)

theorem Move.mono {may may' : Kind → Prop} (h : ∀ k, may k → may' k) {s s' : State}
    (hm : Move may s s') : Move may' s s' := by
  cases hm with
  | tick n => exact .tick s n
  | emit es he => exact .emit s es he
  | touchIn i f hf => exact .touchIn s i f hf
  | touchOut i t t' hi ht => exact .touchOut s i t t' hi ht
  | offer q p hq hp => exact .offer s q p hq hp
  | forget q keep hq => exact .forget s q keep hq
  | openIn q p hq hp hav hno hk => exact .openIn s q p hq hp hav hno (h _ hk)
  | closeIn i hk => exact .closeIn s i (h _ hk)
  | openOut t ht hk => exact .openOut s t ht (h _ hk)
  | closeOut i hk => exact .closeOut s i (h _ hk)

theorem Moves.mono {may may' : Kind → Prop} (h : ∀ k, may k → may' k) {s s' : State}
    (hm : Moves may s s') : Moves may' s s' := by
  induction hm with
  | refl => exact .refl
  | tail _ hmove ih => exact ih.tail (hmove.mono h)

/-! ### What moves leave alone -/

/-- A chunk without its peers. -/
def Chunk.content (c : Chunk) : Chunk := { c with peer := [] }

/-- An output file. -/
def Effect.IsOutput : Effect → Bool
  | .output _ _ _ _ => true
  | .send _ _ _ => false

/-- The output files so far. -/
def State.outputs (s : State) : List Effect := s.trace.filter Effect.IsOutput

/-- **What two states have in common when only moves lie between them.** -/
structure Frame (s s' : State) : Prop where
  wanted : s'.wanted = s.wanted
  haveList : s'.haveList = s.haveList
  missing : s'.missing = s.missing
  chunkFile : s'.userGetChunkFile = s.userGetChunkFile
  outputFile : s'.userOutputFilename = s.userOutputFilename
  peersNext : s'.peers.next = s.peers.next
  peerId : ∀ p, s'.peerId p = s.peerId p
  addr : ∀ p, (s'.peers.cell p).addr = (s.peers.cell p).addr
  chunksNext : s'.chunks.next = s.chunks.next
  content : ∀ q, (s'.chunks.cell q).content = (s.chunks.cell q).content
  outputs : s'.outputs = s.outputs

theorem Frame.refl (s : State) : Frame s s :=
  ⟨rfl, rfl, rfl, rfl, rfl, rfl, fun _ => rfl, fun _ => rfl, rfl, fun _ => rfl, rfl⟩

theorem Frame.trans {s s' s'' : State} (h : Frame s s') (h' : Frame s' s'') : Frame s s'' where
  wanted := h'.wanted.trans h.wanted
  haveList := h'.haveList.trans h.haveList
  missing := h'.missing.trans h.missing
  chunkFile := h'.chunkFile.trans h.chunkFile
  outputFile := h'.outputFile.trans h.outputFile
  peersNext := h'.peersNext.trans h.peersNext
  peerId p := (h'.peerId p).trans (h.peerId p)
  addr p := (h'.addr p).trans (h.addr p)
  chunksNext := h'.chunksNext.trans h.chunksNext
  content q := (h'.content q).trans (h.content q)
  outputs := h'.outputs.trans h.outputs

namespace Frame

variable {s s' : State}

theorem binHash (h : Frame s s') (q : ℕ) : s'.binHash q = s.binHash q := by
  have hq := congrArg Chunk.binHash (h.content q)
  exact hq

theorem chunkData (h : Frame s s') (q : ℕ) :
    (s'.chunks.cell q).chunkData = (s.chunks.cell q).chunkData := by
  have hq := congrArg Chunk.chunkData (h.content q)
  exact hq

theorem bits (h : Frame s s') (q : ℕ) : (s'.chunks.cell q).bits = (s.chunks.cell q).bits := by
  have hq := congrArg Chunk.bits (h.content q)
  exact hq

theorem findPeer (h : Frame s s') (src : SockaddrIn) : findPeer s' src = findPeer s src := by
  unfold P2P.findPeer
  rw [h.peersNext]
  simp only [h.addr]

theorem bitsCount (h : Frame s s') (q : ℕ) :
    (s'.chunks.cell q).bitsCount = (s.chunks.cell q).bitsCount := by
  have hq := congrArg Chunk.bitsCount (h.content q)
  exact hq

end Frame

theorem content_modify {h : Heap Chunk} {q : ℕ} {f : Chunk → Chunk}
    (hf : ∀ c, (f c).content = c.content) (r : ℕ) :
    ((h.modify q f).cell r).content = (h.cell r).content :=
  h.proj_modify q f Chunk.content hf r

theorem peerId_setAvailable (s : State) (p a r : ℕ) : (s.setAvailable p a).peerId r = s.peerId r :=
  s.peers.proj_modify p (fun b => { b with available := a }) BtPeer.id (fun _ => rfl) r

theorem Frame.setAvailable (s : State) (p a : ℕ) : Frame s (s.setAvailable p a) :=
  ⟨rfl, rfl, rfl, rfl, rfl, rfl, peerId_setAvailable s p a,
    s.peers.proj_modify p (fun b => { b with available := a }) BtPeer.addr fun _ => rfl,
    rfl, fun _ => rfl, rfl⟩

theorem Frame.modifyChunk (s : State) (q : ℕ) {f : Chunk → Chunk}
    (hf : ∀ c, (f c).content = c.content) : Frame s (s.modifyChunk q f) :=
  ⟨rfl, rfl, rfl, rfl, rfl, rfl, fun _ => rfl, fun _ => rfl, rfl, content_modify hf, rfl⟩

theorem Frame.incoming (s : State) (l : List Transfer) : Frame s { s with incoming := l } :=
  ⟨rfl, rfl, rfl, rfl, rfl, rfl, fun _ => rfl, fun _ => rfl, rfl, fun _ => rfl, rfl⟩

theorem Frame.outgoing (s : State) (l : List Transfer) : Frame s { s with outgoing := l } :=
  ⟨rfl, rfl, rfl, rfl, rfl, rfl, fun _ => rfl, fun _ => rfl, rfl, fun _ => rfl, rfl⟩

theorem Frame.tick (s : State) (n : ℕ) : Frame s (s.tick n) :=
  ⟨rfl, rfl, rfl, rfl, rfl, rfl, fun _ => rfl, fun _ => rfl, rfl, fun _ => rfl, rfl⟩

theorem Frame.deleteIncoming (s : State) (i : ℕ) : Frame s (s.deleteIncoming i) := by
  unfold State.deleteIncoming
  split
  · exact Frame.refl s
  · exact (Frame.setAvailable s _ 1).trans (Frame.incoming _ _)

theorem Frame.deleteOutgoing (s : State) (i : ℕ) : Frame s (s.deleteOutgoing i) := by
  unfold State.deleteOutgoing
  split
  · exact Frame.refl s
  · exact (Frame.setAvailable s _ 1).trans (Frame.outgoing _ _)

theorem outputs_emit {s : State} {es : List Effect} (h : ∀ e ∈ es, Sendable s e) :
    State.outputs { s with trace := s.trace ++ es } = s.outputs := by
  have hnone : es.filter Effect.IsOutput = [] := by
    rw [List.filter_eq_nil_iff]
    intro e he
    cases e with
    | send dest pack about => exact Bool.false_ne_true
    | output file chunkFile image chunks => exact absurd (h _ he) id
  simp only [State.outputs, List.filter_append, hnone, List.append_nil]

/-- **A move changes nothing in the frame.** -/
theorem Move.frame {may : Kind → Prop} {s s' : State} (h : Move may s s') : Frame s s' := by
  cases h with
  | tick n => exact Frame.tick s n
  | emit es he =>
      exact ⟨rfl, rfl, rfl, rfl, rfl, rfl, fun _ => rfl, fun _ => rfl, rfl, fun _ => rfl,
        outputs_emit he⟩
  | touchIn i f hf => exact Frame.incoming s _
  | touchOut i t t' hi ht => exact Frame.outgoing s _
  | offer q p hq hp => exact Frame.modifyChunk s q fun _ => rfl
  | forget q keep hq => exact Frame.modifyChunk s q fun _ => rfl
  | openIn q p hq hp hav hno hk =>
      exact ((Frame.tick s 1).trans (Frame.setAvailable _ p 0)).trans (Frame.incoming _ _)
  | closeIn i hk => exact Frame.deleteIncoming s i
  | openOut t ht hk =>
      exact ((Frame.tick s 1).trans (Frame.setAvailable _ t.peer 0)).trans (Frame.outgoing _ _)
  | closeOut i hk => exact Frame.deleteOutgoing s i

/-- **Moves change nothing in the frame.** -/
theorem Moves.frame {may : Kind → Prop} {s s' : State} (h : Moves may s s') : Frame s s' := by
  induction h with
  | refl => exact Frame.refl s
  | tail _ hm ih => exact ih.trans hm.frame

/-! ### The transfers of the client -/

theorem mem_modify {α : Type*} {f : α → α} {l : List α} {i : ℕ} {b : α} (h : b ∈ l.modify i f) :
    ∃ a ∈ l, b = a ∨ b = f a := by
  obtain ⟨j, hj⟩ := List.mem_iff_getElem?.1 h
  rw [List.getElem?_modify] at hj
  obtain ⟨a, ha, hab⟩ := Option.map_eq_some_iff.1 hj
  refine ⟨a, List.mem_of_getElem? ha, ?_⟩
  split at hab
  · exact Or.inr hab.symm
  · exact Or.inl hab.symm

theorem mem_incoming_deleteIncoming {s : State} {i : ℕ} {t : Transfer}
    (h : t ∈ (s.deleteIncoming i).incoming) : t ∈ s.incoming := by
  unfold State.deleteIncoming at h
  split at h
  · exact h
  · exact List.mem_of_mem_eraseIdx h

@[simp] theorem incoming_deleteOutgoing (s : State) (i : ℕ) :
    (s.deleteOutgoing i).incoming = s.incoming := by
  unfold State.deleteOutgoing
  split <;> rfl

/-- **Where the chunks of the client's transfers come from**: every transfer of the client is for a
chunk that was missing when it was opened. -/
theorem Move.incoming_chunks {may : Kind → Prop} {s s' : State} {P : ℕ → Prop}
    (h : Move may s s') (hm : ∀ q ∈ s.missing, P q) (hin : ∀ t ∈ s.incoming, P t.c) :
    ∀ t ∈ s'.incoming, P t.c := by
  intro t ht
  cases h with
  | touchIn i f hf =>
      obtain ⟨u, hu, rfl | rfl⟩ := mem_modify ht
      · exact hin t hu
      · rw [(hf u).2]
        exact hin u hu
  | openIn q p hq hp hav hno hk =>
      rcases List.mem_cons.1 ht with rfl | ht
      · exact hm q hq
      · exact hin t ht
  | closeIn i hk => exact hin t (mem_incoming_deleteIncoming ht)
  | closeOut i hk =>
      rw [incoming_deleteOutgoing] at ht
      exact hin t ht
  | _ => exact hin t ht

theorem Moves.incoming_chunks {may : Kind → Prop} {s s' : State} {P : ℕ → Prop}
    (h : Moves may s s') (hm : ∀ q ∈ s.missing, P q) (hin : ∀ t ∈ s.incoming, P t.c) :
    ∀ t ∈ s'.incoming, P t.c := by
  induction h with
  | refl => exact hin
  | tail hs hmove ih =>
      refine hmove.incoming_chunks (fun q hq => hm q ?_) ih
      rw [← Moves.frame hs |>.missing]
      exact hq

/-! ### Loops over the missing list -/

/-- A loop over missing chunks is made of moves if its body is. -/
theorem moves_foldl {may : Kind → Prop} {body : State → ℕ → State}
    (hbody : ∀ s q, q ∈ s.missing → Moves may s (body s q)) {l : List ℕ} {s : State}
    (hl : ∀ q ∈ l, q ∈ s.missing) : Moves may s (l.foldl body s) := by
  induction l generalizing s with
  | nil => exact .refl
  | cons q l ih =>
      have hq := hbody s q (hl q (by simp))
      refine hq.trans (ih fun r hr => ?_)
      rw [hq.frame.missing]
      exact hl r (by simp [hr])

/-! ### The senders -/

theorem moves_stampIncoming {may : Kind → Prop} (s : State) (i : ℕ) :
    Moves may s (s.stampIncoming i) :=
  (ReflTransGen.single (.tick s 1)).tail
    (.touchIn (s.tick 1) i (fun t => { t with timestamp := s.clock 0 }) fun _ => ⟨rfl, rfl⟩)

theorem moves_sendPacketToPeer {may : Kind → Prop} {s : State} {dest : ℕ} {pack : Packet}
    {about : Option BinHash} (h : Sendable s (.send dest pack about)) :
    Moves may s (s.sendPacketToPeer dest pack about) :=
  .single (.emit s [.send dest pack about] fun e he => by rw [List.mem_singleton.1 he]; exact h)

/-- A stamped transfer is still there for the packet that is sent. -/
theorem exists_stampIncoming {s : State} {i : ℕ} {hash : BinHash}
    (h : ∃ t ∈ s.incoming, s.binHash t.c = hash) :
    ∃ t ∈ (s.stampIncoming i).incoming, (s.stampIncoming i).binHash t.c = hash := by
  obtain ⟨t, ht, rfl⟩ := h
  obtain ⟨j, hj⟩ := List.mem_iff_getElem?.1 ht
  have hj' : (s.stampIncoming i).incoming[j]? =
      some (if i = j then { t with timestamp := s.clock 0 } else t) := by
    simp only [State.stampIncoming, List.getElem?_modify, hj]
    split <;> rfl
  refine ⟨_, List.mem_of_getElem? hj', ?_⟩
  split <;> rfl

theorem moves_sendGET {may : Kind → Prop} {s : State} {peer : ℕ} {hash : BinHash} {count : ℕ}
    (h : ∃ t ∈ s.incoming, s.binHash t.c = hash) : Moves may s (sendGET s peer hash count) := by
  unfold sendGET
  split
  · exact .refl
  · rename_i i t _
    refine (moves_stampIncoming s i).trans (moves_sendPacketToPeer ?_)
    obtain ⟨u, hu, rfl⟩ := exists_stampIncoming (i := i) h
    exact ⟨u, hu, rfl, rfl⟩

theorem moves_sendACK {may : Kind → Prop} (s : State) (peer ackNum : ℕ) :
    Moves may s (sendACK s peer ackNum) := by
  unfold sendACK
  split
  · exact .refl
  · rename_i i t hfind
    refine (moves_stampIncoming s i).trans (moves_sendPacketToPeer ?_)
    obtain ⟨u, hu, hc⟩ := exists_stampIncoming (i := i)
      ⟨t, mem_of_nodeFind hfind, rfl⟩
    exact ⟨u, hu, by rw [hc]⟩

theorem moves_sendPacketToAll {may : Kind → Prop} (s : State) {pack : Packet}
    (h : pack.type = .whohas) : Moves may s (s.sendPacketToAll pack) := by
  unfold State.sendPacketToAll
  suffices hl : ∀ (l : List ℕ) (s' : State), Moves may s' (l.foldl
      (fun s' p => if s.identity ≠ s.peerId p then s'.sendPacketToPeer p pack none else s') s') from
    hl _ s
  intro l
  induction l with
  | nil => exact fun _ => .refl
  | cons p l ih =>
      intro s'
      rw [List.foldl_cons]
      split
      · exact (moves_sendPacketToPeer (by rw [Sendable, h]; trivial)).trans (ih _)
      · exact ih s'

theorem moves_sendWHOHASLoop {may : Kind → Prop} (l : List ℕ) (hashes : List BinHash) (s : State) :
    Moves may s (sendWHOHASLoop l hashes s) := by
  induction l generalizing hashes s with
  | nil => exact .refl
  | cons q l ih =>
      rw [sendWHOHASLoop]
      split
      · exact (moves_sendPacketToAll s rfl).trans (ih _ _)
      · exact ih _ _

theorem moves_sendWHOHAS {may : Kind → Prop} (s : State) : Moves may s (sendWHOHAS s) :=
  moves_sendWHOHASLoop s.missing [] s

/-- The peer and the chunk of a transfer. -/
def Transfer.ends (t : Transfer) : ℕ × ℕ := (t.peer, t.c)

/-- Stamping a transfer does not change its ends. -/
theorem ends_stampIncoming (s : State) (i : ℕ) :
    (s.stampIncoming i).incoming.map Transfer.ends = s.incoming.map Transfer.ends :=
  map_modify_same (f := fun t : Transfer => { t with timestamp := s.clock 0 }) (fun _ => rfl) i

/-- An acknowledgement changes times only. -/
theorem sendACK_same (s : State) (peer n : ℕ) :
    (sendACK s peer n).chunks = s.chunks ∧ (sendACK s peer n).peers = s.peers ∧
      (sendACK s peer n).missing = s.missing ∧ (sendACK s peer n).wanted = s.wanted ∧
      (sendACK s peer n).incoming.map Transfer.ends = s.incoming.map Transfer.ends := by
  unfold sendACK
  split
  · exact ⟨rfl, rfl, rfl, rfl, rfl⟩
  · exact ⟨rfl, rfl, rfl, rfl, ends_stampIncoming s _⟩

/-- The chunk that a piece was stored in, after the answer. -/
theorem cell_sendACK_self (s : State) (q peer n : ℕ) (c : Chunk) :
    (sendACK (s.modifyChunk q fun _ => c) peer n).chunks.cell q = c := by
  rw [(sendACK_same _ peer n).1]
  exact Heap.cell_modify_self s.chunks q fun _ => c

/-- The other chunks, after the answer. -/
theorem cell_sendACK_of_ne (s : State) {q r : ℕ} (h : r ≠ q) (peer n : ℕ) (c : Chunk) :
    (sendACK (s.modifyChunk q fun _ => c) peer n).chunks.cell r = s.chunks.cell r := by
  rw [(sendACK_same _ peer n).1]
  exact Heap.cell_modify_of_ne s.chunks (fun _ => c) h

/-- The transfer that is found by its peer, when there is only one. -/
theorem findIncoming_of_ends {s : State} {p q : ℕ} (h : s.incoming.map Transfer.ends = [(p, q)]) :
    ∃ t, s.findIncoming p = some (0, t) ∧ t.c = q := by
  obtain ⟨t, ht, hends⟩ := List.map_eq_singleton_iff.1 h
  have hp : t.peer = p := congrArg Prod.fst hends
  refine ⟨t, ?_, congrArg Prod.snd hends⟩
  unfold State.findIncoming
  rw [ht]
  simp [nodeFind, State.compareTransferByPeerId, hp]

/-! ### The client -/

theorem moves_requestChunk {may : Kind → Prop} (hopen : may .openIn) {s : State} {q : ℕ}
    (hq : q ∈ s.missing) : Moves may s (requestChunk s q) := by
  unfold requestChunk
  split
  · rename_i p hnone hpeer
    have hav : (s.peers.cell p).available = 1 := by simpa using List.find?_some hpeer
    have hno : ∀ t ∈ s.incoming, s.binHash t.c ≠ s.binHash q := by
      intro t ht heq
      have hfalse := nodeFind_eq_none_iff.1 hnone t ht
      rw [State.compareTransferByChunkHash_iff.2 heq] at hfalse
      cases hfalse
    refine (ReflTransGen.single
      (.openIn s q p hq (List.mem_of_find?_eq_some hpeer) hav hno hopen)).trans (moves_sendGET ?_)
    exact ⟨createTransfer p q (s.clock 0), List.mem_cons_self .., rfl⟩
  · exact .refl

theorem moves_getChunkData {may : Kind → Prop} (hopen : may .openIn) (s : State) :
    Moves may s (getChunkData s) :=
  moves_foldl (fun _ _ => moves_requestChunk hopen) fun _ h => h

theorem moves_receiveDENIED {may : Kind → Prop} (hclose : may .closeIn) (s : State) (peer : ℕ) :
    Moves may s (receiveDENIED s peer) := by
  unfold receiveDENIED
  split
  · exact .refl
  · exact .single (.closeIn s _ hclose)

theorem moves_offerPeer {may : Kind → Prop} {peer : ℕ} (hash : BinHash) {s : State}
    (hp : peer < s.peers.next) {q : ℕ} (hq : q ∈ s.missing) :
    Moves may s (offerPeer peer hash s q) := by
  unfold offerPeer
  split
  · exact .single (.offer s q peer hq hp)
  · exact .refl

/-- The loops of `receive_IHAVE`. -/
theorem moves_offers {may : Kind → Prop} {s : State} (pack : Packet) {peer : ℕ}
    (hp : peer < s.peers.next) : Moves may s ((List.range pack.hashNum.toNat).foldl
      (fun s i => s.missing.foldl (offerPeer peer (pack.hashList i)) s) s) := by
  have hinner : ∀ (hash : BinHash) (l : List ℕ) (s' : State), peer < s'.peers.next →
      (∀ q ∈ l, q ∈ s'.missing) → Moves may s' (l.foldl (offerPeer peer hash) s') := by
    intro hash l
    induction l with
    | nil => exact fun _ _ _ => .refl
    | cons q l ih =>
        intro s' hp' hl
        have hq : Moves may s' (offerPeer peer hash s' q) :=
          moves_offerPeer hash hp' (hl q (by simp))
        refine hq.trans (ih _ (by rw [hq.frame.peersNext]; exact hp') fun r hr => ?_)
        rw [hq.frame.missing]
        exact hl r (by simp [hr])
  have houter : ∀ (l : List ℕ) (s' : State), peer < s'.peers.next →
      Moves may s' (l.foldl
        (fun s i => s.missing.foldl (offerPeer peer (pack.hashList i)) s) s') := by
    intro l
    induction l with
    | nil => exact fun _ _ => .refl
    | cons i l ih =>
        intro s' hp'
        have hi := hinner (pack.hashList i) s'.missing s' hp' fun _ h => h
        exact hi.trans (ih _ (by rw [hi.frame.peersNext]; exact hp'))
  exact houter _ s hp

theorem moves_receiveIHAVE {may : Kind → Prop} (hopen : may .openIn) {s : State} (pack : Packet)
    {peer : ℕ} (hp : peer < s.peers.next) : Moves may s (receiveIHAVE s pack peer) :=
  (moves_offers pack hp).trans (moves_getChunkData hopen _)

theorem moves_handleTransferDead {may : Kind → Prop} (hclose : may .closeIn) (s : State) (i : ℕ)
    (t : Transfer) : Moves may s (handleTransferDead s i t) :=
  (moves_foldl (fun s q hq => .single (.forget s q _ hq)) fun _ h => h).tail (.closeIn _ i hclose)

theorem moves_clientTimeoutLoop {may : Kind → Prop} (hclose : may .closeIn) (fuel i : ℕ)
    (s : State) : Moves may s (clientTimeoutLoop fuel i s) := by
  induction fuel generalizing i s with
  | zero => exact .refl
  | succ fuel ih =>
      rw [clientTimeoutLoop]
      split
      · exact .refl
      · rename_i t ht
        have htick : Moves may s (s.tick 1) := .single (.tick s 1)
        split
        · have hcount : Moves may s ((s.tick 1).countIncoming i) :=
            htick.tail (.touchIn (s.tick 1) i _ fun _ => ⟨rfl, rfl⟩)
          dsimp only
          split
          · exact (hcount.trans (moves_handleTransferDead hclose _ i t)).trans (ih i _)
          · split
            · refine (hcount.trans (moves_sendGET ?_)).trans (ih (i + 1) _)
              have hi : ((s.tick 1).countIncoming i).incoming[i]? = some { t with cctrl :=
                  { t.cctrl with timeoutCount := u32 (1 + t.cctrl.timeoutCount) } } := by
                simp [State.countIncoming, State.tick, ht]
              exact ⟨_, List.mem_of_getElem? hi, rfl⟩
            · exact (hcount.trans (moves_sendACK _ _ _)).trans (ih (i + 1) _)
        · exact htick.trans (ih (i + 1) _)

theorem moves_handleClientTimeout {may : Kind → Prop} (hopen : may .openIn) (hclose : may .closeIn)
    (s : State) : Moves may s (handleClientTimeout s) := by
  unfold handleClientTimeout
  split
  · exact .refl
  · have hloop : Moves may s (getChunkData (clientTimeoutLoop s.incoming.length 0 s)) :=
      (moves_clientTimeoutLoop hclose s.incoming.length 0 s).trans (moves_getChunkData hopen _)
    dsimp only
    split
    · exact hloop.trans (moves_sendWHOHAS _)
    · exact hloop

/-! ### The server -/

theorem moves_sendDENIED {may : Kind → Prop} (s : State) (peer : ℕ) :
    Moves may s (sendDENIED s peer) :=
  (ReflTransGen.single (.tick s 1)).trans (moves_sendPacketToPeer trivial)

/-- The packets that are sent for a transfer of the server. -/
theorem moves_sendPieces {may : Kind → Prop} {s : State} {t : Transfer} {sent : List Packet}
    (ht : t ∈ s.outgoing) (hsent : ∀ pack ∈ sent, ∃ c i, pack = dataPacket c i) :
    Move may s (s.sendPieces t sent) := by
  refine .emit s _ fun e he => ?_
  obtain ⟨pack, hpack, rfl⟩ := List.mem_map.1 he
  obtain ⟨c, i, rfl⟩ := hsent pack hpack
  exact ⟨t, ht, rfl⟩

theorem moves_receiveGET {may : Kind → Prop} (hopen : may .openOut) (s : State) (pack : Packet)
    (peer : ℕ) : Moves may s (receiveGET s pack peer) := by
  unfold receiveGET
  split
  · exact moves_sendDENIED s peer
  · rename_i q hfind
    split
    · exact moves_sendDENIED s peer
    · split
      · exact .refl
      · refine (ReflTransGen.single (.openOut s _ (mem_of_nodeFind hfind) hopen)).tail
          (moves_sendPieces (List.mem_cons_self ..) fun d hd => ?_)
        obtain ⟨i, -, rfl⟩ := mem_sendDATA hd
        exact ⟨_, i, rfl⟩

theorem moves_receiveWHOHAS {may : Kind → Prop} {s s' : State} {pack : Packet} {peer : ℕ}
    (h : receiveWHOHAS s pack peer = .ok s') : Moves may s s' := by
  rw [receiveWHOHAS_eq] at h
  split at h
  · cases h
    exact (ReflTransGen.single (.tick s 1)).trans (moves_sendPacketToPeer trivial)
  · cases h

/-- Only the acknowledgement of the last piece closes a transfer. -/
theorem moves_receiveACK {may : Kind → Prop} {s : State} {pack : Packet} {peer : ℕ}
    (h : pack.ackNum.toNat = maxSeqNum → ∀ i t, s.findOutgoing peer = some (i, t) → may .closeOut) :
    Moves may s (receiveACK s pack peer) := by
  unfold receiveACK
  split
  · exact .refl
  · rename_i i t hfind
    have hi := (State.findOutgoing_getElem? hfind).1
    split
    · rename_i hack
      obtain ⟨hlast, -⟩ | ⟨-, t', hsome, -⟩ :=
        ackTransfer_cases s.clock (s.chunks.cell t.c) t pack.ackNum.toNat
      · exact .single (.closeOut s i (h hlast i t hfind))
      · rw [hsome] at hack
        cases hack
    · rename_i t' sent hack
      obtain ⟨hpeer, hc, hsent⟩ := ackTransfer_same hack
      have hset : i < s.outgoing.length := (List.getElem?_eq_some_iff.1 hi).1
      refine ((ReflTransGen.single (.tick s 3)).tail
        (.touchOut (s.tick 3) i t t' hi ⟨hpeer, hc⟩)).tail (moves_sendPieces ?_ ?_)
      · exact List.mem_of_getElem? (List.getElem?_set_self hset)
      · intro d hd
        obtain ⟨k, -, rfl⟩ := hsent d hd
        exact ⟨_, k, rfl⟩

theorem moves_serverTimeoutLoop {may : Kind → Prop} (hclose : may .closeOut) (fuel i : ℕ)
    (s : State) : Moves may s (serverTimeoutLoop fuel i s) := by
  induction fuel generalizing i s with
  | zero => exact .refl
  | succ fuel ih =>
      have htick : Moves may s (s.tick 2) := .single (.tick s 2)
      rw [serverTimeoutLoop]
      split
      · exact .refl
      · rename_i t ht
        split
        · exact (htick.tail (.closeOut (s.tick 2) i hclose)).trans (ih i _)
        · rename_i t' hto
          obtain ⟨hpeer, hc, -, -⟩ := timeoutTransfer_same hto
          exact (htick.tail (.touchOut (s.tick 2) i t t' ht ⟨hpeer, hc⟩)).trans (ih (i + 1) _)

theorem moves_handleServerTimeout {may : Kind → Prop} (hclose : may .closeOut) (s : State) :
    Moves may s (handleServerTimeout s) :=
  moves_serverTimeoutLoop hclose _ 0 s

/-! ### Complete chunks -/

/-- A chunk that was validated moves from the missing list to the have list: the node at position
`i` goes, the chunk at `q` comes. -/
def State.accept (s : State) (i q : ℕ) : State :=
  { s with missing := s.missing.eraseIdx i, haveList := q :: s.haveList }

/-- **What becomes of a complete chunk**: data with the wrong hash is discarded; otherwise the first
missing chunk with the hash gives way to it, if there is one, and the client looks whether anything
is still missing. -/
theorem finishChunk_cases (shahash : List UInt8 → BinHash) (s : State) (q : ℕ) :
    ¬ (s.chunks.cell q).Verified shahash ∧
        finishChunk shahash s q = s.modifyChunk q discardData ∨
      (s.chunks.cell q).Verified shahash ∧ (∀ r ∈ s.missing, s.binHash r ≠ s.binHash q) ∧
        finishChunk shahash s q = checkAllReceived s ∨
      (s.chunks.cell q).Verified shahash ∧ ∃ i r, s.missing[i]? = some r ∧
        s.binHash r = s.binHash q ∧ (∀ r' ∈ s.missing.take i, s.binHash r' ≠ s.binHash q) ∧
        finishChunk shahash s q = checkAllReceived (s.accept i q) := by
  have hne : ∀ r, compareChunkByBinHash (s.chunks.cell r) (s.binHash q) = false →
      s.binHash r ≠ s.binHash q := by
    intro r hr heq
    rw [compareChunkByBinHash_iff.2 heq] at hr
    cases hr
  unfold finishChunk validateChunk
  by_cases hvalid : chunkIsValid shahash (s.chunks.cell q) = true
  · rw [if_pos hvalid]
    refine Or.inr ?_
    cases hfind : nodeFind (fun r => compareChunkByBinHash (s.chunks.cell r) (s.binHash q))
        s.missing with
    | none =>
        exact Or.inl ⟨chunkIsValid_iff.1 hvalid,
          fun r hr => hne r (nodeFind_eq_none_iff.1 hfind r hr), rfl⟩
    | some node =>
        obtain ⟨i, r⟩ := node
        obtain ⟨hi, hr, hbefore⟩ := nodeFind_eq_some_iff.1 hfind
        exact Or.inr ⟨chunkIsValid_iff.1 hvalid, i, r, hi, compareChunkByBinHash_iff.1 hr,
          fun r' hr' => hne r' (hbefore r' hr'), rfl⟩
  · rw [if_neg hvalid]
    exact Or.inl ⟨fun hv => hvalid (chunkIsValid_iff.2 hv), rfl⟩

/-- The first missing chunk has the hash of a chunk that is validated. -/
theorem finishChunk_first {shahash : List UInt8 → BinHash} {s : State} {q r : ℕ} {rest : List ℕ}
    (hv : (s.chunks.cell q).Verified shahash) (hm : s.missing = r :: rest)
    (hr : s.binHash r = s.binHash q) :
    finishChunk shahash s q = checkAllReceived (s.accept 0 q) := by
  obtain ⟨hbad, -⟩ | ⟨-, hno, -⟩ | ⟨-, i, r', hi, -, hbefore, heq⟩ :=
    finishChunk_cases shahash s q
  · exact absurd hv hbad
  · exact absurd hr (hno r (by rw [hm]; exact List.mem_cons_self ..))
  · cases i with
    | zero => exact heq
    | succ i => exact absurd hr (hbefore r (by rw [hm]; simp))

/-- The output that `construct_data` makes. -/
def State.output (s : State) : Effect :=
  .output s.userOutputFilename s.userGetChunkFile (FileImage.writes (outputWrites s))
    (s.wanted.map s.chunks.cell)

theorem outputs_constructData (s : State) :
    (constructData s).outputs = s.outputs ++ [s.output] := by
  simp only [State.outputs, constructData, List.filter_append]
  rfl

/-- `receive_DATA`, once its transfer was found and the piece stored. -/
theorem receiveDATA_of_store (shahash : List UInt8 → BinHash) {s : State} {pack : Packet}
    {peer i : ℕ} {t : Transfer} {c : Chunk} (hfind : s.findIncoming peer = some (i, t))
    (hstore : storeData pack (s.chunks.cell t.c) = .ok c) :
    receiveDATA shahash s pack peer =
      if chunkBitsAllReceived c then
        .ok (getChunkData ((finishChunk shahash (sendACK (s.modifyChunk t.c fun _ => c) peer
          (dataFindLargestConsecSeq c)) t.c).deleteIncoming i))
      else .ok (sendACK (s.modifyChunk t.c fun _ => c) peer (dataFindLargestConsecSeq c)) := by
  unfold receiveDATA
  rw [hfind]
  simp only [hstore]

/-- **What a piece of data can do**: nothing, if there is no transfer with the sender; otherwise it
is stored in the chunk of that transfer and acknowledged, and a chunk that is then complete is
checked. -/
theorem receiveDATA_cases {shahash : List UInt8 → BinHash} {s s' : State} {pack : Packet}
    {peer : ℕ} (h : receiveDATA shahash s pack peer = .ok s') :
    s.findIncoming peer = none ∧ s' = s ∨
      ∃ i t c, s.findIncoming peer = some (i, t) ∧ storeData pack (s.chunks.cell t.c) = .ok c ∧
        ∃ s₁, s₁ = sendACK (s.modifyChunk t.c fun _ => c) peer (dataFindLargestConsecSeq c) ∧
          (chunkBitsAllReceived c = false ∧ s' = s₁ ∨ chunkBitsAllReceived c = true ∧
            s' = getChunkData ((finishChunk shahash s₁ t.c).deleteIncoming i)) := by
  cases hfind : s.findIncoming peer with
  | none =>
      unfold receiveDATA at h
      rw [hfind] at h
      cases h
      exact Or.inl ⟨rfl, rfl⟩
  | some node =>
      obtain ⟨i, t⟩ := node
      cases hstore : storeData pack (s.chunks.cell t.c) with
      | error x =>
          unfold receiveDATA at h
          rw [hfind] at h
          simp only [hstore] at h
          cases h
      | ok c =>
          rw [receiveDATA_of_store shahash hfind hstore] at h
          refine Or.inr ⟨i, t, c, rfl, hstore, _, rfl, ?_⟩
          cases hdone : chunkBitsAllReceived c with
          | false =>
              rw [hdone, if_neg Bool.false_ne_true] at h
              cases h
              exact Or.inl ⟨rfl, rfl⟩
          | true =>
              rw [hdone, if_pos rfl] at h
              cases h
              exact Or.inr ⟨rfl, rfl⟩

/-- What is left to do after a complete chunk was checked. -/
theorem moves_afterFinish {may : Kind → Prop} (hopen : may .openIn) (hclose : may .closeIn)
    (s : State) (i : ℕ) : Moves may s (getChunkData (s.deleteIncoming i)) :=
  (ReflTransGen.single (.closeIn s i hclose)).trans (moves_getChunkData hopen _)

/-- Neither a request of the user nor a piece of data from a neighbour. -/
def Event.Quiet (s : State) : Event → Prop
  | .userGet _ _ _ => False
  | .packet src pack => ∀ peer, findPeer s src = some peer → pack.type ≠ .data
  | _ => True

/-- **What a step is**: a request, a piece of data, or moves on any other event. -/
theorem step_split {shahash : List UInt8 → BinHash} {s s' : State} {e : Event}
    (he : step shahash s e = .ok s') :
    (∃ chunkFile outputFile lines, e = .userGet chunkFile outputFile lines ∧
        s' = processGet s chunkFile outputFile lines) ∨
      (∃ src pack peer, e = .packet src pack ∧ findPeer s src = some peer ∧ pack.type = .data ∧
        receiveDATA shahash s pack peer = .ok s') ∨
      e.Quiet s ∧ Moves Kind.Any s s' := by
  cases handled_of_step he with
  | userGet chunkFile outputFile lines => exact Or.inl ⟨chunkFile, outputFile, lines, rfl, rfl⟩
  | data src pack peer s' hp ht hr => exact Or.inr (Or.inl ⟨src, pack, peer, rfl, hp, ht, hr⟩)
  | serverTimeout => exact Or.inr (Or.inr ⟨trivial, moves_handleServerTimeout trivial s⟩)
  | clientTimeout => exact Or.inr (Or.inr ⟨trivial, moves_handleClientTimeout trivial trivial s⟩)
  | stranger src pack hp =>
      refine Or.inr (Or.inr ⟨fun peer hpeer => ?_, .refl⟩)
      rw [hp] at hpeer
      cases hpeer
  | whohas src pack peer s' hp ht hr =>
      exact Or.inr (Or.inr ⟨fun _ _ => by rw [ht]; nofun, moves_receiveWHOHAS hr⟩)
  | ihave src pack peer hp ht =>
      exact Or.inr (Or.inr ⟨fun _ _ => by rw [ht]; nofun,
        moves_receiveIHAVE trivial pack (findPeer_lt hp)⟩)
  | get src pack peer hp ht =>
      exact Or.inr (Or.inr ⟨fun _ _ => by rw [ht]; nofun, moves_receiveGET trivial s pack peer⟩)
  | ack src pack peer hp ht =>
      exact Or.inr (Or.inr ⟨fun _ _ => by rw [ht]; nofun,
        moves_receiveACK fun _ _ _ _ => trivial⟩)
  | denied src pack peer hp ht =>
      exact Or.inr (Or.inr ⟨fun _ _ => by rw [ht]; nofun, moves_receiveDENIED trivial s peer⟩)

/-- The same, for whoever does not care about the event. -/
theorem step_cases {shahash : List UInt8 → BinHash} {s s' : State} {e : Event}
    (h : step shahash s e = .ok s') :
    (∃ chunkFile outputFile lines, e = .userGet chunkFile outputFile lines ∧
        s' = processGet s chunkFile outputFile lines) ∨
      (∃ src pack peer, e = .packet src pack ∧ findPeer s src = some peer ∧ pack.type = .data ∧
        receiveDATA shahash s pack peer = .ok s') ∨
      Moves Kind.Any s s' :=
  (step_split h).imp_right fun h => h.imp_right And.right

end P2P
