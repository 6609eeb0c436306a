/-
**Peers that tell the truth.**

A peer that runs the program says that it owns a chunk only if it does, and asks others only for
chunks that it has reason to think they own: because they said so.  What it may think is given by a
relation between peers and hashes; a peer that thinks nothing else goes on to think nothing else, as
long as the offers that reach it are right.

Main definitions:

* `P2P.Informed` — what a peer thinks of others is right;
* `P2P.Effect.Honest` — what a peer sends is right;
* `P2P.Says` — a piece of the program keeps what is thought right, and sends only what is.

Main results:

* `P2P.Says.of_within` — the rule for what opens no transfer;
* `P2P.Says.getChunkData` — what is asked for was offered;
* `P2P.Says.step` — **every step keeps a peer informed and honest.**
-/

import P2PFileTransfer.Wire

set_option relaxedAutoImplicit false
set_option autoImplicit false

namespace P2P

variable (own : BinHash → Prop) (K : ℕ → BinHash → Prop) (G : Chunk → Prop)

/-- The peer thinks of others only what `K` says: whoever is in the list of a missing chunk owns its
hash, and so does whoever is asked for it. -/
structure Informed (s : State) : Prop where
  owners : ∀ q ∈ s.missing, ∀ p ∈ s.owners q, K p (s.binHash q)
  incoming : ∀ t ∈ s.incoming, K t.peer (s.binHash t.c)

/-- What is sent is well made; a peer is asked only for what it owns, it is offered only what the
sender owns, and the pieces it gets are those of a good chunk that the sender owns, of the hash that
the transfer is about. -/
def Effect.Honest : Effect → Prop
  | .output _ _ _ _ => True
  | .send dest pack about => pack.Made ∧ (pack.type = .get → K dest (pack.hashList 0)) ∧
      (pack.type = .ihave → ∀ hash ∈ pack.hashes, own hash) ∧
      (pack.type = .data → ∃ c i, about = some c.binHash ∧ own c.binHash ∧ G c ∧ i < maxSeqNum ∧
        pack = dataPacket c i)

variable {own K G} in
/-- A packet that is neither a request, nor an offer, nor a piece. -/
theorem Effect.honest_of_made {dest : ℕ} {pack : Packet} {about : Option BinHash} (h : pack.Made)
    (hget : pack.type ≠ .get) (hihave : pack.type ≠ .ihave) (hdata : pack.type ≠ .data) :
    (Effect.send dest pack about).Honest own K G :=
  ⟨h, fun ht => absurd ht hget, fun ht => absurd ht hihave, fun ht => absurd ht hdata⟩

theorem Informed.mono {K K' : ℕ → BinHash → Prop} (hK : ∀ p hash, K p hash → K' p hash) {s : State}
    (h : Informed K s) : Informed K' s :=
  ⟨fun q hq p hp => hK p _ (h.owners q hq p hp), fun t ht => hK _ _ (h.incoming t ht)⟩

theorem Effect.Honest.mono {own own' : BinHash → Prop} {K K' : ℕ → BinHash → Prop}
    {G : Chunk → Prop} (hown : ∀ hash, own hash → own' hash)
    (hK : ∀ p hash, K p hash → K' p hash) {e : Effect} (h : e.Honest own K G) :
    e.Honest own' K' G := by
  cases e with
  | output file chunkFile image chunks => trivial
  | send dest pack about =>
      obtain ⟨hmade, hget, hihave, hdata⟩ := h
      refine ⟨hmade, fun ht => hK _ _ (hget ht), fun ht hash hm => hown hash (hihave ht hash hm),
        fun ht => ?_⟩
      obtain ⟨c, i, habout, howns, hrest⟩ := hdata ht
      exact ⟨c, i, habout, hown _ howns, hrest⟩

/-- A piece of the program that leads from `s` to `s'` keeps the peer informed, and what it sends is
honest. -/
def Says (s s' : State) : Prop :=
  Informed K s → Informed K s' ∧ ∃ es, s'.trace = s.trace ++ es ∧ ∀ e ∈ es, e.Honest own K G

variable {own K G}

namespace Says

variable {s s' s'' : State}

theorem refl (s : State) : Says own K G s s := fun h =>
  ⟨h, [], (List.append_nil _).symm, fun _ he => absurd he List.not_mem_nil⟩

theorem trans (h : Says own K G s s') (h' : Says own K G s' s'') : Says own K G s s'' := by
  intro hs
  obtain ⟨hs', es, htrace, hes⟩ := h hs
  obtain ⟨hs'', es', htrace', hes'⟩ := h' hs'
  refine ⟨hs'', es ++ es', by rw [htrace', htrace, List.append_assoc], fun e he => ?_⟩
  rcases List.mem_append.1 he with he | he
  · exact hes e he
  · exact hes' e he

/-- A loop over missing chunks. -/
theorem foldl_missing {body : State → ℕ → State}
    (h : ∀ s q, q ∈ s.missing → Says own K G s (body s q) ∧ (body s q).missing = s.missing)
    {l : List ℕ} {s : State} (hl : ∀ q ∈ l, q ∈ s.missing) : Says own K G s (l.foldl body s) := by
  induction l generalizing s with
  | nil => exact .refl s
  | cons q l ih =>
      obtain ⟨hbody, hmissing⟩ := h s q (hl q (List.mem_cons_self ..))
      exact hbody.trans (ih fun r hr => hmissing ▸ hl r (List.mem_cons_of_mem _ hr))

/-- **What opens no transfer** and puts no peer in a list. -/
theorem of_within (hmissing : ∀ q ∈ s'.missing, q ∈ s.missing)
    (howners : ∀ q ∈ s'.missing, s'.owners q ⊆ s.owners q)
    (hbin : ∀ q, s'.binHash q = s.binHash q) (hin : Within s.incoming s'.incoming)
    {es : List Effect} (htrace : s'.trace = s.trace ++ es)
    (hes : Informed K s → ∀ e ∈ es, e.Honest own K G) : Says own K G s s' := by
  intro hs
  refine ⟨⟨fun q hq p hp => ?_, fun t' ht' => ?_⟩, es, htrace, hes hs⟩
  · rw [hbin]
    exact hs.owners q (hmissing q hq) p (howners q hq hp)
  · obtain ⟨t, ht, hpeer, hc⟩ := hin t' ht'
    rw [hbin, hpeer, hc]
    exact hs.incoming t ht

/-- What sends nothing either. -/
theorem of_silent (hmissing : ∀ q ∈ s'.missing, q ∈ s.missing)
    (howners : ∀ q ∈ s'.missing, s'.owners q ⊆ s.owners q)
    (hbin : ∀ q, s'.binHash q = s.binHash q) (hin : Within s.incoming s'.incoming)
    (htrace : s'.trace = s.trace) : Says own K G s s' :=
  of_within hmissing howners hbin hin (htrace.trans (List.append_nil _).symm)
    fun _ _ he => absurd he List.not_mem_nil

/-- What writes nothing but chunks. -/
theorem foldl_chunks {α : Type*} {body : State → α → State}
    (h : ∀ s a, body s a = { s with chunks := (body s a).chunks }) (l : List α) (s : State) :
    l.foldl body s = { s with chunks := (l.foldl body s).chunks } := by
  induction l generalizing s with
  | nil => rfl
  | cons a l ih =>
      rw [List.foldl_cons]
      exact (ih (body s a)).trans
        (congrArg (fun u : State => { u with chunks := (l.foldl body (body s a)).chunks }) (h s a))

/-- The loops of `receive_IHAVE` write nothing but chunks. -/
theorem offered_eq (s : State) (pack : Packet) (peer : ℕ) :
    s.offered pack peer = { s with chunks := (s.offered pack peer).chunks } := by
  refine foldl_chunks (fun s hash => foldl_chunks (fun s q => ?_) s.missing s) _ s
  rw [offerPeer]
  split <;> rfl

/-- What leaves the chunks alone, and sends only what is honest. -/
theorem of_chunks (hmissing : s'.missing = s.missing) (hchunks : s'.chunks = s.chunks)
    (hin : Within s.incoming s'.incoming) {es : List Effect} (htrace : s'.trace = s.trace ++ es)
    (hes : Informed K s → ∀ e ∈ es, e.Honest own K G) : Says own K G s s' :=
  of_within (fun _ hq => hmissing ▸ hq)
    (fun q _ => by rw [State.owners, hchunks]; exact fun _ h => h)
    (fun q => by rw [State.binHash, hchunks]; rfl) hin htrace hes

/-! ### The client -/

theorem within_stampIncoming (s : State) (i : ℕ) :
    Within s.incoming (s.stampIncoming i).incoming :=
  Within.modify s.incoming i (f := fun t => { t with timestamp := s.clock 0 }) fun _ => ⟨rfl, rfl⟩

/-- `send_ACK`. -/
theorem sendACK (s : State) (peer ackNum : ℕ) : Says own K G s (sendACK s peer ackNum) := by
  rw [P2P.sendACK]
  split
  · exact .refl s
  · rename_i i t _
    refine of_chunks rfl rfl (within_stampIncoming s i) rfl fun _ e he => ?_
    rw [List.mem_singleton.1 he]
    exact Effect.honest_of_made (.ack _ _) (fun ht => by cases ht) (fun ht => by cases ht)
      fun ht => by cases ht

/-- `send_GET`, to a peer that owns the hash. -/
theorem sendGET {s : State} {peer : ℕ} {hash : BinHash} {count : ℕ}
    (hk : Informed K s → K peer hash) : Says own K G s (sendGET s peer hash count) := by
  rw [P2P.sendGET]
  split
  · exact .refl s
  · rename_i i t _
    refine of_chunks rfl rfl (within_stampIncoming s i) rfl fun hs e he => ?_
    rw [List.mem_singleton.1 he]
    exact ⟨.get _ _ _, fun _ => hk hs, (fun ht => by cases ht), fun ht => by cases ht⟩

/-- `send_WHOHAS`. -/
theorem sendWHOHAS (s : State) : Says own K G s (sendWHOHAS s) := by
  rw [sendWHOHAS_eq]
  refine of_chunks rfl rfl (Within.refl _) rfl fun _ e he => ?_
  obtain ⟨batch, hbatch, he⟩ := List.mem_flatMap.1 he
  obtain ⟨p, -, rfl⟩ := List.mem_map.1 he
  exact Effect.honest_of_made (.whohas _ (length_le_of_mem_hashBatches (by decide) hbatch))
    (fun ht => by cases ht) (fun ht => by cases ht)
      fun ht => by cases ht

/-- The body of `get_chunk_data`: the peer that is asked is in the list of the chunk. -/
theorem requestChunk {s : State} {q : ℕ} (hq : q ∈ s.missing) :
    Says own K G s (requestChunk s q) := by
  rw [P2P.requestChunk]
  split
  · rename_i peer _ hpeer
    have hmem : peer ∈ s.owners q := List.mem_of_find?_eq_some hpeer
    have hopen : Says own K G s (s.insertIncoming peer q) := by
      intro hs
      refine ⟨⟨hs.owners, fun t ht => ?_⟩, [], (List.append_nil _).symm,
        fun _ he => absurd he List.not_mem_nil⟩
      rcases List.mem_cons.1 ht with rfl | ht
      · exact hs.owners q hq peer hmem
      · exact hs.incoming t ht
    exact hopen.trans (sendGET fun hs => hs.owners q hq peer hmem)
  · exact .refl s

/-- **`get_chunk_data`** asks for what was offered. -/
theorem getChunkData (s : State) : Says own K G s (getChunkData s) :=
  foldl_missing (fun _ _ hq => ⟨requestChunk hq,
    (moves_requestChunk trivial hq : Moves Kind.Any _ _).frame.missing⟩) fun _ hq => hq

theorem deleteIncoming (s : State) (i : ℕ) : Says own K G s (s.deleteIncoming i) := by
  cases hi : s.incoming[i]? with
  | none =>
      rw [State.deleteIncoming, hi]
      exact .refl s
  | some t =>
      rw [State.deleteIncoming_eq hi]
      exact of_chunks rfl rfl (Within.eraseIdx _ i) (List.append_nil _).symm
        fun _ _ he => absurd he List.not_mem_nil

/-- `receive_DENIED`. -/
theorem receiveDENIED (s : State) (peer : ℕ) : Says own K G s (receiveDENIED s peer) := by
  rw [P2P.receiveDENIED]
  split
  · exact .refl s
  · exact deleteIncoming s _

/-- **`receive_IHAVE`**, when the sender owns what it offers. -/
theorem receiveIHAVE {s : State} {pack : Packet} {peer : ℕ}
    (hk : ∀ hash ∈ pack.hashes, K peer hash) : Says own K G s (receiveIHAVE s pack peer) := by
  rw [receiveIHAVE_eq]
  have hf := frame_offered s pack peer
  refine Says.trans (fun hs => ⟨⟨fun q hq p hp => ?_, fun t ht => ?_⟩, [], ?_, fun _ he => ?_⟩)
    (getChunkData _)
  · rw [hf.missing] at hq
    rw [hf.binHash]
    rw [owners_offered, State.ownersWith] at hp
    split at hp
    · rename_i hnew
      rcases List.mem_cons.1 hp with rfl | hp
      · exact hk _ hnew.1.2
      · exact hs.owners q hq p hp
    · exact hs.owners q hq p hp
  · rw [hf.binHash]
    rw [offered_eq] at ht
    exact hs.incoming t ht
  · rw [offered_eq, List.append_nil]
  · exact absurd he List.not_mem_nil

theorem checkAllReceived (s : State) : Says own K G s (checkAllReceived s) := by
  rw [P2P.checkAllReceived]
  split
  · refine of_chunks rfl rfl (Within.refl _) rfl fun _ e he => ?_
    rw [List.mem_singleton.1 he]
    trivial
  · exact .refl s

/-- What changes the chunk at `q`, but neither its hash nor its peers. -/
theorem modifyChunk (s : State) (q : ℕ) {f : Chunk → Chunk}
    (hbin : (f (s.chunks.cell q)).binHash = (s.chunks.cell q).binHash)
    (hpeer : (f (s.chunks.cell q)).peer ⊆ (s.chunks.cell q).peer) :
    Says own K G s (s.modifyChunk q f) := by
  refine of_silent (fun _ h => h) (fun r _ => ?_) (fun r => ?_) (Within.refl _) rfl
  · rw [State.owners, State.modifyChunk, Heap.cell_modify]
    split
    · rename_i hrq
      rw [hrq]
      exact hpeer
    · exact fun _ h => h
  · rw [State.binHash, State.modifyChunk, Heap.cell_modify]
    split
    · rename_i hrq
      rw [hrq]
      exact hbin
    · rfl

theorem finishChunk (shahash : List UInt8 → BinHash) (s : State) (q : ℕ) :
    Says own K G s (finishChunk shahash s q) := by
  obtain ⟨-, heq⟩ | ⟨-, -, heq⟩ | ⟨-, j, r, -, -, -, heq⟩ := finishChunk_cases shahash s q
  · rw [heq]
    exact modifyChunk s q rfl fun _ h => h
  · rw [heq]
    exact checkAllReceived s
  · rw [heq]
    have haccept : Says own K G s (s.accept j q) :=
      of_silent (fun _ h => List.mem_of_mem_eraseIdx h) (fun _ _ _ h => h) (fun _ => rfl)
        (Within.refl _) rfl
    exact haccept.trans (checkAllReceived _)

/-- `receive_DATA`. -/
theorem receiveDATA {s s' : State} {shahash : List UInt8 → BinHash} {pack : Packet} {peer : ℕ}
    (h : P2P.receiveDATA shahash s pack peer = .ok s') : Says own K G s s' := by
  obtain ⟨-, rfl⟩ | ⟨i, t, c, -, hstore, s₁, rfl, hend⟩ := receiveDATA_cases h
  · exact .refl _
  · have hstored : Says own K G s (s.modifyChunk t.c fun _ => c) := by
      obtain ⟨-, ⟨-, rfl⟩ | ⟨-, -, -, rfl⟩⟩ := storeData_cases hstore
      · exact modifyChunk s t.c rfl fun _ h => h
      · exact modifyChunk s t.c rfl fun _ h => h
    have hack := hstored.trans (sendACK _ peer (dataFindLargestConsecSeq c))
    rcases hend with ⟨-, rfl⟩ | ⟨-, rfl⟩
    · exact hack
    · exact ((hack.trans (finishChunk shahash _ t.c)).trans (deleteIncoming _ i)).trans
        (getChunkData _)

/-- `handle_transfer_dead`. -/
theorem handleTransferDead (s : State) (i : ℕ) (t : Transfer) :
    Says own K G s (handleTransferDead s i t) := by
  have hforget : ∀ (s : State) (q : ℕ), Says own K G s (forgetPeer t.peer s q) :=
    fun s q => modifyChunk s q rfl (List.filter_subset_self _)
  have hloop : Says own K G s (s.missing.foldl (forgetPeer t.peer) s) :=
    foldl_missing (fun s q _ => ⟨hforget s q, rfl⟩) fun _ hq => hq
  exact hloop.trans (deleteIncoming _ i)

/-- One pass of the loop of `handle_client_timeout`. -/
theorem clientTimeoutPass {s : State} {i : ℕ} {t : Transfer} (hi : s.incoming[i]? = some t) :
    Says own K G s (clientTimeoutPass s i t) := by
  have hcount : Says own K G s ((s.tick 1).countIncoming i) :=
    of_chunks rfl rfl (Within.modify s.incoming i (f := fun t : Transfer =>
      { t with cctrl := { t.cctrl with timeoutCount := u32 (1 + t.cctrl.timeoutCount) } })
      fun _ => ⟨rfl, rfl⟩) (List.append_nil _).symm fun _ _ he => absurd he List.not_mem_nil
  obtain ⟨-, heq⟩ | ⟨-, heq | ⟨n, heq⟩⟩ | ⟨-, -, heq⟩ := clientTimeoutPass_cases s i t
  · rw [heq]
    exact of_chunks rfl rfl (Within.refl _) (List.append_nil _).symm
      fun _ _ he => absurd he List.not_mem_nil
  · rw [heq]
    -- the transfer that is looked at is in the list, with its peer
    intro hs
    exact (hcount.trans (sendGET fun _ => hs.incoming t (List.mem_of_getElem? hi))) hs
  · rw [heq]
    exact hcount.trans (sendACK _ _ _)
  · rw [heq]
    exact hcount.trans (handleTransferDead _ i t)

/-- **`handle_client_timeout`.** -/
theorem handleClientTimeout (s : State) : Says own K G s (handleClientTimeout s) := by
  have hloop : ∀ (fuel i : ℕ) (s : State), Says own K G s (clientTimeoutLoop fuel i s) := by
    intro fuel i s
    refine clientTimeoutLoop_induction (P := fun _ s _ s' => Says own K G s s') (fun _ s => .refl s)
      (fun i s t _ s' hi h => ?_) fuel i s
    exact (clientTimeoutPass hi).trans h
  rw [P2P.handleClientTimeout]
  split
  · exact .refl s
  · have hget := (hloop s.incoming.length 0 s).trans (getChunkData _)
    dsimp only
    split
    · exact hget.trans (sendWHOHAS _)
    · exact hget

/-- **`process_get`**: nobody is known to own a new chunk. -/
theorem processGet {s : State} (hmissing : ∀ q ∈ s.missing, q < s.chunks.next)
    (hin : ∀ t ∈ s.incoming, t.c < s.chunks.next) (chunkFile outputFile : String)
    (lines : List ChunkLine) : Says own K G s (processGet s chunkFile outputFile lines) := by
  let s₀ : State := { s with userGetChunkFile := chunkFile, userOutputFilename := outputFile }
  have hlt : ∀ q ∈ s₀.missing, q < s₀.chunks.next := hmissing
  have hkept : Kept s₀ (lines.foldl wantLine s₀) := Kept.wantLines hlt lines
  obtain ⟨hincoming, -, htrace, -, hbin⟩ := wantLines_transfers lines s₀
  have hwant : Says own K G s (lines.foldl wantLine s₀) := by
    intro hs
    refine ⟨⟨fun q hq p hp => ?_, fun t ht => ?_⟩, [], ?_, fun _ he => absurd he List.not_mem_nil⟩
    · rcases hkept.owners q hq with hnil | ⟨hq', hbin', hsame⟩
      · rw [hnil] at hp
        exact absurd hp List.not_mem_nil
      · rw [hbin']
        exact hs.owners q hq' p (hsame ▸ hp)
    · rw [hincoming] at ht
      rw [hbin t.c (hin t ht)]
      exact hs.incoming t ht
    · rw [htrace, List.append_nil]
  exact (hwant.trans (checkAllReceived _)).trans (sendWHOHAS _)

/-! ### The server -/

theorem sendDENIED (s : State) (peer : ℕ) : Says own K G s (sendDENIED s peer) := by
  refine of_chunks rfl rfl (Within.refl _) rfl fun _ e he => ?_
  rw [List.mem_singleton.1 he]
  exact Effect.honest_of_made (.denied _) (fun ht => by cases ht) (fun ht => by cases ht)
      fun ht => by cases ht

/-- **`receive_WHOHAS`** offers owned hashes. -/
theorem receiveWHOHAS {s s' : State} {pack : Packet} {peer : ℕ}
    (h : P2P.receiveWHOHAS s pack peer = .ok s') : Says s.Owns K G s s' := by
  rw [receiveWHOHAS_eq] at h
  split at h
  · rename_i hlen
    cases h
    refine of_chunks rfl rfl (Within.refl _) rfl fun _ e he => ?_
    rw [List.mem_singleton.1 he]
    refine ⟨.ihave _ _ hlen, (fun ht => by cases ht), fun _ hash hmem => ?_, fun ht => by cases ht⟩
    rw [hashes_ihavePacket _ hlen] at hmem
    exact (mem_ownedHashes_iff.1 hmem).2
  · cases h

/-- Pieces of the chunk of a transfer. -/
theorem sendPieces {s : State} {t : Transfer} (hown : own (s.binHash t.c))
    (hgood : G (s.chunks.cell t.c)) {sent : List Packet}
    (hsent : ∀ pack ∈ sent, ∃ i < maxSeqNum, pack = dataPacket (s.chunks.cell t.c) i) :
    Says own K G s (s.sendPieces t sent) := by
  refine of_chunks rfl rfl (Within.refl _) rfl fun _ e he => ?_
  obtain ⟨pack, hpack, rfl⟩ := List.mem_map.1 he
  obtain ⟨i, hi, rfl⟩ := hsent pack hpack
  exact ⟨.data _ i hi, (fun ht => by cases ht), (fun ht => by cases ht),
    fun _ => ⟨s.chunks.cell t.c, i, rfl, hown, hgood, hi, rfl⟩⟩

/-- What changes only the server's transfers and the flags of peers. -/
theorem of_outgoing {s s' : State} (hmissing : s'.missing = s.missing)
    (hchunks : s'.chunks = s.chunks) (hin : s'.incoming = s.incoming)
    (htrace : s'.trace = s.trace) : Says own K G s s' :=
  of_chunks hmissing hchunks (hin ▸ Within.refl _) (htrace.trans (List.append_nil _).symm)
    fun _ _ he => absurd he List.not_mem_nil

/-- `receive_GET`, when all owned chunks are good. -/
theorem receiveGET {s : State} (hgood : ∀ q ∈ s.haveList, G (s.chunks.cell q)) (pack : Packet)
    (peer : ℕ) : Says s.Owns K G s (receiveGET s pack peer) := by
  rw [P2P.receiveGET]
  split
  · exact sendDENIED s peer
  · rename_i i q hfind
    split_ifs
    · exact sendDENIED s peer
    · exact .refl s
    · have hopen : ∀ t, Says s.Owns K G s (s.insertOutgoing t) :=
        fun t => of_outgoing rfl rfl rfl rfl
      have hq : q ∈ s.haveList := mem_of_nodeFind hfind
      exact (hopen _).trans (sendPieces ⟨q, hq, rfl⟩ (hgood q hq) fun pack => mem_sendDATA)

theorem deleteOutgoing (s : State) (i : ℕ) : Says own K G s (s.deleteOutgoing i) := by
  rw [State.deleteOutgoing]
  split
  · exact .refl s
  · exact of_outgoing rfl rfl rfl rfl

/-- `receive_ACK`, when all chunks that are sent are owned, and good. -/
theorem receiveACK {s : State} (hown : ∀ t ∈ s.outgoing, own (s.binHash t.c))
    (hgood : ∀ t ∈ s.outgoing, G (s.chunks.cell t.c)) (pack : Packet) (peer : ℕ) :
    Says own K G s (receiveACK s pack peer) := by
  rw [P2P.receiveACK]
  split
  · exact .refl s
  · rename_i hfind
    split
    · exact deleteOutgoing s _
    · rename_i i t _ t' sent hack
      have hset : Says own K G s { s.tick 3 with outgoing := s.outgoing.set i t' } :=
        of_outgoing rfl rfl rfl rfl
      have ht : t ∈ s.outgoing := mem_of_nodeFind hfind
      obtain ⟨-, hc, hpieces⟩ := ackTransfer_same hack
      exact hset.trans (sendPieces (hc ▸ hown t ht) (hc ▸ hgood t ht) (hc ▸ hpieces))

/-- `handle_server_timeout`. -/
theorem handleServerTimeout (s : State) : Says own K G s (handleServerTimeout s) := by
  have hloop : ∀ (fuel i : ℕ) (s : State), Says own K G s (serverTimeoutLoop fuel i s) := by
    intro fuel
    induction fuel with
    | zero => exact fun _ s => .refl s
    | succ fuel ih =>
        intro i s
        rw [serverTimeoutLoop]
        split
        · exact .refl s
        · split
          · have htick : Says own K G s (s.tick 2) := of_outgoing rfl rfl rfl rfl
            exact (htick.trans (deleteOutgoing _ i)).trans (ih i _)
          · rename_i t' _
            have hset : Says own K G s { s.tick 2 with outgoing := s.outgoing.set i t' } :=
              of_outgoing rfl rfl rfl rfl
            exact hset.trans (ih (i + 1) _)
  exact hloop _ 0 s

/-! ### Steps -/

/-- **Every step keeps a peer informed and honest**, if the offers that reach it are right. -/
theorem step {shahash : List UInt8 → BinHash} {s s' : State} {e : Event}
    (hmissing : ∀ q ∈ s.missing, q < s.chunks.next) (hin : ∀ t ∈ s.incoming, t.c < s.chunks.next)
    (hserving : Serving s) (hgood : ∀ q ∈ s.haveList, G (s.chunks.cell q))
    (hoffer : ∀ p hash, e.Offers s p hash → K p hash) (h : P2P.step shahash s e = .ok s') :
    Says s.Owns K G s s' := by
  cases handled_of_step h with
  | userGet chunkFile outputFile lines => exact processGet hmissing hin chunkFile outputFile lines
  | serverTimeout => exact handleServerTimeout s
  | clientTimeout => exact handleClientTimeout s
  | stranger src pack hp => exact .refl s
  | whohas src pack peer s' hp ht hr => exact receiveWHOHAS hr
  | ihave src pack peer hp ht =>
      exact receiveIHAVE fun hash hmem => hoffer peer hash ⟨hp, ht, hmem⟩
  | get src pack peer hp ht => exact receiveGET hgood pack peer
  | data src pack peer s' hp ht hr => exact receiveDATA hr
  | ack src pack peer hp ht =>
      exact receiveACK (fun t ht => ⟨t.c, hserving t ht, rfl⟩)
        (fun t ht => hgood t.c (hserving t ht)) pack peer
  | denied src pack peer hp ht => exact receiveDENIED s peer

end Says

end P2P
