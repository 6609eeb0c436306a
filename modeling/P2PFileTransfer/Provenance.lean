/-
**Where a `GET` comes from** (`receive_IHAVE`, `handle_transfer_dead`, `get_chunk_data`).

A `GET` goes to a peer of the chunk's list.  `receive_IHAVE` puts a peer in the lists of the missing
chunks that it offers, if no peer of its identifier is there; `handle_transfer_dead` takes all peers
of an identifier out of the lists of all missing chunks.  A chunk that becomes missing is new, with
an empty list.  So whoever is in a list has offered the hash, and was not declared dead since.

Main definitions:

* `P2P.State.owners` — the peers in the list of a chunk;
* `P2P.DeclaresDead`, `P2P.Event.Offers` — what takes peers out of the lists and puts them in;
* `P2P.Kept`, `P2P.Owned` — what a handler does to the lists;
* `P2P.Requests` — the state in which a step calls `get_chunk_data`;
* `P2P.Offered` — **a peer has offered a hash and was not declared dead since**.

Main results:

* `P2P.owners_offered`, `P2P.owners_clientTimeoutLoop` — the two loops;
* `P2P.owned_step` — **what a step does to the lists**;
* `P2P.get_provenance` — **where every `GET` of `get_chunk_data` comes from**, and the lists have no
  repetitions.
-/

import P2PFileTransfer.ClientList
import P2PFileTransfer.Handlers
import P2PFileTransfer.Senders
import P2PFileTransfer.Timeouts

set_option relaxedAutoImplicit false
set_option autoImplicit false

namespace P2P

/-- The peers that are known to own the chunk at `q`. -/
def State.owners (s : State) (q : ℕ) : List ℕ := (s.chunks.cell q).peer

/-- The list of the chunk at `q` has no identifier twice. -/
def State.Distinct (s : State) (q : ℕ) : Prop := ((s.owners q).map s.peerId).Nodup

/-- `handle_transfer_dead` declares the peer at `p` dead: it is called for a transfer with a peer of
the same identifier. -/
def DeclaresDead (s : State) (e : Event) (p : ℕ) : Prop :=
  e = .clientTimeout ∧ ∃ t, (t, Verdict.dead) ∈ s.clientFindings ∧ s.peerId t.peer = s.peerId p

/-- The hashes that a packet lists. -/
def Packet.hashes (pack : Packet) : List BinHash :=
  (List.range pack.hashNum.toNat).map pack.hashList

/-- The event is an `IHAVE` of the peer at `p` that lists the hash. -/
def Event.Offers (s : State) (p : ℕ) (hash : BinHash) : Event → Prop
  | .packet src pack => findPeer s src = some p ∧ pack.type = .ihave ∧ hash ∈ pack.hashes
  | _ => False

/-! ### What leaves the lists alone -/

theorem chunks_sendWHOHAS (s : State) : (sendWHOHAS s).chunks = s.chunks := by
  rw [sendWHOHAS_eq]

/-- The lists are as they were, except for chunks that were not missing: theirs are empty. -/
structure Kept (s s' : State) : Prop where
  peerId : ∀ p, s'.peerId p = s.peerId p
  owners : ∀ q ∈ s'.missing, s'.owners q = [] ∨
    q ∈ s.missing ∧ s'.binHash q = s.binHash q ∧ s'.owners q = s.owners q

namespace Kept

variable {s s' s'' : State}

theorem refl (s : State) : Kept s s := ⟨fun _ => rfl, fun _ hq => Or.inr ⟨hq, rfl, rfl⟩⟩

theorem trans (h : Kept s s') (h' : Kept s' s'') : Kept s s'' := by
  refine ⟨fun p => (h'.peerId p).trans (h.peerId p), fun q hq => ?_⟩
  rcases h'.owners q hq with hnil | ⟨hq', hbin', hsame'⟩
  · exact Or.inl hnil
  · rcases h.owners q hq' with hnil | ⟨hq'', hbin, hsame⟩
    · exact Or.inl (hsame'.trans hnil)
    · exact Or.inr ⟨hq'', hbin'.trans hbin, hsame'.trans hsame⟩

/-- What writes no chunk and adds nothing to the missing list. -/
theorem of_chunks (hid : ∀ p, s'.peerId p = s.peerId p) (hmiss : s'.missing.Sublist s.missing)
    (hchunks : s'.chunks = s.chunks) : Kept s s' := by
  refine ⟨hid, fun q hq => Or.inr ⟨hmiss.subset hq, ?_, ?_⟩⟩
  · rw [State.binHash, hchunks]
    rfl
  · rw [State.owners, hchunks]
    rfl

/-- A handler that writes no chunk. -/
theorem of_frame (hf : Frame s s') (hchunks : s'.chunks = s.chunks) : Kept s s' :=
  of_chunks hf.peerId (hf.missing ▸ .refl _) hchunks

/-- A write that leaves the hash and the list of the chunk alone. -/
theorem modifyChunk (s : State) (q : ℕ) {f : Chunk → Chunk}
    (hbin : (f (s.chunks.cell q)).binHash = (s.chunks.cell q).binHash)
    (hpeer : (f (s.chunks.cell q)).peer = (s.chunks.cell q).peer) :
    Kept s (s.modifyChunk q f) := by
  refine ⟨fun _ => rfl, fun r hr => Or.inr ⟨hr, (Fades.modifyChunk s q hbin).binHash r, ?_⟩⟩
  rw [State.owners, State.modifyChunk, Heap.cell_modify]
  split
  · rename_i hrq
    rw [hrq, hpeer]
    rfl
  · rfl

theorem checkAllReceived (s : State) : Kept s (checkAllReceived s) := by
  rw [P2P.checkAllReceived]
  split
  · exact of_chunks (fun _ => rfl) (.refl _) rfl
  · exact refl s

theorem finishChunk (shahash : List UInt8 → BinHash) (s : State) (q : ℕ) :
    Kept s (finishChunk shahash s q) := by
  obtain ⟨-, heq⟩ | ⟨-, -, heq⟩ | ⟨-, i, r, -, -, -, heq⟩ := finishChunk_cases shahash s q
  · rw [heq]
    exact modifyChunk s q rfl rfl
  · rw [heq]
    exact checkAllReceived s
  · rw [heq]
    have haccept : Kept s (s.accept i q) :=
      of_chunks (fun _ => rfl) (List.eraseIdx_sublist ..) rfl
    exact haccept.trans (checkAllReceived _)

theorem getChunkData (s : State) : Kept s (getChunkData s) :=
  of_frame (moves_getChunkData trivial s : Moves Kind.Any _ _).frame (chunks_getChunkData s)

theorem sendWHOHAS (s : State) : Kept s (sendWHOHAS s) :=
  of_frame (moves_sendWHOHAS s : Moves Kind.Any _ _).frame (chunks_sendWHOHAS s)

theorem validating {q : ℕ} (peer : ℕ) {pack : Packet} {c : Chunk}
    (hc : storeData pack (s.chunks.cell q) = .ok c) : Kept s (s.validating q c peer) := by
  have hsame : c.binHash = (s.chunks.cell q).binHash ∧ c.peer = (s.chunks.cell q).peer := by
    obtain ⟨-, ⟨-, rfl⟩ | ⟨-, -, -, rfl⟩⟩ := storeData_cases hc <;> exact ⟨rfl, rfl⟩
  refine (modifyChunk s q (f := fun _ => c) hsame.1 hsame.2).trans
    (of_frame (moves_sendACK _ peer _ : Moves Kind.Any _ _).frame ?_)
  exact (sendACK_same _ peer _).1

theorem deleteIncoming (s : State) (i : ℕ) : Kept s (s.deleteIncoming i) :=
  of_frame (Frame.deleteIncoming s i) (State.chunks_deleteIncoming s i)

/-- **A piece of data leaves the lists alone.** -/
theorem receiveDATA {shahash : List UInt8 → BinHash} {pack : Packet} {peer : ℕ}
    (hr : receiveDATA shahash s pack peer = .ok s') : Kept s s' := by
  obtain ⟨-, rfl⟩ | ⟨i, t, c, -, hstore, s₁, rfl, hend⟩ := receiveDATA_cases hr
  · exact refl s'
  · have h₁ := validating peer hstore
    rcases hend with ⟨-, rfl⟩ | ⟨-, rfl⟩
    · exact h₁
    · exact ((h₁.trans (finishChunk shahash _ t.c)).trans (deleteIncoming _ i)).trans
        (getChunkData _)

/-- **A chunk that becomes missing has an empty list.** -/
theorem wantLine {s : State} (hlt : ∀ q ∈ s.missing, q < s.chunks.next) (line : ChunkLine) :
    Kept s (wantLine s line) ∧
      ∀ q ∈ (P2P.wantLine s line).missing, q < (P2P.wantLine s line).chunks.next := by
  cases hown : s.findOwned line.2 with
  | some q =>
      rw [wantLine_of_some hown]
      exact ⟨(modifyChunk s q (f := fun c => { c with id := line.1 }) rfl rfl).trans
        (of_chunks (fun _ => rfl) (.refl _) rfl), hlt⟩
  | none =>
      rw [wantLine_of_none hown]
      refine ⟨⟨fun _ => rfl, fun q hq => ?_⟩, fun q hq => ?_⟩
      · rcases List.mem_cons.1 hq with rfl | hq
        · refine Or.inl ?_
          rw [State.owners, Heap.cell_alloc_self]
          rfl
        · have hcell := Heap.cell_alloc_of_lt s.chunks
            { createChunk line.1.toUInt8 line.2 with id := line.1 } (hlt q hq)
          exact Or.inr ⟨hq, congrArg Chunk.binHash hcell, congrArg Chunk.peer hcell⟩
      · rcases List.mem_cons.1 hq with rfl | hq
        · exact Nat.lt_succ_self _
        · exact Nat.lt_succ_of_lt (hlt q hq)

theorem wantLines {s : State} (hlt : ∀ q ∈ s.missing, q < s.chunks.next) (lines : List ChunkLine) :
    Kept s (lines.foldl P2P.wantLine s) := by
  induction lines generalizing s with
  | nil => exact refl s
  | cons line lines ih =>
      obtain ⟨h₁, hlt₁⟩ := wantLine hlt line
      exact h₁.trans (ih hlt₁)

end Kept

/-! ### The loops of `receive_IHAVE` -/

/-- A loop keeps the frame that its body keeps. -/
theorem Frame.foldl {α : Type*} {body : State → α → State} (h : ∀ s a, Frame s (body s a))
    (l : List α) (s : State) : Frame s (l.foldl body s) := by
  induction l generalizing s with
  | nil => exact Frame.refl s
  | cons a l ih => exact (h s a).trans (ih _)

theorem frame_offerPeer (peer : ℕ) (hash : BinHash) (s : State) (q : ℕ) :
    Frame s (offerPeer peer hash s q) := by
  rw [offerPeer]
  split
  · exact Frame.modifyChunk s q fun _ => rfl
  · exact Frame.refl s

/-- The state after the loops of `receive_IHAVE`. -/
def State.offered (s : State) (pack : Packet) (peer : ℕ) : State :=
  pack.hashes.foldl (fun s hash => s.missing.foldl (offerPeer peer hash) s) s

theorem receiveIHAVE_eq (s : State) (pack : Packet) (peer : ℕ) :
    receiveIHAVE s pack peer = getChunkData (s.offered pack peer) := by
  rw [receiveIHAVE, State.offered, Packet.hashes, List.foldl_map]

theorem frame_offered (s : State) (pack : Packet) (peer : ℕ) : Frame s (s.offered pack peer) :=
  Frame.foldl (fun s hash => Frame.foldl (frame_offerPeer peer hash) s.missing s) _ s

/-- The list of the chunk at `q` after an offer of a hash to the chunks in `l`, or after offers of
several hashes to the missing chunks: `listed` says that the chunk is concerned. -/
def State.ownersWith (s : State) (peer q : ℕ) (listed : Prop) [Decidable listed] : List ℕ :=
  if listed ∧ s.peerId peer ∉ (s.owners q).map s.peerId then peer :: s.owners q else s.owners q

theorem peerExistInList_eq_false_iff {s : State} {l : List ℕ} {peer : ℕ} :
    peerExistInList s l peer = false ↔ s.peerId peer ∉ l.map s.peerId := by
  rw [peerExistInList, List.any_eq_false, List.mem_map]
  simp only [beq_iff_eq, not_exists, not_and]

/-- Once the peer is in the list, nothing changes any more. -/
theorem ownersWith_again {s s' : State} (hf : Frame s s') {peer q : ℕ} {listed listed' : Prop}
    [Decidable listed] [Decidable listed']
    (h : s'.owners q = s.ownersWith peer q listed) :
    s'.ownersWith peer q listed' = s.ownersWith peer q (listed ∨ listed') := by
  have hids : s'.peerId = s.peerId := funext hf.peerId
  rw [State.ownersWith, h, hids, State.ownersWith, State.ownersWith]
  by_cases hknown : s.peerId peer ∈ (s.owners q).map s.peerId
  · simp only [hknown, not_true_eq_false, and_false, if_false]
  · by_cases hl : listed
    · simp [hl, hknown]
    · simp [hl, hknown]

theorem ownersWith_congr {s : State} {peer q : ℕ} {listed listed' : Prop} [Decidable listed]
    [Decidable listed'] (h : listed ↔ listed') :
    s.ownersWith peer q listed = s.ownersWith peer q listed' := by
  simp only [State.ownersWith, h]

theorem owners_offerPeer (peer : ℕ) (hash : BinHash) (s : State) (q r : ℕ) :
    (offerPeer peer hash s q).owners r = s.ownersWith peer r (r = q ∧ s.binHash r = hash) := by
  have hiff : (compareBinHash (s.binHash q) hash = true ∧
      peerExistInList s (s.chunks.cell q).peer peer = false) ↔
        s.binHash q = hash ∧ s.peerId peer ∉ (s.owners q).map s.peerId :=
    and_congr compareBinHash_iff peerExistInList_eq_false_iff
  rw [offerPeer, State.ownersWith]
  by_cases hoffer : s.binHash q = hash ∧ s.peerId peer ∉ (s.owners q).map s.peerId
  · rw [if_pos (hiff.2 hoffer), State.owners, State.modifyChunk, Heap.cell_modify]
    by_cases hrq : r = q
    · rw [if_pos hrq, if_pos ⟨⟨hrq, hrq ▸ hoffer.1⟩, hrq ▸ hoffer.2⟩]
      rfl
    · rw [if_neg hrq, if_neg fun h => hrq h.1.1]
      rfl
  · rw [if_neg (mt hiff.1 hoffer), if_neg]
    rintro ⟨⟨rfl, hhash⟩, hnew⟩
    exact hoffer ⟨hhash, hnew⟩

theorem owners_offerPeers (peer : ℕ) (hash : BinHash) (l : List ℕ) (s : State) (r : ℕ) :
    (l.foldl (offerPeer peer hash) s).owners r =
      s.ownersWith peer r (r ∈ l ∧ s.binHash r = hash) := by
  induction l generalizing s with
  | nil => simp [State.ownersWith]
  | cons q l ih =>
      have hf := frame_offerPeer peer hash s q
      rw [List.foldl_cons, ih, ownersWith_again hf (owners_offerPeer peer hash s q r)]
      refine ownersWith_congr ?_
      rw [hf.binHash, List.mem_cons, or_and_right]

/-- **What the loops do**: the peer is put in the lists of the missing chunks whose hash is listed,
unless a peer of its identifier is there. -/
theorem owners_offered (s : State) (pack : Packet) (peer r : ℕ) :
    (s.offered pack peer).owners r =
      s.ownersWith peer r (r ∈ s.missing ∧ s.binHash r ∈ pack.hashes) := by
  rw [State.offered]
  generalize pack.hashes = hashes
  induction hashes generalizing s with
  | nil => simp [State.ownersWith]
  | cons hash hashes ih =>
      have hf := Frame.foldl (frame_offerPeer peer hash) s.missing s
      rw [List.foldl_cons, ih, ownersWith_again hf (owners_offerPeers peer hash s.missing s r)]
      refine ownersWith_congr ?_
      rw [hf.binHash, hf.missing, List.mem_cons, and_or_left]

/-! ### The loop of `handle_client_timeout` -/

/-- All peers of the identifier are taken out of the lists of the chunks in `l`. -/
theorem owners_forgetPeers (peer : ℕ) (l : List ℕ) (s : State) (r : ℕ) :
    (l.foldl (forgetPeer peer) s).owners r =
      if r ∈ l then (s.owners r).filter fun p => s.peerId p != s.peerId peer else s.owners r := by
  induction l generalizing s with
  | nil => simp
  | cons q l ih =>
      have hids : (forgetPeer peer s q).peerId = s.peerId := rfl
      have hone : (forgetPeer peer s q).owners r =
          if r = q then (s.owners r).filter fun p => s.peerId p != s.peerId peer
          else s.owners r := by
        rw [State.owners, forgetPeer, State.modifyChunk, Heap.cell_modify]
        split <;> rfl
      rw [List.foldl_cons, ih, hone, hids]
      by_cases hrq : r = q
      · simp only [hrq, if_true, List.mem_cons, true_or, List.filter_filter, Bool.and_self,
          ite_self]
      · simp only [hrq, if_false, List.mem_cons, false_or]

theorem owners_sendGET (s : State) (peer : ℕ) (hash : BinHash) (count q : ℕ) :
    (sendGET s peer hash count).owners q = s.owners q := by
  rw [sendGET]
  split <;> rfl

/-- **What a pass does to the lists**: if the transfer is dead, all peers of its identifier are
taken out of the lists of the missing chunks. -/
theorem owners_clientTimeoutPass {s : State} {i : ℕ} {t : Transfer} (hi : s.incoming[i]? = some t) :
    Frame s (clientTimeoutPass s i t) ∧ ∀ q ∈ s.missing,
      (clientTimeoutPass s i t).owners q =
        if t.verdict (s.clock 0) = .dead
        then (s.owners q).filter fun p => s.peerId p != s.peerId t.peer
        else s.owners q := by
  have hcount : Frame s ((s.tick 1).countIncoming i) :=
    (Frame.tick s 1).trans (Frame.incoming _ _)
  obtain ⟨hv, heq⟩ | ⟨hv, heq | ⟨n, heq⟩⟩ | ⟨hv, -, heq⟩ := clientTimeoutPass_cases s i t
  · rw [heq, hv]
    exact ⟨Frame.tick s 1, fun q _ => rfl⟩
  · rw [heq, hv]
    have hmem : ((s.tick 1).countIncoming i).incoming[i]? = some { t with cctrl :=
        { t.cctrl with timeoutCount := u32 (1 + t.cctrl.timeoutCount) } } := by
      simp [State.countIncoming, State.tick, hi]
    have hget : Moves Kind.Any ((s.tick 1).countIncoming i)
        (sendGET ((s.tick 1).countIncoming i) t.peer (s.binHash t.c) 1) :=
      moves_sendGET ⟨_, List.mem_of_getElem? hmem, rfl⟩
    exact ⟨hcount.trans hget.frame, fun q _ => owners_sendGET _ _ _ _ q⟩
  · rw [heq, hv]
    refine ⟨hcount.trans (moves_sendACK _ _ _ : Moves Kind.Any _ _).frame, fun q _ => ?_⟩
    rw [State.owners, (sendACK_same _ _ _).1]
    rfl
  · rw [heq, hv]
    refine ⟨hcount.trans (moves_handleTransferDead trivial _ i t : Moves Kind.Any _ _).frame,
      fun q hq => ?_⟩
    have hforget := owners_forgetPeers t.peer s.missing ((s.tick 1).countIncoming i) q
    rw [if_pos hq] at hforget
    rw [if_pos rfl, handleTransferDead, State.owners, State.chunks_deleteIncoming]
    exact hforget

/-- **What the loop does to the lists of the missing chunks**: nobody comes, and no peer with the
identifier of a dead transfer's peer stays. -/
theorem owners_clientTimeoutLoop (fuel i : ℕ) (s : State) : ∀ q ∈ s.missing,
    ((clientTimeoutLoop fuel i s).owners q).Sublist (s.owners q) ∧
      ∀ p ∈ (clientTimeoutLoop fuel i s).owners q, ∀ t,
        (t, Verdict.dead) ∈ clientFindings fuel i s → s.peerId t.peer ≠ s.peerId p := by
  refine clientTimeoutLoop_induction (P := fun _ s found s' => ∀ q ∈ s.missing,
    (s'.owners q).Sublist (s.owners q) ∧ ∀ p ∈ s'.owners q, ∀ t,
      (t, Verdict.dead) ∈ found → s.peerId t.peer ≠ s.peerId p)
    (fun i s q _ => ⟨.refl _, fun p _ t ht => absurd ht List.not_mem_nil⟩) ?_ fuel i s
  intro i s t found s' hi ih q hq
  obtain ⟨hf, howners⟩ := owners_clientTimeoutPass hi
  obtain ⟨hsub, hdead⟩ := ih q (hf.missing ▸ hq)
  rw [howners q hq] at hsub
  refine ⟨hsub.trans ?_, fun p hp u hu => ?_⟩
  · split
    · exact List.filter_sublist
    · exact .refl _
  · rcases List.mem_cons.1 hu with hhead | hu
    · obtain ⟨rfl, hv⟩ := Prod.mk.inj hhead
      rw [← hv, if_pos rfl] at hsub
      have hkept := (List.mem_filter.1 (hsub.subset hp)).2
      exact fun heq => (bne_iff_ne.1 hkept) heq.symm
    · rw [← hf.peerId, ← hf.peerId]
      exact hdead p hp u hu

/-! ### Steps -/

/-- **What a step does to the lists**: whoever is in the list of a missing chunk was there and was
not declared dead, or has offered the hash; and no identifier comes twice. -/
structure Owned (s : State) (e : Event) (s' : State) : Prop where
  origin : ∀ q ∈ s'.missing, ∀ p ∈ s'.owners q, q ∈ s.missing ∧ s'.binHash q = s.binHash q ∧
    (p ∈ s.owners q ∧ ¬ DeclaresDead s e p ∨ e.Offers s p (s.binHash q))
  distinct : (∀ q ∈ s.missing, s.Distinct q) → ∀ q ∈ s'.missing, s'.Distinct q

/-- The peers of the chunk keep their identifiers. -/
theorem distinct_of_eq {s s' : State} {q : ℕ} (hid : ∀ p, s'.peerId p = s.peerId p)
    (hown : s'.owners q = s.owners q) (h : s.Distinct q) : s'.Distinct q := by
  rw [State.Distinct, hown, List.map_congr_left fun p _ => hid p]
  exact h

/-- Nothing is declared and the lists are left alone. -/
theorem Owned.of_kept {s s' : State} {e : Event} (h : Kept s s')
    (hdead : ∀ p, ¬ DeclaresDead s e p) : Owned s e s' := by
  refine ⟨fun q hq p hp => ?_, fun hdistinct q hq => ?_⟩
  · rcases h.owners q hq with hnil | ⟨hq', hbin, hsame⟩
    · rw [hnil] at hp
      exact absurd hp List.not_mem_nil
    · exact ⟨hq', hbin, Or.inl ⟨hsame ▸ hp, hdead p⟩⟩
  · rcases h.owners q hq with hnil | ⟨hq', -, hsame⟩
    · rw [State.Distinct, hnil]
      exact List.nodup_nil
    · exact distinct_of_eq h.peerId hsame (hdistinct q hq')

/-- What leaves the lists alone may follow. -/
theorem Owned.kept {s s' s'' : State} {e : Event} (h : Owned s e s') (hk : Kept s' s'') :
    Owned s e s'' := by
  refine ⟨fun q hq p hp => ?_, fun hdistinct q hq => ?_⟩
  · rcases hk.owners q hq with hnil | ⟨hq', hbin, hsame⟩
    · rw [hnil] at hp
      exact absurd hp List.not_mem_nil
    · obtain ⟨hq'', hbin', hcase⟩ := h.origin q hq' p (hsame ▸ hp)
      exact ⟨hq'', hbin.trans hbin', hcase⟩
  · rcases hk.owners q hq with hnil | ⟨hq', -, hsame⟩
    · rw [State.Distinct, hnil]
      exact List.nodup_nil
    · exact distinct_of_eq hk.peerId hsame (h.distinct hdistinct q hq')

/-- **Offers.** -/
theorem owned_offered {s : State} {src : SockaddrIn} {pack : Packet} {peer : ℕ}
    (hp : findPeer s src = some peer) (ht : pack.type = .ihave) :
    Owned s (.packet src pack) (s.offered pack peer) := by
  have hf := frame_offered s pack peer
  refine ⟨fun q hq p hmem => ?_, fun hdistinct q hq => ?_⟩
  · rw [hf.missing] at hq
    refine ⟨hq, hf.binHash q, ?_⟩
    rw [owners_offered, State.ownersWith] at hmem
    have hold : p ∈ s.owners q → p ∈ s.owners q ∧ ¬ DeclaresDead s (.packet src pack) p :=
      fun h => ⟨h, fun hdead => nomatch hdead.1⟩
    split at hmem
    · rename_i hnew
      rcases List.mem_cons.1 hmem with rfl | hmem
      · exact Or.inr ⟨hp, ht, hnew.1.2⟩
      · exact Or.inl (hold hmem)
    · exact Or.inl (hold hmem)
  · rw [hf.missing] at hq
    rw [State.Distinct, List.map_congr_left fun p _ => hf.peerId p, owners_offered,
      State.ownersWith]
    split
    · rename_i hnew
      exact List.nodup_cons.2 ⟨hnew.2, hdistinct q hq⟩
    · exact hdistinct q hq

/-- **Timeouts.** -/
theorem owned_clientTimeoutLoop {s : State} (hm : s.missing ≠ []) :
    Owned s .clientTimeout (clientTimeoutLoop s.incoming.length 0 s) := by
  have hf := (moves_clientTimeoutLoop trivial s.incoming.length 0 s : Moves Kind.Any _ _).frame
  refine ⟨fun q hq p hp => ?_, fun hdistinct q hq => ?_⟩
  · rw [hf.missing] at hq
    obtain ⟨hsub, hdead⟩ := owners_clientTimeoutLoop s.incoming.length 0 s q hq
    refine ⟨hq, hf.binHash q, Or.inl ⟨hsub.subset hp, ?_⟩⟩
    rintro ⟨-, t, ht, hid⟩
    rw [State.clientFindings, if_neg hm] at ht
    exact hdead p hp t ht hid
  · rw [hf.missing] at hq
    rw [State.Distinct, List.map_congr_left fun p _ => hf.peerId p]
    exact (hdistinct q hq).sublist ((owners_clientTimeoutLoop _ 0 s q hq).1.map _)

/-- **What a step does to the lists.** -/
theorem owned_step {shahash : List UInt8 → BinHash} {s s' : State} {e : Event}
    (hlt : ∀ q ∈ s.missing, q < s.chunks.next) (he : step shahash s e = .ok s') :
    Owned s e s' := by
  by_cases htimeout : e = .clientTimeout
  · subst htimeout
    cases he
    rw [handleClientTimeout]
    by_cases hm : s.missing = []
    · rw [if_pos hm]
      refine .of_kept (.refl s) fun p hdead => ?_
      obtain ⟨-, t, ht, -⟩ := hdead
      rw [State.clientFindings, if_pos hm] at ht
      exact absurd ht List.not_mem_nil
    · rw [if_neg hm]
      have hget := (owned_clientTimeoutLoop hm).kept (.getChunkData _)
      dsimp only
      split_ifs
      · exact hget.kept (.sendWHOHAS _)
      · exact hget
  · have hdead : ∀ p, ¬ DeclaresDead s e p := fun p h => htimeout h.1
    rcases ClientKept.of_handled (handled_of_step he) with ⟨hk, hf⟩ |
      ⟨chunkFile, outputFile, lines, rfl, rfl⟩ | ⟨rfl, -⟩ |
      ⟨src, pack, peer, rfl, hp, ⟨ht, rfl⟩ | ⟨-, rfl⟩ | ⟨-, hr⟩⟩
    · exact .of_kept (.of_frame hf hk.chunks) hdead
    · have hnames : Kept s
          { s with userGetChunkFile := chunkFile, userOutputFilename := outputFile } :=
        .of_chunks (fun _ => rfl) (.refl _) rfl
      have hwant := hnames.trans (Kept.wantLines (s := { s with
        userGetChunkFile := chunkFile, userOutputFilename := outputFile }) hlt lines)
      exact .of_kept ((hwant.trans (.checkAllReceived _)).trans (.sendWHOHAS _)) hdead
    · exact absurd rfl htimeout
    · rw [receiveIHAVE_eq]
      exact (owned_offered hp ht).kept (.getChunkData _)
    · refine .of_kept ?_ hdead
      rw [receiveDENIED]
      split
      · exact .refl s
      · exact .deleteIncoming s _
    · exact .of_kept (.receiveDATA hr) hdead

/-! ### Requests -/

/-- The step from `s` on the event calls `get_chunk_data` in the state `u`. -/
inductive Requests (shahash : List UInt8 → BinHash) (s : State) : Event → State → Prop
  | ihave (src : SockaddrIn) (pack : Packet) (peer : ℕ) (hp : findPeer s src = some peer)
      (ht : pack.type = .ihave) : Requests shahash s (.packet src pack) (s.offered pack peer)
  | data (src : SockaddrIn) (pack : Packet) (peer i : ℕ) (t : Transfer) (c : Chunk)
      (hp : findPeer s src = some peer) (ht : pack.type = .data)
      (hfind : s.findIncoming peer = some (i, t))
      (hstore : storeData pack (s.chunks.cell t.c) = .ok c)
      (hdone : chunkBitsAllReceived c = true) : Requests shahash s (.packet src pack)
        ((finishChunk shahash (s.validating t.c c peer) t.c).deleteIncoming i)
  | timeout (hm : s.missing ≠ []) : Requests shahash s .clientTimeout
      (clientTimeoutLoop s.incoming.length 0 s)

/-- What is left to do is `get_chunk_data`, and `send_WHOHAS` in the timeout handler. -/
theorem Requests.step {shahash : List UInt8 → BinHash} {s s' u : State} {e : Event}
    (h : Requests shahash s e u) (he : step shahash s e = .ok s') :
    s' = getChunkData u ∨ s' = sendWHOHAS (getChunkData u) := by
  cases h with
  | ihave src pack peer hp ht =>
      rw [P2P.step, hp] at he
      dsimp only at he
      rw [receivePacket, ht] at he
      cases he
      refine Or.inl ?_
      rw [withSender, hp]
      exact receiveIHAVE_eq s pack peer
  | data src pack peer i t c hp ht hfind hstore hdone =>
      rw [P2P.step, hp] at he
      dsimp only at he
      rw [receivePacket, ht] at he
      dsimp only at he
      rw [receiveDATA_of_store shahash hfind hstore, if_pos hdone] at he
      cases he
      exact Or.inl rfl
  | timeout hm =>
      cases he
      rw [handleClientTimeout, if_neg hm]
      dsimp only
      split_ifs
      · exact Or.inr rfl
      · exact Or.inl rfl

/-- **What `get_chunk_data` sends**: a `GET` for a missing chunk, to a peer of its list. -/
theorem sent_getChunkData {u : State} {e : Effect} (h : Sent u (getChunkData u) e) :
    ∃ q ∈ u.missing, ∃ p ∈ u.owners q, ∃ junk,
      e = .send p (getPacket junk (u.binHash q) 1) (some (u.binHash q)) := by
  have hone : ∀ (s : State) (q : ℕ), ∃ es, (requestChunk s q).trace = s.trace ++ es ∧
      ∀ e ∈ es, ∃ p ∈ s.owners q, ∃ junk,
        e = .send p (getPacket junk (s.binHash q) 1) (some (s.binHash q)) := by
    intro s q
    rw [requestChunk]
    split
    · rename_i p _ hpeer
      rw [sendGET]
      split
      · exact ⟨[], (List.append_nil _).symm, fun _ he => absurd he List.not_mem_nil⟩
      · refine ⟨[_], rfl, fun e he => ⟨p, List.mem_of_find?_eq_some hpeer,
          (s.insertIncoming p q).junk 0, ?_⟩⟩
        exact List.mem_singleton.1 he
    · exact ⟨[], (List.append_nil _).symm, fun _ he => absurd he List.not_mem_nil⟩
  have hloop : ∀ (l : List ℕ) (s : State), ∃ es, (l.foldl requestChunk s).trace = s.trace ++ es ∧
      ∀ e ∈ es, ∃ q ∈ l, ∃ p ∈ s.owners q, ∃ junk,
        e = .send p (getPacket junk (s.binHash q) 1) (some (s.binHash q)) := by
    intro l
    induction l with
    | nil =>
        exact fun s => ⟨[], (List.append_nil _).symm, fun _ he => absurd he List.not_mem_nil⟩
    | cons q l ih =>
        intro s
        obtain ⟨es, htrace, hes⟩ := hone s q
        obtain ⟨es', htrace', hes'⟩ := ih (requestChunk s q)
        refine ⟨es ++ es', ?_, fun e he => ?_⟩
        · rw [List.foldl_cons, htrace', htrace, List.append_assoc]
        · rcases List.mem_append.1 he with he | he
          · obtain ⟨p, hp, junk, heq⟩ := hes e he
            exact ⟨q, List.mem_cons_self .., p, hp, junk, heq⟩
          · obtain ⟨r, hr, p, hp, junk, heq⟩ := hes' e he
            rw [State.owners, chunks_requestChunk] at hp
            rw [State.binHash, chunks_requestChunk] at heq
            exact ⟨r, List.mem_cons_of_mem _ hr, p, hp, junk, heq⟩
  obtain ⟨es, htrace, hes⟩ := hloop u.missing u
  exact hes e ((sent_iff htrace e).1 h)

/-! ### Runs -/

/-- **The peer at `p` has offered the hash, and was not declared dead since**: among the events so
far there is an `IHAVE` of its that lists the hash, it came when a chunk of that hash was missing,
and no event after it declares the peer dead. -/
def Offered (shahash : List UInt8 → BinHash) (s₀ : State) (es : List Event) (p : ℕ)
    (hash : BinHash) : Prop :=
  ∃ es₁ e es₂ t t', es = es₁ ++ e :: es₂ ∧ Machine.run (step shahash) s₀ es₁ = .ok t ∧
    step shahash t e = .ok t' ∧ e.Offers t p hash ∧ (∃ q ∈ t.missing, t.binHash q = hash) ∧
    Machine.Along (step shahash) (fun v f => ¬ DeclaresDead v f p) t' es₂

section History

variable {shahash : List UInt8 → BinHash} {s₀ : State}

/-- An event that does not declare the peer dead may follow. -/
theorem Offered.concat {es : List Event} {e : Event} {s : State} {p : ℕ} {hash : BinHash}
    (h : Offered shahash s₀ es p hash) (hrun : Machine.run (step shahash) s₀ es = .ok s)
    (hdead : ¬ DeclaresDead s e p) : Offered shahash s₀ (es ++ [e]) p hash := by
  obtain ⟨es₁, f, es₂, t, t', rfl, ht, ht', hoffer, hmiss, hal⟩ := h
  rw [Machine.run_append _ ht, Machine.run_cons_ok _ ht'] at hrun
  refine ⟨es₁, f, es₂ ++ [e], t, t', ?_, ht, ht', hoffer, hmiss,
    (Machine.along_concat hrun).2 ⟨hal, hdead⟩⟩
  rw [List.append_assoc, List.cons_append]

/-- **The invariant**: whoever is in the list of a missing chunk has offered its hash and was not
declared dead since. -/
structure Traced (shahash : List UInt8 → BinHash) (s₀ : State) (es : List Event) (s : State) :
    Prop where
  distinct : ∀ q ∈ s.missing, s.Distinct q
  offered : ∀ q ∈ s.missing, ∀ p ∈ s.owners q, Offered shahash s₀ es p (s.binHash q)

/-- **Every step keeps the invariant.** -/
theorem Traced.concat {es : List Event} {e : Event} {s s' : State}
    (h : Traced shahash s₀ es s) (hrun : Machine.run (step shahash) s₀ es = .ok s)
    (hlt : ∀ q ∈ s.missing, q < s.chunks.next) (he : step shahash s e = .ok s') :
    Traced shahash s₀ (es ++ [e]) s' := by
  have howned := owned_step hlt he
  refine ⟨howned.distinct h.distinct, fun q hq p hp => ?_⟩
  obtain ⟨hq', hbin, ⟨hold, hdead⟩ | hoffer⟩ := howned.origin q hq p hp
  · rw [hbin]
    exact (h.offered q hq' p hold).concat hrun hdead
  · rw [hbin]
    exact ⟨es, e, [], s, s', rfl, hrun, he, hoffer, ⟨q, hq', rfl⟩, trivial⟩

end History

/-- The invariant, in every reachable state. -/
theorem Traced.of_run {shahash : List UInt8 → BinHash} {setup : Setup} {clock : ℕ → ℕ}
    {junk : ℕ → Packet} {es : List Event} {s : State}
    (h : Machine.run (step shahash) (peerSetup setup clock junk) es = .ok s) :
    Traced shahash (peerSetup setup clock junk) es s := by
  refine Machine.history_invariant
    (P := fun es s => Traced shahash (peerSetup setup clock junk) es s)
    ⟨fun q hq => absurd hq List.not_mem_nil, fun q hq => absurd hq List.not_mem_nil⟩ ?_ h
  intro es t e u hrun ht he
  have hi := Machine.run_invariant (fun _ _ _ hs he => Intact.step hs he)
    (Intact.setup shahash setup clock junk) hrun
  exact ht.concat hrun (fun q hq => (hi.missing q hq).2) he

/-- **Where every `GET` of `get_chunk_data` comes from**: in a step after any run, a `GET` for a
hash goes to a peer that has offered it in an `IHAVE`, while a chunk of that hash was missing, and
was not declared dead since; and in every reachable state no list of a missing chunk has an
identifier twice. -/
theorem get_provenance (shahash : List UInt8 → BinHash) (setup : Setup) (clock : ℕ → ℕ)
    (junk : ℕ → Packet) (es : List Event) (s : State)
    (h : Machine.run (step shahash) (peerSetup setup clock junk) es = .ok s) :
    (∀ q ∈ s.missing, ((s.chunks.cell q).peer.map s.peerId).Nodup) ∧
      ∀ e s' u p pack about, step shahash s e = .ok s' → Requests shahash s e u →
        Sent u (getChunkData u) (.send p pack about) →
          Offered shahash (peerSetup setup clock junk) (es ++ [e]) p (pack.hashList 0) := by
  refine ⟨(Traced.of_run h).distinct, fun e s' u p pack about he hreq hsent => ?_⟩
  obtain ⟨q, hq, p', hp, junk', heq⟩ := sent_getChunkData hsent
  obtain ⟨rfl, rfl, -⟩ := Effect.send.inj heq
  have hrun : Machine.run (step shahash) (peerSetup setup clock junk) (es ++ [e]) = .ok s' := by
    rw [Machine.run_append _ h, Machine.run_cons_ok _ he, Machine.run_nil]
  -- nothing of what `get_chunk_data` looked at has changed when the step is over
  have hsame : s'.missing = u.missing ∧ s'.chunks = u.chunks := by
    have hf := (moves_getChunkData trivial u : Moves Kind.Any _ _).frame
    rcases hreq.step he with rfl | rfl
    · exact ⟨hf.missing, chunks_getChunkData u⟩
    · exact ⟨((moves_sendWHOHAS _ : Moves Kind.Any _ _).frame.missing).trans hf.missing,
        (chunks_sendWHOHAS _).trans (chunks_getChunkData u)⟩
  have hoffered := (Traced.of_run hrun).offered q (hsame.1 ▸ hq) p (by
    rw [State.owners, hsame.2]
    exact hp)
  rw [State.binHash, hsame.2] at hoffered
  exact hoffered

/-- The user wants a chunk, and nobody has offered it yet. -/
def wanting : State :=
  processGet (peerSetup lender (fun _ => 0) fun _ => zeroPacket) "a" "b"
    [(0, Vector.replicate hexHashSize 49)]

/-- The neighbour offers the chunk that the user wants, and is asked for it. -/
theorem get_provenance_asked : ∃ u p pack about,
    Machine.run (step fun _ => Vector.replicate binHashSize 0)
      (peerSetup lender (fun _ => 0) fun _ => zeroPacket) (wantsOne.take 1) = .ok wanting ∧
    Sent u (getChunkData u) (.send p pack about) ∧
    Offered (fun _ => Vector.replicate binHashSize 0)
      (peerSetup lender (fun _ => 0) fun _ => zeroPacket) wantsOne p (pack.hashList 0) := by
  let hash := binHashOf (Vector.replicate hexHashSize 49)
  let u := wanting.offered (ihavePacket zeroPacket [hash]) 0
  have hsent : Sent u (getChunkData u) (.send 0 (getPacket zeroPacket hash 1) (some hash)) :=
    ⟨[_], rfl, List.mem_singleton.2 rfl⟩
  obtain ⟨-, hget⟩ := get_provenance (fun _ => Vector.replicate binHashSize 0)
    lender (fun _ => 0) (fun _ => zeroPacket) (wantsOne.take 1) wanting rfl
  exact ⟨_, 0, _, _, rfl, hsent, hget _ _ _ 0 _ _ rfl (.ihave ⟨0, 2222⟩ _ 0 rfl rfl) hsent⟩

end P2P
