/-
**What a transfer leaves behind** (`get_chunk_data`, `create_transfer`, `delete_transfer`).

Four facts about a peer that nothing it hears can break.  Each transfer of the client was opened
with a `GET` to its peer, which is on the network since.  A peer that is not available is so because
of a transfer, in one of the two lists.  The timeouts counted for a transfer of the server stay
below the limit, and the time of its last acknowledgement is one that the clock has shown.

They are what a download can be resumed from, after whatever has happened.

Main definitions:

* `P2P.Asked` — the `GET` of a transfer was sent;
* `P2P.Ready` — **the invariant**.

Main results:

* `P2P.asked_step` — transfers of the client are opened with a `GET`;
* `P2P.Accounted.step` — a peer that has no transfer is available;
* `P2P.Ready.step` — **every step keeps the invariant**.
-/

import P2PFileTransfer.Silence

set_option relaxedAutoImplicit false
set_option autoImplicit false

namespace P2P

/-! ### Transfers are asked for -/

/-- A `GET` for the chunk of the transfer was sent to its peer. -/
def Asked (s : State) (t : Transfer) : Prop :=
  ∃ pack about, .send t.peer pack about ∈ s.trace ∧ pack.type = .get ∧
    pack.hashList 0 = s.binHash t.c

/-- Hashes stay, what was sent stays sent, and transfers of the client are asked for when they are
opened. -/
structure Asks (s s' : State) : Prop where
  binHash : ∀ q, s'.binHash q = s.binHash q
  trace : ∃ es, s'.trace = s.trace ++ es
  incoming : ∀ t' ∈ s'.incoming, (∃ t ∈ s.incoming, SameEnds t t') ∨ Asked s' t'

/-- What was asked for stays asked for. -/
theorem Asked.mono {s s' : State} {t t' : Transfer} (h : Asked s t) (hends : SameEnds t t')
    (hbin : s'.binHash t.c = s.binHash t.c) (htrace : ∃ es, s'.trace = s.trace ++ es) :
    Asked s' t' := by
  obtain ⟨pack, about, hmem, ht, hhash⟩ := h
  obtain ⟨es, hes⟩ := htrace
  refine ⟨pack, about, ?_, ht, ?_⟩
  · rw [hends.1, hes]
    exact List.mem_append_left _ hmem
  · rw [hends.2, hbin, hhash]

namespace Asks

variable {s s' s'' : State}

theorem of_fades (h : Fades s s') : Asks s s' := by
  obtain ⟨es, hes, -⟩ := h.sent
  exact ⟨h.binHash, ⟨es, hes⟩, fun t' ht' => Or.inl (h.incoming t' ht')⟩

theorem of_moves {may : Kind → Prop} (hin : ¬ may .openIn) (hout : ¬ may .openOut)
    (h : Moves may s s') : Asks s s' :=
  of_fades (.of_moves hin hout h)

theorem trans (h : Asks s s') (h' : Asks s' s'') : Asks s s'' := by
  obtain ⟨es, hes⟩ := h.trace
  obtain ⟨es', hes'⟩ := h'.trace
  refine ⟨fun q => (h'.binHash q).trans (h.binHash q),
    ⟨es ++ es', by rw [hes', hes, List.append_assoc]⟩, fun t'' ht'' => ?_⟩
  rcases h'.incoming t'' ht'' with ⟨t', ht', hends'⟩ | hasked
  · rcases h.incoming t' ht' with ⟨t, ht, hends⟩ | hasked
    · exact Or.inl ⟨t, ht, hends'.1.trans hends.1, hends'.2.trans hends.2⟩
    · exact Or.inr (hasked.mono hends' (h'.binHash t'.c) h'.trace)
  · exact Or.inr hasked

/-- **A transfer is opened with a `GET`**: the one that `send_GET` finds is the new one. -/
theorem requestChunk (s : State) (q : ℕ) : Asks s (requestChunk s q) := by
  rw [P2P.requestChunk]
  split
  · rename_i peer _ _
    have hfound : (s.insertIncoming peer q).findIncoming peer =
        some (0, createTransfer peer q (s.clock 0)) := by
      rw [State.findIncoming, State.insertIncoming, nodeFind, if_pos]
      exact State.compareTransferByPeerId_iff.2 rfl
    rw [sendGET, hfound]
    refine ⟨fun _ => rfl, ⟨_, rfl⟩, fun t' ht' => ?_⟩
    have hnew : t' ∈ { createTransfer peer q (s.clock 0) with timestamp := s.clock 1 } ::
        s.incoming := ht'
    rcases List.mem_cons.1 hnew with rfl | hold
    · exact Or.inr ⟨getPacket _ (s.binHash q) 1, _, List.mem_append_right _
        (List.mem_singleton_self _), rfl, rfl⟩
    · exact Or.inl ⟨t', hold, rfl, rfl⟩
  · exact of_fades (.refl s)

theorem getChunkData (s : State) : Asks s (getChunkData s) := by
  rw [P2P.getChunkData]
  generalize s.missing = l
  induction l generalizing s with
  | nil => exact of_fades (.refl s)
  | cons q l ih => exact (requestChunk s q).trans (ih _)

theorem receiveDATA {shahash : List UInt8 → BinHash} {pack : Packet} {peer : ℕ}
    (h : receiveDATA shahash s pack peer = .ok s') : Asks s s' := by
  obtain ⟨-, rfl⟩ | ⟨i, t, c, -, hstore, s₁, rfl, hend⟩ := receiveDATA_cases h
  · exact of_fades (.refl s')
  · have hbin : c.binHash = (s.chunks.cell t.c).binHash := by
      obtain ⟨-, ⟨-, rfl⟩ | ⟨-, -, -, rfl⟩⟩ := storeData_cases hstore <;> rfl
    have hack : Moves (fun _ => False) (s.modifyChunk t.c fun _ => c)
        (sendACK (s.modifyChunk t.c fun _ => c) peer (dataFindLargestConsecSeq c)) :=
      moves_sendACK _ _ _
    have h₁ := (of_fades (.modifyChunk s t.c (f := fun _ => c) hbin)).trans
      (of_moves id id hack)
    rcases hend with ⟨-, rfl⟩ | ⟨-, rfl⟩
    · exact h₁
    · have hclose : ∀ u : State, Moves (Kind.closeIn = ·) u (u.deleteIncoming i) :=
        fun u => .single (.closeIn u i rfl)
      exact ((h₁.trans (of_fades (.finishChunk shahash _ t.c))).trans
        (of_moves (fun hk => by cases hk) (fun hk => by cases hk) (hclose _))).trans
          (getChunkData _)

theorem handleClientTimeout (s : State) : Asks s (handleClientTimeout s) := by
  rw [P2P.handleClientTimeout]
  split
  · exact of_fades (.refl s)
  · have hloop : Moves (Kind.closeIn = ·) s (clientTimeoutLoop s.incoming.length 0 s) :=
      moves_clientTimeoutLoop rfl _ 0 s
    have h₁ := (of_moves (fun hk => by cases hk) (fun hk => by cases hk) hloop).trans
      (getChunkData _)
    dsimp only
    split
    · have hsend : Moves (fun _ => False) _ _ := moves_sendWHOHAS
        (P2P.getChunkData (clientTimeoutLoop s.incoming.length 0 s))
      exact h₁.trans (of_moves id id hsend)
    · exact h₁

theorem receiveIHAVE {pack : Packet} {peer : ℕ} (s : State) :
    Asks s (receiveIHAVE s pack peer) := by
  have hoffer : ∀ (hash : BinHash) (s : State) (q : ℕ), Asks s (offerPeer peer hash s q) := by
    intro hash s q
    rw [offerPeer]
    split
    · exact of_fades (.modifyChunk s q (f := fun c => { c with peer := peer :: c.peer }) rfl)
    · exact of_fades (.refl s)
  have hloop : ∀ (hash : BinHash) (l : List ℕ) (s : State),
      Asks s (l.foldl (offerPeer peer hash) s) := by
    intro hash l
    induction l with
    | nil => exact fun s => of_fades (.refl s)
    | cons q l ih => exact fun s => (hoffer hash s q).trans (ih _)
  rw [receiveIHAVE_eq, State.offered]
  refine trans ?_ (getChunkData _)
  generalize pack.hashes = hashes
  induction hashes generalizing s with
  | nil => exact of_fades (.refl s)
  | cons hash hashes ih => exact (hloop hash s.missing s).trans (ih _)

/-- What was asked for stays asked for. -/
theorem asked (h : Asks s s') (hs : ∀ t ∈ s.incoming, Asked s t) :
    ∀ t ∈ s'.incoming, Asked s' t := by
  intro t' ht'
  rcases h.incoming t' ht' with ⟨t, ht, hends⟩ | hasked
  · exact (hs t ht).mono hends (h.binHash t.c) h.trace
  · exact hasked

end Asks

theorem incoming_processGet (s : State) (chunkFile outputFile : String) (lines : List ChunkLine) :
    (processGet s chunkFile outputFile lines).incoming = s.incoming := by
  rw [processGet, sendWHOHAS_eq, createWantedMissingList]
  exact ((checkAllReceived_same _).2).trans (wantLines_transfers lines _).1

/-- **Every step leaves the transfers of the client asked for.** -/
theorem asked_step {shahash : List UInt8 → BinHash} {s s' : State} {e : Event}
    (hlt : ∀ t ∈ s.incoming, t.c < s.chunks.next) (hserving : Serving s)
    (hhave : ∀ q ∈ s.haveList, q < s.chunks.next) (hs : ∀ t ∈ s.incoming, Asked s t)
    (he : step shahash s e = .ok s') : ∀ t ∈ s'.incoming, Asked s' t := by
  have hreacts := step_reacts hlt (fun t ht => hhave t.c (hserving t ht)) he
  obtain ⟨es, hes, -⟩ := hreacts.sent
  -- where the list of the client is left alone
  have hsame : s'.incoming = s.incoming → ∀ t ∈ s'.incoming, Asked s' t := by
    intro heq t ht
    rw [heq] at ht
    exact (hs t ht).mono ⟨rfl, rfl⟩ (hreacts.binHash t.c (hlt t ht)) ⟨es, hes⟩
  rcases ClientKept.of_handled (handled_of_step he) with ⟨hk, -⟩ |
    ⟨chunkFile, outputFile, lines, -, rfl⟩ | ⟨-, rfl⟩ |
    ⟨src, pack, peer, -, -, ⟨-, rfl⟩ | ⟨-, rfl⟩ | ⟨-, hr⟩⟩
  · exact hsame hk.incoming
  · exact hsame (incoming_processGet s chunkFile outputFile lines)
  · exact (Asks.handleClientTimeout s).asked hs
  · exact (Asks.receiveIHAVE s).asked hs
  · have hmoves : Moves (Kind.closeIn = ·) s (receiveDENIED s peer) :=
      moves_receiveDENIED rfl s peer
    exact (Asks.of_moves (fun hk => by cases hk) (fun hk => by cases hk) hmoves).asked hs
  · exact (Asks.receiveDATA hr).asked hs

/-! ### Idle peers are available -/

/-- A peer of the configuration that is not available has a transfer. -/
def Accounted (s : State) : Prop :=
  ∀ p < s.peers.next, (s.peers.cell p).available = 1 ∨
    (∃ t ∈ s.incoming, t.peer = p) ∨ ∃ t ∈ s.outgoing, t.peer = p

/-- The peers of the transfers of a list that was touched. -/
theorem peer_of_modify {l : List Transfer} {i p : ℕ} {f : Transfer → Transfer}
    (hf : ∀ t, SameEnds t (f t)) (h : ∃ t ∈ l, t.peer = p) : ∃ t ∈ l.modify i f, t.peer = p := by
  obtain ⟨t, ht, rfl⟩ := h
  obtain ⟨t', ht', hends⟩ := Within.of_modify l i hf t ht
  exact ⟨t', ht', hends.1⟩

/-- The peers of the transfers of a list in which one was replaced. -/
theorem peer_of_set {l : List Transfer} {i p : ℕ} {t t' : Transfer} (hi : l[i]? = some t)
    (ht : t'.peer = t.peer) (h : ∃ u ∈ l, u.peer = p) : ∃ u ∈ l.set i t', u.peer = p := by
  obtain ⟨u, hu, rfl⟩ := h
  obtain ⟨j, hj⟩ := List.mem_iff_getElem?.1 hu
  by_cases hij : i = j
  · have hlt := (List.getElem?_eq_some_iff.1 hi).1
    rw [← hij, hi] at hj
    cases hj
    exact ⟨t', List.mem_of_getElem? (List.getElem?_set_self hlt), ht⟩
  · exact ⟨u, List.mem_of_getElem? ((List.getElem?_set_ne hij).trans hj), rfl⟩

/-- The peers of the transfers of a list that one was put before. -/
theorem peer_of_cons {l : List Transfer} {t : Transfer} {p : ℕ} (h : ∃ u ∈ l, u.peer = p) :
    ∃ u ∈ t :: l, u.peer = p := by
  obtain ⟨u, hu, hup⟩ := h
  exact ⟨u, List.mem_cons_of_mem _ hu, hup⟩

/-- The peers of the transfers that are left when one with another peer is removed. -/
theorem peer_of_eraseIdx {l : List Transfer} {i p : ℕ} {t : Transfer} (hi : l[i]? = some t)
    (hne : p ≠ t.peer) (h : ∃ u ∈ l, u.peer = p) : ∃ u ∈ l.eraseIdx i, u.peer = p := by
  obtain ⟨u, hu, rfl⟩ := h
  refine ⟨u, mem_eraseIdx_of_ne hi hu fun hut => hne ?_, rfl⟩
  rw [hut]

/-- **A move leaves every peer accounted for.** -/
theorem Move.accounted {may : Kind → Prop} {s s' : State} (h : Move may s s') (ha : Accounted s) :
    Accounted s' := by
  intro p hp
  rw [h.frame.peersNext] at hp
  have hold := ha p hp
  cases h with
  | touchIn i f hf => exact hold.imp_right (Or.imp_left (peer_of_modify hf))
  | touchOut i t t' hi ht =>
      exact hold.imp_right (Or.imp_right (peer_of_set hi ht.1))
  | openIn q r hq hr hav hno hk =>
      by_cases hpr : p = r
      · exact Or.inr (Or.inl ⟨_, List.mem_cons_self .., hpr.symm⟩)
      · exact hold.imp (fun h => (cell_setAvailable_of_ne (s.tick 1) 0 hpr).trans h)
          (Or.imp_left peer_of_cons)
  | closeIn i hk =>
      cases hi : s.incoming[i]? with
      | none =>
          rw [State.deleteIncoming, hi]
          exact hold
      | some t =>
          rw [State.deleteIncoming_eq hi]
          by_cases hpt : p = t.peer
          · rw [hpt]
            exact Or.inl (cell_setAvailable_self s t.peer 1)
          · exact hold.imp (fun h => (cell_setAvailable_of_ne s 1 hpt).trans h)
              (Or.imp_left (peer_of_eraseIdx hi hpt))
  | openOut t ht hk =>
      by_cases hpt : p = t.peer
      · exact Or.inr (Or.inr ⟨t, List.mem_cons_self .., hpt.symm⟩)
      · exact hold.imp (fun h => (cell_setAvailable_of_ne (s.tick 1) 0 hpt).trans h)
          (Or.imp_right peer_of_cons)
  | closeOut i hk =>
      cases hi : s.outgoing[i]? with
      | none =>
          rw [State.deleteOutgoing, hi]
          exact hold
      | some t =>
          rw [State.deleteOutgoing_eq hi]
          by_cases hpt : p = t.peer
          · rw [hpt]
            exact Or.inl (cell_setAvailable_self s t.peer 1)
          · exact hold.imp (fun h => (cell_setAvailable_of_ne s 1 hpt).trans h)
              (Or.imp_right (peer_of_eraseIdx hi hpt))
  | _ => exact hold

theorem Moves.accounted {may : Kind → Prop} {s s' : State} (h : Moves may s s')
    (ha : Accounted s) : Accounted s' := by
  induction h with
  | refl => exact ha
  | tail _ hm ih => exact hm.accounted ih

/-- The invariant speaks of the peers and of the transfers. -/
theorem Accounted.congr {s s' : State} (ha : Accounted s) (hp : s'.peers = s.peers)
    (hin : s'.incoming = s.incoming) (hout : s'.outgoing = s.outgoing) : Accounted s' := by
  rw [Accounted, hp, hin, hout]
  exact ha

/-- **Every step leaves every peer accounted for.** -/
theorem Accounted.step {shahash : List UInt8 → BinHash} {s s' : State} {e : Event}
    (ha : Accounted s) (he : step shahash s e = .ok s') : Accounted s' := by
  obtain ⟨chunkFile, outputFile, lines, -, rfl⟩ | ⟨_, pack, peer, -, -, -, hr⟩ | hmoves :=
    step_cases he
  · have hlines := (Quiet.wantLines
      { s with userGetChunkFile := chunkFile, userOutputFilename := outputFile } lines).trans
        (.checkAllReceived _)
    have hkept := (ServerKept.wantLines lines
      { s with userGetChunkFile := chunkFile, userOutputFilename := outputFile }).trans
        (.checkAllReceived _)
    exact (moves_sendWHOHAS _ : Moves Kind.Any _ _).accounted
      (ha.congr hlines.peers hlines.incoming hkept.outgoing)
  · obtain ⟨-, rfl⟩ | ⟨i, t, c, -, -, s₁, rfl, hend⟩ := receiveDATA_cases hr
    · exact ha
    · have h₁ : Accounted (sendACK (s.modifyChunk t.c fun _ => c) peer
          (dataFindLargestConsecSeq c)) :=
        (moves_sendACK _ _ _ : Moves Kind.Any _ _).accounted (ha.congr rfl rfl rfl)
      rcases hend with ⟨-, rfl⟩ | ⟨-, rfl⟩
      · exact h₁
      · have hfinish := Quiet.finishChunk shahash (sendACK (s.modifyChunk t.c fun _ => c) peer
          (dataFindLargestConsecSeq c)) t.c
        exact (moves_afterFinish trivial trivial _ i : Moves Kind.Any _ _).accounted
          (h₁.congr hfinish.peers hfinish.incoming (ServerKept.finishChunk shahash _ t.c).outgoing)
  · exact hmoves.accounted ha

/-! ### Times -/

theorem timestamp_timeoutTransfer {clock : ℕ → ℕ} {t t' : Transfer}
    (h : timeoutTransfer clock t = some t') : t'.timestamp = t.timestamp := by
  unfold timeoutTransfer at h
  split at h
  · dsimp only at h
    split at h
    · cases h
    · cases h
      unfold detectedFirstLoss
      dsimp only
      split <;> rfl
  · cases h
    rfl

/-- The timeout handler reads the clock, but keeps the times of the last acknowledgements. -/
theorem stamped_handleServerTimeout {s : State} {now : ℕ}
    (hs : ∀ t ∈ s.outgoing, t.timestamp ≤ now) :
    ∀ t ∈ (handleServerTimeout s).outgoing, t.timestamp ≤ now := by
  have hloop : ∀ (fuel i : ℕ) (s : State), (∀ t ∈ s.outgoing, t.timestamp ≤ now) →
      ∀ t ∈ (serverTimeoutLoop fuel i s).outgoing, t.timestamp ≤ now := by
    intro fuel
    induction fuel with
    | zero => exact fun _ _ hs => hs
    | succ fuel ih =>
        intro i s hs
        rw [serverTimeoutLoop]
        split
        · exact hs
        · rename_i t hi
          split
          · refine ih i _ fun u hu => hs u ?_
            rw [State.deleteOutgoing_eq (s := s.tick 2) hi] at hu
            exact List.mem_of_mem_eraseIdx hu
          · rename_i t' ht'
            refine ih (i + 1) _ fun u hu => ?_
            rcases List.mem_or_eq_of_mem_set hu with hu | rfl
            · exact hs u hu
            · rw [timestamp_timeoutTransfer ht']
              exact hs t (List.mem_of_getElem? hi)
  exact hloop _ 0 s hs

/-- **The times of the transfers of the server** are readings of its clock. -/
theorem stamped_step {shahash : List UInt8 → BinHash} {s s' : State} {e : Event} {now : ℕ}
    (hclock : ∀ k, s.clock k ≤ now) (hs : ∀ t ∈ s.outgoing, t.timestamp ≤ now)
    (he : step shahash s e = .ok s') : ∀ t ∈ s'.outgoing, t.timestamp ≤ now := by
  rcases ServerKept.of_handled (handled_of_step he) with hk | ⟨-, rfl⟩ |
    ⟨src, pack, peer, -, -, ⟨-, rfl⟩ | ⟨-, rfl⟩⟩
  · rw [hk.outgoing]
    exact hs
  · exact stamped_handleServerTimeout hs
  · rcases receiveGET_cases s pack peer with
      ⟨-, heq⟩ | ⟨-, -, heq⟩ | ⟨-, -, -, heq⟩ | ⟨-, -, q, -, -, heq⟩
    · rw [heq]
      exact hs
    · rw [heq]
      exact hs
    · rw [heq]
      exact hs
    · rw [heq]
      intro t ht
      rcases List.mem_cons.1 ht with rfl | ht
      · rw [State.served, sendDATA_eq]
        exact hclock 0
      · exact hs t ht
  · rw [receiveACK]
    split
    · exact hs
    · rename_i i t hfind
      rw [ackTransfer]
      split
      · rename_i hnone
        intro u hu
        rw [State.deleteOutgoing_eq (State.findOutgoing_getElem? hfind).1] at hu
        exact hs u (List.mem_of_mem_eraseIdx hu)
      · rename_i t' sent hsome
        intro u hu
        split_ifs at hsome
        cases hsome
        rcases List.mem_or_eq_of_mem_set hu with hu | rfl
        · exact hs u hu
        · exact hclock 2

/-! ### The identity -/

theorem Move.identity {may : Kind → Prop} {s s' : State} (h : Move may s s') :
    s'.identity = s.identity := by
  cases h with
  | closeIn i hk =>
      rw [State.deleteIncoming]
      split <;> rfl
  | closeOut i hk =>
      rw [State.deleteOutgoing]
      split <;> rfl
  | _ => rfl

theorem Moves.identity {may : Kind → Prop} {s s' : State} (h : Moves may s s') :
    s'.identity = s.identity := by
  induction h with
  | refl => rfl
  | tail _ hm ih => exact hm.identity.trans ih

theorem identity_checkAllReceived (s : State) : (checkAllReceived s).identity = s.identity := by
  rw [checkAllReceived]
  split <;> rfl

/-- No step changes the identity of the peer. -/
theorem identity_step {shahash : List UInt8 → BinHash} {s s' : State} {e : Event}
    (he : step shahash s e = .ok s') : s'.identity = s.identity := by
  obtain ⟨chunkFile, outputFile, lines, -, rfl⟩ | ⟨_, pack, peer, -, -, -, hr⟩ | hmoves :=
    step_cases he
  · have hlines : ∀ (lines : List ChunkLine) (s : State),
        (lines.foldl wantLine s).identity = s.identity := by
      intro lines
      induction lines with
      | nil => exact fun _ => rfl
      | cons line lines ih =>
          intro s
          rw [List.foldl_cons, ih, wantLine]
          split <;> rfl
    exact (moves_sendWHOHAS _ : Moves Kind.Any _ _).identity.trans
      ((identity_checkAllReceived _).trans (hlines lines _))
  · obtain ⟨-, rfl⟩ | ⟨i, t, c, -, -, s₁, rfl, hend⟩ := receiveDATA_cases hr
    · rfl
    · have h₁ := (moves_sendACK (s.modifyChunk t.c fun _ => c) peer
        (dataFindLargestConsecSeq c) : Moves Kind.Any _ _).identity
      rcases hend with ⟨-, rfl⟩ | ⟨-, rfl⟩
      · exact h₁
      · refine (moves_afterFinish trivial trivial _ i : Moves Kind.Any _ _).identity.trans
          (Eq.trans ?_ h₁)
        generalize sendACK (s.modifyChunk t.c fun _ => c) peer (dataFindLargestConsecSeq c) = s₁
        obtain ⟨-, heq⟩ | ⟨-, -, heq⟩ | ⟨-, j, r, -, -, -, heq⟩ := finishChunk_cases shahash s₁ t.c
        · rw [heq]
          rfl
        · rw [heq, identity_checkAllReceived]
        · rw [heq, identity_checkAllReceived]
          rfl
  · exact hmoves.identity

/-! ### The invariant -/

/-- **The invariant**, with a time that the clock has not passed. -/
structure Ready (now : ℕ) (s : State) : Prop where
  asked : ∀ t ∈ s.incoming, Asked s t
  accounted : Accounted s
  alive : Alive s.outNodes
  stamped : ∀ t ∈ s.outgoing, t.timestamp ≤ now

/-- **Every step keeps the invariant**, to the time that the clock shows. -/
theorem Ready.step {shahash : List UInt8 → BinHash} {own : ℕ} {start : ℕ → Chunk}
    {kept : List ℕ} {s s' : State} {e : Event} {now now' : ℕ} (h : Ready now s)
    (hi : Intact shahash own start kept s) (hserving : Serving s) (hnow : now ≤ now')
    (hclock : ∀ k, s.clock k ≤ now') (he : P2P.step shahash s e = .ok s') : Ready now' s' where
  asked := asked_step (fun t ht => (hi.incoming t ht).2) hserving (fun _ hq => hi.lt_of_owned hq)
    h.asked he
  accounted := h.accounted.step he
  alive := alive_step h.alive he
  stamped := stamped_step hclock (fun t ht => (h.stamped t ht).trans hnow) he

/-- The invariant does not mention the clock. -/
theorem Ready.clock {now : ℕ} {s : State} (h : Ready now s) (clock : ℕ → ℕ) :
    Ready now { s with clock := clock } :=
  ⟨h.asked, h.accounted, h.alive, h.stamped⟩

/-- The invariant after set-up. -/
theorem ready_peerSetup (setup : Setup) (clock : ℕ → ℕ) (junk : ℕ → Packet) (now : ℕ) :
    Ready now (peerSetup setup clock junk) := by
  refine ⟨fun _ ht => absurd ht List.not_mem_nil, fun p hp => Or.inl ?_,
    fun _ hn => absurd hn List.not_mem_nil, fun _ ht => absurd ht List.not_mem_nil⟩
  have hlen : p < setup.peers.length := by
    have hnext : (peerSetup setup clock junk).peers.next = setup.peers.length :=
      List.length_map ..
    rwa [hnext] at hp
  show ((setup.peers.map fun peer => (⟨peer.1, peer.2, 1⟩ : BtPeer)).getD p _).available = 1
  rw [List.getD, List.getElem?_map, List.getElem?_eq_getElem hlen]
  rfl

end P2P
