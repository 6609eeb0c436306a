/-
**What each side leaves to the other.**

The handlers of the client do not touch the transfers of the server or the limit of its connections,
and the handlers of the server touch neither the transfers of the client nor a chunk.  What changes
the list of a side therefore is one of few handlers, and `P2P.Handled` says which.

Main definitions:

* `P2P.ServerKept`, `P2P.ClientKept` — what a handler of the other side leaves alone.

Main results:

* `P2P.ServerKept.of_handled`, `P2P.ClientKept.of_handled` — **every step keeps one side or is a
  handler of it**.
-/

import P2PFileTransfer.Moves
import P2PFileTransfer.Senders

set_option relaxedAutoImplicit false
set_option autoImplicit false

namespace P2P

/-- What the handlers of the client leave alone. -/
structure ServerKept (s s' : State) : Prop where
  outgoing : s'.outgoing = s.outgoing
  maxConn : s'.maxConn = s.maxConn

/-- What the handlers of the server leave alone. -/
structure ClientKept (s s' : State) : Prop where
  incoming : s'.incoming = s.incoming
  chunks : s'.chunks = s.chunks

/-! ### The handlers of the client -/

namespace ServerKept

variable {s s' s'' : State}

theorem refl (s : State) : ServerKept s s := ⟨rfl, rfl⟩

theorem trans (h : ServerKept s s') (h' : ServerKept s' s'') : ServerKept s s'' :=
  ⟨h'.outgoing.trans h.outgoing, h'.maxConn.trans h.maxConn⟩

/-- A loop keeps what its body keeps. -/
theorem foldl {α : Type*} {body : State → α → State} (h : ∀ s a, ServerKept s (body s a))
    (l : List α) (s : State) : ServerKept s (l.foldl body s) := by
  induction l generalizing s with
  | nil => exact refl s
  | cons a l ih => exact (h s a).trans (ih _)

theorem sendGET (s : State) (peer : ℕ) (hash : BinHash) (count : ℕ) :
    ServerKept s (sendGET s peer hash count) := by
  rw [P2P.sendGET]
  split <;> exact ⟨rfl, rfl⟩

theorem sendACK (s : State) (peer n : ℕ) : ServerKept s (sendACK s peer n) := by
  rw [P2P.sendACK]
  split <;> exact ⟨rfl, rfl⟩

theorem sendWHOHAS (s : State) : ServerKept s (sendWHOHAS s) := by
  rw [sendWHOHAS_eq]
  exact ⟨rfl, rfl⟩

theorem deleteIncoming (s : State) (i : ℕ) : ServerKept s (s.deleteIncoming i) := by
  rw [State.deleteIncoming]
  split <;> exact ⟨rfl, rfl⟩

theorem requestChunk (s : State) (q : ℕ) : ServerKept s (requestChunk s q) := by
  rw [P2P.requestChunk]
  split
  · rename_i peer _ _
    have hopen : ServerKept s (s.insertIncoming peer q) := ⟨rfl, rfl⟩
    exact hopen.trans (sendGET _ _ _ _)
  · exact refl s

theorem getChunkData (s : State) : ServerKept s (getChunkData s) :=
  foldl requestChunk s.missing s

theorem receiveIHAVE (s : State) (pack : Packet) (peer : ℕ) :
    ServerKept s (receiveIHAVE s pack peer) := by
  have hoffer : ∀ hash (s : State) q, ServerKept s (offerPeer peer hash s q) := by
    intro hash s q
    rw [offerPeer]
    split <;> exact ⟨rfl, rfl⟩
  exact (foldl (fun s i => foldl (hoffer (pack.hashList i)) s.missing s) _ s).trans
    (getChunkData _)

theorem receiveDENIED (s : State) (peer : ℕ) : ServerKept s (receiveDENIED s peer) := by
  rw [P2P.receiveDENIED]
  split
  · exact refl s
  · exact deleteIncoming s _

theorem checkAllReceived (s : State) : ServerKept s (checkAllReceived s) := by
  rw [P2P.checkAllReceived]
  split <;> exact ⟨rfl, rfl⟩

theorem finishChunk (shahash : List UInt8 → BinHash) (s : State) (q : ℕ) :
    ServerKept s (finishChunk shahash s q) := by
  obtain ⟨-, heq⟩ | ⟨-, -, heq⟩ | ⟨-, i, r, -, -, -, heq⟩ := finishChunk_cases shahash s q
  · rw [heq]
    exact ⟨rfl, rfl⟩
  · rw [heq]
    exact checkAllReceived s
  · rw [heq]
    have haccept : ServerKept s (s.accept i q) := ⟨rfl, rfl⟩
    exact haccept.trans (checkAllReceived _)

theorem receiveDATA {shahash : List UInt8 → BinHash} {pack : Packet} {peer : ℕ}
    (h : receiveDATA shahash s pack peer = .ok s') : ServerKept s s' := by
  obtain ⟨-, rfl⟩ | ⟨i, t, c, -, -, s₁, rfl, hend⟩ := receiveDATA_cases h
  · exact refl s'
  · have hstore : ServerKept s (s.modifyChunk t.c fun _ => c) := ⟨rfl, rfl⟩
    have h₁ := hstore.trans (sendACK _ peer (dataFindLargestConsecSeq c))
    rcases hend with ⟨-, rfl⟩ | ⟨-, rfl⟩
    · exact h₁
    · exact ((h₁.trans (finishChunk shahash _ t.c)).trans (deleteIncoming _ i)).trans
        (getChunkData _)

theorem handleTransferDead (s : State) (i : ℕ) (t : Transfer) :
    ServerKept s (handleTransferDead s i t) := by
  have hforget : ∀ (s : State) (q : ℕ), ServerKept s (forgetPeer t.peer s q) :=
    fun _ _ => ⟨rfl, rfl⟩
  exact (foldl hforget s.missing s).trans (deleteIncoming _ i)

theorem handleClientTimeout (s : State) : ServerKept s (handleClientTimeout s) := by
  have hloop : ∀ (fuel i : ℕ) (s : State), ServerKept s (clientTimeoutLoop fuel i s) := by
    intro fuel
    induction fuel with
    | zero => exact fun _ s => refl s
    | succ fuel ih =>
        intro i s
        rw [clientTimeoutLoop]
        split
        · exact refl s
        · rename_i t _
          have htick : ServerKept s (s.tick 1) := ⟨rfl, rfl⟩
          have hcount : ServerKept s ((s.tick 1).countIncoming i) := ⟨rfl, rfl⟩
          dsimp only
          split_ifs
          · exact (hcount.trans (handleTransferDead _ i t)).trans (ih _ _)
          · exact (hcount.trans (sendGET _ _ _ _)).trans (ih _ _)
          · exact (hcount.trans (sendACK _ _ _)).trans (ih _ _)
          · exact htick.trans (ih _ _)
  rw [P2P.handleClientTimeout]
  dsimp only
  split_ifs
  · exact refl s
  · exact ((hloop _ 0 s).trans (getChunkData _)).trans (sendWHOHAS _)
  · exact (hloop _ 0 s).trans (getChunkData _)

theorem wantLines (lines : List (UInt32 × HexHash)) (s : State) :
    ServerKept s (lines.foldl wantLine s) := by
  refine foldl (fun s line => ?_) lines s
  rw [wantLine]
  split <;> exact ⟨rfl, rfl⟩

theorem processGet (s : State) (chunkFile outputFile : String)
    (lines : List (UInt32 × HexHash)) : ServerKept s (processGet s chunkFile outputFile lines) := by
  have hnames : ServerKept s
      { s with userGetChunkFile := chunkFile, userOutputFilename := outputFile } := ⟨rfl, rfl⟩
  exact ((hnames.trans (wantLines lines _)).trans (checkAllReceived _)).trans (sendWHOHAS _)

end ServerKept

/-! ### The handlers of the server -/

namespace ClientKept

variable {s s' s'' : State}

theorem refl (s : State) : ClientKept s s := ⟨rfl, rfl⟩

theorem trans (h : ClientKept s s') (h' : ClientKept s' s'') : ClientKept s s'' :=
  ⟨h'.incoming.trans h.incoming, h'.chunks.trans h.chunks⟩

theorem receiveWHOHAS {pack : Packet} {peer : ℕ} (h : receiveWHOHAS s pack peer = .ok s') :
    ClientKept s s' := by
  rw [receiveWHOHAS_eq] at h
  split_ifs at h
  cases h
  exact ⟨rfl, rfl⟩

theorem receiveGET (s : State) (pack : Packet) (peer : ℕ) :
    ClientKept s (receiveGET s pack peer) := by
  rw [P2P.receiveGET]
  split
  · exact ⟨rfl, rfl⟩
  · split_ifs <;> exact ⟨rfl, rfl⟩

theorem deleteOutgoing (s : State) (i : ℕ) : ClientKept s (s.deleteOutgoing i) := by
  rw [State.deleteOutgoing]
  split <;> exact ⟨rfl, rfl⟩

theorem receiveACK (s : State) (pack : Packet) (peer : ℕ) :
    ClientKept s (receiveACK s pack peer) := by
  rw [P2P.receiveACK]
  split
  · exact refl s
  · split
    · exact deleteOutgoing s _
    · exact ⟨rfl, rfl⟩

theorem handleServerTimeout (s : State) : ClientKept s (handleServerTimeout s) := by
  have hloop : ∀ (fuel i : ℕ) (s : State), ClientKept s (serverTimeoutLoop fuel i s) := by
    intro fuel
    induction fuel with
    | zero => exact fun _ s => refl s
    | succ fuel ih =>
        intro i s
        rw [serverTimeoutLoop]
        split
        · exact refl s
        · split
          · have htick : ClientKept s (s.tick 2) := ⟨rfl, rfl⟩
            exact (htick.trans (deleteOutgoing _ i)).trans (ih _ _)
          · rename_i t' _
            have htouch : ClientKept s { s.tick 2 with outgoing := s.outgoing.set i t' } :=
              ⟨rfl, rfl⟩
            exact htouch.trans (ih _ _)
  exact hloop _ 0 s

end ClientKept

/-! ### Steps -/

/-- **Every step keeps the transfers of the server or is a handler of it.** -/
theorem ServerKept.of_handled {shahash : List UInt8 → BinHash} {s s' : State} {e : Event}
    (h : Handled shahash s e s') : ServerKept s s' ∨
      e = .serverTimeout ∧ s' = handleServerTimeout s ∨
      ∃ src pack peer, e = .packet src pack ∧ findPeer s src = some peer ∧
        (pack.type = .get ∧ s' = receiveGET s pack peer ∨
          pack.type = .ack ∧ s' = receiveACK s pack peer) := by
  cases h with
  | userGet chunkFile outputFile lines =>
      exact Or.inl (ServerKept.processGet s chunkFile outputFile lines)
  | serverTimeout => exact Or.inr (Or.inl ⟨rfl, rfl⟩)
  | clientTimeout => exact Or.inl (ServerKept.handleClientTimeout s)
  | stranger src pack hp => exact Or.inl (ServerKept.refl s)
  | whohas src pack peer s' hp ht hr =>
      rw [receiveWHOHAS_eq] at hr
      split_ifs at hr
      cases hr
      exact Or.inl ⟨rfl, rfl⟩
  | ihave src pack peer hp ht => exact Or.inl (ServerKept.receiveIHAVE s pack peer)
  | get src pack peer hp ht => exact Or.inr (Or.inr ⟨src, pack, peer, rfl, hp, Or.inl ⟨ht, rfl⟩⟩)
  | data src pack peer s' hp ht hr => exact Or.inl (ServerKept.receiveDATA hr)
  | ack src pack peer hp ht => exact Or.inr (Or.inr ⟨src, pack, peer, rfl, hp, Or.inr ⟨ht, rfl⟩⟩)
  | denied src pack peer hp ht => exact Or.inl (ServerKept.receiveDENIED s peer)

/-- **Every step keeps the transfers of the client and the chunks or is a handler of it.** -/
theorem ClientKept.of_handled {shahash : List UInt8 → BinHash} {s s' : State} {e : Event}
    (h : Handled shahash s e s') : ClientKept s s' ∧ Frame s s' ∨
      (∃ chunkFile outputFile lines, e = .userGet chunkFile outputFile lines ∧
        s' = processGet s chunkFile outputFile lines) ∨
      e = .clientTimeout ∧ s' = handleClientTimeout s ∨
      ∃ src pack peer, e = .packet src pack ∧ findPeer s src = some peer ∧
        (pack.type = .ihave ∧ s' = receiveIHAVE s pack peer ∨
          pack.type = .denied ∧ s' = receiveDENIED s peer ∨
          pack.type = .data ∧ receiveDATA shahash s pack peer = .ok s') := by
  cases h with
  | userGet chunkFile outputFile lines =>
      exact Or.inr (Or.inl ⟨chunkFile, outputFile, lines, rfl, rfl⟩)
  | serverTimeout =>
      exact Or.inl ⟨ClientKept.handleServerTimeout s,
        (moves_handleServerTimeout trivial s : Moves Kind.Any _ _).frame⟩
  | clientTimeout => exact Or.inr (Or.inr (Or.inl ⟨rfl, rfl⟩))
  | stranger src pack hp => exact Or.inl ⟨ClientKept.refl s, Frame.refl s⟩
  | whohas src pack peer s' hp ht hr =>
      exact Or.inl ⟨ClientKept.receiveWHOHAS hr,
        (moves_receiveWHOHAS hr : Moves Kind.Any _ _).frame⟩
  | get src pack peer hp ht =>
      exact Or.inl ⟨ClientKept.receiveGET s pack peer,
        (moves_receiveGET trivial s pack peer : Moves Kind.Any _ _).frame⟩
  | ack src pack peer hp ht =>
      exact Or.inl ⟨ClientKept.receiveACK s pack peer,
        (moves_receiveACK fun _ _ _ _ => trivial : Moves Kind.Any _ _).frame⟩
  | ihave src pack peer hp ht =>
      exact Or.inr (Or.inr (Or.inr ⟨src, pack, peer, rfl, hp, Or.inl ⟨ht, rfl⟩⟩))
  | denied src pack peer hp ht =>
      exact Or.inr (Or.inr (Or.inr ⟨src, pack, peer, rfl, hp, Or.inr (Or.inl ⟨ht, rfl⟩)⟩))
  | data src pack peer s' hp ht hr =>
      exact Or.inr (Or.inr (Or.inr ⟨src, pack, peer, rfl, hp, Or.inr (Or.inr ⟨ht, hr⟩)⟩))

end P2P
