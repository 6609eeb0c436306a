/-
**Which `GET`s are answered** (`receive_GET`).

A server that owns the chunk should answer a `GET` with a piece of it, or deny it when it has no
connection left; a client that saw no data asks again and should get the piece again.  The code
looks at the ownership, then at the number of its transfers, then for a transfer of the same hash
with whomever, and in the last case it does nothing: neither the peer of that transfer nor another
one is answered.

Main definitions:

* `P2P.Sent` — what a step sent;
* `P2P.State.Owns`, `P2P.State.Serves`, `P2P.State.Refuses` — what the server looks at;
* `P2P.Answered`, `P2P.GetsAnswered` — how a `GET`, and every `GET` of a run, should be answered;
* `P2P.Answerable` — when it is.

Main results:

* `P2P.receiveGET_cases` — **what a `GET` does**;
* `P2P.answered_receiveGET_iff`, `P2P.gets_answered_iff` — **which `GET`s are answered**, for one
  `GET` and for a run.
-/

import P2PFileTransfer.Machine
import P2PFileTransfer.Peer

set_option relaxedAutoImplicit false
set_option autoImplicit false

namespace P2P

/-- The effect is among those that lie between the two states. -/
def Sent (s s' : State) (e : Effect) : Prop := ∃ es, s'.trace = s.trace ++ es ∧ e ∈ es

theorem sent_iff {s s' : State} {es : List Effect} (h : s'.trace = s.trace ++ es) (e : Effect) :
    Sent s s' e ↔ e ∈ es := by
  constructor
  · rintro ⟨es', h', he⟩
    rwa [List.append_cancel_left (h.symm.trans h')]
  · exact fun he => ⟨es, h, he⟩

/-! ### What a `GET` does -/

/-- A chunk with the hash is owned. -/
def State.Owns (s : State) (hash : BinHash) : Prop := ∃ q ∈ s.haveList, s.binHash q = hash

instance (s : State) (hash : BinHash) : Decidable (s.Owns hash) :=
  inferInstanceAs (Decidable (∃ q ∈ s.haveList, _))

/-- The server has a transfer of the hash with the peer. -/
def State.Serves (s : State) (peer : ℕ) (hash : BinHash) : Prop :=
  ∃ t ∈ s.outgoing, t.peer = peer ∧ s.binHash t.c = hash

/-- The transfer that `receive_GET` creates for the chunk at `q`, after its first pieces, and these
pieces. -/
def State.served (s : State) (peer q : ℕ) : Transfer × List Packet :=
  sendDATA (s.chunks.cell q) (createTransfer peer q (s.clock 0))

/-- **What a `GET` does**: it is denied when the chunk is not owned or no connection is left, it
opens a transfer when none of the same hash is running, and otherwise nothing happens. -/
theorem receiveGET_cases (s : State) (pack : Packet) (peer : ℕ) :
    ¬ s.Owns (pack.hashList 0) ∧ receiveGET s pack peer = sendDENIED s peer ∨
      s.Owns (pack.hashList 0) ∧ s.maxConn ≤ s.outgoing.length ∧
        receiveGET s pack peer = sendDENIED s peer ∨
      s.Owns (pack.hashList 0) ∧ s.outgoing.length < s.maxConn ∧
        (∃ t ∈ s.outgoing, s.binHash t.c = pack.hashList 0) ∧ receiveGET s pack peer = s ∨
      s.outgoing.length < s.maxConn ∧ (∀ t ∈ s.outgoing, s.binHash t.c ≠ pack.hashList 0) ∧
        ∃ q ∈ s.haveList, s.binHash q = pack.hashList 0 ∧ receiveGET s pack peer =
          (s.insertOutgoing (s.served peer q).1).sendPieces (s.served peer q).1
            (s.served peer q).2 := by
  rw [receiveGET]
  cases hown : nodeFind (fun q => compareChunkByBinHash (s.chunks.cell q) (pack.hashList 0))
      s.haveList with
  | none =>
      refine Or.inl ⟨?_, rfl⟩
      rintro ⟨q, hq, hhash⟩
      have hfalse := nodeFind_eq_none_iff.1 hown q hq
      rw [compareChunkByBinHash_iff.2 hhash] at hfalse
      cases hfalse
  | some node =>
      obtain ⟨i, q⟩ := node
      have hq : q ∈ s.haveList ∧ s.binHash q = pack.hashList 0 :=
        ⟨mem_of_nodeFind hown, compareChunkByBinHash_iff.1 (nodeFind_eq_some_iff.1 hown).2.1⟩
      refine Or.inr ?_
      dsimp only
      by_cases hfull : s.maxConn ≤ s.outgoing.length
      · rw [if_pos hfull]
        exact Or.inl ⟨⟨q, hq⟩, hfull, rfl⟩
      · rw [if_neg hfull]
        cases hrun : nodeFind (s.compareTransferByChunkHash (pack.hashList 0)) s.outgoing with
        | some node =>
            have ht := (nodeFind_eq_some_iff.1 hrun).2.1
            exact Or.inr (Or.inl ⟨⟨q, hq⟩, lt_of_not_ge hfull,
              ⟨node.2, mem_of_nodeFind hrun, State.compareTransferByChunkHash_iff.1 ht⟩, rfl⟩)
        | none =>
            refine Or.inr (Or.inr ⟨lt_of_not_ge hfull, fun t ht heq => ?_, q, hq.1, hq.2, rfl⟩)
            have hfalse := nodeFind_eq_none_iff.1 hrun t ht
            rw [State.compareTransferByChunkHash_iff.2 heq] at hfalse
            cases hfalse

/-! ### Answers -/

/-- The server may refuse to send the chunk with the hash: it does not own it, or all connections
are taken and none of them is the peer's transfer of it. -/
def State.Refuses (s : State) (peer : ℕ) (hash : BinHash) : Prop :=
  ¬ s.Owns hash ∨ ¬ s.Serves peer hash ∧ s.maxConn ≤ s.outgoing.length

/-- **How a `GET` of the peer for the hash should be answered**: with `DENIED` if the server may
refuse; otherwise with the first unacknowledged piece of the chunk, from a transfer with the peer.
-/
def Answered (s s' : State) (peer : ℕ) (hash : BinHash) : Prop :=
  (s.Refuses peer hash ∧ ∃ pack, pack.type = .denied ∧ Sent s s' (.send peer pack none)) ∨
  (¬ s.Refuses peer hash ∧ ∃ t ∈ s'.outgoing, t.peer = peer ∧ t.c ∈ s.haveList ∧
    s.binHash t.c = hash ∧
    Sent s s' (.send peer (dataPacket (s.chunks.cell t.c) t.cctrl.begin) (some hash)))

/-- **When a `GET` is answered**: no transfer of the hash is running, or all connections are taken
and none of them is the peer's transfer of it; or the chunk is not owned. -/
def Answerable (s : State) (peer : ℕ) (hash : BinHash) : Prop :=
  ¬ s.Owns hash ∨ (∀ t ∈ s.outgoing, s.binHash t.c ≠ hash) ∨
    ¬ s.Serves peer hash ∧ s.maxConn ≤ s.outgoing.length

theorem sent_sendDENIED_iff (s : State) (peer : ℕ) (e : Effect) :
    Sent s (sendDENIED s peer) e ↔ e = .send peer (deniedPacket (s.junk 0)) none :=
  (sent_iff rfl e).trans List.mem_singleton

/-- A denial answers exactly the `GET`s that the server may refuse. -/
theorem answered_sendDENIED_iff (s : State) (peer : ℕ) (hash : BinHash) :
    Answered s (sendDENIED s peer) peer hash ↔ s.Refuses peer hash := by
  constructor
  · rintro (⟨h, -⟩ | ⟨-, t, -, -, -, -, hsent⟩)
    · exact h
    · -- no piece was sent
      rw [sent_sendDENIED_iff] at hsent
      have ht := congrArg (fun e => match e with
        | Effect.send _ pack _ => pack.type
        | .output _ _ _ _ => .get) hsent
      exact nomatch ht
  · intro h
    exact Or.inl ⟨h, _, rfl, (sent_sendDENIED_iff s peer _).2 rfl⟩

/-- A new transfer starts with the first piece of its chunk. -/
theorem first_mem_served (s : State) (peer q : ℕ) :
    dataPacket (s.chunks.cell q) 0 ∈ (s.served peer q).2 := by
  rw [State.served, sendDATA_eq]
  refine List.mem_map.2 ⟨0, ?_, rfl⟩
  show 0 ∈ List.range' 0 (min maxSeqNum (u32 (0 + defaultWindSize)) - 0)
  decide

theorem begin_served (s : State) (peer q : ℕ) : (s.served peer q).1.cctrl.begin = 0 := by
  rw [State.served, sendDATA_begin]
  rfl

/-- **Which `GET`s are answered.** -/
theorem answered_receiveGET_iff (s : State) (pack : Packet) (peer : ℕ) :
    Answered s (receiveGET s pack peer) peer (pack.hashList 0) ↔
      Answerable s peer (pack.hashList 0) := by
  rcases receiveGET_cases s pack peer with
    ⟨hown, heq⟩ | ⟨hown, hfull, heq⟩ | ⟨hown, hroom, ⟨t, ht, hhash⟩, heq⟩ |
    ⟨hroom, hnone, q, hq, hhash, heq⟩
  · rw [heq, answered_sendDENIED_iff]
    exact ⟨fun _ => Or.inl hown, fun _ => Or.inl hown⟩
  · rw [heq, answered_sendDENIED_iff]
    constructor
    · rintro (h | h)
      · exact absurd hown h
      · exact Or.inr (Or.inr h)
    · rintro (h | h | h)
      · exact absurd hown h
      · exact Or.inr ⟨fun ⟨t, ht, _, hc⟩ => h t ht hc, hfull⟩
      · exact Or.inr h
  · -- a transfer of the hash is running and a connection is left: nothing is sent
    rw [heq]
    have hno : ∀ e, ¬ Sent s s e := fun e he =>
      absurd ((sent_iff (List.append_nil _).symm e).1 he) List.not_mem_nil
    constructor
    · rintro (⟨-, pack', -, hsent⟩ | ⟨-, u, -, -, -, -, hsent⟩)
      · exact absurd hsent (hno _)
      · exact absurd hsent (hno _)
    · rintro (h | h | ⟨-, hfull⟩)
      · exact absurd hown h
      · exact absurd hhash (h t ht)
      · exact absurd hroom (not_lt.2 hfull)
  · rw [heq]
    refine ⟨fun _ => Or.inr (Or.inl hnone), fun _ => Or.inr ⟨?_, (s.served peer q).1,
      List.mem_cons_self .., rfl, hq, hhash, ?_⟩⟩
    · rintro (h | ⟨-, hfull⟩)
      · exact h ⟨q, hq, hhash⟩
      · exact absurd hroom (not_lt.2 hfull)
    · refine (sent_iff rfl _).2 (List.mem_map.2 ⟨_, first_mem_served s peer q, ?_⟩)
      rw [begin_served]
      exact congrArg (fun hash => Effect.send peer _ (some hash)) hhash

/-! ### Runs -/

/-- The event is a `GET` of the peer for the hash. -/
def Event.Asks (s : State) (e : Event) (peer : ℕ) (hash : BinHash) : Prop :=
  ∃ src pack, e = .packet src pack ∧ pack.type = .get ∧ findPeer s src = some peer ∧
    pack.hashList 0 = hash

/-- Every `GET` of a run is answered in the step it arrives in. -/
def GetsAnswered (shahash : List UInt8 → BinHash) (s : State) (es : List Event) : Prop :=
  ∀ t e t', Machine.Makes (step shahash) s es t e t' →
    ∀ peer hash, e.Asks t peer hash → Answered t t' peer hash

/-- **In every run, all `GET`s are answered exactly when every one of them is answerable** in the
state it reaches the server in. -/
theorem gets_answered_iff (shahash : List UInt8 → BinHash) {s u : State} {es : List Event}
    (h : Machine.run (step shahash) s es = .ok u) :
    GetsAnswered shahash s es ↔
      Machine.Along (step shahash)
        (fun t e => ∀ peer hash, e.Asks t peer hash → Answerable t peer hash) s es := by
  refine Machine.makes_iff_along (fun t e t' hstep => ?_) h
  have hget : ∀ peer hash, e.Asks t peer hash →
      (Answered t t' peer hash ↔ Answerable t peer hash) := by
    rintro peer hash ⟨src, pack, rfl, ht, hp, rfl⟩
    have heq : t' = receiveGET t pack peer := by
      simp only [step, hp, receivePacket, ht] at hstep
      exact (Except.ok.inj hstep).symm
    rw [heq]
    exact answered_receiveGET_iff t pack peer
  exact forall_congr' fun peer => forall_congr' fun hash => forall_congr' (hget peer hash)

/-- A peer with one chunk and one neighbour. -/
def lender : Setup := ⟨[(2, ⟨0, 2222⟩)], 1, 4, [(0, Vector.replicate hexHashSize 48)], none⟩

/-- A single `GET` is answered. -/
theorem gets_answered_once : GetsAnswered (fun _ => Vector.replicate binHashSize 0)
    (peerSetup lender (fun _ => 0) fun _ => zeroPacket)
    [.packet ⟨0, 2222⟩ (getPacket zeroPacket (binHashOf (Vector.replicate hexHashSize 48)) 1)] :=
  (gets_answered_iff (fun _ => Vector.replicate binHashSize 0) rfl).2
    ⟨fun _ _ _ => Or.inr (Or.inl fun _ ht => absurd ht List.not_mem_nil), fun _ _ => trivial⟩

/-- The neighbour asks for the chunk, and asks again because the first piece was lost. -/
def askedTwice : List Event :=
  List.replicate 2 (.packet ⟨0, 2222⟩
    (getPacket zeroPacket (binHashOf (Vector.replicate hexHashSize 48)) 1))

/-- The second `GET` is not answered. -/
theorem second_get_unanswered : ¬ GetsAnswered (fun _ => Vector.replicate binHashSize 0)
    (peerSetup lender (fun _ => 0) fun _ => zeroPacket) askedTwice := by
  intro hall
  set s := peerSetup lender (fun _ => 0) fun _ => zeroPacket with hs
  set pack := getPacket zeroPacket (binHashOf (Vector.replicate hexHashSize 48)) 1 with hpack
  -- the first `GET` opens a transfer, and the second finds it
  have hfirst : step (fun _ => Vector.replicate binHashSize 0) s (.packet ⟨0, 2222⟩ pack) =
      .ok (receiveGET s pack 0) := rfl
  have hsecond : step (fun _ => Vector.replicate binHashSize 0) (receiveGET s pack 0)
      (.packet ⟨0, 2222⟩ pack) = .ok (receiveGET (receiveGET s pack 0) pack 0) := rfl
  have hanswered := hall _ _ _ ⟨[.packet ⟨0, 2222⟩ pack], [], rfl,
    Machine.run_cons_ok _ hfirst [], hsecond⟩ 0 (pack.hashList 0) ⟨_, pack, rfl, rfl, rfl, rfl⟩
  rcases (answered_receiveGET_iff (receiveGET s pack 0) pack 0).1 hanswered with h | h | ⟨h, -⟩
  · exact h ⟨0, by decide, rfl⟩
  · exact h (s.served 0 0).1 (List.mem_singleton.2 rfl) rfl
  · exact h ⟨(s.served 0 0).1, List.mem_singleton.2 rfl, rfl, rfl⟩

end P2P
