/-
**Who sent a datagram** (`compare_peer_addr`, `find_peer`).

A datagram is attributed to the first peer of the configuration that `compare_peer_addr` accepts.
That function formats both addresses with `inet_ntoa` and compares the two strings; but there is one
buffer for all calls of `inet_ntoa`, so whichever call comes last, `strcmp` compares the buffer with
itself.  What is left is the comparison of the ports: a datagram goes to the first peer with its
port, on whatever host that peer is.

Main definitions:

* `P2P.senderOf` — what is meant: the first peer with the address and the port of the source.

Main results:

* `P2P.comparePeerAddr_iff` — what is compared;
* `P2P.find?_range_eq_iff` — when a weaker test finds the same first number;
* `P2P.findPeer_right_iff` — **when a datagram is attributed to its sender**.
-/

import P2PFileTransfer.Peer

set_option relaxedAutoImplicit false
set_option autoImplicit false

namespace P2P

/-- **What is compared**: the ports. -/
theorem comparePeerAddr_iff {p₁ p₂ : SockaddrIn} :
    comparePeerAddr p₁ p₂ = true ↔ p₁.sinPort = p₂.sinPort := by
  rw [comparePeerAddr]
  simp only [beq_self_eq_true, Bool.and_true, beq_iff_eq]

/-- What `find_peer` is for: the first peer in the list with the address and the port of the
source. -/
def senderOf (s : State) (src : SockaddrIn) : Option ℕ :=
  (List.range s.peers.next).find? fun p =>
    (s.peers.cell p).addr.sinAddr == src.sinAddr && (s.peers.cell p).addr.sinPort == src.sinPort

/-- **When a weaker test finds the same first number**: nothing that only the weaker test accepts
comes first. -/
theorem find?_range_eq_iff {p q : ℕ → Bool} (h : ∀ a, p a = true → q a = true) (n : ℕ) :
    (List.range n).find? q = (List.range n).find? p ↔
      ∀ i < n, q i = true → p i = false → ∃ j < i, p j = true := by
  constructor
  · intro heq i hi hqi hpi
    cases hfind : (List.range n).find? q with
    | none =>
        rw [List.find?_range_eq_none] at hfind
        have hnot := hfind i hi
        simp [hqi] at hnot
    | some m =>
        obtain ⟨-, -, hfirst⟩ := List.find?_range_eq_some.1 hfind
        obtain ⟨hpm, -, -⟩ := List.find?_range_eq_some.1 (heq.symm.trans hfind)
        refine ⟨m, lt_of_le_of_ne (not_lt.1 fun him => ?_) ?_, hpm⟩
        · have hnot := hfirst i him
          simp [hqi] at hnot
        · rintro rfl
          rw [hpm] at hpi
          cases hpi
  · intro hbefore
    -- what the weaker test accepts early would need something accepted by both before it
    have hnone : ∀ i < n, (∀ j < i, p j = false) → p i = false → q i = false := by
      intro i hi hfirst hpi
      refine Bool.eq_false_iff.2 fun hqi => ?_
      obtain ⟨j, hj, hpj⟩ := hbefore i hi hqi hpi
      rw [hfirst j hj] at hpj
      cases hpj
    cases hfind : (List.range n).find? p with
    | none =>
        have hno : ∀ i < n, p i = false := by simpa [List.find?_range_eq_none] using hfind
        refine List.find?_range_eq_none.2 fun i hi => ?_
        rw [hnone i hi (fun j hj => hno j (lt_trans hj hi)) (hno i hi)]
        rfl
    | some m =>
        obtain ⟨hpm, hm, hfirst⟩ := List.find?_range_eq_some.1 hfind
        have hno : ∀ j < m, p j = false := fun j hj => by simpa using hfirst j hj
        refine List.find?_range_eq_some.2 ⟨h m hpm, hm, fun j hj => ?_⟩
        rw [hnone j (lt_trans hj (List.mem_range.1 hm)) (fun k hk => hno k (lt_trans hk hj))
          (hno j hj)]
        rfl

/-- **When a datagram is attributed to its sender**: every peer with the port of the source and
another address stands behind one with the port and the address of the source. -/
theorem findPeer_right_iff (s : State) (src : SockaddrIn) :
    findPeer s src = senderOf s src ↔
      ∀ p < s.peers.next, (s.peers.cell p).addr.sinPort = src.sinPort →
        (s.peers.cell p).addr.sinAddr ≠ src.sinAddr →
          ∃ p' < p, (s.peers.cell p').addr.sinAddr = src.sinAddr ∧
            (s.peers.cell p').addr.sinPort = src.sinPort := by
  have hweaker : ∀ p, ((s.peers.cell p).addr.sinAddr == src.sinAddr &&
      (s.peers.cell p).addr.sinPort == src.sinPort) = true →
        comparePeerAddr (s.peers.cell p).addr src = true := by
    intro p hp
    rw [Bool.and_eq_true, beq_iff_eq, beq_iff_eq] at hp
    exact comparePeerAddr_iff.2 hp.2
  rw [findPeer, senderOf, find?_range_eq_iff hweaker]
  refine forall₂_congr fun p _ => ?_
  rw [comparePeerAddr_iff]
  refine imp_congr_right fun hport => ?_
  simp only [Bool.and_eq_true, beq_iff_eq, Bool.and_eq_false_iff, beq_eq_false_iff_ne, ne_eq, hport,
    not_true_eq_false, or_false]

/-- Two hosts with peers at the same port. -/
def samePort : Setup := ⟨[(1, ⟨0x0100007F, 1111⟩), (2, ⟨0x0200007F, 1111⟩)], 3, 4, [], none⟩

/-- A datagram of the second host is attributed to the first one, and so is one of a host that is
not in the list. -/
theorem findPeer_wrong :
    ¬ ∀ (s : State) (src : SockaddrIn), findPeer s src = senderOf s src := by
  intro h
  have hsecond := h (peerSetup samePort (fun _ => 0) fun _ => zeroPacket) ⟨0x0200007F, 1111⟩
  have hfirst : findPeer (peerSetup samePort (fun _ => 0) fun _ => zeroPacket)
      ⟨0x0200007F, 1111⟩ = some 0 := by rfl
  rw [hfirst] at hsecond
  exact absurd hsecond (by decide)

end P2P
