/-
**Who is declared dead** (`handle_client_timeout`, `handle_server_timeout`, `receive_DATA`,
`receive_ACK`).

A transfer is removed when its fifth timeout is counted, and the count should be that of the
timeouts since the last packet of the transfer.  `receive_ACK` sets the count back when an
acknowledgement is processed, but only that of the first transfer with its sender: where a peer has
two, the other one is not heard.  `receive_DATA` sets nothing back: on the client the timeouts of a
transfer add up, however many pieces arrive between them.

Beside the state of a peer this module keeps a watch, which knows who sent a packet and does not ask
which transfer the program found for it: for every node of the two lists, the timeouts counted since
a packet of its peer was processed last, and for every peer how often the handlers ran since then.

Main definitions:

* `P2P.Watch`, `P2P.Watch.next` — the watch, and what a step does to it;
* `P2P.watchedStep` — a peer with its watch;
* `P2P.Silent` — every transfer that a handler removes was silent for long enough;
* `P2P.Spares` — no transfer of a peer that was heard of late is removed;
* `P2P.Event.Unambiguous`, `P2P.Event.Punctual` — the packet, if it is an acknowledgement or a
  piece, comes from a peer with one transfer at most, and a piece comes when no timeout is counted.

Main results:

* `P2P.OutWatched.next`, `P2P.InWatched.next` — the counts are those of the watch, after unambiguous
  events on the server and after punctual ones on the client;
* `P2P.dead_only_if_silent` — **who is declared dead was silent, and who is heard is not**, in every
  run of such events;
* `P2P.dead_but_heard` — a run in which the client declares a peer dead that just sent a piece.
-/

import P2PFileTransfer.Machine
import P2PFileTransfer.Provenance
import P2PFileTransfer.ServerList

set_option relaxedAutoImplicit false
set_option autoImplicit false

namespace P2P

/-! ### The watch -/

/-- What is known of the silence of others. -/
structure Watch where
  /-- The timeouts counted since a packet came from the peer, for the transfers of the client. -/
  incoming : List ℕ
  /-- And for those of the server. -/
  outgoing : List ℕ
  /-- How often `handle_client_timeout` ran since a piece came from the peer. -/
  clientQuiet : ℕ → ℕ
  /-- How often `handle_server_timeout` ran since an acknowledgement came from the peer. -/
  serverQuiet : ℕ → ℕ

/-- Nothing has happened. -/
def Watch.start : Watch := ⟨[], [], fun _ => 0, fun _ => 0⟩

/-- A packet came from the peer: the entries of all transfers with it are set back. -/
def Watch.hear (s : State) (peer : ℕ) (ts : List Transfer) (l : List ℕ) : List ℕ :=
  List.zipWith (fun t n => if s.peerId t.peer = s.peerId peer then 0 else n) ts l

/-- And its silence is over. -/
def Watch.hearPeer (s : State) (peer : ℕ) (quiet : ℕ → ℕ) : ℕ → ℕ :=
  fun p => if s.peerId p = s.peerId peer then 0 else quiet p

/-- New nodes come in front, until there are `n`. -/
def insertNew (n : ℕ) (l : List ℕ) : List ℕ := List.replicate (n - l.length) 0 ++ l

/-- The piece completes the chunk of the transfer. -/
def State.Completes (s : State) (pack : Packet) (t : Transfer) : Bool :=
  match storeData pack (s.chunks.cell t.c) with
  | .error _ => false
  | .ok c => chunkBitsAllReceived c

/-- The timeout handlers of the two sides; the one of the client opens transfers at its end. -/
def Watch.onServerTimeout (s : State) (l : List ℕ) : List ℕ :=
  settle (· + 1) l (s.serverFindings.map Prod.snd)

def Watch.onClientTimeout (s s' : State) (l : List ℕ) : List ℕ :=
  insertNew s'.incoming.length (settle (· + 1) l (s.clientFindings.map Prod.snd))

/-- A piece from the peer: its transfers were heard, and the first one may be over. -/
def Watch.onData (s : State) (pack : Packet) (peer : ℕ) (s' : State) (l : List ℕ) : List ℕ :=
  match s.findIncoming peer with
  | none => l
  | some (i, t) =>
      if s.Completes pack t then
        insertNew s'.incoming.length ((Watch.hear s peer s.incoming l).eraseIdx i)
      else Watch.hear s peer s.incoming l

/-- A denial from the peer: its transfer is over. -/
def Watch.onDenied (s : State) (peer : ℕ) (l : List ℕ) : List ℕ :=
  match s.findIncoming peer with
  | none => l
  | some (i, _) => l.eraseIdx i

/-- An acknowledgement from the peer: its transfers were heard, and the first one may be over. -/
def Watch.onAck (s : State) (pack : Packet) (peer : ℕ) (l : List ℕ) : List ℕ :=
  match s.findOutgoing peer with
  | none => l
  | some (i, _) =>
      if pack.ackNum.toNat = maxSeqNum then (Watch.hear s peer s.outgoing l).eraseIdx i
      else Watch.hear s peer s.outgoing l

/-- **What a step does to the watch.** -/
def Watch.next (s : State) (e : Event) (s' : State) (w : Watch) : Watch :=
  match e with
  | .userGet _ _ _ => w
  | .serverTimeout => { w with
      outgoing := Watch.onServerTimeout s w.outgoing
      serverQuiet := fun p => w.serverQuiet p + 1 }
  | .clientTimeout => { w with
      incoming := Watch.onClientTimeout s s' w.incoming
      clientQuiet := fun p => w.clientQuiet p + 1 }
  | .packet src pack =>
      match findPeer s src with
      | none => w
      | some peer =>
          match pack.type with
          | .get => { w with outgoing := insertNew s'.outgoing.length w.outgoing }
          | .ack => { w with
              outgoing := Watch.onAck s pack peer w.outgoing
              serverQuiet := Watch.hearPeer s peer w.serverQuiet }
          | .ihave => { w with incoming := insertNew s'.incoming.length w.incoming }
          | .data => { w with
              incoming := Watch.onData s pack peer s' w.incoming
              clientQuiet := Watch.hearPeer s peer w.clientQuiet }
          | .denied => { w with incoming := Watch.onDenied s peer w.incoming }
          | _ => w

/-- **A peer with its watch.** -/
def watchedStep (shahash : List UInt8 → BinHash) :
    State × Watch → Event → Except Fault (State × Watch) :=
  Machine.withHistory (step shahash) Watch.next

/-- Every transfer of the list `ts` that the handler with these findings removes was silent while
the last timeouts were counted, as the list of the watch says. -/
def Silent (ts : List Transfer) (found : List (Transfer × Verdict)) (l : List ℕ) : Prop :=
  ∀ (j : ℕ) (t : Transfer), found[j]? = some (t, Verdict.dead) →
    ∃ u n, ts[j]? = some u ∧ u.ends = t.ends ∧ l[j]? = some n ∧ maxToCounts ≤ n + 1

/-- No transfer of a peer that was heard since the handler ran the last few times is found dead. -/
def Spares (found : List (Transfer × Verdict)) (quiet : ℕ → ℕ) : Prop :=
  ∀ t v, (t, v) ∈ found → quiet t.peer + 1 < maxToCounts → v ≠ .dead

/-- The list has one transfer with the peer at most. -/
def State.Sole (s : State) (ts : List Transfer) (peer : ℕ) : Prop :=
  ∀ (i j : ℕ) (t u : Transfer), ts[i]? = some t → ts[j]? = some u →
    s.peerId t.peer = s.peerId peer → s.peerId u.peer = s.peerId peer → i = j

/-- An acknowledgement comes from a peer to which one chunk is sent at most. -/
def Event.Unambiguous (s : State) : Event → Prop
  | .packet src pack => ∀ peer, findPeer s src = some peer → pack.type = .ack →
      s.Sole s.outgoing peer
  | _ => True

/-- A piece comes from a peer with one transfer at most, and if it does not complete the chunk of
the transfer, then when no timeout of the transfer is counted. -/
def Event.Punctual (s : State) : Event → Prop
  | .packet src pack => ∀ peer, findPeer s src = some peer → pack.type = .data →
      s.Sole s.incoming peer ∧ ∀ i t, s.findIncoming peer = some (i, t) →
        s.Completes pack t = false → t.cctrl.timeoutCount = 0
  | _ => True

theorem insertNew_length (l : List ℕ) : insertNew l.length l = l := by
  rw [insertNew, Nat.sub_self]
  rfl

/-! ### Counts -/

/-- The counts of the nodes. -/
def counts (l : List ((ℕ × ℕ) × ℕ)) : List ℕ := l.map Prod.snd

theorem counts_settle (l : List ((ℕ × ℕ) × ℕ)) (vs : List Verdict) :
    counts (settle bumpNode l vs) = settle (· + 1) (counts l) vs := by
  induction vs generalizing l with
  | nil => rw [settle_nil, settle_nil]
  | cons v vs ih =>
      cases l with
      | nil => rfl
      | cons n l =>
          cases v with
          | quiet => exact congrArg (n.2 :: ·) (ih l)
          | counted => exact congrArg ((n.2 + 1) :: ·) (ih l)
          | dead => exact ih l

theorem counts_set (l : List ((ℕ × ℕ) × ℕ)) (i : ℕ) (n : (ℕ × ℕ) × ℕ) :
    counts (l.set i n) = (counts l).set i n.2 := List.map_set ..

theorem counts_eraseIdx (l : List ((ℕ × ℕ) × ℕ)) (i : ℕ) :
    counts (l.eraseIdx i) = (counts l).eraseIdx i := (List.eraseIdx_map ..).symm

/-- New nodes have no timeouts yet. -/
theorem counts_insertNew {new l l' : List ((ℕ × ℕ) × ℕ)} (h : l' = new ++ l)
    (hnew : ∀ n ∈ new, n.2 = 0) : insertNew l'.length (counts l) = counts l' := by
  rw [h, insertNew, counts, counts, List.length_map, List.length_append, Nat.add_sub_cancel,
    List.map_append]
  congr 1
  exact (List.eq_replicate_iff.2 ⟨List.length_map .., fun n hn => by
    obtain ⟨m, hm, rfl⟩ := List.mem_map.1 hn
    exact hnew m hm⟩).symm

/-- New nodes do not reach the limit. -/
theorem Alive.insertNew {new l l' : List ((ℕ × ℕ) × ℕ)} (hl : Alive l) (h : l' = new ++ l)
    (hnew : ∀ n ∈ new, n.2 = 0) : Alive l' := by
  intro n hn
  rw [h] at hn
  rcases List.mem_append.1 hn with hn | hn
  · rw [hnew n hn]
    decide
  · exact hl n hn

/-- **The sender of a packet with one transfer** is heard in the transfer that is found. -/
theorem hear_eq_set {s : State} {peer i : ℕ} {ts : List Transfer} {l : List ℕ} {t : Transfer}
    (hsole : s.Sole ts peer) (hi : ts[i]? = some t) (hid : s.peerId t.peer = s.peerId peer)
    (hlen : l.length = ts.length) : Watch.hear s peer ts l = l.set i 0 := by
  refine List.ext_getElem? fun j => ?_
  rw [Watch.hear, List.getElem?_zipWith]
  by_cases hj : j < ts.length
  · have hjl : j < l.length := hlen ▸ hj
    rw [List.getElem?_eq_getElem hj, List.getElem?_eq_getElem hjl]
    dsimp only
    by_cases hij : i = j
    · subst hij
      rw [List.getElem?_set_self hjl, if_pos]
      rw [List.getElem?_eq_getElem hj] at hi
      rw [Option.some.inj hi, hid]
    · rw [List.getElem?_set_ne hij, List.getElem?_eq_getElem hjl, if_neg]
      exact fun hother => hij (hsole i j t _ hi (List.getElem?_eq_getElem hj) hid hother)
  · have hset : (l.set i 0)[j]? = none := by
      rw [List.getElem?_eq_none_iff, List.length_set]
      omega
    rw [List.getElem?_eq_none (Nat.le_of_not_lt hj), hset]

/-! ### How long peers are silent -/

/-- No transfer has more timeouts than the handler had since its peer was heard. -/
def Bounded (l : List ((ℕ × ℕ) × ℕ)) (quiet : ℕ → ℕ) : Prop := ∀ n ∈ l, n.2 ≤ quiet n.1.1

namespace Bounded

variable {l l' : List ((ℕ × ℕ) × ℕ)} {quiet quiet' : ℕ → ℕ}

theorem mono (h : Bounded l quiet) (hquiet : ∀ p, quiet p ≤ quiet' p) : Bounded l quiet' :=
  fun n hn => (h n hn).trans (hquiet n.1.1)

theorem insertNew {new : List ((ℕ × ℕ) × ℕ)} (h : Bounded l quiet) (heq : l' = new ++ l)
    (hnew : ∀ n ∈ new, n.2 = 0) : Bounded l' quiet := by
  intro n hn
  rw [heq] at hn
  rcases List.mem_append.1 hn with hn | hn
  · rw [hnew n hn]
    exact Nat.zero_le _
  · exact h n hn

theorem eraseIdx (h : Bounded l quiet) (i : ℕ) : Bounded (l.eraseIdx i) quiet :=
  fun n hn => h n (List.mem_of_mem_eraseIdx hn)

/-- The handler runs once more. -/
theorem settle (h : Bounded l quiet) (vs : List Verdict) :
    Bounded (settle bumpNode l vs) fun p => quiet p + 1 := by
  induction vs generalizing l with
  | nil =>
      rw [settle_nil]
      exact h.mono fun p => Nat.le_succ _
  | cons v vs ih =>
      cases l with
      | nil => exact fun n hn => absurd hn List.not_mem_nil
      | cons a l =>
          obtain ⟨ha, hl⟩ := List.forall_mem_cons.1 h
          cases v with
          | quiet => exact List.forall_mem_cons.2 ⟨ha.trans (Nat.le_succ _), ih hl⟩
          | counted => exact List.forall_mem_cons.2 ⟨Nat.succ_le_succ ha, ih hl⟩
          | dead => exact ih hl

/-- A packet from a peer that has no transfer in the list. -/
theorem hearNone {s : State} {peer : ℕ} {ts : List Transfer}
    (hnone : ∀ t ∈ ts, s.peerId t.peer ≠ s.peerId peer) (h : Bounded (ts.map Transfer.node) quiet) :
    Bounded (ts.map Transfer.node) (Watch.hearPeer s peer quiet) := by
  intro n hn
  obtain ⟨t, ht, rfl⟩ := List.mem_map.1 hn
  exact (h t.node hn).trans_eq (if_neg (hnone t ht)).symm

/-- A packet from a peer with one transfer says nothing of the others. -/
theorem hearOther {s : State} {peer i j : ℕ} {ts : List Transfer} {t : Transfer}
    {n : (ℕ × ℕ) × ℕ} (hsole : s.Sole ts peer) (hi : ts[i]? = some t)
    (hid : s.peerId t.peer = s.peerId peer) (h : Bounded (ts.map Transfer.node) quiet)
    (hij : j ≠ i) (hj : (ts.map Transfer.node)[j]? = some n) :
    n.2 ≤ Watch.hearPeer s peer quiet n.1.1 := by
  have hn := h n (List.mem_of_getElem? hj)
  rw [List.getElem?_map] at hj
  obtain ⟨u, hu, rfl⟩ := Option.map_eq_some_iff.1 hj
  exact hn.trans_eq (if_neg fun hother => hij (hsole j i u t hu hi hother hid)).symm

/-- The transfer is over. -/
theorem hearErase {s : State} {peer i : ℕ} {ts : List Transfer} {t : Transfer}
    (hsole : s.Sole ts peer) (hi : ts[i]? = some t) (hid : s.peerId t.peer = s.peerId peer)
    (h : Bounded (ts.map Transfer.node) quiet) :
    Bounded ((ts.map Transfer.node).eraseIdx i) (Watch.hearPeer s peer quiet) := by
  intro n hn
  obtain ⟨j, hij, hj⟩ := List.mem_eraseIdx_iff_getElem?.1 hn
  exact hearOther hsole hi hid h hij hj

/-- Or its count is set back. -/
theorem hearSet {s : State} {peer i : ℕ} {ts : List Transfer} {t : Transfer}
    (hsole : s.Sole ts peer) (hi : ts[i]? = some t) (hid : s.peerId t.peer = s.peerId peer)
    (h : Bounded (ts.map Transfer.node) quiet) (ends : ℕ × ℕ) :
    Bounded ((ts.map Transfer.node).set i (ends, 0)) (Watch.hearPeer s peer quiet) := by
  intro n hn
  obtain ⟨j, hj⟩ := List.mem_iff_getElem?.1 hn
  by_cases hij : j = i
  · rw [hij] at hj
    obtain ⟨hlt, hget⟩ := List.getElem?_eq_some_iff.1 hj
    rw [List.getElem_set_self] at hget
    rw [← hget]
    exact Nat.zero_le _
  · rw [List.getElem?_set_ne (Ne.symm hij)] at hj
    exact hearOther hsole hi hid h hij hj

end Bounded

/-- **`get_chunk_data` puts new nodes in front.** -/
theorem inNodes_getChunkData (s : State) :
    ∃ new, (getChunkData s).inNodes = new ++ s.inNodes ∧ ∀ n ∈ new, n.2 = 0 := by
  have hone : ∀ (s : State) (q : ℕ), ∃ new, (requestChunk s q).inNodes = new ++ s.inNodes ∧
      ∀ n ∈ new, n.2 = 0 := by
    intro s q
    rw [requestChunk]
    split
    · rename_i peer _ _
      refine ⟨[((peer, q), 0)], ?_, fun n hn => ?_⟩
      · rw [inNodes_sendGET]
        rfl
      · rw [List.mem_singleton.1 hn]
    · exact ⟨[], rfl, fun _ hn => absurd hn List.not_mem_nil⟩
  rw [getChunkData]
  generalize s.missing = l
  induction l generalizing s with
  | nil => exact ⟨[], rfl, fun _ hn => absurd hn List.not_mem_nil⟩
  | cons q l ih =>
      obtain ⟨new, hnew, hzero⟩ := hone s q
      obtain ⟨new', hnew', hzero'⟩ := ih (requestChunk s q)
      refine ⟨new' ++ new, ?_, fun n hn => ?_⟩
      · rw [List.foldl_cons, hnew', hnew, List.append_assoc]
      · rcases List.mem_append.1 hn with hn | hn
        · exact hzero' n hn
        · exact hzero n hn

/-- Who was heard of late is spared. -/
theorem spares_of_settles {l l' : List ((ℕ × ℕ) × ℕ)} {found : List (Transfer × Verdict)}
    {quiet : ℕ → ℕ} (h : Settles 0 l found l') (hbounded : Bounded l quiet) :
    Spares found quiet := by
  rintro t v hmem hquiet rfl
  obtain ⟨j, hj⟩ := List.mem_iff_getElem?.1 hmem
  obtain ⟨n, hn, hends, hcount⟩ := h.found_eq hj
  have hle := hbounded n (List.mem_of_getElem? hn)
  have hpeer : n.1.1 = t.peer := congrArg Prod.fst hends
  have hlimit := hcount rfl
  rw [hpeer] at hle
  omega

/-- A node that a handler finds dead has a count one below the limit. -/
theorem silent_of_settles {ts : List Transfer} {found : List (Transfer × Verdict)}
    {l' : List ((ℕ × ℕ) × ℕ)} (h : Settles 0 (ts.map Transfer.node) found l') :
    Silent ts found (counts (ts.map Transfer.node)) := by
  intro j t hj
  obtain ⟨n, hn, hends, hcount⟩ := h.found_eq hj
  rw [Nat.zero_add] at hn
  have hmap := hn
  rw [List.getElem?_map] at hmap
  obtain ⟨u, hu, rfl⟩ := Option.map_eq_some_iff.1 hmap
  refine ⟨u, u.cctrl.timeoutCount, hu, hends, ?_, hcount rfl⟩
  rw [counts, List.getElem?_map, hn]
  rfl

/-! ### The server -/

/-- A `GET` puts a new node in front at most. -/
theorem outNodes_receiveGET (s : State) (pack : Packet) (peer : ℕ) :
    ∃ new, (receiveGET s pack peer).outNodes = new ++ s.outNodes ∧ ∀ n ∈ new, n.2 = 0 := by
  rcases receiveGET_cases s pack peer with
    ⟨-, heq⟩ | ⟨-, -, heq⟩ | ⟨-, -, -, heq⟩ | ⟨-, -, q, -, -, heq⟩
  · exact ⟨[], by rw [heq]; rfl, fun _ hn => absurd hn List.not_mem_nil⟩
  · exact ⟨[], by rw [heq]; rfl, fun _ hn => absurd hn List.not_mem_nil⟩
  · exact ⟨[], by rw [heq]; rfl, fun _ hn => absurd hn List.not_mem_nil⟩
  · refine ⟨[(s.served peer q).1.node], by rw [heq]; rfl, fun n hn => ?_⟩
    rw [List.mem_singleton.1 hn, State.served, sendDATA_eq]
    rfl

/-- **An acknowledgement sets the count back** of the transfer that is found, or ends it. -/
theorem outNodes_receiveACK {s : State} {peer i : ℕ} {t : Transfer}
    (hfind : s.findOutgoing peer = some (i, t)) (pack : Packet) :
    (receiveACK s pack peer).outNodes =
      if pack.ackNum.toNat = maxSeqNum then s.outNodes.eraseIdx i
      else s.outNodes.set i (t.ends, 0) := by
  rw [receiveACK, hfind]
  dsimp only
  cases hack : ackTransfer s.clock (s.chunks.cell t.c) t pack.ackNum.toNat with
  | none =>
      rw [ackTransfer] at hack
      split_ifs at hack with hlast
      rw [if_pos hlast]
      exact outNodes_deleteOutgoing s i
  | some sent =>
      obtain ⟨t', packs⟩ := sent
      have hsame := ackTransfer_same hack
      rw [ackTransfer] at hack
      split_ifs at hack with hlast
      have hzero : t'.cctrl.timeoutCount = 0 := by
        rw [← (Prod.mk.inj (Option.some.inj hack)).1]
      have hnode : t'.node = (t.ends, 0) :=
        Prod.ext (Prod.ext hsame.1 hsame.2.1) hzero
      rw [if_neg hlast, ← hnode]
      exact List.map_set ..

/-- **No count of the server reaches the limit.** -/
theorem alive_step {shahash : List UInt8 → BinHash} {s s' : State} {e : Event}
    (h : Alive s.outNodes) (he : step shahash s e = .ok s') : Alive s'.outNodes := by
  have hkept : ∀ {s' : State}, ServerKept s s' → Alive s'.outNodes := by
    intro s' hk
    rw [State.outNodes, hk.outgoing]
    exact h
  cases handled_of_step he with
  | userGet chunkFile outputFile lines => exact hkept (.processGet s chunkFile outputFile lines)
  | serverTimeout => exact (settles_serverTimeoutLoop s.outgoing.length 0 h).alive h
  | clientTimeout => exact hkept (.handleClientTimeout s)
  | stranger src pack hp => exact h
  | whohas src pack peer s' hp ht hr =>
      rw [receiveWHOHAS_eq] at hr
      split_ifs at hr
      cases hr
      exact h
  | ihave src pack peer hp ht => exact hkept (.receiveIHAVE s pack peer)
  | get src pack peer hp ht =>
      obtain ⟨new, hnew, hzero⟩ := outNodes_receiveGET s pack peer
      exact h.insertNew hnew hzero
  | data src pack peer s' hp ht hr => exact hkept (.receiveDATA hr)
  | ack src pack peer hp ht =>
      cases hfind : s.findOutgoing peer with
      | none =>
          rw [receiveACK, hfind]
          exact h
      | some node =>
          intro n hn
          rw [outNodes_receiveACK hfind] at hn
          split_ifs at hn
          · exact h n (List.mem_of_mem_eraseIdx hn)
          · rcases List.mem_or_eq_of_mem_set hn with hn | rfl
            · exact h n hn
            · exact Nat.zero_lt_succ 4
  | denied src pack peer hp ht => exact hkept (.receiveDENIED s peer)

/-- The watch of the server is right. -/
structure OutWatched (s : State) (w : Watch) : Prop where
  alive : Alive s.outNodes
  counts : w.outgoing = counts s.outNodes
  quiet : Bounded s.outNodes w.serverQuiet

namespace OutWatched

variable {shahash : List UInt8 → BinHash} {s s' : State} {w w' : Watch}

theorem length_eq (h : OutWatched s w) : w.outgoing.length = s.outgoing.length := by
  rw [h.counts, P2P.counts, State.outNodes, List.length_map, List.length_map]

/-- A handler of the client. -/
theorem of_serverKept (h : OutWatched s w) (hk : ServerKept s s')
    (hw : w'.outgoing = w.outgoing) (hquiet : w'.serverQuiet = w.serverQuiet) :
    OutWatched s' w' := by
  have hsame : s'.outNodes = s.outNodes := by
    rw [State.outNodes, hk.outgoing]
    rfl
  exact ⟨hsame ▸ h.alive, by rw [hw, hsame, h.counts], by rw [hquiet, hsame]; exact h.quiet⟩

theorem serverTimeout (h : OutWatched s w) (hw : w'.outgoing = Watch.onServerTimeout s w.outgoing)
    (hquiet : w'.serverQuiet = fun p => w.serverQuiet p + 1) :
    OutWatched (handleServerTimeout s) w' := by
  have hsettles := settles_serverTimeoutLoop s.outgoing.length 0 h.alive
  have hnodes : (handleServerTimeout s).outNodes =
      settle bumpNode s.outNodes (s.serverFindings.map Prod.snd) := hsettles.eq
  refine ⟨hsettles.alive h.alive, ?_, ?_⟩
  · rw [hw, Watch.onServerTimeout, h.counts, hnodes, counts_settle]
  · rw [hquiet, hnodes]
    exact h.quiet.settle _

/-- A transfer is opened at most. -/
theorem receiveGET (h : OutWatched s w) (pack : Packet) (peer : ℕ)
    (hw : w'.outgoing = insertNew (receiveGET s pack peer).outgoing.length w.outgoing)
    (hquiet : w'.serverQuiet = w.serverQuiet) : OutWatched (receiveGET s pack peer) w' := by
  obtain ⟨new, hnew, hzero⟩ := outNodes_receiveGET s pack peer
  have hlen : (P2P.receiveGET s pack peer).outgoing.length =
      (P2P.receiveGET s pack peer).outNodes.length := (List.length_map ..).symm
  refine ⟨h.alive.insertNew hnew hzero, ?_, ?_⟩
  · rw [hw, h.counts, ← counts_insertNew hnew hzero, hlen]
  · rw [hquiet]
    exact h.quiet.insertNew hnew hzero

/-- **An acknowledgement from a peer with one transfer** sets the count back. -/
theorem receiveACK (h : OutWatched s w) {pack : Packet} {peer : ℕ} (hsole : s.Sole s.outgoing peer)
    (halive : Alive (receiveACK s pack peer).outNodes)
    (hw : w'.outgoing = Watch.onAck s pack peer w.outgoing)
    (hquiet : w'.serverQuiet = Watch.hearPeer s peer w.serverQuiet) :
    OutWatched (receiveACK s pack peer) w' := by
  rw [Watch.onAck] at hw
  cases hfind : s.findOutgoing peer with
  | none =>
      have hnodes : (P2P.receiveACK s pack peer).outNodes = s.outNodes := by
        rw [P2P.receiveACK, hfind]
      rw [hfind] at hw
      refine ⟨halive, by rw [hnodes, hw, h.counts], ?_⟩
      rw [hnodes, hquiet]
      refine h.quiet.hearNone fun t ht hid => ?_
      have hfalse := nodeFind_eq_none_iff.1 hfind t ht
      rw [State.compareTransferByPeerId_iff.2 hid] at hfalse
      cases hfalse
  | some node =>
      obtain ⟨i, t⟩ := node
      obtain ⟨hi, hid⟩ := State.findOutgoing_getElem? hfind
      have hnodes := outNodes_receiveACK hfind pack
      rw [hfind] at hw
      dsimp only at hw
      rw [hear_eq_set hsole hi hid h.length_eq, h.counts] at hw
      split_ifs at hw hnodes with hlast
      · refine ⟨halive, ?_, ?_⟩
        · rw [hw, hnodes, counts_eraseIdx, List.eraseIdx_set_eq]
        · rw [hnodes, hquiet]
          exact h.quiet.hearErase hsole hi hid
      · refine ⟨halive, ?_, ?_⟩
        · rw [hw, hnodes, counts_set]
        · rw [hnodes, hquiet]
          exact h.quiet.hearSet hsole hi hid t.ends

/-- **Every step whose event is unambiguous keeps the watch of the server right.** -/
theorem next (h : OutWatched s w) {e : Event} (hclear : e.Unambiguous s)
    (he : step shahash s e = .ok s') : OutWatched s' (w.next s e s') := by
  have halive := alive_step h.alive he
  cases handled_of_step he with
  | userGet chunkFile outputFile lines =>
      exact h.of_serverKept (.processGet s chunkFile outputFile lines) rfl rfl
  | serverTimeout => exact h.serverTimeout rfl rfl
  | clientTimeout => exact h.of_serverKept (.handleClientTimeout s) rfl rfl
  | stranger src pack hp =>
      exact h.of_serverKept (.refl s) (by simp only [Watch.next, hp])
        (by simp only [Watch.next, hp])
  | whohas src pack peer s' hp ht hr =>
      rw [receiveWHOHAS_eq] at hr
      split_ifs at hr
      cases hr
      exact h.of_serverKept ⟨rfl, rfl⟩ (by simp only [Watch.next, hp, ht])
        (by simp only [Watch.next, hp, ht])
  | ihave src pack peer hp ht =>
      exact h.of_serverKept (.receiveIHAVE s pack peer) (by simp only [Watch.next, hp, ht])
        (by simp only [Watch.next, hp, ht])
  | get src pack peer hp ht =>
      exact h.receiveGET pack peer (by simp only [Watch.next, hp, ht])
        (by simp only [Watch.next, hp, ht])
  | data src pack peer s' hp ht hr =>
      exact h.of_serverKept (.receiveDATA hr) (by simp only [Watch.next, hp, ht])
        (by simp only [Watch.next, hp, ht])
  | ack src pack peer hp ht =>
      exact h.receiveACK (hclear peer hp ht) halive (by simp only [Watch.next, hp, ht])
        (by simp only [Watch.next, hp, ht])
  | denied src pack peer hp ht =>
      exact h.of_serverKept (.receiveDENIED s peer) (by simp only [Watch.next, hp, ht])
        (by simp only [Watch.next, hp, ht])

/-- **Who is declared dead was silent**, and nobody that was heard of late is. -/
theorem silent (h : OutWatched s w) :
    Silent s.outgoing s.serverFindings w.outgoing ∧ Spares s.serverFindings w.serverQuiet := by
  have hsettles := settles_serverTimeoutLoop s.outgoing.length 0 h.alive
  refine ⟨?_, spares_of_settles hsettles h.quiet⟩
  rw [h.counts]
  exact silent_of_settles hsettles

end OutWatched

/-! ### The client -/

theorem inNodes_sendWHOHAS (s : State) : (sendWHOHAS s).inNodes = s.inNodes := by
  rw [sendWHOHAS_eq]
  rfl

theorem inNodes_processGet (s : State) (chunkFile outputFile : String) (lines : List ChunkLine) :
    (processGet s chunkFile outputFile lines).inNodes = s.inNodes := by
  have hcheck : ∀ s : State, (checkAllReceived s).inNodes = s.inNodes := by
    intro s
    rw [State.inNodes, (checkAllReceived_same s).2]
    rfl
  rw [processGet, inNodes_sendWHOHAS, createWantedMissingList, hcheck, State.inNodes,
    (wantLines_transfers lines _).1]
  rfl

theorem inNodes_offered (s : State) (pack : Packet) (peer : ℕ) :
    (s.offered pack peer).inNodes = s.inNodes := by
  refine inNodes_foldl (fun s hash => inNodes_foldl (fun s q => ?_) s.missing s) _ s
  rw [offerPeer]
  split <;> rfl

theorem inNodes_finishChunk (shahash : List UInt8 → BinHash) (s : State) (q : ℕ) :
    (finishChunk shahash s q).inNodes = s.inNodes := by
  obtain ⟨-, heq⟩ | ⟨-, -, heq⟩ | ⟨-, i, r, -, -, -, heq⟩ := finishChunk_cases shahash s q
  · rw [heq]
    rfl
  · rw [heq, State.inNodes, (checkAllReceived_same s).2]
    rfl
  · rw [heq, State.inNodes, (checkAllReceived_same _).2]
    rfl

/-- The watch of the client is right. -/
structure InWatched (s : State) (w : Watch) : Prop where
  alive : Alive s.inNodes
  counts : w.incoming = counts s.inNodes
  quiet : Bounded s.inNodes w.clientQuiet

namespace InWatched

variable {shahash : List UInt8 → BinHash} {s s' : State} {w w' : Watch}

theorem length_eq (h : InWatched s w) : w.incoming.length = s.incoming.length := by
  rw [h.counts, P2P.counts, State.inNodes, List.length_map, List.length_map]

theorem of_nodes (h : InWatched s w) (hs : s'.inNodes = s.inNodes)
    (hw : w'.incoming = w.incoming) (hquiet : w'.clientQuiet = w.clientQuiet) : InWatched s' w' :=
  ⟨hs ▸ h.alive, by rw [hw, hs, h.counts], by rw [hquiet, hs]; exact h.quiet⟩

/-- A handler of the server. -/
theorem of_clientKept (h : InWatched s w) (hk : ClientKept s s')
    (hw : w'.incoming = w.incoming) (hquiet : w'.clientQuiet = w.clientQuiet) : InWatched s' w' :=
  h.of_nodes (congrArg (List.map Transfer.node) hk.incoming) hw hquiet

/-- Transfers are opened. -/
theorem opened (h : InWatched s w) (hs : s'.inNodes = (getChunkData s).inNodes)
    (hw : w'.incoming = insertNew s'.incoming.length w.incoming)
    (hquiet : w'.clientQuiet = w.clientQuiet) : InWatched s' w' := by
  obtain ⟨new, hnew, hzero⟩ := inNodes_getChunkData s
  rw [← hs] at hnew
  have hlen : s'.incoming.length = s'.inNodes.length := (List.length_map ..).symm
  refine ⟨h.alive.insertNew hnew hzero, ?_, ?_⟩
  · rw [hw, h.counts, ← counts_insertNew hnew hzero, hlen]
  · rw [hquiet]
    exact h.quiet.insertNew hnew hzero

theorem clientTimeout (h : InWatched s w)
    (hw : w'.incoming = Watch.onClientTimeout s (handleClientTimeout s) w.incoming)
    (hquiet : w'.clientQuiet = fun p => w.clientQuiet p + 1) :
    InWatched (handleClientTimeout s) w' := by
  have hsettles := settles_clientTimeoutLoop s.incoming.length 0 h.alive
  rw [Watch.onClientTimeout, State.clientFindings] at hw
  rw [handleClientTimeout] at hw ⊢
  split_ifs at hw ⊢ with hmiss
  · rw [List.map_nil, settle_nil, ← h.length_eq, insertNew_length] at hw
    refine ⟨h.alive, hw.trans h.counts, ?_⟩
    rw [hquiet]
    exact h.quiet.mono fun p => Nat.le_succ _
  · have hnodes : (clientTimeoutLoop s.incoming.length 0 s).inNodes =
        settle bumpNode s.inNodes ((clientFindings s.incoming.length 0 s).map Prod.snd) :=
      hsettles.eq
    have hloop : InWatched (clientTimeoutLoop s.incoming.length 0 s) { w with
        incoming := settle (· + 1) w.incoming
          ((clientFindings s.incoming.length 0 s).map Prod.snd)
        clientQuiet := fun p => w.clientQuiet p + 1 } := by
      refine ⟨hsettles.alive h.alive, ?_, ?_⟩
      · dsimp only
        rw [h.counts, hnodes, counts_settle]
      · rw [hnodes]
        exact h.quiet.settle _
    refine hloop.opened ?_ hw hquiet
    dsimp only
    split
    · exact inNodes_sendWHOHAS _
    · rfl

/-- **A piece sets nothing back**: the watch is right only if nothing was counted. -/
theorem receiveDATA (h : InWatched s w) {pack : Packet} {peer : ℕ}
    (hsole : s.Sole s.incoming peer)
    (hpunctual : ∀ i t, s.findIncoming peer = some (i, t) → s.Completes pack t = false →
      t.cctrl.timeoutCount = 0)
    (hr : receiveDATA shahash s pack peer = .ok s')
    (hw : w'.incoming = Watch.onData s pack peer s' w.incoming)
    (hquiet : w'.clientQuiet = Watch.hearPeer s peer w.clientQuiet) : InWatched s' w' := by
  rw [Watch.onData] at hw
  obtain ⟨hnone, rfl⟩ | ⟨i, t, c, hfind, hstore, s₁, rfl, hend⟩ := receiveDATA_cases hr
  · rw [hnone] at hw
    refine ⟨h.alive, hw.trans h.counts, ?_⟩
    rw [hquiet]
    refine h.quiet.hearNone fun t ht hid => ?_
    have hfalse := nodeFind_eq_none_iff.1 hnone t ht
    rw [State.compareTransferByPeerId_iff.2 hid] at hfalse
    cases hfalse
  · obtain ⟨hi, hcompare, -⟩ := nodeFind_eq_some_iff.1 hfind
    have hid := State.compareTransferByPeerId_iff.1 hcompare
    rw [hfind] at hw
    dsimp only at hw
    rw [hear_eq_set hsole hi hid h.length_eq, h.counts] at hw
    have hcompletes : s.Completes pack t = chunkBitsAllReceived c := by
      rw [State.Completes, hstore]
    have hnodes : (s.validating t.c c peer).inNodes = s.inNodes := inNodes_sendACK _ _ _
    rcases hend with ⟨hnot, rfl⟩ | ⟨hall, rfl⟩
    · rw [if_neg (by rw [hcompletes, hnot]; exact Bool.false_ne_true)] at hw
      -- the count is zero without being set back
      have hzero : s.inNodes.set i (t.ends, 0) = s.inNodes := by
        have hnode : s.inNodes[i]? = some (t.ends, 0) := by
          rw [State.inNodes, List.getElem?_map, hi]
          exact congrArg (fun n => some (t.ends, n)) (hpunctual i t hfind (hcompletes.trans hnot))
        obtain ⟨hlt, hget⟩ := List.getElem?_eq_some_iff.1 hnode
        rw [← hget]
        exact List.set_getElem_self hlt
      suffices hstate : InWatched (s.validating t.c c peer) w' from hstate
      refine ⟨hnodes ▸ h.alive, ?_, ?_⟩
      · rw [hw, hnodes, ← hzero, counts_set, List.set_set]
      · rw [hnodes, hquiet, ← hzero]
        exact h.quiet.hearSet hsole hi hid t.ends
    · rw [if_pos (by rw [hcompletes, hall]), List.eraseIdx_set_eq] at hw
      have hover : ((finishChunk shahash (s.validating t.c c peer) t.c).deleteIncoming i).inNodes =
          s.inNodes.eraseIdx i := by
        rw [inNodes_deleteIncoming, inNodes_finishChunk, hnodes]
      have hdeleted : InWatched
          ((finishChunk shahash (s.validating t.c c peer) t.c).deleteIncoming i)
          { w with
            incoming := (P2P.counts s.inNodes).eraseIdx i
            clientQuiet := Watch.hearPeer s peer w.clientQuiet } := by
        refine ⟨?_, ?_, ?_⟩
        · rw [hover]
          exact fun n hn => h.alive n (List.mem_of_mem_eraseIdx hn)
        · rw [hover, counts_eraseIdx]
        · rw [hover]
          exact h.quiet.hearErase hsole hi hid
      exact hdeleted.opened rfl hw hquiet

/-- A denial. -/
theorem receiveDENIED (h : InWatched s w) {peer : ℕ}
    (hw : w'.incoming = Watch.onDenied s peer w.incoming)
    (hquiet : w'.clientQuiet = w.clientQuiet) : InWatched (receiveDENIED s peer) w' := by
  rw [Watch.onDenied] at hw
  rw [P2P.receiveDENIED]
  cases hfind : s.findIncoming peer with
  | none =>
      rw [hfind] at hw
      exact h.of_nodes rfl hw hquiet
  | some node =>
      rw [hfind] at hw
      refine ⟨?_, ?_, ?_⟩
      · rw [inNodes_deleteIncoming]
        exact fun n hn => h.alive n (List.mem_of_mem_eraseIdx hn)
      · rw [hw, h.counts, inNodes_deleteIncoming, counts_eraseIdx]
      · rw [hquiet, inNodes_deleteIncoming]
        exact h.quiet.eraseIdx _

/-- **Every step whose event is punctual keeps the watch of the client right.** -/
theorem next (h : InWatched s w) {e : Event} (hpunctual : e.Punctual s)
    (he : step shahash s e = .ok s') : InWatched s' (w.next s e s') := by
  cases handled_of_step he with
  | userGet chunkFile outputFile lines =>
      exact h.of_nodes (inNodes_processGet s chunkFile outputFile lines) rfl rfl
  | serverTimeout => exact h.of_clientKept (.handleServerTimeout s) rfl rfl
  | clientTimeout => exact h.clientTimeout rfl rfl
  | stranger src pack hp =>
      exact h.of_nodes rfl (by simp only [Watch.next, hp]) (by simp only [Watch.next, hp])
  | whohas src pack peer s' hp ht hr =>
      exact h.of_clientKept (.receiveWHOHAS hr) (by simp only [Watch.next, hp, ht])
        (by simp only [Watch.next, hp, ht])
  | ihave src pack peer hp ht =>
      have hoffer : InWatched (s.offered pack peer) w :=
        h.of_nodes (inNodes_offered s pack peer) rfl rfl
      rw [receiveIHAVE_eq]
      exact hoffer.opened rfl (by simp only [Watch.next, hp, ht])
        (by simp only [Watch.next, hp, ht])
  | get src pack peer hp ht =>
      exact h.of_clientKept (.receiveGET s pack peer) (by simp only [Watch.next, hp, ht])
        (by simp only [Watch.next, hp, ht])
  | data src pack peer s' hp ht hr =>
      obtain ⟨hsole, hcount⟩ := hpunctual peer hp ht
      exact h.receiveDATA hsole hcount hr (by simp only [Watch.next, hp, ht])
        (by simp only [Watch.next, hp, ht])
  | ack src pack peer hp ht =>
      exact h.of_clientKept (.receiveACK s pack peer) (by simp only [Watch.next, hp, ht])
        (by simp only [Watch.next, hp, ht])
  | denied src pack peer hp ht =>
      exact h.receiveDENIED (by simp only [Watch.next, hp, ht]) (by simp only [Watch.next, hp, ht])

/-- **Who is declared dead was silent**, and nobody that was heard of late is. -/
theorem silent (h : InWatched s w) :
    Silent s.incoming s.clientFindings w.incoming ∧ Spares s.clientFindings w.clientQuiet := by
  rw [h.counts, State.clientFindings]
  split
  · refine ⟨fun j t hj => ?_, fun _ _ hmem => absurd hmem List.not_mem_nil⟩
    rw [List.getElem?_nil] at hj
    cases hj
  · have hsettles := settles_clientTimeoutLoop s.incoming.length 0 h.alive
    exact ⟨silent_of_settles hsettles, spares_of_settles hsettles h.quiet⟩

/-- **What the handler leaves**, behind the transfers that it opens. -/
theorem left (h : InWatched s w) : ∃ new, (handleClientTimeout s).inNodes =
    new ++ settle bumpNode s.inNodes (s.clientFindings.map Prod.snd) := by
  rw [handleClientTimeout, State.clientFindings]
  split_ifs with hmiss
  · exact ⟨[], by rw [List.map_nil, settle_nil, List.nil_append]⟩
  · obtain ⟨new, hnew, -⟩ := inNodes_getChunkData (clientTimeoutLoop s.incoming.length 0 s)
    refine ⟨new, ?_⟩
    rw [(settles_clientTimeoutLoop s.incoming.length 0 h.alive).eq] at hnew
    dsimp only
    split
    · rw [inNodes_sendWHOHAS, hnew]
      rfl
    · exact hnew

end InWatched

/-! ### Runs -/

/-- **The watch is right in every state of a run**, if the events were clear. -/
theorem watched_of_run {shahash : List UInt8 → BinHash} {setup : Setup} {clock : ℕ → ℕ}
    {junk : ℕ → Packet} {es : List Event} {s : State} {w : Watch}
    (h : Machine.run (watchedStep shahash) (peerSetup setup clock junk, .start) es = .ok (s, w)) :
    (Machine.Along (step shahash) (fun s e => e.Unambiguous s) (peerSetup setup clock junk) es →
        OutWatched s w) ∧
      (Machine.Along (step shahash) (fun s e => e.Punctual s) (peerSetup setup clock junk) es →
        InWatched s w) := by
  have hout : OutWatched (peerSetup setup clock junk) .start := ⟨nofun, rfl, nofun⟩
  have hin : InWatched (peerSetup setup clock junk) .start := ⟨nofun, rfl, nofun⟩
  rw [watchedStep] at h
  refine ⟨fun hal => ?_, fun hal => ?_⟩
  · refine Machine.run_invariant_along (P := fun sw => OutWatched sw.1 sw.2) ?_ hout
      (Machine.along_withHistory hal .start) h
    rintro ⟨t, v⟩ e ⟨u, v'⟩ hwatched hclear he
    obtain ⟨ht, rfl⟩ := Machine.withHistory_ok he
    exact hwatched.next hclear ht
  · refine Machine.run_invariant_along (P := fun sw => InWatched sw.1 sw.2) ?_ hin
      (Machine.along_withHistory hal .start) h
    rintro ⟨t, v⟩ e ⟨u, v'⟩ hwatched hpunctual he
    obtain ⟨ht, rfl⟩ := Machine.withHistory_ok he
    exact hwatched.next hpunctual ht

/-- **Who is declared dead was silent, and who keeps sending is not.**  In every run, with the watch
beside it: where every acknowledgement came from a peer with one transfer at most, a transfer that
`handle_server_timeout` would remove now has had none from its peer while the last timeouts were
counted, and none is removed whose peer acknowledged anything since the handler ran the last few
times.  Where every piece came from a peer with one transfer at most and found no timeout counted,
the same holds of `handle_client_timeout` and pieces.  What the handlers do not find dead they
leave. -/
theorem dead_only_if_silent (shahash : List UInt8 → BinHash) (setup : Setup) (clock : ℕ → ℕ)
    (junk : ℕ → Packet) (es : List Event) (s : State)
    (h : Machine.run (step shahash) (peerSetup setup clock junk) es = .ok s) :
    ∃ w, Machine.run (watchedStep shahash) (peerSetup setup clock junk, .start) es = .ok (s, w) ∧
      (Machine.Along (step shahash) (fun s e => e.Unambiguous s) (peerSetup setup clock junk) es →
        Silent s.outgoing s.serverFindings w.outgoing ∧
        Spares s.serverFindings w.serverQuiet ∧ (handleServerTimeout s).outNodes =
          settle bumpNode s.outNodes (s.serverFindings.map Prod.snd)) ∧
      (Machine.Along (step shahash) (fun s e => e.Punctual s) (peerSetup setup clock junk) es →
        Silent s.incoming s.clientFindings w.incoming ∧
        Spares s.clientFindings w.clientQuiet ∧ ∃ new, (handleClientTimeout s).inNodes =
          new ++ settle bumpNode s.inNodes (s.clientFindings.map Prod.snd)) := by
  obtain ⟨w, hw⟩ : ∃ w, Machine.run (watchedStep shahash)
      (peerSetup setup clock junk, .start) es = .ok (s, w) :=
    Machine.exists_run_withHistory h _
  obtain ⟨hout, hin⟩ := watched_of_run hw
  refine ⟨w, hw, fun hal => ?_, fun hal => ?_⟩
  · have hwatched := hout hal
    obtain ⟨hsilent, hspares⟩ := hwatched.silent
    exact ⟨hsilent, hspares, (settles_serverTimeoutLoop s.outgoing.length 0 hwatched.alive).eq⟩
  · have hwatched := hin hal
    obtain ⟨hsilent, hspares⟩ := hwatched.silent
    exact ⟨hsilent, hspares, hwatched.left⟩

/-- The peer never answers, and four timeouts are counted. -/
def neverHeard : List Event := wantsOne ++ List.replicate 4 .clientTimeout

theorem punctual_neverHeard : Machine.Along (step fun _ => Vector.replicate binHashSize 0)
    (fun s e => e.Punctual s) (peerSetup lender (fun n => 4000 * n) fun _ => zeroPacket)
    neverHeard := by
  refine Machine.along_of_forall fun e he s => ?_
  rcases List.mem_append.1 he with he | he
  · rcases List.mem_pair.1 he with rfl | rfl
    · exact trivial
    · exact fun _ _ ht => nomatch ht
  · rw [List.eq_of_mem_replicate he]
    exact trivial

/-- The neighbour asks for a chunk, and it takes three timeouts until it acknowledges the first
piece, and three more go by. -/
def servesSlow : List Event :=
  .packet ⟨0, 2222⟩ (getPacket zeroPacket (binHashOf (Vector.replicate hexHashSize 48)) 1) ::
    .serverTimeout :: .serverTimeout :: .serverTimeout ::
    .packet ⟨0, 2222⟩ (ackPacket zeroPacket 1) :: List.replicate 3 .serverTimeout

theorem unambiguous_servesSlow : Machine.Along (step fun _ => Vector.replicate binHashSize 0)
    (fun s e => e.Unambiguous s) (peerSetup lender (fun n => 4000 * n) fun _ => zeroPacket)
    servesSlow := by
  refine Machine.along_cons rfl (fun _ _ ht => nomatch ht) ?_
  refine Machine.along_cons rfl trivial (Machine.along_cons rfl trivial
    (Machine.along_cons rfl trivial ?_))
  -- there is one transfer when the acknowledgement comes
  refine Machine.along_cons rfl (fun _ _ _ i j t u hi hj _ _ => ?_) ?_
  · have hi : i < 1 := (List.getElem?_eq_some_iff.1 hi).1
    have hj : j < 1 := (List.getElem?_eq_some_iff.1 hj).1
    omega
  · refine Machine.along_of_forall fun e he s => ?_
    rw [List.eq_of_mem_replicate he]
    exact trivial

theorem run_servesSlow : ∃ s, Machine.run (step fun _ => Vector.replicate binHashSize 0)
      (peerSetup lender (fun n => 4000 * n) fun _ => zeroPacket) servesSlow = .ok s ∧
    s.serverFindings.map Prod.snd = [.counted] := by
  have hthree : ∀ s, Machine.run (step fun _ => Vector.replicate binHashSize 0) s
      (List.replicate 3 .serverTimeout) = .ok (handleServerTimeout (handleServerTimeout
        (handleServerTimeout s))) := fun _ => rfl
  refine ⟨_, Machine.run_cons_of _ rfl (Machine.run_cons_of _ rfl (Machine.run_cons_of _ rfl
    (Machine.run_cons_of _ rfl (Machine.run_cons_of _ rfl (hthree _))))), ?_⟩
  decide +kernel

/-- A server that counts six timeouts of a peer that it hears of between them spares it; a client
that never hears of a peer declares it dead. -/
theorem dead_only_if_silent_never :
    (∃ s w, Machine.run (watchedStep fun _ => Vector.replicate binHashSize 0)
        (peerSetup lender (fun n => 4000 * n) fun _ => zeroPacket, .start) servesSlow =
          .ok (s, w) ∧
      s.serverFindings.map Prod.snd = [.counted] ∧ Spares s.serverFindings w.serverQuiet) ∧
    ∃ s w, Machine.run (watchedStep fun _ => Vector.replicate binHashSize 0)
        (peerSetup lender (fun n => 4000 * n) fun _ => zeroPacket, .start) neverHeard =
          .ok (s, w) ∧
      s.clientFindings.map Prod.snd = [.dead] ∧ Silent s.incoming s.clientFindings w.incoming := by
  constructor
  · obtain ⟨s, hs, hfound⟩ := run_servesSlow
    obtain ⟨w, hw, hserver, -⟩ := dead_only_if_silent (fun _ => Vector.replicate binHashSize 0)
      lender (fun n => 4000 * n) (fun _ => zeroPacket) servesSlow s hs
    exact ⟨s, w, hw, hfound, (hserver unambiguous_servesSlow).2.1⟩
  · obtain ⟨w, hw, -, hclient⟩ := dead_only_if_silent (fun _ => Vector.replicate binHashSize 0)
      lender (fun n => 4000 * n) (fun _ => zeroPacket) neverHeard _ rfl
    exact ⟨_, w, hw, rfl, (hclient punctual_neverHeard).1⟩

/-- The first piece of a chunk of zeros. -/
def firstPiece : Packet := dataPacket (createChunk 0 (Vector.replicate hexHashSize 49)) 0

/-- The peer is slow, and its first piece comes after four timeouts. -/
def heardLate : List Event :=
  wantsOne ++ List.replicate 4 .clientTimeout ++ [.packet ⟨0, 2222⟩ firstPiece]

/-- **A peer that was just heard is declared dead** by the next timeout: the piece left the count
as it was. -/
theorem dead_but_heard : ∃ s w,
    Machine.run (watchedStep fun _ => Vector.replicate binHashSize 0)
      (peerSetup lender (fun n => 4000 * n) fun _ => zeroPacket, .start) heardLate = .ok (s, w) ∧
    ¬ Silent s.incoming s.clientFindings w.incoming ∧
    ¬ Spares s.clientFindings w.clientQuiet := by
  obtain ⟨s, w, hrun, hcount, hquiet, hfound⟩ : ∃ s w,
      Machine.run (watchedStep fun _ => Vector.replicate binHashSize 0)
        (peerSetup lender (fun n => 4000 * n) fun _ => zeroPacket, .start) heardLate =
          .ok (s, w) ∧ w.incoming = [0] ∧ w.clientQuiet 0 = 0 ∧
      s.clientFindings.map (fun f => (f.1.peer, f.2)) = [(0, .dead)] :=
    ⟨_, _, rfl, rfl, rfl, rfl⟩
  refine ⟨s, w, hrun, ?_⟩
  obtain ⟨⟨t, v⟩, hone, heq⟩ := List.map_eq_singleton_iff.1 hfound
  obtain ⟨hpeer, rfl⟩ := Prod.mk.inj heq
  rw [hone, hcount]
  refine ⟨fun hsilent => ?_, fun hspares => ?_⟩
  · obtain ⟨u, n, -, -, hn, hmax⟩ := hsilent 0 t rfl
    cases hn
    exact absurd hmax (by decide)
  · refine hspares t .dead (List.mem_singleton_self _) ?_ rfl
    rw [show t.peer = 0 from hpeer, hquiet]
    decide

end P2P
