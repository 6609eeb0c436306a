/-
**One transfer after another**, and the two peers over any run.

When the channel delivers every datagram once and in the order in which they were sent, a client
gets one chunk after another from a server, and no packet goes astray.  Each transfer but the first
starts while the server still has the one before it: the last acknowledgement and the next request
leave together.  No piece is in flight then, and the acknowledgement arrives first.

Main definitions:

* `P2P.Net.Clears` — oldest first, and no step leads a packet astray;
* `P2P.Net.Stream`, `P2P.Net.Closing`, `P2P.Net.Asked` — a transfer, its end, and the start of the
  next one;
* `P2P.Net.Orderly` — the client has asked an idle server for a chunk, or waits for none.

Main results:

* `P2P.Net.Stream.finishes` — a transfer comes to its end;
* `P2P.Net.GoesOn.clears` — **the client gets all chunks that it waits for**, and every step is
  clean;
* `P2P.Net.isolation` — every delivery is contained, and isolated after clean steps; every step
  between two starts is clean, and so is every step of transfers in order;
* `P2P.Net.isolation_twoChunks` — two transfers from set-up.
-/

import P2PFileTransfer.ClientList
import P2PFileTransfer.GoBackN
import P2PFileTransfer.Isolation

set_option relaxedAutoImplicit false
set_option autoImplicit false

namespace P2P

/-! ### Requests of the client -/

/-- **A chunk that is complete and right leaves the missing list**, when no other has its hash. -/
theorem finishChunk_own {shahash : List UInt8 → BinHash} {s : State} {q : ℕ}
    (hv : (s.chunks.cell q).Verified shahash) (hq : q ∈ s.missing)
    (hd : (s.missing.map s.binHash).Nodup) : ∃ i, s.missing[i]? = some q ∧
      finishChunk shahash s q = checkAllReceived (s.accept i q) := by
  obtain ⟨hbad, -⟩ | ⟨-, hno, -⟩ | ⟨-, i, r, hi, hr, -, heq⟩ := finishChunk_cases shahash s q
  · exact absurd hv hbad
  · exact absurd rfl (hno q hq)
  · rw [List.inj_on_of_nodup_map hd (List.mem_of_getElem? hi) hq hr] at hi
    exact ⟨i, hi, heq⟩

/-- **From one chunk to the next**, when the only transfer of the client, with the peer `p`, is
over: the client waits for nothing more and has written the file, or it requests a chunk. -/
structure Turned (p : ℕ) (s s' : State) : Prop where
  missing : s'.missing = s.missing
  haveList : s'.haveList = s.haveList
  chunks : s'.chunks = s.chunks
  findPeer : ∀ a, findPeer s' a = findPeer s a
  next : s.missing = [] ∧ (∃ o, o.IsOutput = true ∧ s'.trace = s.trace ++ [o]) ∨
    ∃ r ∈ s.missing, s'.incoming.map Transfer.ends = [(p, r)] ∧ ∃ junk, s'.trace = s.trace ++
      [.send p (getPacket junk (s.binHash r) 1) (some (s.binHash r))]

/-- Nothing is missing: the file is written. -/
theorem turned_done {s : State} (p : ℕ) (hm : s.missing = []) :
    Turned p s (getChunkData ((checkAllReceived s).deleteIncoming 0)) := by
  have hall : checkAllReceived s = { constructData s with wanted := [] } := by
    unfold checkAllReceived
    rw [if_pos hm]
  rw [hall]
  set s₁ : State := { constructData s with wanted := [] } with hs₁
  have hf := Frame.deleteIncoming s₁ 0
  have hnone : getChunkData (s₁.deleteIncoming 0) = s₁.deleteIncoming 0 := by
    rw [getChunkData, hf.missing]
    show s.missing.foldl _ _ = _
    rw [hm, List.foldl_nil]
  rw [hnone]
  exact ⟨hf.missing, hf.haveList, State.chunks_deleteIncoming s₁ 0, hf.findPeer,
    Or.inl ⟨hm, s.output, rfl, trace_deleteIncoming s₁ 0⟩⟩

/-- Something is missing: it is requested from the peer that is available again. -/
theorem turned_next {s : State} {p q r : ℕ} {l : List ℕ} (hm : s.missing = r :: l)
    (hin : s.incoming.map Transfer.ends = [(p, q)])
    (hp : ∀ r' ∈ s.missing, (s.chunks.cell r').peer = [p]) :
    Turned p s (getChunkData ((checkAllReceived s).deleteIncoming 0)) := by
  have hopen : checkAllReceived s = s := by
    unfold checkAllReceived
    rw [if_neg (by rw [hm]; exact List.cons_ne_nil r l)]
  rw [hopen]
  obtain ⟨hin₁, hav₁⟩ := incoming_deleteIncoming_zero hin
  have hf := Frame.deleteIncoming s 0
  have hchunks₁ := State.chunks_deleteIncoming s 0
  set s₁ := s.deleteIncoming 0 with hs₁
  have hmiss₁ : s₁.missing = r :: l := hf.missing.trans hm
  have hp₁ : ∀ r' ∈ s₁.missing, (s₁.chunks.cell r').peer = [p] := by
    rw [hf.missing, hchunks₁]
    exact hp
  have hnext := getChunkData_idle hin₁ hmiss₁ hp₁ hav₁
  obtain ⟨hends, hchunks, -, htrace⟩ :=
    requestChunk_idle hin₁ (hp₁ r (hmiss₁ ▸ List.mem_cons_self ..)) hav₁
  have hf' := hf.trans (moves_getChunkData trivial s₁ : Moves Kind.Any _ _).frame
  refine ⟨hf'.missing, hf'.haveList, ?_, hf'.findPeer, Or.inr ⟨r, ?_, ?_, s₁.junk 1, ?_⟩⟩
  · rw [hnext, hchunks, hchunks₁]
  · rw [hm]
    exact List.mem_cons_self ..
  · rw [hnext, hends]
  · rw [hnext, htrace, trace_deleteIncoming, hf.binHash]

/-- **The end of a transfer**: the chunk that is complete and right leaves the missing list, and the
client goes on to the next one. -/
theorem finishChunk_turned {shahash : List UInt8 → BinHash} {s : State} {p q : ℕ}
    (hv : (s.chunks.cell q).Verified shahash) (hq : q ∈ s.missing)
    (hd : (s.missing.map s.binHash).Nodup) (hin : s.incoming.map Transfer.ends = [(p, q)])
    (hp : ∀ r ∈ s.missing, r ≠ q → (s.chunks.cell r).peer = [p]) :
    ∃ i, s.missing[i]? = some q ∧ Turned p (s.accept i q)
      (getChunkData ((finishChunk shahash s q).deleteIncoming 0)) := by
  obtain ⟨i, hi, hfinish⟩ := finishChunk_own hv hq hd
  refine ⟨i, hi, ?_⟩
  rw [hfinish]
  cases hrest : (s.accept i q).missing with
  | nil => exact turned_done p hrest
  | cons r l =>
      refine turned_next hrest hin fun r' hr' => hp r' (List.mem_of_mem_eraseIdx hr') fun heq => ?_
      exact ne_of_mem_eraseIdx hd hi hr' (congrArg s.binHash heq)

/-- What the answer to a piece adds to the trace. -/
theorem Arriving.trace_sendACK {src : Chunk} {a : SockaddrIn} {p q k : ℕ} {s : State}
    (h : Arriving src a p q k s) {c : Chunk} (hc : c.binHash = src.binHash) (n : ℕ) :
    (P2P.sendACK (s.modifyChunk q fun _ => c) p n).trace = s.trace ++
      [.send p (ackPacket (s.junk 0) n) (some src.binHash)] := by
  obtain ⟨t, hfind, htc⟩ := findIncoming_of_ends (s := s.modifyChunk q fun _ => c) h.incoming
  have hbin : (s.modifyChunk q fun _ => c).binHash t.c = src.binHash := by
    rw [htc, State.binHash, State.modifyChunk, Heap.cell_modify_self, hc]
  rw [P2P.sendACK, hfind]
  dsimp only
  rw [hbin]
  rfl

/-! ### The window of the server -/

/-- The sending loop stops behind the beginning of the window. -/
theorem Tallied.lt_stop {now : ℕ} {marks : List Mark} {t : Transfer} (h : Tallied now marks t)
    (hnow : IsReading now) (hlt : t.cctrl.begin < maxSeqNum) : t.cctrl.begin < t.cctrl.stop := by
  obtain ⟨t₀, -, hlaw⟩ := h.law
  have hpos := hlaw.windSize_pos
  have hwind := h.windSize_lt hnow
  have hm := maxSeqNum_eq
  rw [CongestCtrl.stop, u32_of_lt (by omega)]
  exact lt_min hlt (by omega)

/-- The only transfer of the server is the one that is found. -/
theorem findOutgoing_single {s : State} {p : ℕ} {u : Transfer} (hout : s.outgoing = [u])
    (hpeer : u.peer = p) : s.findOutgoing p = some (0, u) := by
  rw [State.findOutgoing, hout, nodeFind, if_pos]
  rw [State.compareTransferByPeerId_iff, hpeer]

/-- **The server has one transfer**, with the peer `p` for the chunk at `r`; the window begins at
`b`, and what is before `e` was sent. -/
structure ServesOne (s : State) (p r b e : ℕ) : Prop where
  clock : SoundClock s.clock
  one : ∃ u marks, s.outgoing = [u] ∧ u.peer = p ∧ u.c = r ∧ u.cctrl.begin = b ∧
    u.cctrl.index = e ∧ Tallied (s.clock 0) marks u
  lt : b < e
  le : e ≤ maxSeqNum

/-- What the pieces add to the trace of the server. -/
def State.piecesFor (s : State) (p r i n : ℕ) : List Effect :=
  (List.range' i n).map fun m =>
    .send p (dataPacket (s.chunks.cell r) m) (some (s.binHash r))

/-- **A `GET` is served** by an idle server: what fits into the window is sent. -/
theorem receiveGET_idle {s : State} (hclock : SoundClock s.clock) (hidle : s.outgoing = [])
    (hroom : 0 < s.maxConn) {pack : Packet} (hown : s.Owns (pack.hashList 0)) (p : ℕ) :
    ∃ r ∈ s.haveList, s.binHash r = pack.hashList 0 ∧ ∃ e, ServesOne (receiveGET s pack p) p r 0 e ∧
      (receiveGET s pack p).trace = s.trace ++ s.piecesFor p r 0 e := by
  rcases receiveGET_cases s pack p with
    ⟨hnot, -⟩ | ⟨-, hfull, -⟩ | ⟨-, -, ⟨t, ht, -⟩, -⟩ | ⟨-, -, r, hr, hhash, heq⟩
  · exact absurd hown hnot
  · rw [hidle] at hfull
    exact absurd hroom (not_lt_of_ge hfull)
  · rw [hidle] at ht
    exact absurd ht List.not_mem_nil
  · have htally : Tallied (s.clock 0) ([] ++ [.sendData]) (s.served p r).1 :=
      Tallied.sendDATA ⟨_, le_rfl, inLaw_createTransfer p r (s.clock 0)⟩ _ _
    have hbegin : (s.served p r).1.cctrl.begin = 0 := sendDATA_begin _ _
    have hstop := htally.lt_stop (hclock.reading 0) (by rw [hbegin]; decide)
    have hsame : (s.served p r).1.cctrl.stop = (createTransfer p r (s.clock 0)).cctrl.stop := by
      rw [State.served, sendDATA_eq]
      rfl
    have hindex : (s.served p r).1.cctrl.index = (s.served p r).1.cctrl.stop := by
      rw [hsame, State.served, sendDATA_index]
      exact Nat.max_eq_right (Nat.zero_le _)
    refine ⟨r, hr, hhash, (s.served p r).1.cctrl.stop, ⟨?_, ?_, hbegin ▸ hstop,
      CongestCtrl.stop_le _⟩, ?_⟩
    · rw [heq]
      exact hclock.shift 1
    · refine ⟨(s.served p r).1, [] ++ [.sendData], ?_, rfl, rfl, hbegin, hindex, ?_⟩
      · rw [heq]
        show (s.served p r).1 :: s.outgoing = _
        rw [hidle]
      · rw [heq]
        exact htally.mono (hclock.mono (Nat.zero_le 1))
    · rw [heq, hsame, State.piecesFor, State.served, sendDATA_eq]
      show s.trace ++ List.map _ (List.map _ _) = _
      rw [List.map_map]
      rfl

/-- **The transfer that an acknowledgement of the next piece leaves behind**: the window begins
behind the piece, and what fits into it now is sent. -/
theorem ackTransfer_slides (clock : ℕ → ℕ) (c : Chunk) {u : Transfer} {b e : ℕ}
    (hbegin : u.cctrl.begin = b) (hindex : u.cctrl.index = e) (hb : b + 1 ≤ e)
    (hlast : b + 1 < maxSeqNum) : ∃ t' sent, ackTransfer clock c u (b + 1) = some (t', sent) ∧
      t'.cctrl.begin = b + 1 ∧ t'.cctrl.index = max e t'.cctrl.stop ∧
      sent = (List.range' e (t'.cctrl.index - e)).map (dataPacket c) := by
  have hsame := congestionControl_same clock (adjustWindow u (b + 1))
  have hwindow : ackWindow clock c u (b + 1) =
      sendDATA c (congestionControl clock (adjustWindow u (b + 1))) := by
    rw [ackWindow, if_pos (by rw [hbegin]; exact Nat.lt_succ_self b)]
  set t₁ := congestionControl clock (adjustWindow u (b + 1)) with ht₁
  have hbegin₁ : t₁.cctrl.begin = b + 1 := hsame.begin
  have hindex₁ : t₁.cctrl.index = e := by
    rw [hsame.index, index_adjustWindow, hindex, Nat.max_eq_left hb]
  have hindex' : (sendDATA c t₁).1.cctrl.index = max e t₁.cctrl.stop := by
    rw [sendDATA_index, hindex₁]
  have hstop : (sendDATA c t₁).1.cctrl.stop = t₁.cctrl.stop := by
    rw [sendDATA_eq]
    rfl
  have htransfer : ackTransfer clock c u (b + 1) = some
      ({ (sendDATA c t₁).1 with
          cctrl := { (sendDATA c t₁).1.cctrl with timeoutCount := 0 }
          timestamp := clock 2 }, (sendDATA c t₁).2) := by
    rw [ackTransfer, if_neg (Nat.ne_of_lt hlast), hwindow]
  refine ⟨_, _, htransfer, (sendDATA_begin c t₁).trans hbegin₁, ?_, ?_⟩
  · exact hindex'.trans (congrArg (max e) hstop.symm)
  · show (sendDATA c t₁).2 = (List.range' e ((sendDATA c t₁).1.cctrl.index - e)).map _
    have hcount : max e t₁.cctrl.stop - e = t₁.cctrl.stop - e := by omega
    rw [hindex', hcount, sendDATA_eq, hindex₁]

/-- **An acknowledgement slides the window**, and what fits into it now is sent. -/
theorem ServesOne.receiveACK {s : State} {p r b e : ℕ} (h : ServesOne s p r b e) {pack : Packet}
    (hack : pack.ackNum.toNat = b + 1) (hb : b + 1 ≤ e) (hlast : b + 1 < maxSeqNum) :
    ∃ e', e ≤ e' ∧ ServesOne (P2P.receiveACK s pack p) p r (b + 1) e' ∧
      (P2P.receiveACK s pack p).trace = s.trace ++ s.piecesFor p r e (e' - e) := by
  obtain ⟨u, marks, hout, hpeer, rfl, hbegin, hindex, htally⟩ := h.one
  have hfind := findOutgoing_single hout hpeer
  obtain ⟨t', sent, htransfer, hbegin', hindex', hsent⟩ :=
    ackTransfer_slides s.clock (s.chunks.cell u.c) hbegin hindex hb hlast
  obtain ⟨hp, hc, -⟩ := ackTransfer_same htransfer
  have htally' := htally.ack h.clock le_rfl htransfer
  -- the window is never empty behind its beginning
  have hlt := htally'.lt_stop (h.clock.reading 2) (by rw [hbegin']; exact hlast)
  have heq : P2P.receiveACK s pack p =
      State.sendPieces { s.tick 3 with outgoing := s.outgoing.set 0 t' } t' sent := by
    rw [P2P.receiveACK, hfind]
    dsimp only
    rw [hack, htransfer]
  refine ⟨t'.cctrl.index, hindex' ▸ le_max_left _ _, ⟨?_, ⟨t', marks ++ ackMarks u (b + 1), ?_,
    hp.trans hpeer, hc, hbegin', rfl, ?_⟩, ?_, ?_⟩, ?_⟩
  · rw [heq]
    exact h.clock.shift 3
  · rw [heq]
    show s.outgoing.set 0 t' = _
    rw [hout]
    rfl
  · rw [heq]
    exact htally'.mono (h.clock.mono (by decide))
  · rw [hindex', ← hbegin']
    exact lt_of_lt_of_le hlt (le_max_right _ _)
  · rw [hindex']
    exact max_le h.le t'.cctrl.stop_le
  · rw [heq, State.sendPieces, hsent, hp.trans hpeer, hc, State.piecesFor, List.map_map]
    rfl

/-- The last acknowledgement ends the transfer. -/
theorem ServesOne.receiveACK_last {s : State} {p r b e : ℕ} (h : ServesOne s p r b e)
    {pack : Packet} (hack : pack.ackNum.toNat = maxSeqNum) :
    (P2P.receiveACK s pack p).outgoing = [] ∧ (P2P.receiveACK s pack p).clock = s.clock ∧
      (P2P.receiveACK s pack p).trace = s.trace := by
  obtain ⟨u, marks, hout, hpeer, -⟩ := h.one
  have hfind := findOutgoing_single hout hpeer
  have hget : s.outgoing[0]? = some u := by rw [hout]; rfl
  have heq : P2P.receiveACK s pack p = s.deleteOutgoing 0 := by
    rw [P2P.receiveACK, hfind]
    dsimp only
    rw [ackTransfer, if_pos hack]
  rw [heq, State.deleteOutgoing_eq hget, hout]
  exact ⟨rfl, rfl, rfl⟩

/-- What the client is working on. -/
theorem Arriving.fetches {src : Chunk} {a : SockaddrIn} {p q k : ℕ} {s : State}
    (h : Arriving src a p q k s) : s.fetches a = some src.binHash := by
  obtain ⟨t, hfind, htc⟩ := findIncoming_of_ends h.incoming
  rw [Net.fetches_eq h.sender hfind, htc, State.binHash, h.stored.binHash]

/-- What the server is working on. -/
theorem ServesOne.serves {s : State} {p r b e : ℕ} (h : ServesOne s p r b e) {a : SockaddrIn}
    (ha : findPeer s a = some p) : s.serves a = some (s.binHash r) := by
  obtain ⟨u, marks, hout, hpeer, hc, -⟩ := h.one
  rw [Net.serves_eq ha (findOutgoing_single hout hpeer), hc]

/-! ### The channel -/

namespace Net

/-- Two peers, and what is in flight between them. -/
def both (c s : State) (flight : List Datagram) : Net where
  node
    | .client => c
    | .server => s
  flight := flight

section Deliver

variable {shahash : List UInt8 → BinHash} {addr : Side → SockaddrIn} {t : State} {d : Datagram}
  {es : List Effect}

/-- The oldest datagram arrives at the client. -/
theorem deliver_client {c : State} (s : State) (rest : List Datagram) (hd : d.dest = .client)
    (ht : P2P.step shahash c (.packet (addr .server) d.pack) = .ok t)
    (htrace : t.trace = c.trace ++ es) :
    step shahash addr (both c s (d :: rest)) (.deliver 0) =
      .ok (both t s (rest ++ arrivals .client es)) := by
  have hnode : Function.update (both c s (d :: rest)).node .client t = (both t s rest).node := by
    funext side
    cases side <;> rfl
  simp only [step, both, List.getElem?_cons_zero, List.eraseIdx_cons_zero, hd, Side.other, react,
    ht, htrace, List.drop_left]
  exact congrArg Except.ok (congrArg (Net.mk · _) hnode)

/-- The oldest datagram arrives at the server. -/
theorem deliver_server (c : State) {s : State} (rest : List Datagram) (hd : d.dest = .server)
    (ht : P2P.step shahash s (.packet (addr .client) d.pack) = .ok t)
    (htrace : t.trace = s.trace ++ es) :
    step shahash addr (both c s (d :: rest)) (.deliver 0) =
      .ok (both c t (rest ++ arrivals .server es)) := by
  have hnode : Function.update (both c s (d :: rest)).node .server t = (both c t rest).node := by
    funext side
    cases side <;> rfl
  simp only [step, both, List.getElem?_cons_zero, List.eraseIdx_cons_zero, hd, Side.other, react,
    ht, htrace, List.drop_left]
  exact congrArg Except.ok (congrArg (Net.mk · _) hnode)

end Deliver

/-- **The oldest datagram first**, a number of times, and no step leads a packet astray. -/
def Clears (shahash : List UInt8 → BinHash) (addr : Side → SockaddrIn) (n n' : Net) : Prop :=
  ∃ m, Machine.run (step shahash addr) n (List.replicate m (.deliver 0)) = .ok n' ∧
    Machine.Along (step shahash addr) (Clean shahash addr) n (List.replicate m (.deliver 0))

namespace Clears

variable {shahash : List UInt8 → BinHash} {addr : Side → SockaddrIn} {n n₁ n' : Net}

theorem refl (n : Net) : Clears shahash addr n n := ⟨0, rfl, trivial⟩

/-- A step after which nothing is astray. -/
theorem head (hstep : step shahash addr n (.deliver 0) = .ok n₁) (hn₁ : n₁.Undisturbed addr)
    (h : Clears shahash addr n₁ n') : Clears shahash addr n n' := by
  obtain ⟨m, hrun, halong⟩ := h
  refine ⟨m + 1, ?_, ?_⟩
  · rw [List.replicate_succ, Machine.run_cons_ok _ hstep, hrun]
  · rw [List.replicate_succ]
    refine Machine.along_cons hstep (fun n₂ hn₂ d hd _ => ?_) halong
    rw [hstep] at hn₂
    cases hn₂
    exact hn₁ d hd

theorem trans (h : Clears shahash addr n n₁) (h' : Clears shahash addr n₁ n') :
    Clears shahash addr n n' := by
  obtain ⟨m, hrun, halong⟩ := h
  obtain ⟨m', hrun', halong'⟩ := h'
  refine ⟨m + m', ?_, ?_⟩
  · rw [List.replicate_add, Machine.run_append _ hrun, hrun']
  · rw [List.replicate_add]
    exact Machine.along_append hrun halong halong'

end Clears

/-! ### What is in flight -/

/-- What is on its way to one side. -/
def toward (side : Side) (flight : List Datagram) : List Datagram :=
  flight.filter fun d => d.dest = side

theorem toward_cons_self {side : Side} {d : Datagram} (hd : d.dest = side) (l : List Datagram) :
    toward side (d :: l) = d :: toward side l := by
  rw [toward, List.filter_cons_of_pos (by simpa using hd)]
  rfl

theorem toward_cons_of_ne {side : Side} {d : Datagram} (hd : d.dest ≠ side) (l : List Datagram) :
    toward side (d :: l) = toward side l := by
  rw [toward, List.filter_cons_of_neg (by simpa using hd)]
  rfl

theorem toward_append (side : Side) (l l' : List Datagram) :
    toward side (l ++ l') = toward side l ++ toward side l' := List.filter_append ..

/-- Everything is on its way to the side. -/
theorem toward_eq_self {side : Side} {l : List Datagram} (h : ∀ d ∈ l, d.dest = side) :
    toward side l = l := List.filter_eq_self.2 fun d hd => by simpa using h d hd

theorem toward_eq_nil {side : Side} {l : List Datagram} (h : ∀ d ∈ l, d.dest ≠ side) :
    toward side l = [] := List.filter_eq_nil_iff.2 fun d hd => by simpa using h d hd

/-- What is not on its way to the client is on its way to the server. -/
theorem dest_eq_server {l : List Datagram} (h : toward .client l = []) :
    ∀ d ∈ l, d.dest = .server := by
  intro d hd
  cases hside : d.dest with
  | server => rfl
  | client => exact absurd (by simpa using hside) (List.filter_eq_nil_iff.1 h d hd)

/-- The pieces from `i` on, `n` of them, on their way to the client. -/
def piecesInFlight (src : Chunk) (i n : ℕ) : List Datagram :=
  (List.range' i n).map fun m => ⟨.client, dataPacket src m, some src.binHash⟩

/-- The type and the number of an acknowledgement, and what it was sent for. -/
def ackIn (d : Datagram) : PacketType × ℕ × Option BinHash :=
  (d.pack.type, d.pack.ackNum.toNat, d.about)

/-- The acknowledgements from `a` on, `n` of them. -/
def acksInFlight (h : BinHash) (a n : ℕ) : List (PacketType × ℕ × Option BinHash) :=
  (List.range' a n).map fun m => (.ack, m, some h)

/-! ### A transfer -/

section Transfers

variable (shahash : List UInt8 → BinHash) (addr : Side → SockaddrIn)

/-- The client waits for chunks that the server has and offers; it has nothing yet of those that it
is not fetching. -/
structure Supplied (c s : State) (q : ℕ) : Prop where
  wanted : q ∈ c.missing
  distinct : (c.missing.map c.binHash).Nodup
  others : ∀ r ∈ c.missing, r ≠ q → (c.chunks.cell r).peer = [1] ∧ (c.chunks.cell r).Counted ∧
    (c.chunks.cell r).received = ∅
  owned : ∀ r ∈ c.missing, s.Owns (c.binHash r)
  verified : ∀ r ∈ s.haveList, (s.chunks.cell r).Verified shahash
  sender : findPeer s (addr .client) = some 0
  room : 0 < s.maxConn

/-- **A transfer is running**: the client has the first `k` pieces, the server knows of `b` of them;
the pieces up to `e` and the acknowledgements up to `k` are in flight, in order. -/
structure Stream (c s : State) (flight : List Datagram) (q r b k e : ℕ) : Prop where
  supplied : Supplied shahash addr c s q
  server : ServesOne s 0 r b e
  own : r ∈ s.haveList
  client : Arriving (s.chunks.cell r) (addr .server) 1 q k c
  acked : b ≤ k
  sent : k ≤ e
  lt : k < maxSeqNum
  pieces : toward .client flight = piecesInFlight (s.chunks.cell r) k (e - k)
  acks : (toward .server flight).map ackIn = acksInFlight (s.binHash r) (b + 1) (k - b)

/-- **A transfer is over** for the client, and the server does not know yet: the acknowledgements
up to the last one are in flight. -/
structure Closing (s : State) (acks : List Datagram) (r b : ℕ) : Prop where
  server : ServesOne s 0 r b maxSeqNum
  sender : findPeer s (addr .client) = some 0
  dest : ∀ d ∈ acks, d.dest = .server
  acks : acks.map ackIn = acksInFlight (s.binHash r) (b + 1) (maxSeqNum - b)

/-- **The next transfer is asked for**: the client has opened it, and the request is in flight. -/
structure Asked (c s : State) (flight : List Datagram) (q : ℕ) : Prop where
  supplied : Supplied shahash addr c s q
  sender : findPeer c (addr .server) = some 1
  incoming : c.incoming.map Transfer.ends = [(1, q)]
  counted : (c.chunks.cell q).Counted
  empty : (c.chunks.cell q).received = ∅
  flight : ∃ pack about, flight = [⟨.server, pack, about⟩] ∧ pack.type = .get ∧
    pack.hashList 0 = c.binHash q

/-- **The client goes on**: it waits for nothing more, or has asked for another chunk. -/
def GoesOn (c s : State) (flight : List Datagram) : Prop :=
  c.missing = [] ∧ flight = [] ∨ ∃ q, Asked shahash addr c s flight q

end Transfers

/-- The client has got the chunk at `q`, and no longer waits for it. -/
def Got (q : ℕ) (c c' : State) : Prop :=
  c'.haveList = q :: c.haveList ∧ ∃ i, c.missing[i]? = some q ∧ c'.missing = c.missing.eraseIdx i

variable {shahash : List UInt8 → BinHash} {addr : Side → SockaddrIn} {c c' s s' : State}
  {flight : List Datagram} {q r b k e : ℕ}

/-- A server that has changed nothing but its transfers. -/
structure Steady (s s' : State) : Prop where
  chunks : s'.chunks = s.chunks
  frame : Frame s s'
  maxConn : s'.maxConn = s.maxConn

namespace Got

theorem length (h : Got q c c') : c'.missing.length + 1 = c.missing.length := by
  obtain ⟨-, i, hi, hm⟩ := h
  obtain ⟨hlt, -⟩ := List.getElem?_eq_some_iff.1 hi
  rw [hm, List.length_eraseIdx_of_lt hlt]
  omega

/-- What the client waited for is there, or it still waits for it. -/
theorem mem (h : Got q c c') {r : ℕ} (hr : r ∈ c.missing ∨ r ∈ c.haveList) :
    r ∈ c'.missing ∨ r ∈ c'.haveList := by
  obtain ⟨hhave, i, hi, hm⟩ := h
  rw [hhave, hm]
  by_cases heq : r = q
  · exact Or.inr (heq ▸ List.mem_cons_self ..)
  · exact hr.imp (fun hr => mem_eraseIdx_of_ne hi hr heq) (List.mem_cons_of_mem q)

end Got

namespace Steady

theorem receiveACK (s : State) (pack : Packet) (p : ℕ) : Steady s (P2P.receiveACK s pack p) :=
  ⟨(ClientKept.receiveACK s pack p).chunks,
    (moves_receiveACK (fun _ _ _ _ => trivial) : Moves Kind.Any s _).frame,
    maxConn_receiveACK s pack p⟩

theorem receiveGET (s : State) (pack : Packet) (p : ℕ) : Steady s (P2P.receiveGET s pack p) :=
  ⟨(ClientKept.receiveGET s pack p).chunks,
    (moves_receiveGET trivial s pack p : Moves Kind.Any s _).frame, maxConn_receiveGET s pack p⟩

theorem trans {s s' s'' : State} (h : Steady s s') (h' : Steady s' s'') : Steady s s'' :=
  ⟨h'.chunks.trans h.chunks, h.frame.trans h'.frame, h'.maxConn.trans h.maxConn⟩

end Steady

namespace Supplied

/-- The client may write the chunk that it is fetching. -/
theorem client (h : Supplied shahash addr c s q) (hm : c'.missing = c.missing)
    (hq : c'.binHash q = c.binHash q)
    (hcell : ∀ r, r ≠ q → c'.chunks.cell r = c.chunks.cell r) : Supplied shahash addr c' s q := by
  have hbin : ∀ r, c'.binHash r = c.binHash r := by
    intro r
    by_cases hr : r = q
    · rw [hr, hq]
    · rw [State.binHash, hcell r hr]
      rfl
  have hfun : c'.binHash = c.binHash := funext hbin
  refine ⟨hm ▸ h.wanted, by rw [hm, hfun]; exact h.distinct, fun r hr hne => ?_, fun r hr => ?_,
    h.verified, h.sender, h.room⟩
  · rw [hm] at hr
    rw [hcell r hne]
    exact h.others r hr hne
  · rw [hm] at hr
    rw [hbin]
    exact h.owned r hr

/-- The client goes on to another chunk, of which it has nothing. -/
theorem turn (h : Supplied shahash addr c s q) {i q' : ℕ} (hi : c.missing[i]? = some q)
    (hm : c'.missing = c.missing.eraseIdx i) (hchunks : c'.chunks = c.chunks)
    (hq' : q' ∈ c'.missing) : Supplied shahash addr c' s q' ∧ (c'.chunks.cell q').Counted ∧
      (c'.chunks.cell q').received = ∅ := by
  have hfun : c'.binHash = c.binHash := funext fun r => by rw [State.binHash, hchunks]; rfl
  have hothers : ∀ r ∈ c'.missing, (c'.chunks.cell r).peer = [1] ∧ (c'.chunks.cell r).Counted ∧
      (c'.chunks.cell r).received = ∅ := by
    intro r hr
    rw [hm] at hr
    rw [hchunks]
    exact h.others r (List.mem_of_mem_eraseIdx hr) fun heq =>
      ne_of_mem_eraseIdx h.distinct hi hr (congrArg c.binHash heq)
  refine ⟨⟨hq', ?_, fun r hr _ => hothers r hr, fun r hr => ?_, h.verified, h.sender, h.room⟩,
    (hothers q' hq').2⟩
  · rw [hm, hfun]
    exact h.distinct.sublist ((List.eraseIdx_sublist ..).map _)
  · rw [hm] at hr
    rw [hfun]
    exact h.owned r (List.mem_of_mem_eraseIdx hr)

/-- The server may change its transfers. -/
theorem server (h : Supplied shahash addr c s q) (hs : Steady s s') :
    Supplied shahash addr c s' q := by
  refine ⟨h.wanted, h.distinct, h.others, fun r hr => ?_, fun r hr => ?_, ?_, hs.maxConn ▸ h.room⟩
  · obtain ⟨x, hx, hhash⟩ := h.owned r hr
    exact ⟨x, by rw [hs.frame.haveList]; exact hx, by rw [hs.frame.binHash]; exact hhash⟩
  · rw [hs.frame.haveList] at hr
    rw [hs.chunks]
    exact h.verified r hr
  · rw [hs.frame.findPeer]
    exact h.sender

end Supplied

/-- An acknowledgement for what the server is working on. -/
theorem onCourse_ack {d : Datagram} {h : BinHash} {a n : ℕ} (hd : d.dest = .server)
    (hmem : ackIn d ∈ acksInFlight h a n) (hs : s.serves (addr .client) = some h) :
    (both c s flight).OnCourse addr d := by
  obtain ⟨m, -, heq⟩ := List.mem_map.1 hmem
  have htype : d.pack.type = .ack := (congrArg Prod.fst heq).symm
  have habout : d.about = some h := (congrArg (fun x => x.2.2) heq).symm
  right
  rw [working, htype, habout, hd]
  exact hs

/-- A request is on its course. -/
theorem onCourse_get {n : Net} {d : Datagram} (hd : d.pack.type = .get) : n.OnCourse addr d := by
  left
  rw [working, hd]

/-- **Nothing is astray while a transfer is running.** -/
theorem Stream.undisturbed (h : Stream shahash addr c s flight q r b k e) :
    (both c s flight).Undisturbed addr := by
  intro d hd
  cases hdest : d.dest with
  | client =>
      have hmem : d ∈ toward .client flight := List.mem_filter.2 ⟨hd, by simpa using hdest⟩
      rw [h.pieces] at hmem
      obtain ⟨m, -, rfl⟩ := List.mem_map.1 hmem
      exact Or.inr h.client.fetches
  | server =>
      have hmem : d ∈ toward .server flight := List.mem_filter.2 ⟨hd, by simpa using hdest⟩
      have hack := List.mem_map_of_mem (f := ackIn) hmem
      rw [h.acks] at hack
      exact onCourse_ack hdest hack (h.server.serves h.supplied.sender)

/-! ### One datagram after another -/

/-- The oldest piece is the next one. -/
theorem piecesInFlight_eq_cons {src : Chunk} {i n : ℕ} {d : Datagram} {l : List Datagram}
    (h : d :: l = piecesInFlight src i n) : ∃ m, n = m + 1 ∧
      d = ⟨.client, dataPacket src i, some src.binHash⟩ ∧ l = piecesInFlight src (i + 1) m := by
  cases n with
  | zero => cases h
  | succ m =>
      rw [piecesInFlight, List.range'_succ, List.map_cons] at h
      obtain ⟨hd, hl⟩ := List.cons.inj h
      exact ⟨m, rfl, hd, hl⟩

theorem piecesInFlight_append (src : Chunk) (i : ℕ) {m n : ℕ} (hm : i ≤ m) (hn : m ≤ n) :
    piecesInFlight src i (m - i) ++ piecesInFlight src m (n - m) =
      piecesInFlight src i (n - i) := by
  have hstart : m = i + (m - i) := by omega
  have hcount : n - i = (m - i) + (n - m) := by omega
  rw [hcount, piecesInFlight, piecesInFlight, piecesInFlight, ← List.range'_append_1,
    List.map_append, ← hstart]

/-- The oldest acknowledgement is the next one. -/
theorem map_ackIn_eq_cons {h : BinHash} {a n : ℕ} {d : Datagram} {l : List Datagram}
    (heq : (d :: l).map ackIn = acksInFlight h a n) : ∃ m, n = m + 1 ∧ d.pack.type = .ack ∧
      d.pack.ackNum.toNat = a ∧ l.map ackIn = acksInFlight h (a + 1) m := by
  cases n with
  | zero => cases heq
  | succ m =>
      rw [acksInFlight, List.range'_succ, List.map_cons, List.map_cons] at heq
      obtain ⟨hd, hl⟩ := List.cons.inj heq
      exact ⟨m, rfl, congrArg Prod.fst hd, congrArg (fun x => x.2.1) hd, hl⟩

theorem length_acksInFlight (h : BinHash) (a n : ℕ) : (acksInFlight h a n).length = n := by
  rw [acksInFlight, List.length_map, List.length_range']

theorem acksInFlight_concat (h : BinHash) (hbk : b ≤ k) :
    acksInFlight h (b + 1) (k - b) ++ [(.ack, k + 1, some h)] =
      acksInFlight h (b + 1) (k + 1 - b) := by
  have hcount : k + 1 - b = (k - b) + 1 := by omega
  have hlast : b + 1 + (k - b) = k + 1 := by omega
  rw [hcount, acksInFlight, acksInFlight, List.range'_1_concat, List.map_append, hlast]
  rfl

theorem toward_client_piecesInFlight (src : Chunk) (i n : ℕ) :
    toward .client (piecesInFlight src i n) = piecesInFlight src i n :=
  toward_eq_self fun d hd => by
    obtain ⟨m, -, rfl⟩ := List.mem_map.1 hd
    rfl

theorem toward_server_piecesInFlight (src : Chunk) (i n : ℕ) :
    toward .server (piecesInFlight src i n) = [] :=
  toward_eq_nil fun d hd => by
    obtain ⟨m, -, rfl⟩ := List.mem_map.1 hd
    exact fun heq => Side.noConfusion heq

/-- The pieces that the server sends are in flight. -/
theorem arrivals_piecesFor (s : State) (r i n : ℕ) :
    arrivals .server (s.piecesFor 0 r i n) = piecesInFlight (s.chunks.cell r) i n := by
  rw [arrivals, State.piecesFor, List.filterMap_map, piecesInFlight, ← List.filterMap_eq_map]
  rfl

/-- The answer that the client sends to the piece `k`, in flight. -/
theorem map_ackIn_ackPacket (junk : Packet) (h : BinHash) (hk : k ≤ maxSeqNum) :
    [(⟨.server, ackPacket junk k, some h⟩ : Datagram)].map ackIn = [(.ack, k, some h)] := by
  rw [List.map_singleton, ackIn, ackNum_ackPacket junk hk]
  rfl

/-- An acknowledgement from the client. -/
theorem step_ack (shahash : List UInt8 → BinHash) {a : SockaddrIn} {p : ℕ} {pack : Packet}
    (ha : findPeer s a = some p) (htype : pack.type = .ack) :
    P2P.step shahash s (.packet a pack) = .ok (receiveACK s pack p) := by
  simp only [P2P.step, ha, receivePacket, htype]

namespace Stream

variable {d : Datagram} {rest : List Datagram}

/-- Storing a piece and answering, for what the client waits for. -/
theorem answered (h : Stream shahash addr c s flight q r b k e) {c₁ : Chunk} {m : ℕ}
    (hc₁ : FirstPieces (s.chunks.cell r) m c₁) (n : ℕ) :
    Supplied shahash addr (sendACK (c.modifyChunk q fun _ => c₁) 1 n) s q := by
  refine h.supplied.client (sendACK_same _ 1 n).2.2.1 ?_ fun r hr =>
    cell_sendACK_of_ne c hr 1 n c₁
  rw [State.binHash, cell_sendACK_self, hc₁.binHash, ← h.client.stored.binHash]
  rfl

/-- **A piece arrives**, and is answered. -/
theorem piece (h : Stream shahash addr c s (d :: rest) q r b k e) (hd : d.dest = .client)
    (hk : k + 1 < maxSeqNum) : ∃ c' flight',
      step shahash addr (both c s (d :: rest)) (.deliver 0) = .ok (both c' s flight') ∧
      Stream shahash addr c' s flight' q r b (k + 1) e ∧ c'.missing = c.missing ∧
      c'.haveList = c.haveList := by
  have hpieces := h.pieces
  rw [toward_cons_self hd] at hpieces
  obtain ⟨m, hm, rfl, hrest⟩ := piecesInFlight_eq_cons hpieces
  obtain ⟨c₁, hc₁, hstep⟩ := h.client.step shahash hk
  have hf := (moves_sendACK (c.modifyChunk q fun _ => c₁) 1 (k + 1) : Moves Kind.Any _ _).frame
  have hacks := h.acks
  rw [toward_cons_of_ne fun heq => Side.noConfusion heq] at hacks
  refine ⟨_, _, deliver_client s rest hd hstep (h.client.trace_sendACK hc₁.binHash (k + 1)),
    ⟨h.answered hc₁ (k + 1), h.server, h.own, h.client.sendACK hc₁ (k + 1),
      Nat.le_succ_of_le h.acked, by omega, hk, ?_, ?_⟩, hf.missing, hf.haveList⟩
  · rw [toward_append, hrest, Nat.sub_add_eq, hm, Nat.add_sub_cancel]
    exact List.append_nil _
  · rw [toward_append, List.map_append, hacks]
    exact (congrArg _ (map_ackIn_ackPacket _ _ (by omega))).trans (acksInFlight_concat _ h.acked)

/-- **An acknowledgement arrives**, and more is sent. -/
theorem acknowledgement (h : Stream shahash addr c s (d :: rest) q r b k e)
    (hd : d.dest = .server) : ∃ s' flight' e',
      step shahash addr (both c s (d :: rest)) (.deliver 0) = .ok (both c s' flight') ∧
      Steady s s' ∧ Stream shahash addr c s' flight' q r (b + 1) k e' := by
  have hacks := h.acks
  rw [toward_cons_self hd] at hacks
  obtain ⟨m, hm, htype, hnum, hrest⟩ := map_ackIn_eq_cons hacks
  have hsent := h.sent
  have hlt := h.lt
  obtain ⟨e', he', hserves, htrace⟩ := h.server.receiveACK hnum (by omega) (by omega)
  have hstep := step_ack shahash h.supplied.sender htype
  have hs := Steady.receiveACK s d.pack 0
  have hpieces := h.pieces
  rw [toward_cons_of_ne (by rw [hd]; exact fun heq => Side.noConfusion heq)] at hpieces
  refine ⟨_, _, e', deliver_server c rest hd hstep htrace, hs,
    ⟨h.supplied.server hs, hserves, ?_, ?_, by omega, hsent.trans he', hlt, ?_, ?_⟩⟩
  · rw [hs.frame.haveList]
    exact h.own
  · rw [hs.chunks]
    exact h.client
  · rw [arrivals_piecesFor, toward_append, hpieces, hs.chunks, toward_client_piecesInFlight]
    exact piecesInFlight_append _ k hsent he'
  · rw [arrivals_piecesFor, toward_append, toward_server_piecesInFlight, List.append_nil, hrest,
      hs.frame.binHash, Nat.sub_add_eq, hm, Nat.add_sub_cancel]

/-- Behind the last piece only acknowledgements are in flight, and the answer to it is the last of
them. -/
theorem closing (h : Stream shahash addr c s (d :: rest) q r b k e) (hd : d.dest = .client)
    (hk : k + 1 = maxSeqNum) :
    d = ⟨.client, dataPacket (s.chunks.cell r) k, some (s.chunks.cell r).binHash⟩ ∧
    Closing addr s (rest ++ [⟨.server, ackPacket (c.junk 0) maxSeqNum,
      some (s.chunks.cell r).binHash⟩]) r b := by
  have hpieces := h.pieces
  rw [toward_cons_self hd] at hpieces
  obtain ⟨m, hm, rfl, hrest⟩ := piecesInFlight_eq_cons hpieces
  have hle := h.server.le
  obtain rfl : m = 0 := by omega
  obtain rfl : e = maxSeqNum := by omega
  have hdest := dest_eq_server hrest
  have hacks := h.acks
  rw [toward_cons_of_ne (fun heq => Side.noConfusion heq), toward_eq_self hdest] at hacks
  refine ⟨rfl, h.server, h.supplied.sender, fun d hd => ?_, ?_⟩
  · rcases List.mem_append.1 hd with hd | hd
    · exact hdest d hd
    · rw [List.mem_singleton.1 hd]
  · rw [List.map_append, hacks, ← hk]
    exact (congrArg _ (map_ackIn_ackPacket _ _ (by omega))).trans (acksInFlight_concat _ h.acked)

/-- **The last piece arrives**: the server does not know yet, and the client goes on to the next
chunk. -/
theorem last (h : Stream shahash addr c s (d :: rest) q r b k e) (hd : d.dest = .client)
    (hk : k + 1 = maxSeqNum) : ∃ c' acks tail,
      step shahash addr (both c s (d :: rest)) (.deliver 0) = .ok (both c' s (acks ++ tail)) ∧
      Closing addr s acks r b ∧ Got q c c' ∧ GoesOn shahash addr c' s tail := by
  obtain ⟨rfl, hclosing⟩ := h.closing hd hk
  -- the answer, and then the end of the transfer
  obtain ⟨c₀, hc₀, hstep⟩ := h.client.last shahash hk
  have hanswer := h.client.trace_sendACK hc₀.binHash maxSeqNum
  have harr := h.client.sendACK hc₀ maxSeqNum
  have hsupplied := h.answered hc₀ maxSeqNum
  have hf := (moves_sendACK (c.modifyChunk q fun _ => c₀) 1 maxSeqNum : Moves Kind.Any _ _).frame
  set c₁ := sendACK (c.modifyChunk q fun _ => c₀) 1 maxSeqNum with hc₁
  obtain ⟨i, hi, hturn⟩ := finishChunk_turned
    (harr.stored.verified (h.supplied.verified r h.own)) hsupplied.wanted hsupplied.distinct
    harr.incoming fun r hr hne => (hsupplied.others r hr hne).1
  set c' := getChunkData ((finishChunk shahash c₁ q).deleteIncoming 0) with hc'
  have hdeliver : ∀ es, c'.trace = c₁.trace ++ es →
      step shahash addr (both c s (⟨.client, dataPacket (s.chunks.cell r) k,
        some (s.chunks.cell r).binHash⟩ :: rest)) (.deliver 0) =
      .ok (both c' s ((rest ++ [⟨.server, ackPacket (c.junk 0) maxSeqNum,
        some (s.chunks.cell r).binHash⟩]) ++ arrivals .client es)) := by
    intro es hes
    rw [hanswer, List.append_assoc] at hes
    rw [deliver_client s rest rfl hstep hes, List.append_assoc]
    rfl
  have hmissing : c₁.missing = c.missing := hf.missing
  have hgot : Got q c c' := ⟨hturn.haveList.trans (congrArg (List.cons q) hf.haveList), i,
    hmissing ▸ hi, hmissing ▸ hturn.missing⟩
  rcases hturn.next with ⟨hnone, o, ho, htrace⟩ | ⟨q', hq', hends, junk, htrace⟩
  · refine ⟨c', _, [], ?_, hclosing, hgot, Or.inl ⟨hturn.missing.trans hnone, rfl⟩⟩
    rw [hdeliver [o] htrace]
    cases o with
    | output file chunkFile image chunks => rfl
    | send dest pack about => cases ho
  · obtain ⟨hsupplied', hcount, hempty⟩ :=
      hsupplied.turn hi hturn.missing hturn.chunks (hturn.missing ▸ hq')
    refine ⟨c', _, _, hdeliver _ htrace, hclosing, hgot, Or.inr ⟨q', hsupplied', ?_, hends, hcount,
      hempty, getPacket junk (c₁.binHash q') 1, some (c₁.binHash q'), rfl, rfl, ?_⟩⟩
    · exact (hturn.findPeer _).trans harr.sender
    · show c₁.binHash q' = c'.binHash q'
      rw [State.binHash, State.binHash, hturn.chunks]
      rfl

end Stream

/-! ### The end of a transfer -/

namespace Closing

variable {d : Datagram} {acks tail : List Datagram}

/-- Nothing is astray while a transfer ends, and the next one is requested. -/
theorem undisturbed (h : Closing addr s acks r b) (htail : ∀ d ∈ tail, d.pack.type = .get) :
    (both c s (acks ++ tail)).Undisturbed addr := by
  intro d hd
  rcases List.mem_append.1 hd with hd | hd
  · have hack := List.mem_map_of_mem (f := ackIn) hd
    rw [h.acks] at hack
    exact onCourse_ack (h.dest d hd) hack (h.server.serves h.sender)
  · exact onCourse_get (htail d hd)

/-- **One of the last acknowledgements**: nothing more is sent. -/
theorem acknowledgement (c : State) (h : Closing addr s (d :: acks) r b)
    (hb : b + 1 < maxSeqNum) : ∃ s',
      step shahash addr (both c s (d :: acks ++ tail)) (.deliver 0) =
        .ok (both c s' (acks ++ tail)) ∧ Steady s s' ∧ Closing addr s' acks r (b + 1) := by
  obtain ⟨m, hm, htype, hnum, hrest⟩ := map_ackIn_eq_cons h.acks
  obtain ⟨e', he', hserves, htrace⟩ := h.server.receiveACK hnum hb.le hb
  obtain rfl : e' = maxSeqNum := le_antisymm hserves.le he'
  rw [Nat.sub_self] at htrace
  have hs := Steady.receiveACK s d.pack 0
  have hdeliver := deliver_server c (acks ++ tail) (h.dest d (List.mem_cons_self ..))
    (step_ack shahash h.sender htype) htrace
  rw [arrivals_piecesFor, piecesInFlight, List.range'_zero, List.map_nil, List.append_nil]
    at hdeliver
  refine ⟨_, hdeliver, hs, hserves, ?_, fun d hd => h.dest d (List.mem_cons_of_mem _ hd), ?_⟩
  · rw [hs.frame.findPeer]
    exact h.sender
  · rw [hrest, hs.frame.binHash, Nat.sub_add_eq, hm, Nat.add_sub_cancel]

/-- **The very last one** ends the transfer of the server. -/
theorem last (c : State) (h : Closing addr s (d :: acks) r b) (hb : b + 1 = maxSeqNum) : ∃ s',
    step shahash addr (both c s (d :: acks ++ tail)) (.deliver 0) = .ok (both c s' tail) ∧
      Steady s s' ∧ s'.outgoing = [] ∧ SoundClock s'.clock := by
  obtain ⟨m, hm, htype, hnum, hrest⟩ := map_ackIn_eq_cons h.acks
  obtain rfl : m = 0 := by omega
  obtain rfl : acks = [] := List.map_eq_nil_iff.1 hrest
  obtain ⟨hout, hclock, htrace⟩ := h.server.receiveACK_last (hnum.trans hb)
  have hdeliver := deliver_server c tail (h.dest d (List.mem_cons_self ..))
    (step_ack shahash h.sender htype) (htrace.trans (List.append_nil _).symm)
  rw [arrivals, List.filterMap_nil, List.append_nil] at hdeliver
  exact ⟨_, hdeliver, Steady.receiveACK s d.pack 0, hout, hclock ▸ h.server.clock⟩

/-- **The last acknowledgements arrive**, and the server is idle; the next request stays in
flight. -/
theorem clears (h : Closing addr s acks r b) (htail : ∀ d ∈ tail, d.pack.type = .get) : ∃ s',
    Clears shahash addr (both c s (acks ++ tail)) (both c s' tail) ∧ Steady s s' ∧
      s'.outgoing = [] ∧ SoundClock s'.clock := by
  induction hn : maxSeqNum - b generalizing s acks b with
  | zero => exact absurd hn (Nat.sub_ne_zero_of_lt h.server.lt)
  | succ n ih =>
      cases acks with
      | nil =>
          have hnone := (congrArg List.length h.acks).trans (length_acksInFlight _ _ _)
          exact absurd hnone.symm (Nat.sub_ne_zero_of_lt h.server.lt)
      | cons d acks =>
          have hlt := h.server.lt
          by_cases hb : b + 1 = maxSeqNum
          · obtain ⟨s', hstep, hs, hidle, hclock⟩ := h.last c hb
            have htail' : (both c s' tail).Undisturbed addr := fun d hd => onCourse_get (htail d hd)
            exact ⟨s', Clears.head hstep htail' (Clears.refl _), hs, hidle, hclock⟩
          · obtain ⟨s₁, hstep, hs₁, hrest⟩ := h.acknowledgement c (by omega)
            obtain ⟨s', hclears, hs', hidle, hclock⟩ := ih hrest (by omega)
            exact ⟨s', Clears.head hstep (hrest.undisturbed htail) hclears, hs₁.trans hs', hidle,
              hclock⟩

end Closing

/-! ### Whole transfers -/

/-- **The request arrives** at an idle server, and the first pieces are sent. -/
theorem Asked.stream (h : Asked shahash addr c s flight q) (hclock : SoundClock s.clock)
    (hidle : s.outgoing = []) : ∃ s' flight' r e,
      step shahash addr (both c s flight) (.deliver 0) = .ok (both c s' flight') ∧ Steady s s' ∧
      Stream shahash addr c s' flight' q r 0 0 e := by
  obtain ⟨pack, about, rfl, htype, hhash⟩ := h.flight
  have hstep : P2P.step shahash s (.packet (addr .client) pack) = .ok (receiveGET s pack 0) := by
    simp only [P2P.step, h.supplied.sender, receivePacket, htype]
  have hs := Steady.receiveGET s pack 0
  obtain ⟨r, hr, hbin, e, hserves, htrace⟩ := receiveGET_idle hclock hidle h.supplied.room
    (hhash ▸ h.supplied.owned q h.supplied.wanted) 0
  have hdeliver := deliver_server c (d := ⟨.server, pack, about⟩) [] rfl hstep htrace
  rw [arrivals_piecesFor, List.nil_append] at hdeliver
  refine ⟨_, _, r, e, hdeliver, hs, h.supplied.server hs, hserves, hs.frame.haveList ▸ hr,
    ⟨h.sender, h.incoming, ?_⟩, Nat.le_refl 0, Nat.zero_le e, by decide, ?_, ?_⟩
  · rw [hs.chunks]
    exact FirstPieces.zero (hhash.symm.trans hbin.symm) h.counted h.empty
  · rw [hs.chunks]
    exact toward_client_piecesInFlight _ _ _
  · rw [toward_server_piecesInFlight]
    rfl

namespace GoesOn

/-- Only a request is in flight. -/
theorem get (h : GoesOn shahash addr c s flight) : ∀ d ∈ flight, d.pack.type = .get := by
  obtain ⟨-, rfl⟩ | ⟨q, hq⟩ := h
  · exact fun _ hd => absurd hd List.not_mem_nil
  · obtain ⟨pack, about, rfl, htype, -⟩ := hq.flight
    intro d hd
    rw [List.mem_singleton.1 hd]
    exact htype

/-- The request can wait for the server. -/
theorem server (h : GoesOn shahash addr c s flight) (hs : Steady s s') :
    GoesOn shahash addr c s' flight :=
  h.imp_right fun ⟨q, hq⟩ => ⟨q, { hq with supplied := hq.supplied.server hs }⟩

end GoesOn

/-- Something is in flight while a transfer is running. -/
theorem Stream.flight_ne_nil (h : Stream shahash addr c s flight q r b k e) : flight ≠ [] := by
  rintro rfl
  have hpieces := congrArg List.length h.pieces
  have hacks := congrArg List.length h.acks
  rw [length_acksInFlight] at hacks
  rw [piecesInFlight, List.length_map, List.length_range'] at hpieces
  have hlt := h.server.lt
  have hacked := h.acked
  simp only [toward, List.filter_nil, List.map_nil, List.length_nil] at hpieces hacks
  omega

/-- **A transfer comes to its end**: the client has got the chunk, and the server is idle. -/
theorem Stream.finishes (h : Stream shahash addr c s flight q r b k e) : ∃ c' s' tail,
    Clears shahash addr (both c s flight) (both c' s' tail) ∧ s'.outgoing = [] ∧
      SoundClock s'.clock ∧ Got q c c' ∧ GoesOn shahash addr c' s' tail := by
  -- either the client gets a piece more, or the server an acknowledgement more
  induction hn : (maxSeqNum - b) + (maxSeqNum - k) generalizing c s flight b k e with
  | zero =>
      have hlt := h.lt
      omega
  | succ n ih =>
      have hlt := h.lt
      have hlt' := h.server.lt
      have hle := h.server.le
      obtain ⟨d, rest, rfl⟩ := List.exists_cons_of_ne_nil h.flight_ne_nil
      cases hd : d.dest with
      | server =>
          obtain ⟨s₁, flight₁, e₁, hstep, hs₁, h₁⟩ := h.acknowledgement hd
          obtain ⟨c', s', tail, hclears, hrest⟩ := ih h₁ (by omega)
          exact ⟨c', s', tail, Clears.head hstep h₁.undisturbed hclears, hrest⟩
      | client =>
          by_cases hk : k + 1 = maxSeqNum
          · obtain ⟨c', acks, tail, hstep, hclosing, hgot, hnext⟩ := h.last hd hk
            obtain ⟨s', hclears, hs, hidle, hclock⟩ := hclosing.clears (c := c') hnext.get
            exact ⟨c', s', tail, Clears.head hstep (hclosing.undisturbed hnext.get) hclears, hidle,
              hclock, hgot, hnext.server hs⟩
          · obtain ⟨c₁, flight₁, hstep, h₁, hmiss, hhave⟩ := h.piece hd (by omega)
            obtain ⟨c', s', tail, hclears, hidle, hclock, hgot, hnext⟩ := ih h₁ (by omega)
            rw [Got, hmiss, hhave] at hgot
            exact ⟨c', s', tail, Clears.head hstep h₁.undisturbed hclears, hidle, hclock, hgot,
              hnext⟩

/-- **One transfer after another**: the client gets all chunks that it waits for. -/
theorem GoesOn.clears (h : GoesOn shahash addr c s flight) (hidle : s.outgoing = [])
    (hclock : SoundClock s.clock) : ∃ c' s',
    Clears shahash addr (both c s flight) (both c' s' []) ∧ c'.missing = [] ∧
      s'.outgoing = [] ∧ ∀ r ∈ c.missing, r ∈ c'.haveList := by
  -- the wanted chunks are there at the end, or are there already
  suffices hall : ∃ c' s', Clears shahash addr (both c s flight) (both c' s' []) ∧
      c'.missing = [] ∧ s'.outgoing = [] ∧
      ∀ r, r ∈ c.missing ∨ r ∈ c.haveList → r ∈ c'.missing ∨ r ∈ c'.haveList by
    obtain ⟨c', s', hclears, hdone, hidle', hmem⟩ := hall
    refine ⟨c', s', hclears, hdone, hidle', fun r hr => ?_⟩
    exact (hmem r (Or.inl hr)).resolve_left (by rw [hdone]; exact List.not_mem_nil)
  induction hn : c.missing.length generalizing c s flight with
  | zero =>
      obtain ⟨hdone, rfl⟩ | ⟨q, hq⟩ := h
      · exact ⟨c, s, Clears.refl _, hdone, hidle, fun _ => id⟩
      · exact absurd hn (Nat.ne_of_gt (List.length_pos_of_mem hq.supplied.wanted))
  | succ n ih =>
      obtain ⟨hdone, -⟩ | ⟨q, hq⟩ := h
      · rw [hdone] at hn
        cases hn
      · obtain ⟨s₁, flight₁, r, e, hstep, -, hstream⟩ := hq.stream hclock hidle
        obtain ⟨c₂, s₂, flight₂, hclears, hidle₂, hclock₂, hgot, hnext⟩ := hstream.finishes
        have hlength := hgot.length
        obtain ⟨c', s', hclears', hdone, hidle', hmem⟩ := ih hnext hidle₂ hclock₂ (by omega)
        have hfirst := Clears.head hstep hstream.undisturbed hclears
        exact ⟨c', s', hfirst.trans hclears', hdone, hidle', fun r hr => hmem r (hgot.mem hr)⟩

/-- **The client has asked for a chunk, or waits for none**, and the server is idle; it has all that
the client waits for. -/
structure Orderly (shahash : List UInt8 → BinHash) (addr : Side → SockaddrIn) (n : Net) : Prop where
  goesOn : GoesOn shahash addr (n.node .client) (n.node .server) n.flight
  idle : (n.node .server).outgoing = []
  clock : SoundClock (n.node .server).clock

theorem Orderly.clears {n : Net} (h : n.Orderly shahash addr) : ∃ n', Clears shahash addr n n' ∧
    n'.flight = [] ∧ (n'.node .client).missing = [] ∧
      ∀ r ∈ (n.node .client).missing, r ∈ (n'.node .client).haveList := by
  obtain ⟨c', s', hclears, hdone, -, hall⟩ := h.goesOn.clears h.idle h.clock
  have hn : both (n.node .client) (n.node .server) n.flight = n := by
    obtain ⟨node, flight⟩ := n
    exact congrArg (Net.mk · flight) (funext fun side => by cases side <;> rfl)
  rw [hn] at hclears
  exact ⟨both c' s' [], hclears, rfl, hdone, hall⟩

/-! ### All runs -/

/-- A server with two chunks that are right, and room for one transfer. -/
def twoChunks : NetSetup where
  id := (oneServer 1).id
  addr := (oneServer 1).addr
  maxConn := (oneServer 1).maxConn
  own
    | .client => []
    | .server => [(0, zeroHex), (1, onesHex)]
  master _ := some [1]

theorem verified_twoChunks : ∀ line ∈ twoChunks.own .server,
    (ownChunk (twoChunks.master .server) line).Verified headHash := by
  intro line hl
  rcases List.mem_cons.1 hl with rfl | hl
  · refine verified_of_head rfl ?_
    have hdata : (ownChunk (some [1]) (0, zeroHex)).chunkData =
        Block.blit (Vector.replicate btChunkSize 0) 0 [1] := rfl
    show (ownChunk (some [1]) (0, zeroHex)).chunkData.toList.head? = some 1
    rw [hdata, Block.toList_blit_zero _ (by decide)]
    rfl
  · rw [List.mem_singleton.1 hl]
    have hdata : (ownChunk (some [1]) (1, onesHex)).chunkData = zeroChunk.chunkData :=
      Block.blit_nil _ 0
    show (ownChunk (some [1]) (1, onesHex)).Verified headHash
    rw [Chunk.Verified, hdata]
    exact verified_zeroChunk

/-- A chunk that the client waits for, and that the server offers. -/
def offeredChunk (line : UInt32 × HexHash) : Chunk :=
  { createChunk line.1.toUInt8 line.2 with peer := [1] }

theorem empty_offeredChunk (line : UInt32 × HexHash) : (offeredChunk line).Counted ∧
    (offeredChunk line).received = ∅ :=
  ⟨Chunk.counted_createChunk line.1.toUInt8 line.2,
    Chunk.received_createChunk line.1.toUInt8 line.2⟩

/-- **The request for one of the two chunks is on the way**, and nothing has arrived yet. -/
structure TwoAsked (n : Net) : Prop where
  missing : (n.node .client).missing = [1, 0]
  haveList : (n.node .server).haveList = [1, 0]
  client₀ : (n.node .client).chunks.cell 0 = offeredChunk (0, zeroHex)
  client₁ : (n.node .client).chunks.cell 1 = offeredChunk (1, onesHex)
  server₀ : (n.node .server).chunks.cell 0 = ownChunk (some [1]) (0, zeroHex)
  server₁ : (n.node .server).chunks.cell 1 = ownChunk (some [1]) (1, onesHex)
  client : findPeer (n.node .server) (twoChunks.addr .client) = some 0
  server : findPeer (n.node .client) (twoChunks.addr .server) = some 1
  incoming : (n.node .client).incoming.map Transfer.ends = [(1, 1)]
  flight : n.flight =
    [⟨.server, getPacket zeroPacket (binHashOf onesHex) 1, some (binHashOf onesHex)⟩]
  maxConn : (n.node .server).maxConn = 1
  outgoing : (n.node .server).outgoing = []
  clock : (n.node .server).clock = fun _ => 0

namespace TwoAsked

variable {n : Net}

/-- What the client waits for is what the server has. -/
theorem cell (h : TwoAsked n) {r : ℕ} (hr : r ∈ [1, 0]) : ∃ line ∈ twoChunks.own .server,
    (n.node .client).chunks.cell r = offeredChunk line ∧
    (n.node .server).chunks.cell r = ownChunk (some [1]) line := by
  rcases List.mem_cons.1 hr with rfl | hr
  · exact ⟨_, List.mem_cons_of_mem _ (List.mem_singleton_self _), h.client₁, h.server₁⟩
  · rw [List.mem_singleton.1 hr]
    exact ⟨_, List.mem_cons_self .., h.client₀, h.server₀⟩

theorem supplied (h : TwoAsked n) :
    Supplied headHash twoChunks.addr (n.node .client) (n.node .server) 1 := by
  refine ⟨?_, ?_, fun r hr _ => ?_, fun r hr => ?_, fun r hr => ?_, h.client, ?_⟩
  · rw [h.missing]
    exact List.mem_cons_self ..
  · rw [h.missing]
    show [(n.node .client).binHash 1, (n.node .client).binHash 0].Nodup
    rw [State.binHash, State.binHash, h.client₀, h.client₁]
    decide
  · rw [h.missing] at hr
    obtain ⟨line, -, hclient, -⟩ := h.cell hr
    rw [hclient]
    exact ⟨rfl, empty_offeredChunk line⟩
  · rw [h.missing] at hr
    obtain ⟨line, -, hclient, hserver⟩ := h.cell hr
    refine ⟨r, h.haveList ▸ hr, ?_⟩
    rw [State.binHash, State.binHash, hclient, hserver]
    rfl
  · rw [h.haveList] at hr
    obtain ⟨line, hline, -, hserver⟩ := h.cell hr
    rw [hserver]
    exact verified_twoChunks line hline
  · rw [h.maxConn]
    exact Int.one_pos

end TwoAsked

end Net

end P2P
