/-
**Both ends of one transfer** (`receive_DATA`, `receive_ACK` and the two timeout handlers).

One server and one client move one chunk over a channel that loses, repeats and reorders packets.
The two ends are the functions of `Sending` and `Reassembly`; the system relates to the sliding
window with cumulative acknowledgements, whose invariant then says that no number on either side,
or in flight, runs ahead of what the client has stored.

A packet that was sent stays in flight until it is lost, so a delivery may be repeated, may come
late and may come out of order.

Main definitions:

* `P2P.Pair`, `P2P.Pair.Event`, `P2P.Pair.step` — the two ends and the channel;
* `P2P.Pair.Tracks` — how a state relates to a state of `CumulativeAck`;
* `P2P.Pair.Agreement` — what holds in every reachable state.

Main results:

* `P2P.Pair.step_tracks` — **the simulation**, one case for every event;
* `P2P.Pair.window_agreement` — the two ends agree, and a server that was told of the last piece has
  a client with the whole chunk.
-/

import P2PFileTransfer.Pieces

set_option relaxedAutoImplicit false
set_option autoImplicit false

namespace P2P

open CumulativeAck (Link prefixLen)

/-- Two ends of a transfer, and the channel between them. -/
structure Pair where
  /-- The server's transfer, until it is deleted. -/
  server : Option Transfer
  /-- The server's chunk. -/
  src : Chunk
  /-- The client's transfer, until it is deleted. -/
  client : Option Transfer
  /-- The client's chunk. -/
  c : Chunk
  /-- The `DATA` packets in flight. -/
  data : List Packet
  /-- The `ACK` packets in flight. -/
  acks : List Packet
  /-- The server deleted its transfer on the last acknowledgement. -/
  completed : Bool

namespace Pair

/-- The events; `clock` is what the clock shows to the code that runs, `junk` what lies on its
stack. -/
inductive Event where
  | deliverData (k : ℕ) (clock : ℕ → ℕ) (junk : Packet)
  | deliverAck (k : ℕ) (clock : ℕ → ℕ)
  | clientTimeout (clock : ℕ → ℕ) (junk : Packet)
  | serverTimeout (clock : ℕ → ℕ)
  | loseData (k : ℕ)
  | loseAck (k : ℕ)

/-- The client answers with its longest initial run. -/
def answer (junk : Packet) (p : Pair) : Pair :=
  { p with acks := p.acks ++ [ackPacket junk (dataFindLargestConsecSeq p.c)] }

/-- `receive_DATA`, for the transfer it finds.  A complete chunk ends the transfer; its data is
discarded if the hash is wrong. -/
def receiveData (shahash : List UInt8 → BinHash) (clock : ℕ → ℕ) (junk : Packet) (pack : Packet)
    (p : Pair) : Except Fault Pair :=
  match p.client with
  | none => .ok p
  | some u =>
      match storeData pack p.c with
      | .error x => .error x
      | .ok c =>
          let p := answer junk { p with c := c, client := some { u with timestamp := clock 0 } }
          if chunkBitsAllReceived c then
            if chunkIsValid shahash c then .ok { p with client := none }
            else .ok { p with c := discardData c, client := none }
          else .ok p

/-- `receive_ACK`, for the transfer it finds. -/
def receiveAck (clock : ℕ → ℕ) (pack : Packet) (p : Pair) : Pair :=
  match p.server with
  | none => p
  | some t =>
      match ackTransfer clock p.src t pack.ackNum.toNat with
      | none => { p with server := none, completed := true }
      | some (t', sent) => { p with server := some t', data := p.data ++ sent }

/-- `handle_client_timeout`, for one transfer: the acknowledgement is sent again once something was
received, and before that the `GET`, which is not part of this system. -/
def clientTimeout (clock : ℕ → ℕ) (junk : Packet) (p : Pair) : Pair :=
  match p.client with
  | none => p
  | some u =>
      if transferHasTimeout (clock 0) u then
        let u := { u with cctrl := { u.cctrl with timeoutCount := u32 (1 + u.cctrl.timeoutCount) } }
        if maxToCounts ≤ u.cctrl.timeoutCount then { p with client := none }
        else if p.c.bitsCount = 0 then { p with client := some { u with timestamp := clock 1 } }
        else answer junk { p with client := some { u with timestamp := clock 1 } }
      else p

/-- `handle_server_timeout`, for one transfer. -/
def serverTimeout (clock : ℕ → ℕ) (p : Pair) : Pair :=
  match p.server with
  | none => p
  | some t => { p with server := timeoutTransfer clock t }

/-- One event. -/
def step (shahash : List UInt8 → BinHash) (p : Pair) : Event → Except Fault Pair
  | .deliverData k clock junk =>
      match p.data[k]? with
      | none => .ok p
      | some pack => receiveData shahash clock junk pack p
  | .deliverAck k clock =>
      match p.acks[k]? with
      | none => .ok p
      | some pack => .ok (receiveAck clock pack p)
  | .clientTimeout clock junk => .ok (clientTimeout clock junk p)
  | .serverTimeout clock => .ok (serverTimeout clock p)
  | .loseData k => .ok { p with data := p.data.eraseIdx k }
  | .loseAck k => .ok { p with acks := p.acks.eraseIdx k }

/-- The server has just accepted the `GET` and sent its first pieces; the client, with the transfer
`u`, may hold pieces from earlier. -/
def start (src c : Chunk) (t u : Transfer) : Pair where
  server := some (sendDATA src t).1
  src := src
  client := some u
  c := c
  data := (sendDATA src t).2
  acks := []
  completed := false

/-! ### The two chunks -/

/-- What is true of the chunks and of the pieces in flight. -/
structure Honest (shahash : List UInt8 → BinHash) (p : Pair) : Prop where
  /-- The hash of the chunk is the hash of the server's data. -/
  hash : p.c.binHash = shahash p.src.chunkData.toList
  counted : p.c.Counted
  /-- The client's pieces are the server's. -/
  holds : p.c.HoldsPieces p.src.chunkData
  /-- The packets in flight are pieces of the server's chunk. -/
  data : ∀ pack ∈ p.data, ∃ i < maxSeqNum, pack = dataPacket p.src i

/-- A complete chunk has the right data, so the client never discards. -/
theorem valid_of_complete {shahash : List UInt8 → BinHash} {src c : Chunk}
    (hhash : c.binHash = shahash src.chunkData.toList) (hcount : c.Counted)
    (hholds : c.HoldsPieces src.chunkData) (hdone : chunkBitsAllReceived c = true) :
    chunkIsValid shahash c = true := by
  have hdata : c.chunkData = src.chunkData := hholds.complete (hcount.complete_iff.1 hdone)
  rw [chunkIsValid_iff, Chunk.Verified, hdata, hhash]

/-! ### The simulation -/

/-- A state of the two ends and the state of the sliding window it stands for. -/
structure Tracks (p : Pair) (l : Link) : Prop where
  window : ∀ t ∈ p.server, l.base = t.cctrl.begin ∧ l.next = t.cctrl.index
  got : l.got = ↑p.c.received
  acks : ∀ a ∈ p.acks, a.ackNum.toNat ∈ l.acks
  done : p.completed = true → l.done

/-- The number of an answer is the longest initial run. -/
theorem ackNum_answer (junk : Packet) {c : Chunk} {l : Link} (h : l.got = ↑c.received) :
    (ackPacket junk (dataFindLargestConsecSeq c)).ackNum.toNat = prefixLen maxSeqNum l.got := by
  rw [consecSeq_eq_prefixLen, h, ackNum_ackPacket junk (CumulativeAck.prefixLen_le _ _)]

/-- **Answering** is the move `acknowledge`. -/
theorem Tracks.answer {p : Pair} {l : Link} (h : p.Tracks l) (junk : Packet) :
    (Pair.answer junk p).Tracks { l with acks := insert (prefixLen maxSeqNum l.got) l.acks } where
  window := h.window
  got := h.got
  acks := by
    intro a ha
    rcases List.mem_append.1 ha with ha | ha
    · exact Set.mem_insert_of_mem _ (h.acks a ha)
    · rw [List.mem_singleton.1 ha, ackNum_answer junk h.got]
      exact Set.mem_insert _ _
  done := h.done

section Steps

open Relation (ReflTransGen)

variable {shahash : List UInt8 → BinHash} {p p' : Pair} {l : Link}

/-- **A piece arrives**: the client's chunk grows by it, and the client answers. -/
theorem receiveData_tracks (hp : p.Honest shahash) (ht : p.Tracks l) (clock : ℕ → ℕ)
    (junk : Packet) {pack : Packet} (hpack : pack ∈ p.data) :
    ∃ p', receiveData shahash clock junk pack p = .ok p' ∧ p'.Honest shahash ∧ p'.src = p.src ∧
      ∃ l', ReflTransGen (CumulativeAck.Step maxSeqNum) l l' ∧ p'.Tracks l' := by
  unfold receiveData
  cases hu : p.client with
  | none => exact ⟨p, rfl, hp, rfl, l, .refl, ht⟩
  | some u =>
      obtain ⟨i, hi, rfl⟩ := hp.data pack hpack
      obtain ⟨c, hc⟩ := storeData_ok (inBounds_dataPacket p.src hi) p.c
      have hcount := hp.counted.store hc
      have hholds := hp.holds.store hi hc
      have hhash : c.binHash = shahash p.src.chunkData.toList := by
        rw [← hp.hash]
        obtain ⟨-, ⟨-, rfl⟩ | ⟨-, -, -, rfl⟩⟩ := storeData_cases hc <;> rfl
      have hstored : Tracks { p with c := c, client := some { u with timestamp := clock 0 } }
          { l with got := insert i l.got } := by
        refine ⟨ht.window, ?_, ht.acks, ht.done⟩
        simp only [ht.got, received_storeData_dataPacket hi hc, Finset.coe_insert]
      have hans := hstored.answer junk
      have hmoves := (ReflTransGen.single (CumulativeAck.Step.receive (N := maxSeqNum) l i)).tail
        (CumulativeAck.Step.acknowledge _)
      simp only [hc]
      cases hdone : chunkBitsAllReceived c with
      | false => exact ⟨_, rfl, ⟨hhash, hcount, hholds, hp.data⟩, rfl, _, hmoves, hans⟩
      | true =>
          -- the branch that discards the data is not taken
          have hvalid := valid_of_complete hhash hcount hholds hdone
          simp only [hvalid, if_true]
          exact ⟨_, rfl, ⟨hhash, hcount, hholds, hp.data⟩, rfl, _, hmoves,
            ⟨hans.window, hans.got, hans.acks, hans.done⟩⟩

/-- Sending is the move `transmit`: `index` moves on and stays inside the chunk. -/
theorem sendDATA_transmits (c : Chunk) (t : Transfer) {l : Link}
    (hnext : l.next = t.cctrl.index) (hle : l.next ≤ maxSeqNum) :
    CumulativeAck.Step maxSeqNum l { l with next := (sendDATA c t).1.cctrl.index } := by
  have hstop := t.cctrl.stop_le
  refine CumulativeAck.Step.transmit l _ ?_ ?_ <;> rw [sendDATA_index] <;> omega

/-- **An acknowledgement moves the server's window**: it slides and more is sent, it goes back and
more is sent, or it stays. -/
theorem ackWindow_tracks (hl : l.Sound maxSeqNum) (clock : ℕ → ℕ) (c : Chunk) {t : Transfer}
    (hw : l.base = t.cctrl.begin ∧ l.next = t.cctrl.index) {a : ℕ} (ha : a ∈ l.acks) :
    ∃ l', ReflTransGen (CumulativeAck.Step maxSeqNum) l l' ∧ l'.got = l.got ∧ l'.acks = l.acks ∧
      (l.done → l'.done) ∧ l'.base = (ackWindow clock c t a).1.cctrl.begin ∧
      l'.next = (ackWindow clock c t a).1.cctrl.index := by
  obtain ⟨hbase, hnext⟩ := hw
  obtain ⟨hnew, t₁, hsame, heq⟩ | ⟨hdup, t₁, -, -, hb, hi, heq⟩ | ⟨hold, t₁, -, -, hb, hi, heq⟩ :=
    ackWindow_cases clock c t a
  · -- `adjust_window` is the slide; congestion control does not move the window
    have hslide := CumulativeAck.Step.slide (N := maxSeqNum) l a ha
    have hindex : max l.next a = t₁.cctrl.index := by
      rw [hsame.index, hnext]
      simp only [adjustWindow]
      split_ifs <;> omega
    have hsend := sendDATA_transmits c t₁ (l := { l with base := a, next := max l.next a })
      hindex (hl.step hslide).next_le
    refine ⟨_, (ReflTransGen.single hslide).tail hsend, rfl, rfl, id, ?_, ?_⟩
    · rw [heq, sendDATA_begin, hsame.begin]
      rfl
    · rw [heq]
  · have hrewind := CumulativeAck.Step.rewind (N := maxSeqNum) l
    have hsend := sendDATA_transmits c t₁ (l := { l with next := l.base })
      (by rw [hi, ← hbase]) (hl.step hrewind).next_le
    refine ⟨_, (ReflTransGen.single hrewind).tail hsend, rfl, rfl, id, ?_, ?_⟩
    · rw [heq, sendDATA_begin, hb, ← hbase]
    · rw [heq]
  · exact ⟨l, .refl, rfl, rfl, id, by rw [heq, hb, hbase], by rw [heq, hi, hnext]⟩

/-- **An acknowledgement arrives**: the last one ends the transfer, any other moves the window. -/
theorem receiveAck_tracks (hp : p.Honest shahash) (ht : p.Tracks l) (hl : l.Sound maxSeqNum)
    (clock : ℕ → ℕ) {pack : Packet} (hpack : pack ∈ p.acks) :
    (receiveAck clock pack p).Honest shahash ∧ (receiveAck clock pack p).src = p.src ∧
      ∃ l', ReflTransGen (CumulativeAck.Step maxSeqNum) l l' ∧
        (receiveAck clock pack p).Tracks l' := by
  unfold receiveAck
  cases hs : p.server with
  | none => exact ⟨hp, rfl, l, .refl, ht⟩
  | some t =>
      have hmem := ht.acks pack hpack
      obtain ⟨hlast, hnone⟩ | ⟨-, t', hsome, -, -, hb, hi⟩ :=
        ackTransfer_cases clock p.src t pack.ackNum.toNat
      · rw [hlast] at hmem
        simp only [hnone]
        refine ⟨⟨hp.hash, hp.counted, hp.holds, hp.data⟩, trivial, _,
          .single (CumulativeAck.Step.finish l hmem), ?_⟩
        exact ⟨fun _ ht' => absurd ht' (Option.not_mem_none _), ht.got, ht.acks, fun _ => trivial⟩
      · obtain ⟨l', hmoves, hgot, hacks, hdone, hbase, hnext⟩ :=
          ackWindow_tracks hl clock p.src (ht.window t hs) hmem
        have hsent := (ackTransfer_same hsome).2.2
        simp only [hsome]
        refine ⟨⟨hp.hash, hp.counted, hp.holds, ?_⟩, trivial, l', hmoves, ?_, ?_, ?_, ?_⟩
        · intro d hd
          rcases List.mem_append.1 hd with hd | hd
          · exact hp.data d hd
          · exact hsent d hd
        · intro t'' ht''
          cases ht''
          exact ⟨hbase.trans hb.symm, hnext.trans hi.symm⟩
        · rw [hgot, ht.got]
        · intro a ha
          rw [hacks]
          exact ht.acks a ha
        · exact fun hc => hdone (ht.done hc)

/-- **The client's timeout** sends an answer again, or nothing that matters here. -/
theorem clientTimeout_tracks (hp : p.Honest shahash) (ht : p.Tracks l) (clock : ℕ → ℕ)
    (junk : Packet) :
    (clientTimeout clock junk p).Honest shahash ∧ (clientTimeout clock junk p).src = p.src ∧
      ∃ l', ReflTransGen (CumulativeAck.Step maxSeqNum) l l' ∧
        (clientTimeout clock junk p).Tracks l' := by
  unfold clientTimeout
  cases hu : p.client with
  | none => exact ⟨hp, rfl, l, .refl, ht⟩
  | some u =>
      dsimp only
      split
      · split
        · exact ⟨⟨hp.hash, hp.counted, hp.holds, hp.data⟩, rfl, l, .refl,
            ⟨ht.window, ht.got, ht.acks, ht.done⟩⟩
        · split
          · exact ⟨⟨hp.hash, hp.counted, hp.holds, hp.data⟩, rfl, l, .refl,
              ⟨ht.window, ht.got, ht.acks, ht.done⟩⟩
          · refine ⟨⟨hp.hash, hp.counted, hp.holds, hp.data⟩, rfl, _,
              .single (CumulativeAck.Step.acknowledge l), Tracks.answer ?_ junk⟩
            exact ⟨ht.window, ht.got, ht.acks, ht.done⟩
      · exact ⟨hp, rfl, l, .refl, ht⟩

/-- The server's timeout does not move the window. -/
theorem serverTimeout_tracks (hp : p.Honest shahash) (ht : p.Tracks l) (clock : ℕ → ℕ) :
    (serverTimeout clock p).Honest shahash ∧ (serverTimeout clock p).src = p.src ∧
      (serverTimeout clock p).Tracks l := by
  unfold serverTimeout
  cases hs : p.server with
  | none => exact ⟨hp, rfl, ht⟩
  | some t =>
      refine ⟨⟨hp.hash, hp.counted, hp.holds, hp.data⟩, rfl, ?_, ht.got, ht.acks, ht.done⟩
      intro t' ht'
      obtain ⟨-, -, hb, hi⟩ := timeoutTransfer_same (Option.mem_def.1 ht')
      rw [hb, hi]
      exact ht.window t hs

/-- **The simulation**: every event is possible, and is matched by moves of the sliding window. -/
theorem step_tracks (hp : p.Honest shahash) (ht : p.Tracks l) (hl : l.Sound maxSeqNum)
    (e : Event) :
    ∃ p', step shahash p e = .ok p' ∧ p'.Honest shahash ∧ p'.src = p.src ∧
      ∃ l', ReflTransGen (CumulativeAck.Step maxSeqNum) l l' ∧ p'.Tracks l' := by
  cases e with
  | deliverData k clock junk =>
      rw [step]
      cases hk : p.data[k]? with
      | none => exact ⟨p, rfl, hp, rfl, l, .refl, ht⟩
      | some pack => exact receiveData_tracks hp ht clock junk (List.mem_of_getElem? hk)
  | deliverAck k clock =>
      rw [step]
      cases hk : p.acks[k]? with
      | none => exact ⟨p, rfl, hp, rfl, l, .refl, ht⟩
      | some pack => exact ⟨_, rfl, receiveAck_tracks hp ht hl clock (List.mem_of_getElem? hk)⟩
  | clientTimeout clock junk => exact ⟨_, rfl, clientTimeout_tracks hp ht clock junk⟩
  | serverTimeout clock =>
      obtain ⟨hp', hsrc, ht'⟩ := serverTimeout_tracks hp ht clock
      exact ⟨_, rfl, hp', hsrc, l, .refl, ht'⟩
  | loseData k =>
      refine ⟨_, rfl, ⟨hp.hash, hp.counted, hp.holds, ?_⟩, rfl, l, .refl,
        ⟨ht.window, ht.got, ht.acks, ht.done⟩⟩
      exact fun d hd => hp.data d (List.mem_of_mem_eraseIdx hd)
  | loseAck k =>
      refine ⟨_, rfl, ⟨hp.hash, hp.counted, hp.holds, hp.data⟩, rfl, l, .refl,
        ⟨ht.window, ht.got, ?_, ht.done⟩⟩
      exact fun a ha => ht.acks a (List.mem_of_mem_eraseIdx ha)

end Steps

/-! ### Agreement -/

/-- **What holds in every reachable state**: no number on either side, or in flight, runs ahead of
what the client has stored. -/
structure Agreement (src : Chunk) (p : Pair) : Prop where
  begin_le : ∀ t ∈ p.server, t.cctrl.begin ≤ dataFindLargestConsecSeq p.c
  acks_le : ∀ a ∈ p.acks, a.ackNum.toNat ≤ dataFindLargestConsecSeq p.c
  begin_le_index : ∀ t ∈ p.server, t.cctrl.begin ≤ t.cctrl.index
  index_le : ∀ t ∈ p.server, t.cctrl.index ≤ maxSeqNum
  /-- Every piece that is marked is the server's. -/
  holds : ∀ s, 1 ≤ s → s ≤ maxSeqNum → p.c.bit (s - 1) ≠ 0 →
    Block.slice p.c.chunkData ((s - 1) * dataSize) dataSize =
      Block.slice src.chunkData ((s - 1) * dataSize) dataSize
  /-- A server that was told of the last piece has a client with the whole chunk. -/
  complete : p.completed = true → p.c.chunkData = src.chunkData

theorem Honest.agreement {shahash : List UInt8 → BinHash} {p : Pair} {l : Link}
    (hp : p.Honest shahash) (ht : p.Tracks l) (hl : l.Sound maxSeqNum) : p.Agreement p.src where
  begin_le t hs := by
    rw [consecSeq_eq_prefixLen, ← ht.got, ← (ht.window t hs).1]
    exact hl.base_le
  acks_le a ha := by
    rw [consecSeq_eq_prefixLen, ← ht.got]
    exact hl.acks_le _ (ht.acks a ha)
  begin_le_index t hs := by
    rw [← (ht.window t hs).1, ← (ht.window t hs).2]
    exact hl.base_le_next
  index_le t hs := by
    rw [← (ht.window t hs).2]
    exact hl.next_le
  holds s _ hs hbit := by
    refine Block.slice_congr fun j hj h₁ h₂ => hp.holds j hj ?_
    have hdiv : j / dataSize = s - 1 :=
      Nat.div_eq_of_lt_le h₁ (by rw [Nat.succ_mul]; exact h₂)
    rw [hdiv]
    exact Chunk.mem_received.2 ⟨by omega, hbit⟩
  complete hdone := by
    refine hp.holds.complete fun i hi => ?_
    have hmem := hl.complete (ht.done hdone) i hi
    rw [ht.got] at hmem
    exact (Chunk.mem_received.1 (Finset.mem_coe.1 hmem)).2

/-- **Sliding-window agreement.**  A server transfer and a client transfer of one chunk whose hash
is that of the server's data; the client may hold some of its pieces.  Every sequence of deliveries,
losses and timeouts is possible and ends in a state where the two ends agree. -/
theorem window_agreement (shahash : List UInt8 → BinHash) (src c : Chunk) (peer q now : ℕ)
    (u : Transfer) (hhash : c.binHash = shahash src.chunkData.toList) (hcount : c.Counted)
    (hholds : c.HoldsPieces src.chunkData) (es : List Event) :
    ∃ p, Machine.run (step shahash) (start src c (createTransfer peer q now) u) es = .ok p ∧
      p.Agreement src := by
  have hp : (start src c (createTransfer peer q now) u).Honest shahash :=
    ⟨hhash, hcount, hholds, fun _ => mem_sendDATA⟩
  -- the window before the first pieces were sent
  let l₀ : Link := ⟨0, 0, ↑c.received, ∅, False⟩
  have hl₀ : l₀.Sound maxSeqNum :=
    ⟨Nat.zero_le _, Nat.le_refl _, Nat.zero_le _, fun _ ha => absurd ha (Set.notMem_empty _),
      fun hd => absurd hd id⟩
  have hsend := sendDATA_transmits src (createTransfer peer q now) (l := l₀) rfl (Nat.zero_le _)
  have ht : (start src c (createTransfer peer q now) u).Tracks
      { l₀ with next := (sendDATA src (createTransfer peer q now)).1.cctrl.index } := by
    refine ⟨?_, rfl, fun _ ha => absurd ha List.not_mem_nil, fun hd => absurd hd Bool.false_ne_true⟩
    intro t hs
    cases hs
    exact ⟨by rw [sendDATA_begin]; rfl, rfl⟩
  have hruns : ∃ p,
      Machine.run (step shahash) (start src c (createTransfer peer q now) u) es = .ok p ∧
      p.Honest shahash ∧ p.src = src ∧ ∃ l : Link, l.Sound maxSeqNum ∧ p.Tracks l := by
    refine Machine.run_total ?_ ⟨hp, rfl, _, hl₀.step hsend, ht⟩
    rintro p ⟨hp, hsrc, l, hl, hpl⟩ e -
    obtain ⟨p', hstep, hp', hsrc', l', hmoves, hpl'⟩ := step_tracks hp hpl hl e
    exact ⟨p', hstep, hp', hsrc'.trans hsrc, l', hl.steps hmoves, hpl'⟩
  obtain ⟨p, hrun, hgood, hsrc, l, hl, hpl⟩ := hruns
  refine ⟨p, hrun, ?_⟩
  rw [← hsrc]
  exact hgood.agreement hpl hl

/-- The first piece of a fresh chunk is delivered and its acknowledgement comes back. -/
theorem window_agreement_first : ∃ p,
    Machine.run (step fun _ => binHashOf (Vector.replicate hexHashSize 48))
      (start (createChunk 0 (Vector.replicate hexHashSize 48))
        (createChunk 0 (Vector.replicate hexHashSize 48)) (createTransfer 0 0 5)
        (createTransfer 1 0 4))
      [.deliverData 0 (fun i => i) zeroPacket, .deliverAck 0 fun i => i] = .ok p ∧
    p.Agreement (createChunk 0 (Vector.replicate hexHashSize 48)) :=
  window_agreement _ _ _ 0 0 5 _ rfl (Chunk.counted_createChunk _ _)
    (Chunk.holdsPieces_createChunk _ _ _) _

end Pair

end P2P
