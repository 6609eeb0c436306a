/-
**The server as a go-back-N sender** (`receive_ACK`, `send_DATA`, `congestion.c`).

A new acknowledgement slides the window and sends what it admits, the third repetition of the last
one goes back to the beginning of the window, and the last one ends the transfer.  Which repetition
is the third is counted in the transfer, and the count starts again with every call of `send_DATA`:
the log kept beside a run says what happened to each transfer, and the count is the one of the log.
The window must not wrap around, which the congestion window law gives as long as the clock does
not go back.

Main definitions:

* `P2P.Later`, `P2P.SoundClock` — what becomes of the clock, and what it should be;
* `P2P.Mark`, `P2P.Log`, `P2P.loggedStep` — what happened to the transfers, beside a run;
* `P2P.repeatsSince` — the repetitions since the last call of `send_DATA`;
* `P2P.Tallied`, `P2P.AllTallied` — what the log says of a transfer, and of all of them;
* `P2P.CarriesPiece`, `P2P.GoesBackN` — a piece of data, and what an acknowledgement should do.

Main results:

* `P2P.Later.step` — no step turns the clock back;
* `P2P.AllTallied.next` — every step keeps the count and the window law;
* `P2P.Tallied.ackWindow_goesBackN` — what an acknowledgement does to a transfer;
* `P2P.go_back_n` — **the server is a go-back-N sender**, in every reachable state.
-/

import P2PFileTransfer.Congestion
import P2PFileTransfer.Machine
import P2PFileTransfer.ServerList

set_option relaxedAutoImplicit false
set_option autoImplicit false

namespace P2P

/-! ### The clock -/

/-- Some readings of the clock were used up. -/
def Later (s s' : State) : Prop := ∃ n, s'.clock = fun i => s.clock (n + i)

namespace Later

variable {s s' s'' : State}

theorem refl (s : State) : Later s s := ⟨0, funext fun i => by rw [Nat.zero_add]⟩

theorem trans (h : Later s s') (h' : Later s' s'') : Later s s'' := by
  obtain ⟨n, hn⟩ := h
  obtain ⟨m, hm⟩ := h'
  refine ⟨n + m, ?_⟩
  rw [hm, hn]
  exact funext fun i => by rw [Nat.add_assoc]

theorem tick (s : State) (n : ℕ) : Later s (s.tick n) := ⟨n, rfl⟩

theorem of_move {may : Kind → Prop} (h : Move may s s') : Later s s' := by
  cases h with
  | tick n => exact tick s n
  | emit es he => exact refl s
  | touchIn i f hf => exact refl s
  | touchOut i t t' hi ht => exact refl s
  | offer q p hq hp => exact refl s
  | forget q keep hq => exact refl s
  | openIn q p hq hp hav hno hk => exact ⟨1, rfl⟩
  | closeIn i hk =>
      rw [State.deleteIncoming]
      split <;> exact refl s
  | openOut t ht hk => exact ⟨1, rfl⟩
  | closeOut i hk =>
      rw [State.deleteOutgoing]
      split <;> exact refl s

theorem of_moves {may : Kind → Prop} (h : Moves may s s') : Later s s' := by
  induction h with
  | refl => exact refl s
  | tail _ hmove ih => exact ih.trans (of_move hmove)

theorem checkAllReceived (s : State) : Later s (checkAllReceived s) := by
  rw [P2P.checkAllReceived]
  split <;> exact refl s

theorem wantLines (s : State) (lines : List ChunkLine) : Later s (lines.foldl wantLine s) := by
  induction lines generalizing s with
  | nil => exact refl s
  | cons line lines ih =>
      refine Later.trans ?_ (ih (wantLine s line))
      rw [wantLine]
      split <;> exact refl s

/-- **No step turns the clock back.** -/
theorem step {shahash : List UInt8 → BinHash} {e : Event} (he : P2P.step shahash s e = .ok s') :
    Later s s' := by
  obtain ⟨chunkFile, outputFile, lines, -, rfl⟩ | ⟨_, pack, peer, -, -, -, hr⟩ | hmoves :=
    step_cases he
  · have hnames : Later s { s with
        userGetChunkFile := chunkFile, userOutputFilename := outputFile } := refl s
    exact ((hnames.trans (wantLines _ lines)).trans (checkAllReceived _)).trans
      (of_moves (moves_sendWHOHAS _ : Moves Kind.Any _ _))
  · obtain ⟨-, rfl⟩ | ⟨i, t, c, -, -, s₁, hs₁, hend⟩ := receiveDATA_cases hr
    · exact refl _
    · have hstored : Later s (s.modifyChunk t.c fun _ => c) := refl s
      have h₁ : Later s s₁ :=
        hstored.trans (of_moves (hs₁ ▸ moves_sendACK _ _ _ : Moves Kind.Any _ s₁))
      rcases hend with ⟨-, rfl⟩ | ⟨-, rfl⟩
      · exact h₁
      · refine (h₁.trans ?_).trans
          (of_moves (moves_afterFinish trivial trivial _ i : Moves Kind.Any _ _))
        obtain ⟨-, heq⟩ | ⟨-, -, heq⟩ | ⟨-, j, r, -, -, -, heq⟩ := finishChunk_cases shahash s₁ t.c
        · rw [heq]
          exact refl s₁
        · rw [heq]
          exact checkAllReceived s₁
        · rw [heq]
          exact (refl s₁ : Later s₁ (s₁.accept j t.c)).trans (checkAllReceived _)
  · exact of_moves hmoves

end Later

/-- The readings to come are readings, and do not go back. -/
structure SoundClock (clock : ℕ → ℕ) : Prop where
  mono : Monotone clock
  reading : ∀ i, IsReading (clock i)

theorem SoundClock.shift {clock : ℕ → ℕ} (h : SoundClock clock) (n : ℕ) :
    SoundClock fun i => clock (n + i) :=
  ⟨fun _ _ hij => h.mono (Nat.add_le_add_left hij n), fun i => h.reading (n + i)⟩

theorem SoundClock.later {s s' : State} (h : SoundClock s.clock) (hl : Later s s') :
    SoundClock s'.clock ∧ s.clock 0 ≤ s'.clock 0 := by
  obtain ⟨n, hn⟩ := hl
  rw [hn]
  exact ⟨h.shift n, h.mono (Nat.zero_le _)⟩

theorem SoundClock.paced {clock : ℕ → ℕ} (h : SoundClock clock) (event : CongestEvent) {now : ℕ}
    (hnow : now ≤ clock 0) : Paced now [⟨event, clock⟩] :=
  ⟨⟨hnow, h.mono (Nat.zero_le 1), h.mono (Nat.le_succ 1)⟩, h.reading, trivial⟩

/-! ### What happened to a transfer -/

/-- What happens to a transfer of the server. -/
inductive Mark where
  /-- An acknowledgement with the number of the last one. -/
  | repeated
  /-- A call of `send_DATA`. -/
  | sendData
  deriving DecidableEq

/-- The repetitions since the last call of `send_DATA`. -/
def repeatsSince (marks : List Mark) : ℕ :=
  marks.foldl (fun n mark => match mark with | .repeated => n + 1 | .sendData => 0) 0

@[simp] theorem repeatsSince_repeated (marks : List Mark) :
    repeatsSince (marks ++ [.repeated]) = repeatsSince marks + 1 := by
  rw [repeatsSince, List.foldl_concat, repeatsSince]

@[simp] theorem repeatsSince_sendData (marks : List Mark) :
    repeatsSince (marks ++ [.sendData]) = 0 := by
  rw [repeatsSince, List.foldl_concat]

/-- What `receive_ACK` does to the transfer that it found. -/
def ackMarks (t : Transfer) (ackNum : ℕ) : List Mark :=
  if ackNum = maxSeqNum then []
  else if t.cctrl.begin < ackNum then [.sendData]
  else if ackNum = t.cctrl.begin then
    if maxDupAcks ≤ (countDup t).cctrl.dupCount then [.repeated, .sendData] else [.repeated]
  else []

/-- What happened so far to the transfers, each at the address of its chunk. -/
abbrev Log := ℕ → List Mark

/-- More happened to the transfer of the chunk at `q`. -/
def Log.add (log : Log) (q : ℕ) (marks : List Mark) : Log :=
  Function.update log q (log q ++ marks)

/-- A `GET` that opens a transfer calls `send_DATA` for it. -/
def Log.onGet (log : Log) (s s' : State) : Log :=
  match s'.outgoing with
  | [] => log
  | t :: _ => if s'.outgoing.length = s.outgoing.length + 1 then log.add t.c [.sendData] else log

def Log.onAck (log : Log) (s : State) (pack : Packet) (peer : ℕ) : Log :=
  match s.findOutgoing peer with
  | none => log
  | some (_, t) => log.add t.c (ackMarks t pack.ackNum.toNat)

/-- What an event adds to the log. -/
def Log.next (s : State) (e : Event) (s' : State) (log : Log) : Log :=
  match e with
  | .packet src pack =>
      match findPeer s src, pack.type with
      | some _, .get => log.onGet s s'
      | some peer, .ack => log.onAck s pack peer
      | _, _ => log
  | _ => log

/-- A peer with its log. -/
def loggedStep (shahash : List UInt8 → BinHash) :
    State × Log → Event → Except Fault (State × Log) :=
  Machine.withHistory (step shahash) Log.next

/-- **What a step adds to the log.** -/
theorem log_next_cases {shahash : List UInt8 → BinHash} {s s' : State} {e : Event}
    (h : Handled shahash s e s') (log : Log) :
    (ServerKept s s' ∨ s' = handleServerTimeout s) ∧ Log.next s e s' log = log ∨
      ∃ pack peer, (s' = receiveGET s pack peer ∧ Log.next s e s' log = log.onGet s s') ∨
        (s' = receiveACK s pack peer ∧ Log.next s e s' log = log.onAck s pack peer) := by
  cases h with
  | userGet chunkFile outputFile lines =>
      exact Or.inl ⟨Or.inl (ServerKept.processGet s chunkFile outputFile lines), rfl⟩
  | serverTimeout => exact Or.inl ⟨Or.inr rfl, rfl⟩
  | clientTimeout => exact Or.inl ⟨Or.inl (ServerKept.handleClientTimeout s), rfl⟩
  | stranger src pack hp => exact Or.inl ⟨Or.inl (.refl s), by simp only [Log.next, hp]⟩
  | whohas src pack peer s' hp ht hr =>
      rw [receiveWHOHAS_eq] at hr
      split_ifs at hr
      cases hr
      exact Or.inl ⟨Or.inl ⟨rfl, rfl⟩, by simp only [Log.next, hp, ht]⟩
  | ihave src pack peer hp ht =>
      exact Or.inl ⟨Or.inl (.receiveIHAVE s pack peer), by simp only [Log.next, hp, ht]⟩
  | get src pack peer hp ht =>
      exact Or.inr ⟨pack, peer, Or.inl ⟨rfl, by simp only [Log.next, hp, ht]⟩⟩
  | data src pack peer s' hp ht hr =>
      exact Or.inl ⟨Or.inl (.receiveDATA hr), by simp only [Log.next, hp, ht]⟩
  | ack src pack peer hp ht =>
      exact Or.inr ⟨pack, peer, Or.inr ⟨rfl, by simp only [Log.next, hp, ht]⟩⟩
  | denied src pack peer hp ht =>
      exact Or.inl ⟨Or.inl (.receiveDENIED s peer), by simp only [Log.next, hp, ht]⟩

/-! ### What the log says of a transfer -/

/-- The window law says nothing of the place of the window, the counters and the time of the last
acknowledgement. -/
theorem InLaw.moved {t₀ now : ℕ} {t t' : Transfer} (h : InLaw t₀ now t)
    (hk : t'.cctrl = { t.cctrl with
      begin := t'.cctrl.begin
      index := t'.cctrl.index
      dupCount := t'.cctrl.dupCount
      timeoutCount := t'.cctrl.timeoutCount }) : InLaw t₀ now t' where
  rtt := by
    rw [hk]
    exact h.rtt
  two_le_ssthresh := by
    rw [hk]
    exact h.two_le_ssthresh
  ss := by
    intro hm
    rw [hk] at hm ⊢
    have hss := h.ss hm
    exact ⟨hss.power, hss.windSize_le, hss.ssthresh_le⟩
  ca := by
    intro hm
    rw [hk] at hm ⊢
    have hca := h.ca hm
    exact ⟨hca.timer, hca.start_pos, hca.start_le, hca.start_le_windSize, hca.windSize_le⟩

/-- **What the log says of a transfer**: its window keeps the window law, and the count is that of
the repetitions since the last call of `send_DATA`, which are not three yet. -/
structure Tallied (now : ℕ) (marks : List Mark) (t : Transfer) : Prop where
  law : ∃ t₀ ≤ now, InLaw t₀ now t
  dup : t.cctrl.dupCount = repeatsSince marks
  few : repeatsSince marks < maxDupAcks

namespace Tallied

variable {now : ℕ} {marks : List Mark} {t t' : Transfer}

theorem mono (h : Tallied now marks t) {now' : ℕ} (hnow : now ≤ now') : Tallied now' marks t := by
  obtain ⟨t₀, ht₀, hlaw⟩ := h.law
  exact ⟨⟨t₀, ht₀.trans hnow, hlaw.mono hnow⟩, h.dup, h.few⟩

/-- The window is far from wrapping around. -/
theorem windSize_lt (h : Tallied now marks t) (hnow : IsReading now) :
    t.cctrl.windSize < 2 ^ 31 := by
  obtain ⟨t₀, -, hlaw⟩ := h.law
  exact lt_of_le_of_lt hlaw.windSize_le (windBound_lt hnow.lt)

/-- A call of `send_DATA` starts the count again. -/
theorem sendDATA (hlaw : ∃ t₀ ≤ now, InLaw t₀ now t) (c : Chunk) (marks : List Mark) :
    Tallied now (marks ++ [.sendData]) (sendDATA c t).1 := by
  obtain ⟨t₀, ht₀, hlaw⟩ := hlaw
  rw [sendDATA_eq]
  refine ⟨⟨t₀, ht₀, hlaw.moved rfl⟩, ?_, ?_⟩
  · rw [repeatsSince_sendData]
  · rw [repeatsSince_sendData]
    decide

/-- The window law over a call of `congestion.c` after the place of the window has changed. -/
theorem law_apply (h : Tallied now marks t) {clock : ℕ → ℕ} (hclock : SoundClock clock)
    (hnow : now ≤ clock 0) (event : CongestEvent) (t' : Transfer)
    (hk : t'.cctrl = { t.cctrl with
      begin := t'.cctrl.begin
      index := t'.cctrl.index
      dupCount := t'.cctrl.dupCount
      timeoutCount := t'.cctrl.timeoutCount }) :
    ∃ t₀ ≤ clock 2, InLaw t₀ (clock 2) (CongestCall.apply ⟨event, clock⟩ t') := by
  obtain ⟨t₀, ht₀, hlaw⟩ := h.law
  have hle : now ≤ clock 2 := hnow.trans (hclock.mono (Nat.zero_le 2))
  exact ⟨t₀, ht₀.trans hle, inLaw_apply (hlaw.moved hk) ht₀ (hclock.paced event hnow)⟩

/-- One more repetition is counted. -/
theorem dupCount_countDup (h : Tallied now marks t) :
    (countDup t).cctrl.dupCount = repeatsSince marks + 1 := by
  have hfew := h.few
  rw [maxDupAcks] at hfew
  show u32 (1 + t.cctrl.dupCount) = _
  rw [h.dup, u32]
  omega

/-- **An acknowledgement keeps the count and the window law.** -/
theorem ackWindow (h : Tallied now marks t) {clock : ℕ → ℕ} (hclock : SoundClock clock)
    (hnow : now ≤ clock 0) (c : Chunk) {ackNum : ℕ} (hlast : ackNum ≠ maxSeqNum) :
    Tallied (clock 2) (marks ++ ackMarks t ackNum) (ackWindow clock c t ackNum).1 := by
  have hle : now ≤ clock 2 := hnow.trans (hclock.mono (Nat.zero_le 2))
  have hdup := h.dupCount_countDup
  rw [P2P.ackWindow, ackMarks, if_neg hlast]
  by_cases hnew : t.cctrl.begin < ackNum
  · -- the window slides
    rw [if_pos hnew, if_pos hnew]
    exact sendDATA (h.law_apply hclock hnow .ack (adjustWindow t ackNum) rfl) c marks
  · rw [if_neg hnew, if_neg hnew]
    by_cases hrep : ackNum = t.cctrl.begin
    · rw [if_pos hrep, if_pos hrep]
      by_cases hthird : maxDupAcks ≤ (countDup t).cctrl.dupCount
      · rw [if_pos hthird, if_pos hthird, List.append_cons]
        have hback := h.law_apply hclock hnow .loss (goBack (countDup t)) rfl
        exact sendDATA hback c (marks ++ [.repeated])
      · rw [if_neg hthird, if_neg hthird]
        obtain ⟨t₀, ht₀, hlaw⟩ := (h.mono hle).law
        refine ⟨⟨t₀, ht₀, hlaw.moved rfl⟩, ?_, ?_⟩
        · rw [repeatsSince_repeated, hdup]
        · rw [repeatsSince_repeated, ← hdup]
          exact lt_of_not_ge hthird
    · rw [if_neg hrep, if_neg hrep, List.append_nil]
      exact h.mono hle

theorem ack (h : Tallied now marks t) {clock : ℕ → ℕ} (hclock : SoundClock clock)
    (hnow : now ≤ clock 0) {c : Chunk} {ackNum : ℕ} {sent : List Packet}
    (hack : ackTransfer clock c t ackNum = some (t', sent)) :
    Tallied (clock 2) (marks ++ ackMarks t ackNum) t' := by
  rw [ackTransfer] at hack
  split_ifs at hack with hlast
  have hwindow := h.ackWindow hclock hnow c hlast
  cases hack
  obtain ⟨t₀, ht₀, hlaw⟩ := hwindow.law
  exact ⟨⟨t₀, ht₀, hlaw.moved rfl⟩, hwindow.dup, hwindow.few⟩

theorem loss (clock : ℕ → ℕ) (h : Tallied (clock 0) marks t) :
    Tallied (clock 0) marks (detectedFirstLoss clock t) := by
  obtain ⟨t₀, ht₀, hlaw⟩ := h.law
  exact ⟨⟨t₀, ht₀, inLaw_detectedFirstLoss hlaw ht₀⟩,
    (detectedFirstLoss_same clock t).dupCount.trans h.dup, h.few⟩

/-- **A timeout keeps them.** -/
theorem timeout (h : Tallied now marks t) {clock : ℕ → ℕ} (hclock : SoundClock clock)
    (hnow : now ≤ clock 0) (hto : timeoutTransfer clock t = some t') :
    Tallied (clock 1) marks t' := by
  have hle : now ≤ clock 1 := hnow.trans (hclock.mono (Nat.zero_le 1))
  rw [timeoutTransfer] at hto
  by_cases hquiet : transferHasTimeout (clock 0) t = true
  · rw [if_pos hquiet] at hto
    dsimp only at hto
    split_ifs at hto
    cases hto
    obtain ⟨t₀, ht₀, hlaw⟩ := (h.mono hle).law
    have hcounted : Tallied (clock 1) marks { t with
        cctrl := { t.cctrl with timeoutCount := u32 (1 + t.cctrl.timeoutCount) } } :=
      ⟨⟨t₀, ht₀, hlaw.moved rfl⟩, h.dup, h.few⟩
    exact loss (fun i => clock (1 + i)) hcounted
  · rw [if_neg hquiet] at hto
    cases hto
    exact h.mono hle

end Tallied

/-! ### What the log says of the list -/

@[simp] theorem Log.add_self (log : Log) (q : ℕ) (marks : List Mark) :
    log.add q marks q = log q ++ marks := Function.update_self ..

theorem Log.add_of_ne (log : Log) {q q' : ℕ} (h : q' ≠ q) (marks : List Mark) :
    log.add q marks q' = log q' := Function.update_of_ne h ..

@[simp] theorem Log.add_nil (log : Log) (q : ℕ) : log.add q [] = log := by
  rw [Log.add, List.append_nil, Function.update_eq_self]

/-- A `GET` that opens no transfer. -/
theorem Log.onGet_of_eq (log : Log) {s s' : State} (h : s'.outgoing = s.outgoing) :
    log.onGet s s' = log := by
  rw [Log.onGet, h]
  split
  · rfl
  · exact if_neg (Nat.succ_ne_self _).symm

/-- A `GET` that opens one. -/
theorem Log.onGet_of_cons (log : Log) {s s' : State} {t : Transfer}
    (h : s'.outgoing = t :: s.outgoing) : log.onGet s s' = log.add t.c [.sendData] := by
  rw [Log.onGet, h]
  exact if_pos rfl

/-- Transfers of the same chunk are the same node. -/
theorem ServerList.position_eq {s : State} (h : ServerList s) {i j : ℕ} {t u : Transfer}
    (hi : s.outgoing[i]? = some t) (hj : s.outgoing[j]? = some u) (hc : u.c = t.c) : j = i := by
  have hmap : ∀ {k : ℕ} {v : Transfer}, s.outgoing[k]? = some v →
      (s.outgoing.map fun t => s.binHash t.c)[k]? = some (s.binHash v.c) := by
    intro k v hk
    rw [List.getElem?_map, hk]
    rfl
  have hlt := (List.getElem?_eq_some_iff.1 (hmap hj)).1
  exact (List.getElem?_inj hlt h.nodup).1 ((hmap hj).trans (by rw [hc, hmap hi]))

/-- **The log is right for every transfer of the server.** -/
def AllTallied (s : State) (log : Log) : Prop :=
  ∀ t ∈ s.outgoing, Tallied (s.clock 0) (log t.c) t

namespace AllTallied

variable {shahash : List UInt8 → BinHash} {s s' : State} {log : Log}

/-- A step that touches no transfer. -/
theorem of_outgoing_eq (h : AllTallied s log) (hout : s'.outgoing = s.outgoing)
    (hnow : s.clock 0 ≤ s'.clock 0) : AllTallied s' log := by
  intro t ht
  rw [hout] at ht
  exact (h t ht).mono hnow

theorem serverTimeoutLoop (h : AllTallied s log) (hclock : SoundClock s.clock) (fuel i : ℕ) :
    AllTallied (serverTimeoutLoop fuel i s) log := by
  induction fuel generalizing i s with
  | zero => exact h
  | succ fuel ih =>
      have htick : s.clock 0 ≤ (s.tick 2).clock 0 := hclock.mono (Nat.zero_le 2)
      rw [P2P.serverTimeoutLoop]
      split
      · exact h
      · rename_i t ht
        split
        · -- the transfer is dead
          have ht₂ : (s.tick 2).outgoing[i]? = some t := ht
          rw [State.deleteOutgoing_eq ht₂]
          refine ih (fun u hu => ?_) (hclock.shift 2) i
          have hmem : u ∈ s.outgoing.eraseIdx i := hu
          exact (h u (List.mem_of_mem_eraseIdx hmem)).mono htick
        · rename_i t' hto
          refine ih (fun u hu => ?_) (hclock.shift 2) (i + 1)
          rcases List.mem_or_eq_of_mem_set hu with hu | rfl
          · exact (h u hu).mono htick
          · have htimeout := (h t (List.mem_of_getElem? ht)).timeout hclock le_rfl hto
            rw [(timeoutTransfer_same hto).2.1]
            exact htimeout.mono (hclock.mono (Nat.le_succ 1))

/-- **A `GET`** opens a transfer for a chunk that has none. -/
theorem receiveGET (h : AllTallied s log) (hclock : SoundClock s.clock) (pack : Packet)
    (peer : ℕ) : AllTallied (receiveGET s pack peer) (log.onGet s (receiveGET s pack peer)) := by
  have htick : s.clock 0 ≤ (s.tick 1).clock 0 := hclock.mono (Nat.zero_le 1)
  have hdenied : (sendDENIED s peer).outgoing = s.outgoing := rfl
  rcases receiveGET_cases s pack peer with
    ⟨-, heq⟩ | ⟨-, -, heq⟩ | ⟨-, -, -, heq⟩ | ⟨-, hnone, q, -, hhash, heq⟩
  · rw [heq, log.onGet_of_eq hdenied]
    exact h.of_outgoing_eq hdenied htick
  · rw [heq, log.onGet_of_eq hdenied]
    exact h.of_outgoing_eq hdenied htick
  · rw [heq, log.onGet_of_eq rfl]
    exact h
  · have hnew : (s.served peer q).1.c = q := by rw [State.served, sendDATA_c]; rfl
    have hcons : ((s.insertOutgoing (s.served peer q).1).sendPieces (s.served peer q).1
        (s.served peer q).2).outgoing = (s.served peer q).1 :: s.outgoing := rfl
    rw [heq, log.onGet_of_cons hcons, hnew]
    intro t ht
    rcases List.mem_cons.1 ht with rfl | ht
    · rw [hnew, Log.add_self]
      exact (Tallied.sendDATA ⟨s.clock 0, le_rfl, inLaw_createTransfer peer q (s.clock 0)⟩ _ _).mono
        htick
    · have hne : t.c ≠ q := by
        intro hc
        exact hnone t ht (by rw [hc, hhash])
      rw [log.add_of_ne hne]
      exact (h t ht).mono htick

/-- **An acknowledgement** is one for the transfer that is found. -/
theorem receiveACK (h : AllTallied s log) (hclock : SoundClock s.clock) (hlist : ServerList s)
    (pack : Packet) (peer : ℕ) :
    AllTallied (receiveACK s pack peer) (log.onAck s pack peer) := by
  rw [P2P.receiveACK, Log.onAck]
  cases hfind : s.findOutgoing peer with
  | none => exact h
  | some node =>
      obtain ⟨i, t⟩ := node
      have hi := (State.findOutgoing_getElem? hfind).1
      dsimp only
      cases hack : ackTransfer s.clock (s.chunks.cell t.c) t pack.ackNum.toNat with
      | none =>
          have hlast : pack.ackNum.toNat = maxSeqNum := by
            rw [ackTransfer] at hack
            split_ifs at hack with hlast
            exact hlast
          dsimp only
          rw [ackMarks, if_pos hlast, Log.add_nil, State.deleteOutgoing_eq hi]
          exact fun u hu => h u (List.mem_of_mem_eraseIdx hu)
      | some sent =>
          obtain ⟨t', sent⟩ := sent
          intro u hu
          obtain ⟨j, hj⟩ := List.mem_iff_getElem?.1 hu
          have hset : (s.outgoing.set i t')[j]? = some u := hj
          by_cases hij : i = j
          · rw [← hij, List.getElem?_set_self (List.getElem?_eq_some_iff.1 hi).1] at hset
            cases hset
            rw [(ackTransfer_same hack).2.1, Log.add_self]
            have htallied := (h t (List.mem_of_getElem? hi)).ack hclock le_rfl hack
            exact htallied.mono (hclock.mono (Nat.le_succ 2))
          · rw [List.getElem?_set_ne hij] at hset
            have hne : u.c ≠ t.c := by
              intro hc
              exact hij (hlist.position_eq hi hset hc).symm
            rw [log.add_of_ne hne]
            exact (h u (List.mem_of_getElem? hset)).mono (hclock.mono (Nat.zero_le 3))

/-- **Every step keeps the count and the window law.** -/
theorem next (h : AllTallied s log) (hclock : SoundClock s.clock) (hlist : ServerList s)
    {e : Event} (he : step shahash s e = .ok s') : AllTallied s' (Log.next s e s' log) := by
  rcases log_next_cases (handled_of_step he) log with
    ⟨hk | rfl, hlog⟩ | ⟨pack, peer, ⟨rfl, hlog⟩ | ⟨rfl, hlog⟩⟩
  · rw [hlog]
    exact h.of_outgoing_eq hk.outgoing (hclock.later (.step he)).2
  · rw [hlog]
    exact h.serverTimeoutLoop hclock _ _
  · rw [hlog]
    exact h.receiveGET hclock pack peer
  · rw [hlog]
    exact h.receiveACK hclock hlist pack peer

end AllTallied

/-! ### What an acknowledgement does -/

/-- Where the piece of the packet starts in the chunk. -/
def Packet.pieceStart (pack : Packet) : ℕ := (pack.seqNum.toNat - 1) * dataSize

/-- Where it ends: the last piece ends with the chunk. -/
def Packet.pieceEnd (pack : Packet) : ℕ := min (pack.seqNum.toNat * dataSize) btChunkSize

/-- **The packet carries the piece that its number says**, and every byte of it is one of the
chunk. -/
structure CarriesPiece (c : Chunk) (pack : Packet) : Prop where
  type : pack.type = .data
  seqNum : 1 ≤ pack.seqNum.toNat ∧ pack.seqNum.toNat ≤ maxSeqNum
  packetLen : pack.packetLen.toNat = standardHeaderLen + (pack.pieceEnd - pack.pieceStart)
  bytes : ∀ j < pack.pieceEnd - pack.pieceStart,
    c.chunkData[pack.pieceStart + j]? = some (pack.data j)

/-- **What an acknowledgement of `a` pieces, not of all, should do**: `t'` is the transfer after
it, and the packets are `sent`.  A new one moves the window and sends what the window of the new
size admits; the third repetition sends the whole window again; nothing else is an occasion to send.
-/
structure GoesBackN (c : Chunk) (marks : List Mark) (t : Transfer) (a : ℕ) (t' : Transfer)
    (sent : List Packet) : Prop where
  forward : t.cctrl.begin < a → t'.cctrl.begin = a ∧
    sent.map (fun pack => pack.seqNum.toNat) = List.range' (max t.cctrl.index a + 1)
      (min maxSeqNum (a + t'.cctrl.windSize) - max t.cctrl.index a)
  third : a = t.cctrl.begin → repeatsSince marks + 1 = maxDupAcks →
    t'.cctrl.begin = t.cctrl.begin ∧
      sent.map (fun pack => pack.seqNum.toNat) = List.range' (t.cctrl.begin + 1)
        (min maxSeqNum (t.cctrl.begin + t'.cctrl.windSize) - t.cctrl.begin)
  quiet : a ≤ t.cctrl.begin → ¬ (a = t.cctrl.begin ∧ repeatsSince marks + 1 = maxDupAcks) →
    sent = [] ∧ t'.cctrl.begin = t.cctrl.begin ∧ t'.cctrl.index = t.cctrl.index ∧
      t'.cctrl.windSize = t.cctrl.windSize
  pieces : ∀ pack ∈ sent, CarriesPiece c pack

theorem carriesPiece_dataPacket (c : Chunk) {i : ℕ} (hi : i < maxSeqNum) :
    CarriesPiece c (dataPacket c i) := by
  have hm := maxSeqNum_eq
  have hd := dataSize_eq
  have hb := btChunkSize_eq
  have hseq := seqNum_dataPacket c hi
  have hwidth : min ((i + 1) * 1000) 524288 - i * 1000 = min 1000 (524288 - i * 1000) := by omega
  obtain ⟨hidx, hlen⟩ := pieceLen_eq hi
  have hstart : (dataPacket c i).pieceStart = i * dataSize := by
    rw [Packet.pieceStart, hseq, Nat.add_sub_cancel]
  have hsize : (dataPacket c i).pieceEnd - (dataPacket c i).pieceStart =
      pieceLen (u32 (i * dataSize)) := by
    rw [hstart, Packet.pieceEnd, hseq, hlen, hd, hb, hwidth]
  refine ⟨rfl, by omega, ?_, fun j hj => ?_⟩
  · have hs : standardHeaderLen = 16 := rfl
    rw [hsize, hlen]
    simp only [dataPacket, hlen, UInt16.toNat_ofNat']
    omega
  · rw [hsize] at hj
    have hin : i * dataSize + j < btChunkSize := by omega
    have hbyte : (dataPacket c i).data j = c.chunkData[i * dataSize + j] := by
      simp only [dataPacket]
      rw [if_pos hj, hidx, Vector.getElem?_eq_getElem hin, Option.getD_some]
    rw [hstart, Vector.getElem?_eq_getElem hin, hbyte]

theorem carriesPiece_sendDATA (c : Chunk) (t : Transfer) :
    ∀ pack ∈ (sendDATA c t).2, CarriesPiece c pack := by
  intro pack hpack
  obtain ⟨i, hi, rfl⟩ := mem_sendDATA hpack
  exact carriesPiece_dataPacket c hi

/-- **The pieces that `send_DATA` sends**, when the window does not wrap around. -/
theorem seqNums_sendDATA (c : Chunk) {t : Transfer} (hle : t.cctrl.begin ≤ t.cctrl.index)
    (hw : t.cctrl.windSize < 2 ^ 31) :
    (sendDATA c t).2.map (fun pack => pack.seqNum.toNat) = List.range' (t.cctrl.index + 1)
      (min maxSeqNum (t.cctrl.begin + t.cctrl.windSize) - t.cctrl.index) := by
  have hm := maxSeqNum_eq
  have hstop : t.cctrl.stop - t.cctrl.index =
      min maxSeqNum (t.cctrl.begin + t.cctrl.windSize) - t.cctrl.index := by
    rw [CongestCtrl.stop, u32]
    omega
  rw [sendDATA_eq, ← hstop, List.map_map, Nat.add_comm _ 1, ← List.map_add_range']
  refine List.map_congr_left fun i hi => ?_
  rw [List.mem_range'_1] at hi
  have hlast := t.cctrl.stop_le
  show (dataPacket c i).seqNum.toNat = 1 + i
  rw [seqNum_dataPacket c (by omega), Nat.add_comm]

@[simp] theorem sendDATA_windSize (c : Chunk) (t : Transfer) :
    (sendDATA c t).1.cctrl.windSize = t.cctrl.windSize := by
  rw [sendDATA_eq]

/-- The place of the window after a new acknowledgement. -/
theorem index_adjustWindow (t : Transfer) (a : ℕ) :
    (adjustWindow t a).cctrl.index = max t.cctrl.index a := by
  simp only [adjustWindow]
  split_ifs <;> omega

/-- **What an acknowledgement does to a transfer.** -/
theorem Tallied.ackWindow_goesBackN {now : ℕ} {marks : List Mark} {t : Transfer}
    (h : Tallied now marks t) {clock : ℕ → ℕ} (hclock : SoundClock clock) (hnow : now ≤ clock 0)
    (c : Chunk) {a : ℕ} (hlast : a ≠ maxSeqNum) :
    GoesBackN c marks t a (P2P.ackWindow clock c t a).1 (P2P.ackWindow clock c t a).2 := by
  have hlt := (h.ackWindow hclock hnow c hlast).windSize_lt (hclock.reading 2)
  have hdup := h.dupCount_countDup
  have hfew := h.few
  rw [P2P.ackWindow] at hlt ⊢
  by_cases hnew : t.cctrl.begin < a
  · rw [if_pos hnew] at hlt ⊢
    rw [sendDATA_windSize] at hlt
    have hsame := congestionControl_same clock (adjustWindow t a)
    have hindex := hsame.index.trans (index_adjustWindow t a)
    have hbegin : (congestionControl clock (adjustWindow t a)).cctrl.begin = a := hsame.begin
    have hseqs := seqNums_sendDATA c (by rw [hbegin, hindex]; exact le_max_right _ _) hlt
    rw [hindex, hbegin] at hseqs
    refine ⟨fun _ => ⟨?_, ?_⟩, fun ha => ?_, fun ha => ?_, carriesPiece_sendDATA c _⟩
    · rw [sendDATA_begin, hbegin]
    · rw [sendDATA_windSize, hseqs]
    · exact absurd hnew (by omega)
    · exact absurd hnew (by omega)
  · rw [if_neg hnew] at hlt ⊢
    by_cases hthird : a = t.cctrl.begin ∧ repeatsSince marks + 1 = maxDupAcks
    · obtain ⟨ha, hcount⟩ := hthird
      rw [if_pos ha, if_pos (by omega)] at hlt ⊢
      rw [sendDATA_windSize] at hlt
      have hsame := detectedFirstLoss_same clock (goBack (countDup t))
      have hindex : (detectedFirstLoss clock (goBack (countDup t))).cctrl.index =
          t.cctrl.begin := hsame.index
      have hbegin : (detectedFirstLoss clock (goBack (countDup t))).cctrl.begin =
          t.cctrl.begin := hsame.begin
      have hseqs := seqNums_sendDATA c (by rw [hbegin, hindex]) hlt
      rw [hindex, hbegin] at hseqs
      refine ⟨fun h => absurd h hnew, fun _ _ => ⟨?_, ?_⟩, fun _ hno => ?_,
        carriesPiece_sendDATA c _⟩
      · rw [sendDATA_begin, hbegin]
      · rw [sendDATA_windSize, hseqs]
      · exact absurd ⟨ha, hcount⟩ hno
    · -- nothing is sent, whether or not a repetition was counted
      have hstay : ∀ t', t'.cctrl.begin = t.cctrl.begin → t'.cctrl.index = t.cctrl.index →
          t'.cctrl.windSize = t.cctrl.windSize → GoesBackN c marks t a t' [] := by
        intro t' hbegin hindex hwind
        exact ⟨fun h => absurd h hnew, fun ha hcount => absurd ⟨ha, hcount⟩ hthird,
          fun _ _ => ⟨rfl, hbegin, hindex, hwind⟩, fun _ hmem => absurd hmem List.not_mem_nil⟩
      by_cases ha : a = t.cctrl.begin
      · have hnot : ¬ maxDupAcks ≤ (countDup t).cctrl.dupCount := by
          intro hmax
          exact hthird ⟨ha, by omega⟩
        rw [if_pos ha, if_neg hnot]
        exact hstay _ rfl rfl rfl
      · rw [if_neg ha]
        exact hstay _ rfl rfl rfl

theorem Tallied.ackTransfer_goesBackN {now : ℕ} {marks : List Mark} {t : Transfer}
    (h : Tallied now marks t) {clock : ℕ → ℕ} (hclock : SoundClock clock) (hnow : now ≤ clock 0)
    (c : Chunk) {a : ℕ} (hlast : a ≠ maxSeqNum) :
    ∃ t' sent, ackTransfer clock c t a = some (t', sent) ∧ GoesBackN c marks t a t' sent := by
  have hwindow := h.ackWindow_goesBackN hclock hnow c hlast
  exact ⟨_, _, if_neg hlast, hwindow.forward, hwindow.third, hwindow.quiet, hwindow.pieces⟩

/-! ### Runs -/

/-- **The log is right in every state of a run.** -/
theorem allTallied_of_run {shahash : List UInt8 → BinHash} {setup : Setup} {clock : ℕ → ℕ}
    (hclock : SoundClock clock) {junk : ℕ → Packet} {es : List Event} {s : State} {log : Log}
    (h : Machine.run (loggedStep shahash) (peerSetup setup clock junk, fun _ => []) es =
      .ok (s, log)) : SoundClock s.clock ∧ AllTallied s log := by
  have hstart : AllTallied (peerSetup setup clock junk) fun _ => [] := nofun
  have hsound := Machine.run_invariant
    (P := fun sl : State × Log => ServerSound shahash _ _ _ sl.1 ∧ SoundClock sl.1.clock ∧
      AllTallied sl.1 sl.2) ?_
    ⟨⟨serverList_peerSetup setup clock junk, Intact.setup shahash setup clock junk⟩, hclock, hstart⟩
    h
  · exact hsound.2
  · rintro ⟨u, log⟩ e ⟨u', log'⟩ ⟨hsound, hclock, htallied⟩ he
    obtain ⟨hu, rfl⟩ := Machine.withHistory_ok he
    exact ⟨(hsound.step hu).1, (hclock.later (.step hu)).1, htallied.next hclock hsound.1 hu⟩

/-- **The server is a go-back-N sender.**  In every run on a clock that does not go back, with the
log beside it: an acknowledgement of the last piece removes the transfer that is found for its peer
and sends nothing; any other does to this transfer what `GoesBackN` says, to no other transfer
anything, and sends these pieces and nothing else. -/
theorem go_back_n (shahash : List UInt8 → BinHash) (setup : Setup) (clock : ℕ → ℕ)
    (junk : ℕ → Packet) (es : List Event) (s : State) (hclock : Monotone clock)
    (hread : ∀ i, IsReading (clock i))
    (h : Machine.run (step shahash) (peerSetup setup clock junk) es = .ok s) :
    ∃ log, Machine.run (loggedStep shahash) (peerSetup setup clock junk, fun _ => []) es =
        .ok (s, log) ∧
      ∀ (peer i : ℕ) (t : Transfer), s.findOutgoing peer = some (i, t) → ∀ pack : Packet,
        (pack.ackNum.toNat = maxSeqNum →
          (receiveACK s pack peer).outgoing = s.outgoing.eraseIdx i ∧
            (receiveACK s pack peer).trace = s.trace) ∧
        (pack.ackNum.toNat ≠ maxSeqNum → ∃ t' sent,
          (receiveACK s pack peer).outgoing = s.outgoing.set i t' ∧
            (receiveACK s pack peer).trace =
              s.trace ++ sent.map (fun piece => .send t.peer piece (some (s.binHash t.c))) ∧
            GoesBackN (s.chunks.cell t.c) (log t.c) t pack.ackNum.toNat t' sent) := by
  obtain ⟨log, hlog⟩ : ∃ log, Machine.run (loggedStep shahash)
      (peerSetup setup clock junk, fun _ => []) es = .ok (s, log) :=
    Machine.exists_run_withHistory h _
  obtain ⟨hsound, htallied⟩ := allTallied_of_run ⟨hclock, hread⟩ hlog
  refine ⟨log, hlog, fun peer i t hfind pack => ⟨fun hlast => ?_, fun hlast => ?_⟩⟩
  · have hi := (State.findOutgoing_getElem? hfind).1
    have heq : receiveACK s pack peer = s.deleteOutgoing i := by
      rw [receiveACK, hfind]
      dsimp only
      rw [ackTransfer, if_pos hlast]
    rw [heq, State.deleteOutgoing_eq hi]
    exact ⟨rfl, rfl⟩
  · have hmem := List.mem_of_getElem? (State.findOutgoing_getElem? hfind).1
    obtain ⟨t', sent, hack, hgoes⟩ :=
      (htallied t hmem).ackTransfer_goesBackN hsound le_rfl (s.chunks.cell t.c) hlast
    obtain ⟨hpeer, hc, -⟩ := ackTransfer_same hack
    have heq : receiveACK s pack peer =
        State.sendPieces { s.tick 3 with outgoing := s.outgoing.set i t' } t' sent := by
      rw [receiveACK, hfind]
      dsimp only
      rw [hack]
    refine ⟨t', sent, ?_, ?_, hgoes⟩
    · rw [heq]
      rfl
    · rw [heq, State.sendPieces, hpeer, hc]
      rfl

/-- The neighbour asks for the chunk, and acknowledges the first piece three more times. -/
def ackedAgain : List Event :=
  ackedOnce ++ List.replicate 2 (.packet ⟨0, 2222⟩ (ackPacket zeroPacket 1))

theorem go_back_n_ackedAgain : ∃ (s : State) (log : Log) (t t' : Transfer) (sent : List Packet),
    Machine.run (loggedStep fun _ => Vector.replicate binHashSize 0)
      (peerSetup lender (fun _ => 0) fun _ => zeroPacket, fun _ => []) ackedAgain =
        .ok (s, log) ∧
    s.findOutgoing 0 = some (0, t) ∧ repeatsSince (log t.c) = 2 ∧
    (receiveACK s (ackPacket zeroPacket 1) 0).outgoing = s.outgoing.set 0 t' ∧
    sent.map (fun piece => piece.seqNum.toNat) = [2, 3] := by
  obtain ⟨log, hlog, hack⟩ := go_back_n (fun _ => Vector.replicate binHashSize 0) lender
    (fun _ => 0) (fun _ => zeroPacket) ackedAgain _ monotone_const
    (fun _ => ⟨0, 0, by decide, rfl⟩) rfl
  cases hlog
  obtain ⟨t', sent, hout, -, hgoes⟩ := (hack 0 0 _ rfl (ackPacket zeroPacket 1)).2 (by decide)
  refine ⟨_, _, _, t', sent, rfl, rfl, rfl, hout, ?_⟩
  have hwind : [2] = [t'.cctrl.windSize] :=
    congrArg (List.map fun t : Transfer => t.cctrl.windSize) hout
  have hseqs := (hgoes.third rfl rfl).2
  rw [← (List.cons.inj hwind).1] at hseqs
  exact hseqs

end P2P
