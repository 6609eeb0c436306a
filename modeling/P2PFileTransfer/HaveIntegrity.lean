/-
**What is in the have list has the right data** (`validate_chunk` and everything around it).

A chunk enters the have list when its data has the right hash, and the same structure can still be
in a transfer afterwards, or be downloaded once more.  Nothing marks it as read-only: what protects
it is that all of its pieces are marked, so that a packet that arrives for it is not stored.  The
chunks of the set-up are protected by never being missing.

Main definitions:

* `P2P.Intact` — the invariant;
* `P2P.Event.ClientSide` — the events of a client, with data that fits.

Main results:

* `P2P.Intact.moves`, `P2P.Intact.store`, `P2P.Intact.finish`, `P2P.Intact.wantLine` — the invariant
  is kept by everything a step is made of;
* `P2P.Intact.step` — it is kept by every step;
* `P2P.have_integrity` — **the have list is never wrong**, in any run, and the runs of a client
  exist.
-/

import P2PFileTransfer.Arrival

set_option relaxedAutoImplicit false
set_option autoImplicit false

namespace P2P

/-- A chunk that is allocated and not one of the set-up, of which there are `own`. -/
def Fetched (own : ℕ) (s : State) (q : ℕ) : Prop := own ≤ q ∧ q < s.chunks.next

/-- A chunk that is complete and has the right data. -/
def Chunk.Sealed (shahash : List UInt8 → BinHash) (c : Chunk) : Prop :=
  (∀ i < maxSeqNum, c.bit i ≠ 0) ∧ c.Verified shahash

/-- **The invariant**, for the chunks `0, …, own - 1` of the set-up, which were as `start` says, and
for a have list that once was `kept`. -/
structure Intact (shahash : List UInt8 → BinHash) (own : ℕ) (start : ℕ → Chunk) (kept : List ℕ)
    (s : State) : Prop where
  own_le : own ≤ s.chunks.next
  missing : ∀ q ∈ s.missing, Fetched own s q
  incoming : ∀ t ∈ s.incoming, Fetched own s t.c
  /-- The chunks of the set-up have the data they were loaded with, and their hash. -/
  data : ∀ q < own, (s.chunks.cell q).chunkData = (start q).chunkData ∧
    (s.chunks.cell q).binHash = (start q).binHash
  /-- The marks of the others are counted right. -/
  counted : ∀ q, own ≤ q → (s.chunks.cell q).Counted
  /-- What was put before the chunks of the set-up is complete and has the right data. -/
  owned : ∃ fetched, s.haveList = fetched ++ (List.range own).reverse ∧
    ∀ q ∈ fetched, Fetched own s q ∧ (s.chunks.cell q).Sealed shahash
  /-- Nothing leaves the have list. -/
  kept : kept <:+ s.haveList

namespace Intact

variable {shahash : List UInt8 → BinHash} {own : ℕ} {start : ℕ → Chunk} {kept : List ℕ}
  {s s' : State}

/-- A chunk of the have list is a chunk of the set-up, or is complete and has the right data. -/
theorem sealed_of_mem (h : Intact shahash own start kept s) {q : ℕ} (hq : q ∈ s.haveList) :
    q < own ∨ Fetched own s q ∧ (s.chunks.cell q).Sealed shahash := by
  obtain ⟨fetched, heq, hsealed⟩ := h.owned
  rw [heq, List.mem_append, List.mem_reverse, List.mem_range] at hq
  exact hq.symm.imp id (hsealed q)

theorem lt_of_owned (h : Intact shahash own start kept s) {q : ℕ} (hq : q ∈ s.haveList) :
    q < s.chunks.next := by
  rcases h.sealed_of_mem hq with hown | ⟨hf, -⟩
  · exact Nat.lt_of_lt_of_le hown h.own_le
  · exact hf.2

/-- The present have list may be taken for the one that is kept. -/
theorem rebase (h : Intact shahash own start kept s) : Intact shahash own start s.haveList s :=
  { h with kept := List.suffix_refl _ }

/-! ### Moves -/

/-- **Moves keep the invariant.** -/
theorem moves {may : Kind → Prop} (h : Intact shahash own start kept s) (hm : Moves may s s') :
    Intact shahash own start kept s' := by
  have hf := hm.frame
  have hfetched : ∀ {q}, Fetched own s q → Fetched own s' q := fun hq =>
    ⟨hq.1, by rw [hf.chunksNext]; exact hq.2⟩
  refine ⟨by rw [hf.chunksNext]; exact h.own_le, ?_, ?_, ?_, ?_, ?_,
    by rw [hf.haveList]; exact h.kept⟩
  · intro q hq
    rw [hf.missing] at hq
    exact hfetched (h.missing q hq)
  · intro t ht
    exact hfetched (hm.incoming_chunks h.missing h.incoming t ht)
  · intro q hq
    rw [hf.chunkData, ← State.binHash, hf.binHash]
    exact h.data q hq
  · intro q hq
    have hc : (s.chunks.cell q).content.Counted := h.counted q hq
    rw [← hf.content q] at hc
    exact hc
  · obtain ⟨fetched, heq, hsealed⟩ := h.owned
    refine ⟨fetched, hf.haveList.trans heq, fun q hq => ⟨hfetched (hsealed q hq).1, ?_⟩⟩
    have hc : (s.chunks.cell q).content.Sealed shahash := (hsealed q hq).2
    rw [← hf.content q] at hc
    exact hc

/-! ### Data -/

/-- A chunk that is not one of the set-up, and is no complete chunk of the have list, may be
written, as long as its marks are counted. -/
theorem modifyChunk (h : Intact shahash own start kept s) {q : ℕ} (hq : own ≤ q) {f : Chunk → Chunk}
    (hcount : (f (s.chunks.cell q)).Counted)
    (hsealed : q ∈ s.haveList → f (s.chunks.cell q) = s.chunks.cell q) :
    Intact shahash own start kept (s.modifyChunk q f) := by
  refine ⟨h.own_le, h.missing, h.incoming, ?_, ?_, ?_, h.kept⟩
  · intro r hr
    rw [State.modifyChunk, Heap.cell_modify_of_ne _ _ (by omega)]
    exact h.data r hr
  · intro r hr
    rw [State.modifyChunk, Heap.cell_modify]
    split
    · rename_i hrq
      rw [hrq]
      exact hcount
    · exact h.counted r hr
  · obtain ⟨fetched, heq, hc⟩ := h.owned
    refine ⟨fetched, heq, fun r hr => ⟨(hc r hr).1, ?_⟩⟩
    rw [State.modifyChunk, Heap.cell_modify]
    split
    · rename_i hrq
      rw [hrq] at hr ⊢
      rw [hsealed (by rw [heq]; exact List.mem_append_left _ hr)]
      exact (hc q hr).2
    · exact (hc r hr).2

/-- **Storing a piece keeps the invariant**: a chunk of the have list is complete, so the piece is
there already. -/
theorem store (h : Intact shahash own start kept s) {q : ℕ} (hq : own ≤ q) {pack : Packet}
    {c : Chunk} (hc : storeData pack (s.chunks.cell q) = .ok c) :
    Intact shahash own start kept (s.modifyChunk q fun _ => c) := by
  refine h.modifyChunk hq ((h.counted q hq).store hc) fun hhave => ?_
  obtain ⟨hlt, ⟨-, rfl⟩ | ⟨hz, -⟩⟩ := storeData_cases hc
  · rfl
  · rcases h.sealed_of_mem hhave with hown | ⟨-, hbits, -⟩
    · omega
    · exact absurd hz (hbits _ hlt)

/-- Looking whether anything is missing keeps the invariant. -/
theorem checkAllReceived (h : Intact shahash own start kept s) :
    Intact shahash own start kept (checkAllReceived s) := by
  unfold P2P.checkAllReceived
  split
  · exact ⟨h.own_le, h.missing, h.incoming, h.data, h.counted, h.owned, h.kept⟩
  · exact h

/-- A complete chunk with the right data may enter the have list. -/
theorem accept (h : Intact shahash own start kept s) {q : ℕ} (hq : Fetched own s q)
    (hsealed : (s.chunks.cell q).Sealed shahash) (i : ℕ) :
    Intact shahash own start kept (s.accept i q) := by
  refine ⟨h.own_le, fun r hr => h.missing r (List.mem_of_mem_eraseIdx hr), h.incoming, h.data,
    h.counted, ?_, h.kept.trans (List.suffix_cons q s.haveList)⟩
  obtain ⟨fetched, heq, hc⟩ := h.owned
  refine ⟨q :: fetched, by rw [State.accept, heq]; rfl, ?_⟩
  intro r hr
  rcases List.mem_cons.1 hr with rfl | hr
  · exact ⟨hq, hsealed⟩
  · exact hc r hr

/-- **Checking a complete chunk keeps the invariant.** -/
theorem finish (h : Intact shahash own start kept s) {q : ℕ} (hq : Fetched own s q)
    (hdone : chunkBitsAllReceived (s.chunks.cell q) = true) :
    Intact shahash own start kept (finishChunk shahash s q) := by
  obtain ⟨hbad, heq⟩ | ⟨-, -, heq⟩ | ⟨hok, i, r, -, -, -, heq⟩ := finishChunk_cases shahash s q
  · rw [heq]
    refine h.modifyChunk hq.1 (Chunk.counted_discardData _) fun hhave => ?_
    rcases h.sealed_of_mem hhave with hown | ⟨-, -, hok⟩
    · exact absurd hown (Nat.not_lt.2 hq.1)
    · exact absurd hok hbad
  · rw [heq]
    exact h.checkAllReceived
  · rw [heq]
    have hbits := (h.counted q hq.1).complete_iff.1 hdone
    exact (h.accept hq ⟨hbits, hok⟩ i).checkAllReceived

/-! ### Requests of the user -/

/-- **A line of a chunk file keeps the invariant**: it only overwrites an identifier, or it adds an
empty chunk. -/
theorem wantLine (h : Intact shahash own start kept s) (line : UInt32 × HexHash) :
    Intact shahash own start kept (wantLine s line) := by
  unfold P2P.wantLine
  split
  · -- a new chunk: the chunks that exist keep their place
    have hold : ∀ {q}, Fetched own s q →
        (s.chunks.alloc { createChunk line.1.toUInt8 line.2 with id := line.1 }).cell q =
          s.chunks.cell q := fun hq => Heap.cell_alloc_of_lt _ _ hq.2
    refine ⟨Nat.le_succ_of_le h.own_le, ?_, ?_, ?_, ?_, ?_, h.kept⟩
    · intro q hq
      rcases List.mem_cons.1 hq with rfl | hq
      · exact ⟨h.own_le, Nat.lt_succ_self _⟩
      · exact ⟨(h.missing q hq).1, Nat.lt_succ_of_lt (h.missing q hq).2⟩
    · intro t ht
      exact ⟨(h.incoming t ht).1, Nat.lt_succ_of_lt (h.incoming t ht).2⟩
    · intro q hq
      rw [Heap.cell_alloc_of_lt _ _ (Nat.lt_of_lt_of_le hq h.own_le)]
      exact h.data q hq
    · intro q hq
      by_cases hnext : q = s.chunks.next
      · rw [hnext, Heap.cell_alloc_self]
        exact Chunk.counted_createChunk line.1.toUInt8 line.2
      · rw [Heap.cell_alloc_of_ne _ _ hnext]
        exact h.counted q hq
    · obtain ⟨fetched, heq, hc⟩ := h.owned
      refine ⟨fetched, heq, fun q hq => ?_⟩
      obtain ⟨hq', hsealed⟩ := hc q hq
      exact ⟨⟨hq'.1, Nat.lt_succ_of_lt hq'.2⟩, by rw [hold hq']; exact hsealed⟩
  · -- an owned chunk: nothing but its identifier changes
    rename_i q _
    have hproj : ∀ {β : Type} (π : Chunk → β) (_ : ∀ c, π { c with id := line.1 } = π c) (r : ℕ),
        π ((s.modifyChunk q fun c => { c with id := line.1 }).chunks.cell r) =
          π (s.chunks.cell r) := fun π hπ r => Heap.proj_modify _ _ _ π hπ r
    refine ⟨h.own_le, h.missing, h.incoming, ?_, ?_, ?_, h.kept⟩
    · intro r hr
      rw [hproj Chunk.chunkData (fun _ => rfl) r, hproj Chunk.binHash (fun _ => rfl) r]
      exact h.data r hr
    · intro r hr
      have hp := hproj Chunk.Counted (fun _ => rfl) r
      exact hp.mpr (h.counted r hr)
    · obtain ⟨fetched, heq, hc⟩ := h.owned
      refine ⟨fetched, heq, fun r hr => ⟨(hc r hr).1, ?_⟩⟩
      have hp := hproj (Chunk.Sealed shahash) (fun _ => rfl) r
      exact hp.mpr (hc r hr).2

theorem wantLines (h : Intact shahash own start kept s) (lines : List (UInt32 × HexHash)) :
    Intact shahash own start kept (lines.foldl P2P.wantLine s) := by
  induction lines generalizing s with
  | nil => exact h
  | cons line lines ih => exact ih (h.wantLine line)

theorem processGet (h : Intact shahash own start kept s) (chunkFile outputFile : String)
    (lines : List (UInt32 × HexHash)) :
    Intact shahash own start kept (processGet s chunkFile outputFile lines) := by
  have hnames : Intact shahash own start kept
      { s with userGetChunkFile := chunkFile, userOutputFilename := outputFile } :=
    ⟨h.own_le, h.missing, h.incoming, h.data, h.counted, h.owned, h.kept⟩
  exact (hnames.wantLines lines).checkAllReceived.moves (moves_sendWHOHAS _ : Moves Kind.Any _ _)

/-! ### Steps -/

/-- **A piece of data keeps the invariant.** -/
theorem receiveDATA (h : Intact shahash own start kept s) {pack : Packet} {peer : ℕ}
    (hr : receiveDATA shahash s pack peer = .ok s') : Intact shahash own start kept s' := by
  obtain ⟨-, rfl⟩ | ⟨i, t, c, hfind, hstore, s₁, hs₁, hend⟩ := receiveDATA_cases hr
  · exact h
  · have ht := h.incoming t (mem_of_nodeFind hfind)
    have hmoves : Moves Kind.Any (s.modifyChunk t.c fun _ => c) s₁ := hs₁ ▸ moves_sendACK _ _ _
    have h₁ := (h.store ht.1 hstore).moves hmoves
    rcases hend with ⟨-, rfl⟩ | ⟨hdone, rfl⟩
    · exact h₁
    · have hf := hmoves.frame
      refine (h₁.finish ⟨ht.1, by rw [hf.chunksNext]; exact ht.2⟩ ?_).moves
        (moves_afterFinish trivial trivial _ i : Moves Kind.Any _ _)
      rw [chunkBitsAllReceived, hf.bitsCount, State.modifyChunk, Heap.cell_modify_self]
      exact hdone

/-- **Every step keeps the invariant.** -/
theorem step (h : Intact shahash own start kept s) {e : Event} (he : step shahash s e = .ok s') :
    Intact shahash own start kept s' := by
  obtain ⟨chunkFile, outputFile, lines, -, rfl⟩ | ⟨_, pack, peer, -, -, -, hr⟩ | hmoves :=
    step_cases he
  · exact h.processGet chunkFile outputFile lines
  · exact h.receiveDATA hr
  · exact h.moves hmoves

/-- The invariant holds after set-up. -/
theorem setup (shahash : List UInt8 → BinHash) (setup : Setup) (clock : ℕ → ℕ)
    (junk : ℕ → Packet) :
    Intact shahash setup.own.length
      (peerSetup setup clock junk).chunks.cell (peerSetup setup clock junk).haveList
      (peerSetup setup clock junk) := by
  refine ⟨?_, fun _ hq => absurd hq List.not_mem_nil, fun _ ht => absurd ht List.not_mem_nil,
    fun _ _ => ⟨rfl, rfl⟩, ?_, ⟨[], rfl, fun _ hq => absurd hq List.not_mem_nil⟩,
    List.suffix_refl _⟩
  · simp [peerSetup]
  · intro q hq
    have hcell : (peerSetup setup clock junk).chunks.cell q =
        createChunk 0 (Vector.replicate hexHashSize 0) := by
      have hlen : (setup.own.map (ownChunk setup.master)).length ≤ q := by
        rw [List.length_map]
        exact hq
      simp only [peerSetup, Heap.ofList, List.getD, List.getElem?_eq_none hlen, Option.getD_none]
    rw [hcell]
    exact Chunk.counted_createChunk 0 _

end Intact

/-! ### Runs -/

/-- The events of a client: everything but what only a server gets, and data that fits. -/
def Event.ClientSide : Event → Prop
  | .userGet _ _ _ => True
  | .packet _ pack =>
      pack.type = .ihave ∨ pack.type = .denied ∨ pack.type = .data ∧ pack.InBounds
  | .serverTimeout => True
  | .clientTimeout => True

/-- Data that fits is handled without a fault. -/
theorem receiveDATA_ok {pack : Packet} (h : pack.InBounds) (shahash : List UInt8 → BinHash)
    (s : State) (peer : ℕ) : ∃ s', receiveDATA shahash s pack peer = .ok s' := by
  unfold receiveDATA
  cases s.findIncoming peer with
  | none => exact ⟨s, rfl⟩
  | some node =>
      obtain ⟨c, hc⟩ := storeData_ok h (s.chunks.cell node.2.c)
      simp only [hc]
      split
      · exact ⟨_, rfl⟩
      · exact ⟨_, rfl⟩

/-- The events of a client are possible in every state. -/
theorem step_clientSide {e : Event} (he : e.ClientSide) (shahash : List UInt8 → BinHash)
    (s : State) : ∃ s', step shahash s e = .ok s' := by
  cases e with
  | packet src pack =>
      simp only [step]
      cases findPeer s src with
      | none => exact ⟨s, rfl⟩
      | some peer =>
          rcases he with ht | ht | ⟨ht, hb⟩
          · exact ⟨withSender s src (receiveIHAVE s pack), by simp only [receivePacket, ht]⟩
          · exact ⟨withSender s src (receiveDENIED s), by simp only [receivePacket, ht]⟩
          · obtain ⟨s', hs'⟩ := receiveDATA_ok hb shahash s peer
            exact ⟨s', by simp only [receivePacket, ht]; exact hs'⟩
  | _ => exact ⟨_, rfl⟩

/-- **The have list is never wrong.**  A run from set-up is in `s₁` at some time and in `s₂` later.
What `validate_chunk` has put into the have list by then, before the chunks of the set-up, has data
with the right hash later, and the chunks of the set-up have the data they were loaded with; and
every sequence of events of a client is a run. -/
theorem have_integrity (shahash : List UInt8 → BinHash) (setup : Setup) (clock : ℕ → ℕ)
    (junk : ℕ → Packet) (es₁ es₂ : List Event) :
    (∀ s₁ s₂, Machine.run (step shahash) (peerSetup setup clock junk) es₁ = .ok s₁ →
      Machine.run (step shahash) s₁ es₂ = .ok s₂ →
      (∀ q < setup.own.length, (s₂.chunks.cell q).chunkData =
          ((peerSetup setup clock junk).chunks.cell q).chunkData) ∧
      ∃ fetched, s₁.haveList = fetched ++ (peerSetup setup clock junk).haveList ∧
        ∀ q ∈ fetched, q ∈ s₂.haveList ∧ (s₂.chunks.cell q).Verified shahash) ∧
    ((∀ e ∈ es₁, e.ClientSide) →
      ∃ s, Machine.run (step shahash) (peerSetup setup clock junk) es₁ = .ok s) := by
  constructor
  · intro s₁ s₂ hs₁ hs₂
    have h₁ := Machine.run_invariant
      (fun _ _ _ h he => Intact.step h he) (Intact.setup shahash setup clock junk) hs₁
    -- from here on the have list of the first state is the one that is kept
    have h₂ := Machine.run_invariant (fun _ _ _ h he => Intact.step h he) h₁.rebase hs₂
    obtain ⟨fetched, heq, hc⟩ := h₁.owned
    refine ⟨fun q hq => (h₂.data q hq).1, fetched, heq, fun q hq => ?_⟩
    have hmem : q ∈ s₂.haveList :=
      h₂.kept.subset (by rw [heq]; exact List.mem_append_left _ hq)
    refine ⟨hmem, ?_⟩
    rcases h₂.sealed_of_mem hmem with hown | ⟨-, -, hok⟩
    · exact absurd hown (Nat.not_lt.2 (hc q hq).1.1)
    · exact hok
  · intro hes
    have hruns : ∃ s,
        Machine.run (step shahash) (peerSetup setup clock junk) es₁ = .ok s ∧ True := by
      refine Machine.run_total (fun s _ e he => ?_) trivial
      obtain ⟨s', hs'⟩ := step_clientSide (hes e he) shahash s
      exact ⟨s', hs', trivial⟩
    obtain ⟨s, hs, -⟩ := hruns
    exact ⟨s, hs⟩

/-- A chunk that was asked for has arrived: it is in the have list, with the right data. -/
theorem have_integrity_arrives : ∃ s, Machine.run (step headHash)
      (peerSetup twoPeers (fun _ => 0) fun _ => zeroPacket)
      (.userGet "a" "b" [(0, onesHex)] :: zeroArrives) = .ok s ∧
    s.haveList = [0] ∧ (s.chunks.cell 0).Verified headHash := by
  obtain ⟨hall, hruns⟩ := have_integrity headHash twoPeers (fun _ => 0) (fun _ => zeroPacket)
    (.userGet "a" "b" [(0, onesHex)] :: zeroArrives) []
  obtain ⟨s, hs⟩ := hruns (by
    intro e he
    rcases List.mem_cons.1 he with rfl | he
    · trivial
    · obtain ⟨pack, rfl, htype⟩ := mem_zeroArrives he
      exact htype.imp id Or.inr)
  obtain ⟨s', o, hrun, hhave, -⟩ := run_zeroArrives
  obtain rfl : s' = s := Except.ok.inj (hrun.symm.trans hs)
  -- nothing is owned at set-up, so the chunk is one that was put into the have list
  obtain ⟨-, fetched, heq, hok⟩ := hall s' s' hs rfl
  have hfetched : fetched = [0] := by
    rw [← hhave, heq]
    exact (List.append_nil fetched).symm
  exact ⟨s', hs, hhave, (hok 0 (by rw [hfetched]; exact List.mem_singleton_self 0)).2⟩

end P2P
