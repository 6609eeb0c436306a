/-
**What goes into an output file was checked** (`construct_data`, `validate_chunk`).

The output file is written when nothing is missing any more.  That every wanted chunk has been
checked by then rests on the missing list losing a chunk only to the have list; but
`validate_chunk` looks for the node to remove by the hash of the chunk, and two missing chunks may
have the same one.  As long as the node it finds is that of the chunk it checked, nothing is output
that was not checked; a run of 528 events shows that otherwise it can be.

Main definitions:

* `P2P.AcceptsItself` — the condition on a step;
* `P2P.Served` — the invariant: a wanted chunk is missing or owned.

Main results:

* `P2P.Served.finish`, `P2P.Served.step`;
* `P2P.outputs_verified` — **what is output has the right hash**, in every run that meets the
  condition;
* `P2P.outputs_unverified` — a run that does not.
-/

import P2PFileTransfer.HaveIntegrity

set_option relaxedAutoImplicit false
set_option autoImplicit false

namespace P2P

/-- The chunks of an output file all had the right data. -/
def Effect.Verified (shahash : List UInt8 → BinHash) : Effect → Prop
  | .send _ _ _ => True
  | .output _ _ _ chunks => ∀ c ∈ chunks, c.Verified shahash

/-- Everything that was output so far had the right data. -/
def State.OutputsVerified (shahash : List UInt8 → BinHash) (s : State) : Prop :=
  ∀ e ∈ s.trace, e.Verified shahash

/-- The condition on a step: when a packet completes a chunk with the right data, the first missing
chunk with its hash, if there is one, is that chunk. -/
def AcceptsItself (shahash : List UInt8 → BinHash) (s : State) : Event → Prop
  | .packet src pack =>
      ∀ peer i t c, findPeer s src = some peer → pack.type = .data →
        s.findIncoming peer = some (i, t) → storeData pack (s.chunks.cell t.c) = .ok c →
        chunkBitsAllReceived c = true → c.Verified shahash →
        ∀ j r, nodeFind (fun r => compareChunkByBinHash (s.chunks.cell r) (s.binHash t.c))
          s.missing = some (j, r) → r = t.c
  | _ => True

/-- **The invariant**: a wanted chunk is missing or owned, and the outputs had the right data. -/
structure Served (shahash : List UInt8 → BinHash) (own : ℕ) (start : ℕ → Chunk) (s : State) :
    Prop where
  intact : Intact shahash own start [] s
  wanted : ∀ q ∈ s.wanted, q ∈ s.missing ∨ q ∈ s.haveList
  outputs : s.OutputsVerified shahash

theorem outputsVerified_iff {shahash : List UInt8 → BinHash} {s : State} :
    s.OutputsVerified shahash ↔ ∀ e ∈ s.outputs, e.Verified shahash := by
  constructor
  · exact fun h e he => h e (List.mem_of_mem_filter he)
  · intro h e he
    cases e with
    | send dest pack about => trivial
    | output file chunkFile image chunks => exact h _ (List.mem_filter.2 ⟨he, rfl⟩)

/-- Removing a node of a list removes nothing but its data. -/
theorem mem_eraseIdx_or_eq {α : Type*} {l : List α} {i : ℕ} {a b : α} (ha : a ∈ l)
    (hi : l[i]? = some b) : a = b ∨ a ∈ l.eraseIdx i := by
  obtain ⟨j, hj⟩ := List.mem_iff_getElem?.1 ha
  by_cases hji : j = i
  · rw [hji, hi] at hj
    exact Or.inl (Option.some.inj hj).symm
  · exact Or.inr (List.mem_eraseIdx_iff_getElem?.2 ⟨j, hji, hj⟩)

namespace Served

variable {shahash : List UInt8 → BinHash} {own : ℕ} {start : ℕ → Chunk} {s s' : State}

theorem moves {may : Kind → Prop} (h : Served shahash own start s) (hm : Moves may s s') :
    Served shahash own start s' := by
  have hf := hm.frame
  refine ⟨h.intact.moves hm, ?_, ?_⟩
  · intro q hq
    rw [hf.wanted] at hq
    rw [hf.missing, hf.haveList]
    exact h.wanted q hq
  · rw [outputsVerified_iff, hf.outputs]
    exact outputsVerified_iff.1 h.outputs

/-- An owned chunk has the right data, if the chunks of the set-up have. -/
theorem verified_of_owned (h : Served shahash own start s)
    (hstart : ∀ q < own, (start q).Verified shahash) {q : ℕ} (hq : q ∈ s.haveList) :
    (s.chunks.cell q).Verified shahash := by
  rcases h.intact.sealed_of_mem hq with hown | ⟨-, -, hok⟩
  · obtain ⟨hdata, hhash⟩ := h.intact.data q hown
    rw [Chunk.Verified, hdata, hhash]
    exact hstart q hown
  · exact hok

/-- **Writing the output file**: nothing is missing, so every wanted chunk is owned. -/
theorem checkAllReceived (h : Served shahash own start s)
    (hstart : ∀ q < own, (start q).Verified shahash) :
    Served shahash own start (checkAllReceived s) := by
  refine ⟨h.intact.checkAllReceived, ?_, ?_⟩
  · unfold P2P.checkAllReceived
    split
    · exact fun _ hq => absurd hq List.not_mem_nil
    · exact h.wanted
  · unfold P2P.checkAllReceived
    split
    · rename_i hnone
      -- an output made before, or the one that is made now
      intro e he
      rcases List.mem_append.1 he with he | he
      · exact h.outputs e he
      · rw [List.mem_singleton.1 he]
        intro c hc
        obtain ⟨q, hq, rfl⟩ := List.mem_map.1 hc
        refine h.verified_of_owned hstart ?_
        rcases h.wanted q hq with hmiss | hhave
        · rw [hnone] at hmiss
          exact absurd hmiss List.not_mem_nil
        · exact hhave
    · exact h.outputs

/-- A step that leaves the lists and the outputs alone keeps the invariant with the rest. -/
theorem of_lists (h : Served shahash own start s) (hI : Intact shahash own start [] s')
    (hw : s'.wanted = s.wanted) (hm : s'.missing = s.missing) (hh : s'.haveList = s.haveList)
    (ht : s'.trace = s.trace) : Served shahash own start s' := by
  refine ⟨hI, ?_, ?_⟩
  · intro q hq
    rw [hm, hh]
    exact h.wanted q (by rw [← hw]; exact hq)
  · intro e he
    exact h.outputs e (by rw [← ht]; exact he)

/-- A line of a chunk file makes a chunk wanted that is missing or owned. -/
theorem wantLine (h : Served shahash own start s) (line : UInt32 × HexHash) :
    Served shahash own start (wantLine s line) := by
  refine ⟨h.intact.wantLine line, ?_, ?_⟩
  · unfold P2P.wantLine
    split
    · intro q hq
      rcases List.mem_cons.1 hq with rfl | hq
      · exact Or.inl (List.mem_cons_self ..)
      · exact (h.wanted q hq).imp (List.mem_cons_of_mem _) id
    · rename_i r hfind
      intro q hq
      rcases List.mem_cons.1 hq with rfl | hq
      · exact Or.inr (mem_of_nodeFind hfind)
      · exact h.wanted q hq
  · unfold P2P.wantLine
    split <;> exact h.outputs

theorem wantLines (h : Served shahash own start s) (lines : List (UInt32 × HexHash)) :
    Served shahash own start (lines.foldl P2P.wantLine s) := by
  induction lines generalizing s with
  | nil => exact h
  | cons line lines ih => exact ih (h.wantLine line)

/-- **Checking a complete chunk**, when the missing chunk that gives way is the chunk itself: what
was missing is missing still, or owned now. -/
theorem finish (h : Served shahash own start s) (hstart : ∀ q < own, (start q).Verified shahash)
    {q : ℕ} (hq : Fetched own s q) (hdone : chunkBitsAllReceived (s.chunks.cell q) = true)
    (hself : (s.chunks.cell q).Verified shahash → ∀ j r, nodeFind
      (fun r => compareChunkByBinHash (s.chunks.cell r) (s.binHash q)) s.missing = some (j, r) →
        r = q) :
    Served shahash own start (finishChunk shahash s q) := by
  have hI := h.intact.finish hq hdone
  obtain ⟨-, heq⟩ | ⟨-, -, heq⟩ | ⟨hok, i, r, hi, hhash, hbefore, heq⟩ :=
    finishChunk_cases shahash s q
  · rw [heq] at hI ⊢
    exact h.of_lists hI rfl rfl rfl rfl
  · rw [heq]
    exact h.checkAllReceived hstart
  · -- the missing chunk that gives way is the one that was checked
    have hrq : r = q := by
      refine hself hok i r (nodeFind_eq_some_iff.2 ⟨hi, compareChunkByBinHash_iff.2 hhash, ?_⟩)
      intro r' hr'
      cases hc : compareChunkByBinHash (s.chunks.cell r') (s.binHash q) with
      | false => rfl
      | true => exact absurd (compareChunkByBinHash_iff.1 hc) (hbefore r' hr')
    have hbits := (h.intact.counted q hq.1).complete_iff.1 hdone
    rw [heq]
    refine checkAllReceived ⟨h.intact.accept hq ⟨hbits, hok⟩ i, ?_, h.outputs⟩ hstart
    intro q' hq'
    rcases h.wanted q' hq' with hmiss | hhave
    · rcases mem_eraseIdx_or_eq hmiss hi with rfl | hmiss
      · rw [hrq]
        exact Or.inr (List.mem_cons_self ..)
      · exact Or.inl hmiss
    · exact Or.inr (List.mem_cons_of_mem _ hhave)

/-- **A piece of data keeps the invariant**, when it meets the condition. -/
theorem receiveDATA (h : Served shahash own start s)
    (hstart : ∀ q < own, (start q).Verified shahash) {pack : Packet} {peer : ℕ}
    (hself : ∀ i t c, s.findIncoming peer = some (i, t) →
      storeData pack (s.chunks.cell t.c) = .ok c → chunkBitsAllReceived c = true →
      c.Verified shahash → ∀ j r,
        nodeFind (fun r => compareChunkByBinHash (s.chunks.cell r) (s.binHash t.c)) s.missing =
          some (j, r) → r = t.c)
    (hr : receiveDATA shahash s pack peer = .ok s') : Served shahash own start s' := by
  obtain ⟨-, rfl⟩ | ⟨i, t, c, hfind, hstore, s₁, hs₁, hend⟩ := receiveDATA_cases hr
  · exact h
  · have ht := h.intact.incoming t (mem_of_nodeFind hfind)
    have hmoves : Moves Kind.Any (s.modifyChunk t.c fun _ => c) s₁ := hs₁ ▸ moves_sendACK _ _ _
    have h₁ : Served shahash own start s₁ :=
      (h.of_lists (h.intact.store ht.1 hstore) rfl rfl rfl rfl).moves hmoves
    rcases hend with ⟨-, rfl⟩ | ⟨hdone, rfl⟩
    · exact h₁
    · -- the condition speaks of the state before the packet: the answer changes nothing it reads
      have hf := hmoves.frame
      have hcell : ∀ {β : Type} (π : Chunk → β), (∀ a : Chunk, π a.content = π a) →
          π (s₁.chunks.cell t.c) = π c := by
        intro β π hπ
        rw [← hπ, hf.content, hπ, State.modifyChunk, Heap.cell_modify_self]
      have hbin : ∀ r, s₁.binHash r = s.binHash r := by
        intro r
        rw [hf.binHash, State.binHash, State.modifyChunk, Heap.cell_modify]
        split
        · rename_i hrt
          rw [hrt]
          obtain ⟨-, ⟨-, rfl⟩ | ⟨-, -, -, rfl⟩⟩ := storeData_cases hstore <;> rfl
        · rfl
      refine (h₁.finish hstart ⟨ht.1, by rw [hf.chunksNext]; exact ht.2⟩ ?_ ?_).moves
        (moves_afterFinish trivial trivial _ i : Moves Kind.Any _ _)
      · rw [chunkBitsAllReceived, hcell Chunk.bitsCount fun _ => rfl]
        exact hdone
      · intro hok j r hfirst
        have hv := hcell (Chunk.Verified shahash) fun _ => rfl
        rw [hv] at hok
        refine hself i t c hfind hstore hdone hok j r ?_
        rw [hf.missing] at hfirst
        have hsame : (fun r => compareChunkByBinHash (s₁.chunks.cell r) (s₁.binHash t.c)) =
            fun r => compareChunkByBinHash (s.chunks.cell r) (s.binHash t.c) := by
          funext r
          exact Bool.eq_iff_iff.2 (by
            rw [compareChunkByBinHash_iff, compareChunkByBinHash_iff]
            exact ⟨fun hr => by rw [← State.binHash, ← hbin, ← hbin]; exact hr,
              fun hr => by rw [← State.binHash, hbin, hbin]; exact hr⟩)
        rw [hsame] at hfirst
        exact hfirst

/-- **Every step that meets the condition keeps the invariant.** -/
theorem step (h : Served shahash own start s) (hstart : ∀ q < own, (start q).Verified shahash)
    {e : Event} (hself : AcceptsItself shahash s e) (he : step shahash s e = .ok s') :
    Served shahash own start s' := by
  obtain ⟨chunkFile, outputFile, lines, -, rfl⟩ | ⟨src, pack, peer, rfl, hpeer, hdata, hr⟩ |
    hmoves := step_cases he
  · have hnames : Served shahash own start
        { s with userGetChunkFile := chunkFile, userOutputFilename := outputFile } :=
      h.of_lists ⟨h.intact.own_le, h.intact.missing, h.intact.incoming, h.intact.data,
        h.intact.counted, h.intact.owned, h.intact.kept⟩ rfl rfl rfl rfl
    exact ((hnames.wantLines lines).checkAllReceived hstart).moves
      (moves_sendWHOHAS _ : Moves Kind.Any _ _)
  · refine h.receiveDATA hstart (fun i t c hf hs hd hv => ?_) hr
    exact hself peer i t c hpeer hdata hf hs hd hv
  · exact h.moves hmoves

end Served

/-- **What is output has the right hash**, in every run from set-up in which a chunk that is
validated is always the first missing chunk with its hash, if the chunks of the set-up have the
right data. -/
theorem outputs_verified (shahash : List UInt8 → BinHash) (setup : Setup) (clock : ℕ → ℕ)
    (junk : ℕ → Packet) (hown : ∀ line ∈ setup.own, (ownChunk setup.master line).Verified shahash)
    (es : List Event) (s : State)
    (hself : Machine.Along (step shahash) (AcceptsItself shahash) (peerSetup setup clock junk) es)
    (hrun : Machine.run (step shahash) (peerSetup setup clock junk) es = .ok s) :
    s.OutputsVerified shahash := by
  have hstart : ∀ q < setup.own.length,
      ((peerSetup setup clock junk).chunks.cell q).Verified shahash := by
    intro q hq
    have hlen : q < (setup.own.map (ownChunk setup.master)).length := by
      rw [List.length_map]
      exact hq
    have hcell : (peerSetup setup clock junk).chunks.cell q =
        ownChunk setup.master setup.own[q] := by
      simp only [peerSetup, Heap.ofList, List.getD, List.getElem?_eq_getElem hlen,
        Option.getD_some, List.getElem_map]
    rw [hcell]
    exact hown _ (List.getElem_mem hq)
  have h₀ : Served shahash setup.own.length (peerSetup setup clock junk).chunks.cell
      (peerSetup setup clock junk) := by
    refine ⟨{ Intact.setup shahash setup clock junk with kept := List.nil_suffix }, ?_, ?_⟩
    · exact fun _ hq => absurd hq List.not_mem_nil
    · exact fun _ he => absurd he List.not_mem_nil
  exact (Machine.run_invariant_along (fun _ _ _ h hg he => Served.step h hstart hg he) h₀ hself
    hrun).outputs

/-- A peer that owns a chunk of zeros. -/
def zerosOwner : Setup := ⟨[(1, ⟨0, 1111⟩)], 1, 1, [(0, onesHex)], none⟩

/-- A request for a chunk that is owned is answered at once. -/
theorem outputs_verified_owned : ∃ s, Machine.run (step headHash)
      (peerSetup zerosOwner (fun _ => 0) fun _ => zeroPacket)
      [.userGet "a" "b" [(0, onesHex)]] = .ok s ∧
    s.outputs.length = 1 ∧ s.OutputsVerified headHash := by
  have hown : ∀ line ∈ zerosOwner.own, (ownChunk zerosOwner.master line).Verified headHash := by
    intro line hl
    rw [List.mem_singleton.1 hl, Chunk.Verified, headHash, if_neg]
    · rfl
    · simp only [ownChunk, zerosOwner, createChunk, Vector.toList_replicate, btChunkSize_eq,
        List.head?_replicate]
      decide
  exact ⟨_, rfl, rfl, outputs_verified headHash zerosOwner (fun _ => 0) (fun _ => zeroPacket) hown
    [.userGet "a" "b" [(0, onesHex)]] _ ⟨trivial, fun _ _ => trivial⟩ rfl⟩

/-! ### A run that does not meet the condition -/

/-- A piece with the single byte `1`. -/
def unitPacket (n : ℕ) : Packet :=
  { zeroPacket with
    type := .data
    headerLen := 16
    packetLen := 17
    seqNum := UInt32.ofNat n
    data := fun _ => 1 }

/-- The offer of the chunk with the hash of zeros. -/
def offerPacket : Packet :=
  { zeroPacket with
    type := .ihave
    headerLen := 16
    packetLen := 40
    hashNum := 1
    hashList := fun _ => binHashOf zeroHex }

/-- The chunk is requested, the other peer offers it, and it is requested once more. -/
def overlapping : List Event :=
  [.userGet "a" "b" [(0, zeroHex)], .packet ⟨0, 2222⟩ offerPacket,
    .userGet "c" "d" [(0, zeroHex)]]

/-- The first `k` pieces of the chunk at `0` have arrived; the chunk at `1`, requested later, has
the same hash and comes first in the missing list. -/
structure Midway (k : ℕ) (s : State) : Prop where
  sender : findPeer s ⟨0, 2222⟩ = some 1
  incoming : s.incoming.map Transfer.ends = [(1, 0)]
  missing : s.missing = [1, 0]
  wanted : s.wanted = [1, 0]
  hash₀ : s.binHash 0 = binHashOf zeroHex
  hash₁ : s.binHash 1 = binHashOf zeroHex
  counted : (s.chunks.cell 0).Counted
  received : ∀ i, i ∈ (s.chunks.cell 0).received ↔ i < k
  first : 0 < k → (s.chunks.cell 0).chunkData.toList.head? = some 1
  offered : (s.chunks.cell 0).peer = [1]
  other : (s.chunks.cell 1).chunkData = Vector.replicate btChunkSize 0

theorem midway_zero : ∃ s, Machine.run (step headHash)
      (peerSetup twoPeers (fun _ => 0) fun _ => zeroPacket) overlapping = .ok s ∧ Midway 0 s := by
  refine ⟨_, rfl, ⟨rfl, rfl, rfl, rfl, rfl, rfl, Chunk.counted_createChunk 0 zeroHex, fun i => ?_,
    fun h => absurd h (Nat.lt_irrefl 0), rfl, rfl⟩⟩
  have hnone : i ∉ (createChunk 0 zeroHex).received := by
    rw [Chunk.received_createChunk]
    exact Finset.notMem_empty i
  exact ⟨fun h => absurd h hnone, fun h => absurd h (Nat.not_lt_zero i)⟩

/-- A piece with one byte is stored, and only the first one writes the first byte. -/
theorem storeData_unitPacket {k : ℕ} (hk : k < maxSeqNum) {c : Chunk}
    (hfirst : 0 < k → c.chunkData.toList.head? = some 1) :
    ∃ c', storeData (unitPacket (k + 1)) c = .ok c' ∧ c'.received = insert k c.received ∧
      c'.binHash = c.binHash ∧ c'.peer = c.peer ∧
      (k ∉ c.received → c'.chunkData.toList.head? = some 1) ∧
      (k ∈ c.received → c' = c) := by
  have hm := maxSeqNum_eq
  have hseq : (unitPacket (k + 1)).seqNum.toNat = k + 1 := by
    simp only [unitPacket, UInt32.toNat_ofNat']
    omega
  have hle : (unitPacket (k + 1)).headerLen ≤ (unitPacket (k + 1)).packetLen :=
    (by decide : (16 : UInt16) ≤ 17)
  have hcopy : (unitPacket (k + 1)).copyLen = 1 := Packet.copyLen_of_le hle
  have hb : (unitPacket (k + 1)).InBounds := by
    refine ⟨by omega, by omega, ?_⟩
    rw [hcopy, hseq, dataSize_eq, btChunkSize_eq]
    omega
  have hidx : storeIndex (unitPacket (k + 1)) = k := by
    rw [storeIndex_of_le hb.one_le, hseq, Nat.add_sub_cancel]
  obtain ⟨c', hc'⟩ := storeData_ok hb c
  have hrec := received_storeData hc'
  rw [hidx] at hrec
  obtain ⟨-, ⟨hne, heq⟩ | ⟨hz, -, _, heq⟩⟩ := storeData_cases hc'
  · rw [hidx] at hne
    have hmem : k ∈ c.received := Chunk.mem_received.2 ⟨hk, hne⟩
    refine ⟨c', hc', hrec, by rw [heq], by rw [heq], fun hn => absurd hmem hn, fun _ => heq⟩
  · rw [hidx] at hz
    have hnot : k ∉ c.received := fun hmem => (Chunk.mem_received.1 hmem).2 hz
    refine ⟨c', hc', hrec, by rw [heq], by rw [heq], fun _ => ?_, fun hmem => absurd hmem hnot⟩
    have hsize := btChunkSize_pos
    have hbyte : ∀ v : ChunkData, v.toList.head? = some v[0] := by
      intro v
      rw [List.head?_eq_getElem?, Vector.getElem?_toList, Vector.getElem?_eq_getElem hsize]
    rw [heq, hbyte]
    have hlen : (payload (unitPacket (k + 1))).length = 1 := by
      rw [payload, Block.length_window, hcopy]
    rcases Nat.eq_zero_or_pos k with rfl | hpos
    · rw [Block.getElem_blit_of_mem btChunkSize_pos (by rw [hidx]; exact Nat.le_of_eq rfl)
        (by rw [hlen, hidx]; decide)]
      simp only [payload, Block.getElem_window]
      rfl
    · rw [Block.getElem_blit_of_lt btChunkSize_pos (by rw [hidx, dataSize_eq]; omega), ← hbyte]
      exact hfirst hpos

/-- **One piece more**: while pieces are missing, the peer stores and answers. -/
theorem midway_step {k : ℕ} (hk : k + 1 < maxSeqNum) {s : State} (h : Midway k s) :
    ∃ s', step headHash s (.packet ⟨0, 2222⟩ (unitPacket (k + 1))) = .ok s' ∧
      Midway (k + 1) s' := by
  obtain ⟨t, hfind, htc⟩ := findIncoming_of_ends h.incoming
  obtain ⟨c, hstore, hrec, hbin, hpeer, hhead, -⟩ := storeData_unitPacket (by omega) h.first
  have hnot : k ∉ (s.chunks.cell 0).received := fun hmem =>
    absurd ((h.received k).1 hmem) (Nat.lt_irrefl k)
  have hmem : ∀ i, i ∈ c.received ↔ i < k + 1 := by
    intro i
    rw [hrec, Finset.mem_insert, h.received]
    omega
  have hcount := h.counted.store hstore
  have hopen : chunkBitsAllReceived c = false := by
    cases hdone : chunkBitsAllReceived c with
    | false => rfl
    | true =>
        have hlast := hcount.complete_iff.1 hdone (k + 1) hk
        have := (hmem (k + 1)).1 (Chunk.mem_received.2 ⟨hk, hlast⟩)
        omega
  rw [← htc] at hstore
  have hdata := receiveDATA_of_store headHash hfind hstore
  rw [hopen, if_neg Bool.false_ne_true, htc] at hdata
  refine ⟨_, by simp only [step, h.sender]; exact hdata, ?_⟩
  obtain ⟨-, hpeers, hmissing, hwanted, hends⟩ :=
    sendACK_same (s.modifyChunk 0 fun _ => c) 1 (dataFindLargestConsecSeq c)
  have hcell₀ := cell_sendACK_self s 0 1 (dataFindLargestConsecSeq c) c
  have hcell₁ := cell_sendACK_of_ne s (by decide : 1 ≠ 0) 1 (dataFindLargestConsecSeq c) c
  refine ⟨?_, ?_, ?_, ?_, ?_, ?_, ?_, ?_, ?_, ?_, ?_⟩
  · unfold findPeer
    rw [hpeers]
    exact h.sender
  · rw [hends]
    exact h.incoming
  · rw [hmissing]
    exact h.missing
  · rw [hwanted]
    exact h.wanted
  · rw [State.binHash, hcell₀, hbin]
    exact h.hash₀
  · rw [State.binHash, hcell₁]
    exact h.hash₁
  · rw [hcell₀]
    exact hcount
  · rw [hcell₀]
    exact hmem
  · rw [hcell₀]
    exact fun _ => hhead hnot
  · rw [hcell₀, hpeer]
    exact h.offered
  · rw [hcell₁]
    exact h.other

/-- Any number of pieces short of all. -/
theorem midway_run {s : State} (h : Midway 0 s) {k : ℕ} (hk : k < maxSeqNum) :
    ∃ s', Machine.run (step headHash) s
        ((List.range k).map fun i => .packet ⟨0, 2222⟩ (unitPacket (i + 1))) = .ok s' ∧
      Midway k s' := by
  induction k with
  | zero => exact ⟨s, rfl, h⟩
  | succ k ih =>
      obtain ⟨s', hrun, h'⟩ := ih (by omega)
      obtain ⟨s'', hstep, h''⟩ := midway_step hk h'
      refine ⟨s'', ?_, h''⟩
      rw [List.range_succ, List.map_append, Machine.run_append _ hrun, List.map_singleton,
        Machine.run_cons_ok _ hstep]
      rfl

/-- The chunk at `0` is complete and owned, but it is the chunk at `1` that left the missing list; a
new transfer for the chunk at `0` is running. -/
structure Stranded (s : State) : Prop where
  sender : findPeer s ⟨0, 2222⟩ = some 1
  incoming : s.incoming.map Transfer.ends = [(1, 0)]
  missing : s.missing = [0]
  wanted : s.wanted = [1, 0]
  hash₀ : s.binHash 0 = binHashOf zeroHex
  hash₁ : s.binHash 1 = binHashOf zeroHex
  complete : chunkBitsAllReceived (s.chunks.cell 0) = true
  stored : 0 ∈ (s.chunks.cell 0).received
  first : (s.chunks.cell 0).chunkData.toList.head? = some 1
  other : (s.chunks.cell 1).chunkData = Vector.replicate btChunkSize 0

/-- A client with one missing chunk and one available peer for it opens a transfer. -/
theorem ends_getChunkData {s : State} {p q : ℕ} (hm : s.missing = [q]) (hin : s.incoming = [])
    (hp : (s.chunks.cell q).peer = [p]) (hav : (s.peers.cell p).available = 1) :
    (getChunkData s).incoming.map Transfer.ends = [(p, q)] := by
  have hall : ∀ r ∈ s.missing, (s.chunks.cell r).peer = [p] := by
    intro r hr
    rw [hm] at hr
    rw [List.mem_singleton.1 hr, hp]
  rw [getChunkData_idle hin hm hall hav]
  exact (requestChunk_idle hin hp hav).1

theorem verified_of_head {c : Chunk} (hbin : c.binHash = binHashOf zeroHex)
    (hhead : c.chunkData.toList.head? = some 1) : c.Verified headHash := by
  rw [Chunk.Verified, headHash, if_pos hhead, hbin]

/-- **The last piece**: the chunk at `0` is validated, and the chunk at `1` leaves the missing
list. -/
theorem stranded_of_midway {s : State} (h : Midway 524 s) :
    ∃ s', step headHash s (.packet ⟨0, 2222⟩ (unitPacket 525)) = .ok s' ∧ Stranded s' := by
  have hm := maxSeqNum_eq
  obtain ⟨t, hfind, htc⟩ := findIncoming_of_ends h.incoming
  obtain ⟨c, hstore, hrec, hbin, hpeer, hhead, -⟩ :=
    storeData_unitPacket (k := 524) (by omega) h.first
  have hnot : 524 ∉ (s.chunks.cell 0).received := fun hmem =>
    absurd ((h.received 524).1 hmem) (Nat.lt_irrefl 524)
  have hdone : chunkBitsAllReceived c = true := by
    refine (h.counted.store hstore).complete_iff.2 fun i hi => ?_
    have hmem : i ∈ c.received := by
      rw [hrec, Finset.mem_insert, h.received]
      omega
    exact (Chunk.mem_received.1 hmem).2
  have hverified : c.Verified headHash := verified_of_head (hbin.trans h.hash₀) (hhead hnot)
  rw [← htc] at hstore
  have hdata := receiveDATA_of_store headHash hfind hstore
  rw [hdone, if_pos rfl, htc] at hdata
  refine ⟨_, by simp only [step, h.sender]; exact hdata, ?_⟩
  -- the answer, the check, the end of the transfer and the next request, one after the other
  obtain ⟨-, hpeers, hmissing, hwanted, hends⟩ :=
    sendACK_same (s.modifyChunk 0 fun _ => c) 1 (dataFindLargestConsecSeq c)
  have hcell₀ := cell_sendACK_self s 0 1 (dataFindLargestConsecSeq c) c
  have hcell₁ := cell_sendACK_of_ne s (by decide : 1 ≠ 0) 1 (dataFindLargestConsecSeq c) c
  set s₁ := sendACK (s.modifyChunk 0 fun _ => c) 1 (dataFindLargestConsecSeq c) with hs₁
  have hmiss₁ : s₁.missing = [1, 0] := hmissing.trans h.missing
  -- the first missing chunk with the hash is the other one
  have hfinish : finishChunk headHash s₁ 0 = s₁.accept 0 0 := by
    rw [finishChunk_first (by rw [hcell₀]; exact hverified) hmiss₁
      (by
        rw [State.binHash, State.binHash, hcell₀, hcell₁, hbin]
        exact h.hash₁.trans h.hash₀.symm)]
    have hmiss : (s₁.accept 0 0).missing = [0] := by
      simp only [State.accept, hmiss₁]
      rfl
    unfold checkAllReceived
    rw [if_neg (by rw [hmiss]; exact List.cons_ne_nil 0 [])]
  rw [hfinish]
  have hclosed := incoming_deleteIncoming_zero (s := s₁.accept 0 0) (hends.trans h.incoming)
  have hclose := Frame.deleteIncoming (s₁.accept 0 0) 0
  set s₂ := (s₁.accept 0 0).deleteIncoming 0 with hs₂
  have hmiss₂ : s₂.missing = [0] := by
    rw [hclose.missing, State.accept, hmiss₁]
    rfl
  have hchunks₂ : s₂.chunks = s₁.chunks := (s₁.accept 0 0).chunks_deleteIncoming 0
  have hframe := hclose.trans (moves_getChunkData trivial s₂ : Moves Kind.Any _ _).frame
  have hpeer₂ : (s₂.chunks.cell 0).peer = [1] := by
    rw [hchunks₂, hcell₀, hpeer]
    exact h.offered
  refine ⟨?_, ends_getChunkData hmiss₂ hclosed.1 hpeer₂ hclosed.2, ?_, ?_, ?_, ?_, ?_, ?_, ?_, ?_⟩
  · rw [hframe.findPeer]
    unfold findPeer
    simp only [State.accept, hpeers]
    exact h.sender
  · rw [(moves_getChunkData trivial s₂ : Moves Kind.Any _ _).frame.missing, hmiss₂]
  · rw [hframe.wanted]
    exact hwanted.trans h.wanted
  · rw [hframe.binHash, State.binHash, State.accept, hcell₀, hbin]
    exact h.hash₀
  · rw [hframe.binHash, State.binHash, State.accept, hcell₁]
    exact h.hash₁
  · rw [chunkBitsAllReceived, hframe.bitsCount, State.accept, hcell₀]
    exact hdone
  · have hb := hframe.bits 0
    rw [State.accept, hcell₀] at hb
    rw [Chunk.mem_received, Chunk.bit, hb]
    exact Chunk.mem_received.1 (by rw [hrec, Finset.mem_insert, h.received]; omega)
  · rw [hframe.chunkData, State.accept, hcell₀]
    exact hhead hnot
  · rw [hframe.chunkData, State.accept, hcell₁]
    exact h.other

/-- **One more piece**: the chunk at `0` is validated again, nothing is missing any more, and the
chunk at `1` is output as it was created. -/
theorem output_of_stranded {s : State} (h : Stranded s) :
    ∃ s', step headHash s (.packet ⟨0, 2222⟩ (unitPacket 1)) = .ok s' ∧
      ¬ s'.OutputsVerified headHash := by
  obtain ⟨t, hfind, htc⟩ := findIncoming_of_ends h.incoming
  obtain ⟨c, hstore, -, -, -, -, hsame⟩ :=
    storeData_unitPacket (k := 0) (by decide) (c := s.chunks.cell 0)
      fun hpos => absurd hpos (Nat.lt_irrefl 0)
  have hstore' : storeData (unitPacket 1) (s.chunks.cell t.c) = .ok (s.chunks.cell 0) := by
    rw [htc]
    exact hstore.trans (congrArg _ (hsame h.stored))
  have hdata := receiveDATA_of_store headHash hfind hstore'
  rw [htc, h.complete, if_pos rfl] at hdata
  refine ⟨_, by simp only [step, h.sender]; exact hdata, ?_⟩
  obtain ⟨-, -, hmissing, hwanted, -⟩ :=
    sendACK_same (s.modifyChunk 0 fun _ => s.chunks.cell 0) 1
      (dataFindLargestConsecSeq (s.chunks.cell 0))
  have hcell₀ := cell_sendACK_self s 0 1 (dataFindLargestConsecSeq (s.chunks.cell 0))
    (s.chunks.cell 0)
  have hcell₁ := cell_sendACK_of_ne s (by decide : 1 ≠ 0) 1
    (dataFindLargestConsecSeq (s.chunks.cell 0)) (s.chunks.cell 0)
  set s₁ := sendACK (s.modifyChunk 0 fun _ => s.chunks.cell 0) 1
    (dataFindLargestConsecSeq (s.chunks.cell 0)) with hs₁
  have hmiss₁ : s₁.missing = [0] := hmissing.trans h.missing
  have hfinish : finishChunk headHash s₁ 0 = checkAllReceived (s₁.accept 0 0) :=
    finishChunk_first (by rw [hcell₀]; exact verified_of_head h.hash₀ h.first) hmiss₁ rfl
  have hout : ∃ file chunkFile image, Effect.output file chunkFile image
      [s.chunks.cell 1, s.chunks.cell 0] ∈ (finishChunk headHash s₁ 0).outputs := by
    rw [hfinish]
    unfold checkAllReceived
    rw [if_pos (by rw [State.accept, hmiss₁]; rfl)]
    refine ⟨s₁.userOutputFilename, s₁.userGetChunkFile,
      FileImage.writes (outputWrites (s₁.accept 0 0)),
      List.mem_filter.2 ⟨List.mem_append_right _ (List.mem_singleton.2 ?_), rfl⟩⟩
    have hlist : s₁.wanted.map s₁.chunks.cell = [s.chunks.cell 1, s.chunks.cell 0] := by
      rw [hwanted, State.modifyChunk, h.wanted, List.map_cons, List.map_singleton, hcell₀, hcell₁]
    rw [← hlist]
    rfl
  obtain ⟨file, chunkFile, image, hmem⟩ := hout
  have hframe := (Frame.deleteIncoming (finishChunk headHash s₁ 0) 0).trans
    (moves_getChunkData trivial _ : Moves Kind.Any _ _).frame
  intro hall
  rw [outputsVerified_iff, hframe.outputs] at hall
  have hbad : (s.chunks.cell 1).Verified headHash := hall _ hmem _ (List.mem_cons_self ..)
  have hne : (s.chunks.cell 1).chunkData.toList.head? ≠ some 1 := by
    rw [h.other, Vector.toList_replicate, btChunkSize_eq, List.head?_replicate]
    decide
  rw [Chunk.Verified, headHash, if_neg hne, ← State.binHash, h.hash₁] at hbad
  exact absurd hbad (by decide)

/-- **A run that outputs a chunk that was never checked.**  A chunk is requested, offered and
requested once more before its data comes; then come its 525 pieces and one of them again. -/
theorem outputs_unverified : ∃ s, Machine.run (step headHash)
      (peerSetup twoPeers (fun _ => 0) fun _ => zeroPacket)
      (overlapping ++ ((List.range 524).map fun i => .packet ⟨0, 2222⟩ (unitPacket (i + 1))) ++
        [.packet ⟨0, 2222⟩ (unitPacket 525), .packet ⟨0, 2222⟩ (unitPacket 1)]) = .ok s ∧
    ¬ s.OutputsVerified headHash := by
  obtain ⟨s₀, hrun₀, h₀⟩ := midway_zero
  obtain ⟨s₁, hrun₁, h₁⟩ := midway_run h₀ (k := 524) (by decide)
  obtain ⟨s₂, hstep₂, h₂⟩ := stranded_of_midway h₁
  obtain ⟨s₃, hstep₃, h₃⟩ := output_of_stranded h₂
  refine ⟨s₃, ?_, h₃⟩
  rw [List.append_assoc, Machine.run_append _ hrun₀, Machine.run_append _ hrun₁,
    Machine.run_cons_ok _ hstep₂, Machine.run_cons_ok _ hstep₃]
  rfl

end P2P
