/-
**What is missing is what is wanted and not owned** (`create_wanted_missing_list`, `validate_chunk`,
`check_all_received`).

The three lists share their chunks.  A line of a chunk file is looked up by its text, and puts
either an owned chunk in the wanted list or a new one in the wanted list and the missing list; a
complete chunk is taken out of the missing list by its hash.  As long as no hash is wanted twice,
that is the chunk itself, and the missing list always is the wanted list less the have list, without
repetitions.  The hashes that are wanted are those of the lines read since the wanted list was last
empty.

Main definitions:

* `P2P.Difference` — **the invariant**;
* `P2P.Chunk.Stable` — a property of chunks that nothing breaks;
* `P2P.Chunk.Labelled` — the two hashes of a chunk belong together;
* `P2P.NoRepeats` — no hash is asked for twice;
* `P2P.WantedSince` — where the wanted list comes from.

Main results:

* `P2P.Difference.wantLines`, `P2P.Difference.finish` — reading a chunk file and checking a complete
  chunk keep the invariant;
* `P2P.WantedSince.concat` — one more event keeps the invariant and the origin of the wanted list;
* `P2P.missing_eq_difference` — **the invariant in every reachable state**, and when an output is
  made.
-/

import Mathlib.Data.List.Flatten
import P2PFileTransfer.ClientList

set_option relaxedAutoImplicit false
set_option autoImplicit false

namespace P2P

/-! ### Properties of chunks -/

/-- A property of chunks that nothing breaks that a peer does to a chunk. -/
structure Chunk.Stable (P : Chunk → Prop) : Prop where
  content : ∀ c : Chunk, P c.content ↔ P c
  create : ∀ id hash, P (createChunk id hash)
  setId : ∀ (c : Chunk) (id : UInt32), P c → P { c with id := id }
  store : ∀ {pack : Packet} {c c' : Chunk}, storeData pack c = .ok c' → P c → P c'
  discard : ∀ c, P c → P (discardData c)

namespace Chunk.Stable

variable {P : Chunk → Prop} {s s' : State}

theorem modifyChunk (hs : ∀ q, P (s.chunks.cell q)) (q : ℕ) {f : Chunk → Chunk}
    (hf : P (s.chunks.cell q) → P (f (s.chunks.cell q))) (r : ℕ) :
    P ((s.modifyChunk q f).chunks.cell r) := by
  rw [State.modifyChunk, Heap.cell_modify]
  split
  · rename_i hrq
    rw [hrq]
    exact hf (hs q)
  · exact hs r

theorem frame (h : Chunk.Stable P) (hs : ∀ q, P (s.chunks.cell q)) (hf : Frame s s') (q : ℕ) :
    P (s'.chunks.cell q) := by
  rw [← h.content, hf.content q, h.content]
  exact hs q

theorem checkAllReceived (hs : ∀ q, P (s.chunks.cell q)) (q : ℕ) :
    P ((checkAllReceived s).chunks.cell q) := by
  rw [(checkAllReceived_same s).1]
  exact hs q

theorem wantLines (h : Chunk.Stable P) (hs : ∀ q, P (s.chunks.cell q)) (lines : List ChunkLine)
    (q : ℕ) : P ((lines.foldl wantLine s).chunks.cell q) := by
  induction lines generalizing s with
  | nil => exact hs q
  | cons line lines ih =>
      refine ih fun r => ?_
      rw [wantLine]
      split
      · by_cases hr : r = s.chunks.next
        · rw [hr]
          show P ((s.chunks.alloc _).cell s.chunks.next)
          rw [Heap.cell_alloc_self]
          exact h.setId _ line.1 (h.create _ _)
        · show P ((s.chunks.alloc _).cell r)
          rw [Heap.cell_alloc_of_ne _ _ hr]
          exact hs r
      · exact modifyChunk (f := fun c => { c with id := line.1 }) hs _ (h.setId _ line.1) r

/-- **Every step keeps the property for every chunk.** -/
theorem step {shahash : List UInt8 → BinHash} {e : Event} (h : Chunk.Stable P)
    (hs : ∀ q, P (s.chunks.cell q)) (he : step shahash s e = .ok s') :
    ∀ q, P (s'.chunks.cell q) := by
  obtain ⟨chunkFile, outputFile, lines, -, rfl⟩ | ⟨_, pack, peer, -, -, -, hr⟩ | hmoves :=
    step_cases he
  · exact h.frame (checkAllReceived (h.wantLines (s := { s with
      userGetChunkFile := chunkFile, userOutputFilename := outputFile }) hs lines))
      (moves_sendWHOHAS _ : Moves Kind.Any _ _).frame
  · obtain ⟨-, rfl⟩ | ⟨i, t, c, -, hstore, s₁, hs₁, hend⟩ := receiveDATA_cases hr
    · exact hs
    · have hstored : ∀ q, P ((s.modifyChunk t.c fun _ => c).chunks.cell q) :=
        modifyChunk hs t.c (h.store hstore)
      have h₁ : ∀ q, P (s₁.chunks.cell q) :=
        h.frame hstored (hs₁ ▸ moves_sendACK _ _ _ : Moves Kind.Any _ s₁).frame
      rcases hend with ⟨-, rfl⟩ | ⟨-, rfl⟩
      · exact h₁
      · refine h.frame ?_ (moves_afterFinish trivial trivial _ i : Moves Kind.Any _ _).frame
        obtain ⟨-, heq⟩ | ⟨-, -, heq⟩ | ⟨-, j, r, -, -, -, heq⟩ := finishChunk_cases shahash s₁ t.c
        · rw [heq]
          exact modifyChunk h₁ t.c (h.discard _)
        · rw [heq]
          exact checkAllReceived h₁
        · rw [heq]
          exact checkAllReceived (s := s₁.accept j t.c) h₁
  · exact h.frame hs hmoves.frame

/-- The property holds after set-up, if it holds of the chunks that are owned then. -/
theorem setup (h : Chunk.Stable P) (setup : Setup) (clock : ℕ → ℕ) (junk : ℕ → Packet)
    (hown : ∀ line, P (ownChunk setup.master line)) (q : ℕ) :
    P ((peerSetup setup clock junk).chunks.cell q) := by
  show P ((setup.own.map (ownChunk setup.master)).getD q
    (createChunk 0 (Vector.replicate hexHashSize 0)))
  cases hq : (setup.own.map (ownChunk setup.master))[q]? with
  | none =>
      rw [List.getD, hq]
      exact h.create _ _
  | some c =>
      obtain ⟨line, -, rfl⟩ := List.mem_map.1 (List.mem_of_getElem? hq)
      rw [List.getD, hq]
      exact hown line

end Chunk.Stable

/-! ### The two hashes of a chunk -/

/-- The binary hash of the chunk is that of its text. -/
def Chunk.Labelled (c : Chunk) : Prop := c.binHash = binHashOf c.hexHash

/-- Every chunk is labelled. -/
def Labelled (s : State) : Prop := ∀ q, (s.chunks.cell q).Labelled

theorem stable_labelled : Chunk.Stable Chunk.Labelled where
  content _ := Iff.rfl
  create _ _ := rfl
  setId _ _ h := h
  store := by
    intro pack c c' h hc
    have hsame : c'.binHash = c.binHash ∧ c'.hexHash = c.hexHash := by
      obtain ⟨-, ⟨-, rfl⟩ | ⟨-, -, -, rfl⟩⟩ := storeData_cases h <;> exact ⟨rfl, rfl⟩
    rw [Chunk.Labelled, hsame.1, hsame.2]
    exact hc
  discard _ h := h

theorem Labelled.wantLines {s : State} (h : Labelled s) (lines : List ChunkLine) :
    Labelled (lines.foldl wantLine s) :=
  stable_labelled.wantLines h lines

/-- **Every step leaves every chunk labelled.** -/
theorem Labelled.step {shahash : List UInt8 → BinHash} {s s' : State} {e : Event} (h : Labelled s)
    (he : step shahash s e = .ok s') : Labelled s' :=
  stable_labelled.step h he

theorem labelled_peerSetup (setup : Setup) (clock : ℕ → ℕ) (junk : ℕ → Packet) :
    Labelled (peerSetup setup clock junk) := by
  refine stable_labelled.setup setup clock junk fun line => ?_
  cases hm : setup.master <;> rfl

/-! ### The difference of the lists -/

/-- **The invariant.** -/
structure Difference (s : State) : Prop where
  sublist : s.missing.Sublist s.wanted
  nodup : (s.wanted.map s.binHash).Nodup
  missing_iff : ∀ q ∈ s.wanted, q ∈ s.missing ↔ q ∉ s.haveList

namespace Difference

variable {s s' : State}

theorem mem_missing_iff (h : Difference s) {q : ℕ} :
    q ∈ s.missing ↔ q ∈ s.wanted ∧ q ∉ s.haveList :=
  ⟨fun hq => ⟨h.sublist.subset hq, (h.missing_iff q (h.sublist.subset hq)).1 hq⟩,
    fun hq => (h.missing_iff q hq.1).2 hq.2⟩

theorem missing_nodup (h : Difference s) : s.missing.Nodup :=
  h.sublist.nodup h.nodup.of_map

/-- Nothing is wanted: nothing may be missing. -/
theorem of_wanted_nil (hw : s.wanted = []) (hm : s.missing = []) : Difference s := by
  refine ⟨?_, ?_, fun q hq => ?_⟩
  · rw [hm, hw]
  · rw [hw]
    exact List.nodup_nil
  · rw [hw] at hq
    exact absurd hq List.not_mem_nil

/-- The invariant speaks of the three lists and of the hashes of what is wanted. -/
theorem congr (h : Difference s) (hw : s'.wanted = s.wanted) (hm : s'.missing = s.missing)
    (hh : s'.haveList = s.haveList) (hbin : ∀ q ∈ s.wanted, s'.binHash q = s.binHash q) :
    Difference s' := by
  refine ⟨by rw [hw, hm]; exact h.sublist, ?_, fun q hq => ?_⟩
  · rw [hw, List.map_congr_left hbin]
    exact h.nodup
  · rw [hm, hh]
    exact h.missing_iff q (hw ▸ hq)

/-- What is wanted is missing or owned. -/
theorem missing_or_owned (h : Difference s) {q : ℕ} (hq : q ∈ s.wanted) :
    q ∈ s.missing ∨ q ∈ s.haveList := by
  by_cases hm : q ∈ s.missing
  · exact Or.inl hm
  · exact Or.inr (not_not.1 fun hh => hm ((h.missing_iff q hq).2 hh))

theorem checkAllReceived (h : Difference s) : Difference (checkAllReceived s) := by
  rw [P2P.checkAllReceived]
  split
  · rename_i hm
    exact of_wanted_nil rfl hm
  · exact h

/-! ### Chunk files -/

section Requests

variable {shahash : List UInt8 → BinHash} {own : ℕ} {start : ℕ → Chunk} {kept : List ℕ}

theorem lt_of_wanted (h : Difference s) (hi : Intact shahash own start kept s) {q : ℕ}
    (hq : q ∈ s.wanted) : q < s.chunks.next := by
  rcases h.missing_or_owned hq with hm | hh
  · exact (hi.missing q hm).2
  · exact hi.lt_of_owned hh

/-- **A line of a chunk file keeps the invariant** if its hash is not wanted yet. -/
theorem wantLine (h : Difference s) (hl : Labelled s) (hi : Intact shahash own start kept s)
    {line : ChunkLine} (hnew : binHashOf line.2 ∉ s.wanted.map s.binHash) :
    Difference (wantLine s line) ∧
      (P2P.wantLine s line).wanted.map (P2P.wantLine s line).binHash =
        binHashOf line.2 :: s.wanted.map s.binHash := by
  have hbin := (wantLines_transfers [line] s).2.2.2.2
  have hlt : ∀ q ∈ s.wanted, q < s.chunks.next := fun q => h.lt_of_wanted hi
  have hhave : ∀ q ∈ s.haveList, q < s.chunks.next := fun q => hi.lt_of_owned
  cases hown : s.findOwned line.2 with
  | none =>
      rw [List.foldl_cons, List.foldl_nil, wantLine_of_none hown] at hbin
      rw [wantLine_of_none hown]
      -- the new chunk
      have hhash : State.binHash { s with
          chunks := s.chunks.alloc { createChunk line.1.toUInt8 line.2 with id := line.1 }
          missing := s.chunks.next :: s.missing
          wanted := s.chunks.next :: s.wanted } s.chunks.next = binHashOf line.2 := by
        rw [State.binHash, Heap.cell_alloc_self]
        rfl
      have hfresh : s.chunks.next ∉ s.haveList := fun hq => lt_irrefl _ (hhave _ hq)
      have hmap := List.map_congr_left fun q hq => hbin q (hlt q hq)
      refine ⟨⟨h.sublist.cons_cons _, ?_, fun q hq => ?_⟩, ?_⟩
      · rw [List.map_cons, hmap, hhash]
        exact List.nodup_cons.2 ⟨hnew, h.nodup⟩
      · rcases List.mem_cons.1 hq with rfl | hq
        · exact ⟨fun _ => hfresh, fun _ => List.mem_cons_self ..⟩
        · have hne : q ≠ s.chunks.next := Nat.ne_of_lt (hlt q hq)
          show q ∈ s.chunks.next :: s.missing ↔ _
          rw [List.mem_cons, or_iff_right hne]
          exact h.missing_iff q hq
      · rw [List.map_cons, hmap, hhash]
  | some p =>
      obtain ⟨hp, hhex⟩ := findOwned_eq_some hown
      rw [List.foldl_cons, List.foldl_nil, wantLine_of_some hown] at hbin
      rw [wantLine_of_some hown]
      have hhash : s.binHash p = binHashOf line.2 := by rw [State.binHash, hl p, hhex]
      have hout : p ∉ s.wanted := fun hw => hnew (hhash ▸ List.mem_map_of_mem hw)
      have hmap : ∀ q ∈ p :: s.wanted, _ := fun q hq => hbin q (by
        rcases List.mem_cons.1 hq with rfl | hq
        · exact hhave q hp
        · exact hlt q hq)
      refine ⟨⟨h.sublist.cons _, ?_, fun q hq => ?_⟩, ?_⟩
      · rw [List.map_congr_left hmap, List.map_cons, hhash]
        exact List.nodup_cons.2 ⟨hnew, h.nodup⟩
      · rcases List.mem_cons.1 hq with rfl | hq
        · exact ⟨fun hm => absurd (h.sublist.subset hm) hout, fun hh => absurd hp hh⟩
        · exact h.missing_iff q hq
      · rw [List.map_congr_left hmap, List.map_cons, hhash]

/-- **A chunk file keeps the invariant** if none of its hashes is wanted yet or occurs twice in it.
-/
theorem wantLines (h : Difference s) (hl : Labelled s) (hi : Intact shahash own start kept s)
    {lines : List ChunkLine}
    (hnew : ((lines.map fun line => binHashOf line.2).reverse ++ s.wanted.map s.binHash).Nodup) :
    Difference (lines.foldl P2P.wantLine s) ∧
      (lines.foldl P2P.wantLine s).wanted.map (lines.foldl P2P.wantLine s).binHash =
        (lines.map fun line => binHashOf line.2).reverse ++ s.wanted.map s.binHash := by
  induction lines generalizing s with
  | nil => exact ⟨h, rfl⟩
  | cons line lines ih =>
      rw [List.map_cons, List.reverse_cons, List.append_assoc, List.singleton_append] at hnew ⊢
      have hline : binHashOf line.2 ∉ s.wanted.map s.binHash :=
        (List.nodup_cons.1 (List.nodup_append.1 hnew).2.1).1
      obtain ⟨h₁, hmap⟩ := h.wantLine hl hi hline
      rw [← hmap] at hnew ⊢
      exact ih h₁ (hl.wantLines [line]) (hi.wantLine line) hnew

end Requests

/-! ### Data -/

/-- **Checking a complete chunk keeps the invariant**: the missing chunk that is found by its hash
is the chunk itself. -/
theorem finish (h : Difference s) (shahash : List UInt8 → BinHash) {q : ℕ} (hq : q ∈ s.missing) :
    Difference (finishChunk shahash s q) := by
  obtain ⟨-, heq⟩ | ⟨-, hnone, -⟩ | ⟨-, j, r, hj, hr, -, heq⟩ := finishChunk_cases shahash s q
  · rw [heq]
    exact h.congr rfl rfl rfl fun r _ => (Fades.modifyChunk s q (f := discardData) rfl).binHash r
  · exact absurd rfl (hnone q hq)
  · have hrq : r = q := List.inj_on_of_nodup_map h.nodup
      (h.sublist.subset (List.mem_of_getElem? hj)) (h.sublist.subset hq) hr
    rw [hrq] at hj
    have hnodup : (s.missing.map id).Nodup := by rw [List.map_id]; exact h.missing_nodup
    rw [heq]
    refine checkAllReceived ⟨(List.eraseIdx_sublist ..).trans h.sublist, h.nodup, fun x hx => ?_⟩
    show x ∈ s.missing.eraseIdx j ↔ x ∉ q :: s.haveList
    by_cases hxq : x = q
    · rw [hxq]
      exact ⟨fun hmem => absurd rfl (ne_of_mem_eraseIdx hnodup hj hmem),
        fun hmem => absurd (List.mem_cons_self ..) hmem⟩
    · rw [List.mem_cons, or_iff_right hxq, ← h.missing_iff x hx]
      exact ⟨List.mem_of_mem_eraseIdx, fun hmem => mem_eraseIdx_of_ne hj hmem hxq⟩

theorem of_frame (h : Difference s) (hf : Frame s s') : Difference s' :=
  h.congr hf.wanted hf.missing hf.haveList fun q _ => hf.binHash q

end Difference

/-! ### Steps -/

/-- The hashes of the lines of a request. -/
def Event.hashes : Event → List BinHash
  | .userGet _ _ lines => lines.map fun line => binHashOf line.2
  | _ => []

/-- What a step leaves of the wanted list: it is emptied, or the hashes of the lines are added. -/
def Wants (s s' : State) (hashes : List BinHash) : Prop :=
  s'.wanted = [] ∨
    s'.wanted.map s'.binHash = hashes.reverse ++ s.wanted.map s.binHash

theorem Wants.of_frame {s s' s'' : State} {hashes : List BinHash} (h : Wants s s' hashes)
    (hf : Frame s' s'') : Wants s s'' hashes := by
  rw [Wants, hf.wanted, List.map_congr_left fun q _ => hf.binHash q]
  exact h

theorem Wants.checkAllReceived {s s' : State} {hashes : List BinHash} (h : Wants s s' hashes) :
    Wants s (checkAllReceived s') hashes := by
  rw [P2P.checkAllReceived]
  split
  · exact Or.inl rfl
  · exact h

theorem Wants.finish {s s' : State} {hashes : List BinHash} (h : Wants s s' hashes)
    (shahash : List UInt8 → BinHash) (q : ℕ) : Wants s (finishChunk shahash s' q) hashes := by
  obtain ⟨-, heq⟩ | ⟨-, -, heq⟩ | ⟨-, j, r, -, -, -, heq⟩ := finishChunk_cases shahash s' q
  · rw [heq]
    have hdiscard := Fades.modifyChunk s' q (f := discardData) rfl
    exact h.imp_right fun hmap =>
      (List.map_congr_left fun r _ => hdiscard.binHash r).trans hmap
  · rw [heq]
    exact h.checkAllReceived
  · rw [heq]
    exact Wants.checkAllReceived h

/-- **Every step keeps the invariant** if it asks for no hash that is wanted or twice. -/
theorem Difference.step {shahash : List UInt8 → BinHash} {own : ℕ} {start : ℕ → Chunk}
    {kept : List ℕ} {s s' : State} {e : Event} (h : Difference s) (hl : Labelled s)
    (hi : Intact shahash own start kept s) (hc : ClientList s)
    (hnew : (e.hashes.reverse ++ s.wanted.map s.binHash).Nodup)
    (he : step shahash s e = .ok s') : Difference s' ∧ Wants s s' e.hashes := by
  have hsame : ∀ {u : State}, u.wanted = s.wanted → (∀ q, u.binHash q = s.binHash q) →
      e.hashes = [] → Wants s u e.hashes := by
    intro u hw hbin hnil
    rw [Wants, hw, hnil, List.map_congr_left fun q _ => hbin q]
    exact Or.inr rfl
  obtain ⟨chunkFile, outputFile, lines, rfl, rfl⟩ | ⟨src, pack, peer, rfl, -, -, hr⟩ |
    ⟨hquiet, hmoves⟩ := step_split he
  · have hnames : Intact shahash own start kept
        { s with userGetChunkFile := chunkFile, userOutputFilename := outputFile } :=
      ⟨hi.own_le, hi.missing, hi.incoming, hi.data, hi.counted, hi.owned, hi.kept⟩
    have hdiff : Difference
        { s with userGetChunkFile := chunkFile, userOutputFilename := outputFile } :=
      ⟨h.sublist, h.nodup, h.missing_iff⟩
    obtain ⟨h₁, hmap⟩ := hdiff.wantLines hl hnames hnew
    have hsend := (moves_sendWHOHAS (P2P.checkAllReceived (lines.foldl P2P.wantLine
      { s with userGetChunkFile := chunkFile, userOutputFilename := outputFile })) :
        Moves Kind.Any _ _).frame
    exact ⟨h₁.checkAllReceived.of_frame hsend,
      Wants.of_frame (Wants.checkAllReceived (Or.inr hmap)) hsend⟩
  · obtain ⟨-, rfl⟩ | ⟨i, t, c, hfind, hstore, s₁, rfl, hend⟩ := receiveDATA_cases hr
    · exact ⟨h, hsame rfl (fun _ => rfl) rfl⟩
    · have hbin : c.binHash = (s.chunks.cell t.c).binHash := by
        obtain ⟨-, ⟨-, rfl⟩ | ⟨-, -, -, rfl⟩⟩ := storeData_cases hstore <;> rfl
      have hstored := Fades.modifyChunk s t.c (f := fun _ => c) hbin
      have hack := (moves_sendACK (s.modifyChunk t.c fun _ => c) peer
        (dataFindLargestConsecSeq c) : Moves Kind.Any _ _).frame
      have hkeep : Difference (s.modifyChunk t.c fun _ => c) :=
        h.congr rfl rfl rfl fun q _ => hstored.binHash q
      have h₁ : Difference (s.validating t.c c peer) := hkeep.of_frame hack
      have hw₁ : Wants s (s.validating t.c c peer) [] :=
        Wants.of_frame (hsame (u := s.modifyChunk t.c fun _ => c) rfl hstored.binHash rfl) hack
      rcases hend with ⟨-, rfl⟩ | ⟨-, rfl⟩
      · exact ⟨h₁, hw₁⟩
      · have hmiss : t.c ∈ (s.validating t.c c peer).missing := by
          rw [State.validating, hack.missing]
          exact hc.missing t (mem_of_nodeFind hfind)
        have hend := (moves_afterFinish trivial trivial
          (finishChunk shahash (s.validating t.c c peer) t.c) i : Moves Kind.Any _ _).frame
        exact ⟨(h₁.finish shahash hmiss).of_frame hend, (hw₁.finish shahash t.c).of_frame hend⟩
  · have hf := hmoves.frame
    refine ⟨h.of_frame hf, hsame hf.wanted hf.binHash ?_⟩
    cases e with
    | userGet chunkFile outputFile lines => exact absurd hquiet id
    | _ => rfl

/-! ### Where the wanted list comes from -/

section Asked

variable (shahash : List UInt8 → BinHash) (s₀ : State)

/-- The wanted list was empty after the events `es₁`, and after none of the events `es₂` that
followed. -/
def LastEmpty (es₁ es₂ : List Event) : Prop :=
  ∃ t, Machine.run (step shahash) s₀ es₁ = .ok t ∧ t.wanted = [] ∧
    ∀ fs v, fs <+: es₂ → fs ≠ [] → Machine.run (step shahash) s₀ (es₁ ++ fs) = .ok v →
      v.wanted ≠ []

/-- **No hash is asked for twice**: when an event comes, no hash occurs twice among the lines of
the requests since the wanted list was last empty. -/
def NoRepeats (es : List Event) : Prop :=
  ∀ es₁ es₂ e es₃, es = es₁ ++ es₂ ++ e :: es₃ → LastEmpty shahash s₀ es₁ es₂ →
    ((es₂ ++ [e]).flatMap Event.hashes).Nodup

/-- **What is wanted is what was asked for** since the wanted list was last empty. -/
def WantedSince (es : List Event) (s : State) : Prop :=
  ∃ es₁ es₂, es = es₁ ++ es₂ ∧ LastEmpty shahash s₀ es₁ es₂ ∧
    s.wanted.map s.binHash = (es₂.flatMap Event.hashes).reverse

variable {shahash s₀}

theorem NoRepeats.init {es : List Event} {e : Event} (h : NoRepeats shahash s₀ (es ++ [e])) :
    NoRepeats shahash s₀ es := by
  intro es₁ es₂ f es₃ hsplit hempty
  refine h es₁ es₂ f (es₃ ++ [e]) ?_ hempty
  rw [hsplit, List.append_assoc, List.append_assoc, List.cons_append]
  simp only [List.append_assoc]

/-- No hash is asked for twice in the whole run. -/
theorem NoRepeats.of_nodup {es : List Event} (h : (es.flatMap Event.hashes).Nodup) :
    NoRepeats shahash s₀ es := by
  intro es₁ es₂ e es₃ hsplit _
  refine List.Nodup.sublist ?_ h
  refine List.Sublist.flatMap ?_ _
  rw [hsplit, List.append_assoc, List.append_cons es₂ e es₃]
  exact (List.sublist_append_left _ _).trans (List.sublist_append_right _ _)

/-- The empty wanted list. -/
theorem wantedSince_of_nil {es : List Event} {s : State}
    (hrun : Machine.run (step shahash) s₀ es = .ok s) (hw : s.wanted = []) :
    WantedSince shahash s₀ es s := by
  refine ⟨es, [], (List.append_nil es).symm, ⟨s, hrun, hw, fun fs _ hpre hne => ?_⟩, ?_⟩
  · exact absurd (List.prefix_nil.1 hpre) hne
  · rw [hw]
    rfl

/-- **One more event**: the invariant and the origin of the wanted list. -/
theorem WantedSince.concat {own : ℕ} {start : ℕ → Chunk} {kept : List ℕ} {es : List Event}
    {e : Event} {s s' : State} (hw : WantedSince shahash s₀ es s)
    (hrun : Machine.run (step shahash) s₀ es = .ok s) (h : Difference s) (hl : Labelled s)
    (hi : Intact shahash own start kept s) (hc : ClientList s)
    (hno : NoRepeats shahash s₀ (es ++ [e])) (he : step shahash s e = .ok s') :
    Difference s' ∧ WantedSince shahash s₀ (es ++ [e]) s' := by
  obtain ⟨es₁, es₂, rfl, hempty, hmap⟩ := hw
  have hasked : ((es₂ ++ [e]).flatMap Event.hashes).reverse =
      e.hashes.reverse ++ s.wanted.map s.binHash := by
    rw [hmap, List.flatMap_append, List.reverse_append, List.flatMap_singleton]
  have hnodup : (e.hashes.reverse ++ s.wanted.map s.binHash).Nodup := by
    rw [← hasked, List.nodup_reverse]
    exact hno es₁ es₂ e [] rfl hempty
  obtain ⟨hdiff, hwants⟩ := h.step hl hi hc hnodup he
  have hrun' : Machine.run (step shahash) s₀ (es₁ ++ es₂ ++ [e]) = .ok s' := by
    rw [Machine.run_append _ hrun, Machine.run_cons_ok _ he, Machine.run_nil]
  refine ⟨hdiff, ?_⟩
  by_cases hnil : s'.wanted = []
  · exact wantedSince_of_nil hrun' hnil
  · have hmap' := hwants.resolve_left hnil
    obtain ⟨t, ht, htw, hsince⟩ := hempty
    refine ⟨es₁, es₂ ++ [e], List.append_assoc .., ⟨t, ht, htw, ?_⟩, hmap'.trans hasked.symm⟩
    intro fs v hpre hne hv
    rcases List.prefix_concat_iff.1 hpre with rfl | hpre
    · rw [← List.append_assoc, hrun'] at hv
      cases hv
      exact hnil
    · exact hsince fs v hpre hne hv

end Asked

/-- **The invariant in every reachable state** of a run that asks for no hash twice. -/
theorem difference_of_run {shahash : List UInt8 → BinHash} {setup : Setup} {clock : ℕ → ℕ}
    {junk : ℕ → Packet} {es : List Event} {s : State}
    (h : Machine.run (step shahash) (peerSetup setup clock junk) es = .ok s)
    (hno : NoRepeats shahash (peerSetup setup clock junk) es) :
    Difference s ∧ WantedSince shahash (peerSetup setup clock junk) es s := by
  refine Machine.history_invariant
    (P := fun es s => NoRepeats shahash (peerSetup setup clock junk) es →
      Difference s ∧ WantedSince shahash (peerSetup setup clock junk) es s)
    (fun _ => ⟨Difference.of_wanted_nil rfl rfl, wantedSince_of_nil rfl rfl⟩) ?_ h hno
  intro es t e u hrun ih he hno
  obtain ⟨hdiff, hwanted⟩ := ih hno.init
  have hi := Machine.run_invariant (fun _ _ _ hs he => Intact.step hs he)
    (Intact.setup shahash setup clock junk) hrun
  have hl := Machine.run_invariant (fun _ _ _ hs he => Labelled.step hs he)
    (labelled_peerSetup setup clock junk) hrun
  exact hwanted.concat hrun hdiff hl hi (ClientList.of_run hrun) hno he

/-- **What is missing is what is wanted and not owned**, in every reachable state of a run in which
no hash occurs twice among the lines of the requests since the wanted list was last empty; nothing
is missing twice; and a step makes an output exactly when it is a request, or a piece that completes
a chunk with the right data, and leaves nothing missing, and then nothing is wanted any more. -/
theorem missing_eq_difference (shahash : List UInt8 → BinHash) (setup : Setup) (clock : ℕ → ℕ)
    (junk : ℕ → Packet) (es : List Event) (s : State)
    (h : Machine.run (step shahash) (peerSetup setup clock junk) es = .ok s)
    (hno : NoRepeats shahash (peerSetup setup clock junk) es) :
    (∀ q, q ∈ s.missing ↔ q ∈ s.wanted ∧ q ∉ s.haveList) ∧ s.missing.Nodup ∧
      ∀ e s', step shahash s e = .ok s' →
        ((∃ o, s'.outputs = s.outputs ++ [o]) ↔ e.Concludes shahash s ∧ s'.missing = []) ∧
          (s'.outputs ≠ s.outputs → s'.wanted = []) := by
  have hdiff := (difference_of_run h hno).1
  refine ⟨fun q => hdiff.mem_missing_iff, hdiff.missing_nodup, fun e s' he => ?_⟩
  rcases step_outputs he with ⟨hc, hm, hw, o, -, ho⟩ | ⟨hnot, ho⟩
  · exact ⟨⟨fun _ => ⟨hc, hm⟩, fun _ => ⟨o, ho⟩⟩, fun _ => hw⟩
  · refine ⟨⟨fun ⟨o, hmade⟩ => ?_, fun hc => absurd hc hnot⟩, fun hne => absurd ho hne⟩
    exact absurd (ho.symm.trans hmade) (by simp)

theorem missing_eq_difference_open : ∃ s,
    Machine.run (step fun _ => Vector.replicate binHashSize 0)
      (peerSetup lender (fun _ => 0) fun _ => zeroPacket) wantsOne = .ok s ∧
    (∀ q, q ∈ s.missing ↔ q ∈ s.wanted ∧ q ∉ s.haveList) ∧ s.missing.Nodup := by
  obtain ⟨hiff, hnodup, -⟩ := missing_eq_difference (fun _ => Vector.replicate binHashSize 0)
    lender (fun _ => 0) (fun _ => zeroPacket) wantsOne _ rfl
    (NoRepeats.of_nodup (List.nodup_singleton _))
  exact ⟨_, rfl, hiff, hnodup⟩

end P2P
