/-
**Where the chunks of an output file are** (`create_wanted_missing_list`, `construct_data`).

A chunk is written at the place that its identifier says.  The identifier is kept in the chunk, and
two lines of a chunk file that name the same owned chunk share it: the later line overwrites what
the earlier one said, and nothing is written at the earlier place.  The place is also a product of
two 32-bit numbers.  This module says exactly when the file is nevertheless as the chunk file asks:
when the products do not wrap around, and every place that is left out happens to read as zeros, in
a chunk of zeros.

Main definitions:

* `P2P.Effect.Places` — the output file has a chunk with the right hash at the place of each line;
* `P2P.Overtaken` — a line names an owned chunk that a later line names again;
* `P2P.Placeable` — the condition on a chunk file and the chunks that are owned;
* `P2P.Placing` — what the chunks that are written have to do with the lines;
* `P2P.Listed` — the invariant of reading the chunk file;
* `P2P.Waits` — what stays as it is until the output.

Main results:

* `P2P.Placing.places_iff` — the condition is exact, for the writes;
* `P2P.Listed.wantLine`, `P2P.Listed.wantLines` — reading the chunk file;
* `P2P.step_waits`, `P2P.run_waits` — waiting for the chunks;
* `P2P.output_places_iff` — **the condition is exact, for every run**;
* `P2P.output_misplaced` — an output that has no place for a line.
-/

import P2PFileTransfer.Availability

set_option relaxedAutoImplicit false
set_option autoImplicit false

namespace P2P

/-- A line `id hash` of a chunk file. -/
abbrev ChunkLine := UInt32 × HexHash

/-- The owned chunk that a line with the given hash names. -/
def State.findOwned (s : State) (hash : HexHash) : Option ℕ :=
  (nodeFind (fun q => compareChunkByHexHash (s.chunks.cell q) hash) s.haveList).map Prod.snd

/-- The line names an owned chunk, and a later line names it again. -/
def Overtaken (s : State) (lines : List ChunkLine) (line : ChunkLine) : Prop :=
  (s.findOwned line.2).isSome ∧ ∃ id, [line, (id, line.2)].Sublist lines

/-- **The condition**, in the state before the request: no place wraps around, and where a line is
overtaken the chunk is all zeros, and a line that is not overtaken has a place further on. -/
def Placeable (s : State) (lines : List ChunkLine) : Prop :=
  ∀ line ∈ lines, line.1.toNat < 8192 ∧ (Overtaken s lines line →
    (∀ q, s.findOwned line.2 = some q →
      (s.chunks.cell q).chunkData = Vector.replicate btChunkSize 0) ∧
    ∃ line' ∈ lines, ¬ Overtaken s lines line' ∧ line.1.toNat < line'.1.toNat)

/-- The file has the data of a chunk with the right hash at the place of each line. -/
def Places (lines : List ChunkLine) (image : FileImage) (chunks : List Chunk) : Prop :=
  ∀ line ∈ lines, ∃ c ∈ chunks, c.hexHash = line.2 ∧
    image.Holds (line.1.toNat * btChunkSize) c.chunkData.toList

/-- The output is for the given names, and has everything in its place. -/
def Effect.Places (chunkFile outputFile : String) (lines : List ChunkLine) : Effect → Prop
  | .send _ _ _ => False
  | .output file name image chunks =>
      file = outputFile ∧ name = chunkFile ∧ P2P.Places lines image chunks

/-! ### Writes -/

/-- The writes of `construct_data` for a list of chunks. -/
def chunkWrites (chunks : List Chunk) : List (ℕ × List UInt8) :=
  chunks.map fun c => (u32 (c.id.toNat * btChunkSize), c.chunkData.toList)

/-- **What the chunks that are written have to do with the lines**, when `s` is the state before the
request. -/
structure Placing (s : State) (lines : List ChunkLine) (chunks : List Chunk) : Prop where
  /-- What is written is at the place of a line that is not overtaken. -/
  written : ∀ c ∈ chunks, ∃ line ∈ lines, ¬ Overtaken s lines line ∧ c.id = line.1
  /-- What is not overtaken is written. -/
  placed : ∀ line ∈ lines, ¬ Overtaken s lines line →
    ∃ c ∈ chunks, c.id = line.1 ∧ c.hexHash = line.2
  /-- An owned chunk is written as it was. -/
  owned : ∀ line ∈ lines, ∀ q, s.findOwned line.2 = some q → (∃ c ∈ chunks, c.hexHash = line.2) ∧
    ∀ c ∈ chunks, c.hexHash = line.2 → c.chunkData = (s.chunks.cell q).chunkData
  inj : ∀ c ∈ chunks, ∀ c' ∈ chunks, c.id = c'.id → c = c'

theorem u32_mul_of_lt {i : ℕ} (h : i < 8192) : u32 (i * btChunkSize) = i * btChunkSize := by
  rw [u32_mul_btChunkSize, Nat.mod_eq_of_lt h]

theorem outputWrites_eq (s : State) :
    outputWrites s = chunkWrites (s.wanted.map s.chunks.cell) := by
  rw [chunkWrites, List.map_map]
  rfl

theorem mem_chunkWrites {chunks : List Chunk} {w : ℕ × List UInt8} (h : w ∈ chunkWrites chunks) :
    ∃ c ∈ chunks, w = (u32 (c.id.toNat * btChunkSize), c.chunkData.toList) := by
  obtain ⟨c, hc, rfl⟩ := List.mem_map.1 h
  exact ⟨c, hc, rfl⟩

theorem length_chunkWrites {chunks : List Chunk} : ∀ w ∈ chunkWrites chunks, w.2.length ≠ 0 := by
  intro w hw
  obtain ⟨c, -, rfl⟩ := mem_chunkWrites hw
  rw [Vector.length_toList]
  exact Nat.ne_of_gt btChunkSize_pos

/-- The file is at least as long as a bound if and only if some chunk is written beyond it. -/
theorem lt_size_chunkWrites_iff {chunks : List Chunk} {m : ℕ} :
    m < (FileImage.writes (chunkWrites chunks)).size ↔
      ∃ c ∈ chunks, m < u32 (c.id.toNat * btChunkSize) + btChunkSize := by
  rw [← Nat.not_le, FileImage.size_writes_le_iff length_chunkWrites]
  constructor
  · intro h
    push Not at h
    obtain ⟨w, hw, hlt⟩ := h
    obtain ⟨c, hc, rfl⟩ := mem_chunkWrites hw
    rw [Vector.length_toList] at hlt
    exact ⟨c, hc, hlt⟩
  · rintro ⟨c, hc, hlt⟩ hall
    have hle := hall _ (List.mem_map_of_mem hc)
    rw [Vector.length_toList] at hle
    omega

/-- No file is longer than the range of the offset. -/
theorem size_chunkWrites_le (chunks : List Chunk) :
    (FileImage.writes (chunkWrites chunks)).size ≤ 8192 * btChunkSize := by
  rw [FileImage.size_writes_le_iff length_chunkWrites]
  intro w hw
  obtain ⟨c, -, rfl⟩ := mem_chunkWrites hw
  rw [Vector.length_toList, u32_mul_btChunkSize, ← Nat.succ_mul]
  exact Nat.mul_le_mul_right _ (Nat.mod_lt _ (by decide))

/-- Two places meet only if they are the same. -/
theorem disjoint_places {i j : ℕ} (h : i ≠ j) :
    i * btChunkSize + btChunkSize ≤ j * btChunkSize ∨
      j * btChunkSize + btChunkSize ≤ i * btChunkSize := by
  rcases Nat.lt_or_gt_of_ne h with hlt | hlt
  · exact Or.inl (by rw [← Nat.succ_mul]; exact Nat.mul_le_mul_right _ hlt)
  · exact Or.inr (by rw [← Nat.succ_mul]; exact Nat.mul_le_mul_right _ hlt)

/-- A place that no chunk has reads as zeros, if no place wraps around. -/
theorem byte_chunkWrites_of_untouched {chunks : List Chunk} {i j : ℕ} (hj : j < btChunkSize)
    (hsmall : ∀ c ∈ chunks, c.id.toNat < 8192) (hne : ∀ c ∈ chunks, c.id.toNat ≠ i) :
    (FileImage.writes (chunkWrites chunks)).byte (i * btChunkSize + j) = 0 := by
  refine FileImage.byte_writes_of_untouched fun w hw => ?_
  obtain ⟨c, hc, rfl⟩ := mem_chunkWrites hw
  rw [Vector.length_toList, u32_mul_of_lt (hsmall c hc)]
  rcases disjoint_places (hne c hc) with h | h
  · exact Or.inr (by omega)
  · exact Or.inl (by omega)

/-- A chunk is found where it was written, if no place wraps around and no two chunks share one. -/
theorem holds_chunkWrites {chunks : List Chunk} (hsmall : ∀ c ∈ chunks, c.id.toNat < 8192)
    (hinj : ∀ c ∈ chunks, ∀ c' ∈ chunks, c.id = c'.id → c = c') {c : Chunk} (hc : c ∈ chunks) :
    (FileImage.writes (chunkWrites chunks)).Holds (c.id.toNat * btChunkSize)
      c.chunkData.toList := by
  have hd : ∀ v ∈ chunkWrites chunks, ∀ w ∈ chunkWrites chunks,
      v = w ∨ v.1 + v.2.length ≤ w.1 ∨ w.1 + w.2.length ≤ v.1 := by
    intro v hv w hw
    obtain ⟨a, ha, rfl⟩ := mem_chunkWrites hv
    obtain ⟨b, hb, rfl⟩ := mem_chunkWrites hw
    rw [Vector.length_toList, Vector.length_toList, u32_mul_of_lt (hsmall a ha),
      u32_mul_of_lt (hsmall b hb)]
    by_cases hab : a.id = b.id
    · exact Or.inl (by rw [hinj a ha b hb hab])
    · exact Or.inr (disjoint_places fun h => hab (UInt32.toNat_inj.1 h))
  have hholds := FileImage.holds_writes length_chunkWrites hd _ (List.mem_map_of_mem hc)
  rw [u32_mul_of_lt (hsmall c hc)] at hholds
  exact hholds

namespace Placing

variable {s : State} {lines : List ChunkLine} {chunks : List Chunk}

/-- A line that is overtaken has no place of its own. -/
theorem ne_of_overtaken (h : Placing s lines chunks) (hids : (lines.map Prod.fst).Nodup)
    {line : ChunkLine} (hl : line ∈ lines) (ho : Overtaken s lines line) :
    ∀ c ∈ chunks, c.id.toNat ≠ line.1.toNat := by
  intro c hc heq
  obtain ⟨line', hl', hno, hid⟩ := h.written c hc
  rw [hid] at heq
  have hsame : line' = line := List.inj_on_of_nodup_map hids hl' hl (UInt32.toNat_inj.1 heq)
  rw [hsame] at hno
  exact hno ho

/-- The offset of a chunk that is written does not wrap around, if no line's does. -/
theorem id_lt (h : Placing s lines chunks) (hsmall : ∀ line ∈ lines, line.1.toNat < 8192) :
    ∀ c ∈ chunks, c.id.toNat < 8192 := by
  intro c hc
  obtain ⟨line, hl, -, hid⟩ := h.written c hc
  rw [hid]
  exact hsmall line hl

/-- When every line has its chunk, the condition holds: what is at the place of a line that was
overtaken are the zeros of a hole, and the file goes on behind it. -/
theorem placeable (h : Placing s lines chunks) (hids : (lines.map Prod.fst).Nodup)
    (hall : Places lines (FileImage.writes (chunkWrites chunks)) chunks) : Placeable s lines := by
  have hB := btChunkSize_pos
  have hsmall : ∀ line ∈ lines, line.1.toNat < 8192 := by
    intro line hl
    obtain ⟨c, -, -, hholds⟩ := hall line hl
    have hsize := hholds.1.trans (size_chunkWrites_le chunks)
    rw [Vector.length_toList, ← Nat.succ_mul] at hsize
    exact Nat.le_of_mul_le_mul_right hsize hB
  have hsmall' := h.id_lt hsmall
  intro line hl
  refine ⟨hsmall line hl, fun ho => ?_⟩
  obtain ⟨c, hc, hhash, hholds⟩ := hall line hl
  have hne := h.ne_of_overtaken hids hl ho
  refine ⟨fun q hq => ?_, ?_⟩
  · rw [← (h.owned line hl q hq).2 c hc hhash]
    ext j hj
    have hbyte := hholds.2 j (by rw [Vector.length_toList]; exact hj)
    rw [byte_chunkWrites_of_untouched hj hsmall' hne, Vector.getElem_toList] at hbyte
    rw [← hbyte, Vector.getElem_replicate]
  · have hlt : line.1.toNat * btChunkSize < (FileImage.writes (chunkWrites chunks)).size := by
      have hsize := hholds.1
      rw [Vector.length_toList] at hsize
      omega
    obtain ⟨c', hc', hlt'⟩ := lt_size_chunkWrites_iff.1 hlt
    obtain ⟨line', hl', hno, hid⟩ := h.written c' hc'
    refine ⟨line', hl', hno, ?_⟩
    rw [u32_mul_of_lt (hsmall' c' hc'), ← Nat.succ_mul] at hlt'
    have hle : line.1.toNat ≤ c'.id.toNat := Nat.le_of_lt_succ (Nat.lt_of_mul_lt_mul_right hlt')
    rw [← hid]
    exact Nat.lt_of_le_of_ne hle (Ne.symm (hne c' hc'))

/-- Under the condition every line has its chunk. -/
theorem places (h : Placing s lines chunks) (hids : (lines.map Prod.fst).Nodup)
    (hall : Placeable s lines) : Places lines (FileImage.writes (chunkWrites chunks)) chunks := by
  have hsmall := h.id_lt fun line hl => (hall line hl).1
  intro line hl
  by_cases ho : Overtaken s lines line
  · -- the chunk of an overtaken line is all zeros, as is the hole at its place
    obtain ⟨hzero, line', hl', hno, hlt⟩ := (hall line hl).2 ho
    obtain ⟨q, hq⟩ := Option.isSome_iff_exists.1 ho.1
    obtain ⟨⟨c, hc, hhash⟩, hdata⟩ := h.owned line hl q hq
    obtain ⟨c', hc', hid, -⟩ := h.placed line' hl' hno
    refine ⟨c, hc, hhash, ?_, fun j hj => ?_⟩
    · have hsize := (holds_chunkWrites hsmall h.inj hc').1
      rw [Vector.length_toList, hid] at hsize
      rw [Vector.length_toList]
      refine Nat.le_trans ?_ hsize
      exact Nat.add_le_add_right (Nat.mul_le_mul_right _ (Nat.le_of_lt hlt)) _
    · have hj' : j < btChunkSize := by
        rw [Vector.length_toList] at hj
        exact hj
      rw [byte_chunkWrites_of_untouched hj' hsmall (h.ne_of_overtaken hids hl ho)]
      simp only [hdata c hc hhash, hzero q hq, Vector.getElem_toList, Vector.getElem_replicate]
  · obtain ⟨c, hc, hid, hhash⟩ := h.placed line hl ho
    have hholds := holds_chunkWrites hsmall h.inj hc
    rw [hid] at hholds
    exact ⟨c, hc, hhash, hholds⟩

/-- **The condition is exact, for the writes.** -/
theorem places_iff (h : Placing s lines chunks) (hids : (lines.map Prod.fst).Nodup) :
    Places lines (FileImage.writes (chunkWrites chunks)) chunks ↔ Placeable s lines :=
  ⟨h.placeable hids, h.places hids⟩

end Placing

/-! ### Reading the chunk file -/

theorem nodeFind_congr {α : Type*} {f g : α → Bool} {l : List α} (h : ∀ a ∈ l, f a = g a) :
    nodeFind f l = nodeFind g l := by
  induction l with
  | nil => rfl
  | cons a l ih =>
      rw [nodeFind, nodeFind, h a (List.mem_cons_self ..),
        ih fun b hb => h b (List.mem_cons_of_mem _ hb)]

theorem findOwned_eq_some {s : State} {hash : HexHash} {q : ℕ} (h : s.findOwned hash = some q) :
    q ∈ s.haveList ∧ (s.chunks.cell q).hexHash = hash := by
  obtain ⟨⟨i, r⟩, hfind, rfl⟩ := Option.map_eq_some_iff.1 h
  exact ⟨mem_of_nodeFind hfind, compareChunkByHexHash_iff.1 (nodeFind_eq_some_iff.1 hfind).2.1⟩

theorem findOwned_congr {s s' : State} (hl : s'.haveList = s.haveList)
    (hh : ∀ q ∈ s.haveList, (s'.chunks.cell q).hexHash = (s.chunks.cell q).hexHash)
    (hash : HexHash) : s'.findOwned hash = s.findOwned hash := by
  unfold State.findOwned
  rw [hl, nodeFind_congr fun q hq => ?_]
  rw [compareChunkByHexHash, compareChunkByHexHash, hh q hq]

theorem wantLine_of_none {s : State} {line : ChunkLine} (h : s.findOwned line.2 = none) :
    wantLine s line =
      { s with
        chunks := s.chunks.alloc { createChunk line.1.toUInt8 line.2 with id := line.1 }
        missing := s.chunks.next :: s.missing
        wanted := s.chunks.next :: s.wanted } := by
  unfold wantLine
  rw [Option.map_eq_none_iff.1 h]

theorem wantLine_of_some {s : State} {line : ChunkLine} {q : ℕ} (h : s.findOwned line.2 = some q) :
    wantLine s line =
      { s.modifyChunk q fun c => { c with id := line.1 } with wanted := q :: s.wanted } := by
  obtain ⟨⟨i, r⟩, hfind, rfl⟩ := Option.map_eq_some_iff.1 h
  unfold wantLine
  rw [hfind]

/-- Reading a chunk file makes no output and leaves the names. -/
theorem wantLines_names (lines : List ChunkLine) (s : State) :
    (lines.foldl wantLine s).userGetChunkFile = s.userGetChunkFile ∧
      (lines.foldl wantLine s).userOutputFilename = s.userOutputFilename ∧
      (lines.foldl wantLine s).outputs = s.outputs := by
  induction lines generalizing s with
  | nil => exact ⟨rfl, rfl, rfl⟩
  | cons line lines ih =>
      obtain ⟨hc, ho, hout⟩ := ih (wantLine s line)
      rw [List.foldl_cons, hc, ho, hout]
      unfold wantLine
      split <;> exact ⟨rfl, rfl, rfl⟩

/-- One more line overtakes the lines before it that name the same owned chunk. -/
theorem overtaken_concat_iff {s : State} {lines : List ChunkLine} {line new : ChunkLine} :
    Overtaken s (lines ++ [new]) line ↔ Overtaken s lines line ∨
      (s.findOwned line.2).isSome ∧ line ∈ lines ∧ new.2 = line.2 := by
  have hpair : ∀ line', [line, line'].Sublist (lines ++ [new]) ↔
      [line, line'].Sublist lines ∨ line ∈ lines ∧ line' = new := by
    intro line'
    constructor
    · intro h
      obtain ⟨l₁, l₂, heq, h₁, h₂⟩ := List.sublist_append_iff.1 h
      rcases List.sublist_singleton.1 h₂ with rfl | rfl
      · rw [List.append_nil] at heq
        exact Or.inl (heq ▸ h₁)
      · -- the pair ends with the new line, so one entry is left for the lines before
        cases l₁ with
        | nil => simp at heq
        | cons a l₁ =>
            obtain ⟨rfl, htail⟩ := List.cons.inj heq
            obtain ⟨rfl, hlast⟩ : l₁ = [] ∧ line' = new := by
              cases l₁ with
              | nil => simpa using htail
              | cons b l₁ => simp at htail
            exact Or.inr ⟨List.singleton_sublist.1 h₁, hlast⟩
    · rintro (h | ⟨hl, rfl⟩)
      · exact h.trans (List.sublist_append_left _ _)
      · exact (List.singleton_sublist.2 hl).append (List.Sublist.refl [line'])
  unfold Overtaken
  simp only [hpair]
  constructor
  · rintro ⟨hown, id, h | ⟨hl, rfl⟩⟩
    · exact Or.inl ⟨hown, id, h⟩
    · exact Or.inr ⟨hown, hl, rfl⟩
  · rintro (⟨hown, id, h⟩ | ⟨hown, hl, heq⟩)
    · exact ⟨hown, id, Or.inl h⟩
    · exact ⟨hown, new.1, Or.inr ⟨hl, by rw [← heq]⟩⟩

/-- **The invariant of reading the chunk file**, from the idle state `s₀`: what is wanted so far has
to do with the lines read so far as the chunks written have to do with all of them. -/
structure Listed (s₀ : State) (lines : List ChunkLine) (s : State) : Prop where
  haveList : s.haveList = s₀.haveList
  next_le : s₀.chunks.next ≤ s.chunks.next
  fresh : ∀ q ∈ s.wanted, q < s.chunks.next
  old : ∀ q < s₀.chunks.next, (s.chunks.cell q).hexHash = (s₀.chunks.cell q).hexHash ∧
    (s.chunks.cell q).chunkData = (s₀.chunks.cell q).chunkData
  written : ∀ q ∈ s.wanted, ∃ line ∈ lines, ¬ Overtaken s₀ lines line ∧
    (s.chunks.cell q).id = line.1 ∧ (s.chunks.cell q).hexHash = line.2
  placed : ∀ line ∈ lines, ¬ Overtaken s₀ lines line → ∃ q ∈ s.wanted,
    (s.chunks.cell q).id = line.1 ∧ (s.chunks.cell q).hexHash = line.2
  owned : ∀ line ∈ lines, ∀ q, s₀.findOwned line.2 = some q → q ∈ s.wanted ∧
    ∀ r ∈ s.wanted, (s.chunks.cell r).hexHash = line.2 → r = q
  inj : ∀ q ∈ s.wanted, ∀ r ∈ s.wanted, (s.chunks.cell q).id = (s.chunks.cell r).id → q = r

namespace Listed

variable {s₀ s : State} {lines : List ChunkLine}

/-- Before the first line. -/
theorem start (h : s₀.wanted = []) (chunkFile outputFile : String) :
    Listed s₀ [] { s₀ with userGetChunkFile := chunkFile, userOutputFilename := outputFile } := by
  have hnone : ∀ q, q ∉ s₀.wanted := by
    rw [h]
    exact fun _ => List.not_mem_nil
  exact ⟨rfl, Nat.le_refl _, fun q hq => absurd hq (hnone q), fun _ _ => ⟨rfl, rfl⟩,
    fun q hq => absurd hq (hnone q), fun _ hl => absurd hl List.not_mem_nil,
    fun _ hl => absurd hl List.not_mem_nil, fun q hq => absurd hq (hnone q)⟩

/-- The identifier of a new line is that of no line before. -/
theorem id_ne (h : Listed s₀ lines s) {id : UInt32} (hnew : id ∉ lines.map Prod.fst) :
    ∀ q ∈ s.wanted, (s.chunks.cell q).id ≠ id := by
  intro q hq heq
  obtain ⟨line, hl, -, hid, -⟩ := h.written q hq
  exact hnew (List.mem_map.2 ⟨line, hl, by rw [← hid, heq]⟩)

/-- **A line wants the chunk at `p`**, which was new or wanted before: every chunk comes from a line
that is not overtaken, if those of the other chunks are not. -/
theorem written_cons (h : Listed s₀ lines s) {new : ChunkLine} {p : ℕ} {chunks : Heap Chunk}
    (hid : (chunks.cell p).id = new.1) (hhash : (chunks.cell p).hexHash = new.2)
    (hcell : ∀ q ∈ s.wanted, q ≠ p → chunks.cell q = s.chunks.cell q)
    (hnot : ¬ Overtaken s₀ (lines ++ [new]) new)
    (hkeep : ∀ q ∈ s.wanted, q ≠ p → ∀ line ∈ lines, (s.chunks.cell q).hexHash = line.2 →
      ¬ Overtaken s₀ lines line → ¬ Overtaken s₀ (lines ++ [new]) line) :
    ∀ q ∈ p :: s.wanted, ∃ line ∈ lines ++ [new], ¬ Overtaken s₀ (lines ++ [new]) line ∧
      (chunks.cell q).id = line.1 ∧ (chunks.cell q).hexHash = line.2 := by
  intro q hq
  by_cases hqp : q = p
  · rw [hqp]
    exact ⟨new, List.mem_append_right _ (List.mem_singleton.2 rfl), hnot, hid, hhash⟩
  · have hwant := (List.mem_cons.1 hq).resolve_left hqp
    obtain ⟨line, hl, hno, hid', hhash'⟩ := h.written q hwant
    rw [hcell q hwant hqp]
    exact ⟨line, List.mem_append_left _ hl, hkeep q hwant hqp line hl hhash' hno, hid', hhash'⟩

/-- Its place is that of no other chunk. -/
theorem inj_cons (h : Listed s₀ lines s) {new : ChunkLine} (hnew : new.1 ∉ lines.map Prod.fst)
    {p : ℕ} {chunks : Heap Chunk} (hid : (chunks.cell p).id = new.1)
    (hcell : ∀ q ∈ s.wanted, q ≠ p → chunks.cell q = s.chunks.cell q) :
    ∀ q ∈ p :: s.wanted, ∀ r ∈ p :: s.wanted,
      (chunks.cell q).id = (chunks.cell r).id → q = r := by
  have hother := h.id_ne hnew
  have hwanted : ∀ r ∈ p :: s.wanted, r ≠ p → r ∈ s.wanted :=
    fun r hr hne => (List.mem_cons.1 hr).resolve_left hne
  intro q hq r hr heq
  by_cases hqp : q = p <;> by_cases hrp : r = p
  · rw [hqp, hrp]
  · rw [hqp, hid, hcell r (hwanted r hr hrp) hrp] at heq
    exact absurd heq.symm (hother r (hwanted r hr hrp))
  · rw [hrp, hid, hcell q (hwanted q hq hqp) hqp] at heq
    exact absurd heq (hother q (hwanted q hq hqp))
  · rw [hcell q (hwanted q hq hqp) hqp, hcell r (hwanted r hr hrp) hrp] at heq
    exact h.inj q (hwanted q hq hqp) r (hwanted r hr hrp) heq

/-- A line whose chunk is not owned makes a new one. -/
theorem wantLine_none (h : Listed s₀ lines s) {new : ChunkLine} (hnew : new.1 ∉ lines.map Prod.fst)
    (hs : s.findOwned new.2 = none) (hs₀ : s₀.findOwned new.2 = none) :
    Listed s₀ (lines ++ [new]) (wantLine s new) := by
  rw [wantLine_of_none hs]
  have hcell : ∀ q < s.chunks.next, (s.chunks.alloc
      { createChunk new.1.toUInt8 new.2 with id := new.1 }).cell q = s.chunks.cell q :=
    fun q hq => Heap.cell_alloc_of_lt _ _ hq
  have hself := Heap.cell_alloc_self s.chunks { createChunk new.1.toUInt8 new.2 with id := new.1 }
  have hover : ∀ line, Overtaken s₀ (lines ++ [new]) line ↔ Overtaken s₀ lines line := by
    intro line
    rw [overtaken_concat_iff]
    refine ⟨fun ho => ho.resolve_right ?_, Or.inl⟩
    rintro ⟨hown, -, heq⟩
    rw [← heq, hs₀] at hown
    cases hown
  have hnot : ¬ Overtaken s₀ lines new := by
    rintro ⟨hown, -⟩
    rw [hs₀] at hown
    cases hown
  refine ⟨h.haveList, Nat.le_succ_of_le h.next_le, ?_, ?_, ?_, ?_, ?_, ?_⟩
  · intro q hq
    rcases List.mem_cons.1 hq with rfl | hq
    · exact Nat.lt_succ_self _
    · exact Nat.lt_succ_of_lt (h.fresh q hq)
  · intro q hq
    simp only [hcell q (Nat.lt_of_lt_of_le hq h.next_le)]
    exact h.old q hq
  · refine h.written_cons (congrArg Chunk.id hself) (congrArg Chunk.hexHash hself)
      (fun q hq _ => hcell q (h.fresh q hq)) (by rw [hover]; exact hnot) ?_
    intro q _ _ line _ _ hno
    rw [hover]
    exact hno
  · intro line hl hno
    rw [hover] at hno
    rcases List.mem_append.1 hl with hl | hl
    · obtain ⟨q, hq, hid, hhash⟩ := h.placed line hl hno
      refine ⟨q, List.mem_cons_of_mem _ hq, ?_, ?_⟩
      · simp only [hcell q (h.fresh q hq), hid]
      · simp only [hcell q (h.fresh q hq), hhash]
    · rw [List.mem_singleton.1 hl]
      refine ⟨s.chunks.next, List.mem_cons_self .., ?_, ?_⟩
      · simp only [hself]
      · simp only [hself]
        rfl
  · intro line hl q hq
    rcases List.mem_append.1 hl with hl | hl
    · obtain ⟨hmem, huniq⟩ := h.owned line hl q hq
      refine ⟨List.mem_cons_of_mem _ hmem, fun r hr hhash => ?_⟩
      rcases List.mem_cons.1 hr with rfl | hr
      · simp only [hself] at hhash
        have heq : new.2 = line.2 := hhash
        rw [heq, hq] at hs₀
        cases hs₀
      · simp only [hcell r (h.fresh r hr)] at hhash
        exact huniq r hr hhash
    · rw [List.mem_singleton.1 hl, hs₀] at hq
      cases hq
  · exact h.inj_cons hnew (congrArg Chunk.id hself) fun q hq _ => hcell q (h.fresh q hq)

/-- A line whose chunk is owned gives it a new place, and overtakes the lines that named it. -/
theorem wantLine_some (h : Listed s₀ lines s) (hown : ∀ q ∈ s₀.haveList, q < s₀.chunks.next)
    {new : ChunkLine} (hnew : new.1 ∉ lines.map Prod.fst) {p : ℕ} (hs : s.findOwned new.2 = some p)
    (hs₀ : s₀.findOwned new.2 = some p) : Listed s₀ (lines ++ [new]) (wantLine s new) := by
  rw [wantLine_of_some hs]
  have hself := Heap.cell_modify_self s.chunks p fun c => { c with id := new.1 }
  have hcell : ∀ q ≠ p, (s.chunks.modify p fun c => { c with id := new.1 }).cell q =
      s.chunks.cell q := fun q hq => Heap.cell_modify_of_ne _ _ hq
  have hhex : ∀ q, ((s.chunks.modify p fun c => { c with id := new.1 }).cell q).hexHash =
      (s.chunks.cell q).hexHash :=
    Heap.proj_modify s.chunks p (fun c => { c with id := new.1 }) Chunk.hexHash fun _ => rfl
  have hdata : ∀ q, ((s.chunks.modify p fun c => { c with id := new.1 }).cell q).chunkData =
      (s.chunks.cell q).chunkData :=
    Heap.proj_modify s.chunks p (fun c => { c with id := new.1 }) Chunk.chunkData fun _ => rfl
  obtain ⟨-, hhash⟩ := findOwned_eq_some hs
  have hnot : ¬ Overtaken s₀ (lines ++ [new]) new := by
    rw [overtaken_concat_iff]
    rintro (⟨-, id, hsub⟩ | ⟨-, hl, -⟩)
    · exact hnew (List.mem_map_of_mem (hsub.subset (List.mem_cons_self ..)))
    · exact hnew (List.mem_map_of_mem hl)
  refine ⟨h.haveList, h.next_le, ?_, ?_, ?_, ?_, ?_, ?_⟩
  · intro q hq
    rcases List.mem_cons.1 hq with rfl | hq
    · exact Nat.lt_of_lt_of_le (hown q (findOwned_eq_some hs₀).1) h.next_le
    · exact h.fresh q hq
  · intro q hq
    simp only [State.modifyChunk, hhex, hdata]
    exact h.old q hq
  · refine h.written_cons (congrArg Chunk.id hself) ((hhex p).trans hhash)
      (fun q _ hq => hcell q hq) hnot ?_
    intro q hq hqp line hl hh hno
    rw [overtaken_concat_iff]
    -- were the line overtaken now, the chunk would be the one the new line names
    rintro (ho | ⟨-, -, heq⟩)
    · exact hno ho
    · rw [heq] at hs₀
      exact hqp ((h.owned line hl p hs₀).2 q hq hh)
  · intro line hl hno
    simp only [State.modifyChunk, hhex]
    rcases List.mem_append.1 hl with hl | hl
    · rw [overtaken_concat_iff, not_or] at hno
      obtain ⟨q, hq, hid, hh⟩ := h.placed line hl hno.1
      have hqp : q ≠ p := by
        rintro rfl
        have heq : new.2 = line.2 := hhash.symm.trans hh
        exact hno.2 ⟨by rw [← heq, hs₀]; rfl, hl, heq⟩
      exact ⟨q, List.mem_cons_of_mem _ hq, by simp only [hcell q hqp, hid], hh⟩
    · rw [List.mem_singleton.1 hl]
      exact ⟨p, List.mem_cons_self .., by simp only [hself], hhash⟩
  · intro line hl q hq
    simp only [State.modifyChunk, hhex]
    have hsame : ∀ r, (s.chunks.cell r).hexHash = line.2 → r = p → r = q := by
      rintro r hr rfl
      rw [← hr, hhash, hs₀] at hq
      exact Option.some.inj hq
    rcases List.mem_append.1 hl with hl | hl
    · obtain ⟨hmem, huniq⟩ := h.owned line hl q hq
      refine ⟨List.mem_cons_of_mem _ hmem, fun r hr hh => ?_⟩
      rcases List.mem_cons.1 hr with hrp | hr
      · exact hsame r hh hrp
      · exact huniq r hr hh
    · rw [List.mem_singleton.1 hl] at hq ⊢
      rw [hs₀] at hq
      cases hq
      refine ⟨List.mem_cons_self .., fun r hr hh => ?_⟩
      rcases List.mem_cons.1 hr with rfl | hr
      · rfl
      · -- the chunk was wanted before by a line with the same hash
        obtain ⟨line', hl', -, -, hh'⟩ := h.written r hr
        exact (h.owned line' hl' p (by rw [← hh', hh]; exact hs₀)).2 r hr hh'
  · exact h.inj_cons hnew (congrArg Chunk.id hself) fun q _ hq => hcell q hq

/-- **One more line.** -/
theorem wantLine (h : Listed s₀ lines s) (hown : ∀ q ∈ s₀.haveList, q < s₀.chunks.next)
    {new : ChunkLine} (hnew : new.1 ∉ lines.map Prod.fst) :
    Listed s₀ (lines ++ [new]) (wantLine s new) := by
  have hsame : s.findOwned new.2 = s₀.findOwned new.2 :=
    findOwned_congr h.haveList (fun q hq => (h.old q (hown q hq)).1) new.2
  cases hs : s.findOwned new.2 with
  | none => exact h.wantLine_none hnew hs (hsame.symm.trans hs)
  | some p => exact h.wantLine_some hown hnew hs (hsame.symm.trans hs)

/-- **All lines.** -/
theorem wantLines {rest : List ChunkLine} (h : Listed s₀ lines s)
    (hown : ∀ q ∈ s₀.haveList, q < s₀.chunks.next)
    (hids : ((lines ++ rest).map Prod.fst).Nodup) :
    Listed s₀ (lines ++ rest) (rest.foldl P2P.wantLine s) := by
  induction rest generalizing lines s with
  | nil =>
      rw [List.append_nil]
      exact h
  | cons new rest ih =>
      have hnew : new.1 ∉ lines.map Prod.fst := by
        rw [List.map_append, List.map_cons] at hids
        exact fun hmem => (List.nodup_append.1 hids).2.2 _ hmem _ (List.mem_cons_self ..) rfl
      have hone := ih (h.wantLine hown hnew) (by rw [List.append_assoc]; exact hids)
      rw [List.append_assoc] at hone
      exact hone

end Listed

/-! ### Waiting for the chunks -/

/-- **What stays as it is** until the output. -/
structure Waits (s s' : State) : Prop where
  wanted : s'.wanted = s.wanted
  chunkFile : s'.userGetChunkFile = s.userGetChunkFile
  outputFile : s'.userOutputFilename = s.userOutputFilename
  id : ∀ q, (s'.chunks.cell q).id = (s.chunks.cell q).id
  hexHash : ∀ q, (s'.chunks.cell q).hexHash = (s.chunks.cell q).hexHash
  kept : ∀ q ∈ s.haveList, q ∈ s'.haveList
  data : ∀ q ∈ s.haveList, (s'.chunks.cell q).chunkData = (s.chunks.cell q).chunkData
  outputs : s'.outputs = s.outputs

namespace Waits

variable {s s' s'' : State}

theorem refl (s : State) : Waits s s :=
  ⟨rfl, rfl, rfl, fun _ => rfl, fun _ => rfl, fun _ h => h, fun _ _ => rfl, rfl⟩

theorem trans (h : Waits s s') (h' : Waits s' s'') : Waits s s'' where
  wanted := h'.wanted.trans h.wanted
  chunkFile := h'.chunkFile.trans h.chunkFile
  outputFile := h'.outputFile.trans h.outputFile
  id q := (h'.id q).trans (h.id q)
  hexHash q := (h'.hexHash q).trans (h.hexHash q)
  kept q hq := h'.kept q (h.kept q hq)
  data q hq := (h'.data q (h.kept q hq)).trans (h.data q hq)
  outputs := h'.outputs.trans h.outputs

theorem of_frame (h : Frame s s') : Waits s s' := by
  refine ⟨h.wanted, h.chunkFile, h.outputFile, fun q => ?_, fun q => ?_, ?_,
    fun q _ => h.chunkData q, h.outputs⟩
  · have hq := congrArg Chunk.id (h.content q)
    exact hq
  · have hq := congrArg Chunk.hexHash (h.content q)
    exact hq
  · rw [h.haveList]
    exact fun _ hq => hq

/-- Writing the data of a chunk that is not owned. -/
theorem modifyChunk (s : State) {q : ℕ} {f : Chunk → Chunk}
    (hid : (f (s.chunks.cell q)).id = (s.chunks.cell q).id)
    (hhex : (f (s.chunks.cell q)).hexHash = (s.chunks.cell q).hexHash)
    (hdata : q ∈ s.haveList → f (s.chunks.cell q) = s.chunks.cell q) :
    Waits s (s.modifyChunk q f) := by
  have hproj : ∀ {β : Type} (π : Chunk → β) (r : ℕ),
      (r = q → π (f (s.chunks.cell q)) = π (s.chunks.cell q)) →
        π ((s.modifyChunk q f).chunks.cell r) = π (s.chunks.cell r) := by
    intro β π r hr
    rw [State.modifyChunk, Heap.cell_modify]
    split
    · rename_i hrq
      rw [hrq]
      exact hr hrq
    · rfl
  refine ⟨rfl, rfl, rfl, fun r => hproj Chunk.id r fun _ => hid,
    fun r => hproj Chunk.hexHash r fun _ => hhex, fun _ h => h,
    fun r hr => hproj Chunk.chunkData r fun hrq => ?_, rfl⟩
  rw [hdata (hrq ▸ hr)]

variable {shahash : List UInt8 → BinHash} {own : ℕ} {start : ℕ → Chunk} {kept : List ℕ}

/-- Storing a piece: an owned chunk has it already. -/
theorem store (h : Intact shahash own start kept s) {q : ℕ} (hq : own ≤ q) {pack : Packet}
    {c : Chunk} (hc : storeData pack (s.chunks.cell q) = .ok c) :
    Waits s (s.modifyChunk q fun _ => c) := by
  obtain ⟨hlt, ⟨-, rfl⟩ | ⟨hz, -, _, rfl⟩⟩ := storeData_cases hc
  · exact modifyChunk s rfl rfl fun _ => rfl
  · refine modifyChunk s rfl rfl fun hhave => ?_
    -- all marks of an owned chunk are set, so a piece that is stored is not one of its pieces
    rcases h.sealed_of_mem hhave with hown | ⟨-, hbits, -⟩
    · omega
    · exact absurd hz (hbits _ hlt)

/-- Discarding wrong data: an owned chunk has none. -/
theorem discard (h : Intact shahash own start kept s) {q : ℕ} (hq : own ≤ q)
    (hbad : ¬ (s.chunks.cell q).Verified shahash) : Waits s (s.modifyChunk q discardData) := by
  refine modifyChunk s rfl rfl fun hhave => ?_
  rcases h.sealed_of_mem hhave with hown | ⟨-, -, hok⟩
  · exact absurd hown (Nat.not_lt.2 hq)
  · exact absurd hok hbad

end Waits

/-- Since `s`, the client waited for some time and then made an output. -/
def Delivers (s s' : State) : Prop :=
  ∃ s₁, Waits s s₁ ∧ ∃ rest, s'.outputs = s₁.outputs ++ s₁.output :: rest

/-- Waiting, and then waiting or an output. -/
theorem waits_or_delivers_trans {s s' s'' : State} (h : Waits s s' ∨ Delivers s s')
    (h' : Waits s' s'' ∨ Delivers s' s'') : Waits s s'' ∨ Delivers s s'' := by
  rcases h with hw | ⟨s₁, hw, rest, hout⟩
  · rcases h' with hw' | ⟨s₂, hw', hmade⟩
    · exact Or.inl (hw.trans hw')
    · exact Or.inr ⟨s₂, hw.trans hw', hmade⟩
  · refine Or.inr ⟨s₁, hw, ?_⟩
    rcases h' with hw' | ⟨s₂, hw', rest', hout'⟩
    · exact ⟨rest, hw'.outputs.trans hout⟩
    · exact ⟨rest ++ s₂.output :: rest', by rw [hout', hw'.outputs, hout]; simp⟩

/-- Looking whether anything is missing makes an output, or changes nothing. -/
theorem checkAllReceived_waits (s : State) :
    Waits s (checkAllReceived s) ∨ Delivers s (checkAllReceived s) := by
  unfold checkAllReceived
  split
  · exact Or.inr ⟨s, Waits.refl s, [], outputs_constructData s⟩
  · exact Or.inl (Waits.refl s)

/-- The event is no request of the user. -/
def Event.NoGet : Event → Prop
  | .userGet _ _ _ => False
  | _ => True

/-- **A step without a request** leaves the client waiting, or makes an output. -/
theorem step_waits {shahash : List UInt8 → BinHash} {own : ℕ} {start : ℕ → Chunk} {kept : List ℕ}
    {s s' : State} {e : Event} (h : Intact shahash own start kept s) (hget : e.NoGet)
    (he : step shahash s e = .ok s') : Waits s s' ∨ Delivers s s' := by
  obtain ⟨chunkFile, outputFile, lines, rfl, -⟩ | ⟨_, pack, peer, -, -, -, hr⟩ | hmoves :=
    step_cases he
  · exact hget.elim
  · obtain ⟨-, rfl⟩ | ⟨i, t, c, hfind, hstore, s₁, hs₁, hend⟩ := receiveDATA_cases hr
    · exact Or.inl (Waits.refl _)
    · -- up to the check the client waits, whether the piece was new or not
      have ht := h.incoming t (mem_of_nodeFind hfind)
      have hmoves : Moves Kind.Any (s.modifyChunk t.c fun _ => c) s₁ := hs₁ ▸ moves_sendACK _ _ _
      have h₁ := (h.store ht.1 hstore).moves hmoves
      have hw := (Waits.store h ht.1 hstore).trans (.of_frame hmoves.frame)
      rcases hend with ⟨-, rfl⟩ | ⟨-, rfl⟩
      · exact Or.inl hw
      · have hlast : Moves Kind.Any (finishChunk shahash s₁ t.c)
            (getChunkData ((finishChunk shahash s₁ t.c).deleteIncoming i)) :=
          moves_afterFinish trivial trivial _ i
        have hafter := Waits.of_frame hlast.frame
        have hcheck : ∀ s₂, Waits s₁ s₂ → finishChunk shahash s₁ t.c = checkAllReceived s₂ →
            Waits s (getChunkData ((finishChunk shahash s₁ t.c).deleteIncoming i)) ∨
              Delivers s (getChunkData ((finishChunk shahash s₁ t.c).deleteIncoming i)) := by
          intro s₂ hs₂ heq
          rw [heq] at hafter ⊢
          exact waits_or_delivers_trans (waits_or_delivers_trans (Or.inl (hw.trans hs₂))
            (checkAllReceived_waits s₂)) (Or.inl hafter)
        obtain ⟨hbad, heq⟩ | ⟨-, -, heq⟩ | ⟨-, j, r, -, -, -, heq⟩ :=
          finishChunk_cases shahash s₁ t.c
        · rw [heq] at hafter ⊢
          exact Or.inl ((hw.trans (Waits.discard h₁ ht.1 hbad)).trans hafter)
        · exact hcheck s₁ (Waits.refl s₁) heq
        · exact hcheck (s₁.accept j t.c) ⟨rfl, rfl, rfl, fun _ => rfl, fun _ => rfl,
            fun _ hq => List.mem_cons_of_mem _ hq, fun _ _ => rfl, rfl⟩ heq
  · exact Or.inl (.of_frame hmoves.frame)

/-- **A run without requests** leaves the client waiting, or makes an output first of all. -/
theorem run_waits {shahash : List UInt8 → BinHash} {own : ℕ} {start : ℕ → Chunk} {kept : List ℕ}
    {s s' : State} {es : List Event} (h : Intact shahash own start kept s)
    (hget : ∀ e ∈ es, e.NoGet) (he : Machine.run (step shahash) s es = .ok s') :
    Waits s s' ∨ Delivers s s' := by
  induction es generalizing s with
  | nil =>
      cases he
      exact Or.inl (Waits.refl _)
  | cons e es ih =>
      obtain ⟨u, hu, hrest⟩ := Machine.run_cons_inv _ he
      exact waits_or_delivers_trans (step_waits h (hget e (List.mem_cons_self ..)) hu)
        (ih (h.step hu) (fun f hf => hget f (List.mem_cons_of_mem _ hf)) hrest)

/-! ### Runs -/

/-- What was written at the output, after the chunk file was read and the chunks were waited for. -/
theorem placing_of_waits {s₀ s₁ s₂ : State} {lines : List ChunkLine}
    (hown : ∀ q ∈ s₀.haveList, q < s₀.chunks.next) (h : Listed s₀ lines s₁) (hw : Waits s₁ s₂) :
    Placing s₀ lines (s₂.wanted.map s₂.chunks.cell) := by
  have hmem : ∀ {q}, q ∈ s₁.wanted → s₂.chunks.cell q ∈ s₂.wanted.map s₂.chunks.cell := by
    intro q hq
    rw [hw.wanted]
    exact List.mem_map_of_mem hq
  have hback : ∀ {c}, c ∈ s₂.wanted.map s₂.chunks.cell → ∃ q ∈ s₁.wanted, c = s₂.chunks.cell q := by
    intro c hc
    obtain ⟨q, hq, rfl⟩ := List.mem_map.1 hc
    exact ⟨q, hw.wanted ▸ hq, rfl⟩
  refine ⟨?_, ?_, ?_, ?_⟩
  · intro c hc
    obtain ⟨q, hq, rfl⟩ := hback hc
    obtain ⟨line, hl, hno, hid, -⟩ := h.written q hq
    exact ⟨line, hl, hno, (hw.id q).trans hid⟩
  · intro line hl hno
    obtain ⟨q, hq, hid, hhash⟩ := h.placed line hl hno
    exact ⟨_, hmem hq, (hw.id q).trans hid, (hw.hexHash q).trans hhash⟩
  · intro line hl q hq
    obtain ⟨hwant, huniq⟩ := h.owned line hl q hq
    obtain ⟨hhave, hhash⟩ := findOwned_eq_some hq
    have hold := h.old q (hown q hhave)
    refine ⟨⟨_, hmem hwant, (hw.hexHash q).trans (hold.1.trans hhash)⟩, ?_⟩
    intro c hc hhex
    obtain ⟨r, hr, rfl⟩ := hback hc
    rw [huniq r hr ((hw.hexHash r).symm.trans hhex), hw.data q (h.haveList ▸ hhave), hold.2]
  · intro c hc c' hc' heq
    obtain ⟨q, hq, rfl⟩ := hback hc
    obtain ⟨r, hr, rfl⟩ := hback hc'
    rw [hw.id, hw.id] at heq
    rw [h.inj q hq r hr heq]

/-- **The output has everything in its place if and only if the chunk file is placeable**: for the
only outstanding request, in every run from set-up. -/
theorem output_places_iff (shahash : List UInt8 → BinHash) (setup : Setup) (clock : ℕ → ℕ)
    (junk : ℕ → Packet) (es₀ : List Event) (s₀ : State)
    (hrun₀ : Machine.run (step shahash) (peerSetup setup clock junk) es₀ = .ok s₀)
    (hidle : s₀.wanted = []) (chunkFile outputFile : String) (lines : List ChunkLine)
    (hids : (lines.map Prod.fst).Nodup) (es : List Event) (hget : ∀ e ∈ es, e.NoGet) (s : State)
    (hrun : Machine.run (step shahash) s₀ (.userGet chunkFile outputFile lines :: es) = .ok s)
    (o : Effect) (rest : List Effect) (hout : s.outputs = s₀.outputs ++ o :: rest) :
    o.Places chunkFile outputFile lines ↔ Placeable s₀ lines := by
  have h₀ : Intact shahash setup.own.length (peerSetup setup clock junk).chunks.cell
      (peerSetup setup clock junk).haveList s₀ :=
    Machine.run_invariant (fun _ _ _ h he => h.step he) (Intact.setup shahash setup clock junk)
      hrun₀
  have hown : ∀ q ∈ s₀.haveList, q < s₀.chunks.next := fun _ => h₀.lt_of_owned
  obtain ⟨u, hu, hrest⟩ := Machine.run_cons_inv _ hrun
  cases hu
  -- the state when the chunk file was read
  set s₁ := lines.foldl wantLine
    { s₀ with userGetChunkFile := chunkFile, userOutputFilename := outputFile } with hs₁
  have hlist : Listed s₀ lines s₁ := (Listed.start hidle chunkFile outputFile).wantLines hown hids
  obtain ⟨hchunkFile, houtputFile, houtputs⟩ := wantLines_names lines
    { s₀ with userGetChunkFile := chunkFile, userOutputFilename := outputFile }
  have hprogress : Waits s₁ s ∨ Delivers s₁ s :=
    waits_or_delivers_trans (waits_or_delivers_trans (checkAllReceived_waits s₁)
      (Or.inl (.of_frame (moves_sendWHOHAS _ : Moves Kind.Any _ _).frame)))
      (run_waits (h₀.step (e := .userGet chunkFile outputFile lines) rfl) hget hrest)
  have houtputs' : s₁.outputs = s₀.outputs := houtputs
  rcases hprogress with hw | ⟨s₂, hw, rest', hmade⟩
  · rw [hw.outputs, houtputs'] at hout
    simp at hout
  · rw [hw.outputs, houtputs', hout] at hmade
    obtain ⟨rfl, -⟩ := List.cons.inj (List.append_cancel_left hmade)
    rw [← (placing_of_waits hown hlist hw).places_iff hids, ← outputWrites_eq]
    exact ⟨fun h => h.2.2, fun h => ⟨hw.outputFile.trans houtputFile,
      hw.chunkFile.trans hchunkFile, h⟩⟩

/-- A peer that owns a chunk with the first byte `7`. -/
def sevenOwner : Setup := { zerosOwner with master := some [7] }

/-- A chunk file with one line, for the chunk that is owned. -/
theorem output_places_one : ∃ s o, Machine.run (step headHash)
      (peerSetup sevenOwner (fun _ => 0) fun _ => zeroPacket)
      [.userGet "a" "b" [(0, onesHex)]] = .ok s ∧ s.outputs = [o] ∧
    (o.Places "a" "b" [(0, onesHex)] ↔
      Placeable (peerSetup sevenOwner (fun _ => 0) fun _ => zeroPacket) [(0, onesHex)]) :=
  ⟨_, _, rfl, rfl, output_places_iff headHash sevenOwner (fun _ => 0) (fun _ => zeroPacket) [] _
    rfl rfl "a" "b" [(0, onesHex)] (by decide) [] (fun _ he => absurd he List.not_mem_nil) _ rfl _
    [] rfl⟩

/-- **An output that has no place for a line.**  Two lines name the chunk that is owned, and it is
written at the place of the second one only. -/
theorem output_misplaced : ∃ s o, Machine.run (step headHash)
      (peerSetup sevenOwner (fun _ => 0) fun _ => zeroPacket)
      [.userGet "a" "b" [(1, onesHex), (0, onesHex)]] = .ok s ∧ s.outputs = [o] ∧
    ¬ o.Places "a" "b" [(1, onesHex), (0, onesHex)] := by
  have hshort : ∀ s : State, s.wanted = [0, 0] → (s.chunks.cell 0).id = 0 →
      ¬ Places [(1, onesHex), (0, onesHex)] (FileImage.writes (outputWrites s))
        (s.wanted.map s.chunks.cell) := by
    intro s hwanted hid hall
    obtain ⟨c, -, -, hholds⟩ := hall (1, onesHex) (List.mem_cons_self ..)
    have hsize : btChunkSize < (FileImage.writes (outputWrites s)).size := by
      have hle := hholds.1
      have hpos := btChunkSize_pos
      have hone : (1 : UInt32).toNat = 1 := rfl
      rw [Vector.length_toList, hone, Nat.one_mul] at hle
      omega
    rw [outputWrites_eq, lt_size_chunkWrites_iff, hwanted] at hsize
    obtain ⟨c', hc', hlt⟩ := hsize
    have hzero : c' = s.chunks.cell 0 := by simpa using hc'
    rw [hzero, hid] at hlt
    exact absurd hlt (by decide)
  exact ⟨_, _, rfl, rfl, fun h => hshort _ rfl rfl h.2.2⟩

end P2P
