/-
**What is downloaded is what was published.**

A file is published as a list of hashes, one for each of its chunks, and a peer that has downloaded
it has seen nothing of it but pieces from strangers.  In a run in which no hash is asked for twice,
every chunk that is written to the output has the hash that its line names.  So the output is the
published file; or else one of its chunks is not the chunk that was published and has the same hash,
and then the compression of the hash function was met with two different arguments and one value, at
a place that can be found by hashing the two.

Main definitions:

* `P2P.Publishes` — the lines of a chunk file for a file;
* `P2P.Forged` — a chunk with the hash of a published one, and other data.

Main results:

* `P2P.Difference.acceptsItself`, `P2P.acceptsItself_of_run` — a chunk that is validated is itself
  the missing chunk with its hash;
* `P2P.first_output` — the first output after a request;
* `P2P.download_exact` — **the output is the published file**, or one of its chunks is forged;
* `P2P.forged_known` — chunks can be forged, as the hash function is SHA-1.
-/

import P2PFileTransfer.Collision
import P2PFileTransfer.Missing

set_option relaxedAutoImplicit false
set_option autoImplicit false

namespace P2P

/-! ### Outputs and what was stored in them -/

/-- The chunks of an output have the property. -/
def Effect.Of (P : Chunk → Prop) : Effect → Prop
  | .send _ _ _ => True
  | .output _ _ _ chunks => ∀ c ∈ chunks, P c

namespace Chunk.Stable

variable {P : Chunk → Prop} {s s' : State}

theorem of_output (hs : ∀ q, P (s.chunks.cell q)) : s.output.Of P := by
  intro c hc
  obtain ⟨q, -, rfl⟩ := List.mem_map.1 hc
  exact hs q

/-- `check_all_received`, after what made no output. -/
theorem outputs_checkAllReceived (hs : ∀ q, P (s'.chunks.cell q))
    (ho : ∀ o ∈ s.outputs, Effect.Of P o) (hsame : s'.outputs = s.outputs) :
    ∀ o ∈ (P2P.checkAllReceived s').outputs, Effect.Of P o := by
  rw [P2P.outputs_checkAllReceived]
  split
  · intro o hmem
    rcases List.mem_append.1 hmem with hmem | hmem
    · exact ho o (hsame ▸ hmem)
    · rw [List.mem_singleton.1 hmem]
      exact of_output hs
  · intro o hmem
    exact ho o (hsame ▸ hmem)

/-- **Every step keeps the property for the chunks of every output.** -/
theorem step_outputs {shahash : List UInt8 → BinHash} {e : Event} (h : Chunk.Stable P)
    (hs : ∀ q, P (s.chunks.cell q)) (ho : ∀ o ∈ s.outputs, Effect.Of P o)
    (he : P2P.step shahash s e = .ok s') : ∀ o ∈ s'.outputs, Effect.Of P o := by
  obtain ⟨chunkFile, outputFile, lines, -, rfl⟩ | ⟨_, pack, peer, -, -, -, hr⟩ | ⟨-, hmoves⟩ :=
    step_split he
  · have hf := (moves_sendWHOHAS (createWantedMissingList
      { s with userGetChunkFile := chunkFile, userOutputFilename := outputFile } lines) :
        Moves Kind.Any _ _).frame
    rw [processGet, hf.outputs]
    exact outputs_checkAllReceived (h.wantLines (s := { s with
      userGetChunkFile := chunkFile, userOutputFilename := outputFile }) hs lines) ho
      (wantLines_names lines _).2.2
  · obtain ⟨-, rfl⟩ | ⟨i, t, c, -, hstore, s₁, hs₁, hend⟩ := receiveDATA_cases hr
    · exact ho
    · have hmoves : Moves Kind.Any (s.modifyChunk t.c fun _ => c) s₁ := hs₁ ▸ moves_sendACK _ _ _
      have hf := hmoves.frame
      have h₁ : ∀ q, P (s₁.chunks.cell q) := h.frame (modifyChunk hs t.c (h.store hstore)) hf
      have ho₁ : s₁.outputs = s.outputs := hf.outputs
      rcases hend with ⟨-, rfl⟩ | ⟨-, rfl⟩
      · rw [ho₁]
        exact ho
      · rw [(moves_afterFinish trivial trivial _ i : Moves Kind.Any _ _).frame.outputs]
        obtain ⟨-, heq⟩ | ⟨-, -, heq⟩ | ⟨-, j, r, -, -, -, heq⟩ := finishChunk_cases shahash s₁ t.c
        · rw [heq]
          intro o hmem
          exact ho o (ho₁ ▸ hmem)
        · rw [heq]
          exact outputs_checkAllReceived h₁ ho ho₁
        · rw [heq]
          have h₂ : ∀ q, P ((s₁.accept j t.c).chunks.cell q) := h₁
          exact outputs_checkAllReceived h₂ ho ho₁
  · rw [hmoves.frame.outputs]
    exact ho

end Chunk.Stable

/-- **The chunks of every output are labelled.** -/
theorem outputs_labelled {shahash : List UInt8 → BinHash} {setup : Setup} {clock : ℕ → ℕ}
    {junk : ℕ → Packet} {es : List Event} {s : State}
    (hrun : Machine.run (step shahash) (peerSetup setup clock junk) es = .ok s) :
    ∀ o ∈ s.outputs, Effect.Of Chunk.Labelled o :=
  (Machine.run_invariant (P := fun s => Labelled s ∧ ∀ o ∈ s.outputs, Effect.Of Chunk.Labelled o)
    (fun _ _ _ hs he => ⟨hs.1.step he, stable_labelled.step_outputs hs.1 hs.2 he⟩)
    ⟨labelled_peerSetup setup clock junk, fun _ ho => absurd ho List.not_mem_nil⟩ hrun).2

/-! ### No hash is asked for twice -/

/-- **A chunk that is validated is the missing chunk with its hash**, as no two missing chunks have
one hash. -/
theorem Difference.acceptsItself {s : State} (h : Difference s) (hc : ClientList s)
    (shahash : List UInt8 → BinHash) (e : Event) : AcceptsItself shahash s e := by
  cases e with
  | userGet chunkFile outputFile lines => trivial
  | serverTimeout => trivial
  | clientTimeout => trivial
  | packet src pack =>
      intro peer i t c _ _ hfind _ _ _ j r hr
      obtain ⟨hget, heq, -⟩ := nodeFind_eq_some_iff.1 hr
      have hmem : r ∈ s.wanted := h.sublist.subset (List.mem_of_getElem? hget)
      have hself : t.c ∈ s.wanted := h.sublist.subset (hc.missing t (mem_of_nodeFind hfind))
      exact List.inj_on_of_nodup_map h.nodup hmem hself (compareChunkByBinHash_iff.1 heq)

/-- Every step of a run that asks for no hash twice meets the condition. -/
theorem acceptsItself_of_run {shahash : List UInt8 → BinHash} {setup : Setup} {clock : ℕ → ℕ}
    {junk : ℕ → Packet} {es : List Event} {s : State}
    (hrun : Machine.run (step shahash) (peerSetup setup clock junk) es = .ok s)
    (hno : NoRepeats shahash (peerSetup setup clock junk) es) :
    Machine.Along (step shahash) (AcceptsItself shahash) (peerSetup setup clock junk) es := by
  refine Machine.history_invariant (P := fun es _ =>
    NoRepeats shahash (peerSetup setup clock junk) es →
      Machine.Along (step shahash) (AcceptsItself shahash) (peerSetup setup clock junk) es)
    (fun _ => trivial) (fun es t e u hrun ih _ hno => ?_) hrun hno
  exact (Machine.along_concat hrun).2 ⟨ih hno.init,
    (difference_of_run hrun hno.init).1.acceptsItself (ClientList.of_run hrun) shahash e⟩

/-- **What is output has the right hash**, in every run that asks for no hash twice. -/
theorem verified_of_run {shahash : List UInt8 → BinHash} {setup : Setup} {clock : ℕ → ℕ}
    {junk : ℕ → Packet} (hown : ∀ line ∈ setup.own, (ownChunk setup.master line).Verified shahash)
    {es : List Event} {s : State}
    (hrun : Machine.run (step shahash) (peerSetup setup clock junk) es = .ok s)
    (hno : NoRepeats shahash (peerSetup setup clock junk) es) : s.OutputsVerified shahash := by
  have hstart : ∀ q < setup.own.length,
      ((peerSetup setup clock junk).chunks.cell q).Verified shahash := by
    intro q hq
    obtain ⟨line, hl, hcell⟩ : ∃ line ∈ setup.own,
        (peerSetup setup clock junk).chunks.cell q = ownChunk setup.master line := by
      refine ⟨setup.own[q], List.getElem_mem hq, ?_⟩
      simp only [peerSetup, Heap.ofList, List.getD, List.getElem?_map, List.getElem?_eq_getElem hq,
        Option.map_some, Option.getD_some]
    rw [hcell]
    exact hown line hl
  have h₀ : Served shahash setup.own.length (peerSetup setup clock junk).chunks.cell
      (peerSetup setup clock junk) :=
    ⟨{ Intact.setup shahash setup clock junk with kept := List.nil_suffix },
      fun _ hq => absurd hq List.not_mem_nil, fun _ he => absurd he List.not_mem_nil⟩
  exact (Machine.run_invariant_along (fun _ _ _ h hg he => h.step hstart hg he) h₀
    (acceptsItself_of_run hrun hno) hrun).outputs

/-! ### The first output after a request -/

/-- The parts of `Waits` say what the first output is made of. -/
theorem first_output {shahash : List UInt8 → BinHash} {setup : Setup} {clock : ℕ → ℕ}
    {junk : ℕ → Packet} {es₀ es : List Event} {s₀ s : State} {chunkFile outputFile : String}
    {lines : List ChunkLine} {o : Effect} {rest : List Effect}
    (hrun₀ : Machine.run (step shahash) (peerSetup setup clock junk) es₀ = .ok s₀)
    (hidle : s₀.wanted = []) (hids : (lines.map Prod.fst).Nodup) (hget : ∀ e ∈ es, e.NoGet)
    (hrun : Machine.run (step shahash) s₀ (.userGet chunkFile outputFile lines :: es) = .ok s)
    (hout : s.outputs = s₀.outputs ++ o :: rest) :
    ∃ chunks, o = .output outputFile chunkFile (FileImage.writes (chunkWrites chunks)) chunks ∧
      Placing s₀ lines chunks := by
  have h₀ : Intact shahash setup.own.length (peerSetup setup clock junk).chunks.cell
      (peerSetup setup clock junk).haveList s₀ :=
    Machine.run_invariant (fun _ _ _ h he => h.step he) (Intact.setup shahash setup clock junk)
      hrun₀
  have hown : ∀ q ∈ s₀.haveList, q < s₀.chunks.next := fun _ => h₀.lt_of_owned
  obtain ⟨u, hu, hrest⟩ := Machine.run_cons_inv _ hrun
  cases hu
  -- the state when the chunk file was read
  set s₁ := lines.foldl wantLine
    { s₀ with userGetChunkFile := chunkFile, userOutputFilename := outputFile } with hs₁
  have hlist : Listed s₀ lines s₁ := (Listed.start hidle chunkFile outputFile).wantLines hown hids
  obtain ⟨hchunkFile, houtputFile, houtputs⟩ := wantLines_names lines
    { s₀ with userGetChunkFile := chunkFile, userOutputFilename := outputFile }
  have houtputs' : s₁.outputs = s₀.outputs := houtputs
  have hprogress : Waits s₁ s ∨ Delivers s₁ s :=
    waits_or_delivers_trans (waits_or_delivers_trans (checkAllReceived_waits s₁)
      (Or.inl (.of_frame (moves_sendWHOHAS _ : Moves Kind.Any _ _).frame)))
      (run_waits (h₀.step (e := .userGet chunkFile outputFile lines) rfl) hget hrest)
  rcases hprogress with hw | ⟨s₂, hw, rest', hmade⟩
  · rw [hw.outputs, houtputs'] at hout
    simp at hout
  · rw [hw.outputs, houtputs', hout] at hmade
    obtain ⟨rfl, -⟩ := List.cons.inj (List.append_cancel_left hmade)
    refine ⟨_, ?_, placing_of_waits hown hlist hw⟩
    rw [← outputWrites_eq, State.output, hw.outputFile.trans houtputFile,
      hw.chunkFile.trans hchunkFile]

/-! ### Published files -/

/-- The lines are a chunk file for the file: every chunk is a full one, and has one line with the
hash that `make_chunks` lists for it. -/
structure Publishes (shahash : List UInt8 → BinHash) (file : List UInt8) (lines : List ChunkLine) :
    Prop where
  ids : (lines.map Prod.fst).Nodup
  full : ∀ line ∈ lines, (line.1.toNat + 1) * btChunkSize ≤ file.length
  hash : ∀ line ∈ lines, (makeChunks shahash file)[line.1.toNat]? = some (binHashOf line.2)
  all : ∀ i, i * btChunkSize < file.length → ∃ line ∈ lines, line.1.toNat = i

/-- The chunk has the hash of a chunk of the file, and other data. -/
def Forged (shahash : List UInt8 → BinHash) (file : List UInt8) (c : Chunk) : Prop :=
  ∃ i, (i + 1) * btChunkSize ≤ file.length ∧ c.chunkData.toList ≠ fileChunk file i ∧
    shahash c.chunkData.toList = shahash (fileChunk file i)

namespace Publishes

variable {shahash : List UInt8 → BinHash} {file : List UInt8} {lines : List ChunkLine}

theorem shahash_fileChunk (h : Publishes shahash file lines) {line : ChunkLine}
    (hl : line ∈ lines) : shahash (fileChunk file line.1.toNat) = binHashOf line.2 := by
  have hfull := h.full line hl
  have hpos := btChunkSize_pos
  have hhash := h.hash line hl
  rw [Nat.succ_mul] at hfull
  rw [makeChunks, getElem?_makeChunksLoop shahash (by omega), if_pos (by omega)] at hhash
  exact Option.some.inj hhash

theorem id_lt (h : Publishes shahash file lines) (hsize : file.length ≤ 2 ^ 32) {line : ChunkLine}
    (hl : line ∈ lines) : line.1.toNat < 8192 := by
  have hfull := (h.full line hl).trans hsize
  rw [btChunkSize_eq] at hfull
  omega

/-- A file that holds every published chunk holds the published file. -/
theorem holds_of_chunks (h : Publishes shahash file lines) {image : FileImage}
    (hall : ∀ line ∈ lines, image.Holds (line.1.toNat * btChunkSize)
      (fileChunk file line.1.toNat)) : image.Holds 0 file := by
  have hB := btChunkSize_pos
  have hlast : ∀ i, i < file.length → i < image.size ∧ ∀ hi : i < file.length,
      image.byte i = file[i] := by
    intro i hi
    have hmod := Nat.mod_add_div' i btChunkSize
    have hlt := Nat.mod_lt i hB
    obtain ⟨line, hl, hid⟩ := h.all (i / btChunkSize) (by omega)
    have hfull := h.full line hl
    obtain ⟨hsize, hbytes⟩ := hall line hl
    rw [hid] at hfull hsize hbytes
    rw [Nat.succ_mul] at hfull
    have hlen : (fileChunk file (i / btChunkSize)).length = btChunkSize := by
      rw [length_fileChunk]
      omega
    refine ⟨by omega, fun hi => ?_⟩
    have hbyte := hbytes (i % btChunkSize) (by omega)
    rw [show i / btChunkSize * btChunkSize + i % btChunkSize = i by omega] at hbyte
    rw [hbyte]
    simp only [fileChunk, List.getElem_take, List.getElem_drop]
    congr 1
    omega
  refine ⟨?_, fun i hi => ?_⟩
  · rcases Nat.eq_zero_or_pos file.length with hzero | hpos
    · omega
    · have hend := (hlast (file.length - 1) (by omega)).1
      omega
  · rw [Nat.zero_add]
    exact (hlast i hi).2 hi

/-- Nothing is written behind the end of the published file. -/
theorem size_le (h : Publishes shahash file lines) (hsize : file.length ≤ 2 ^ 32) {s : State}
    {chunks : List Chunk} (hplacing : Placing s lines chunks) :
    (FileImage.writes (chunkWrites chunks)).size ≤ file.length := by
  refine (FileImage.size_writes_le_iff length_chunkWrites).2 fun w hw => ?_
  obtain ⟨c, hc, rfl⟩ := mem_chunkWrites hw
  obtain ⟨line, hl, -, hid⟩ := hplacing.written c hc
  have hfull := h.full line hl
  rw [hid, u32_mul_of_lt (h.id_lt hsize hl), Vector.length_toList, ← Nat.succ_mul]
  exact hfull

end Publishes

/-- **The output is the published file**, or one of its chunks is forged: for the only outstanding
request, in every run from set-up in which no hash is asked for twice. -/
theorem download_exact (shahash : List UInt8 → BinHash) (setup : Setup) (clock : ℕ → ℕ)
    (junk : ℕ → Packet) (hown : ∀ line ∈ setup.own, (ownChunk setup.master line).Verified shahash)
    (es₀ : List Event) (s₀ : State)
    (hrun₀ : Machine.run (step shahash) (peerSetup setup clock junk) es₀ = .ok s₀)
    (hidle : s₀.wanted = []) (chunkFile outputFile : String) (file : List UInt8)
    (hsize : file.length ≤ 2 ^ 32) (lines : List ChunkLine) (hpub : Publishes shahash file lines)
    (es : List Event) (hget : ∀ e ∈ es, e.NoGet)
    (hno : NoRepeats shahash (peerSetup setup clock junk)
      (es₀ ++ .userGet chunkFile outputFile lines :: es)) (s : State)
    (hrun : Machine.run (step shahash) s₀ (.userGet chunkFile outputFile lines :: es) = .ok s)
    (o : Effect) (rest : List Effect) (hout : s.outputs = s₀.outputs ++ o :: rest) :
    ∃ image chunks, o = .output outputFile chunkFile image chunks ∧
      (image.size = file.length ∧ image.Holds 0 file ∨ ∃ c ∈ chunks, Forged shahash file c) := by
  have hwhole : Machine.run (step shahash) (peerSetup setup clock junk)
      (es₀ ++ .userGet chunkFile outputFile lines :: es) = .ok s := by
    rw [Machine.run_append _ hrun₀, hrun]
  obtain ⟨chunks, rfl, hplacing⟩ := first_output hrun₀ hidle hpub.ids hget hrun hout
  refine ⟨_, chunks, rfl, ?_⟩
  have hnodup : (lines.map fun line => binHashOf line.2).Nodup := by
    have hempty : LastEmpty shahash (peerSetup setup clock junk) es₀ [] :=
      ⟨s₀, hrun₀, hidle, fun fs _ hpre hne => absurd (List.prefix_nil.1 hpre) hne⟩
    have hasked := hno es₀ [] _ es (by rw [List.append_nil]) hempty
    rwa [List.nil_append, List.flatMap_singleton] at hasked
  have hmem : Effect.output outputFile chunkFile (FileImage.writes (chunkWrites chunks)) chunks ∈
      s.outputs := by
    rw [hout]
    exact List.mem_append_right _ (List.mem_cons_self ..)
  have hverified := (outputsVerified_iff.1 (verified_of_run hown hwhole hno)) _ hmem
  have hlabelled := outputs_labelled hwhole _ hmem
  by_cases hforged : ∃ c ∈ chunks, Forged shahash file c
  · exact Or.inr hforged
  · refine Or.inl ?_
    have hplaces : Places lines (FileImage.writes (chunkWrites chunks)) chunks := by
      refine hplacing.places hpub.ids fun line hl => ⟨hpub.id_lt hsize hl, fun hover => ?_⟩
      -- a line that is overtaken has its hash twice
      obtain ⟨-, id, hsub⟩ := hover
      have htwice := (hsub.map fun line : ChunkLine => binHashOf line.2).nodup hnodup
      exact absurd htwice (by simp)
    have hholds : ∀ line ∈ lines, (FileImage.writes (chunkWrites chunks)).Holds
        (line.1.toNat * btChunkSize) (fileChunk file line.1.toNat) := by
      intro line hl
      obtain ⟨c, hc, hhex, hholds⟩ := hplaces line hl
      have hdata : c.chunkData.toList = fileChunk file line.1.toNat := by
        by_contra hne
        refine hforged ⟨c, hc, line.1.toNat, hpub.full line hl, hne, ?_⟩
        rw [hpub.shahash_fileChunk hl, ← hhex, ← hlabelled c hc]
        exact hverified c hc
      rw [← hdata]
      exact hholds
    have hfile := hpub.holds_of_chunks hholds
    refine ⟨Nat.le_antisymm (hpub.size_le hsize hplacing) ?_, hfile⟩
    have hend := hfile.1
    omega

/-- A file of one chunk of zeros. -/
def zeroFile : List UInt8 := List.replicate btChunkSize 0

theorem publishes_zeroFile : Publishes headHash zeroFile [(0, onesHex)] := by
  have hlen : zeroFile.length = btChunkSize := List.length_replicate
  have hpos := btChunkSize_pos
  refine ⟨by decide, ?_, ?_, ?_⟩
  · intro line hl
    rw [List.mem_singleton.1 hl, hlen]
    exact (Nat.one_mul _).le
  · intro line hl
    have hchunk : fileChunk zeroFile 0 = zeroFile := by
      rw [fileChunk, Nat.zero_mul, List.drop_zero, List.take_of_length_le hlen.le]
    have hhash : headHash zeroFile = binHashOf onesHex := by
      rw [headHash, if_neg]
      · decide
      · rw [zeroFile, List.head?_replicate, if_neg (by omega)]
        decide
    rw [List.mem_singleton.1 hl, makeChunks, show (0 : UInt32).toNat = 0 from rfl,
      getElem?_makeChunksLoop headHash (by omega), if_pos (by omega), hchunk, hhash]
  · intro i hi
    rw [hlen] at hi
    refine ⟨_, List.mem_singleton_self _, ?_⟩
    show 0 = i
    exact (Nat.lt_one_iff.1 (Nat.lt_of_mul_lt_mul_right (by rwa [Nat.one_mul]))).symm

/-- The published file is asked for, its chunk arrives, and the file is output. -/
theorem download_exact_arrives : ∃ s o, Machine.run (step headHash)
      (peerSetup twoPeers (fun _ => 0) fun _ => zeroPacket)
      (.userGet "a" "b" [(0, onesHex)] :: zeroArrives) = .ok s ∧ s.outputs = [o] ∧
    ∃ image chunks, o = .output "b" "a" image chunks ∧
      (image.size = zeroFile.length ∧ image.Holds 0 zeroFile ∨
        ∃ c ∈ chunks, Forged headHash zeroFile c) := by
  obtain ⟨s, o, hrun, -, hout⟩ := run_zeroArrives
  have hpacket : ∀ e ∈ zeroArrives, e.NoGet ∧ e.hashes = [] := by
    intro e he
    obtain ⟨pack, rfl, -⟩ := mem_zeroArrives he
    exact ⟨trivial, rfl⟩
  have hasked : (Event.userGet "a" "b" [(0, onesHex)] :: zeroArrives).flatMap Event.hashes =
      [binHashOf onesHex] := by
    rw [List.flatMap_cons, List.flatMap_eq_nil_iff.2 fun e he => (hpacket e he).2]
    rfl
  exact ⟨s, o, hrun, hout, download_exact headHash twoPeers (fun _ => 0) (fun _ => zeroPacket)
    (fun _ hl => absurd hl List.not_mem_nil) [] _ rfl rfl "a" "b" zeroFile
    (by rw [zeroFile, List.length_replicate]; decide) [(0, onesHex)] publishes_zeroFile zeroArrives
    (fun e he => (hpacket e he).1)
    (NoRepeats.of_nodup (by rw [List.nil_append, hasked]; exact List.nodup_singleton _)) s hrun o []
    hout⟩

/-! ### A chunk that can be forged -/

/-- **A chunk can be forged**: for each way the two files go on that fills a chunk, the data of one
is accepted where the other was published. -/
theorem forged_known {more : List UInt8} (h : more.length = btChunkSize - 320) {c : Chunk}
    (hdata : c.chunkData.toList = knownRight ++ more) : Forged sha1Hash (knownLeft ++ more) c := by
  have hlen : (knownLeft ++ more).length = btChunkSize := by
    rw [List.length_append, length_known.1, h, btChunkSize_eq]
  have hchunk : fileChunk (knownLeft ++ more) 0 = knownLeft ++ more := by
    rw [fileChunk, Nat.zero_mul, List.drop_zero, List.take_of_length_le hlen.le]
  refine ⟨0, by rw [hlen, Nat.zero_add, Nat.one_mul], ?_, ?_⟩
  · rw [hdata, hchunk]
    intro heq
    exact known_ne (List.append_cancel_right heq).symm
  · rw [hdata, hchunk, sha1Hash_known]

end P2P
