/-
**The transfers of the client and its output** (`get_chunk_data`, `receive_DATA`, `validate_chunk`,
`process_get`).

The client opens a transfer only for a missing chunk whose hash no transfer of its has, and it ends
the transfer when it takes a chunk of that hash out of the missing list.  So `validate_chunk` always
finds a node to remove.  And since nothing but a request of the user adds to the missing list, a
request comes between any two outputs: the names that `construct_data` uses and frees were set
again.

Main definitions:

* `P2P.ClientList` — **the invariant**;
* `P2P.Event.Concludes` — the events that look whether everything was received;
* `P2P.NamesSet` — the names in use were set by a request after the last output.

Main results:

* `P2P.Moves.clientList`, `P2P.ClientList.finish`, `P2P.ClientList.step` — every step keeps it;
* `P2P.step_outputs` — **when an output is made**;
* `P2P.client_list_invariant` — **the invariant in every reachable state**, and the names of the
  outputs.
-/

import P2PFileTransfer.Answers
import P2PFileTransfer.Availability
import P2PFileTransfer.Placement
import P2PFileTransfer.Reactions

set_option relaxedAutoImplicit false
set_option autoImplicit false

namespace P2P

/-- **The invariant** of the list. -/
structure ClientList (s : State) : Prop where
  nodup : (s.incoming.map fun t => s.binHash t.c).Nodup
  missing : ∀ t ∈ s.incoming, t.c ∈ s.missing

/-! ### Moves -/

/-- What is in a list and is not the entry that is removed stays. -/
theorem mem_eraseIdx_of_ne {α : Type*} {l : List α} {i : ℕ} {a b : α} (hi : l[i]? = some b)
    (ha : a ∈ l) (hne : a ≠ b) : a ∈ l.eraseIdx i := by
  obtain ⟨j, hj⟩ := List.mem_iff_getElem?.1 ha
  refine List.mem_eraseIdx_iff_getElem?.2 ⟨j, fun hji => hne ?_, hj⟩
  rw [hji, hi] at hj
  exact (Option.some.inj hj).symm

namespace ClientList

variable {s s' : State}

/-- The invariant speaks of the transfers, the missing list and the hashes. -/
theorem congr (h : ClientList s) (hin : s'.incoming = s.incoming) (hmiss : s'.missing = s.missing)
    (hbin : ∀ t ∈ s.incoming, s'.binHash t.c = s.binHash t.c) : ClientList s' := by
  refine ⟨?_, fun t ht => ?_⟩
  · rw [hin, List.map_congr_left hbin]
    exact h.nodup
  · rw [hmiss]
    exact h.missing t (hin ▸ ht)

/-- Fewer transfers, for chunks that are still missing. -/
theorem eraseIdx (h : ClientList s) (i : ℕ) (hin : s'.incoming = s.incoming.eraseIdx i)
    (hbin : ∀ q, s'.binHash q = s.binHash q)
    (hmiss : ∀ t ∈ s.incoming.eraseIdx i, t.c ∈ s'.missing) : ClientList s' := by
  refine ⟨?_, fun t ht => hmiss t (hin ▸ ht)⟩
  simp only [hin, hbin, ← List.eraseIdx_map]
  exact h.nodup.eraseIdx i

end ClientList

/-- **A move keeps the invariant.** -/
theorem Move.clientList {may : Kind → Prop} {s s' : State} (h : Move may s s')
    (hc : ClientList s) : ClientList s' := by
  have hf := h.frame
  cases h with
  | touchIn i f hsame =>
      refine ⟨?_, fun t ht => ?_⟩
      · show (List.map (fun t => s.binHash t.c) (s.incoming.modify i f)).Nodup
        rw [map_modify_same (g := fun t => s.binHash t.c) fun t =>
          congrArg s.binHash (hsame t).2]
        exact hc.nodup
      · obtain ⟨u, hu, rfl | rfl⟩ := mem_modify ht
        · exact hc.missing t hu
        · rw [(hsame u).2]
          exact hc.missing u hu
  | offer q p hq hp => exact hc.congr rfl rfl fun t _ => hf.binHash t.c
  | forget q keep hq => exact hc.congr rfl rfl fun t _ => hf.binHash t.c
  | openIn q p hq hp hav hno hk =>
      refine ⟨List.nodup_cons.2 ⟨fun hmem => ?_, hc.nodup⟩, fun t ht => ?_⟩
      · obtain ⟨t, ht, heq⟩ := List.mem_map.1 hmem
        exact hno t ht heq
      · rcases List.mem_cons.1 ht with rfl | ht
        · exact hq
        · exact hc.missing t ht
  | closeIn i hk =>
      cases hi : s.incoming[i]? with
      | none =>
          rw [State.deleteIncoming, hi]
          exact hc
      | some t =>
          rw [State.deleteIncoming_eq hi]
          exact hc.eraseIdx i rfl (fun _ => rfl)
            fun u hu => hc.missing u (List.mem_of_mem_eraseIdx hu)
  | closeOut i hk =>
      exact hc.congr (incoming_deleteOutgoing s i) hf.missing fun t _ => hf.binHash t.c
  | _ => exact ⟨hc.nodup, hc.missing⟩

/-- **Moves keep the invariant.** -/
theorem Moves.clientList {may : Kind → Prop} {s s' : State} (h : Moves may s s')
    (hc : ClientList s) : ClientList s' := by
  induction h with
  | refl => exact hc
  | tail _ hm ih => exact hm.clientList ih

/-! ### Data and requests -/

/-- The state in which `receive_DATA` hands the chunk at `q` to `validate_chunk`: the piece is
stored and acknowledged. -/
def State.validating (s : State) (q : ℕ) (c : Chunk) (peer : ℕ) : State :=
  sendACK (s.modifyChunk q fun _ => c) peer (dataFindLargestConsecSeq c)

/-- `validate_chunk` finds a missing node with the hash of the chunk at `q`. -/
def FindsMissing (s : State) (q : ℕ) : Prop :=
  nodeFind (fun r => compareChunkByBinHash (s.chunks.cell r) (s.binHash q)) s.missing ≠ none

/-- Reading a chunk file takes nothing from the missing list. -/
theorem missing_wantLines (lines : List ChunkLine) {s : State} {q : ℕ} (h : q ∈ s.missing) :
    q ∈ (lines.foldl wantLine s).missing := by
  induction lines generalizing s with
  | nil => exact h
  | cons line lines ih =>
      refine ih ?_
      rw [wantLine]
      split
      · exact List.mem_cons_of_mem _ h
      · exact h

namespace ClientList

variable {shahash : List UInt8 → BinHash} {s s' : State}

/-- Storing a piece leaves the hash of its chunk. -/
theorem store (h : ClientList s) {q : ℕ} {pack : Packet} {c : Chunk}
    (hc : storeData pack (s.chunks.cell q) = .ok c) :
    ClientList (s.modifyChunk q fun _ => c) := by
  have hbin : c.binHash = (s.chunks.cell q).binHash := by
    obtain ⟨-, ⟨-, rfl⟩ | ⟨-, -, -, rfl⟩⟩ := storeData_cases hc <;> rfl
  exact h.congr rfl rfl fun t _ => (Fades.modifyChunk s q (f := fun _ => c) hbin).binHash t.c

/-- **`validate_chunk` finds its node**: the chunk of a transfer is missing. -/
theorem findsMissing (h : ClientList s) {t : Transfer} (ht : t ∈ s.incoming) :
    FindsMissing s t.c := by
  intro hnone
  have hfalse := nodeFind_eq_none_iff.1 hnone t.c (h.missing t ht)
  have htrue : compareChunkByBinHash (s.chunks.cell t.c) (s.binHash t.c) = true :=
    compareChunkByBinHash_iff.2 rfl
  rw [htrue] at hfalse
  cases hfalse

/-- **Checking a complete chunk and ending its transfer keeps the invariant**: the other transfers
have other hashes, so the missing chunk that goes is none of theirs. -/
theorem finish (h : ClientList s) {i : ℕ} {t : Transfer} (hi : s.incoming[i]? = some t) :
    ClientList ((finishChunk shahash s t.c).deleteIncoming i) := by
  obtain ⟨-, heq⟩ | ⟨-, hnone, -⟩ | ⟨-, j, r, hj, hr, -, heq⟩ := finishChunk_cases shahash s t.c
  · rw [heq]
    have hdiscard : ClientList (s.modifyChunk t.c discardData) :=
      h.congr rfl rfl fun u _ => (Fades.modifyChunk s t.c (f := discardData) rfl).binHash u.c
    exact (.closeIn _ i trivial : Move Kind.Any _ _).clientList hdiscard
  · exact absurd rfl (hnone t.c (h.missing t (List.mem_of_getElem? hi)))
  · have hin : (finishChunk shahash s t.c).incoming = s.incoming := by
      rw [heq, (checkAllReceived_same _).2]
      rfl
    have hmiss : (finishChunk shahash s t.c).missing = s.missing.eraseIdx j := by
      rw [heq, checkAllReceived]
      split <;> rfl
    rw [State.deleteIncoming_eq (by rw [hin]; exact hi)]
    refine h.eraseIdx i (by simp only [hin]) (Fades.finishChunk shahash s t.c).binHash ?_
    intro u hu
    show u.c ∈ (finishChunk shahash s t.c).missing
    rw [hmiss]
    refine mem_eraseIdx_of_ne hj (h.missing u (List.mem_of_mem_eraseIdx hu)) fun hur => ?_
    exact ne_of_mem_eraseIdx h.nodup hi hu (by rw [hur, hr])

/-- The transfer that a piece was stored for is still there after the answer. -/
theorem getElem?_validating {i : ℕ} {t : Transfer} (hi : s.incoming[i]? = some t) (q : ℕ)
    (c : Chunk) (peer : ℕ) : ∃ u, (s.validating q c peer).incoming[i]? = some u ∧ u.c = t.c := by
  have hends := congrArg (fun l => l[i]?)
    (sendACK_same (s.modifyChunk q fun _ => c) peer (dataFindLargestConsecSeq c)).2.2.2.2
  simp only [List.getElem?_map] at hends
  have hi' : (s.modifyChunk q fun _ => c).incoming[i]? = some t := hi
  rw [hi', Option.map_some] at hends
  obtain ⟨u, hu, hut⟩ := Option.map_eq_some_iff.1 hends
  exact ⟨u, hu, congrArg Prod.snd hut⟩

theorem validating (h : ClientList s) {q : ℕ} (peer : ℕ) {pack : Packet} {c : Chunk}
    (hc : storeData pack (s.chunks.cell q) = .ok c) : ClientList (s.validating q c peer) :=
  (moves_sendACK _ peer _ : Moves Kind.Any _ _).clientList (h.store hc)

/-- **A piece of data keeps the invariant.** -/
theorem receiveDATA (h : ClientList s) {pack : Packet} {peer : ℕ}
    (hr : receiveDATA shahash s pack peer = .ok s') : ClientList s' := by
  obtain ⟨-, rfl⟩ | ⟨i, t, c, hfind, hstore, s₁, rfl, hend⟩ := receiveDATA_cases hr
  · exact h
  · have h₁ := h.validating peer hstore
    rcases hend with ⟨-, rfl⟩ | ⟨-, rfl⟩
    · exact h₁
    · obtain ⟨u, hu, huc⟩ := getElem?_validating (nodeFind_eq_some_iff.1 hfind).1 t.c c peer
      rw [State.validating, ← huc] at h₁ hu
      rw [← huc]
      exact (moves_getChunkData trivial _ : Moves Kind.Any _ _).clientList (h₁.finish hu)

/-- **Reading a chunk file keeps the invariant**: it takes nothing from the missing list. -/
theorem wantLines (h : ClientList s) (hlt : ∀ q ∈ s.missing, q < s.chunks.next)
    (lines : List ChunkLine) : ClientList (lines.foldl wantLine s) := by
  obtain ⟨hin, -, -, -, hbin⟩ := wantLines_transfers lines s
  refine ⟨?_, fun t ht => missing_wantLines lines (h.missing t (hin ▸ ht))⟩
  rw [hin, List.map_congr_left fun t ht => hbin t.c (hlt t.c (h.missing t ht))]
  exact h.nodup

theorem checkAllReceived (h : ClientList s) : ClientList (checkAllReceived s) := by
  rw [P2P.checkAllReceived]
  split
  · exact ⟨h.nodup, h.missing⟩
  · exact h

/-- **Every step keeps the invariant.** -/
theorem step {own : ℕ} {start : ℕ → Chunk} {kept : List ℕ} {e : Event} (h : ClientList s)
    (hi : Intact shahash own start kept s) (he : step shahash s e = .ok s') : ClientList s' := by
  obtain ⟨chunkFile, outputFile, lines, -, rfl⟩ | ⟨_, pack, peer, -, -, -, hr⟩ | hmoves :=
    step_cases he
  · have hlist : ClientList
        { s with userGetChunkFile := chunkFile, userOutputFilename := outputFile } :=
      ⟨h.nodup, h.missing⟩
    exact (moves_sendWHOHAS _ : Moves Kind.Any _ _).clientList
      (hlist.wantLines (fun q hq => (hi.missing q hq).2) lines).checkAllReceived
  · exact h.receiveDATA hr
  · exact hmoves.clientList h

end ClientList

/-! ### Outputs -/

theorem outputs_checkAllReceived (s : State) : (checkAllReceived s).outputs =
    if s.missing = [] then s.outputs ++ [s.output] else s.outputs := by
  rw [checkAllReceived]
  split_ifs
  · exact outputs_constructData s
  · rfl

/-- The events that look whether everything was received: a request of the user, and a piece that
completes a chunk with the right data. -/
def Event.Concludes (shahash : List UInt8 → BinHash) (s : State) : Event → Prop
  | .userGet _ _ _ => True
  | .packet src pack => ∃ peer i t c, findPeer s src = some peer ∧ pack.type = .data ∧
      s.findIncoming peer = some (i, t) ∧ storeData pack (s.chunks.cell t.c) = .ok c ∧
      chunkBitsAllReceived c = true ∧ c.Verified shahash
  | _ => False

/-- The output is made under the names that are in use. -/
def Effect.Named (s : State) : Effect → Prop
  | .output file chunkFile _ _ => file = s.userOutputFilename ∧ chunkFile = s.userGetChunkFile
  | .send _ _ _ => False

/-- What a step does to the outputs: one is added, and nothing is wanted any more, if the event
concludes and nothing is missing; otherwise none. -/
def Outputs (concludes : Prop) (s s' : State) : Prop :=
  concludes ∧ s'.missing = [] ∧ s'.wanted = [] ∧
      (∃ o : Effect, o.Named s' ∧ s'.outputs = s.outputs ++ [o]) ∨
    ¬ (concludes ∧ s'.missing = []) ∧ s'.outputs = s.outputs

theorem Outputs.of_frame {concludes : Prop} {s s' : State} (hf : Frame s s') (h : ¬ concludes) :
    Outputs concludes s s' :=
  Or.inr ⟨fun hc => h hc.1, hf.outputs⟩

/-- What comes after, and makes no output, changes nothing in this. -/
theorem Outputs.tail {concludes : Prop} {s s' s'' : State} (h : Outputs concludes s s')
    (hf : Frame s' s'') : Outputs concludes s s'' := by
  rw [Outputs, hf.missing, hf.wanted, hf.outputs]
  refine h.imp_left fun ⟨hc, hm, hw, o, hnamed, ho⟩ => ⟨hc, hm, hw, o, ?_, ho⟩
  cases o with
  | send dest pack about => exact hnamed
  | output file chunkFile image chunks =>
      exact ⟨hnamed.1.trans hf.outputFile.symm, hnamed.2.trans hf.chunkFile.symm⟩

/-- `check_all_received`, after what made no output. -/
theorem Outputs.checkAllReceived {concludes : Prop} {s s' : State} (h : concludes)
    (ho : s'.outputs = s.outputs) : Outputs concludes s (checkAllReceived s') := by
  have hout := outputs_checkAllReceived s'
  by_cases hm : s'.missing = []
  · rw [if_pos hm, ho] at hout
    refine Or.inl ⟨h, ?_, ?_, s'.output, ?_, hout⟩
    · rw [P2P.checkAllReceived, if_pos hm]
      exact hm
    · rw [P2P.checkAllReceived, if_pos hm]
    · rw [P2P.checkAllReceived, if_pos hm]
      exact ⟨rfl, rfl⟩
  · rw [if_neg hm, ho] at hout
    refine Or.inr ⟨fun hc => hm ?_, hout⟩
    have hempty := hc.2
    rwa [P2P.checkAllReceived, if_neg hm] at hempty

/-- **When a piece of data makes an output.** -/
theorem outputs_receiveDATA {shahash : List UInt8 → BinHash} {s s' : State} {src : SockaddrIn}
    {pack : Packet} {peer : ℕ} (hp : findPeer s src = some peer) (ht : pack.type = .data)
    (hr : receiveDATA shahash s pack peer = .ok s') :
    Outputs ((Event.packet src pack).Concludes shahash s) s s' := by
  obtain ⟨hnone, rfl⟩ | ⟨i, t, c, hfind, hstore, s₁, hs₁, hend⟩ := receiveDATA_cases hr
  · refine .of_frame (Frame.refl _) ?_
    rintro ⟨peer', i, t, c, hp', -, hfind, -⟩
    rw [hp] at hp'
    cases hp'
    rw [hnone] at hfind
    cases hfind
  · have hconcludes : (Event.packet src pack).Concludes shahash s ↔
        chunkBitsAllReceived c = true ∧ c.Verified shahash := by
      refine ⟨?_, fun h => ⟨peer, i, t, c, hp, ht, hfind, hstore, h⟩⟩
      rintro ⟨peer', i', t', c', hp', -, hfind', hstore', h⟩
      rw [hp] at hp'
      cases hp'
      rw [hfind] at hfind'
      cases hfind'
      rw [hstore] at hstore'
      cases hstore'
      exact h
    have hsame : s₁.outputs = s.outputs :=
      (hs₁ ▸ moves_sendACK _ _ _ : Moves Kind.Any (s.modifyChunk t.c fun _ => c) s₁).frame.outputs
    have hcell : s₁.chunks.cell t.c = c := hs₁ ▸ cell_sendACK_self s t.c peer _ c
    rcases hend with ⟨hpart, rfl⟩ | ⟨hdone, rfl⟩
    · refine Or.inr ⟨fun hc => ?_, hsame⟩
      rw [(hconcludes.1 hc.1).1] at hpart
      cases hpart
    · refine Outputs.tail ?_
        (moves_afterFinish trivial trivial _ i : Moves Kind.Any _ _).frame
      obtain ⟨hbad, heq⟩ | ⟨hok, -, heq⟩ | ⟨hok, j, r, -, -, -, heq⟩ :=
        finishChunk_cases shahash s₁ t.c
      · rw [heq]
        refine Or.inr ⟨fun hc => hbad ?_, hsame⟩
        rw [hcell]
        exact (hconcludes.1 hc.1).2
      · rw [heq]
        rw [hcell] at hok
        exact .checkAllReceived (hconcludes.2 ⟨hdone, hok⟩) hsame
      · rw [heq]
        rw [hcell] at hok
        exact .checkAllReceived (hconcludes.2 ⟨hdone, hok⟩) hsame

/-- **When an output is made**: one in a step that concludes and leaves nothing missing, none in any
other step. -/
theorem step_outputs {shahash : List UInt8 → BinHash} {s s' : State} {e : Event}
    (he : step shahash s e = .ok s') : Outputs (e.Concludes shahash s) s s' := by
  obtain ⟨chunkFile, outputFile, lines, rfl, rfl⟩ | ⟨src, pack, peer, rfl, hp, ht, hr⟩ |
    ⟨hquiet, hmoves⟩ := step_split he
  · refine (Outputs.checkAllReceived trivial ?_).tail
      (moves_sendWHOHAS _ : Moves Kind.Any _ _).frame
    exact (wantLines_names lines _).2.2
  · exact outputs_receiveDATA hp ht hr
  · refine .of_frame hmoves.frame fun hc => ?_
    cases e with
    | userGet chunkFile outputFile lines => exact hquiet
    | packet src pack =>
        obtain ⟨peer, i, t, c, hp, ht, -⟩ := hc
        exact hquiet peer hp ht
    | serverTimeout => exact hc
    | clientTimeout => exact hc

/-! ### The names of the outputs -/

/-- A step that is no request takes chunks out of the missing list at most, and leaves the names. -/
theorem step_noGet {shahash : List UInt8 → BinHash} {s s' : State} {e : Event} (hget : e.NoGet)
    (he : step shahash s e = .ok s') : s'.missing.Sublist s.missing ∧
      s'.userGetChunkFile = s.userGetChunkFile ∧
      s'.userOutputFilename = s.userOutputFilename := by
  obtain ⟨chunkFile, outputFile, lines, rfl, -⟩ | ⟨_, pack, peer, -, -, -, hr⟩ | hmoves :=
    step_cases he
  · exact absurd hget id
  · obtain ⟨-, rfl⟩ | ⟨i, t, c, -, -, s₁, hs₁, hend⟩ := receiveDATA_cases hr
    · exact ⟨.refl _, rfl, rfl⟩
    · have hf₁ : Frame (s.modifyChunk t.c fun _ => c) s₁ :=
        (hs₁ ▸ moves_sendACK _ _ _ : Moves Kind.Any _ s₁).frame
      have hmiss₁ : s₁.missing = s.missing := hf₁.missing
      have hnames₁ : s₁.userGetChunkFile = s.userGetChunkFile ∧
          s₁.userOutputFilename = s.userOutputFilename := ⟨hf₁.chunkFile, hf₁.outputFile⟩
      rcases hend with ⟨-, rfl⟩ | ⟨-, rfl⟩
      · exact ⟨hmiss₁ ▸ .refl _, hnames₁⟩
      · have hf := (moves_afterFinish trivial trivial (finishChunk shahash s₁ t.c) i :
          Moves Kind.Any _ _).frame
        rw [hf.missing, hf.chunkFile, hf.outputFile]
        obtain ⟨-, heq⟩ | ⟨-, -, heq⟩ | ⟨-, j, r, -, -, -, heq⟩ :=
          finishChunk_cases shahash s₁ t.c
        · rw [heq]
          exact ⟨hmiss₁ ▸ .refl _, hnames₁⟩
        · rw [heq, checkAllReceived]
          split <;> exact ⟨hmiss₁ ▸ .refl _, hnames₁⟩
        · rw [heq, checkAllReceived]
          split <;> exact ⟨hmiss₁ ▸ List.eraseIdx_sublist .., hnames₁⟩
  · have hf := hmoves.frame
    exact ⟨hf.missing ▸ .refl _, hf.chunkFile, hf.outputFile⟩

section Names

variable (shahash : List UInt8 → BinHash) (s₀ : State)

/-- **The names in use were set by a request after the outputs `made`**: among the events so far
there is a request that set them, and before it no more outputs had been made. -/
def NamesSet (es : List Event) (s : State) (made : List Effect) : Prop :=
  ∃ es₁ lines es₂ t,
    es = es₁ ++ .userGet s.userGetChunkFile s.userOutputFilename lines :: es₂ ∧
      Machine.run (step shahash) s₀ es₁ = .ok t ∧ t.outputs = made

variable {shahash s₀}

/-- A request sets the names. -/
theorem namesSet_userGet {es : List Event} {s s' : State} {chunkFile outputFile : String}
    {lines : List ChunkLine} (hrun : Machine.run (step shahash) s₀ es = .ok s)
    (he : step shahash s (.userGet chunkFile outputFile lines) = .ok s') :
    NamesSet shahash s₀ (es ++ [.userGet chunkFile outputFile lines]) s' s.outputs := by
  have hnames : s'.userGetChunkFile = chunkFile ∧ s'.userOutputFilename = outputFile := by
    cases he
    have hf := (moves_sendWHOHAS (createWantedMissingList
      { s with userGetChunkFile := chunkFile, userOutputFilename := outputFile } lines) :
        Moves Kind.Any _ _).frame
    obtain ⟨hc, ho, -⟩ := wantLines_names lines
      { s with userGetChunkFile := chunkFile, userOutputFilename := outputFile }
    rw [processGet, hf.chunkFile, hf.outputFile, createWantedMissingList, checkAllReceived]
    split <;> exact ⟨hc, ho⟩
  refine ⟨es, lines, [], s, ?_, hrun, rfl⟩
  rw [hnames.1, hnames.2]

/-- What is no request leaves the names that were set. -/
theorem NamesSet.concat {es : List Event} {s s' : State} {made : List Effect} {e : Event}
    (h : NamesSet shahash s₀ es s made) (hget : e.NoGet) (he : step shahash s e = .ok s') :
    NamesSet shahash s₀ (es ++ [e]) s' made := by
  obtain ⟨es₁, lines, es₂, t, rfl, hrun, hmade⟩ := h
  obtain ⟨-, hchunk, hout⟩ := step_noGet hget he
  refine ⟨es₁, lines, es₂ ++ [e], t, ?_, hrun, hmade⟩
  rw [hchunk, hout, List.append_assoc, List.cons_append]

/-- **As long as something is missing, the names were set after the last output.** -/
theorem namesSet_of_missing {es : List Event} {s : State} (h₀ : s₀.missing = [])
    (hrun : Machine.run (step shahash) s₀ es = .ok s) (hm : s.missing ≠ []) :
    NamesSet shahash s₀ es s s.outputs := by
  refine Machine.history_invariant
    (P := fun es s => s.missing ≠ [] → NamesSet shahash s₀ es s s.outputs)
    (fun h => absurd h₀ h) (fun es t e u hrun ih he hm => ?_) hrun hm
  have hout : u.outputs = t.outputs := by
    rcases step_outputs he with ⟨-, hempty, -⟩ | ⟨-, hout⟩
    · exact absurd hempty hm
    · exact hout
  rw [hout]
  have hnoGet : e.NoGet → NamesSet shahash s₀ (es ++ [e]) u t.outputs := by
    intro hget
    refine (ih fun h => hm ?_).concat hget he
    exact List.sublist_nil.1 (h ▸ (step_noGet hget he).1)
  cases e with
  | userGet chunkFile outputFile lines => exact namesSet_userGet hrun he
  | packet src pack => exact hnoGet trivial
  | serverTimeout => exact hnoGet trivial
  | clientTimeout => exact hnoGet trivial

end Names

/-! ### Runs -/

theorem clientList_peerSetup (setup : Setup) (clock : ℕ → ℕ) (junk : ℕ → Packet) :
    ClientList (peerSetup setup clock junk) :=
  ⟨List.nodup_nil, fun _ ht => absurd ht List.not_mem_nil⟩

/-- The invariant, in every reachable state. -/
theorem ClientList.of_run {shahash : List UInt8 → BinHash} {setup : Setup} {clock : ℕ → ℕ}
    {junk : ℕ → Packet} {es : List Event} {s : State}
    (h : Machine.run (P2P.step shahash) (peerSetup setup clock junk) es = .ok s) : ClientList s :=
  (Machine.run_invariant (P := fun s => ClientList s ∧
      Intact shahash setup.own.length (peerSetup setup clock junk).chunks.cell
        (peerSetup setup clock junk).haveList s)
    (fun _ _ _ hs he => ⟨hs.1.step hs.2 he, hs.2.step he⟩)
    ⟨clientList_peerSetup setup clock junk, Intact.setup shahash setup clock junk⟩ h).1

/-- **The transfers of the client in every reachable state**: no two are for the same hash and each
is for a missing chunk; `validate_chunk` finds a node in the missing list; and a step makes at most
one output, under names that a request has set since the last one. -/
theorem client_list_invariant (shahash : List UInt8 → BinHash) (setup : Setup) (clock : ℕ → ℕ)
    (junk : ℕ → Packet) (es : List Event) (s : State)
    (h : Machine.run (step shahash) (peerSetup setup clock junk) es = .ok s) :
    (s.incoming.map fun t => s.binHash t.c).Nodup ∧ (∀ t ∈ s.incoming, t.c ∈ s.missing) ∧
      (∀ pack peer i t c, s.findIncoming peer = some (i, t) →
        storeData pack (s.chunks.cell t.c) = .ok c →
          FindsMissing (s.validating t.c c peer) t.c) ∧
      ∀ e s', step shahash s e = .ok s' → s'.outputs = s.outputs ∨ ∃ o : Effect, o.Named s' ∧
        s'.outputs = s.outputs ++ [o] ∧
          NamesSet shahash (peerSetup setup clock junk) (es ++ [e]) s' s.outputs := by
  have hlist := ClientList.of_run h
  refine ⟨hlist.nodup, hlist.missing, fun pack peer i t c hfind hstore => ?_, fun e s' he => ?_⟩
  · obtain ⟨u, hu, huc⟩ :=
      ClientList.getElem?_validating (nodeFind_eq_some_iff.1 hfind).1 t.c c peer
    rw [← huc] at hstore hu ⊢
    exact (hlist.validating peer hstore).findsMissing (List.mem_of_getElem? hu)
  · rcases step_outputs he with ⟨hc, -, -, o, hnamed, hout⟩ | ⟨-, hout⟩
    · refine Or.inr ⟨o, hnamed, hout, ?_⟩
      cases e with
      | userGet chunkFile outputFile lines => exact namesSet_userGet h he
      | packet src pack =>
          -- the transfer that the piece belongs to is for a missing chunk
          obtain ⟨peer, i, t, c, -, -, hfind, -⟩ := hc
          have hmem := hlist.missing t (mem_of_nodeFind hfind)
          exact (namesSet_of_missing rfl h (List.ne_nil_of_mem hmem)).concat trivial he
      | serverTimeout => exact absurd hc id
      | clientTimeout => exact absurd hc id
    · exact Or.inl hout

/-- The user wants a chunk, and the neighbour offers it. -/
def wantsOne : List Event :=
  [.userGet "a" "b" [(0, Vector.replicate hexHashSize 49)],
    .packet ⟨0, 2222⟩ (ihavePacket zeroPacket [binHashOf (Vector.replicate hexHashSize 49)])]

theorem client_list_invariant_open : ∃ s,
    Machine.run (step fun _ => Vector.replicate binHashSize 0)
      (peerSetup lender (fun _ => 0) fun _ => zeroPacket) wantsOne = .ok s ∧
    (s.incoming.map fun t => s.binHash t.c).Nodup ∧ ∀ t ∈ s.incoming, t.c ∈ s.missing := by
  obtain ⟨hnodup, hmiss, -⟩ := client_list_invariant (fun _ => Vector.replicate binHashSize 0)
    lender (fun _ => 0) (fun _ => zeroPacket) wantsOne _ rfl
  exact ⟨_, rfl, hnodup, hmiss⟩

end P2P
