/-
**The two readers of a chunk file** (`create_wanted_missing_list`, `parse_chunkfile`).

Both take lines with `fgets` and scan a number and a word from each.  `parse_chunkfile` stops at the
first line that does not have both.  `create_wanted_missing_list` does not look at what `sscanf`
returns: a line that lacks the word, or both, is an entry with what the lines before it have left in
the two variables.  And an entry for an owned chunk is this chunk, so of several lines with its hash
the last one gives the number of all.

Main definitions:

* `P2P.fileLines` — the lines that `fgets` takes from a file;
* `P2P.createWantedMissingListLoop` — the loop of `create_wanted_missing_list`, over a file;
* `P2P.storedPairs` — the numbers and the arrays after each of some lines that have both;
* `P2P.AddsPairs` — the loop adds the entries that `parse_chunkfile` reads;
* `P2P.ReadersAgree` — when it does.

Main results:

* `P2P.flatten_fileLines` — the lines are the file;
* `P2P.parseChunkfile_lines`, `P2P.createWantedMissingListLoop_lines` — what each reader reads;
* `P2P.map_entry_wantLines_iff` — when the entries keep their numbers;
* `P2P.readers_agree_iff` — **when the readers agree**.
-/

import P2PFileTransfer.Spelling

set_option relaxedAutoImplicit false
set_option autoImplicit false

namespace P2P

/-! ### The readers -/

/-- `%s`, for a word of at most 40 characters: the word and its zero, which lies behind the array
after a word of 40. -/
def storeWord (hash : HexHash) (word : List UInt8) : HexHash :=
  Block.blit hash 0 ((word ++ [0]).take hexHashSize)

/-- `sscanf(line, "%d %s\n", &id, hash)` in `create_wanted_missing_list`: a conversion that fails
leaves its variable, and the next one. -/
def scanWanted (line : List UInt8) (id : UInt32) (hash : HexHash) :
    Except Fault (UInt32 × HexHash) :=
  match Scan.scanInt (Scan.cString line) with
  | none => .ok (id, hash)
  | some (v, rest) =>
      match Scan.scanString rest with
      | none => .ok (Scan.toInt v, hash)
      | some (word, _) =>
          if hexHashSize < word.length then .error .outOfBounds
          else .ok (Scan.toInt v, storeWord hash word)

/-- The loop of `create_wanted_missing_list`; `id` and `hash` are its variables. -/
def createWantedMissingListLoop : ℕ → UInt32 → HexHash → List UInt8 → State → Except Fault State
  | 0, _, _, _, s => .ok s
  | fuel + 1, id, hash, text, s =>
      if text = [] then .ok s
      else
        let next := Scan.fgets (fileLen - 1) text
        match scanWanted next.1 id hash with
        | .error x => .error x
        | .ok line => createWantedMissingListLoop fuel line.1 line.2 next.2 (wantLine s line)

/-- `create_wanted_missing_list`, for the text of the chunk file: every line takes at least one
character. -/
def createWantedMissingListFile (id : UInt32) (hash : HexHash) (text : List UInt8) (s : State) :
    Except Fault State :=
  match createWantedMissingListLoop (text.length + 1) id hash text s with
  | .error x => .error x
  | .ok s => .ok (checkAllReceived s)

/-! ### The lines of a file -/

/-- The lines, up to a number of them. -/
def fileLinesLoop : ℕ → List UInt8 → List (List UInt8)
  | 0, _ => []
  | fuel + 1, text =>
      if text = [] then []
      else (Scan.fgets (fileLen - 1) text).1 ::
        fileLinesLoop fuel (Scan.fgets (fileLen - 1) text).2

/-- The lines that `fgets` takes from a file; a long one comes in parts. -/
def fileLines (text : List UInt8) : List (List UInt8) := fileLinesLoop (text.length + 1) text

/-- **The lines are the file.** -/
theorem flatten_fileLines (text : List UInt8) : (fileLines text).flatten = text := by
  suffices hloop : ∀ (fuel : ℕ) (text : List UInt8), text.length < fuel →
      (fileLinesLoop fuel text).flatten = text from hloop _ text (Nat.lt_succ_self _)
  intro fuel
  induction fuel with
  | zero => exact fun text hfuel => absurd hfuel (Nat.not_lt_zero _)
  | succ fuel ih =>
      intro text hfuel
      rw [fileLinesLoop]
      by_cases hnil : text = []
      · rw [if_pos hnil, hnil]
        rfl
      · have happ := Scan.fgets_append (fileLen - 1) text
        have hpos := List.length_pos_of_ne_nil
          (Scan.fgets_ne_nil (by decide : 0 < fileLen - 1) hnil)
        have hlen := congrArg List.length happ
        rw [List.length_append] at hlen
        rw [if_neg hnil, List.flatten_cons, ih _ (by omega), happ]

/-! ### What the readers read -/

/-- The numbers and the arrays after each of the scanned lines. -/
def storedPairs : HexHash → List (UInt32 × List UInt8) → List ChunkLine
  | _, [] => []
  | hash, scan :: scans =>
      (scan.1, storeWord hash scan.2) :: storedPairs (storeWord hash scan.2) scans

theorem length_storedPairs (hash : HexHash) (scans : List (UInt32 × List UInt8)) :
    (storedPairs hash scans).length = scans.length := by
  induction scans generalizing hash with
  | nil => rfl
  | cons scan scans ih => rw [storedPairs, List.length_cons, List.length_cons, ih]

/-- What was in the array does not matter where the first word leaves nothing of it. -/
theorem storedPairs_congr {hash hash' : HexHash} {scans : List (UInt32 × List UInt8)}
    (h : ∀ scan ∈ scans.head?, storeWord hash scan.2 = storeWord hash' scan.2) :
    storedPairs hash scans = storedPairs hash' scans := by
  cases scans with
  | nil => rfl
  | cons scan scans => rw [storedPairs, storedPairs, h scan rfl]

/-- The first word decides whether what was in the array matters. -/
theorem snd_storedPairs_inj {hash hash' : HexHash} {scans : List (UInt32 × List UInt8)}
    (h : (storedPairs hash scans).map Prod.snd = (storedPairs hash' scans).map Prod.snd) :
    ∀ scan ∈ scans.head?, storeWord hash scan.2 = storeWord hash' scan.2 := by
  cases scans with
  | nil => exact fun scan hscan => (Option.not_mem_none _ hscan).elim
  | cons scan scans =>
      rintro _ ⟨⟩
      rw [storedPairs, storedPairs, List.map_cons, List.map_cons, List.cons.injEq] at h
      exact h.1

/-- Both conversions of a line succeed. -/
theorem scanLine_eq_some {line : List UInt8} {id : UInt32} {word : List UInt8}
    (h : scanLine line = some (id, word)) (hlen : word.length ≤ hexHashSize) (id₀ : UInt32)
    (hash : HexHash) : scanWanted line id₀ hash = .ok (id, storeWord hash word) := by
  rw [scanLine] at h
  rw [scanWanted]
  cases hint : Scan.scanInt (Scan.cString line) with
  | none => rw [hint] at h; cases h
  | some n =>
      cases hstring : Scan.scanString n.2 with
      | none => simp only [hint, hstring] at h; cases h
      | some w =>
          simp only [hint, hstring] at h ⊢
          cases h
          rw [if_neg (Nat.not_lt.2 hlen)]

/-- A conversion of a line fails, and the line is an entry all the same. -/
theorem scanLine_eq_none {line : List UInt8} (h : scanLine line = none) (id : UInt32)
    (hash : HexHash) : ∃ id', scanWanted line id hash = .ok (id', hash) := by
  rw [scanLine] at h
  rw [scanWanted]
  cases hint : Scan.scanInt (Scan.cString line) with
  | none => exact ⟨id, rfl⟩
  | some n =>
      cases hstring : Scan.scanString n.2 with
      | none =>
          refine ⟨Scan.toInt n.1, ?_⟩
          simp only [hstring]
      | some w => simp only [hint, hstring] at h; cases h

/-- Words fit in the array. -/
def WordsFit (lines : List (List UInt8)) : Prop :=
  ∀ line ∈ lines, ∀ scan ∈ scanLine line, scan.2.length ≤ hexHashSize

/-- One pass of the loop of `parse_chunkfile`, over a line that has both. -/
theorem parseChunkfileLoop_some {fuel : ℕ} {hash : HexHash} {text : List UInt8} (hne : text ≠ [])
    {scan : UInt32 × List UInt8} (hscan : scanLine (Scan.fgets (fileLen - 1) text).1 = some scan)
    (hlen : scan.2.length ≤ hexHashSize) {pairs : List ChunkLine}
    (hnext : parseChunkfileLoop fuel (storeWord hash scan.2) (Scan.fgets (fileLen - 1) text).2 =
      .ok pairs) : parseChunkfileLoop (fuel + 1) hash text =
        .ok ((scan.1, storeWord hash scan.2) :: pairs) := by
  rw [storeWord] at hnext ⊢
  rw [parseChunkfileLoop, if_neg hne]
  dsimp only
  rw [hscan]
  dsimp only
  rw [if_neg (Nat.not_lt.2 hlen), hnext]

/-- **What `parse_chunkfile` reads**: the lines up to the first one that lacks something. -/
theorem parseChunkfile_lines {text : List UInt8} (hfit : WordsFit (fileLines text))
    (hash : HexHash) : parseChunkfile hash text = .ok (storedPairs hash
      (((fileLines text).takeWhile fun line => (scanLine line).isSome).filterMap scanLine)) := by
  rw [parseChunkfile, fileLines] at *
  generalize text.length + 1 = fuel at *
  induction fuel generalizing hash text with
  | zero => rfl
  | succ fuel ih =>
      by_cases hnil : text = []
      · rw [parseChunkfileLoop, fileLinesLoop, if_pos hnil, if_pos hnil]
        rfl
      · rw [fileLinesLoop, if_neg hnil] at hfit ⊢
        obtain ⟨hline, hrest⟩ := List.forall_mem_cons.1 hfit
        cases hscan : scanLine (Scan.fgets (fileLen - 1) text).1 with
        | none =>
            rw [List.takeWhile_cons_of_neg (by rw [hscan]; decide), parseChunkfileLoop,
              if_neg hnil]
            dsimp only
            rw [hscan]
            rfl
        | some scan =>
            rw [List.takeWhile_cons_of_pos (by rw [hscan]; rfl), List.filterMap_cons_some hscan,
              storedPairs]
            exact parseChunkfileLoop_some hnil hscan (hline scan hscan) (ih _ hrest)

/-- **What `create_wanted_missing_list` reads**: every line is an entry, and where both conversions
of all lines succeed, it is what was scanned. -/
theorem createWantedMissingListLoop_lines {text : List UInt8} (hfit : WordsFit (fileLines text))
    (id : UInt32) (hash : HexHash) (s : State) : ∃ pairs : List ChunkLine,
      createWantedMissingListLoop (text.length + 1) id hash text s = .ok (pairs.foldl wantLine s) ∧
      pairs.length = (fileLines text).length ∧
      ((∀ line ∈ fileLines text, (scanLine line).isSome) →
        pairs = storedPairs hash ((fileLines text).filterMap scanLine)) := by
  rw [fileLines] at *
  generalize text.length + 1 = fuel at *
  induction fuel generalizing id hash text s with
  | zero => exact ⟨[], rfl, rfl, fun _ => rfl⟩
  | succ fuel ih =>
      rw [createWantedMissingListLoop, fileLinesLoop] at *
      by_cases hnil : text = []
      · rw [if_pos hnil, if_pos hnil]
        exact ⟨[], rfl, rfl, fun _ => rfl⟩
      · rw [if_neg hnil] at hfit ⊢
        rw [if_neg hnil]
        obtain ⟨hline, hrest⟩ := List.forall_mem_cons.1 hfit
        cases hscan : scanLine (Scan.fgets (fileLen - 1) text).1 with
        | none =>
            obtain ⟨id', hwant⟩ := scanLine_eq_none hscan id hash
            obtain ⟨pairs, hloop, hlen, -⟩ := ih id' hash (wantLine s (id', hash)) hrest
            refine ⟨(id', hash) :: pairs, ?_, ?_, fun hall => ?_⟩
            · simp only [hwant]
              exact hloop
            · rw [List.length_cons, List.length_cons, hlen]
            · exact absurd (hall _ (List.mem_cons_self ..)) (by rw [hscan]; decide)
        | some scan =>
            have hwant := scanLine_eq_some hscan (hline scan hscan) id hash
            obtain ⟨pairs, hloop, hlen, hpairs⟩ :=
              ih scan.1 (storeWord hash scan.2) (wantLine s (scan.1, storeWord hash scan.2)) hrest
            refine ⟨(scan.1, storeWord hash scan.2) :: pairs, ?_, ?_, fun hall => ?_⟩
            · simp only [hwant]
              exact hloop
            · rw [List.length_cons, List.length_cons, hlen]
            · rw [List.filterMap_cons_some hscan, storedPairs,
                hpairs fun line hline => hall line (List.mem_cons_of_mem _ hline)]

/-! ### The entries of the wanted list -/

/-- The number and the hash of the chunk at `q`. -/
def State.entry (s : State) (q : ℕ) : ChunkLine := ((s.chunks.cell q).id, s.hexHash q)

section Entries

variable {s : State}

theorem findOwned_eq_none_iff {hash : HexHash} : s.findOwned hash = none ↔ ¬ s.OwnsText hash := by
  rw [State.findOwned, Option.map_eq_none_iff, find_text_eq_none_iff]

/-- **What one line does to the numbers**: it gives its own to its entry, which is the owned chunk
with its hash or a new one, and leaves the others. -/
theorem wantLine_entry (h : Placed s) (line : ChunkLine) : ∃ q,
    (wantLine s line).wanted = q :: s.wanted ∧ q < (wantLine s line).chunks.next ∧
      (wantLine s line).entry q = line ∧ (s.OwnsText line.2 → s.findOwned line.2 = some q) ∧
      s.chunks.next ≤ (wantLine s line).chunks.next ∧
      ∀ q < s.chunks.next, ((wantLine s line).chunks.cell q).id =
        if s.findOwned line.2 = some q then line.1 else (s.chunks.cell q).id := by
  cases hown : s.findOwned line.2 with
  | none =>
      rw [wantLine_of_none hown]
      refine ⟨s.chunks.next, rfl, Nat.lt_succ_self _, ?_,
        fun htext => absurd htext (findOwned_eq_none_iff.1 hown), Nat.le_succ _, fun q hq => ?_⟩
      · rw [State.entry, State.hexHash]
        simp only [Heap.cell_alloc_self]
        rfl
      · rw [if_neg (by rintro ⟨⟩)]
        exact congrArg Chunk.id (Heap.cell_alloc_of_lt _ _ hq)
  | some p =>
      obtain ⟨hp, hhex⟩ := findOwned_eq_some hown
      rw [wantLine_of_some hown]
      refine ⟨p, rfl, h.owned p hp, ?_, fun _ => rfl, Nat.le_refl _, fun q hq => ?_⟩
      · show (((s.chunks.modify p fun c => { c with id := line.1 }).cell p).id,
          ((s.chunks.modify p fun c => { c with id := line.1 }).cell p).hexHash) = line
        rw [Heap.cell_modify_self]
        exact Prod.ext rfl hhex
      · show ((s.chunks.modify p fun c => { c with id := line.1 }).cell q).id = _
        rw [Heap.cell_modify]
        by_cases hqp : q = p
        · rw [if_pos hqp, if_pos (congrArg some hqp.symm)]
        · rw [if_neg hqp, if_neg fun heq => hqp (Option.some.inj heq).symm]

/-- Reading lines does not change what they are compared with. -/
theorem wantLine_owned (h : Placed s) (line : ChunkLine) (hash : HexHash) :
    ((wantLine s line).OwnsText hash ↔ s.OwnsText hash) ∧
      (wantLine s line).findOwned hash = s.findOwned hash := by
  obtain ⟨-, hhave, hhex, -⟩ := h.wantLine line
  refine ⟨?_, findOwned_congr hhave (fun q hq => hhex q (h.owned q hq)) hash⟩
  rw [State.OwnsText, hhave]
  exact exists_congr fun q => and_congr_right fun hq => by rw [hhex q (h.owned q hq)]

/-- Hashes stay. -/
theorem hexHash_wantLines (h : Placed s) (lines : List ChunkLine) {q : ℕ} (hq : q < s.chunks.next) :
    (lines.foldl wantLine s).hexHash q = s.hexHash q := by
  induction lines generalizing s with
  | nil => rfl
  | cons line lines ih =>
      obtain ⟨hplaced, -, hhex, -⟩ := h.wantLine line
      obtain ⟨-, -, -, -, -, hle, -⟩ := wantLine_entry h line
      rw [List.foldl_cons, ih hplaced (Nat.lt_of_lt_of_le hq hle), hhex q hq]

/-- A number stays where all lines for its chunk have it. -/
theorem id_wantLines_of_eq (h : Placed s) {lines : List ChunkLine} {q : ℕ} {v : UInt32}
    (hq : q < s.chunks.next) (hv : (s.chunks.cell q).id = v)
    (hall : ∀ line ∈ lines, s.findOwned line.2 = some q → line.1 = v) :
    ((lines.foldl wantLine s).chunks.cell q).id = v := by
  induction lines generalizing s with
  | nil => exact hv
  | cons line lines ih =>
      obtain ⟨hline, hlines⟩ := List.forall_mem_cons.1 hall
      obtain ⟨-, -, -, -, -, hle, hid⟩ := wantLine_entry h line
      refine ih (h.wantLine line).1 (Nat.lt_of_lt_of_le hq hle) ?_ fun line' hline' hown => ?_
      · rw [hid q hq]
        split_ifs with hown
        · exact hline hown
        · exact hv
      · rw [(wantLine_owned h line line'.2).2] at hown
        exact hlines line' hline' hown

/-- The lines for a chunk give it their number, where they agree on it. -/
theorem id_wantLines_of_mem (h : Placed s) {lines : List ChunkLine} {q : ℕ} {v : UInt32}
    (hq : q < s.chunks.next) (hall : ∀ line ∈ lines, s.findOwned line.2 = some q → line.1 = v)
    (hmem : ∃ line ∈ lines, s.findOwned line.2 = some q) :
    ((lines.foldl wantLine s).chunks.cell q).id = v := by
  induction lines generalizing s with
  | nil =>
      obtain ⟨line, hline, -⟩ := hmem
      exact absurd hline List.not_mem_nil
  | cons line lines ih =>
      obtain ⟨hline, hlines⟩ := List.forall_mem_cons.1 hall
      obtain ⟨-, -, -, -, -, hle, hid⟩ := wantLine_entry h line
      have hlt := Nat.lt_of_lt_of_le hq hle
      have hall' : ∀ line' ∈ lines, (wantLine s line).findOwned line'.2 = some q → line'.1 = v := by
        intro line' hline' hown
        rw [(wantLine_owned h line line'.2).2] at hown
        exact hlines line' hline' hown
      by_cases hown : s.findOwned line.2 = some q
      · refine id_wantLines_of_eq (h.wantLine line).1 hlt ?_ hall'
        rw [hid q hq, if_pos hown]
        exact hline hown
      · obtain ⟨line', hline', hown'⟩ := hmem
        rcases List.mem_cons.1 hline' with rfl | hline'
        · exact absurd hown' hown
        · refine ih (h.wantLine line).1 hlt hall' ⟨line', hline', ?_⟩
          rw [(wantLine_owned h line line'.2).2]
          exact hown'

/-- Lines for the same owned chunk have the same number. -/
def OneNumber (s : State) (lines : List ChunkLine) : Prop :=
  ∀ line ∈ lines, ∀ line' ∈ lines, line.2 = line'.2 → s.OwnsText line.2 → line.1 = line'.1

theorem oneNumber_cons_iff {line : ChunkLine} {lines : List ChunkLine} :
    OneNumber s (line :: lines) ↔ OneNumber s lines ∧
      ∀ line' ∈ lines, line.2 = line'.2 → s.OwnsText line.2 → line.1 = line'.1 := by
  constructor
  · intro h
    exact ⟨fun a ha b hb => h a (List.mem_cons_of_mem _ ha) b (List.mem_cons_of_mem _ hb),
      fun b hb => h line (List.mem_cons_self ..) b (List.mem_cons_of_mem _ hb)⟩
  · rintro ⟨hlines, hline⟩ a ha b hb hsame hown
    rcases List.mem_cons.1 ha with rfl | ha' <;> rcases List.mem_cons.1 hb with rfl | hb'
    · rfl
    · exact hline b hb' hsame hown
    · exact (hline a ha' hsame.symm (hsame ▸ hown)).symm
    · exact hlines a ha' b hb' hsame hown

/-- **When the entry of a line keeps its number**, if the lines after it agree among themselves: no
line for the same owned chunk has another one. -/
theorem entry_wantLines_iff (h : Placed s) {line : ChunkLine} {lines : List ChunkLine} {q : ℕ}
    (hq : q < (wantLine s line).chunks.next) (hentry : (wantLine s line).entry q = line)
    (hfound : s.OwnsText line.2 → s.findOwned line.2 = some q)
    (hone : OneNumber (wantLine s line) lines) :
    (lines.foldl wantLine (wantLine s line)).entry q = line ↔
      ∀ line' ∈ lines, line.2 = line'.2 → s.OwnsText line.2 → line.1 = line'.1 := by
  have hplaced := (h.wantLine line).1
  obtain ⟨hid, hhash⟩ := Prod.ext_iff.1 hentry
  rw [State.entry] at hid hhash
  dsimp only at hid hhash
  -- a line for the owned chunk `q` has its hash
  have hnamed : ∀ line' ∈ lines, (wantLine s line).findOwned line'.2 = some q →
      line.2 = line'.2 ∧ s.OwnsText line.2 := by
    intro line' hline' hown
    have hsame : line.2 = line'.2 := hhash.symm.trans (findOwned_eq_some hown).2
    rw [(wantLine_owned h line line'.2).2, ← hsame] at hown
    refine ⟨hsame, not_not.1 fun hnot => ?_⟩
    rw [findOwned_eq_none_iff.2 hnot] at hown
    cases hown
  rw [State.entry, hexHash_wantLines hplaced lines hq, hhash, ← Prod.mk.eta (p := line),
    Prod.mk.injEq]
  refine ⟨fun hlast line' hline' hsame hown => ?_, fun hall => ⟨?_, rfl⟩⟩
  · have hq' : (wantLine s line).findOwned line'.2 = some q := by
      rw [(wantLine_owned h line line'.2).2, ← hsame]
      exact hfound hown
    rw [← hlast.1]
    refine id_wantLines_of_mem hplaced hq (fun a ha hown' => ?_) ⟨line', hline', hq'⟩
    obtain ⟨hsame', -⟩ := hnamed a ha hown'
    refine hone a ha line' hline' (hsame'.symm.trans hsame) ?_
    rw [(wantLine_owned h line a.2).1, ← hsame']
    exact hown
  · refine id_wantLines_of_eq hplaced hq hid fun a ha hown => ?_
    obtain ⟨hsame, htext⟩ := hnamed a ha hown
    exact (hall a ha hsame htext).symm

/-- **When the entries keep their numbers**: reading lines adds one entry for each, with its hash,
and all have their numbers at the end precisely if lines for the same owned chunk have the same. -/
theorem map_entry_wantLines_iff (h : Placed s) (lines : List ChunkLine) : ∃ new,
    (lines.foldl wantLine s).wanted = new ++ s.wanted ∧ new.length = lines.length ∧
      new.map (lines.foldl wantLine s).hexHash = (lines.map Prod.snd).reverse ∧
      (new.map (lines.foldl wantLine s).entry = lines.reverse ↔ OneNumber s lines) := by
  induction lines generalizing s with
  | nil =>
      exact ⟨[], rfl, rfl, rfl, iff_of_true rfl fun line hline => absurd hline List.not_mem_nil⟩
  | cons line lines ih =>
      have hplaced := (h.wantLine line).1
      obtain ⟨q, hwanted, hq, hentry, hfound, -, -⟩ := wantLine_entry h line
      obtain ⟨new, hnew, hlen, hhex, hiff⟩ := ih hplaced
      have hhexq := hexHash_wantLines hplaced lines hq
      have hhash : (wantLine s line).hexHash q = line.2 := congrArg Prod.snd hentry
      refine ⟨new ++ [q], ?_, ?_, ?_, ?_⟩
      · rw [List.foldl_cons, hnew, hwanted, List.append_assoc, List.singleton_append]
      · rw [List.length_append, List.length_singleton, hlen, List.length_cons]
      · rw [List.foldl_cons, List.map_append, hhex, List.map_singleton, hhexq, hhash, List.map_cons,
          List.reverse_cons]
      · have hsame : OneNumber (wantLine s line) lines ↔ OneNumber s lines := by
          refine forall₂_congr fun a _ => forall₂_congr fun b _ => ?_
          rw [(wantLine_owned h line a.2).1]
        rw [List.foldl_cons, List.map_append, List.map_singleton, List.reverse_cons,
          List.append_singleton_inj, hiff, oneNumber_cons_iff, ← hsame]
        exact and_congr_right fun hone => entry_wantLines_iff h hq hentry hfound hone

end Entries

/-! ### When the readers agree -/

/-- **The loop adds what `parse_chunkfile` reads**: one entry for each pair, in the order of the
file, with its number and its hash when the file has been read, and no other.  Nothing is known of
what is in the variables of the two functions before the first line. -/
def AddsPairs (s : State) (id : UInt32) (hash₀ hash : HexHash) (text : List UInt8) : Prop :=
  ∃ pairs s' new, parseChunkfile hash₀ text = .ok pairs ∧
    createWantedMissingListLoop (text.length + 1) id hash text s = .ok s' ∧
    s'.wanted = new ++ s.wanted ∧ new.map s'.entry = pairs.reverse

/-- **The condition**: every line has a number and a word, what is in the two arrays behind the
first word is the same, and lines for the same owned chunk have the same number. -/
structure ReadersAgree (s : State) (hash₀ hash : HexHash) (text : List UInt8) : Prop where
  complete : ∀ line ∈ fileLines text, (scanLine line).isSome
  arrays : ∀ scan ∈ ((fileLines text).filterMap scanLine).head?,
    storeWord hash₀ scan.2 = storeWord hash scan.2
  numbers : OneNumber s (storedPairs hash ((fileLines text).filterMap scanLine))

/-- A text whose lines are complete is what the requests of the user are read from. -/
theorem createWantedMissingListFile_eq {text : List UInt8} (hfit : WordsFit (fileLines text))
    (hcomplete : ∀ line ∈ fileLines text, (scanLine line).isSome) (id : UInt32) (hash : HexHash)
    (s : State) : createWantedMissingListFile id hash text s =
      .ok (createWantedMissingList s (storedPairs hash ((fileLines text).filterMap scanLine))) := by
  obtain ⟨pairs, hloop, -, hpairs⟩ := createWantedMissingListLoop_lines hfit id hash s
  rw [createWantedMissingListFile, hloop, hpairs hcomplete]
  rfl

/-- Where all lines are complete, each is scanned. -/
theorem length_filterMap_scanLine {lines : List (List UInt8)}
    (h : ∀ line ∈ lines, (scanLine line).isSome) :
    (lines.filterMap scanLine).length = lines.length := by
  rw [List.length_filterMap_eq_countP, List.countP_eq_length]
  exact h

theorem addsPairs_iff {s : State} (h : Placed s) {text : List UInt8}
    (hfit : WordsFit (fileLines text)) (id : UInt32) (hash₀ hash : HexHash) :
    AddsPairs s id hash₀ hash text ↔ ReadersAgree s hash₀ hash text := by
  obtain ⟨wanted, hloop, hlen, hwanted⟩ := createWantedMissingListLoop_lines hfit id hash s
  obtain ⟨new, hnew, hcount, hhex, hiff⟩ := map_entry_wantLines_iff h wanted
  have hparse := parseChunkfile_lines hfit hash₀
  constructor
  · rintro ⟨pairs, s', new', hpairs, hs', hadded, hentries⟩
    rw [hparse] at hpairs
    rw [hloop] at hs'
    cases hpairs
    cases hs'
    rw [hnew, List.append_left_inj] at hadded
    cases hadded
    -- as many lines are complete as there are lines
    have hcomplete : ∀ line ∈ fileLines text, (scanLine line).isSome := by
      have htake : ((fileLines text).takeWhile fun line => (scanLine line).isSome) =
          fileLines text := by
        refine (List.takeWhile_prefix _).eq_of_length ?_
        have hsize := congrArg List.length hentries
        rw [List.length_map, hcount, hlen, List.length_reverse, length_storedPairs,
          length_filterMap_scanLine fun line hline => (List.mem_takeWhile_imp hline :)] at hsize
        exact hsize.symm
      exact List.takeWhile_eq_self_iff.1 htake
    rw [List.takeWhile_eq_self_iff.2 hcomplete] at hentries
    have hpairs := hwanted hcomplete
    rw [hpairs] at hhex hiff hentries
    have hhashes := congrArg (List.map Prod.snd) hentries
    rw [List.map_map, List.map_reverse] at hhashes
    have harrays := snd_storedPairs_inj (List.reverse_inj.1 (hhashes.symm.trans hhex))
    rw [storedPairs_congr harrays] at hentries
    exact ⟨hcomplete, harrays, hiff.1 hentries⟩
  · rintro ⟨hcomplete, harrays, hone⟩
    have hpairs := hwanted hcomplete
    rw [List.takeWhile_eq_self_iff.2 hcomplete, storedPairs_congr harrays, ← hpairs] at hparse
    rw [← hpairs] at hone
    exact ⟨_, _, new, hparse, hloop, hnew, hiff.2 hone⟩

/-- The state in which `process_get` calls `create_wanted_missing_list`. -/
def State.withNames (s : State) (chunkFile outputFile : String) : State :=
  { s with userGetChunkFile := chunkFile, userOutputFilename := outputFile }

/-- **When the two readers agree.**  In every state that a peer reaches, for every chunk file whose
words have at most 40 characters, and whatever is in the variables of the two functions at first:
`create_wanted_missing_list` adds to the wanted list one entry for each pair that `parse_chunkfile`
reads from the file, in the same order and with its number and hash, and no other, precisely if
every line has a number and a word, the first word leaves the two arrays the same, and lines for the
same owned chunk have the same number. -/
theorem readers_agree_iff {shahash : List UInt8 → BinHash} {setup : Setup} {clock : ℕ → ℕ}
    {junk : ℕ → Packet} {es : List Event} {s : State}
    (hrun : Machine.run (step shahash) (peerSetup setup clock junk) es = .ok s)
    (chunkFile outputFile : String) (id : UInt32) (hash₀ hash : HexHash) (text : List UInt8)
    (hfit : WordsFit (fileLines text)) :
    AddsPairs (s.withNames chunkFile outputFile) id hash₀ hash text ↔
      ReadersAgree (s.withNames chunkFile outputFile) hash₀ hash text := by
  have hi := Machine.run_invariant (fun _ _ _ h he => Intact.step h he)
    (Intact.setup shahash setup clock junk) hrun
  have hplaced : Placed (s.withNames chunkFile outputFile) :=
    ⟨hi.placed.missing, hi.placed.owned⟩
  exact addsPairs_iff hplaced hfit id hash₀ hash

/-- A line with forty zeros for the hash. -/
def zeroText : List UInt8 := 48 :: 32 :: (List.replicate hexHashSize 48 ++ [10])

/-- A line with another number and forty ones. -/
def onesText : List UInt8 := 49 :: 32 :: (List.replicate hexHashSize 49 ++ [10])

theorem fileLines_zeroText : fileLines (zeroText ++ onesText) = [zeroText, onesText] ∧
    fileLines (zeroText ++ [10]) = [zeroText, [10]] := by
  decide +kernel

theorem scanLine_zeroText : scanLine zeroText = some (0, List.replicate hexHashSize 48) ∧
    scanLine onesText = some (1, List.replicate hexHashSize 49) ∧ scanLine [10] = none := by
  decide +kernel

/-- A file with a line for a chunk that is owned, and one for a chunk that is not. -/
theorem readers_agree_iff_lines :
    AddsPairs ((peerSetup lender (fun _ => 0) fun _ => zeroPacket).withNames "chunks" "out") 7
      (Vector.replicate hexHashSize 1) (Vector.replicate hexHashSize 2) (zeroText ++ onesText) := by
  have hlines := fileLines_zeroText.1
  obtain ⟨hzero, hone, -⟩ := scanLine_zeroText
  have hscans : (fileLines (zeroText ++ onesText)).filterMap scanLine =
      [(0, List.replicate hexHashSize 48), (1, List.replicate hexHashSize 49)] := by
    rw [hlines, List.filterMap_cons_some hzero, List.filterMap_cons_some hone, List.filterMap_nil]
  have hline : ∀ line ∈ fileLines (zeroText ++ onesText), ∃ scan, scanLine line = some scan ∧
      scan.2.length = hexHashSize := by
    intro line hline
    rw [hlines, List.mem_cons, List.mem_singleton] at hline
    rcases hline with rfl | rfl
    · exact ⟨_, hzero, List.length_replicate⟩
    · exact ⟨_, hone, List.length_replicate⟩
  have hrun : Machine.run (step fun _ => Vector.replicate binHashSize 0)
      (peerSetup lender (fun _ => 0) fun _ => zeroPacket) [] = .ok _ := rfl
  refine (readers_agree_iff hrun "chunks" "out" 7 _ _ _ ?_).2 ⟨?_, ?_, ?_⟩
  · intro line hmem scan hs
    obtain ⟨scan', hscan, hlen⟩ := hline line hmem
    rw [hscan] at hs
    cases hs
    exact hlen.le
  · intro line hmem
    obtain ⟨scan, hscan, -⟩ := hline line hmem
    rw [hscan]
    rfl
  · rw [hscans]
    rintro _ ⟨⟩
    decide +kernel
  · rw [hscans]
    -- the two hashes differ
    have hne : storeWord (Vector.replicate hexHashSize 2) (List.replicate hexHashSize 48) ≠
        storeWord (storeWord (Vector.replicate hexHashSize 2) (List.replicate hexHashSize 48))
          (List.replicate hexHashSize 49) := by
      decide +kernel
    rintro line hline line' hline' hsame -
    simp only [storedPairs, List.mem_cons, List.not_mem_nil, or_false] at hline hline'
    rcases hline with rfl | rfl <;> rcases hline' with rfl | rfl
    · rfl
    · exact absurd hsame hne
    · exact absurd hsame.symm hne
    · rfl

/-- A blank line is an entry for the one reader, and the end of the file for the other. -/
theorem readers_agree_wrong : ¬ ∀ (shahash : List UInt8 → BinHash) (setup : Setup) (clock : ℕ → ℕ)
    (junk : ℕ → Packet) (es : List Event) (s : State),
    Machine.run (step shahash) (peerSetup setup clock junk) es = .ok s →
    ∀ (chunkFile outputFile : String) (id : UInt32) (hash₀ hash : HexHash) (text : List UInt8),
      WordsFit (fileLines text) →
      AddsPairs (s.withNames chunkFile outputFile) id hash₀ hash text := by
  intro h
  have hi := Intact.setup (fun _ => Vector.replicate binHashSize 0) lender (fun _ => 0) fun _ =>
    zeroPacket
  have hlines := fileLines_zeroText.2
  obtain ⟨hscan, -, hblank⟩ := scanLine_zeroText
  have hfit : WordsFit (fileLines (zeroText ++ [10])) := by
    intro line hline scan hs
    rw [hlines, List.mem_cons, List.mem_singleton] at hline
    rcases hline with rfl | rfl
    · rw [hscan] at hs
      cases hs
      rw [List.length_replicate]
    · rw [hblank] at hs
      cases hs
  have hadds := h (fun _ => Vector.replicate binHashSize 0) lender (fun _ => 0)
    (fun _ => zeroPacket) [] _ rfl "chunks" "out" 7 (Vector.replicate hexHashSize 1)
    (Vector.replicate hexHashSize 2) (zeroText ++ [10]) hfit
  have hplaced : Placed ((peerSetup lender (fun _ => 0) fun _ => zeroPacket).withNames "chunks"
      "out") := ⟨hi.placed.missing, hi.placed.owned⟩
  have hall := ((addsPairs_iff hplaced hfit 7 _ _).1 hadds).complete [10] (by
    rw [hlines]
    exact List.mem_cons_of_mem _ (List.mem_singleton_self _))
  rw [hblank] at hall
  cases hall

end P2P
