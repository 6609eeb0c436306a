/-
**What a seeder loads** (`parse_chunkfile`, `create_chunk`, `load_own_chunk_data`).

A has-chunks file says which chunks of a data file a peer owns, as lines with the position of a
chunk and its hash.  The position is read into an `int`, goes through a parameter of type `uint8_t`,
and becomes an offset in the data file.  `create_wanted_missing_list` stores the position again
after that, `parse_chunkfile` does not: so the seeder owns every hash of its lines, with the data at
the position modulo 256.

Main definitions:

* `P2P.DataFile` — a data file;
* `P2P.parseChunkfile` — the lines of a has-chunks file;
* `P2P.ListsChunks` — a has-chunks file with given lines;
* `P2P.Advertised` — the seeder owns the hash of a line with the data at its position.

Main results:

* `P2P.parseChunkfile_eq` — **the lines are read back**;
* `P2P.advertised_iff` — what the seeder owns for a line;
* `P2P.seeder_loads_iff` — **when a seeder loads what it advertises**.
-/

import P2PFileTransfer.Peer
import P2PFileTransfer.Publish
import P2PFileTransfer.Scan

set_option relaxedAutoImplicit false
set_option autoImplicit false

namespace P2P

/-! ### Parsing -/

/-- `FILE_LEN`: the size of the buffer for a line. -/
def fileLen : ℕ := 1024

/-- `sscanf(line, "%d %s\n", &id, hash)`: the two values, if both conversions succeed. -/
def scanLine (line : List UInt8) : Option (UInt32 × List UInt8) :=
  match Scan.scanInt (Scan.cString line) with
  | none => none
  | some (id, rest) =>
      match Scan.scanString rest with
      | none => none
      | some (word, _) => some (Scan.toInt id, word)

/-- The loop of `parse_chunkfile`; `hash` is the array for the second conversion.  The zero that
ends a word of 40 characters lies behind the array, among the other variables of the function. -/
def parseChunkfileLoop : ℕ → HexHash → List UInt8 → Except Fault (List (UInt32 × HexHash))
  | 0, _, _ => .ok []
  | fuel + 1, hash, text =>
      if text = [] then .ok []
      else
        let next := Scan.fgets (fileLen - 1) text
        match scanLine next.1 with
        | none => .ok []
        | some (id, word) =>
            if hexHashSize < word.length then .error .outOfBounds
            else
              let hash := Block.blit hash 0 ((word ++ [0]).take hexHashSize)
              match parseChunkfileLoop fuel hash next.2 with
              | .error x => .error x
              | .ok lines => .ok ((id, hash) :: lines)

/-- `parse_chunkfile`, up to `create_chunk`: every line takes at least one character. -/
def parseChunkfile (hash : HexHash) (text : List UInt8) : Except Fault (List (UInt32 × HexHash)) :=
  parseChunkfileLoop (text.length + 1) hash text

/-! ### Files -/

/-- A data file: its size is an `off_t`. -/
structure DataFile where
  bytes : List UInt8
  size_lt : bytes.length < 2 ^ 63

/-- A hexadecimal digit. -/
def IsHexDigit (ch : UInt8) : Prop :=
  48 ≤ ch.toNat ∧ ch.toNat ≤ 57 ∨ 65 ≤ ch.toNat ∧ ch.toNat ≤ 70 ∨ 97 ≤ ch.toNat ∧ ch.toNat ≤ 102

/-- The text of a line, without its newline. -/
def lineText (line : ℕ × HexHash) : List UInt8 := Scan.decimal line.1 ++ 32 :: line.2.toList

/-- The text has these lines; the last one may have no newline. -/
def ListsChunks (lines : List (ℕ × HexHash)) (text : List UInt8) : Prop :=
  text = lines.flatMap (fun line => lineText line ++ [10]) ∨
    text ++ [10] = lines.flatMap fun line => lineText line ++ [10]

/-- A line for a chunk that the data file has. -/
structure Advertisable (file : DataFile) (line : ℕ × HexHash) : Prop where
  full : (line.1 + 1) * btChunkSize ≤ file.bytes.length
  digits : ∀ ch ∈ line.2.toList, IsHexDigit ch

/-! ### Reading the lines back -/

section Lines

variable {file : DataFile} {line : ℕ × HexHash}

theorem Advertisable.lt (h : Advertisable file line) : line.1 < 10 ^ 14 := by
  have hfull := h.full
  have hsize := file.size_lt
  rw [btChunkSize_eq] at hfull
  omega

theorem not_mem_lineText (h : Advertisable file line) (ch : UInt8)
    (hch : ch.toNat < 32) : ch ∉ lineText line := by
  intro hmem
  rcases List.mem_append.1 hmem with hmem | hmem
  · have hd := Scan.isDigit_of_mem_decimal hmem
    rw [Scan.isDigit, decide_eq_true_iff] at hd
    omega
  · rcases List.mem_cons.1 hmem with rfl | hmem
    · exact absurd hch (by decide)
    · have hd := h.digits ch hmem
      rw [IsHexDigit] at hd
      omega

theorem length_lineText_le (h : Advertisable file line) : (lineText line).length ≤ 55 := by
  have hd := Scan.length_decimal_le (k := 13) h.lt
  rw [lineText, List.length_append, List.length_cons, Vector.length_toList, hexHashSize]
  omega

/-- **A line is read back**, with or without its newline. -/
theorem scanLine_lineText (h : Advertisable file line) {tail : List UInt8}
    (htail : tail = [] ∨ tail = [10]) :
    scanLine (lineText line ++ tail) = some (UInt32.ofNat line.1, line.2.toList) := by
  have hspace : ∀ ch ∈ line.2.toList, Scan.isSpace ch = false := by
    intro ch hch
    have hd := h.digits ch hch
    rw [IsHexDigit] at hd
    rw [Scan.isSpace, decide_eq_false_iff_not]
    omega
  have hne : line.2.toList ≠ [] := by
    intro hnil
    have hlen := congrArg List.length hnil
    rw [Vector.length_toList] at hlen
    cases hlen
  have hstring : Scan.cString (lineText line ++ tail) = lineText line ++ tail := by
    refine Scan.cString_of_not_mem ?_
    intro hch
    rcases List.mem_append.1 hch with hch | hch
    · exact not_mem_lineText h 0 (by decide) hch
    · rcases htail with rfl | rfl
      · exact absurd hch List.not_mem_nil
      · exact absurd hch (by decide)
  have hint := Scan.scanInt_decimal line.1 (32 :: (line.2.toList ++ tail)) fun ch hch => by
    cases hch
    rfl
  have hword := Scan.scanString_word tail hne hspace fun ch hch => by
    rcases htail with rfl | rfl
    · cases hch
    · cases hch
      rfl
  rw [scanLine, hstring, lineText, List.append_assoc, List.cons_append, hint]
  dsimp only
  rw [hword]
  dsimp only
  rw [Scan.toInt_natCast (lt_trans h.lt (by decide))]

/-- The array after a word of 40 characters. -/
theorem blit_hash (hash hash' : HexHash) :
    Block.blit hash 0 ((hash'.toList ++ [0]).take hexHashSize) = hash' := by
  have hlen : hash'.toList.length = hexHashSize := Vector.length_toList
  rw [List.take_append_of_le_length (Nat.le_of_eq hlen.symm),
    List.take_of_length_le (Nat.le_of_eq hlen)]
  refine Vector.toList_inj.1 ?_
  rw [Block.toList_blit_zero _ (Nat.le_of_eq hlen), hlen, List.drop_eq_nil_of_le, List.append_nil]
  exact Nat.le_of_eq Vector.length_toList

/-- One pass of the loop. -/
theorem parseChunkfileLoop_line (h : Advertisable file line) (fuel : ℕ) (hash : HexHash)
    {text tail rest : List UInt8} (htail : tail = [] ∨ tail = [10]) (hne : text ≠ [])
    (hnext : Scan.fgets (fileLen - 1) text = (lineText line ++ tail, rest)) :
    parseChunkfileLoop (fuel + 1) hash text =
      match parseChunkfileLoop fuel line.2 rest with
      | .error x => .error x
      | .ok lines => .ok ((UInt32.ofNat line.1, line.2) :: lines) := by
  have hlen : ¬ hexHashSize < line.2.toList.length := by
    rw [Vector.length_toList]
    exact lt_irrefl _
  rw [parseChunkfileLoop, if_neg hne]
  dsimp only
  rw [hnext]
  dsimp only
  rw [scanLine_lineText h htail]
  dsimp only
  rw [if_neg hlen, blit_hash]

/-- Lines end with a newline. -/
theorem flatMap_lines_eq_concat (line : ℕ × HexHash) (lines : List (ℕ × HexHash)) :
    ∃ rest, (line :: lines).flatMap (fun line => lineText line ++ [10]) = rest ++ [10] := by
  induction lines generalizing line with
  | nil => exact ⟨lineText line, by rw [List.flatMap_singleton]⟩
  | cons line' lines ih =>
      obtain ⟨rest, hrest⟩ := ih line'
      exact ⟨lineText line ++ [10] ++ rest, by rw [List.flatMap_cons, hrest, ← List.append_assoc]⟩

/-- **The lines are read back.** -/
theorem parseChunkfile_eq {lines : List (ℕ × HexHash)} {text : List UInt8}
    (hlines : ∀ line ∈ lines, Advertisable file line) (htext : ListsChunks lines text)
    (hash : HexHash) : parseChunkfile hash text =
      .ok (lines.map fun line => (UInt32.ofNat line.1, line.2)) := by
  suffices hloop : ∀ (fuel : ℕ) (hash : HexHash) (text : List UInt8), text.length < fuel →
      ListsChunks lines text → parseChunkfileLoop fuel hash text =
        .ok (lines.map fun line => (UInt32.ofNat line.1, line.2)) from
    hloop _ hash text (Nat.lt_succ_self _) htext
  clear htext
  induction lines with
  | nil =>
      rintro (_ | fuel) hash text hfuel (rfl | htext)
      · rfl
      · exact absurd htext (List.append_ne_nil_of_right_ne_nil _ (List.cons_ne_nil _ _))
      · rfl
      · exact absurd htext (List.append_ne_nil_of_right_ne_nil _ (List.cons_ne_nil _ _))
  | cons line lines ih =>
      intro fuel hash text hfuel htext
      obtain ⟨hline, hlines⟩ := List.forall_mem_cons.1 hlines
      have hnl := not_mem_lineText hline 10 (by decide)
      have hlen := length_lineText_le hline
      have hne : lineText line ≠ [] :=
        List.append_ne_nil_of_left_ne_nil (Scan.decimal_ne_nil line.1) _
      -- the rest of the text after the line and its newline
      have hmore : ∀ {rest}, text = lineText line ++ 10 :: rest → ListsChunks lines rest →
          parseChunkfileLoop fuel hash text =
            .ok ((line :: lines).map fun line => (UInt32.ofNat line.1, line.2)) := by
        rintro rest rfl hrest
        obtain ⟨fuel, rfl⟩ := Nat.exists_eq_succ_of_ne_zero (Nat.ne_zero_of_lt hfuel)
        have hfuel' : rest.length < fuel := by
          rw [List.length_append, List.length_cons] at hfuel
          omega
        rw [parseChunkfileLoop_line hline fuel hash (Or.inr rfl)
          (List.append_ne_nil_of_left_ne_nil hne _)
          (Scan.fgets_line hnl (by rw [fileLen]; omega) rest),
          ih hlines fuel line.2 rest hfuel' hrest]
        rfl
      rcases htext with htext | htext
      · rw [List.flatMap_cons, List.append_assoc, List.singleton_append] at htext
        exact hmore htext (Or.inl rfl)
      · rw [List.flatMap_cons, List.append_assoc, List.singleton_append] at htext
        cases lines with
        | nil =>
            -- the last line, without a newline
            have heq : text = lineText line := List.append_cancel_right htext
            rw [heq] at hfuel ⊢
            obtain ⟨fuel, rfl⟩ := Nat.exists_eq_succ_of_ne_zero (Nat.ne_zero_of_lt hfuel)
            have hend : parseChunkfileLoop fuel line.2 [] = .ok [] := by
              cases fuel <;> rfl
            rw [parseChunkfileLoop_line hline fuel hash (Or.inl rfl) hne (by
              rw [List.append_nil]
              exact Scan.fgets_last hnl (by rw [fileLen]; omega)), hend]
            rfl
        | cons line' lines =>
            obtain ⟨rest, hrest⟩ := flatMap_lines_eq_concat line' lines
            rw [hrest, ← List.cons_append, ← List.append_assoc] at htext
            exact hmore (List.append_cancel_right htext) (Or.inr hrest.symm)

end Lines

/-! ### Loading -/

/-- The seeder owns the hash of the line, with the bytes of the data file at its position. -/
def Advertised (s : State) (file : DataFile) (line : ℕ × HexHash) : Prop :=
  ∃ q ∈ s.haveList, s.binHash q = binHashOf line.2 ∧
    (s.chunks.cell q).chunkData.toList = fileChunk file.bytes line.1

/-- The data that a seeder loads for a line: that of the position modulo 256. -/
theorem toList_ownChunk {file : DataFile} {line : ℕ × HexHash} (h : Advertisable file line) :
    (ownChunk (some file.bytes) (UInt32.ofNat line.1, line.2)).chunkData.toList =
      fileChunk file.bytes (line.1 % 256) := by
  have hid : (UInt32.ofNat line.1).toUInt8.toUInt32.toNat % 8192 = line.1 % 256 := by
    rw [UInt8.toNat_toUInt32, UInt32.toNat_toUInt8, UInt32.toNat_ofNat']
    omega
  have hread := toList_seededChunk file.bytes (UInt32.ofNat line.1).toUInt8.toUInt32 line.2
  rw [hid] at hread
  -- the position modulo 256 is no later in the file, so there is a full chunk
  have hfull : (fileChunk file.bytes (line.1 % 256)).length = btChunkSize := by
    have hle : (line.1 % 256 + 1) * btChunkSize ≤ (line.1 + 1) * btChunkSize :=
      Nat.mul_le_mul_right _ (Nat.succ_le_succ (Nat.mod_le _ _))
    have hlen := h.full
    rw [length_fileChunk]
    rw [Nat.succ_mul] at hle
    omega
  rw [hfull, Nat.sub_self, List.replicate_zero, List.append_nil] at hread
  exact hread

/-- **What the seeder owns for a line**: some line has its hash, and the data file has at that
line's position modulo 256 the bytes of this line's position. -/
theorem advertised_iff {file : DataFile} {lines : List (ℕ × HexHash)}
    (hlines : ∀ line ∈ lines, Advertisable file line) (peers : List (ℤ × SockaddrIn))
    (identity maxConn : ℤ) (clock : ℕ → ℕ) (junk : ℕ → Packet) (line : ℕ × HexHash) :
    Advertised (peerSetup ⟨peers, identity, maxConn,
        lines.map fun line => (UInt32.ofNat line.1, line.2), some file.bytes⟩ clock junk) file
      line ↔
      ∃ line' ∈ lines, binHashOf line'.2 = binHashOf line.2 ∧
        fileChunk file.bytes (line'.1 % 256) = fileChunk file.bytes line.1 := by
  have hcell : ∀ {q line'}, lines[q]? = some line' →
      (peerSetup ⟨peers, identity, maxConn, lines.map fun line => (UInt32.ofNat line.1, line.2),
          some file.bytes⟩ clock junk).chunks.cell q =
        ownChunk (some file.bytes) (UInt32.ofNat line'.1, line'.2) := by
    intro q line' hq
    show (List.map _ (List.map _ lines)).getD q _ = _
    rw [List.getD, List.getElem?_map, List.getElem?_map, hq]
    rfl
  constructor
  · rintro ⟨q, hq, hbin, hdata⟩
    have hlt : q < lines.length := by
      have hq := List.mem_range.1 (List.mem_reverse.1 hq)
      rwa [List.length_map] at hq
    have hline : lines[q]? = some lines[q] := List.getElem?_eq_getElem hlt
    rw [hcell hline, toList_ownChunk (hlines _ (List.getElem_mem hlt))] at hdata
    rw [State.binHash, hcell hline] at hbin
    exact ⟨lines[q], List.getElem_mem hlt, hbin, hdata⟩
  · rintro ⟨line', hline', hbin, hdata⟩
    obtain ⟨q, hq⟩ := List.mem_iff_getElem?.1 hline'
    have hlt : q < lines.length := (List.getElem?_eq_some_iff.1 hq).1
    refine ⟨q, List.mem_reverse.2 (List.mem_range.2 (by rwa [List.length_map])), ?_, ?_⟩
    · rw [State.binHash, hcell hq]
      exact hbin
    · rw [hcell hq, toList_ownChunk (hlines _ hline')]
      exact hdata

/-- **When a seeder loads what it advertises.**  For every data file and every has-chunks file with
lines for chunks of it, the set-up reads the lines back, and it owns the hash of every line with the
bytes at the line's position exactly when for every line there is one with the same hash at whose
position modulo 256 the data file has these bytes.  So every position below 256 is right, and where
no hash comes twice, another one is right only if the file repeats itself there. -/
theorem seeder_loads_iff (file : DataFile) (lines : List (ℕ × HexHash))
    (hlines : ∀ line ∈ lines, Advertisable file line) (text : List UInt8)
    (htext : ListsChunks lines text) (hash : HexHash) (peers : List (ℤ × SockaddrIn))
    (identity maxConn : ℤ) (clock : ℕ → ℕ) (junk : ℕ → Packet) :
    ∃ own, parseChunkfile hash text = .ok own ∧
      ((∀ line ∈ lines, Advertised
          (peerSetup ⟨peers, identity, maxConn, own, some file.bytes⟩ clock junk) file line) ↔
        ∀ line ∈ lines, ∃ line' ∈ lines, binHashOf line'.2 = binHashOf line.2 ∧
          fileChunk file.bytes (line'.1 % 256) = fileChunk file.bytes line.1) :=
  ⟨_, parseChunkfile_eq hlines htext hash, forall₂_congr fun line _ =>
    advertised_iff hlines peers identity maxConn clock junk line⟩

/-- A file of 257 chunks, all zero but the last one. -/
def longFile : DataFile where
  bytes := List.replicate (256 * btChunkSize) 0 ++ List.replicate btChunkSize 1
  size_lt := by
    rw [List.length_append, List.length_replicate, List.length_replicate, btChunkSize_eq]
    decide

/-- A line of a has-chunks file, with forty zeros for the hash. -/
def zeroLine (id : ℕ) : ℕ × HexHash := (id, Vector.replicate hexHashSize 48)

theorem advertisable_zeroLine {id : ℕ} (h : id ≤ 256) : Advertisable longFile (zeroLine id) := by
  refine ⟨?_, fun ch hch => ?_⟩
  · show (id + 1) * btChunkSize ≤ (List.replicate _ _ ++ List.replicate _ _).length
    rw [List.length_append, List.length_replicate, List.length_replicate, btChunkSize_eq]
    omega
  · rw [zeroLine, Vector.toList_replicate] at hch
    rw [List.eq_of_mem_replicate hch]
    exact Or.inl ⟨by decide, by decide⟩

/-- The first chunk of the file. -/
theorem seeder_loads_iff_first : ∃ own,
    parseChunkfile (Vector.replicate hexHashSize 0) (lineText (zeroLine 0) ++ [10]) = .ok own ∧
      Advertised (peerSetup ⟨[], 1, 4, own, some longFile.bytes⟩ (fun _ => 0) fun _ => zeroPacket)
        longFile (zeroLine 0) := by
  obtain ⟨own, hown, hiff⟩ := seeder_loads_iff longFile [zeroLine 0]
    (fun line hline => List.mem_singleton.1 hline ▸ advertisable_zeroLine (by decide))
    (lineText (zeroLine 0) ++ [10]) (Or.inl (List.flatMap_singleton ..).symm)
    (Vector.replicate hexHashSize 0) [] 1 4 (fun _ => 0) fun _ => zeroPacket
  refine ⟨own, hown, hiff.2 (fun line hline => ⟨line, hline, rfl, ?_⟩) _
    (List.mem_singleton_self _)⟩
  rw [List.mem_singleton.1 hline]
  rfl

/-- The last chunk of the file: the seeder has its hash, and the data of the first one. -/
theorem seeder_loads_wrong : Advertisable longFile (zeroLine 256) ∧ ∃ own,
    parseChunkfile (Vector.replicate hexHashSize 0) (lineText (zeroLine 256) ++ [10]) = .ok own ∧
      ¬ Advertised (peerSetup ⟨[], 1, 4, own, some longFile.bytes⟩ (fun _ => 0) fun _ => zeroPacket)
        longFile (zeroLine 256) := by
  have hline : ∀ line ∈ [zeroLine 256], Advertisable longFile line :=
    fun line hline => List.mem_singleton.1 hline ▸ advertisable_zeroLine (Nat.le_refl _)
  refine ⟨advertisable_zeroLine (Nat.le_refl _), _,
    parseChunkfile_eq hline (Or.inl (List.flatMap_singleton ..).symm) _, ?_⟩
  rw [advertised_iff hline]
  rintro ⟨line', hline', -, hsame⟩
  rw [List.mem_singleton.1 hline'] at hsame
  -- the two chunks differ at their first byte
  have hfirst : fileChunk longFile.bytes 0 = List.replicate btChunkSize 0 := by
    rw [fileChunk, Nat.zero_mul, List.drop_zero, longFile, List.take_append_of_le_length,
      List.take_replicate]
    · rfl
    · rw [List.length_replicate, btChunkSize_eq]
      decide
  have hlast : fileChunk longFile.bytes 256 = List.replicate btChunkSize 1 := by
    rw [fileChunk, longFile, List.drop_append_of_le_length, List.drop_replicate, Nat.sub_self,
      List.replicate_zero, List.nil_append, List.take_replicate, Nat.min_self]
    rw [List.length_replicate]
  have heq : List.replicate btChunkSize (0 : UInt8) = List.replicate btChunkSize 1 :=
    hfirst.symm.trans (Eq.trans hsame hlast)
  have hbyte := congrArg (fun l => l[0]?) heq
  simp only [List.getElem?_replicate, btChunkSize_pos, if_true, Option.some.injEq] at hbyte
  exact absurd hbyte (by decide)

end P2P
