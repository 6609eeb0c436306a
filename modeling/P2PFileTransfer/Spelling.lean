/-
**The two forms of a hash** (`hash.c`, `hex2binary`, `create_wanted_missing_list`).

A chunk is identified by 20 bytes everywhere but in `create_wanted_missing_list`, which looks for
the 40 characters of a line among those of the owned chunks.  `hex2binary` takes letters of either
case, so a hash has as many texts as there are ways to write its letters, and the comparison of the
texts tells these apart.  A chunk that is owned under one of them is then requested again under
another one.

Main definitions:

* `P2P.SameDigits` — two texts that differ in the case of letters at most;
* `P2P.PutsMissing` — which lines of a chunk file should be put in the missing list.

Main results:

* `P2P.upperHex_hex2binary` — `hex2binary` is undone but for the case of letters;
* `P2P.binHashOf_eq_iff` — **when two texts have the same binary hash**;
* `P2P.hexHashes_missing` — which lines are put in the missing list;
* `P2P.hash_identity_iff` — **when the two forms identify the same chunks**.
-/

import P2PFileTransfer.HasChunks
import P2PFileTransfer.Missing

set_option relaxedAutoImplicit false
set_option autoImplicit false

namespace P2P

/-! ### Digits -/

instance (ch : UInt8) : Decidable (IsHexDigit ch) := by
  unfold IsHexDigit
  infer_instance

/-- The digit of a value below 16, with a capital letter. -/
def upperDigit (d : UInt8) : UInt8 := if d < 10 then d + 48 else d + 55

/-- Checking every byte. -/
theorem forall_byte {P : UInt8 → Prop} (h : ∀ n < 256, P (UInt8.ofNat n)) (ch : UInt8) : P ch := by
  have hch := h ch.toNat ch.toNat_lt
  rwa [UInt8.ofNat_toNat] at hch

theorem hexDigit_toupper (ch : UInt8) : hexDigit (toupper ch) = hexDigit ch :=
  forall_byte (P := fun ch => hexDigit (toupper ch) = hexDigit ch) (by decide +kernel) ch

/-- **The value of a digit** is below 16, and gives the digit back but for its case. -/
theorem upperDigit_hexDigit {ch : UInt8} (h : IsHexDigit ch) :
    hexDigit ch < 16 ∧ upperDigit (hexDigit ch) = toupper ch :=
  forall_byte (P := fun ch => IsHexDigit ch →
    hexDigit ch < 16 ∧ upperDigit (hexDigit ch) = toupper ch) (by decide +kernel) ch h

/-- The two halves of a byte. -/
theorem halves {hi lo : UInt8} (hhi : hi < 16) (hlo : lo < 16) :
    (hi <<< 4 ||| lo) >>> 4 = hi ∧ (hi <<< 4 ||| lo) &&& 15 = lo := by
  have hall : ∀ a < 16, ∀ b < 16, (UInt8.ofNat a <<< 4 ||| UInt8.ofNat b) >>> 4 = UInt8.ofNat a ∧
      (UInt8.ofNat a <<< 4 ||| UInt8.ofNat b) &&& 15 = UInt8.ofNat b := by decide +kernel
  have hab := hall hi.toNat (UInt8.lt_iff_toNat_lt.1 hhi) lo.toNat (UInt8.lt_iff_toNat_lt.1 hlo)
  rwa [UInt8.ofNat_toNat, UInt8.ofNat_toNat] at hab

/-! ### Texts -/

/-- The text of a binary hash, with capital letters. -/
def upperHex (bytes : List UInt8) : List UInt8 :=
  bytes.flatMap fun b : UInt8 => [upperDigit (b >>> 4), upperDigit (b &&& 15)]

/-- **`hex2binary` is undone**, but for the case of letters. -/
theorem upperHex_hex2binary : ∀ hex : List UInt8, hex.length % 2 = 0 → (∀ ch ∈ hex, IsHexDigit ch) →
    upperHex (hex2binary hex) = hex.map toupper
  | [], _, _ => rfl
  | [_], hlen, _ => absurd hlen (by simp)
  | hi :: lo :: rest, hlen, hhex => by
      obtain ⟨hhi, hup₁⟩ := upperDigit_hexDigit (hhex hi (List.mem_cons_self ..))
      obtain ⟨hlo, hup₂⟩ :=
        upperDigit_hexDigit (hhex lo (List.mem_cons_of_mem _ (List.mem_cons_self ..)))
      obtain ⟨hhigh, hlow⟩ := halves hhi hlo
      have hrest := upperHex_hex2binary rest
        (by rw [List.length_cons, List.length_cons] at hlen; omega) fun ch hch =>
        hhex ch (List.mem_cons_of_mem _ (List.mem_cons_of_mem _ hch))
      rw [upperHex] at hrest
      rw [hex2binary, upperHex, List.flatMap_cons, hrest, hhigh, hlow, hup₁, hup₂]
      rfl

/-- The case of letters does not matter to `hex2binary`. -/
theorem hex2binary_map_toupper : ∀ hex : List UInt8, hex2binary (hex.map toupper) = hex2binary hex
  | [] => rfl
  | [_] => rfl
  | hi :: lo :: rest => by
      rw [List.map_cons, List.map_cons, hex2binary, hex2binary, hexDigit_toupper, hexDigit_toupper,
        hex2binary_map_toupper rest]

/-- The two texts differ in the case of letters at most. -/
def SameDigits (a b : HexHash) : Prop := a.toList.map toupper = b.toList.map toupper

instance (a b : HexHash) : Decidable (SameDigits a b) := inferInstanceAs (Decidable (_ = _))

/-- Forty hexadecimal digits. -/
def HexHash.IsHex (a : HexHash) : Prop := ∀ ch ∈ a.toList, IsHexDigit ch

/-- **When two texts have the same binary hash.** -/
theorem binHashOf_eq_iff {a b : HexHash} (ha : HexHash.IsHex a) (hb : HexHash.IsHex b) :
    binHashOf a = binHashOf b ↔ SameDigits a b := by
  have hbytes : binHashOf a = binHashOf b ↔ hex2binary a.toList = hex2binary b.toList := by
    rw [← Vector.toList_inj]
    rfl
  have heven : ∀ a : HexHash, a.toList.length % 2 = 0 := fun a => by
    rw [Vector.length_toList]
    rfl
  rw [hbytes, SameDigits]
  constructor
  · intro h
    rw [← upperHex_hex2binary _ (heven a) ha, h, upperHex_hex2binary _ (heven b) hb]
  · intro h
    rw [← hex2binary_map_toupper, h, hex2binary_map_toupper]

/-! ### Which lines are put in the missing list -/

/-- The text of the hash of the chunk at `q`. -/
def State.hexHash (s : State) (q : ℕ) : HexHash := (s.chunks.cell q).hexHash

/-- Some owned chunk has the hash with exactly this text. -/
def State.OwnsText (s : State) (hash : HexHash) : Prop := ∃ q ∈ s.haveList, s.hexHash q = hash

instance (s : State) (hash : HexHash) : Decidable (s.OwnsText hash) :=
  inferInstanceAs (Decidable (∃ q ∈ s.haveList, _))

/-- The chunks of the lists exist. -/
structure Placed (s : State) : Prop where
  missing : ∀ q ∈ s.missing, q < s.chunks.next
  owned : ∀ q ∈ s.haveList, q < s.chunks.next

theorem Intact.placed {shahash : List UInt8 → BinHash} {own : ℕ} {start : ℕ → Chunk}
    {kept : List ℕ} {s : State} (h : Intact shahash own start kept s) : Placed s :=
  ⟨fun q hq => (h.missing q hq).2, fun _ hq => h.lt_of_owned hq⟩

section WantLine

variable {s : State}

/-- Looking for the text of a line. -/
theorem find_text_eq_none_iff {hash : HexHash} :
    nodeFind (fun q => compareChunkByHexHash (s.chunks.cell q) hash) s.haveList = none ↔
      ¬ s.OwnsText hash := by
  rw [nodeFind_eq_none_iff]
  simp only [State.OwnsText, not_exists, not_and, Bool.eq_false_iff, ne_eq,
    compareChunkByHexHash_iff]
  rfl

theorem Placed.wantLine (h : Placed s) (line : UInt32 × HexHash) :
    Placed (wantLine s line) ∧ (P2P.wantLine s line).haveList = s.haveList ∧
      (∀ q < s.chunks.next, (P2P.wantLine s line).hexHash q = s.hexHash q) ∧
      (P2P.wantLine s line).missing.map (P2P.wantLine s line).hexHash =
        (if s.OwnsText line.2 then [] else [line.2]) ++ s.missing.map s.hexHash := by
  rw [P2P.wantLine]
  cases hfind : nodeFind (fun q => compareChunkByHexHash (s.chunks.cell q) line.2) s.haveList with
  | none =>
      have hcell : ∀ q < s.chunks.next, ∀ c, ((s.chunks.alloc c).cell q).hexHash = s.hexHash q := by
        intro q hq c
        rw [Heap.cell_alloc_of_lt _ _ hq]
        rfl
      rw [if_neg (find_text_eq_none_iff.1 hfind)]
      refine ⟨⟨fun q hq => ?_, fun q hq => Nat.lt_succ_of_lt (h.owned q hq)⟩, rfl,
        fun q hq => hcell q hq _, ?_⟩
      · rcases List.mem_cons.1 hq with rfl | hq
        · exact Nat.lt_succ_self _
        · exact Nat.lt_succ_of_lt (h.missing q hq)
      · rw [List.map_cons, List.singleton_append]
        refine congrArg₂ List.cons ?_ (List.map_congr_left fun q hq => hcell q (h.missing q hq) _)
        show ((s.chunks.alloc _).cell s.chunks.next).hexHash = line.2
        rw [Heap.cell_alloc_self]
        rfl
  | some node =>
      have hown : s.OwnsText line.2 := by
        by_contra hnot
        rw [find_text_eq_none_iff.2 hnot] at hfind
        cases hfind
      have hcell : ∀ q, ((s.chunks.modify node.2 fun c => { c with id := line.1 }).cell q).hexHash =
          s.hexHash q := Heap.proj_modify s.chunks _ _ Chunk.hexHash fun _ => rfl
      rw [if_pos hown]
      exact ⟨⟨h.missing, h.owned⟩, rfl, fun q _ => hcell q, List.map_congr_left fun q _ => hcell q⟩

/-- **Which lines are put in the missing list**: those whose text no owned chunk has. -/
theorem hexHashes_missing (h : Placed s) (lines : List (UInt32 × HexHash)) :
    (createWantedMissingList s lines).missing.map (createWantedMissingList s lines).hexHash =
      ((lines.map Prod.snd).filter fun hash => ¬ s.OwnsText hash).reverse ++
        s.missing.map s.hexHash := by
  have hcheck : ∀ s : State, (checkAllReceived s).missing.map (checkAllReceived s).hexHash =
      s.missing.map s.hexHash := by
    intro s
    rw [checkAllReceived]
    split_ifs <;> rfl
  rw [createWantedMissingList, hcheck]
  induction lines generalizing s with
  | nil => rfl
  | cons line lines ih =>
      obtain ⟨hplaced, hhave, hhex, hmissing⟩ := h.wantLine line
      have hsame : ∀ hash, (wantLine s line).OwnsText hash ↔ s.OwnsText hash := by
        intro hash
        rw [State.OwnsText, hhave]
        exact exists_congr fun q => and_congr_right fun hq => by rw [hhex q (h.owned q hq)]
      rw [List.foldl_cons, ih hplaced, hmissing, List.map_cons, List.filter_cons]
      simp only [hsame]
      by_cases hown : s.OwnsText line.2
      · simp [hown]
      · simp [hown]

end WantLine

/-- **Which lines should be put in the missing list**: those whose binary hash no owned chunk has,
in their order before those that were there. -/
def PutsMissing (s : State) (lines : List (UInt32 × HexHash)) : Prop :=
  (createWantedMissingList s lines).missing.map (createWantedMissingList s lines).hexHash =
    ((lines.map Prod.snd).filter fun hash => ¬ s.Owns (binHashOf hash)).reverse ++
      s.missing.map s.hexHash

/-- When a stronger test leaves the same part of a list. -/
theorem filter_eq_filter_iff {α : Type*} {p q : α → Bool} {l : List α}
    (h : ∀ a ∈ l, q a = true → p a = true) :
    l.filter p = l.filter q ↔ ∀ a ∈ l, p a = true → q a = true := by
  have hboth : l.filter q = (l.filter p).filter q := by
    rw [List.filter_filter]
    refine List.filter_congr fun a ha => ?_
    cases hq : q a with
    | true => rw [h a ha hq, Bool.and_true]
    | false => rw [Bool.false_and]
  rw [hboth, eq_comm, List.filter_eq_self]
  simp only [List.mem_filter, and_imp]

theorem putsMissing_iff {s : State} (hp : Placed s) (hl : Labelled s)
    (hhave : ∀ q ∈ s.haveList, HexHash.IsHex (s.hexHash q)) {lines : List (UInt32 × HexHash)}
    (hlines : ∀ line ∈ lines, HexHash.IsHex line.2) :
    PutsMissing s lines ↔
      ∀ line ∈ lines, ∀ q ∈ s.haveList, SameDigits (s.hexHash q) line.2 → s.OwnsText line.2 := by
  have howns : ∀ {hash : HexHash}, HexHash.IsHex hash →
      (s.Owns (binHashOf hash) ↔ ∃ q ∈ s.haveList, SameDigits (s.hexHash q) hash) := by
    intro hash hhash
    refine exists_congr fun q => and_congr_right fun hq => ?_
    rw [← binHashOf_eq_iff (hhave q hq) hhash]
    exact (hl q).symm ▸ Iff.rfl
  have htext : ∀ hash, s.OwnsText hash → s.Owns (binHashOf hash) := by
    rintro hash ⟨q, hq, rfl⟩
    exact ⟨q, hq, hl q⟩
  rw [PutsMissing, hexHashes_missing hp, List.append_left_inj, List.reverse_inj,
    filter_eq_filter_iff]
  · simp only [List.forall_mem_map, decide_eq_true_iff, not_imp_not]
    refine forall₂_congr fun line hline => ?_
    rw [howns (hlines line hline)]
    exact ⟨fun h q hq hsame => h ⟨q, hq, hsame⟩, fun h ⟨q, hq, hsame⟩ => h q hq hsame⟩
  · intro hash _ hnot
    rw [decide_eq_true_iff] at hnot ⊢
    exact fun hown => hnot (htext hash hown)

/-- **When the two forms identify the same chunks.**  Two texts of 40 hexadecimal digits compare as
their binary hashes do exactly if they are equal or differ in more than the case of letters.  And in
every state that a peer reaches, where the owned chunks have such texts, a chunk file of such lines
has exactly the lines put in the missing list whose binary hash is not owned, if whenever an owned
chunk has the text of a line but for the case of letters, one has just that text. -/
theorem hash_identity_iff (a b : HexHash) (ha : HexHash.IsHex a) (hb : HexHash.IsHex b) :
    ((compareHexHash a b = true ↔ compareBinHash (binHashOf a) (binHashOf b) = true) ↔
      (SameDigits a b → a = b)) ∧
    ∀ (shahash : List UInt8 → BinHash) (setup : Setup) (clock : ℕ → ℕ) (junk : ℕ → Packet)
      (es : List Event) (s : State),
      Machine.run (step shahash) (peerSetup setup clock junk) es = .ok s →
      (∀ q ∈ s.haveList, HexHash.IsHex (s.hexHash q)) →
      ∀ lines : List (UInt32 × HexHash), (∀ line ∈ lines, HexHash.IsHex line.2) →
        (PutsMissing s lines ↔ ∀ line ∈ lines, ∀ q ∈ s.haveList,
          SameDigits (s.hexHash q) line.2 → s.OwnsText line.2) := by
  refine ⟨?_, fun shahash setup clock junk es s hrun hhave lines hlines => ?_⟩
  · rw [compareHexHash_iff, compareBinHash_iff, binHashOf_eq_iff ha hb]
    refine ⟨fun h => h.2, fun h => ⟨?_, h⟩⟩
    rintro rfl
    rfl
  · have hi := Machine.run_invariant (fun _ _ _ h he => Intact.step h he)
      (Intact.setup shahash setup clock junk) hrun
    have hl := Machine.run_invariant (fun _ _ _ h he => Labelled.step h he)
      (labelled_peerSetup setup clock junk) hrun
    exact putsMissing_iff hi.placed hl hhave hlines

theorem isHex_replicate {ch : UInt8} (h : IsHexDigit ch) :
    HexHash.IsHex (Vector.replicate hexHashSize ch) := by
  intro ch' hch'
  rw [Vector.toList_replicate] at hch'
  rw [List.eq_of_mem_replicate hch']
  exact h

/-- A peer that owns the hash of forty zeros requests that of forty letters. -/
theorem hash_identity_iff_letters :
    (compareHexHash (Vector.replicate hexHashSize 48) (Vector.replicate hexHashSize 97) = true ↔
      compareBinHash (binHashOf (Vector.replicate hexHashSize 48))
        (binHashOf (Vector.replicate hexHashSize 97)) = true) ∧
    PutsMissing (peerSetup lender (fun _ => 0) fun _ => zeroPacket)
      [(1, Vector.replicate hexHashSize 97)] := by
  have hzeros : HexHash.IsHex (Vector.replicate hexHashSize 48) := isHex_replicate (by decide)
  have hletters : HexHash.IsHex (Vector.replicate hexHashSize 97) := isHex_replicate (by decide)
  obtain ⟨htexts, hlists⟩ := hash_identity_iff _ _ hzeros hletters
  refine ⟨htexts.2 fun hsame => absurd hsame (by decide), ?_⟩
  refine (hlists (fun _ => Vector.replicate binHashSize 0) lender (fun _ => 0) (fun _ => zeroPacket)
    [] _ rfl (fun q hq => ?_) _ fun line hline => ?_).2 fun line hline q hq hsame => ?_
  · rw [List.mem_singleton.1 hq]
    exact hzeros
  · rw [List.mem_singleton.1 hline]
    exact hletters
  · rw [List.mem_singleton.1 hline, List.mem_singleton.1 hq] at hsame
    exact absurd hsame (by decide)

/-- Forty small letters and forty capital ones: the texts differ, the binary hashes do not. -/
theorem hash_identity_wrong :
    ¬ ∀ a b : HexHash, HexHash.IsHex a → HexHash.IsHex b →
      (compareHexHash a b = true ↔ compareBinHash (binHashOf a) (binHashOf b) = true) := by
  intro h
  have hiff := h (Vector.replicate hexHashSize 97) (Vector.replicate hexHashSize 65)
    (isHex_replicate (by decide)) (isHex_replicate (by decide))
  exact absurd (hiff.2 (by decide)) (by decide)

end P2P
