/-
**The bitrates of a manifest** (`bitrate.c`, `extract_bitrates_from_response`).

The manifest names each bitrate in an attribute `bitrate="N"`.  The source copies the text, takes
the first `bitrate=`, reads the number behind it and overwrites its first letter, so that the next
search finds the next one.  It takes the number up to the first quote from `bitrate=` on.  This is
the quote in front of the number, so that what it reads is empty and the bitrate is 0.  The store
into the array comes before the check of the count.  And the copy has no zero behind it: the search
goes on in the memory that follows.

A field that has no quote behind it, or that is too long for the block of 128 bytes it is copied to,
is a fault; but nothing stops the program there, which stores some value and takes the next field.
So the loop of the model goes on behind such a field too, and the fault is in its result.

Main definitions:

* `P2P.extractBitratesFromResponse` — the function of the source, and what it stores;
* `P2P.fields`, `P2P.storeFields` — the fields of a text, and the same loop for a list of them;
* `P2P.attributeNumbers` — the numbers in the attributes of a text;
* `P2P.Extracts`, `P2P.StaysInArray` — what should be stored, and where.

Main results:

* `P2P.extractLoop_eq` — **the loop stores the fields of the text** one after the other;
* `P2P.extracts_iff`, `P2P.staysInArray_iff` — when the numbers are read, and when no store is
  behind the array;
* `P2P.extraction_iff` — both.
-/

import P2PFileTransfer.Rewriting

set_option relaxedAutoImplicit false
set_option autoImplicit false

namespace P2P

/-! ### The function -/

/-- `"bitrate="`. -/
def bitrateWord : List UInt8 := [98, 105, 116, 114, 97, 116, 101, 61]

/-- `"\""`. -/
def quote : List UInt8 := [34]

theorem bitrateWord_ne_nil : bitrateWord ≠ [] := List.cons_ne_nil _ _

theorem quote_ne_nil : quote ≠ [] := List.cons_ne_nil _ _

/-- The store into `bitrates`, and the new count. -/
def Stream.push (s : Stream) (value : ℤ) (h : s.bitratesCount < maxBitratesNum) : Stream where
  bitrates := s.bitrates.set s.bitratesCount value
  bitratesCount := s.bitratesCount + 1
  bitratesCount_le := h
  throughput := s.throughput

/-- The number behind a `"bitrate="`: its field is `strlen("bitrate=\"")` characters behind the
place, and ends at the next quote from the place on. -/
def fieldNumber (mem : List UInt8) (loc : ℕ) : Except Fault ℤ := do
  match ← strstr (mem.drop loc) quote with
  -- the end is a null pointer, and no place of the block
  | none => .error .outOfBounds
  | some k =>
      let data ← extractString mem (loc + (bitrateWord ++ quote).length : ℕ) (loc + k : ℕ)
      return atoi data

/-- What was stored, at which index, and how the function ends. -/
structure Extraction where
  /-- The stores into `bitrates`: the index and the number, or the fault of its field. -/
  stores : List (ℕ × Except Fault ℤ)
  /-- The stream, or a fault. -/
  result : Except Fault Stream

/-- The store of a number, with the ones that come after it. -/
def Extraction.cons (index : ℕ) (number : Except Fault ℤ) (more : Extraction) : Extraction where
  stores := (index, number) :: more.stores
  result := do
    let _ ← number
    more.result

/-- The loop of `extract_bitrates_from_response`.  The store behind the array is a fault, so that
the assertion after the others holds.  A field that is a fault does not end the loop, and the number
that is stored then (0 here) is of no importance. -/
def extractLoop (mem : List UInt8) (s : Stream) : Extraction :=
  match strstr mem bitrateWord with
  | .error e => ⟨[], .error e⟩
  | .ok none => ⟨[], .ok s⟩
  | .ok (some loc) =>
      if h : s.bitratesCount < maxBitratesNum then
        (extractLoop (mem.set loc 120) (s.push ((fieldNumber mem loc).toOption.getD 0) h)).cons
          s.bitratesCount (fieldNumber mem loc)
      else
        ⟨[(s.bitratesCount, fieldNumber mem loc)], .error .outOfBounds⟩
termination_by maxBitratesNum - s.bitratesCount
decreasing_by
  show maxBitratesNum - (s.bitratesCount + 1) < maxBitratesNum - s.bitratesCount
  omega

/-- `extract_bitrates_from_response`; `behind` is the memory behind the copy. -/
def extractBitratesFromResponse (s : Stream) (b : Buffer) (behind : List UInt8) : Extraction :=
  match memcpy (List.replicate b.sendLen.toNat 0) 0 b.sendBuf 0 b.sendLen with
  | .error e => ⟨[], .error e⟩
  | .ok bufCopy =>
      let run := extractLoop (bufCopy ++ behind)
        { s with bitratesCount := 0, bitratesCount_le := Nat.zero_le _ }
      ⟨run.stores, do
        let s ← run.result
        if 0 < s.bitratesCount then return s else .error .assertion⟩

/-! ### The fields of a text -/

/-- How long the field is, with the next quote `k` characters behind `"bitrate="`. -/
def fieldLen (k : ℕ) : ℕ := (max (i32 (k - 1)) 0).toNat

/-- The field behind a `"bitrate="`, if there is room for it: what the function takes of it. -/
def field (rest : List UInt8) : Option (List UInt8) :=
  match Search.find quote rest with
  | none => none
  | some k => if fieldLen k < 128 then some ((rest.drop 1).take (fieldLen k)) else none

/-- The fields of the string that a block begins with. -/
def fields (mem : List UInt8) : List (Option (List UInt8)) :=
  (Search.rests bitrateWord (Scan.cString mem)).map field

/-- The number in a field, if there was room for it. -/
def number : Option (List UInt8) → Except Fault ℤ
  | none => .error .outOfBounds
  | some text => .ok (atoi text)

/-- The stores of a list of fields; `ends` says whether the text ends in the block. -/
def storeFields (ends : Bool) : List (Option (List UInt8)) → Stream → Extraction
  | [], s => ⟨[], if ends then .ok s else .error .outOfBounds⟩
  | f :: fs, s =>
      if h : s.bitratesCount < maxBitratesNum then
        (storeFields ends fs (s.push ((number f).toOption.getD 0) h)).cons s.bitratesCount
          (number f)
      else
        ⟨[(s.bitratesCount, number f)], .error .outOfBounds⟩

/-! ### One field -/

/-- The block in the course of the loop: `done` is the text up to the last place that was
overwritten, `text` the rest of the string, and `more` the zero and what is behind it. -/
structure Rescan (mem done text more : List UInt8) : Prop where
  /-- The block is made of the three. -/
  block : mem = done ++ (text ++ more)
  /-- The string ends where `more` begins. -/
  noZero : 0 ∉ done ++ text
  /-- And not before. -/
  ends : Scan.cString more = []
  /-- Nothing is found in what is done. -/
  skips : Search.Skips bitrateWord done

variable {mem done text more : List UInt8}

theorem Rescan.cString_eq (h : Rescan mem done text more) : Scan.cString mem = done ++ text := by
  rw [h.block, ← List.append_assoc, Scan.cString_append_left h.noZero, h.ends, List.append_nil]

theorem Rescan.zero_mem_iff (h : Rescan mem done text more) : 0 ∈ mem ↔ 0 ∈ more := by
  rw [h.block, ← List.append_assoc, List.mem_append]
  exact or_iff_right h.noZero

theorem Rescan.find_eq (h : Rescan mem done text more) :
    Search.find bitrateWord (Scan.cString mem) =
      (Search.find bitrateWord text).map (done.length + ·) := by
  rw [h.cString_eq, h.skips]

theorem strstr_none (h : Rescan mem done text more) (hnone : Search.find bitrateWord text = none) :
    strstr mem bitrateWord = if 0 ∈ more then .ok none else .error .outOfBounds := by
  have hfind := h.find_eq
  rw [hnone] at hfind
  rw [strstr, hfind]
  simp only [Option.map_none, h.zero_mem_iff]

theorem strstr_place (h : Rescan mem done text more) {i : ℕ}
    (hsome : Search.find bitrateWord text = some i) :
    strstr mem bitrateWord = .ok (some (done.length + i)) :=
  strstr_some (h.find_eq.trans (congrArg (Option.map _) hsome))

theorem fieldLen_le (k : ℕ) : fieldLen k ≤ k - 1 := by
  rw [fieldLen]
  cases k with
  | zero =>
      rw [i32_of_range (by omega) (by omega)]
      omega
  | succ k =>
      have hle := i32_le (x := (k + 1 : ℕ) - 1) (by omega)
      omega

/-- What is read of the field behind the place `loc`, with the quote `k` characters behind it. -/
theorem atoi_extractString {rest : List UInt8} {loc k : ℕ}
    (hdrop : mem.drop loc = bitrateWord ++ (rest ++ more)) (hzero : 0 ∉ rest)
    (hk : Search.find quote rest = some k) :
    atoi <$> extractString mem (loc + (bitrateWord ++ quote).length : ℕ)
        (loc + (bitrateWord.length + k) : ℕ) = number (field rest) := by
  have hlens : (bitrateWord ++ quote).length = bitrateWord.length + 1 := rfl
  have hlen : max (i32 ((loc + (bitrateWord.length + k) : ℕ) -
      (loc + (bitrateWord ++ quote).length : ℕ))) 0 = fieldLen k := by
    have hdiff : ((loc + (bitrateWord.length + k) : ℕ) : ℤ) -
        (loc + (bitrateWord ++ quote).length : ℕ) = k - 1 := by omega
    rw [hdiff, fieldLen]
    omega
  rw [field, hk]
  dsimp only
  by_cases hroom : fieldLen k < 128
  · -- the field ends within the text that has the quote
    have hin : k + 1 ≤ rest.length := (Search.find_eq_some_iff.1 hk).1.le quote_ne_nil
    have hfit := fieldLen_le k
    have hstart : mem.drop (loc + (bitrateWord ++ quote).length) = rest.drop 1 ++ more := by
      rw [← List.drop_drop, hdrop, hlens, List.drop_length_add_append,
        List.drop_append_of_le_length (by omega)]
    have hmem : loc + (bitrateWord ++ quote).length + fieldLen k ≤ mem.length := by
      have hstartLen := congrArg List.length hdrop
      simp only [List.length_drop, List.length_append] at hstartLen hlens ⊢
      omega
    have hblock := extractString_eq hlen hroom hmem
    rw [hstart, List.take_append_of_le_length (by rw [List.length_drop]; omega)] at hblock
    have hfield : 0 ∉ (rest.drop 1).take (fieldLen k) := fun h =>
      hzero (List.mem_of_mem_drop (List.mem_of_mem_take h))
    rw [hblock, if_pos hroom]
    exact congrArg Except.ok (atoi_field hfield _)
  · rw [extractString_of_le hlen (Nat.le_of_not_lt hroom), if_neg hroom]
    rfl

/-- **The field behind the next place.** -/
theorem fieldNumber_eq (h : Rescan mem done text more) {i : ℕ}
    (hsome : Search.find bitrateWord text = some i) :
    fieldNumber mem (done.length + i) =
      number (field (text.drop (i + bitrateWord.length))) := by
  obtain ⟨pre, rest, rfl, rfl, -⟩ := Search.find_split hsome bitrateWord_ne_nil
  obtain ⟨hblock, hzero, hends, -⟩ := h
  have hdrop : mem.drop (done.length + pre.length) = bitrateWord ++ (rest ++ more) := by
    rw [hblock]
    simp only [List.append_assoc]
    rw [List.drop_length_add_append, List.drop_left]
  have hrest : (pre ++ bitrateWord ++ rest).drop (pre.length + bitrateWord.length) = rest := by
    rw [List.append_assoc, List.drop_length_add_append, List.drop_left]
  -- the text from the place on is a string
  have hline : 0 ∉ bitrateWord ++ rest := fun h => hzero (by
    rw [List.append_assoc]
    exact List.mem_append_right _ (List.mem_append_right _ h))
  have hstring : Scan.cString (mem.drop (done.length + pre.length)) = bitrateWord ++ rest := by
    rw [hdrop, ← List.append_assoc, Scan.cString_append_left hline, hends, List.append_nil]
  have hquote : Search.find quote (bitrateWord ++ rest) =
      (Search.find quote rest).map (bitrateWord.length + ·) := Search.find_skip_head (by decide)
  rw [fieldNumber, hrest]
  cases hk : Search.find quote rest with
  | none =>
      rw [hk, Option.map_none] at hquote
      rw [strstr, hstring, hquote, field, hk]
      dsimp only
      split <;> rfl
  | some k =>
      rw [hk, Option.map_some] at hquote
      rw [strstr_some (by rw [hstring, hquote]), ok_bind]
      exact atoi_extractString hdrop (fun h => hline (List.mem_append_right _ h)) hk

/-- The next round. -/
theorem Rescan.erase (h : Rescan mem done text more) {i : ℕ}
    (hsome : Search.find bitrateWord text = some i) :
    ∃ done', Rescan (mem.set (done.length + i) 120) done' (text.drop (i + bitrateWord.length))
      more := by
  obtain ⟨pre, rest, rfl, rfl, hpre⟩ := Search.find_split hsome bitrateWord_ne_nil
  obtain ⟨rfl, hzero, hends, hskips⟩ := h
  have hrest : (pre ++ bitrateWord ++ rest).drop (pre.length + bitrateWord.length) = rest := by
    rw [List.append_assoc, List.drop_length_add_append, List.drop_left]
  rw [hrest]
  refine ⟨done ++ (pre ++ 120 :: bitrateWord.tail), ?_, ?_, hends,
    hskips.erase hpre (by decide) (by decide)⟩
  · simp only [List.append_assoc]
    rw [List.set_append_right _ _ (Nat.le_add_right _ _), Nat.add_sub_cancel_left,
      List.set_append_right _ _ (Nat.le_refl _), Nat.sub_self]
    rfl
  · intro h
    simp only [List.mem_append, List.mem_cons, not_or] at h hzero
    rcases h with (h | h | h | h) | h
    · exact hzero.1 h
    · exact hzero.2.1.1 h
    · exact absurd h (by decide)
    · exact absurd h (by decide)
    · exact hzero.2.2 h

/-- **The loop stores the fields of the text** one after the other. -/
theorem extractLoop_eq {mem done text more : List UInt8} (h : Rescan mem done text more)
    (s : Stream) : extractLoop mem s =
      storeFields (decide (0 ∈ more)) ((Search.rests bitrateWord text).map field) s := by
  rw [extractLoop]
  cases hfind : Search.find bitrateWord text with
  | none =>
      rw [strstr_none h hfind, Search.rests_of_none bitrateWord_ne_nil hfind, List.map_nil,
        storeFields]
      by_cases hzero : 0 ∈ more
      · rw [if_pos hzero, if_pos (decide_eq_true hzero)]
      · rw [if_neg hzero, if_neg (by rw [decide_eq_false hzero]; decide)]
  | some i =>
      rw [strstr_place h hfind, bitrateWord, Search.rests_of_some (by decide) hfind,
        List.map_cons, ← bitrateWord]
      dsimp only [storeFields]
      rw [fieldNumber_eq h hfind]
      generalize field (text.drop (i + bitrateWord.length)) = f
      by_cases hroom : s.bitratesCount < maxBitratesNum
      · obtain ⟨done', hnext⟩ := h.erase hfind
        have hrest := extractLoop_eq hnext (s.push ((number f).toOption.getD 0) hroom)
        rw [dif_pos hroom, dif_pos hroom, hrest]
      · rw [dif_neg hroom, dif_neg hroom]
termination_by maxBitratesNum - s.bitratesCount
decreasing_by
  show maxBitratesNum - (s.bitratesCount + 1) < maxBitratesNum - s.bitratesCount
  omega

/-! ### All stores -/

variable {ends : Bool} {fs : List (Option (List UInt8))} {s s' : Stream}

theorem available_push (s : Stream) (value : ℤ) (h : s.bitratesCount < maxBitratesNum) :
    available (s.push value h) = available s ++ [value] := by
  have hlen : s.bitratesCount < s.bitrates.toList.length := by rwa [Vector.length_toList]
  show ((s.bitrates.set s.bitratesCount value).toList).take (s.bitratesCount + 1) = _
  rw [Vector.toList_set, List.take_add_one, List.getElem?_set_self hlen,
    List.take_set_of_le (Nat.le_refl _)]
  rfl

/-- **What the stream holds in the end**, if no store failed: what every field gives. -/
theorem storeFields_ok (h : (storeFields ends fs s).result = .ok s') :
    ends = true ∧ ∃ texts : List (List UInt8), fs = texts.map some ∧
      available s' = available s ++ texts.map atoi ∧
      s'.bitratesCount = s.bitratesCount + texts.length := by
  induction fs generalizing s with
  | nil =>
      rw [storeFields] at h
      split at h
      · rename_i hends
        rw [← Except.ok.inj h]
        exact ⟨hends, [], rfl, (List.append_nil _).symm, rfl⟩
      · exact nomatch h
  | cons f fs ih =>
      rw [storeFields] at h
      split at h
      · rename_i hroom
        obtain ⟨value, hvalue, hmore⟩ := bind_eq_ok.1 h
        cases f with
        | none => exact nomatch hvalue
        | some text =>
            obtain ⟨hends, texts, hfields, havail, hcount⟩ := ih hmore
            refine ⟨hends, text :: texts, by rw [hfields]; rfl, ?_, ?_⟩
            · rw [havail, available_push, List.append_assoc]
              rfl
            · rw [hcount, List.length_cons]
              show s.bitratesCount + 1 + texts.length = _
              omega
      · exact nomatch h

/-- As many fields as there is room for. -/
theorem exists_storeFields_ok {texts : List (List UInt8)} (s : Stream)
    (h : s.bitratesCount + texts.length ≤ maxBitratesNum) :
    ∃ s', (storeFields true (texts.map some) s).result = .ok s' := by
  induction texts generalizing s with
  | nil => exact ⟨s, rfl⟩
  | cons text texts ih =>
      rw [List.length_cons] at h
      have hroom : s.bitratesCount < maxBitratesNum := by omega
      obtain ⟨s', hs'⟩ := ih (s.push (atoi text) hroom) (by
        show s.bitratesCount + 1 + texts.length ≤ _
        omega)
      refine ⟨s', ?_⟩
      rw [List.map_cons, storeFields, dif_pos hroom]
      exact hs'

/-- **Which indices are written**: the count grows with every field. -/
theorem storeFields_lt_iff :
    (∀ p ∈ (storeFields ends fs s).stores, p.1 < maxBitratesNum) ↔
      s.bitratesCount + fs.length ≤ maxBitratesNum := by
  induction fs generalizing s with
  | nil => exact iff_of_true (fun _ h => nomatch h) s.bitratesCount_le
  | cons f fs ih =>
      rw [List.length_cons, storeFields]
      split
      · rename_i hroom
        have hrest := ih (s := s.push ((number f).toOption.getD 0) hroom)
        have hcount : (s.push ((number f).toOption.getD 0) hroom).bitratesCount =
            s.bitratesCount + 1 := rfl
        rw [hcount, Nat.add_right_comm] at hrest
        rw [Extraction.cons, List.forall_mem_cons, ← Nat.add_assoc, ← hrest]
        exact and_iff_right hroom
      · rename_i hfull
        refine iff_of_false (fun h => hfull (h _ (List.mem_singleton_self _))) ?_
        omega

/-! ### Attributes -/

/-- The number of an attribute, from what follows its `"bitrate="`: digits between two quotes. -/
def attributeNumber : List UInt8 → Option ℕ
  | 34 :: text =>
      if text.takeWhile Scan.isDigit ≠ [] ∧ (text.dropWhile Scan.isDigit).head? = some 34 then
        some (Scan.digitsValue (text.takeWhile Scan.isDigit))
      else none
  | _ => none

/-- The numbers in the attributes of a text, in order of appearance. -/
def attributeNumbers (text : List UInt8) : List ℕ :=
  (Search.rests bitrateWord text).filterMap attributeNumber

/-- The field of an attribute ends at the quote in front of the number. -/
theorem field_of_attribute {rest : List UInt8} (h : (attributeNumber rest).isSome)
    (u : List UInt8) : field (rest ++ u) = some [] := by
  rw [attributeNumber.eq_def] at h
  split at h
  · rename_i text
    have hfind : Search.find quote (34 :: text ++ u) = some 0 := Search.find_self [34] (text ++ u)
    rw [field, hfind]
    rfl
  · exact nomatch h

/-- If `"bitrate="` is found no more often than there are attributes, then what is found is the
attributes, and every field is empty. -/
theorem fields_of_length_le {text behind : List UInt8} (hzero : 0 ∉ text)
    (h : (fields (text ++ behind)).length ≤ (attributeNumbers text).length) :
    fields (text ++ behind) = (List.replicate (attributeNumbers text).length []).map some := by
  obtain ⟨extra, hextra⟩ := Search.rests_append bitrateWord text (Scan.cString behind)
  rw [fields, Scan.cString_append_left hzero] at h ⊢
  rw [List.length_map] at h
  have hle : (attributeNumbers text).length ≤ (Search.rests bitrateWord text).length :=
    List.length_filterMap_le ..
  rw [hextra, List.length_append, List.length_map] at h
  obtain rfl : extra = [] := List.eq_nil_of_length_eq_zero (by omega)
  have heq : (attributeNumbers text).length = (Search.rests bitrateWord text).length := by
    rw [List.length_nil] at h
    omega
  have hall : ∀ rest ∈ Search.rests bitrateWord text, (attributeNumber rest).isSome :=
    List.filterMap_length_eq_length.1 heq
  rw [hextra, List.append_nil, List.map_map, List.map_replicate, List.eq_replicate_iff,
    List.length_map, heq]
  refine ⟨rfl, fun f hf => ?_⟩
  obtain ⟨rest, hrest, rfl⟩ := List.mem_map.1 hf
  exact field_of_attribute (hall rest hrest) (Scan.cString behind)

/-! ### What should be stored -/

/-- The numbers of at most `MAX_BITRATES_NUM` attributes are the bitrates of the stream. -/
def Extracts (s : Stream) (b : Buffer) (behind response : List UInt8) : Prop :=
  0 ∉ response → 1 ≤ (attributeNumbers response).length →
    (attributeNumbers response).length ≤ maxBitratesNum →
    (∀ n ∈ attributeNumbers response, n < 2 ^ 31) →
    ∃ s', (extractBitratesFromResponse s b behind).result = .ok s' ∧
      available s' = (attributeNumbers response).map Nat.cast ∧
      s'.bitratesCount = (attributeNumbers response).length

/-- No store is behind the array. -/
def StaysInArray (s : Stream) (b : Buffer) (behind : List UInt8) : Prop :=
  ∀ p ∈ (extractBitratesFromResponse s b behind).stores, p.1 < maxBitratesNum

theorem exists_rescan (mem : List UInt8) :
    ∃ more, Rescan mem [] (Scan.cString mem) more ∧ (0 ∈ more ↔ 0 ∈ mem) := by
  by_cases hzero : 0 ∈ mem
  · obtain ⟨hstring, more, hmem⟩ := Scan.exists_cString hzero
    exact ⟨0 :: more, ⟨hmem, hstring, rfl, Search.skips_nil _⟩,
      iff_of_true (List.mem_cons_self ..) hzero⟩
  · have hstring := Scan.cString_of_not_mem hzero
    refine ⟨[], ⟨?_, ?_, rfl, Search.skips_nil _⟩, iff_of_false List.not_mem_nil hzero⟩
    · rw [hstring, List.append_nil, List.nil_append]
    · rwa [hstring]

/-- **The function stores the fields of the response** and of the memory behind it. -/
theorem extractBitratesFromResponse_eq {s : Stream} {b : Buffer} {response : List UInt8}
    (hb : Sends b response) (behind : List UInt8) :
    ∃ s₀ : Stream, s₀.bitratesCount = 0 ∧
      (extractBitratesFromResponse s b behind).stores =
        (storeFields (decide (0 ∈ response ++ behind)) (fields (response ++ behind)) s₀).stores ∧
      ∀ s', (extractBitratesFromResponse s b behind).result = .ok s' ↔
        (storeFields (decide (0 ∈ response ++ behind)) (fields (response ++ behind)) s₀).result =
          .ok s' ∧ 0 < s'.bitratesCount := by
  obtain ⟨⟨tail, hbuf⟩, hlen⟩ := hb
  have hcopy : memcpy (List.replicate b.sendLen.toNat 0) 0 b.sendBuf 0 b.sendLen =
      .ok response := by
    rw [hlen, Int.toNat_natCast]
    refine (memcpy_eq (i := 0) (j := 0) (by rw [List.length_replicate]; omega)
      (by rw [hbuf, List.length_append]; omega)).trans ?_
    rw [hbuf, List.take_zero, List.nil_append, List.drop_zero, List.take_left, Nat.zero_add,
      List.drop_of_length_le (by rw [List.length_replicate]), List.append_nil]
  obtain ⟨more, hrescan, hzero⟩ := exists_rescan (response ++ behind)
  refine ⟨{ s with bitratesCount := 0, bitratesCount_le := Nat.zero_le _ }, rfl, ?_, fun s' => ?_⟩
  · rw [extractBitratesFromResponse, hcopy]
    dsimp only
    rw [extractLoop_eq hrescan, decide_eq_decide.2 hzero, fields]
  · rw [extractBitratesFromResponse, hcopy]
    dsimp only
    rw [extractLoop_eq hrescan, decide_eq_decide.2 hzero, ← fields, bind_eq_ok]
    constructor
    · rintro ⟨s'', hrun, hcheck⟩
      split at hcheck
      · rename_i hpos
        obtain rfl := Except.ok.inj hcheck
        exact ⟨hrun, hpos⟩
      · exact nomatch hcheck
    · rintro ⟨hrun, hpos⟩
      exact ⟨s', hrun, if_pos hpos⟩

/-- **When no store is behind the array**: `"bitrate="` is found at most 32 times. -/
theorem staysInArray_iff {s : Stream} {b : Buffer} {response : List UInt8}
    (hb : Sends b response) (behind : List UInt8) :
    StaysInArray s b behind ↔
      (fields (response ++ behind)).length ≤ maxBitratesNum := by
  obtain ⟨s₀, hcount, hstores, -⟩ := extractBitratesFromResponse_eq (s := s) hb behind
  rw [StaysInArray, hstores, storeFields_lt_iff, hcount, Nat.zero_add]

/-- **When the numbers are read**: the search ends in the memory behind the copy and finds nothing
but the attributes, and the numbers are zero. -/
theorem extracts_iff {s : Stream} {b : Buffer} {response : List UInt8} (hb : Sends b response)
    (behind : List UInt8) :
    Extracts s b behind response ↔
      (0 ∉ response → 1 ≤ (attributeNumbers response).length →
        (attributeNumbers response).length ≤ maxBitratesNum →
        (∀ n ∈ attributeNumbers response, n < 2 ^ 31) →
        0 ∈ behind ∧ (fields (response ++ behind)).length = (attributeNumbers response).length ∧
          ∀ n ∈ attributeNumbers response, n = 0) := by
  obtain ⟨s₀, hcount, -, hresult⟩ := extractBitratesFromResponse_eq (s := s) hb behind
  refine forall_congr' fun hzero => forall_congr' fun hpos => forall_congr' fun hroom =>
    forall_congr' fun _ => ?_
  have havail₀ : available s₀ = [] := by rw [available, hcount, List.take_zero]
  have hatoi : atoi [] = 0 := by decide
  constructor
  · rintro ⟨s', hrun, hnumbers, hlen⟩
    obtain ⟨hends, texts, htexts, havail, hcount'⟩ := storeFields_ok ((hresult s').1 hrun).1
    have htextsLen : texts.length = (attributeNumbers response).length := by omega
    have hfieldsLen : (fields (response ++ behind)).length =
        (attributeNumbers response).length := by
      rw [htexts, List.length_map, htextsLen]
    have hempty := fields_of_length_le hzero (Nat.le_of_eq hfieldsLen)
    rw [htexts] at hempty
    have hreplicate := List.map_injective_iff.2 (Option.some_injective _) hempty
    rw [hreplicate, List.map_replicate, hatoi, havail₀, List.nil_append, hnumbers] at havail
    refine ⟨?_, hfieldsLen, fun n hn => ?_⟩
    · exact (List.mem_append.1 (of_decide_eq_true hends)).resolve_left hzero
    · have hcast := List.eq_of_mem_replicate (havail ▸ List.mem_map_of_mem hn)
      exact Int.natCast_eq_zero.1 hcast
  · rintro ⟨hends, hlen, hnumbers⟩
    have hempty := fields_of_length_le hzero (Nat.le_of_eq hlen)
    have hin : decide (0 ∈ response ++ behind) = true :=
      decide_eq_true (List.mem_append_right _ hends)
    have hcap : s₀.bitratesCount +
        (List.replicate (attributeNumbers response).length ([] : List UInt8)).length ≤
          maxBitratesNum := by
      rw [hcount, List.length_replicate]
      omega
    obtain ⟨s', hs'⟩ := exists_storeFields_ok s₀ hcap
    obtain ⟨-, texts, htexts, havail, hcount'⟩ := storeFields_ok hs'
    obtain rfl := List.map_injective_iff.2 (Option.some_injective _) htexts
    rw [List.length_replicate, hcount, Nat.zero_add] at hcount'
    rw [← hempty, ← hin] at hs'
    refine ⟨s', (hresult s').2 ⟨hs', by omega⟩, ?_, hcount'⟩
    have hzeros : attributeNumbers response = List.replicate (attributeNumbers response).length 0 :=
      List.eq_replicate_of_mem hnumbers
    rw [havail, havail₀, List.nil_append, List.map_replicate, hatoi, hzeros, List.map_replicate,
      List.length_replicate]
    rfl

/-- `bitrate="N"`. -/
def oneAttribute (number : List UInt8) : List UInt8 := bitrateWord ++ quote ++ number ++ quote

/-- **When the bitrates are extracted**, and none is stored behind the array. -/
theorem extraction_iff {s : Stream} {b : Buffer} {response : List UInt8} (hb : Sends b response)
    (behind : List UInt8) :
    Extracts s b behind response ∧ StaysInArray s b behind ↔
      (0 ∉ response → 1 ≤ (attributeNumbers response).length →
        (attributeNumbers response).length ≤ maxBitratesNum →
        (∀ n ∈ attributeNumbers response, n < 2 ^ 31) →
        0 ∈ behind ∧ (fields (response ++ behind)).length = (attributeNumbers response).length ∧
          ∀ n ∈ attributeNumbers response, n = 0) ∧
      (fields (response ++ behind)).length ≤ maxBitratesNum :=
  and_congr (extracts_iff hb behind) (staysInArray_iff hb behind)

/-- The number 0 is read, if the memory behind the copy begins with a zero. -/
theorem extraction_iff_zero :
    Extracts twoBitrates (sending (oneAttribute [48])) [0] (oneAttribute [48]) ∧
      StaysInArray twoBitrates (sending (oneAttribute [48])) [0] :=
  (extraction_iff (sends_sending _) [0]).2
    ⟨fun _ _ _ _ => ⟨by decide, by decide, by decide⟩, by decide⟩

/-- **The number 100 is read as 0**, whatever is behind the copy; and the last of 33 attributes is
stored behind the array. -/
theorem extraction_hundred :
    (∀ behind, ¬ Extracts twoBitrates (sending (oneAttribute [49, 48, 48])) behind
        (oneAttribute [49, 48, 48])) ∧
      ¬ StaysInArray twoBitrates
        (sending (List.replicate 33 (oneAttribute [49])).flatten) [0] := by
  refine ⟨fun behind h => ?_, fun h => ?_⟩
  · have hnumbers : attributeNumbers (oneAttribute [49, 48, 48]) = [100] := by decide
    rw [extracts_iff (sends_sending _), hnumbers] at h
    obtain ⟨-, -, hzero⟩ := h (by decide) (by decide) (by decide) (by decide)
    exact absurd (hzero 100 (List.mem_singleton_self _)) (by decide)
  · rw [staysInArray_iff (sends_sending _)] at h
    exact absurd h (by decide +kernel)

end P2P
