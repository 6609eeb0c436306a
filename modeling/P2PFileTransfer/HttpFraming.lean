/-
**The first message of a buffer** (`parse.c`, `complete_header_received`,
`extract_data_from_header`, `first_message_length`, `complete_body_received`,
`move_data_from_recv_to_send`).

The proxy takes what it received apart into messages.  A message is a header up to the first empty
line, and a body whose length is the number in the field `Content-Length`, if there is one.  Once
the message is complete it is moved to the other block, and the bytes behind it are shifted to the
front.  The number is used as `atoi` gives it, so that the cut is in the header or before the
buffer when the number is negative, and nowhere when the sum with the length of the header does not
fit in an `int`.  Besides, the value of the field is copied to a block of 128 bytes whatever its
length.

Main definitions:

* `P2P.completeHeaderReceived`, `P2P.completeBodyReceived`, `P2P.moveDataFromRecvToSend` — the
  functions of the source;
* `P2P.firstHeader`, `P2P.ContentLength` — the first header of a text, and the value of its field;
* `P2P.Received`, `P2P.Conserves` — a buffer with received bytes, and a move that loses none.

Main results:

* `P2P.eraseCrlf_spec` — what is before the header is all that is erased;
* `P2P.firstMessageLength_of_field`, `P2P.firstMessageLength_of_none` — the length of the first
  message;
* `P2P.framing_conserves_iff` — **when the move conserves the bytes**.
-/

import P2PFileTransfer.HttpBuffer

set_option relaxedAutoImplicit false
set_option autoImplicit false

namespace P2P

/-! ### The functions -/

/-- `"\r\n"`. -/
def crlf : List UInt8 := [13, 10]

/-- `"\r\n\r\n"`. -/
def headerEnd : List UInt8 := [13, 10, 13, 10]

/-- `"Content-Length: "`. -/
def contentLength : List UInt8 :=
  [67, 111, 110, 116, 101, 110, 116, 45, 76, 101, 110, 103, 116, 104, 58, 32]

theorem crlf_ne_nil : crlf ≠ [] := List.cons_ne_nil _ _

theorem headerEnd_ne_nil : headerEnd ≠ [] := List.cons_ne_nil _ _

theorem contentLength_ne_nil : contentLength ≠ [] := List.cons_ne_nil _ _

theorem cr_not_mem_contentLength : 13 ∉ contentLength := by simp [contentLength]

/-- The loop of `complete_header_received`, which erases the CRLF before the header.  The shift
leaves the last two characters of the string where they are. -/
def eraseCrlf (b : Buffer) : Except Fault Buffer := do
  let firstCrlf ← strstr b.recvBuf crlf
  if _h : firstCrlf = some 0 ∧ 2 ≤ b.recvLen then
    let recvBuf ← memcpy b.recvBuf 0 b.recvBuf 2 (b.recvLen - 2)
    eraseCrlf { b with recvBuf := recvBuf, recvLen := b.recvLen - 2 }
  else
    return b
termination_by b.recvLen.toNat
decreasing_by omega

/-- `complete_header_received`. -/
def completeHeaderReceived (b : Buffer) : Except Fault (Bool × Buffer) := do
  let b ← eraseCrlf b
  if b.recvLen < 2 then
    return (false, b)
  else
    let end_ ← strstr b.recvBuf headerEnd
    return (end_.isSome, b)

/-- `extract_data_from_header`. -/
def extractDataFromHeader (mem fieldName dataEnd : List UInt8) :
    Except Fault (Option (List UInt8)) := do
  let fieldNameBegin ← strstr mem fieldName
  let firstHeaderEnd ← strstr mem headerEnd
  match fieldNameBegin, firstHeaderEnd with
  | some i, some e =>
      if e < i then
        return none
      else
        match ← strstr (mem.drop i) dataEnd with
        | some k => some <$> extractString mem (i + fieldName.length : ℕ) (i + k : ℕ)
        -- the end is a null pointer, and no place of the block
        | none => .error .outOfBounds
  | _, _ => return none

/-- `first_body_length`. -/
def firstBodyLength (mem : List UInt8) : Except Fault ℤ := do
  match ← extractDataFromHeader mem contentLength crlf with
  | none => return 0
  | some data => return atoi data

/-- `first_message_length`. -/
def firstMessageLength (mem : List UInt8) : Except Fault ℤ := do
  match ← strstr mem headerEnd with
  -- the callers have seen the end of the header
  | none => .error .outOfBounds
  | some e =>
      let firstHeaderLen := i32 (e + headerEnd.length : ℕ)
      if 0 < firstHeaderLen then
        let bodyLen ← firstBodyLength mem
        return i32 (firstHeaderLen + bodyLen)
      else
        .error .assertion

/-- `complete_body_received`. -/
def completeBodyReceived (b : Buffer) : Except Fault Bool := do
  let completeMessageLen ← firstMessageLength b.recvBuf
  return decide (completeMessageLen ≤ b.recvLen)

/-- `move_data_from_recv_to_send`. -/
def moveDataFromRecvToSend (b : Buffer) : Except Fault Buffer := do
  let messageLen ← firstMessageLength b.recvBuf
  let sendBuf ← calloc messageLen
  let sendBuf ← memcpy sendBuf 0 b.recvBuf 0 messageLen
  let recvLen := i32 (b.recvLen - messageLen)
  if recvLen < 0 then
    .error .assertion
  else
    let recvBuf ← memcpy b.recvBuf 0 b.recvBuf messageLen recvLen
    return { recvBuf := recvBuf, sendBuf := sendBuf, recvLen := recvLen, sendLen := messageLen }

/-! ### The first header -/

/-- The header up to the first empty line. -/
def firstHeader (text : List UInt8) : List UInt8 :=
  match Search.find headerEnd text with
  | some e => text.take (e + headerEnd.length)
  | none => text

/-- The value of the first `Content-Length` field of a header. -/
def ContentLength (header value : List UInt8) : Prop :=
  ∃ pre post, header = pre ++ contentLength ++ value ++ crlf ++ post ∧
    Search.find contentLength header = some pre.length ∧ Search.find crlf value = none

theorem firstHeader_split {text : List UInt8} {e : ℕ} (h : Search.find headerEnd text = some e) :
    ∃ pre rest, firstHeader text = pre ++ headerEnd ∧ text = firstHeader text ++ rest ∧
      pre.length = e := by
  obtain ⟨pre, rest, rfl, rfl, -⟩ := Search.find_split h headerEnd_ne_nil
  have hheader : firstHeader (pre ++ headerEnd ++ rest) = pre ++ headerEnd := by
    rw [firstHeader, h]
    exact List.take_left' (by rw [List.length_append])
  exact ⟨pre, rest, hheader, by rw [hheader], rfl⟩

theorem firstHeader_le {text : List UInt8} {e : ℕ} (h : Search.find headerEnd text = some e) :
    (firstHeader text).length ≤ text.length := by
  obtain ⟨-, rest, -, hsplit, -⟩ := firstHeader_split h
  have hlen := congrArg List.length hsplit
  rw [List.length_append] at hlen
  omega

/-- The first CRLF behind a text without one. -/
theorem find_crlf_append {value : List UInt8} (h : Search.find crlf value = none)
    (post : List UInt8) : Search.find crlf (value ++ (crlf ++ post)) = some value.length := by
  rw [Search.find_skip crlf_ne_nil, Search.find_self]
  · rfl
  intro j hj hocc
  by_cases hle : j + crlf.length ≤ value.length
  · exact (Search.find_eq_none_iff crlf_ne_nil).1 h j (hocc.of_append hle)
  · -- the word would begin one character early, and its second one would be a carriage return
    have hlast : j + 1 = value.length := by
      have hlen : crlf.length = 2 := rfl
      omega
    have hget := hocc.getElem? (k := 1) (by decide)
    rw [hlast, List.getElem?_append_right (Nat.le_refl _), Nat.sub_self] at hget
    exact absurd (Option.some.inj (hget : some (13 : UInt8) = some 10)) (by decide)

/-- A header has one value at most. -/
theorem ContentLength.unique {header v w : List UInt8} (hv : ContentLength header v)
    (hw : ContentLength header w) : v = w := by
  obtain ⟨pre, post, hheader, hfind, hcrlf⟩ := hv
  obtain ⟨pre', post', hheader', hfind', hcrlf'⟩ := hw
  have hpre : pre.length = pre'.length := Option.some.inj (hfind.symm.trans hfind')
  simp only [List.append_assoc] at hheader hheader'
  obtain ⟨-, htail⟩ := List.append_inj (hheader.symm.trans hheader') hpre
  have htext := List.append_cancel_left htail
  have hlen := find_crlf_append hcrlf post
  rw [htext, find_crlf_append hcrlf' post'] at hlen
  exact (List.append_inj htext (Option.some.inj hlen).symm).1

/-- A field name in front of the empty line has ended there. -/
theorem fieldName_le {text : List UInt8} {i e : ℕ} (hi : Search.Occurs contentLength text i)
    (he : Search.Occurs headerEnd text e) (hle : i ≤ e) : i + contentLength.length ≤ e := by
  by_contra hlt
  have hget : text[e]? = some 13 := he.getElem? (k := 0) (by decide)
  exact cr_not_mem_contentLength (hi.mem hle (by omega) hget)

/-- The field of a header whose name was found. -/
theorem contentLength_of_find {pre rest : List UInt8} {i : ℕ}
    (h : Search.find contentLength (pre ++ headerEnd ++ rest) = some i) (hle : i ≤ pre.length) :
    ∃ value, ContentLength (pre ++ headerEnd) value := by
  obtain ⟨hi, hfirst⟩ := Search.find_eq_some_iff.1 h
  have hend := fieldName_le hi (Search.occurs_length_append ..) hle
  rw [List.append_assoc] at hi
  obtain ⟨p, q, rfl, rfl⟩ := (hi.of_append hend).split contentLength_ne_nil
  -- the line of the field ends at the empty line at the latest
  cases hcrlf : Search.find crlf (q ++ headerEnd) with
  | none => exact absurd (Search.occurs_length_append q crlf crlf) (by
      rw [List.append_assoc]
      exact (Search.find_eq_none_iff crlf_ne_nil).1 hcrlf _)
  | some n =>
      obtain ⟨value, post, hline, -, hnone⟩ := Search.find_split hcrlf crlf_ne_nil
      refine ⟨value, p, post, ?_, ?_, hnone⟩
      · simp only [List.append_assoc] at hline ⊢
        rw [hline]
      · refine Search.find_eq_some_iff.2 ⟨?_, fun j hj hocc => hfirst j hj ?_⟩
        · rw [List.append_assoc]
          exact Search.occurs_length_append ..
        · exact hocc.append contentLength_ne_nil rest

/-- **The first header has a field or not**, and the search for it finds it there. -/
theorem contentLength_cases {text : List UInt8} {e : ℕ} (h : Search.find headerEnd text = some e) :
    (∃ value, ContentLength (firstHeader text) value) ∨
      (∀ i, Search.find contentLength text = some i → e < i) ∧
        ∀ value, ¬ ContentLength (firstHeader text) value := by
  obtain ⟨pre, rest, hheader, htext, rfl⟩ := firstHeader_split h
  by_cases hfield : ∃ value, ContentLength (firstHeader text) value
  · exact .inl hfield
  · refine .inr ⟨fun i hi => ?_, fun value hvalue => hfield ⟨value, hvalue⟩⟩
    by_contra hle
    rw [hheader] at hfield htext
    exact hfield (contentLength_of_find (htext ▸ hi) (Nat.le_of_not_lt hle))

/-! ### The length of the first message -/

variable {text more : List UInt8} {e : ℕ}

theorem firstBodyLength_of_none (htext : 0 ∉ text) (he : Search.find headerEnd text = some e)
    (h : ∀ i, Search.find contentLength text = some i → e < i) :
    firstBodyLength (text ++ 0 :: more) = .ok 0 := by
  have hstring : Scan.cString (text ++ 0 :: more) = text := Scan.cString_append htext more
  have hzero : 0 ∈ text ++ 0 :: more := List.mem_append_right _ (List.mem_cons_self ..)
  rw [firstBodyLength, extractDataFromHeader, strstr_string hzero, strstr_string hzero, hstring, he]
  cases hi : Search.find contentLength text with
  | none => rfl
  | some i =>
      simp only [ok_bind, if_pos (h i hi)]
      rfl

/-- The characters that are taken from the field. -/
theorem extractData_of_field {pre value post : List UInt8}
    (heq : text = pre ++ (contentLength ++ (value ++ (crlf ++ post)))) (htext : 0 ∉ text)
    (hi : Search.find contentLength text = some pre.length)
    (he : Search.find headerEnd text = some e) (hle : pre.length ≤ e)
    (hcrlf : Search.find crlf value = none) (more : List UInt8) :
    extractDataFromHeader (text ++ 0 :: more) contentLength crlf =
      some <$> extractString (text ++ 0 :: more) (pre.length + contentLength.length : ℕ)
        (pre.length + contentLength.length + value.length : ℕ) := by
  have hname : strstr (text ++ 0 :: more) contentLength = .ok (some pre.length) :=
    strstr_some (by rw [Scan.cString_append htext, hi])
  have hheader : strstr (text ++ 0 :: more) headerEnd = .ok (some e) :=
    strstr_some (by rw [Scan.cString_append htext, he])
  -- the line of the field is a string from the name on
  have hline : 0 ∉ contentLength ++ (value ++ (crlf ++ post)) := fun h => htext (by
    rw [heq]
    exact List.mem_append_right _ h)
  have hend : Search.find crlf (contentLength ++ (value ++ (crlf ++ post))) =
      some (contentLength.length + value.length) := by
    rw [crlf, Search.find_skip_head cr_not_mem_contentLength, ← crlf, find_crlf_append hcrlf]
    rfl
  have hdataEnd : strstr ((text ++ 0 :: more).drop pre.length) crlf =
      .ok (some (contentLength.length + value.length)) := by
    rw [heq, List.append_assoc, List.drop_left]
    exact strstr_some (by rw [Scan.cString_append hline, hend])
  rw [extractDataFromHeader, hname, hheader]
  simp only [ok_bind, if_neg (Nat.not_lt.2 hle), hdataEnd, Nat.add_assoc]

/-- The number in the field, if there is room for the field. -/
theorem firstBodyLength_of_field (htext : 0 ∉ text) (he : Search.find headerEnd text = some e)
    (hlen : text.length < 2 ^ 31) {value : List UInt8}
    (h : ContentLength (firstHeader text) value) :
    firstBodyLength (text ++ 0 :: more) =
      if value.length < 128 then .ok (atoi value) else .error .outOfBounds := by
  obtain ⟨head, rest, hheader, hsplit, rfl⟩ := firstHeader_split he
  obtain ⟨pre, post, hfield, hfind, hcrlf⟩ := h
  have hi : Search.find contentLength text = some pre.length := by
    rw [hsplit]
    exact Search.find_append hfind contentLength_ne_nil rest
  have hle : pre.length ≤ head.length := by
    have hheaderLen := congrArg List.length (hheader.symm.trans hfield)
    simp only [List.length_append] at hheaderLen
    have hlens : headerEnd.length = 4 ∧ contentLength.length = 16 := ⟨rfl, rfl⟩
    omega
  have heq : text = pre ++ (contentLength ++ (value ++ (crlf ++ (post ++ rest)))) := by
    rw [hsplit, hfield]
    simp only [List.append_assoc]
  have hvalue : 0 ∉ value := fun h => htext (by
    rw [heq]
    exact List.mem_append_right _ (List.mem_append_right _ (List.mem_append_left _ h)))
  have hroom : pre.length + contentLength.length + value.length ≤ text.length := by
    rw [heq]
    simp only [List.length_append]
    omega
  have hblock : ((text ++ 0 :: more).drop (pre.length + contentLength.length)).take value.length =
      value := by
    rw [heq, ← List.drop_drop, List.append_assoc, List.drop_left, List.append_assoc, List.drop_left,
      List.append_assoc, List.take_left]
  rw [firstBodyLength, extractData_of_field heq htext hi he hle hcrlf more]
  split
  · rename_i hshort
    rw [extractString_eq (fieldLen_natCast _ (by omega)) hshort (by rw [List.length_append]; omega),
      hblock]
    exact congrArg Except.ok (atoi_field hvalue _)
  · rename_i hlong
    rw [extractString_of_le (fieldLen_natCast _ (by omega)) (Nat.le_of_not_lt hlong)]
    rfl

/-- The length of the first message is that of the header and what the field says. -/
theorem firstMessageLength_eq (htext : 0 ∉ text) (he : Search.find headerEnd text = some e)
    (hlen : text.length < 2 ^ 31) :
    firstMessageLength (text ++ 0 :: more) = (do
      let bodyLen ← firstBodyLength (text ++ 0 :: more)
      return i32 ((firstHeader text).length + bodyLen)) := by
  obtain ⟨head, rest, hheader, hsplit, rfl⟩ := firstHeader_split he
  have hheaderLen : head.length + headerEnd.length = (firstHeader text).length := by
    rw [hheader, List.length_append]
  have hpos := List.length_pos_of_ne_nil headerEnd_ne_nil
  have hle := firstHeader_le he
  have hend : strstr (text ++ 0 :: more) headerEnd = .ok (some head.length) :=
    strstr_some (by rw [Scan.cString_append htext, he])
  have hint : i32 (firstHeader text).length = (firstHeader text).length := i32_natCast (by omega)
  have hheaderPos : (0 : ℤ) < (firstHeader text).length := by omega
  rw [firstMessageLength, hend, ok_bind]
  dsimp only
  rw [hheaderLen, hint, if_pos hheaderPos]

/-- **The length of a message with a field**, if there is room for the field. -/
theorem firstMessageLength_of_field (htext : 0 ∉ text) (he : Search.find headerEnd text = some e)
    (hlen : text.length < 2 ^ 31) {value : List UInt8}
    (h : ContentLength (firstHeader text) value) :
    firstMessageLength (text ++ 0 :: more) =
      if value.length < 128 then .ok (i32 ((firstHeader text).length + atoi value))
      else .error .outOfBounds := by
  rw [firstMessageLength_eq htext he hlen, firstBodyLength_of_field htext he hlen h]
  split <;> rfl

/-- The length of a message without one. -/
theorem firstMessageLength_of_none (htext : 0 ∉ text) (he : Search.find headerEnd text = some e)
    (hlen : text.length < 2 ^ 31) (h : ∀ i, Search.find contentLength text = some i → e < i) :
    firstMessageLength (text ++ 0 :: more) = .ok ((firstHeader text).length : ℤ) := by
  have hle := firstHeader_le he
  rw [firstMessageLength_eq htext he hlen, firstBodyLength_of_none htext he h, ok_bind, add_zero,
    i32_natCast (by omega)]
  rfl

/-! ### Erasing empty lines -/

/-- The first `recv_len` bytes were received; the string in the block may go on behind them. -/
structure Holds (b : Buffer) (text : List UInt8) : Prop where
  /-- The block begins with the string. -/
  string : ∃ more, b.recvBuf = text ++ 0 :: more
  /-- The string has no zero. -/
  noZero : 0 ∉ text
  /-- Its length is an `int`. -/
  short : text.length < 2 ^ 31
  /-- The received bytes are in the string. -/
  len : 0 ≤ b.recvLen ∧ b.recvLen ≤ text.length

/-- The received bytes of the buffer, none of which is zero, and the zero behind them. -/
def Received (b : Buffer) (bytes : List UInt8) : Prop :=
  (∃ more, b.recvBuf = bytes ++ 0 :: more) ∧ 0 ∉ bytes ∧ b.recvLen = bytes.length ∧
    bytes.length < 2 ^ 31

theorem Received.holds {b : Buffer} {bytes : List UInt8} (h : Received b bytes) :
    Holds b bytes :=
  ⟨h.1, h.2.1, h.2.2.2, by rw [h.2.2.1]; omega, by rw [h.2.2.1]⟩

/-- One turn of the loop: the string keeps its length, and one CRLF is gone from what was
received. -/
theorem Holds.shift {b : Buffer} {text mem : List UInt8} (h : Holds b text)
    (hlen : 2 ≤ b.recvLen) (hmem : memcpy b.recvBuf 0 b.recvBuf 2 (b.recvLen - 2) = .ok mem) :
    (∃ text', Holds { b with recvBuf := mem, recvLen := b.recvLen - 2 } text') ∧
      mem.take (b.recvLen - 2).toNat = (b.recvBuf.take b.recvLen.toNat).drop 2 := by
  obtain ⟨⟨more, hbuf⟩, hzero, hshort, -, hle⟩ := h
  obtain ⟨n, hn⟩ := Int.eq_ofNat_of_zero_le (a := b.recvLen - 2) (by omega)
  have hcopied : ((text.drop 2).take n).length = n := by
    rw [List.length_take, List.length_drop]
    omega
  have hnew : mem = (text.drop 2).take n ++ text.drop n ++ 0 :: more := by
    have hcopy : memcpy b.recvBuf 0 b.recvBuf 2 n =
        .ok (b.recvBuf.take 0 ++ (b.recvBuf.drop 2).take n ++ b.recvBuf.drop (0 + n)) :=
      memcpy_eq (i := 0) (j := 2) (by rw [hbuf, List.length_append]; omega)
        (by rw [hbuf, List.length_append]; omega)
    rw [hn, hcopy] at hmem
    rw [← Except.ok.inj hmem, hbuf, List.take_zero, List.nil_append, Nat.zero_add,
      List.drop_append_of_le_length (by omega), List.drop_append_of_le_length (by omega),
      List.take_append_of_le_length (by rw [List.length_drop]; omega), List.append_assoc]
  refine ⟨⟨(text.drop 2).take n ++ text.drop n, ⟨more, hnew⟩, fun h => ?_, ?_, ?_⟩, ?_⟩
  · rcases List.mem_append.1 h with h | h
    · exact hzero (List.mem_of_mem_drop (List.mem_of_mem_take h))
    · exact hzero (List.mem_of_mem_drop h)
  · rw [List.length_append, hcopied, List.length_drop]
    omega
  · rw [List.length_append, hcopied, List.length_drop]
    dsimp only
    omega
  · have hlens : b.recvLen.toNat = n + 2 := by omega
    rw [hn, hnew, hlens, hbuf, Int.toNat_natCast, List.append_assoc, List.take_left' hcopied,
      List.take_append_of_le_length (by omega), List.drop_take, Nat.add_sub_cancel]

/-- **What is erased is a number of empty lines** in front of what was received. -/
theorem eraseCrlf_spec {b b₁ : Buffer} {text : List UInt8} (h : Holds b text)
    (hrun : eraseCrlf b = .ok b₁) :
    (∃ text', Holds b₁ text') ∧ ∃ k, b.recvBuf.take b.recvLen.toNat =
      (List.replicate k crlf).flatten ++ b₁.recvBuf.take b₁.recvLen.toNat := by
  induction b using eraseCrlf.induct generalizing text with
  | case1 b ih =>
      rw [eraseCrlf] at hrun
      obtain ⟨firstCrlf, hfirst, hrun⟩ := bind_eq_ok.1 hrun
      split at hrun
      · rename_i hcrlf
        obtain ⟨mem, hmem, hrun⟩ := bind_eq_ok.1 hrun
        obtain ⟨⟨text', hholds⟩, hshift⟩ := h.shift hcrlf.2 hmem
        obtain ⟨hholds₁, k, hk⟩ := ih firstCrlf hcrlf mem hholds hrun
        refine ⟨hholds₁, k + 1, ?_⟩
        have hline : (b.recvBuf.take b.recvLen.toNat).take 2 = crlf := by
          obtain ⟨more, hbuf⟩ := h.string
          have hfind := strstr_eq_ok hfirst
          rw [hcrlf.1, hbuf, Scan.cString_append h.noZero] at hfind
          obtain ⟨rest, rfl⟩ := (Search.find_eq_some_iff.1 hfind).1
          have htwo : 2 ≤ b.recvLen.toNat := by omega
          rw [List.take_take, Nat.min_eq_left htwo, hbuf]
          rfl
        rw [← List.take_append_drop 2 (b.recvBuf.take b.recvLen.toNat), hline, ← hshift, hk,
          List.replicate_succ, List.flatten_cons, List.append_assoc]
      · rw [← Except.ok.inj hrun]
        exact ⟨⟨text, h⟩, 0, rfl⟩

/-- A buffer whose header is complete has a header in its string. -/
theorem completeHeaderReceived_spec {b b₁ : Buffer} {text : List UInt8} (h : Holds b text)
    (hrun : completeHeaderReceived b = .ok (true, b₁)) :
    ∃ text' e, Holds b₁ text' ∧ Search.find headerEnd text' = some e := by
  rw [completeHeaderReceived] at hrun
  obtain ⟨b', herase, hrun⟩ := bind_eq_ok.1 hrun
  obtain ⟨⟨text', hholds⟩, -⟩ := eraseCrlf_spec h herase
  split at hrun
  · exact absurd (Except.ok.inj hrun) (by simp)
  · obtain ⟨found, hfound, hrun⟩ := bind_eq_ok.1 hrun
    obtain ⟨hsome, rfl⟩ := Prod.mk.inj (Except.ok.inj hrun)
    obtain ⟨e, rfl⟩ := Option.isSome_iff_exists.1 hsome
    obtain ⟨more, hbuf⟩ := hholds.string
    have hfind := strstr_eq_ok hfound
    rw [hbuf, Scan.cString_append hholds.noZero] at hfind
    exact ⟨text', e, hholds, hfind⟩

/-! ### Moving the message -/

/-- The move succeeds; what is to be sent and what is left are the received bytes; and the cut is
behind the first header and not behind what was received. -/
def Conserves (b : Buffer) : Prop :=
  ∃ b', moveDataFromRecvToSend b = .ok b' ∧
    b'.sendBuf.take b'.sendLen.toNat ++ b'.recvBuf.take b'.recvLen.toNat =
      b.recvBuf.take b.recvLen.toNat ∧
    (firstHeader (Scan.cString b.recvBuf)).length ≤ b'.sendLen ∧ b'.sendLen ≤ b.recvLen ∧
    0 ≤ b'.recvLen

/-- The length that is sent is the one that was computed. -/
theorem sendLen_of_move {b b' : Buffer} (h : moveDataFromRecvToSend b = .ok b') :
    firstMessageLength b.recvBuf = .ok b'.sendLen := by
  rw [moveDataFromRecvToSend] at h
  obtain ⟨messageLen, hlen, h⟩ := bind_eq_ok.1 h
  obtain ⟨_, -, h⟩ := bind_eq_ok.1 h
  obtain ⟨_, -, h⟩ := bind_eq_ok.1 h
  dsimp only at h
  split at h
  · exact nomatch h
  · obtain ⟨_, -, h⟩ := bind_eq_ok.1 h
    rw [hlen, ← Except.ok.inj h]

/-- **A cut in what was received** loses nothing. -/
theorem moveData_of_le {b : Buffer} {text : List UInt8} (h : Holds b text) {n : ℕ}
    (hlen : firstMessageLength b.recvBuf = .ok n) (hle : n ≤ b.recvLen) :
    ∃ b', moveDataFromRecvToSend b = .ok b' ∧
      b'.sendBuf.take b'.sendLen.toNat ++ b'.recvBuf.take b'.recvLen.toNat =
        b.recvBuf.take b.recvLen.toNat ∧ b'.sendLen = n ∧ 0 ≤ b'.recvLen := by
  obtain ⟨⟨more, hbuf⟩, hzero, hshort, hnonneg, hreceived⟩ := h
  obtain ⟨k, hk⟩ := Int.eq_ofNat_of_zero_le (a := b.recvLen - n) (by omega)
  have hblock : n + k ≤ b.recvBuf.length := by
    rw [hbuf, List.length_append]
    omega
  have hsend : memcpy (List.replicate n 0) 0 b.recvBuf 0 n = .ok (b.recvBuf.take n) := by
    refine (memcpy_eq (i := 0) (j := 0) (by rw [List.length_replicate]; omega) (by omega)).trans ?_
    rw [List.take_zero, List.nil_append, List.drop_zero, List.drop_replicate, Nat.zero_add,
      Nat.sub_self, List.replicate_zero, List.append_nil]
  have hshift : memcpy b.recvBuf 0 b.recvBuf n k =
      .ok ((b.recvBuf.drop n).take k ++ b.recvBuf.drop k) := by
    refine (memcpy_eq (i := 0) (by omega) hblock).trans ?_
    rw [List.take_zero, List.nil_append, Nat.zero_add]
  have hk' : i32 (b.recvLen - n) = k := by rw [hk, i32_natCast (by omega)]
  have hrun : moveDataFromRecvToSend b =
      .ok ⟨(b.recvBuf.drop n).take k ++ b.recvBuf.drop k, b.recvBuf.take n, k, n⟩ := by
    rw [moveDataFromRecvToSend, hlen, ok_bind, calloc_natCast, ok_bind, hsend, ok_bind]
    dsimp only
    rw [hk', if_neg (by omega), hshift, ok_bind]
    rfl
  refine ⟨_, hrun, ?_, rfl, Int.natCast_nonneg k⟩
  have hkept : ((b.recvBuf.drop n).take k).length = k := by
    rw [List.length_take, List.length_drop]
    omega
  have hlens : b.recvLen.toNat = n + k := by omega
  dsimp only
  rw [Int.toNat_natCast, Int.toNat_natCast, List.take_left' hkept, List.take_take, Nat.min_self,
    ← List.take_add, hlens]

/-- `"Content-Length: N\r\n\r\nxy"`, with one character or two for the number. -/
def oneField (number : List UInt8) : Buffer where
  recvBuf := contentLength ++ number ++ headerEnd ++ [120, 121, 0]
  sendBuf := []
  recvLen := 22 + number.length
  sendLen := 0

/-- Nothing is in front of the header, and the header is complete. -/
theorem completeHeaderReceived_oneField {number : List UInt8} {i : ℕ}
    (hfirst : strstr (oneField number).recvBuf crlf = .ok (some (i + 1)))
    (hend : strstr (oneField number).recvBuf headerEnd = .ok (some (i + 1))) :
    completeHeaderReceived (oneField number) = .ok (true, oneField number) := by
  have hlen : ¬ (oneField number).recvLen < 2 := by
    have hrecv : (oneField number).recvLen = 22 + number.length := rfl
    omega
  have herase : eraseCrlf (oneField number) = .ok (oneField number) := by
    rw [eraseCrlf, hfirst, ok_bind, dif_neg (fun h => nomatch h.1)]
    rfl
  rw [completeHeaderReceived, herase, ok_bind, if_neg hlen, hend]
  rfl

/-- A move needs the length of the message. -/
theorem not_conserves_of_error {b : Buffer} {x : Fault}
    (h : firstMessageLength b.recvBuf = .error x) : ¬ Conserves b := by
  rintro ⟨b', hmove, -⟩
  exact nomatch h.symm.trans (sendLen_of_move hmove)

/-- **When the move of a message with a complete body conserves the bytes**: the length of the
message is at least that of the header. -/
theorem conserves_iff_le {b : Buffer} {text : List UInt8} (h : Holds b text) {n : ℤ}
    (hlen : firstMessageLength b.recvBuf = .ok n) (hle : n ≤ b.recvLen) :
    Conserves b ↔ ((firstHeader text).length : ℤ) ≤ n := by
  obtain ⟨more, hbuf⟩ := h.string
  have hstring : Scan.cString b.recvBuf = text := by rw [hbuf, Scan.cString_append h.noZero]
  constructor
  · rintro ⟨b', hmove, -, hcut, -, -⟩
    rw [hstring] at hcut
    exact hcut.trans_eq (Except.ok.inj ((sendLen_of_move hmove).symm.trans hlen))
  · intro hcut
    obtain ⟨m, rfl⟩ := Int.eq_ofNat_of_zero_le (a := n) (by omega)
    obtain ⟨b', hmove, hbytes, hsend, hrecv⟩ := moveData_of_le h hlen hle
    exact ⟨b', hmove, hbytes, by rw [hstring, hsend]; exact hcut, by rw [hsend]; exact hle, hrecv⟩

/-- A length that is an `int` again is no less than the header exactly when nothing was subtracted
and nothing ran over. -/
theorem le_i32_add_iff {header n : ℤ} (h : 0 ≤ header) (hheader : header < 2 ^ 31)
    (hn : -2 ^ 31 ≤ n ∧ n < 2 ^ 31) : header ≤ i32 (header + n) ↔ 0 ≤ n ∧ header + n < 2 ^ 31 := by
  by_cases hlt : header + n < 2 ^ 31
  · rw [i32_of_range (by omega) hlt]
    omega
  · have hneg := i32_lt_zero (x := header + n) (by omega) (by omega)
    omega

/-- **When the move conserves the bytes**: the value of the `Content-Length` field of the first
header has room in a block of 128, its number is not negative, and the sum with the length of the
header is an `int`.  A value without room is a fault already when the body is looked for. -/
theorem framing_conserves_iff {b b₁ : Buffer} {bytes : List UInt8} (h : Received b bytes)
    (hheader : completeHeaderReceived b = .ok (true, b₁))
    (hbody : completeBodyReceived b₁ ≠ .ok false) :
    Conserves b₁ ↔ ∀ value, ContentLength (firstHeader (Scan.cString b₁.recvBuf)) value →
      value.length < 128 ∧ 0 ≤ atoi value ∧
        (firstHeader (Scan.cString b₁.recvBuf)).length + atoi value < 2 ^ 31 := by
  obtain ⟨text, e, hholds, hend⟩ := completeHeaderReceived_spec h.holds hheader
  obtain ⟨more, hbuf⟩ := hholds.string
  have hstring : Scan.cString b₁.recvBuf = text := by
    rw [hbuf, Scan.cString_append hholds.noZero]
  have hheaderLe := firstHeader_le hend
  have hshort := hholds.short
  have hcomplete : ∀ {n : ℤ}, firstMessageLength b₁.recvBuf = .ok n → n ≤ b₁.recvLen := by
    intro n hlen
    by_contra hlt
    rw [completeBodyReceived, hlen] at hbody
    exact hbody (congrArg Except.ok (decide_eq_false hlt))
  rw [hstring]
  rcases contentLength_cases hend with ⟨value, hvalue⟩ | ⟨hnone, hno⟩
  · have honly : (∀ v, ContentLength (firstHeader text) v → v.length < 128 ∧ 0 ≤ atoi v ∧
        (firstHeader text).length + atoi v < 2 ^ 31) ↔ value.length < 128 ∧ 0 ≤ atoi value ∧
          (firstHeader text).length + atoi value < 2 ^ 31 :=
      ⟨fun hall => hall value hvalue, fun hone v hv => hv.unique hvalue ▸ hone⟩
    have hlen : firstMessageLength (text ++ 0 :: more) = _ :=
      firstMessageLength_of_field hholds.noZero hend hshort hvalue
    rw [← hbuf] at hlen
    rw [honly]
    by_cases hroom : value.length < 128
    · rw [if_pos hroom] at hlen
      rw [conserves_iff_le hholds hlen (hcomplete hlen), and_iff_right hroom]
      exact le_i32_add_iff (Int.natCast_nonneg _) (by omega) (atoi_range value)
    · rw [if_neg hroom] at hlen
      exact iff_of_false (not_conserves_of_error hlen) fun hv => hroom hv.1
  · have hlen : firstMessageLength (text ++ 0 :: more) = _ :=
      firstMessageLength_of_none hholds.noZero hend hshort hnone
    rw [← hbuf] at hlen
    refine iff_of_true ?_ fun v hv => absurd hv (hno v)
    exact (conserves_iff_le hholds hlen (hcomplete hlen)).2 (le_refl _)

/-- With the number 1 the message has a body of one byte. -/
theorem framing_conserves_iff_one : Conserves (oneField [49]) := by
  have hreceived : Received (oneField [49]) (contentLength ++ [49] ++ headerEnd ++ [120, 121]) :=
    ⟨⟨[], rfl⟩, by decide, rfl, by decide⟩
  have hbody : completeBodyReceived (oneField [49]) = .ok true := by decide +kernel
  refine (framing_conserves_iff hreceived
    (completeHeaderReceived_oneField (i := 16) (by decide) (by decide))
    (by rw [hbody]; decide)).2 ?_
  intro value hvalue
  have hone : ContentLength (firstHeader (Scan.cString (oneField [49]).recvBuf)) [49] :=
    ⟨[], crlf, by decide, by decide, by decide⟩
  rw [hvalue.unique hone]
  decide

/-- **The number -1 puts the cut before the end of the header.** -/
theorem framing_negative_length : ∃ b b₁ bytes, Received b bytes ∧
    completeHeaderReceived b = .ok (true, b₁) ∧ completeBodyReceived b₁ = .ok true ∧
    ¬ Conserves b₁ := by
  refine ⟨oneField [45, 49], oneField [45, 49],
    contentLength ++ [45, 49] ++ headerEnd ++ [120, 121], ⟨⟨[], rfl⟩, by decide, rfl, by decide⟩,
    completeHeaderReceived_oneField (i := 17) (by decide) (by decide), by decide +kernel, ?_⟩
  rintro ⟨b', hmove, -, hcut, -, -⟩
  have hlen : firstMessageLength (oneField [45, 49]).recvBuf = .ok 21 := by decide +kernel
  have hheader : (firstHeader (Scan.cString (oneField [45, 49]).recvBuf)).length = 22 := by decide
  rw [← Except.ok.inj (hlen.symm.trans (sendLen_of_move hmove)), hheader] at hcut
  omega

end P2P
