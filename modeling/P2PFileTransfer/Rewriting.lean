/-
**Requests that are rewritten** (`bitrate.c`, `modfiy_bitrate`, `normal_to_nolist_manifest`).

The request for a fragment names a bitrate, between the last `/` in front of `"Seq"` and `"Seq"`;
the proxy puts the bitrate it has chosen in its place.  The request for a manifest gets `"_nolist"`
in front of `".f4m"`.  Both functions put three parts together in a block that has as many bytes as
the parts have, so that the new text has no zero behind it.  The sum of the lengths is kept in an
`int`, and there is no block for a negative number.

Main definitions:

* `P2P.modfiyBitrate`, `P2P.normalToNolistManifest` — the functions of the source;
* `P2P.Sends`, `P2P.FragmentRequest`, `P2P.ManifestRequest` — a buffer with a request, and the
  parts of a request;
* `P2P.Replaces`, `P2P.Inserts` — what should be done to it.

Main results:

* `P2P.splice_eq` — three parts in one block;
* `P2P.modfiyBitrate_eq`, `P2P.FragmentRequest.replaced` — what is replaced, and where the next call
  finds it;
* `P2P.replaces_iff`, `P2P.inserts_iff`, `P2P.rewriting_iff` — **when the requests are rewritten**.
-/

import P2PFileTransfer.Bitrate

set_option relaxedAutoImplicit false
set_option autoImplicit false

namespace P2P

/-! ### The functions -/

/-- `"Seq"`. -/
def seqWord : List UInt8 := [83, 101, 113]

/-- `".f4m"`. -/
def f4m : List UInt8 := [46, 102, 52, 109]

/-- `"_nolist"`. -/
def nolist : List UInt8 := [95, 110, 111, 108, 105, 115, 116]

theorem seqWord_ne_nil : seqWord ≠ [] := List.cons_ne_nil _ _

theorem slash_not_mem_seqWord : 47 ∉ seqWord := by simp [seqWord]

theorem f4m_ne_nil : f4m ≠ [] := List.cons_ne_nil _ _

/-- The loop of `modfiy_bitrate`, which goes back to the next `'/'`.  Without one it reads the
byte in front of the block. -/
def scanBack (mem : List UInt8) : ℕ → Except Fault ℕ
  | 0 => if mem[0]? = some 47 then .ok 0 else .error .outOfBounds
  | i + 1 => if mem[i + 1]? = some 47 then .ok (i + 1) else scanBack mem i

/-- The new block: `first` bytes from the beginning of the old one, the text in the middle, and
`last` bytes of the old one from the place `loc` on. -/
def splice (mem mid : List UInt8) (size first : ℤ) (loc : ℕ) (last : ℤ) :
    Except Fault (List UInt8) := do
  let newBuf ← calloc size
  let newBuf ← memcpy newBuf 0 mem 0 first
  let newBuf ← memcpy newBuf first mid 0 mid.length
  memcpy newBuf (first + mid.length) mem loc last

/-- `modfiy_bitrate`. -/
def modfiyBitrate (s : Stream) (b : Buffer) : Except Fault Buffer := do
  match ← strstr b.sendBuf seqWord with
  | none => .error .assertion
  | some endLoc =>
      let slash ← scanBack b.sendBuf endLoc
      let beginLoc := slash + 1
      let bitrate := chooseBitrate s
      let firstPartLen := i32 beginLoc
      let lastPartLen := i32 (b.sendLen - endLoc)
      let sendLen := i32 (firstPartLen + bitrate.length + lastPartLen)
      let newSendBuf ← splice b.sendBuf bitrate sendLen firstPartLen endLoc lastPartLen
      return { b with sendBuf := newSendBuf, sendLen := sendLen }

/-- `normal_to_nolist_manifest`. -/
def normalToNolistManifest (b : Buffer) : Except Fault Buffer := do
  match ← strstr b.sendBuf f4m with
  | none => .error .assertion
  | some insertLoc =>
      let sendLen := i32 (b.sendLen + nolist.length)
      let firstPartLen := i32 insertLoc
      let lastPartLen := i32 (sendLen - nolist.length - insertLoc)
      let newSendBuf ← splice b.sendBuf nolist sendLen firstPartLen insertLoc lastPartLen
      if sendLen = firstPartLen + nolist.length + lastPartLen then
        return { b with sendBuf := newSendBuf, sendLen := sendLen }
      else
        .error .assertion

/-! ### Three parts in one block -/

/-- A copy to the part of a block that is not filled yet. -/
theorem memcpy_fill (done : List UInt8) {src : List UInt8} {n j k : ℕ} (hroom : k ≤ n)
    (hsrc : j + k ≤ src.length) :
    memcpy (done ++ List.replicate n 0) done.length src j k =
      .ok (done ++ (src.drop j).take k ++ List.replicate (n - k) 0) := by
  refine (memcpy_eq (by rw [List.length_append, List.length_replicate]; omega) hsrc).trans ?_
  rw [List.take_left, List.drop_length_add_append, List.drop_replicate]

/-- **Three parts in one block** that has room for them and for nothing else. -/
theorem splice_eq (mem mid : List UInt8) {first loc last : ℕ} (hfirst : first ≤ mem.length)
    (hlast : loc + last ≤ mem.length) :
    splice mem mid (first + mid.length + last : ℕ) first loc last =
      .ok (mem.take first ++ mid ++ (mem.drop loc).take last) := by
  have hhead : (mem.take first).length = first := List.length_take_of_le hfirst
  have hboth : (mem.take first ++ mid).length = first + mid.length := by
    rw [List.length_append, hhead]
  have hcopy₁ : memcpy (List.replicate (first + mid.length + last) 0) 0 mem 0 first =
      .ok (mem.take first ++ List.replicate (mid.length + last) 0) := by
    have hsub : first + mid.length + last - first = mid.length + last := by omega
    refine (memcpy_fill [] (j := 0) (by omega) (by omega)).trans ?_
    rw [List.nil_append, List.drop_zero, hsub]
  have hcopy₂ : memcpy (mem.take first ++ List.replicate (mid.length + last) 0) first mid 0
      mid.length = .ok (mem.take first ++ mid ++ List.replicate last 0) := by
    have hcopy := memcpy_fill (mem.take first) (j := 0) (Nat.le_add_right mid.length last)
      (Nat.le_of_eq (Nat.zero_add mid.length))
    rw [hhead, List.drop_zero, List.take_length, Nat.add_sub_cancel_left] at hcopy
    exact hcopy
  have hcopy₃ : memcpy (mem.take first ++ mid ++ List.replicate last 0) (first + mid.length : ℕ)
      mem loc last = .ok (mem.take first ++ mid ++ (mem.drop loc).take last) := by
    have hcopy := memcpy_fill (mem.take first ++ mid) (Nat.le_refl last) hlast
    rw [hboth, Nat.sub_self, List.replicate_zero, List.append_nil] at hcopy
    exact hcopy
  rw [splice, calloc_natCast, ok_bind, hcopy₁, ok_bind, hcopy₂, ok_bind, ← Int.natCast_add, hcopy₃]

/-! ### The fragment request -/

/-- The loop goes back over what is no slash. -/
theorem scanBack_of_ne {mem : List UInt8} {k : ℕ} (hslash : mem[k]? = some 47) (n : ℕ)
    (hne : ∀ j < n, mem[k + 1 + j]? ≠ some 47) : scanBack mem (k + n) = .ok k := by
  induction n with
  | zero =>
      cases k with
      | zero => exact if_pos hslash
      | succ k => exact if_pos hslash
  | succ n ih =>
      have hlast : mem[k + n + 1]? ≠ some 47 := by
        rw [Nat.add_right_comm]
        exact hne n (Nat.lt_succ_self n)
      rw [← Nat.add_assoc, scanBack, if_neg hlast]
      exact ih fun j hj => hne j (Nat.lt_succ_of_lt hj)

/-- **The slash that the loop stops at.** -/
theorem scanBack_eq {pre field rest : List UInt8} (hfield : 47 ∉ field)
    (hrest : rest.head? ≠ some 47) :
    scanBack (pre ++ 47 :: (field ++ rest)) (pre.length + 1 + field.length) = .ok pre.length := by
  have hslash : (pre ++ 47 :: (field ++ rest))[pre.length]? = some 47 := by
    rw [List.getElem?_append_right (Nat.le_refl _), Nat.sub_self]
    rfl
  rw [Nat.add_assoc, Nat.add_comm 1]
  refine scanBack_of_ne hslash _ fun j hj => ?_
  have hget : (pre ++ 47 :: (field ++ rest))[pre.length + 1 + j]? = (field ++ rest)[j]? := by
    rw [Nat.add_assoc, List.getElem?_append_right (Nat.le_add_right _ _), Nat.add_sub_cancel_left,
      Nat.add_comm 1, List.getElem?_cons_succ]
  rw [hget]
  by_cases hlt : j < field.length
  · rw [List.getElem?_append_left hlt]
    exact fun h => hfield (List.mem_of_getElem? h)
  · rw [List.getElem?_append_right (Nat.le_of_not_lt hlt), Nat.sub_eq_zero_of_le (by omega),
      ← List.head?_eq_getElem?]
    exact hrest

/-- The parts of a request for a fragment: what is in front of the last slash before the first
`"Seq"`, the field between them, and the text from there on. -/
def FragmentRequest (request pre field rest : List UInt8) : Prop :=
  request = pre ++ 47 :: (field ++ rest) ∧ 47 ∉ field ∧
    Search.find seqWord request = some (pre.length + 1 + field.length)

/-- The text is the new one, its length is `send_len`, and the next call does not change it. -/
def Replaces (s : Stream) (b : Buffer) (text : List UInt8) : Prop :=
  ∃ b', modfiyBitrate s b = .ok b' ∧ b'.sendBuf = text ∧ b'.sendLen = text.length ∧
    modfiyBitrate s b' = .ok b'

/-- **What is replaced**, whatever is behind the request in its block. -/
theorem modfiyBitrate_eq {s : Stream} {b : Buffer} {pre field rest tail : List UInt8}
    (hbuf : b.sendBuf = pre ++ 47 :: (field ++ (rest ++ tail)))
    (hlen : b.sendLen = (pre ++ 47 :: (field ++ rest)).length)
    (hfind : strstr b.sendBuf seqWord = .ok (some (pre.length + 1 + field.length)))
    (hfield : 47 ∉ field) (hrest : rest.head? = some 83)
    (hroom : (pre ++ 47 :: (chooseBitrate s ++ rest)).length < 2 ^ 31) :
    modfiyBitrate s b = .ok { b with
      sendBuf := pre ++ 47 :: (chooseBitrate s ++ rest)
      sendLen := (pre ++ 47 :: (chooseBitrate s ++ rest)).length } := by
  have hscan : scanBack b.sendBuf (pre.length + 1 + field.length) = .ok pre.length := by
    rw [hbuf]
    refine scanBack_eq hfield fun h => ?_
    rw [List.head?_append, hrest] at h
    exact absurd (Option.some.inj (h : some (83 : UInt8) = some 47)) (by decide)
  simp only [List.length_append, List.length_cons] at hlen hroom
  have hfirst : i32 (pre.length + 1 : ℕ) = (pre.length + 1 : ℕ) := i32_natCast (by omega)
  have hlast : i32 (b.sendLen - (pre.length + 1 + field.length : ℕ)) = rest.length := by
    have hdiff : b.sendLen - (pre.length + 1 + field.length : ℕ) = rest.length := by omega
    rw [hdiff, i32_natCast (by omega)]
  have hsize : i32 ((pre.length + 1 : ℕ) + (chooseBitrate s).length + rest.length) =
      (pre.length + 1 + (chooseBitrate s).length + rest.length : ℕ) := by
    rw [← Int.natCast_add, ← Int.natCast_add, i32_natCast (by omega)]
  have hfirstLe : pre.length + 1 ≤ b.sendBuf.length := by
    rw [hbuf]
    simp only [List.length_append, List.length_cons]
    omega
  have hlastLe : pre.length + 1 + field.length + rest.length ≤ b.sendBuf.length := by
    rw [hbuf]
    simp only [List.length_append, List.length_cons]
    omega
  have hparts := splice_eq b.sendBuf (chooseBitrate s) hfirstLe hlastLe
  rw [modfiyBitrate, hfind, ok_bind]
  dsimp only
  rw [hscan, ok_bind, hfirst, hlast, hsize, hparts, ok_bind]
  have hhead : b.sendBuf.take (pre.length + 1) = pre ++ [47] := by
    rw [hbuf, List.take_length_add_append]
    rfl
  have htail : (b.sendBuf.drop (pre.length + 1 + field.length)).take rest.length = rest := by
    rw [hbuf, ← List.drop_drop, List.drop_length_add_append, List.drop_succ_cons, List.drop_zero,
      List.drop_left, List.take_left]
  have htext : pre ++ [47] ++ chooseBitrate s ++ rest = pre ++ 47 :: (chooseBitrate s ++ rest) := by
    simp only [List.append_assoc, List.cons_append, List.nil_append]
  have hsum : pre.length + 1 + (chooseBitrate s).length + rest.length =
      (pre ++ 47 :: (chooseBitrate s ++ rest)).length := by
    simp only [List.length_append, List.length_cons]
    omega
  rw [hhead, htail, htext, hsum]
  rfl

/-- The text behind the field begins with `"Seq"`. -/
theorem FragmentRequest.rest_eq {request pre field rest : List UInt8}
    (h : FragmentRequest request pre field rest) : ∃ more, rest = seqWord ++ more := by
  obtain ⟨rfl, -, hfind⟩ := h
  obtain ⟨more, hmore⟩ := (Search.find_eq_some_iff.1 hfind).1
  refine ⟨more, ?_⟩
  rw [hmore, ← List.drop_drop, List.drop_length_add_append, List.drop_succ_cons, List.drop_zero,
    List.drop_left]

/-- There is no `"Seq"` in front of the slash. -/
theorem FragmentRequest.find_pre {request pre field rest : List UInt8}
    (h : FragmentRequest request pre field rest) : Search.find seqWord pre = none := by
  obtain ⟨rfl, -, hfind⟩ := h
  refine (Search.find_eq_none_iff seqWord_ne_nil).2 fun j hj => ?_
  have hle := hj.le seqWord_ne_nil
  exact (Search.find_eq_some_iff.1 hfind).2 j (by omega) (hj.append seqWord_ne_nil _)

/-- **Where the next call finds the field.** -/
theorem FragmentRequest.replaced {request pre field rest : List UInt8}
    (h : FragmentRequest request pre field rest) (s : Stream) :
    FragmentRequest (pre ++ 47 :: (chooseBitrate s ++ rest)) pre (chooseBitrate s) rest := by
  refine ⟨rfl, not_mem_chooseBitrate (by decide) (by decide) s, ?_⟩
  obtain ⟨more, rfl⟩ := h.rest_eq
  rw [Search.find_separator seqWord_ne_nil h.find_pre slash_not_mem_seqWord, seqWord,
    Search.find_skip_head (not_mem_chooseBitrate (by decide) (by decide) s), ← seqWord,
    Search.find_self]
  rfl

/-- The block begins with the request, and a zero is behind it. -/
def Sends (b : Buffer) (request : List UInt8) : Prop :=
  (∃ more, b.sendBuf = request ++ 0 :: more) ∧ b.sendLen = request.length

theorem sendLen_of_modfiyBitrate {s : Stream} {b b' : Buffer} (h : modfiyBitrate s b = .ok b') :
    b'.sendLen < 2 ^ 31 := by
  rw [modfiyBitrate] at h
  obtain ⟨found, -, h⟩ := bind_eq_ok.1 h
  cases found with
  | none => exact nomatch h
  | some endLoc =>
      obtain ⟨slash, -, h⟩ := bind_eq_ok.1 h
      obtain ⟨newSendBuf, -, h⟩ := bind_eq_ok.1 h
      have hlen := congrArg Buffer.sendLen (Except.ok.inj h)
      dsimp only at hlen
      rw [← hlen]
      exact (i32_range _).2

/-- **When the bitrate is replaced**: the length of the new request is an `int`. -/
theorem replaces_iff {s : Stream} {b : Buffer} {request pre field rest : List UInt8}
    (hb : Sends b request) (hzero : 0 ∉ request) (h : FragmentRequest request pre field rest) :
    Replaces s b (pre ++ 47 :: (chooseBitrate s ++ rest)) ↔
      (pre ++ 47 :: (chooseBitrate s ++ rest)).length < 2 ^ 31 := by
  constructor
  · rintro ⟨b', hrun, -, hlen, -⟩
    have hlt := sendLen_of_modfiyBitrate hrun
    omega
  · intro hroom
    obtain ⟨⟨more, hbuf⟩, hlen⟩ := hb
    obtain ⟨rest', hrest⟩ := h.rest_eq
    have hhead : rest.head? = some 83 := by
      rw [hrest]
      rfl
    obtain ⟨rfl, hfield, hfind⟩ := h
    have hnew := FragmentRequest.replaced ⟨rfl, hfield, hfind⟩ s
    -- the string of the new block is the whole block
    have hzero' : 0 ∉ pre ++ 47 :: (chooseBitrate s ++ rest) := fun h => by
      simp only [List.mem_append, List.mem_cons, not_or] at h hzero
      rcases h with h | h | h | h
      · exact hzero.1 h
      · exact hzero.2.1 h
      · exact not_mem_chooseBitrate (by decide) (by decide) s h
      · exact hzero.2.2.2 h
    have hblock : b.sendBuf = pre ++ 47 :: (field ++ (rest ++ 0 :: more)) := by
      rw [hbuf]
      simp only [List.append_assoc, List.cons_append]
    have hfirst := modfiyBitrate_eq (s := s) hblock hlen
      (strstr_some (by rw [hbuf, Scan.cString_append hzero, hfind])) hfield hhead hroom
    refine ⟨_, hfirst, rfl, rfl, ?_⟩
    -- and nothing is behind it
    have hnil : pre ++ 47 :: (chooseBitrate s ++ rest) =
        pre ++ 47 :: (chooseBitrate s ++ (rest ++ [])) := by rw [List.append_nil]
    refine modfiyBitrate_eq hnil rfl (strstr_some ?_) hnew.2.1 hhead hroom
    dsimp only
    rw [Scan.cString_of_not_mem hzero', hnew.2.2]

/-! ### The manifest request -/

/-- The parts of a request for a manifest: what is in front of the first `".f4m"`, and what is
behind it. -/
def ManifestRequest (request pre rest : List UInt8) : Prop :=
  request = pre ++ (f4m ++ rest) ∧ Search.find f4m request = some pre.length

/-- The text is the new one, and its length is `send_len`. -/
def Inserts (b : Buffer) (text : List UInt8) : Prop :=
  ∃ b', normalToNolistManifest b = .ok b' ∧ b'.sendBuf = text ∧ b'.sendLen = text.length

/-- The search finds the place in the request. -/
theorem ManifestRequest.strstr {b : Buffer} {request pre rest : List UInt8} (hb : Sends b request)
    (h : ManifestRequest request pre rest) (hzero : 0 ∉ pre) :
    strstr b.sendBuf f4m = .ok (some pre.length) := by
  obtain ⟨⟨more, hbuf⟩, -⟩ := hb
  obtain ⟨rfl, hfind⟩ := h
  refine strstr_some ?_
  have hshort : Search.find f4m (pre ++ f4m) = some pre.length := by
    obtain ⟨-, hfirst⟩ := Search.find_eq_some_iff.1 hfind
    refine Search.find_eq_some_iff.2 ⟨?_, fun j hj hocc => hfirst j hj ?_⟩
    · have hocc := Search.occurs_length_append pre f4m []
      rwa [List.append_nil] at hocc
    · rw [← List.append_assoc]
      exact hocc.append f4m_ne_nil rest
  have hstring : Scan.cString b.sendBuf = pre ++ f4m ++ Scan.cString (rest ++ 0 :: more) := by
    have hnone : 0 ∉ pre ++ f4m := fun h => (List.mem_append.1 h).elim hzero (by decide)
    rw [hbuf, ← List.append_assoc, List.append_assoc, Scan.cString_append_left hnone]
  rw [hstring]
  exact Search.find_append hshort f4m_ne_nil _

/-- A zero in front of the place ends the search. -/
theorem ManifestRequest.strstr_none {b : Buffer} {request pre rest : List UInt8}
    (hb : Sends b request) (h : ManifestRequest request pre rest) (hzero : 0 ∈ pre) :
    P2P.strstr b.sendBuf f4m = .ok none := by
  obtain ⟨⟨more, hbuf⟩, -⟩ := hb
  obtain ⟨rfl, hfind⟩ := h
  obtain ⟨-, tail, htail⟩ := Scan.exists_cString hzero
  have hstring : Scan.cString b.sendBuf = Scan.cString pre := by
    rw [hbuf, List.append_assoc, Scan.cString_append_of_mem hzero]
  rw [strstr_string (by rw [hbuf]; exact List.mem_append_right _ (List.mem_cons_self ..)), hstring]
  refine congrArg Except.ok ((Search.find_eq_none_iff f4m_ne_nil).2 fun j hj => ?_)
  have hle := hj.le f4m_ne_nil
  have hlen := congrArg List.length htail
  rw [List.length_append, List.length_cons] at hlen
  refine (Search.find_eq_some_iff.1 hfind).2 j (by omega) ?_
  rw [htail, List.append_assoc]
  exact hj.append f4m_ne_nil _

theorem sendLen_of_normalToNolistManifest {b b' : Buffer} (h : normalToNolistManifest b = .ok b') :
    b'.sendLen < 2 ^ 31 := by
  rw [normalToNolistManifest] at h
  obtain ⟨found, -, h⟩ := bind_eq_ok.1 h
  cases found with
  | none => exact nomatch h
  | some insertLoc =>
      obtain ⟨newSendBuf, -, h⟩ := bind_eq_ok.1 h
      split at h
      · have hlen := congrArg Buffer.sendLen (Except.ok.inj h)
        dsimp only at hlen
        rw [← hlen]
        exact (i32_range _).2
      · exact nomatch h

/-- **When `"_nolist"` is inserted**: the length of the new request is an `int`, and no zero is in
front of the place. -/
theorem inserts_iff {b : Buffer} {request pre rest : List UInt8} (hb : Sends b request)
    (h : ManifestRequest request pre rest) :
    Inserts b (pre ++ (nolist ++ (f4m ++ rest))) ↔
      (pre ++ (nolist ++ (f4m ++ rest))).length < 2 ^ 31 ∧ 0 ∉ pre := by
  constructor
  · rintro ⟨b', hrun, -, hlen⟩
    have hlt := sendLen_of_normalToNolistManifest hrun
    refine ⟨by omega, fun hzero => ?_⟩
    rw [normalToNolistManifest, h.strstr_none hb hzero] at hrun
    exact nomatch hrun
  · rintro ⟨hroom, hzero⟩
    have hfind := h.strstr hb hzero
    obtain ⟨⟨more, hbuf⟩, hlen⟩ := hb
    obtain ⟨rfl, -⟩ := h
    have hblock : b.sendBuf = pre ++ (f4m ++ rest ++ 0 :: more) := by rw [hbuf, List.append_assoc]
    have hblockLen : b.sendBuf.length =
        pre.length + ((f4m ++ rest).length + (0 :: more).length) := by
      rw [hblock, List.length_append, List.length_append]
    have hnewLen : (pre ++ (nolist ++ (f4m ++ rest))).length =
        pre.length + (nolist.length + (f4m ++ rest).length) := by
      rw [List.length_append, List.length_append]
    rw [hnewLen] at hroom
    rw [List.length_append] at hlen
    have hfirst : i32 pre.length = pre.length := i32_natCast (by omega)
    have hsize : i32 (b.sendLen + nolist.length) =
        (pre.length + nolist.length + (f4m ++ rest).length : ℕ) := by
      rw [i32_of_range (by omega) (by omega)]
      omega
    have hlast : i32 ((pre.length + nolist.length + (f4m ++ rest).length : ℕ) - nolist.length -
        pre.length) = (f4m ++ rest).length := by
      rw [i32_of_range (by omega) (by omega)]
      omega
    have hfirstLe : pre.length ≤ b.sendBuf.length := by omega
    have hlastLe : pre.length + (f4m ++ rest).length ≤ b.sendBuf.length := by omega
    have hparts := splice_eq b.sendBuf nolist hfirstLe hlastLe
    have hhead : b.sendBuf.take pre.length = pre := by rw [hblock, List.take_left]
    have htail : (b.sendBuf.drop pre.length).take (f4m ++ rest).length = f4m ++ rest := by
      rw [hblock, List.drop_left, List.take_left]
    rw [hhead, htail] at hparts
    refine ⟨{ b with
      sendBuf := pre ++ nolist ++ (f4m ++ rest)
      sendLen := (pre.length + nolist.length + (f4m ++ rest).length : ℕ) }, ?_, ?_, ?_⟩
    · rw [normalToNolistManifest, hfind, ok_bind]
      dsimp only
      rw [hsize, hfirst, hlast, hparts, ok_bind, if_pos (by omega)]
      rfl
    · exact List.append_assoc ..
    · dsimp only
      rw [hnewLen, Nat.add_assoc]

/-! ### Both functions -/

/-- Every request with a slash in front of its first `"Seq"` has the parts. -/
theorem exists_fragmentRequest {request : List UInt8} {i : ℕ}
    (hfind : Search.find seqWord request = some i) (hslash : 47 ∈ request.take i) :
    ∃ pre field rest, FragmentRequest request pre field rest := by
  obtain ⟨field, pre, hsplit, hfield⟩ := List.eq_append_cons_of_mem (List.mem_reverse.2 hslash)
  have htake : request.take i = pre.reverse ++ 47 :: field.reverse := by
    rw [← List.reverse_inj, hsplit]
    simp
  have hle := (Search.find_eq_some_iff.1 hfind).1.le seqWord_ne_nil
  have hi : i = pre.reverse.length + 1 + field.reverse.length := by
    have hlen := congrArg List.length htake
    rw [List.length_take, List.length_append, List.length_cons] at hlen
    omega
  refine ⟨pre.reverse, field.reverse, request.drop i, ?_,
    fun h => hfield (List.mem_reverse.1 h), ?_⟩
  · rw [← List.cons_append, ← List.append_assoc, ← htake, List.take_append_drop]
  · rw [hfind, hi]

/-- `"/Seq"`, and `n` characters behind it. -/
def fragment (n : ℕ) : List UInt8 := 47 :: (seqWord ++ List.replicate n 120)

theorem fragmentRequest_fragment (n : ℕ) :
    FragmentRequest (fragment n) [] [] (seqWord ++ List.replicate n 120) :=
  ⟨rfl, List.not_mem_nil, (Search.find_separator (p := []) seqWord_ne_nil (by decide)
    slash_not_mem_seqWord).trans (by rw [Search.find_self]; rfl)⟩

theorem length_fragment (n : ℕ) : (fragment n).length = n + 4 := by
  rw [fragment, List.length_cons, List.length_append, List.length_replicate, Nat.add_comm _ n]
  rfl

theorem zero_not_mem_fragment (n : ℕ) : 0 ∉ fragment n := fun h => by
  rw [fragment, List.mem_cons, List.mem_append] at h
  rcases h with h | h | h
  · exact absurd h (by decide)
  · exact absurd h (by decide)
  · exact absurd (List.eq_of_mem_replicate h) (by decide)

/-- A buffer with the request. -/
def sending (request : List UInt8) : Buffer where
  recvBuf := []
  sendBuf := request ++ [0]
  recvLen := 0
  sendLen := request.length

theorem sends_sending (request : List UInt8) : Sends (sending request) request := ⟨⟨[], rfl⟩, rfl⟩

/-- **When the requests are rewritten**: the length of the new request is an `int`, and a manifest
is named in the string that the request is. -/
theorem rewriting_iff {s : Stream} {b : Buffer} {request : List UInt8} (hb : Sends b request) :
    (0 ∉ request → ∀ pre field rest, FragmentRequest request pre field rest →
        Replaces s b (pre ++ 47 :: (chooseBitrate s ++ rest))) ∧
      (∀ pre rest, ManifestRequest request pre rest →
        Inserts b (pre ++ (nolist ++ (f4m ++ rest)))) ↔
    (0 ∉ request → ∀ pre field rest, FragmentRequest request pre field rest →
        (pre ++ 47 :: (chooseBitrate s ++ rest)).length < 2 ^ 31) ∧
      ∀ pre rest, ManifestRequest request pre rest →
        (pre ++ (nolist ++ (f4m ++ rest))).length < 2 ^ 31 ∧ 0 ∉ pre := by
  refine and_congr ⟨?_, ?_⟩ ⟨?_, ?_⟩
  · intro hreplaces hzero pre field rest h
    exact (replaces_iff hb hzero h).1 (hreplaces hzero pre field rest h)
  · intro hlen hzero pre field rest h
    exact (replaces_iff hb hzero h).2 (hlen hzero pre field rest h)
  · intro hinserts pre rest h
    exact (inserts_iff hb h).1 (hinserts pre rest h)
  · intro hlen pre rest h
    exact (inserts_iff hb h).2 (hlen pre rest h)

/-- The bitrate is put into a short request. -/
theorem rewriting_iff_short : Replaces twoBitrates (sending (fragment 0))
    (47 :: (chooseBitrate twoBitrates ++ seqWord)) := by
  have htext : (chooseBitrate twoBitrates).length = 3 := by
    have hchoice : highestBitrateUnder twoBitrates
        ((i32 (2 * twoBitrates.throughput.tdiv 3)).tdiv 1000) = 500 := by decide
    simp [chooseBitrate, hchoice, sprintfInt, Scan.decimal]
  refine ((rewriting_iff (s := twoBitrates) (sends_sending (fragment 0))).2 ⟨?_, ?_⟩).1
    (by decide) [] [] seqWord (fragmentRequest_fragment 0)
  · intro _ pre field rest h
    have hlen : 4 = _ := congrArg List.length h.1
    simp only [List.length_append, List.length_cons, htext] at hlen ⊢
    omega
  · intro pre rest h
    exact absurd (h.2.symm.trans (by decide : Search.find f4m (fragment 0) = none)) (by simp)

/-- **The request of the greatest length** has no block for its new text. -/
theorem rewriting_overflow :
    (fragment (2 ^ 31 - 5)).length < 2 ^ 31 ∧ 0 ∉ fragment (2 ^ 31 - 5) ∧
      Sends (sending (fragment (2 ^ 31 - 5))) (fragment (2 ^ 31 - 5)) ∧
      ∃ pre field rest, FragmentRequest (fragment (2 ^ 31 - 5)) pre field rest ∧
        ¬ Replaces twoBitrates (sending (fragment (2 ^ 31 - 5)))
          (pre ++ 47 :: (chooseBitrate twoBitrates ++ rest)) := by
  obtain ⟨n, hn⟩ : ∃ n, n = 2 ^ 31 - 5 := ⟨_, rfl⟩
  rw [← hn]
  have hlen : (fragment n).length < 2 ^ 31 := by
    rw [length_fragment]
    omega
  refine ⟨hlen, zero_not_mem_fragment n, sends_sending _, [], [], seqWord ++ List.replicate n 120,
    fragmentRequest_fragment n, ?_⟩
  rw [replaces_iff (sends_sending _) (zero_not_mem_fragment n) (fragmentRequest_fragment n)]
  have hpos : 0 < (chooseBitrate twoBitrates).length :=
    List.length_pos_of_ne_nil (sprintfInt_ne_nil _)
  have hword : seqWord.length = 3 := rfl
  simp only [List.nil_append, List.length_append, List.length_cons, List.length_replicate]
  omega

end P2P
