/-
**Reading lines from the user** (`create_userbuf`, `process_user_input`).

The bytes that `read` returns are put behind those that are already in the buffer, and as long as
`strchr` finds a newline, the line before it is handed over and the rest of the buffer is moved to
its front.  The buffer is searched as a C string, although only `cur` bytes of it are live.  What
lies behind them is what earlier bytes and the moves have left there: where new bytes end just in
front of it, it is read as their continuation.

Main definitions:

* `P2P.UserIobuf`, `P2P.createUserbuf`, `P2P.processUserInput` — the buffer;
* `P2P.UserInput` — the buffer and the lines handed over so far;
* `P2P.UserInput.Framed` — the lines are those of the bytes read so far;
* `P2P.UserIobuf.EndsAfter` — no newline follows the new bytes before the next zero.

Main results:

* `P2P.userInputLoop_holds` — what the loop hands over, and what it leaves;
* `P2P.UserInput.framed_step_iff` — when a call keeps the framing;
* `P2P.input_framed_iff` — **the lines are right exactly as long as no call reads on into old
  bytes**;
* `P2P.input_framed_of_small` — so they are as long as at most 4096 bytes are in the buffer.
-/

import P2PFileTransfer.Block
import P2PFileTransfer.Framing
import P2PFileTransfer.Machine
import P2PFileTransfer.Scan

set_option relaxedAutoImplicit false
set_option autoImplicit false

namespace P2P

open Framing (lines rest Short)

/-! ### The buffer -/

/-- `USERBUF_SIZE`: the buffer has one byte more. -/
def userbufSize : ℕ := 8191

/-- `'\n'`. -/
def newline : UInt8 := 10

/-- `struct user_iobuf`. -/
structure UserIobuf where
  buf : Vector UInt8 (userbufSize + 1)
  cur : UInt32

/-- `create_userbuf`, where `malloc` succeeds. -/
def createUserbuf : UserIobuf := ⟨Vector.replicate (userbufSize + 1) 0, 0⟩

/-- A call of `handle_line`: the line, and `cur` at that time. -/
structure HandleLine where
  line : List UInt8
  cur : UInt32

/-- The message of the exit. -/
def bufferFull : String := "process_user_input error:  buffer full;  line too long!\n"

namespace UserIobuf

/-- `strchr(userbuf->buf, '\n')`, as an offset. -/
def strchr (b : UserIobuf) : Option ℕ := (Scan.cString b.buf.toList).idxOf? newline

/-- `*ret = '\0'`. -/
def cut (b : UserIobuf) (ret : ℕ) : UserIobuf := { b with buf := Block.blit b.buf ret [0] }

/-- The `memmove`, and the `cur` after it. -/
def shift (b : UserIobuf) (ret : ℕ) : UserIobuf :=
  { b with
    buf := Block.blit b.buf 0 (Block.slice b.buf (ret + 1) (userbufSize - ret))
    cur := b.cur - UInt32.ofNat (ret + 1) }

/-- `read(fd, userbuf->buf + userbuf->cur, ...)`, when it returns `data`. -/
def read (b : UserIobuf) (data : List UInt8) : UserIobuf :=
  { b with
    buf := Block.blit b.buf b.cur.toNat data
    cur := b.cur + UInt32.ofNat data.length }

@[simp] theorem cur_cut (b : UserIobuf) (ret : ℕ) : (b.cut ret).cur = b.cur := by
  cases b
  rfl

@[simp] theorem cur_shift (b : UserIobuf) (ret : ℕ) :
    (b.shift ret).cur = b.cur - UInt32.ofNat (ret + 1) := by
  cases b
  rfl

@[simp] theorem cur_read (b : UserIobuf) (data : List UInt8) :
    (b.read data).cur = b.cur + UInt32.ofNat data.length := by
  cases b
  rfl

end UserIobuf

/-- The loop of `process_user_input`. -/
def userInputLoop : ℕ → UserIobuf → List HandleLine × UserIobuf
  | 0, b => ([], b)
  | fuel + 1, b =>
      match b.strchr with
      | none => ([], b)
      | some ret =>
          let next := userInputLoop fuel ((b.cut ret).shift ret)
          (⟨Scan.cString (b.cut ret).buf.toList, b.cur⟩ :: next.1, next.2)

/-- `process_user_input`, when `read` returns `data`, the empty list where it fails or is at the end
of the file.  Every pass of the loop shortens the string in the buffer. -/
def processUserInput (b : UserIobuf) (data : List UInt8) :
    Except String (List HandleLine × UserIobuf) :=
  if userbufSize - 1 ≤ b.cur.toNat then .error bufferFull
  else .ok (userInputLoop (userbufSize + 1) (b.read data))

/-! ### The string in the buffer -/

/-- The buffer, as a C string, is the text. -/
structure UserIobuf.Holds (b : UserIobuf) (text : List UInt8) : Prop where
  nul : 0 ∉ text
  eq : ∃ more, b.buf.toList = text ++ 0 :: more

section Holds

variable {b : UserIobuf} {text line : List UInt8}

theorem UserIobuf.Holds.cString (h : b.Holds text) : Scan.cString b.buf.toList = text := by
  obtain ⟨more, heq⟩ := h.eq
  rw [heq, Scan.cString_append h.nul]

theorem UserIobuf.Holds.strchr_eq_none (h : b.Holds text) (hne : newline ∉ text) :
    b.strchr = none := by
  rw [UserIobuf.strchr, h.cString, List.idxOf?_eq_none_iff]
  exact hne

theorem UserIobuf.Holds.strchr_line (h : b.Holds (line ++ newline :: text))
    (hne : newline ∉ line) : b.strchr = some line.length := by
  rw [UserIobuf.strchr, h.cString, List.idxOf?_eq_some_iff]
  refine ⟨by rw [List.length_append, List.length_cons]; omega, ?_, fun j hj heq => ?_⟩
  · rw [List.getElem_append_right (Nat.le_refl _)]
    simp only [Nat.sub_self, List.getElem_cons_zero]
  · rw [List.getElem_append_left hj] at heq
    exact hne (heq ▸ List.getElem_mem hj)

theorem UserIobuf.Holds.length_lt (h : b.Holds text) : text.length < userbufSize + 1 := by
  obtain ⟨more, heq⟩ := h.eq
  have hlen := congrArg List.length heq
  rw [Vector.length_toList, List.length_append, List.length_cons] at hlen
  omega

/-- The line is cut off at its newline. -/
theorem toList_cut {more : List UInt8} {ch : UInt8} (h : b.buf.toList = line ++ ch :: more) :
    (b.cut line.length).buf.toList = line ++ 0 :: more := by
  have hlen := congrArg List.length h
  rw [Vector.length_toList, List.length_append, List.length_cons] at hlen
  rw [UserIobuf.cut, Block.toList_blit _ (by rw [List.length_singleton]; omega), h,
    List.take_left, List.length_singleton, List.drop_append, List.drop_of_length_le (by omega),
    Nat.add_sub_cancel_left, List.drop_one, List.tail_cons, List.nil_append,
    List.singleton_append]

/-- **The shift** brings the bytes behind the line to the front, and leaves the last ones where they
were. -/
theorem toList_shift {more : List UInt8} (h : b.buf.toList = line ++ 0 :: more) :
    (b.shift line.length).buf.toList =
      more ++ (line ++ 0 :: more).drop (userbufSize - line.length) := by
  have hlen := congrArg List.length h
  rw [Vector.length_toList, List.length_append, List.length_cons] at hlen
  have hslice : Block.slice b.buf (line.length + 1) (userbufSize - line.length) = more := by
    rw [Block.slice, h, List.drop_append, List.drop_of_length_le (by omega),
      Nat.add_sub_cancel_left, List.drop_one, List.tail_cons, List.nil_append,
      List.take_of_length_le (by omega)]
  have hmore : more.length = userbufSize - line.length := by omega
  rw [UserIobuf.shift, hslice, Block.toList_blit_zero _ (by omega), h, hmore]

/-- What is left of the string is in the buffer after the shift. -/
theorem UserIobuf.Holds.shift (h : b.Holds (line ++ newline :: text)) :
    ((b.cut line.length).shift line.length).Holds text := by
  obtain ⟨more, heq⟩ := h.eq
  rw [List.append_assoc, List.cons_append] at heq
  refine ⟨fun hmem => h.nul (List.mem_append_right _ (List.mem_cons_of_mem _ hmem)), ?_⟩
  rw [toList_shift (toList_cut heq), List.append_assoc, List.cons_append]
  exact ⟨_, rfl⟩

/-- One pass of the loop. -/
theorem UserIobuf.Holds.loop_line (h : b.Holds (line ++ newline :: text)) (hne : newline ∉ line)
    (fuel : ℕ) : userInputLoop (fuel + 1) b =
      (⟨line, b.cur⟩ :: (userInputLoop fuel ((b.cut line.length).shift line.length)).1,
        (userInputLoop fuel ((b.cut line.length).shift line.length)).2) := by
  obtain ⟨more, heq⟩ := h.eq
  rw [List.append_assoc, List.cons_append] at heq
  rw [userInputLoop, h.strchr_line hne]
  simp only [toList_cut heq]
  rw [Scan.cString_append fun hmem => h.nul (List.mem_append_left _ hmem)]

theorem UserIobuf.Holds.loop_end (h : b.Holds text) (hne : newline ∉ text) (fuel : ℕ) :
    userInputLoop fuel b = ([], b) := by
  cases fuel with
  | zero => rfl
  | succ fuel => rw [userInputLoop, h.strchr_eq_none hne]

/-- **What the loop hands over, and what it leaves**: the lines of the string in the buffer, and
what follows the last of them. -/
theorem userInputLoop_holds {fuel : ℕ} (h : b.Holds text) (hfuel : text.length < fuel) :
    (userInputLoop fuel b).1.map HandleLine.line = lines newline text ∧
      (userInputLoop fuel b).2.Holds (rest newline text) := by
  induction text using Framing.line_induction generalizing fuel b with
  | hrest text hne =>
      rw [h.loop_end hne, Framing.lines_of_not_mem hne, Framing.rest_of_not_mem hne]
      exact ⟨rfl, h⟩
  | hline line text hne ih =>
      rw [List.length_append, List.length_cons] at hfuel
      obtain ⟨fuel, rfl⟩ := Nat.exists_eq_succ_of_ne_zero (Nat.ne_zero_of_lt hfuel)
      obtain ⟨hlines, hrest⟩ := ih h.shift (show text.length < fuel by omega)
      rw [h.loop_line hne, Framing.lines_cons_line hne, Framing.rest_cons_line hne, List.map_cons,
        hlines]
      exact ⟨rfl, hrest⟩

/-- **`cur` in the loop**, where the live bytes of the string have all its newlines: it stays
ahead of every line, and ends at what follows the last one. -/
theorem userInputLoop_cur {fuel : ℕ} {live : List UInt8} (h : b.Holds (live ++ text))
    (hne : newline ∉ text) (hcur : b.cur.toNat = live.length)
    (hfuel : (live ++ text).length < fuel) :
    (∀ call ∈ (userInputLoop fuel b).1, call.line.length < call.cur.toNat) ∧
      (userInputLoop fuel b).2.cur.toNat = (rest newline live).length := by
  induction live using Framing.line_induction generalizing fuel b with
  | hrest live hlive =>
      have hno : newline ∉ live ++ text := by
        rw [List.mem_append, not_or]
        exact ⟨hlive, hne⟩
      rw [h.loop_end hno, Framing.rest_of_not_mem hlive]
      exact ⟨fun call hcall => absurd hcall List.not_mem_nil, hcur⟩
  | hline line live hline ih =>
      rw [List.append_assoc, List.cons_append] at h hfuel
      rw [List.length_append, List.length_cons] at hcur hfuel
      obtain ⟨fuel, rfl⟩ := Nat.exists_eq_succ_of_ne_zero (Nat.ne_zero_of_lt hfuel)
      have hlt := b.cur.toNat_lt
      have hnat : (UInt32.ofNat (line.length + 1)).toNat = line.length + 1 := by
        rw [UInt32.toNat_ofNat', Nat.mod_eq_of_lt (by omega)]
      have hcur' : ((b.cut line.length).shift line.length).cur.toNat = live.length := by
        rw [UserIobuf.cur_shift, UserIobuf.cur_cut,
          UInt32.toNat_sub_of_le _ _ (by rw [UInt32.le_iff_toNat_le]; omega), hnat]
        omega
      obtain ⟨hahead, hend⟩ := ih h.shift hcur' (show _ < fuel by omega)
      rw [h.loop_line hline, Framing.rest_cons_line hline]
      refine ⟨fun call hcall => ?_, hend⟩
      rcases List.mem_cons.1 hcall with rfl | hcall
      · show line.length < b.cur.toNat
        omega
      · exact hahead call hcall

end Holds

/-! ### The last byte -/

/-- The last byte of the buffer is zero: `read` never gets it, and a shift copies it. -/
def UserIobuf.Terminated (b : UserIobuf) : Prop := b.buf.toList.getLast? = some 0

section Terminated

variable {b : UserIobuf}

theorem terminated_createUserbuf : createUserbuf.Terminated := by
  rw [UserIobuf.Terminated, createUserbuf, Vector.toList_replicate, List.getLast?_replicate]
  rfl

/-- What is in the buffer from some offset on has a zero. -/
theorem UserIobuf.Terminated.mem_drop (h : b.Terminated) {k : ℕ} (hk : k ≤ userbufSize) :
    0 ∈ b.buf.toList.drop k := by
  refine List.mem_of_getLast? ?_
  rw [List.getLast?_drop, if_neg (by rw [Vector.length_toList]; omega)]
  exact h

theorem UserIobuf.Terminated.read (h : b.Terminated) {data : List UInt8}
    (hfits : b.cur.toNat + data.length ≤ userbufSize) : (b.read data).Terminated := by
  have hmem := h.mem_drop hfits
  rw [UserIobuf.Terminated, UserIobuf.read, Block.toList_blit _ (by omega), List.getLast?_append,
    List.getLast?_append, List.getLast?_drop, if_neg (by rw [Vector.length_toList]; omega)]
  rw [show b.buf.toList.getLast? = some 0 from h]
  rfl

/-- A pass of the loop leaves the last byte zero. -/
theorem UserIobuf.Terminated.shift {line : List UInt8} {ch : UInt8} (h : b.Terminated)
    {more : List UInt8} (heq : b.buf.toList = line ++ ch :: more) (hne : more ≠ []) :
    ((b.cut line.length).shift line.length).Terminated := by
  have hlen := congrArg List.length heq
  rw [Vector.length_toList, List.length_append, List.length_cons] at hlen
  obtain rfl | ⟨init, last, rfl⟩ := List.eq_nil_or_concat' more
  · exact absurd rfl hne
  have hlast : last = 0 := by
    rw [UserIobuf.Terminated, heq, ← List.cons_append, ← List.append_assoc,
      List.getLast?_concat] at h
    exact Option.some.inj h
  rw [UserIobuf.Terminated, toList_shift (toList_cut heq), List.getLast?_append,
    List.getLast?_drop, if_neg, ← List.cons_append, ← List.append_assoc, List.getLast?_concat,
    hlast]
  · rfl
  · rw [List.length_append, List.length_cons]
    omega

theorem userInputLoop_terminated (fuel : ℕ) {text : List UInt8} (h : b.Holds text)
    (hlast : b.Terminated) : (userInputLoop fuel b).2.Terminated := by
  induction text using Framing.line_induction generalizing fuel b with
  | hrest text hne =>
      rw [h.loop_end hne]
      exact hlast
  | hline line text hne ih =>
      cases fuel with
      | zero => exact hlast
      | succ fuel =>
          obtain ⟨more, heq⟩ := h.eq
          rw [List.append_assoc, List.cons_append] at heq
          rw [h.loop_line hne]
          exact ih fuel h.shift
            (hlast.shift heq (List.append_ne_nil_of_right_ne_nil _ (List.cons_ne_nil _ _)))

end Terminated

/-! ### Call after call -/

/-- The buffer, and the calls of `handle_line` so far. -/
structure UserInput where
  userbuf : UserIobuf
  handled : List HandleLine

namespace UserInput

/-- A buffer from `create_userbuf`. -/
def start : UserInput := ⟨createUserbuf, []⟩

/-- A call of `process_user_input` in which `read` returns `data`. -/
def step (s : UserInput) (data : List UInt8) : Except String UserInput :=
  match processUserInput s.userbuf data with
  | .error x => .error x
  | .ok (calls, userbuf) => .ok ⟨userbuf, s.handled ++ calls⟩

/-- `read` may return `data`: something, and no more than it was asked for. -/
def ReadReturns (s : UserInput) (data : List UInt8) : Prop :=
  data ≠ [] ∧
    (s.userbuf.cur.toNat < userbufSize - 1 → data.length ≤ userbufSize - s.userbuf.cur.toNat)

/-- **The lines are those of the bytes read so far**, each handed over once and when it was in the
buffer, and `cur` counts the bytes after the last of them. -/
structure Framed (s : UserInput) (bytes : List UInt8) : Prop where
  handled : s.handled.map HandleLine.line = lines newline bytes
  cur : s.userbuf.cur.toNat = (rest newline bytes).length
  ahead : ∀ call ∈ s.handled, call.line.length < call.cur.toNat

/-- The live bytes are those after the last line, and the buffer ends with a zero. -/
structure Live (s : UserInput) (bytes : List UInt8) : Prop where
  last : s.userbuf.Terminated
  live : s.userbuf.buf.toList.take s.userbuf.cur.toNat = rest newline bytes

end UserInput

/-- What `data` comes to lie in front of has no newline before its next zero. -/
def UserIobuf.EndsAfter (b : UserIobuf) (data : List UInt8) : Prop :=
  newline ∉ Scan.cString (b.buf.toList.drop (b.cur.toNat + data.length))

namespace UserInput

variable {s t : UserInput} {bytes data : List UInt8}

theorem framed_start : start.Framed [] := by
  refine ⟨?_, ?_, fun call hcall => absurd hcall List.not_mem_nil⟩
  · rw [Framing.lines_of_not_mem List.not_mem_nil]
    rfl
  · rw [Framing.rest_of_not_mem List.not_mem_nil]
    rfl

theorem live_start : start.Live [] := by
  refine ⟨terminated_createUserbuf, ?_⟩
  rw [Framing.rest_of_not_mem List.not_mem_nil]
  exact List.take_zero

/-- The string in the buffer after `read`: the live bytes, the new ones, and what lies behind
them. -/
theorem Live.holds_read (h : s.Live bytes)
    (hcur : s.userbuf.cur.toNat = (rest newline bytes).length) (hnul : 0 ∉ bytes ++ data)
    (hfits : s.userbuf.cur.toNat + data.length ≤ userbufSize) :
    (s.userbuf.read data).Holds (rest newline bytes ++ data ++
      Scan.cString (s.userbuf.buf.toList.drop (s.userbuf.cur.toNat + data.length))) := by
  obtain ⟨htail, more, hmore⟩ := Scan.exists_cString (h.last.mem_drop hfits)
  rw [List.mem_append, not_or] at hnul
  refine ⟨?_, more, ?_⟩
  · rw [List.mem_append, List.mem_append, not_or, not_or]
    exact ⟨⟨fun hmem => hnul.1 ((Framing.rest_suffix bytes).subset hmem), hnul.2⟩, htail⟩
  · rw [UserIobuf.read, Block.toList_blit _ (by omega), h.live, List.append_assoc,
      List.append_assoc, ← hmore]

theorem ReadReturns.fits (h : s.ReadReturns data) (hlt : s.userbuf.cur.toNat < userbufSize - 1) :
    s.userbuf.cur.toNat + data.length ≤ userbufSize := by
  have hle := h.2 hlt
  omega

/-- **A call that finds room in the buffer**: it hands over the lines of the string in the buffer,
the one that goes on behind the new bytes, and leaves the rest of it. -/
theorem Live.exists_step (hlive : s.Live bytes) (h : s.Framed bytes) (hnul : 0 ∉ bytes ++ data)
    (hlt : s.userbuf.cur.toNat < userbufSize - 1) (hread : s.ReadReturns data)
    {tail : List UInt8} (htail : tail =
      Scan.cString (s.userbuf.buf.toList.drop (s.userbuf.cur.toNat + data.length))) :
    ∃ calls b, s.step data = .ok ⟨b, s.handled ++ calls⟩ ∧ b.Terminated ∧
      calls.map HandleLine.line = lines newline (rest newline bytes ++ data ++ tail) ∧
      b.Holds (rest newline (rest newline bytes ++ data ++ tail)) ∧
      (newline ∉ tail → (∀ call ∈ calls, call.line.length < call.cur.toNat) ∧
        b.cur.toNat = (rest newline (rest newline bytes ++ data)).length) := by
  have hfits := hread.fits hlt
  have hholds := hlive.holds_read h.cur hnul hfits
  rw [← htail] at hholds
  have hcur : (s.userbuf.read data).cur.toNat = (rest newline bytes ++ data).length := by
    rw [UserIobuf.cur_read, UInt32.toNat_add, UInt32.toNat_ofNat', List.length_append, ← h.cur]
    rw [userbufSize] at hfits
    omega
  obtain ⟨hlines, hrest⟩ := userInputLoop_holds hholds hholds.length_lt
  have hlast := userInputLoop_terminated (userbufSize + 1) hholds (hlive.last.read hfits)
  have hahead : newline ∉ tail → _ :=
    fun hne => userInputLoop_cur hholds hne hcur hholds.length_lt
  rw [step, processUserInput, if_neg (Nat.not_le.2 hlt)]
  generalize userInputLoop (userbufSize + 1) (s.userbuf.read data) = next at *
  obtain ⟨calls, b⟩ := next
  exact ⟨calls, b, rfl, hlast, hlines, hrest, hahead⟩

/-- What a call leaves in the buffer where the lines end in the new bytes. -/
theorem Live.step (hlive : s.Live bytes) (h : s.Framed bytes) (hnul : 0 ∉ bytes ++ data)
    (hlt : s.userbuf.cur.toNat < userbufSize - 1) (hread : s.ReadReturns data)
    (hends : s.userbuf.EndsAfter data) :
    ∃ t, s.step data = .ok t ∧ t.Framed (bytes ++ data) ∧ t.Live (bytes ++ data) := by
  obtain ⟨calls, b, hstep, hlast, hlines, hrest, hahead⟩ :=
    hlive.exists_step h hnul hlt hread rfl
  obtain ⟨hahead, hend⟩ := hahead hends
  rw [Framing.lines_append_eq_iff.2 hends] at hlines
  rw [Framing.rest_append_of_not_mem hends, ← Framing.rest_append] at hrest
  rw [← Framing.rest_append] at hend
  refine ⟨_, hstep, ⟨?_, hend, fun call hcall => ?_⟩, hlast, ?_⟩
  · rw [List.map_append, h.handled, hlines, ← Framing.lines_append]
  · rcases List.mem_append.1 hcall with hcall | hcall
    · exact h.ahead call hcall
    · exact hahead call hcall
  · obtain ⟨more, hmore⟩ := hrest.eq
    rw [hend, hmore, List.append_assoc, List.take_left]

/-- **When a call keeps the framing**: it does precisely if no newline follows the new bytes in the
buffer before the next zero. -/
theorem framed_step_iff (hlive : s.Live bytes) (h : s.Framed bytes) (hnul : 0 ∉ bytes ++ data)
    (hlt : s.userbuf.cur.toNat < userbufSize - 1) (hread : s.ReadReturns data) :
    (∃ t, s.step data = .ok t ∧ t.Framed (bytes ++ data)) ↔ s.userbuf.EndsAfter data := by
  constructor
  · rintro ⟨t, ht, hframed⟩
    obtain ⟨calls, b, hstep, -, hlines, -⟩ := hlive.exists_step h hnul hlt hread rfl
    rw [hstep] at ht
    cases ht
    have hhandled := hframed.handled
    rw [List.map_append, h.handled, hlines, Framing.lines_append bytes data,
      List.append_cancel_left_eq, Framing.lines_append_eq_iff] at hhandled
    exact hhandled
  · intro hends
    obtain ⟨t, ht, hframed, -⟩ := hlive.step h hnul hlt hread hends
    exact ⟨t, ht, hframed⟩

/-- **The framing along a run.** -/
theorem framed_iff_along {pieces : List (List UInt8)} (hnul : 0 ∉ pieces.flatten)
    (hshort : Short newline (userbufSize - 1) pieces.flatten)
    (hread : Machine.Along step ReadReturns start pieces) :
    (∀ pre, pre <+: pieces → ∃ s, Machine.run step start pre = .ok s ∧ s.Framed pre.flatten) ↔
      Machine.Along step (fun s data => s.userbuf.EndsAfter data) start pieces := by
  -- what the bytes before and in a call have of the whole stream
  have hpiece : ∀ {pre data}, pre ++ [data] <+: pieces → 0 ∉ pre.flatten ++ data ∧
      Short newline (userbufSize - 1) pre.flatten := by
    rintro pre data ⟨post, rfl⟩
    rw [List.append_assoc, List.flatten_append] at hshort
    rw [List.flatten_append, List.flatten_concat, List.mem_append, not_or] at hnul
    exact ⟨hnul.1, hshort.of_append⟩
  refine Machine.along_iff_prefix (I := fun pre s => s.Live pre.flatten)
    (P := fun pre s => s.Framed pre.flatten) live_start framed_start ?_ ?_ hread
  · intro pre s data hpre hlive h hread
    obtain ⟨hnul, hshort⟩ := hpiece hpre
    rw [List.flatten_concat]
    exact framed_step_iff hlive h hnul (by rw [h.cur]; exact hshort.2) hread
  · intro pre s data t hpre hlive h hread ht hframed
    obtain ⟨hnul, hshort⟩ := hpiece hpre
    have hlt : s.userbuf.cur.toNat < userbufSize - 1 := by
      rw [h.cur]
      exact hshort.2
    rw [List.flatten_concat] at hframed ⊢
    have hends := (framed_step_iff hlive h hnul hlt hread).1 ⟨t, ht, hframed⟩
    obtain ⟨u, hu, -, hlive'⟩ := hlive.step h hnul hlt hread hends
    rw [ht] at hu
    cases hu
    exact hlive'

end UserInput

/-! ### A buffer that is at most half full -/

/-- Behind the live bytes there are only zeros. -/
def UserIobuf.Padded (b : UserIobuf) (live : List UInt8) : Prop :=
  ∃ k, b.buf.toList = live ++ List.replicate k 0

section Padded

variable {b : UserIobuf} {live : List UInt8}

theorem UserIobuf.Padded.holds (h : b.Padded live) (hnul : 0 ∉ live)
    (hlen : live.length ≤ userbufSize) : b.Holds live := by
  obtain ⟨k, heq⟩ := h
  have hlength := congrArg List.length heq
  rw [Vector.length_toList, List.length_append, List.length_replicate] at hlength
  obtain ⟨k, rfl⟩ := Nat.exists_eq_succ_of_ne_zero (n := k) (by omega)
  exact ⟨hnul, List.replicate k 0, heq⟩

/-- The new bytes are live. -/
theorem UserIobuf.Padded.read (h : b.Padded live) (hcur : b.cur.toNat = live.length)
    {data : List UInt8} (hfits : live.length + data.length ≤ userbufSize) :
    (b.read data).Padded (live ++ data) := by
  obtain ⟨k, heq⟩ := h
  refine ⟨k - data.length, ?_⟩
  rw [UserIobuf.read, Block.toList_blit _ (by omega), hcur, heq, List.take_left, ← List.drop_drop,
    List.drop_left, List.drop_replicate, List.append_assoc]

/-- A shift brings only zeros from behind the live bytes. -/
theorem UserIobuf.Padded.shift {line : List UInt8} (h : b.Padded (line ++ newline :: live))
    (hlen : (line ++ newline :: live).length ≤ 4096) :
    ((b.cut line.length).shift line.length).Padded live := by
  obtain ⟨k, heq⟩ := h
  rw [List.append_assoc, List.cons_append] at heq
  rw [List.length_append, List.length_cons] at hlen
  have hfar : (line ++ 0 :: live).length ≤ userbufSize - line.length := by
    rw [List.length_append, List.length_cons, userbufSize]
    omega
  refine ⟨k + (k - (userbufSize - line.length - (line ++ 0 :: live).length)), ?_⟩
  rw [toList_shift (toList_cut heq), ← List.cons_append, ← List.append_assoc line, List.drop_append,
    List.drop_of_length_le hfar, List.nil_append, List.drop_replicate, List.append_assoc,
    List.replicate_append_replicate]

theorem UserIobuf.Padded.loop {fuel : ℕ} (h : b.Padded live) (hnul : 0 ∉ live)
    (hlen : live.length ≤ 4096) (hfuel : live.length < fuel) :
    (userInputLoop fuel b).2.Padded (rest newline live) := by
  induction live using Framing.line_induction generalizing fuel b with
  | hrest live hne =>
      rw [(h.holds hnul (by rw [userbufSize]; omega)).loop_end hne, Framing.rest_of_not_mem hne]
      exact h
  | hline line live hne ih =>
      have hholds := h.holds hnul (by rw [userbufSize]; omega)
      have hshift := h.shift hlen
      rw [List.length_append, List.length_cons] at hlen hfuel
      obtain ⟨fuel, rfl⟩ := Nat.exists_eq_succ_of_ne_zero (Nat.ne_zero_of_lt hfuel)
      rw [hholds.loop_line hne, Framing.rest_cons_line hne]
      exact ih hshift (fun hmem => hnul (List.mem_append_right _ (List.mem_cons_of_mem _ hmem)))
        (by omega) (by omega)

/-- The first zero is just behind the live bytes. -/
theorem UserIobuf.Padded.endsAfter (h : b.Padded live) {data : List UInt8}
    (hcur : b.cur.toNat = live.length) : b.EndsAfter data := by
  obtain ⟨k, heq⟩ := h
  intro hmem
  rw [heq, hcur, ← List.drop_drop, List.drop_left, List.drop_replicate] at hmem
  exact absurd (List.eq_of_mem_replicate (List.takeWhile_subset _ hmem)) (by decide)

end Padded

/-- A fresh buffer is clean. -/
theorem UserInput.padded_start : UserInput.start.userbuf.Padded (rest newline []) := by
  rw [Framing.rest_of_not_mem List.not_mem_nil]
  exact ⟨userbufSize + 1, Vector.toList_replicate⟩

/-- A call with at most 4096 bytes in the buffer. -/
theorem UserInput.step_padded {s t : UserInput} {bytes data : List UInt8}
    (hpad : s.userbuf.Padded (rest newline bytes)) (h : s.Framed bytes)
    (hnul : 0 ∉ bytes ++ data) (hsmall : s.userbuf.cur.toNat + data.length ≤ 4096)
    (ht : s.step data = .ok t) : t.userbuf.Padded (rest newline (bytes ++ data)) := by
  rw [h.cur] at hsmall
  have hnul' : 0 ∉ rest newline bytes ++ data := by
    rw [List.mem_append, not_or] at hnul ⊢
    exact ⟨fun hmem => hnul.1 ((Framing.rest_suffix bytes).subset hmem), hnul.2⟩
  have hfull : (rest newline bytes ++ data).length ≤ 4096 := by
    rw [List.length_append]
    exact hsmall
  have hread : (s.userbuf.read data).Padded (rest newline bytes ++ data) :=
    hpad.read h.cur (by rw [userbufSize]; omega)
  have hloop : (userInputLoop (userbufSize + 1) (s.userbuf.read data)).2.Padded _ :=
    hread.loop hnul' hfull (by rw [userbufSize]; omega)
  rw [← Framing.rest_append] at hloop
  rw [UserInput.step, processUserInput, if_neg (by rw [h.cur, userbufSize]; omega)] at ht
  generalize userInputLoop (userbufSize + 1) (s.userbuf.read data) = next at *
  obtain ⟨calls, b⟩ := next
  cases ht
  exact hloop

/-- A call with little in the buffer finds room, and keeps the framing. -/
theorem UserInput.step_small {s : UserInput} {bytes data : List UInt8} (hlive : s.Live bytes)
    (hpad : s.userbuf.Padded (rest newline bytes)) (h : s.Framed bytes) (hnul : 0 ∉ bytes ++ data)
    (hne : data ≠ []) (hsmall : s.userbuf.cur.toNat + data.length ≤ 4096) :
    ∃ t, s.step data = .ok t ∧ t.Framed (bytes ++ data) ∧ t.Live (bytes ++ data) ∧
      t.userbuf.Padded (rest newline (bytes ++ data)) := by
  have hlt : s.userbuf.cur.toNat < userbufSize - 1 := by
    rw [userbufSize]
    omega
  have hread : s.ReadReturns data := by
    refine ⟨hne, fun _ => ?_⟩
    rw [userbufSize]
    omega
  obtain ⟨t, ht, hframed, hlive'⟩ := hlive.step h hnul hlt hread (hpad.endsAfter h.cur)
  exact ⟨t, ht, hframed, hlive', UserInput.step_padded hpad h hnul hsmall ht⟩

/-! ### When the lines are right -/

/-- **When the lines are right.**  For every stream without a zero in which no line reaches 8190
bytes, however `read` splits it: after every call, the lines handed over are those of the bytes read
so far, each was in the buffer in full, `cur` counts the bytes after the last of them, and the next
call finds room in the buffer, precisely if in every call no newline follows the new bytes in the
buffer before the next zero. -/
theorem input_framed_iff (pieces : List (List UInt8)) (hnul : 0 ∉ pieces.flatten)
    (hshort : Short newline (userbufSize - 1) pieces.flatten)
    (hread : Machine.Along UserInput.step UserInput.ReadReturns UserInput.start pieces) :
    (∀ pre, pre <+: pieces →
        ∃ s, Machine.run UserInput.step UserInput.start pre = .ok s ∧ s.Framed pre.flatten) ↔
      Machine.Along UserInput.step (fun s data => s.userbuf.EndsAfter data) UserInput.start
        pieces :=
  UserInput.framed_iff_along hnul hshort hread

/-- Two lines, the second one in two pieces. -/
theorem input_framed_iff_twice : ∃ s,
    Machine.run UserInput.step UserInput.start [[71, 10, 72], [73, 10]] = .ok s ∧
      s.Framed [71, 10, 72, 73, 10] := by
  have hshort : Short newline (userbufSize - 1) [71, 10, 72, 73, 10] := by
    have hone : newline ∉ [(71 : UInt8)] := by decide
    have htwo : newline ∉ [(72 : UInt8), 73] := by decide
    have hlines : lines newline [71, 10, 72, 73, 10] = [[71], [72, 73]] :=
      (Framing.lines_cons_line hone [72, 73, 10]).trans (congrArg _
        ((Framing.lines_cons_line htwo []).trans
          (congrArg _ (Framing.lines_of_not_mem List.not_mem_nil))))
    have hrest : rest newline [71, 10, 72, 73, 10] = [] :=
      (Framing.rest_cons_line hone [72, 73, 10]).trans
        ((Framing.rest_cons_line htwo []).trans (Framing.rest_of_not_mem List.not_mem_nil))
    rw [Framing.Short, hlines, hrest]
    exact ⟨by decide, by decide⟩
  -- the state between the two calls
  obtain ⟨t, ht, hframed, -, hpad⟩ := UserInput.step_small UserInput.live_start
    UserInput.padded_start UserInput.framed_start (by decide : (0 : UInt8) ∉ [] ++ [71, 10, 72])
    (List.cons_ne_nil _ _) (by decide)
  have hstate : ∀ u, UserInput.start.step [71, 10, 72] = .ok u → u = t := by
    intro u hu
    exact Except.ok.inj (hu.symm.trans ht)
  refine (input_framed_iff [[71, 10, 72], [73, 10]] (by decide) hshort
    ⟨⟨List.cons_ne_nil _ _, fun _ => by decide⟩, fun u _ =>
      ⟨⟨List.cons_ne_nil _ _, fun hlt => ?_⟩, fun _ _ => trivial⟩⟩).2
    ⟨UserInput.padded_start.endsAfter UserInput.framed_start.cur, fun u hu =>
      ⟨?_, fun _ _ => trivial⟩⟩ _ (List.prefix_refl _)
  · show 2 ≤ userbufSize - u.userbuf.cur.toNat
    omega
  · rw [hstate u hu]
    exact hpad.endsAfter hframed.cur

/-- **As long as at most 4096 bytes are in the buffer, the lines are right**: a line is then moved
over by its own length from behind the bytes that were in use, where there are zeros. -/
theorem input_framed_of_small (pieces : List (List UInt8)) (hnul : 0 ∉ pieces.flatten)
    (hread : Machine.Along UserInput.step
      (fun s data => data ≠ [] ∧ s.userbuf.cur.toNat + data.length ≤ 4096) UserInput.start pieces) :
    ∀ pre, pre <+: pieces →
      ∃ s, Machine.run UserInput.step UserInput.start pre = .ok s ∧ s.Framed pre.flatten := by
  have hpiece : ∀ {pre data}, pre ++ [data] <+: pieces → 0 ∉ pre.flatten ++ data := by
    rintro pre data ⟨post, rfl⟩
    rw [List.flatten_append, List.flatten_concat, List.mem_append, not_or] at hnul
    exact hnul.1
  refine (Machine.along_iff_prefix (g := fun _ _ => True)
    (I := fun pre s => s.Live pre.flatten ∧ s.userbuf.Padded (rest newline pre.flatten))
    (P := fun pre s => s.Framed pre.flatten) ⟨UserInput.live_start, UserInput.padded_start⟩
    UserInput.framed_start ?_ ?_ hread).2 (Machine.along_of_forall fun _ _ _ => trivial)
  · intro pre s data hpre hI h hv
    obtain ⟨t, ht, hframed, -⟩ := UserInput.step_small hI.1 hI.2 h (hpiece hpre) hv.1 hv.2
    rw [List.flatten_concat]
    exact iff_of_true ⟨t, ht, hframed⟩ trivial
  · intro pre s data t hpre hI h hv ht _
    obtain ⟨u, hu, -, hlive, hpad⟩ := UserInput.step_small hI.1 hI.2 h (hpiece hpre) hv.1 hv.2
    rw [ht] at hu
    cases hu
    rw [List.flatten_concat]
    exact ⟨hlive, hpad⟩

/-! ### Reading on into old bytes -/

/-- **What two lines leave behind**: the second one is still where it was in the buffer, unless it
was moved over. -/
theorem userInputLoop_two_lines {b : UserIobuf} {line word more : List UInt8}
    (hread : b.buf.toList = line ++ newline :: (word ++ newline :: 0 :: more))
    (hline : newline ∉ line) (hword : newline ∉ word) (hline₀ : 0 ∉ line) (hword₀ : 0 ∉ word) :
    ∃ b', (∀ fuel, (userInputLoop (fuel + 3) b).2 = b') ∧
      b'.cur = b.cur - UInt32.ofNat (line.length + 1) - UInt32.ofNat (word.length + 1) ∧
      ∃ moved, b'.buf.toList =
        0 :: (more ++ (line ++ 0 :: (word ++ newline :: 0 :: more)).drop
          (userbufSize - line.length)) ++ moved := by
  have hholds : b.Holds (line ++ newline :: (word ++ [newline])) := by
    refine ⟨?_, more, ?_⟩
    · simp only [List.mem_append, List.mem_cons, List.not_mem_nil, hline₀, hword₀, false_or,
        or_false, or_self]
      decide
    · rw [hread, List.append_assoc, List.cons_append, List.append_assoc, List.singleton_append]
  have hholds' := hholds.shift.shift
  refine ⟨(((b.cut line.length).shift line.length).cut word.length).shift word.length,
    fun fuel => ?_, ?_, ?_⟩
  · rw [hholds.loop_line hline, hholds.shift.loop_line hword, hholds'.loop_end List.not_mem_nil]
  · rw [UserIobuf.cur_shift, UserIobuf.cur_cut, UserIobuf.cur_shift, UserIobuf.cur_cut]
  · -- the buffer after the first shift, and after the second
    have hshift := toList_shift (toList_cut hread)
    rw [List.append_assoc, List.cons_append] at hshift
    exact ⟨_, toList_shift (toList_cut hshift)⟩

/-- A long line. -/
def longLine : List UInt8 := List.replicate 5000 120

theorem length_longLine : longLine.length = 5000 := List.length_replicate

theorem notMem_longLine {ch : UInt8} (h : ch ≠ 120) : ch ∉ longLine := fun hmem =>
  h (List.eq_of_mem_replicate hmem)

/-- After a long line and a short one in the same piece. -/
theorem step_longLine : ∃ t more, UserInput.start.step (longLine ++ [10, 97, 10]) = .ok t ∧
    t.userbuf.cur = 0 ∧ t.userbuf.buf.toList.drop 4999 = [97, newline] ++ 0 :: more := by
  generalize hb : createUserbuf.read (longLine ++ [10, 97, 10]) = b
  have hlong := length_longLine
  have hread : b.buf.toList =
      longLine ++ newline :: ([97] ++ newline :: 0 :: List.replicate 3188 0) := by
    rw [← hb, UserIobuf.read, Block.toList_blit, createUserbuf, Vector.toList_replicate,
      List.drop_replicate, List.length_append, hlong, List.append_assoc]
    · rfl
    · rw [List.length_append, hlong]
      decide
  have hcur : b.cur = 5003 := by
    rw [← hb, UserIobuf.cur_read, List.length_append, hlong]
    rfl
  obtain ⟨b', hloop, hcur', moved, hlist⟩ := userInputLoop_two_lines hread
    (notMem_longLine (by decide)) (by decide) (notMem_longLine (by decide)) (by decide)
  have hnext : (userInputLoop (userbufSize + 1) b).2 = b' := hloop 8189
  have hroom : ¬ userbufSize - 1 ≤ UserInput.start.userbuf.cur.toNat := by decide
  refine ⟨⟨b', (userInputLoop (userbufSize + 1) b).1⟩, List.replicate 3188 0 ++ moved, ?_, ?_, ?_⟩
  · rw [UserInput.step, processUserInput, if_neg hroom]
    rw [show UserInput.start.userbuf.read (longLine ++ [10, 97, 10]) = b from hb]
    generalize userInputLoop (userbufSize + 1) b = next at *
    obtain ⟨calls, b''⟩ := next
    rw [← hnext]
    rfl
  · rw [hcur', hcur, hlong]
    rfl
  · show b'.buf.toList.drop 4999 = _
    have hlen : (List.replicate 3188 (0 : UInt8)).length = 3188 := List.length_replicate
    -- the place where the long line ended
    have hdrop : ∀ tail : List UInt8, (0 :: (List.replicate 3188 (0 : UInt8) ++
        (longLine ++ 0 :: tail).drop (userbufSize - 5000))).drop 4999 = tail := by
      intro tail
      rw [List.drop_succ_cons, List.drop_append, hlen, List.drop_of_length_le (by omega),
        List.nil_append, List.drop_drop, List.drop_append, hlong, List.drop_of_length_le]
      · rfl
      · rw [hlong, userbufSize]
        omega
    rw [hlist, hlong, List.drop_append_of_le_length, hdrop]
    · rfl
    · rw [List.length_cons, List.length_append, hlen, List.length_drop, List.length_append, hlong,
        List.length_cons, userbufSize]
      omega

/-- The lines are not always right: after a long line and a short one, 4999 bytes of the next line
are handed over with the short line behind them, although it has not ended. -/
theorem input_framed_wrong : ¬ ∀ pieces : List (List UInt8), 0 ∉ pieces.flatten →
    Short newline (userbufSize - 1) pieces.flatten →
    Machine.Along UserInput.step UserInput.ReadReturns UserInput.start pieces →
    ∀ pre, pre <+: pieces →
      ∃ s, Machine.run UserInput.step UserInput.start pre = .ok s ∧ s.Framed pre.flatten := by
  intro h
  have hlate : ∀ {ch : UInt8}, ch ≠ 121 → ch ∉ List.replicate 4999 121 := fun hch hmem =>
    hch (List.eq_of_mem_replicate hmem)
  have hflatten : [longLine ++ [10, 97, 10], List.replicate 4999 121].flatten =
      longLine ++ newline :: ([97] ++ newline :: List.replicate 4999 121) := by
    rw [List.flatten_cons, List.flatten_singleton, List.append_assoc]
    rfl
  have hnul : 0 ∉ [longLine ++ [10, 97, 10], List.replicate 4999 121].flatten := by
    rw [hflatten, List.mem_append, not_or, List.mem_cons, not_or, List.mem_append, not_or]
    exact ⟨notMem_longLine (by decide), by decide, by decide,
      List.not_mem_cons_of_ne_of_not_mem (by decide) (hlate (by decide))⟩
  have hshort : Short newline (userbufSize - 1)
      [longLine ++ [10, 97, 10], List.replicate 4999 121].flatten := by
    rw [hflatten, Framing.Short, Framing.lines_cons_line (notMem_longLine (by decide)),
      Framing.rest_cons_line (notMem_longLine (by decide)),
      Framing.lines_cons_line (by decide), Framing.rest_cons_line (by decide),
      Framing.lines_of_not_mem (hlate (by decide)), Framing.rest_of_not_mem (hlate (by decide)),
      List.length_replicate]
    refine ⟨fun line hline => ?_, by decide⟩
    rcases List.mem_cons.1 hline with rfl | hline
    · rw [length_longLine]
      decide
    · rw [List.mem_singleton.1 hline]
      decide
  obtain ⟨t, more, hstep, hcur, hdrop⟩ := step_longLine
  have hcur₀ : t.userbuf.cur.toNat = 0 := congrArg UInt32.toNat hcur
  have hread : Machine.Along UserInput.step UserInput.ReadReturns UserInput.start
      [longLine ++ [10, 97, 10], List.replicate 4999 121] := by
    refine Machine.along_cons hstep ⟨?_, fun _ => ?_⟩ ⟨⟨?_, fun _ => ?_⟩, fun _ _ => trivial⟩
    · exact List.append_ne_nil_of_right_ne_nil _ (List.cons_ne_nil _ _)
    · rw [List.length_append, length_longLine]
      decide
    · exact List.cons_ne_nil _ _
    · rw [List.length_replicate, hcur₀]
      decide
  -- the late bytes end just in front of what the short line has left
  have hends := (((UserInput.framed_iff_along hnul hshort hread).1
    (h _ hnul hshort hread)).2 t hstep).1
  refine hends ?_
  rw [hcur₀, List.length_replicate, Nat.zero_add, hdrop, Scan.cString_append (by decide)]
  decide

end P2P
