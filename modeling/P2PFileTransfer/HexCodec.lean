/-
**Bytes as hexadecimal text** (`binary2hex`, `hex2binary`).

`binary2hex` prints one byte after the other into memory, each time with the zero that `sprintf`
puts behind the two digits; the next byte overwrites it.  `hex2binary` takes two characters at a
time.  Each undoes the other, but for the case of letters.

Main definitions:

* `P2P.sprintfHex` — `"%.2x"`, of one byte;
* `P2P.binary2hex` — the memory after the loop;
* `P2P.lowerHex` — the text of some bytes, with small letters.

Main results:

* `P2P.window_binary2hex` — **what is written**, and that nothing behind it is;
* `P2P.hex2binary_lowerHex`, `P2P.lowerHex_hex2binary` — one undoes the other, as texts;
* `P2P.hex_codec` — **the functions undo each other**.
-/

import P2PFileTransfer.Block
import P2PFileTransfer.Spelling

set_option relaxedAutoImplicit false
set_option autoImplicit false

namespace P2P

/-! ### Printing -/

/-- `tolower`, in the C locale. -/
def tolower (ch : UInt8) : UInt8 := if 65 ≤ ch ∧ ch ≤ 90 then ch + 32 else ch

/-- The digit of a value below 16, with a small letter. -/
def lowerDigit (d : UInt8) : UInt8 := if d < 10 then d + 48 else d + 87

/-- What `sprintf` prints for a byte with the format `"%.2x"`, without the zero at the end. -/
def sprintfHex (b : UInt8) : List UInt8 := [lowerDigit (b >>> 4), lowerDigit (b &&& 15)]

/-- Memory, after the bytes `src` were written from `o` on. -/
def poke (mem : ℕ → UInt8) (o : ℕ) (src : List UInt8) : ℕ → UInt8 :=
  fun i => if o ≤ i then src.getD (i - o) (mem i) else mem i

/-- The loop of `binary2hex`, from byte `i` on, and the last zero; `hex` is the memory. -/
def binary2hexLoop : List UInt8 → ℕ → (ℕ → UInt8) → ℕ → UInt8
  | [], i, hex => poke hex (i * 2) [0]
  | b :: buf, i, hex => binary2hexLoop buf (i + 1) (poke hex (i * 2) (sprintfHex b ++ [0]))

/-- `binary2hex`. -/
def binary2hex (buf : List UInt8) (hex : ℕ → UInt8) : ℕ → UInt8 := binary2hexLoop buf 0 hex

/-- The text of some bytes, with small letters. -/
def lowerHex (bytes : List UInt8) : List UInt8 := bytes.flatMap sprintfHex

/-! ### What is written -/

theorem poke_of_lt {mem : ℕ → UInt8} {o i : ℕ} (h : i < o) (src : List UInt8) :
    poke mem o src i = mem i := if_neg (Nat.not_le.2 h)

theorem poke_of_mem {mem : ℕ → UInt8} {o i : ℕ} {src : List UInt8} (h : i < src.length) :
    poke mem o src (o + i) = src[i] := by
  rw [poke, if_pos (Nat.le_add_right o i), Nat.add_sub_cancel_left,
    List.getD_eq_getElem?_getD, List.getElem?_eq_getElem h, Option.getD_some]

theorem poke_of_ge {mem : ℕ → UInt8} {o i : ℕ} {src : List UInt8} (h : o + src.length ≤ i) :
    poke mem o src i = mem i := by
  rw [poke, if_pos (by omega), List.getD_eq_getElem?_getD, List.getElem?_eq_none (by omega),
    Option.getD_none]

/-- The loop writes from the character it has come to, and not past the last zero. -/
theorem binary2hexLoop_frame (buf : List UInt8) (i : ℕ) (hex : ℕ → UInt8) {j : ℕ}
    (h : j < i * 2 ∨ (i + buf.length) * 2 < j) : binary2hexLoop buf i hex j = hex j := by
  induction buf generalizing i hex with
  | nil =>
      rcases h with h | h
      · exact poke_of_lt h _
      · exact poke_of_ge (Nat.succ_le_of_lt h)
  | cons b buf ih =>
      rw [List.length_cons] at h
      rw [binary2hexLoop, ih (i + 1) _ (by omega)]
      rcases h with h | h
      · exact poke_of_lt h _
      · refine poke_of_ge ?_
        have hlen : (sprintfHex b ++ [0]).length = 3 := rfl
        omega

/-- **What the loop writes**: the digits of the bytes, and a zero. -/
theorem binary2hexLoop_window (buf : List UInt8) (i : ℕ) (hex : ℕ → UInt8) :
    Block.window (binary2hexLoop buf i hex) (i * 2) (2 * buf.length + 1) =
      lowerHex buf ++ [0] := by
  induction buf generalizing i hex with
  | nil =>
      have hzero : poke hex (i * 2) [0] (i * 2 + 0) = 0 := poke_of_mem Nat.one_pos
      exact congrArg (fun b => [b]) hzero
  | cons b buf ih =>
      -- the two digits are left alone by the rest of the loop, which overwrites the zero
      have hlen : (sprintfHex b).length = 2 := rfl
      have hdigit : ∀ k (hk : k < (sprintfHex b).length),
          binary2hexLoop (b :: buf) i hex (i * 2 + k) = (sprintfHex b)[k] := by
        intro k hk
        have hk₃ : k < (sprintfHex b ++ [0]).length := Nat.lt_succ_of_lt hk
        rw [binary2hexLoop, binary2hexLoop_frame _ _ _ (Or.inl (by omega)), poke_of_mem hk₃,
          List.getElem_append_left hk]
      have hrest := ih (i + 1) (poke hex (i * 2) (sprintfHex b ++ [0]))
      have hsplit : Block.window (binary2hexLoop (b :: buf) i hex) (i * 2)
          (2 * (b :: buf).length + 1) = sprintfHex b ++
            Block.window (binary2hexLoop (b :: buf) i hex) ((i + 1) * 2) (2 * buf.length + 1) := by
        refine List.ext_getElem ?_ fun k h₁ h₂ => ?_
        · simp only [Block.length_window, List.length_append, List.length_cons, sprintfHex,
            List.length_nil]
          omega
        · rw [Block.getElem_window]
          by_cases hk : k < (sprintfHex b).length
          · rw [hdigit k hk, List.getElem_append_left hk]
          · rw [List.getElem_append_right (by omega), Block.getElem_window, hlen]
            exact congrArg _ (by omega)
      rw [hsplit]
      show sprintfHex b ++ Block.window (binary2hexLoop buf (i + 1) _) _ _ = _
      rw [hrest, lowerHex, lowerHex, List.flatMap_cons, List.append_assoc]

/-- **What `binary2hex` writes**: the text of the bytes and a zero, and nothing behind it. -/
theorem window_binary2hex (buf : List UInt8) (hex : ℕ → UInt8) :
    Block.window (binary2hex buf hex) 0 (2 * buf.length + 1) = lowerHex buf ++ [0] ∧
      ∀ j, 2 * buf.length < j → binary2hex buf hex j = hex j := by
  have hwindow := binary2hexLoop_window buf 0 hex
  rw [Nat.zero_mul] at hwindow
  exact ⟨hwindow, fun j hj => binary2hexLoop_frame buf 0 hex (Or.inr (by omega))⟩

/-- The text alone. -/
theorem window_text (buf : List UInt8) (hex : ℕ → UInt8) :
    Block.window (binary2hex buf hex) 0 (2 * buf.length) = lowerHex buf ∧
      binary2hex buf hex (2 * buf.length) = 0 := by
  have hwindow := (window_binary2hex buf hex).1
  have hsplit : Block.window (binary2hex buf hex) 0 (2 * buf.length + 1) =
      Block.window (binary2hex buf hex) 0 (2 * buf.length) ++
        [binary2hex buf hex (2 * buf.length)] := by
    simp only [Block.window, List.range_succ, List.map_append, List.map_singleton, Nat.zero_add]
  rw [hsplit] at hwindow
  obtain ⟨htext, hzero⟩ := List.append_inj' hwindow rfl
  exact ⟨htext, List.singleton_inj.1 hzero⟩

/-! ### Reading what was printed -/

theorem lowerDigit_eq {d : UInt8} (h : d < 16) : lowerDigit d = tolower (upperDigit d) :=
  forall_byte (P := fun d => d < 16 → lowerDigit d = tolower (upperDigit d)) (by decide +kernel) d h

theorem tolower_toupper (ch : UInt8) : tolower (toupper ch) = tolower ch :=
  forall_byte (P := fun ch => tolower (toupper ch) = tolower ch) (by decide +kernel) ch

/-- **The two digits of a byte** give the byte. -/
theorem hexDigit_sprintfHex (b : UInt8) :
    hexDigit (lowerDigit (b >>> 4)) <<< 4 ||| hexDigit (lowerDigit (b &&& 15)) = b :=
  forall_byte (P := fun b =>
    hexDigit (lowerDigit (b >>> 4)) <<< 4 ||| hexDigit (lowerDigit (b &&& 15)) = b)
    (by decide +kernel) b

/-- **What was printed is read back.** -/
theorem hex2binary_lowerHex (bytes : List UInt8) : hex2binary (lowerHex bytes) = bytes := by
  induction bytes with
  | nil => rfl
  | cons b bytes ih =>
      rw [lowerHex] at ih
      rw [lowerHex, List.flatMap_cons, sprintfHex, List.cons_append, List.cons_append,
        List.nil_append, hex2binary, hexDigit_sprintfHex, ih]

/-- The two halves of a byte are below 16. -/
theorem halves_lt (b : UInt8) : b >>> 4 < 16 ∧ b &&& 15 < 16 :=
  forall_byte (P := fun b => b >>> 4 < 16 ∧ b &&& 15 < 16) (by decide +kernel) b

theorem lowerHex_eq (bytes : List UInt8) : lowerHex bytes = (upperHex bytes).map tolower := by
  rw [lowerHex, upperHex, List.map_flatMap]
  refine congrArg (List.flatMap · bytes) (funext fun b => ?_)
  obtain ⟨hhi, hlo⟩ := halves_lt b
  rw [sprintfHex, lowerDigit_eq hhi, lowerDigit_eq hlo]
  rfl

/-- **What was read is printed**, with small letters. -/
theorem lowerHex_hex2binary {text : List UInt8} (heven : text.length % 2 = 0)
    (hhex : ∀ ch ∈ text, IsHexDigit ch) : lowerHex (hex2binary text) = text.map tolower := by
  rw [lowerHex_eq, upperHex_hex2binary text heven hhex, List.map_map]
  exact List.map_congr_left fun ch _ => tolower_toupper ch

/-- **The two functions undo each other**: `hex2binary` reads the bytes back that `binary2hex` wrote
the characters of, into whatever memory; and of an even number of hexadecimal digits, in letters of
any case, `binary2hex` writes the same ones with small letters for the bytes that `hex2binary`
reads. -/
theorem hex_codec :
    (∀ (b : List UInt8) (hex : ℕ → UInt8),
      hex2binary (Block.window (binary2hex b hex) 0 (2 * b.length)) = b) ∧
    ∀ text : List UInt8, text.length % 2 = 0 → (∀ ch ∈ text, IsHexDigit ch) →
      ∀ hex : ℕ → UInt8,
        Block.window (binary2hex (hex2binary text) hex) 0 text.length = text.map tolower ∧
          binary2hex (hex2binary text) hex text.length = 0 := by
  refine ⟨fun b hex => ?_, fun text heven hhex hex => ?_⟩
  · rw [(window_text b hex).1, hex2binary_lowerHex]
  · obtain ⟨htext, hzero⟩ := window_text (hex2binary text) hex
    have hlen : 2 * (hex2binary text).length = text.length := by
      rw [length_hex2binary]
      omega
    rw [hlen] at htext hzero
    exact ⟨htext.trans (lowerHex_hex2binary heven hhex), hzero⟩

/-- The text `DEadbeEF`. -/
def deadbeef : List UInt8 := [68, 69, 97, 100, 98, 101, 69, 70]

theorem isHexDigit_deadbeef : ∀ ch ∈ deadbeef, IsHexDigit ch := fun ch hch =>
  have hall : (deadbeef.all fun ch => decide (IsHexDigit ch)) = true := by decide
  of_decide_eq_true (List.all_eq_true.1 hall ch hch)

theorem hex_codec_deadbeef : hex2binary deadbeef = [0xde, 0xad, 0xbe, 0xef] ∧
    Block.window (binary2hex (hex2binary deadbeef) fun _ => 0) 0 8 =
      [100, 101, 97, 100, 98, 101, 101, 102] :=
  ⟨by decide, (hex_codec.2 deadbeef rfl isHexDigit_deadbeef fun _ => 0).1⟩

end P2P
