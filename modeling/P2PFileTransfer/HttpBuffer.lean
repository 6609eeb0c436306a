/-
**Buffers of the proxy** (`buffer.h`, `parse.c`, `extract_string`).

The proxy keeps the text of a request or of a response in a block of memory, and works on it with
the functions of the C library: `strstr` looks for a word in the string that a block begins with,
`memcpy` and `memmove` copy bytes from one place to another, `atoi` reads a number.  A call that
leaves its block is a fault here, and lengths are numbers of the type `int`.

Main definitions:

* `P2P.Buffer` — the two blocks of a buffer and their lengths;
* `P2P.i32` — what an `int` holds;
* `P2P.strstr`, `P2P.calloc`, `P2P.memcpy`, `P2P.atoi`, `P2P.sprintfInt` — the C library;
* `P2P.extractString` — `extract_string`.

Main results:

* `P2P.i32_of_range`, `P2P.i32_lt_zero` — numbers that fit in an `int`, and numbers that do not;
* `P2P.strstr_string` — a search in a string;
* `P2P.memcpy_eq` — a copy within its blocks;
* `P2P.extractString_eq`, `P2P.atoi_field` — **the number in a field**.
-/

import P2PFileTransfer.Reassembly
import P2PFileTransfer.Scan
import P2PFileTransfer.Search
import Mathlib.Data.Int.Notation

set_option relaxedAutoImplicit false
set_option autoImplicit false

namespace P2P

/-! ### Faults -/

section Fault

variable {α β : Type}

@[simp] theorem ok_bind (a : α) (f : α → Except Fault β) : (Except.ok a >>= f) = f a := rfl

@[simp] theorem error_bind (e : Fault) (f : α → Except Fault β) :
    (Except.error e >>= f) = .error e := rfl

/-- A call that goes on after another one. -/
theorem bind_eq_ok {x : Except Fault α} {f : α → Except Fault β} {b : β} :
    x >>= f = .ok b ↔ ∃ a, x = .ok a ∧ f a = .ok b := by
  cases x with
  | error e => exact ⟨(nomatch ·), fun ⟨_, h, _⟩ => nomatch h⟩
  | ok a => exact ⟨fun h => ⟨a, rfl, h⟩, fun ⟨_, h, hf⟩ => Except.ok.inj h ▸ hf⟩

end Fault

/-! ### Numbers -/

/-- What an `int` holds of a number: its low 32 bits. -/
def i32 (x : ℤ) : ℤ := Int.bmod x (2 ^ 32)

theorem i32_of_range {x : ℤ} (hlo : -2 ^ 31 ≤ x) (hhi : x < 2 ^ 31) : i32 x = x :=
  Int.bmod_eq_of_le (by omega) (by omega)

theorem i32_natCast {n : ℕ} (h : n < 2 ^ 31) : i32 n = n := i32_of_range (by omega) (by omega)

/-- The sum of two numbers that leaves the range becomes negative. -/
theorem i32_lt_zero {x : ℤ} (hlo : 2 ^ 31 ≤ x) (hhi : x < 2 ^ 32) : i32 x < 0 := by
  rw [i32, Int.bmod_def]
  split <;> omega

theorem i32_range (x : ℤ) : -2 ^ 31 ≤ i32 x ∧ i32 x < 2 ^ 31 := by
  rw [i32, Int.bmod_def]
  split <;> omega

/-- What an `int` holds of a number that is not negative is not greater. -/
theorem i32_le {x : ℤ} (h : 0 ≤ x) : i32 x ≤ x := by
  rw [i32, Int.bmod_def]
  split <;> omega

/-- `atoi`: the low 32 bits of what `strtol` reads, which stays in the range of a `long`. -/
def atoi (mem : List UInt8) : ℤ :=
  match Scan.scanInt (Scan.cString mem) with
  | none => 0
  | some (v, _) => i32 (max (-2 ^ 63) (min (2 ^ 63 - 1) v))

theorem atoi_range (mem : List UInt8) : -2 ^ 31 ≤ atoi mem ∧ atoi mem < 2 ^ 31 := by
  rw [atoi]
  split
  · exact ⟨by decide, by decide⟩
  · exact i32_range _

/-- The text that `sprintf` writes for `%d`. -/
def sprintfInt (x : ℤ) : List UInt8 :=
  if x < 0 then 45 :: Scan.decimal (-x).toNat else Scan.decimal x.toNat

theorem sprintfInt_ne_nil (x : ℤ) : sprintfInt x ≠ [] := by
  rw [sprintfInt]
  split
  · exact List.cons_ne_nil _ _
  · exact Scan.decimal_ne_nil _

/-- The text of a number has a sign and digits. -/
theorem not_mem_sprintfInt {ch : UInt8} (hsign : ch ≠ 45) (hdigit : Scan.isDigit ch = false)
    (x : ℤ) : ch ∉ sprintfInt x := by
  have hdecimal : ∀ n, ch ∉ Scan.decimal n := fun n h => by
    rw [Scan.isDigit_of_mem_decimal h] at hdigit
    exact nomatch hdigit
  rw [sprintfInt]
  split
  · exact fun h => (List.mem_cons.1 h).elim hsign (hdecimal _)
  · exact hdecimal _

/-! ### Blocks of memory -/

/-- `strstr(mem, word)`: the first place of the word in the string that the block begins with.
Without a zero in the block, a search that finds nothing runs out of it. -/
def strstr (mem word : List UInt8) : Except Fault (Option ℕ) :=
  match Search.find word (Scan.cString mem) with
  | some i => .ok (some i)
  | none => if 0 ∈ mem then .ok none else .error .outOfBounds

/-- `calloc(n, sizeof(char))`, and the access to the block.  The negative size is a huge one, for
which there is no memory. -/
def calloc (n : ℤ) : Except Fault (List UInt8) :=
  if 0 ≤ n then .ok (List.replicate n.toNat 0) else .error .outOfBounds

/-- `memcpy(dst + i, src + j, n)`.  If the two blocks are the same, this is `memmove`. -/
def memcpy (dst : List UInt8) (i : ℤ) (src : List UInt8) (j n : ℤ) : Except Fault (List UInt8) :=
  if 0 ≤ n ∧ 0 ≤ i ∧ i + n ≤ dst.length ∧ 0 ≤ j ∧ j + n ≤ src.length then
    .ok (dst.take i.toNat ++ (src.drop j.toNat).take n.toNat ++ dst.drop (i + n).toNat)
  else .error .outOfBounds

theorem strstr_some {mem word : List UInt8} {i : ℕ}
    (h : Search.find word (Scan.cString mem) = some i) : strstr mem word = .ok (some i) := by
  rw [strstr, h]

/-- **A search in a string.** -/
theorem strstr_string {mem : List UInt8} (h : 0 ∈ mem) (word : List UInt8) :
    strstr mem word = .ok (Search.find word (Scan.cString mem)) := by
  rw [strstr]
  split
  · rename_i hfind
    rw [hfind]
  · rename_i hfind
    rw [hfind, if_pos h]

theorem strstr_eq_ok {mem word : List UInt8} {r : Option ℕ} (h : strstr mem word = .ok r) :
    Search.find word (Scan.cString mem) = r := by
  rw [strstr] at h
  split at h
  · rename_i hfind
    rw [hfind, Except.ok.inj h]
  · rename_i hfind
    split at h
    · rw [hfind, Except.ok.inj h]
    · cases h

theorem calloc_natCast (n : ℕ) : calloc n = .ok (List.replicate n 0) := by
  rw [calloc, if_pos (Int.natCast_nonneg n), Int.toNat_natCast]

/-- **A copy within its blocks.** -/
theorem memcpy_eq {dst src : List UInt8} {i j n : ℕ} (hdst : i + n ≤ dst.length)
    (hsrc : j + n ≤ src.length) : memcpy dst i src j n =
      .ok (dst.take i ++ (src.drop j).take n ++ dst.drop (i + n)) := by
  have hin : i + n = (i + n : ℤ).toNat := by omega
  rw [memcpy, if_pos (by omega), Int.toNat_natCast, Int.toNat_natCast, Int.toNat_natCast, hin]

theorem length_memcpy {dst src mem : List UInt8} {i j n : ℤ} (h : memcpy dst i src j n = .ok mem) :
    mem.length = dst.length := by
  rw [memcpy] at h
  split at h
  · rw [← Except.ok.inj h, List.length_append, List.length_append, List.length_take,
      List.length_take, List.length_drop, List.length_drop]
    omega
  · exact nomatch h

theorem memcpy_error {dst src : List UInt8} {i j n : ℤ} {e : Fault}
    (h : memcpy dst i src j n = .error e) : e = .outOfBounds := by
  rw [memcpy] at h
  split at h
  · exact nomatch h
  · exact (Except.error.inj h).symm

/-! ### Buffers -/

/-- `Buffer`. -/
structure Buffer where
  /-- `recv_buf`: the block of the received text. -/
  recvBuf : List UInt8
  /-- `send_buf`: the block of the text to be sent. -/
  sendBuf : List UInt8
  /-- `recv_len`: how much was received. -/
  recvLen : ℤ
  /-- `send_len`: how much is to be sent. -/
  sendLen : ℤ
  deriving DecidableEq

/-- `LINE_SIZE`. -/
def lineSize : ℤ := 128

/-- `extract_string`: the text from the place `begin` up to the place `end`, in a block of
`LINE_SIZE` bytes.  The loop copies nothing when the end is before the beginning. -/
def extractString (mem : List UInt8) (beginLoc endLoc : ℤ) : Except Fault (List UInt8) := do
  let data ← calloc lineSize
  let dataLen := i32 (endLoc - beginLoc)
  let data ← memcpy data 0 mem beginLoc (max dataLen 0)
  memcpy data (max dataLen 0) [0] 0 1

theorem calloc_lineSize : calloc lineSize = .ok (List.replicate 128 0) := calloc_natCast 128

theorem i32_length (i : ℕ) {n : ℕ} (h : n < 2 ^ 31) : i32 ((i + n : ℕ) - i) = n := by
  rw [Int.natCast_add, add_sub_cancel_left, i32_natCast h]

/-- The length of a field whose end is behind its beginning. -/
theorem fieldLen_natCast (i : ℕ) {n : ℕ} (h : n < 2 ^ 31) : max (i32 ((i + n : ℕ) - i)) 0 = n := by
  rw [i32_length i h, Int.max_eq_left (Int.natCast_nonneg n)]

/-- **A field that there is room for**, and the zeros behind it. -/
theorem extractString_eq {mem : List UInt8} {i n : ℕ} {endLoc : ℤ}
    (hlen : max (i32 (endLoc - i)) 0 = n) (hn : n < 128) (hmem : i + n ≤ mem.length) :
    extractString mem i endLoc = .ok ((mem.drop i).take n ++ 0 :: List.replicate (127 - n) 0) := by
  have hfield : ((mem.drop i).take n).length = n := by
    rw [List.length_take, List.length_drop]
    omega
  have hcopy : memcpy (List.replicate 128 0) 0 mem i n =
      .ok ((mem.drop i).take n ++ List.replicate (128 - n) 0) := by
    refine (memcpy_eq (i := 0) (by rw [List.length_replicate]; omega) hmem).trans ?_
    rw [List.take_zero, List.nil_append, List.drop_replicate, Nat.zero_add]
  rw [extractString, calloc_lineSize, ok_bind]
  dsimp only
  rw [hlen, hcopy, ok_bind]
  generalize (mem.drop i).take n = field at hfield
  subst hfield
  refine (memcpy_eq (j := 0) (n := 1) ?_ (Nat.le_refl _)).trans ?_
  · rw [List.length_append, List.length_replicate]
    omega
  · rw [List.take_left, List.drop_length_add_append, List.drop_replicate, List.append_assoc,
      Nat.sub_right_comm 128]
    rfl

/-- **The number in a field.** -/
theorem atoi_field {field : List UInt8} (h : 0 ∉ field) (more : List UInt8) :
    atoi (field ++ 0 :: more) = atoi field := by
  rw [atoi, atoi, Scan.cString_append h, Scan.cString_of_not_mem h]

/-- There is no room for a field of 128 characters and its zero. -/
theorem extractString_of_le {mem : List UInt8} {i n : ℕ} {endLoc : ℤ}
    (hlen : max (i32 (endLoc - i)) 0 = n) (hn : 128 ≤ n) :
    extractString mem i endLoc = .error .outOfBounds := by
  rw [extractString, calloc_lineSize, ok_bind]
  dsimp only
  rw [hlen]
  cases hcopy : memcpy (List.replicate 128 0) 0 mem i n with
  | error e =>
      rw [error_bind, memcpy_error hcopy]
  | ok data =>
      rw [ok_bind, memcpy, if_neg]
      rw [length_memcpy hcopy, List.length_replicate]
      omega

end P2P
