/-
**Reading text with the C library.**

A text is a list of bytes.  `fgets` takes one line from it, and the conversions `%d` and `%s` of
`sscanf` take a number and a word from a line.  The module has what is needed to say that a line
that was printed is read back.

Main definitions:

* `Scan.fgets` — one line;
* `Scan.scanInt`, `Scan.scanString` — the two conversions;
* `Scan.toInt` — the value that a conversion to `int` stores;
* `Scan.decimal` — a number as it is printed.

Main results:

* `Scan.fgets_line`, `Scan.fgets_last` — what `fgets` takes;
* `Scan.scanInt_decimal`, `Scan.scanString_word` — **what was printed is read back**;
* `Scan.length_decimal_le` — how long a number gets.
-/

import Mathlib.Algebra.Group.Int.Defs
import Mathlib.Algebra.Group.Nat.Defs
import Mathlib.Data.List.TakeWhile

set_option relaxedAutoImplicit false
set_option autoImplicit false

namespace Scan

/-! ### Lines -/

/-- `fgets` with a buffer of `n + 1` bytes: the line with its newline, and what is left of the
text. -/
def fgets : ℕ → List UInt8 → List UInt8 × List UInt8
  | 0, text => ([], text)
  | _ + 1, [] => ([], [])
  | n + 1, ch :: rest =>
      if ch = 10 then ([ch], rest) else (ch :: (fgets n rest).1, (fgets n rest).2)

/-- **A line that fits in the buffer.** -/
theorem fgets_line {n : ℕ} {line : List UInt8} (hnl : 10 ∉ line) (hlen : line.length < n)
    (rest : List UInt8) : fgets n (line ++ 10 :: rest) = (line ++ [10], rest) := by
  induction line generalizing n with
  | nil =>
      cases n with
      | zero => exact absurd hlen (Nat.not_lt_zero _)
      | succ n => rfl
  | cons ch line ih =>
      cases n with
      | zero => exact absurd hlen (Nat.not_lt_zero _)
      | succ n =>
          have hch : ch ≠ 10 := fun h => hnl (h ▸ List.mem_cons_self ..)
          have hrest := ih (fun h => hnl (List.mem_cons_of_mem _ h)) (Nat.lt_of_succ_lt_succ hlen)
          rw [List.cons_append, fgets, if_neg hch, hrest]
          rfl

/-- The last line may have no newline. -/
theorem fgets_last {n : ℕ} {line : List UInt8} (hnl : 10 ∉ line) (hlen : line.length ≤ n) :
    fgets n line = (line, []) := by
  induction line generalizing n with
  | nil => cases n <;> rfl
  | cons ch line ih =>
      cases n with
      | zero => exact absurd hlen (Nat.not_succ_le_zero _)
      | succ n =>
          have hch : ch ≠ 10 := fun h => hnl (h ▸ List.mem_cons_self ..)
          have hrest := ih (fun h => hnl (List.mem_cons_of_mem _ h)) (Nat.le_of_succ_le_succ hlen)
          rw [fgets, if_neg hch, hrest]

/-- The line and what is left are the text. -/
theorem fgets_append (n : ℕ) (text : List UInt8) : (fgets n text).1 ++ (fgets n text).2 = text := by
  induction n generalizing text with
  | zero => rfl
  | succ n ih =>
      cases text with
      | nil => rfl
      | cons ch rest =>
          rw [fgets]
          split
          · rfl
          · rw [List.cons_append, ih]

/-- A line has at least one character, where the text has one. -/
theorem fgets_ne_nil {n : ℕ} (hn : 0 < n) {text : List UInt8} (h : text ≠ []) :
    (fgets n text).1 ≠ [] := by
  obtain ⟨n, rfl⟩ := Nat.exists_eq_succ_of_ne_zero (Nat.ne_of_gt hn)
  obtain ⟨ch, rest, rfl⟩ := List.exists_cons_of_ne_nil h
  rw [fgets]
  split <;> exact List.cons_ne_nil _ _

/-! ### Conversions -/

/-- `isspace`, in the C locale. -/
def isSpace (ch : UInt8) : Bool := decide (ch.toNat = 32 ∨ 9 ≤ ch.toNat ∧ ch.toNat ≤ 13)

/-- `isdigit`. -/
def isDigit (ch : UInt8) : Bool := decide (48 ≤ ch.toNat ∧ ch.toNat ≤ 57)

/-- The value of a run of digits. -/
def digitsValue (ds : List UInt8) : ℕ := ds.foldl (fun v ch => 10 * v + (ch.toNat - 48)) 0

/-- An optional sign, and what follows it. -/
def scanSign : List UInt8 → Bool × List UInt8
  | 45 :: rest => (true, rest)
  | 43 :: rest => (false, rest)
  | text => (false, text)

/-- The conversion `%d`: white space, a sign, and digits.  Without a digit it fails. -/
def scanInt (text : List UInt8) : Option (ℤ × List UInt8) :=
  let sign := scanSign (text.dropWhile isSpace)
  let digits := sign.2.takeWhile isDigit
  if digits = [] then none
  else some (if sign.1 then -(digitsValue digits : ℤ) else digitsValue digits,
    sign.2.dropWhile isDigit)

/-- The conversion `%s`: white space, and a word up to the next one. -/
def scanString (text : List UInt8) : Option (List UInt8 × List UInt8) :=
  let text := text.dropWhile isSpace
  let word := text.takeWhile fun ch => !isSpace ch
  if word = [] then none else some (word, text.dropWhile fun ch => !isSpace ch)

/-- The value that `%d` stores in an `int`: `strtol` stays in the range of a `long`, and the low 32
bits of its result are stored. -/
def toInt (v : ℤ) : UInt32 := UInt32.ofInt (max (-2 ^ 63) (min (2 ^ 63 - 1) v))

/-- A string in the sense of C ends before the first zero. -/
def cString (text : List UInt8) : List UInt8 := text.takeWhile (· ≠ 0)

/-- The string goes on behind what has no zero. -/
theorem cString_append_left {text : List UInt8} (h : 0 ∉ text) (more : List UInt8) :
    cString (text ++ more) = text ++ cString more := by
  rw [cString, List.takeWhile_append_of_pos]
  · rfl
  · intro ch hch
    rw [decide_eq_true_iff]
    rintro rfl
    exact h hch

theorem cString_append {text : List UInt8} (h : 0 ∉ text) (more : List UInt8) :
    cString (text ++ 0 :: more) = text := by
  have hzero : cString (0 :: more) = [] := List.takeWhile_cons_of_neg (by decide)
  rw [cString_append_left h, hzero, List.append_nil]

theorem cString_of_not_mem {text : List UInt8} (h : 0 ∉ text) : cString text = text := by
  have hnil := cString_append_left h []
  rw [List.append_nil] at hnil
  exact hnil.trans (List.append_nil text)

/-- The string ends at the first zero. -/
theorem cString_append_of_mem {text : List UInt8} (h : 0 ∈ text) (more : List UInt8) :
    cString (text ++ more) = cString text := by
  obtain ⟨line, rest, rfl, hne⟩ := List.eq_append_cons_of_mem h
  rw [List.append_assoc, List.cons_append, cString_append hne, cString_append hne]

/-- A text with a zero is a string, and what follows it. -/
theorem exists_cString {text : List UInt8} (h : 0 ∈ text) :
    0 ∉ cString text ∧ ∃ more, text = cString text ++ 0 :: more := by
  obtain ⟨line, more, rfl, hne⟩ := List.eq_append_cons_of_mem h
  rw [cString_append hne]
  exact ⟨hne, more, rfl⟩

/-! ### Numbers -/

/-- The digits of a number, the highest first. -/
def decimal (n : ℕ) : List UInt8 :=
  if n < 10 then [UInt8.ofNat (48 + n)] else decimal (n / 10) ++ [UInt8.ofNat (48 + n % 10)]
termination_by n
decreasing_by omega

theorem toNat_digit {d : ℕ} (h : d < 10) : (UInt8.ofNat (48 + d)).toNat = 48 + d := by
  rw [UInt8.toNat_ofNat']
  omega

theorem isDigit_digit {d : ℕ} (h : d < 10) : isDigit (UInt8.ofNat (48 + d)) = true := by
  rw [isDigit, decide_eq_true_iff, toNat_digit h]
  omega

theorem isDigit_of_mem_decimal {n : ℕ} {ch : UInt8} (h : ch ∈ decimal n) : isDigit ch = true := by
  induction n using decimal.induct with
  | case1 n hn =>
      rw [decimal, if_pos hn] at h
      rw [List.mem_singleton.1 h]
      exact isDigit_digit hn
  | case2 n hn ih =>
      rw [decimal, if_neg hn] at h
      rcases List.mem_append.1 h with h | h
      · exact ih h
      · rw [List.mem_singleton.1 h]
        exact isDigit_digit (Nat.mod_lt _ (by decide))

theorem decimal_ne_nil (n : ℕ) : decimal n ≠ [] := by
  rw [decimal]
  split
  · exact List.cons_ne_nil _ _
  · exact List.append_ne_nil_of_right_ne_nil _ (List.cons_ne_nil _ _)

theorem digitsValue_decimal (n : ℕ) : digitsValue (decimal n) = n := by
  induction n using decimal.induct with
  | case1 n hn =>
      rw [decimal, if_pos hn, digitsValue, List.foldl_cons, List.foldl_nil, toNat_digit hn]
      omega
  | case2 n hn ih =>
      rw [digitsValue] at ih
      rw [decimal, if_neg hn, digitsValue, List.foldl_append, ih, List.foldl_cons, List.foldl_nil,
        toNat_digit (Nat.mod_lt _ (by decide))]
      omega

/-- A number below `10 ^ k` has at most `k` digits. -/
theorem length_decimal_le {n k : ℕ} (h : n < 10 ^ (k + 1)) : (decimal n).length ≤ k + 1 := by
  induction k generalizing n with
  | zero =>
      have hn : n < 10 := by simpa using h
      rw [decimal, if_pos hn]
      exact Nat.le_refl _
  | succ k ih =>
      rw [decimal]
      split
      · exact Nat.le_add_left _ _
      · rw [List.length_append]
        have hdiv : n / 10 < 10 ^ (k + 1) := by
          rw [Nat.pow_succ] at h
          exact Nat.div_lt_of_lt_mul (by rwa [Nat.mul_comm])
        exact Nat.succ_le_succ (ih hdiv)

/-! ### What was printed is read back -/

theorem takeWhile_append_of_stop {p : UInt8 → Bool} (xs ys : List UInt8)
    (hxs : ∀ ch ∈ xs, p ch = true) (hys : ∀ ch ∈ ys.head?, p ch = false) :
    (xs ++ ys).takeWhile p = xs ∧ (xs ++ ys).dropWhile p = ys := by
  induction xs with
  | nil =>
      cases ys with
      | nil => exact ⟨rfl, rfl⟩
      | cons y ys =>
          have hy := hys y rfl
          simp [hy]
  | cons x xs ih =>
      obtain ⟨htake, hdrop⟩ := ih fun ch hch => hxs ch (List.mem_cons_of_mem _ hch)
      have hx := hxs x (List.mem_cons_self ..)
      simp [hx, htake, hdrop]

/-- What starts with no white space is not changed by skipping it. -/
theorem dropWhile_isSpace {text : List UInt8} (h : ∀ ch ∈ text.head?, isSpace ch = false) :
    text.dropWhile isSpace = text :=
  (takeWhile_append_of_stop [] text (fun _ hch => absurd hch List.not_mem_nil) h).2

theorem not_isSpace_of_isDigit {ch : UInt8} (h : isDigit ch = true) : isSpace ch = false := by
  rw [isDigit, decide_eq_true_iff] at h
  rw [isSpace, decide_eq_false_iff_not]
  omega

/-- **A number that was printed is read back**, if no digit follows it. -/
theorem scanInt_decimal (n : ℕ) (rest : List UInt8) (h : ∀ ch ∈ rest.head?, isDigit ch = false) :
    scanInt (decimal n ++ rest) = some ((n : ℤ), rest) := by
  obtain ⟨ch, ds, hds⟩ := List.exists_cons_of_ne_nil (decimal_ne_nil n)
  have hch : isDigit ch = true := isDigit_of_mem_decimal (n := n) (hds ▸ List.mem_cons_self ..)
  have hskip : (decimal n ++ rest).dropWhile isSpace = decimal n ++ rest := by
    refine dropWhile_isSpace fun ch' hch' => ?_
    rw [hds] at hch'
    cases hch'
    exact not_isSpace_of_isDigit hch
  have hsign : scanSign (decimal n ++ rest) = (false, decimal n ++ rest) := by
    rw [hds, List.cons_append, scanSign]
    · intro _ heq
      rw [(List.cons.inj heq).1] at hch
      exact absurd hch (by decide)
    · intro _ heq
      rw [(List.cons.inj heq).1] at hch
      exact absurd hch (by decide)
  obtain ⟨htake, hdrop⟩ := takeWhile_append_of_stop (decimal n) rest
    (fun ch hch => isDigit_of_mem_decimal (n := n) hch) h
  rw [scanInt, hskip, hsign]
  dsimp only
  rw [htake, hdrop, if_neg (decimal_ne_nil n), digitsValue_decimal]
  rfl

/-- **A word that was printed is read back**, if it is followed by white space or nothing. -/
theorem scanString_word {word : List UInt8} (rest : List UInt8) (hne : word ≠ [])
    (hword : ∀ ch ∈ word, isSpace ch = false) (hrest : ∀ ch ∈ rest.head?, isSpace ch = true) :
    scanString (32 :: (word ++ rest)) = some (word, rest) := by
  have hskip : (32 :: (word ++ rest)).dropWhile isSpace = word ++ rest := by
    rw [List.dropWhile_cons_of_pos (by decide)]
    refine dropWhile_isSpace fun ch hch => ?_
    obtain ⟨x, xs, rfl⟩ := List.exists_cons_of_ne_nil hne
    have hx : x = ch := Option.some.inj hch
    exact hx ▸ hword x (List.mem_cons_self ..)
  obtain ⟨htake, hdrop⟩ := takeWhile_append_of_stop (p := fun ch => !isSpace ch) word rest
    (fun ch hch => by rw [hword ch hch]; rfl) fun ch hch => by rw [hrest ch hch]; rfl
  rw [scanString, hskip, htake, hdrop, if_neg hne]

/-- A number in the range of a `long` is cut to 32 bits. -/
theorem toInt_natCast {n : ℕ} (h : n < 2 ^ 63) : toInt n = UInt32.ofNat n := by
  have hrange : max (-2 ^ 63) (min (2 ^ 63 - 1) (n : ℤ)) = n := by omega
  have hmod : ((n : ℤ) % 2 ^ 32).toNat = n % 2 ^ 32 := by omega
  rw [toInt, hrange, UInt32.ofInt, hmod]
  refine UInt32.toNat.inj ?_
  rw [UInt32.toNat_ofNat', UInt32.toNat_ofNat', Nat.mod_mod]

end Scan
