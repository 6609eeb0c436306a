/-
**Network byte order.**

Numbers cross the wire most significant byte first.  `NetOrder.encode w m` writes the low `w` bytes
of `m` in that order and `NetOrder.decode` reads any number of bytes back; the round trip is exact
below `256 ^ w`.

Main results:

* `NetOrder.decode_encode` — reading what was written, modulo the width;
* `NetOrder.decode_encode_of_lt` — the round trip of a number that fits.
-/

import Mathlib.Data.List.Basic
import Mathlib.Tactic.Ring

set_option relaxedAutoImplicit false
set_option autoImplicit false

namespace NetOrder

/-- The low `w` bytes of `m`, most significant first. -/
def encode : ℕ → ℕ → List UInt8
  | 0, _ => []
  | w + 1, m => encode w (m / 256) ++ [UInt8.ofNat (m % 256)]

/-- The number a run of bytes stands for, most significant byte first. -/
def decode (bs : List UInt8) : ℕ := bs.foldl (fun m b => m * 256 + b.toNat) 0

@[simp] theorem encode_zero (m : ℕ) : encode 0 m = [] := rfl

theorem encode_succ (w m : ℕ) :
    encode (w + 1) m = encode w (m / 256) ++ [UInt8.ofNat (m % 256)] := rfl

@[simp] theorem length_encode (w m : ℕ) : (encode w m).length = w := by
  induction w generalizing m with
  | zero => rfl
  | succ w ih => simp [encode_succ, ih]

@[simp] theorem decode_nil : decode [] = 0 := rfl

@[simp] theorem decode_concat (bs : List UInt8) (b : UInt8) :
    decode (bs ++ [b]) = decode bs * 256 + b.toNat := by
  simp [decode]

/-- Reading back what was written keeps the low `w` bytes. -/
theorem decode_encode (w m : ℕ) : decode (encode w m) = m % 256 ^ w := by
  induction w generalizing m with
  | zero => simp [Nat.mod_one]
  | succ w ih =>
      have hb : (UInt8.ofNat (m % 256)).toNat = m % 256 := by
        rw [UInt8.toNat_ofNat']
        exact Nat.mod_eq_of_lt (Nat.mod_lt m (by decide))
      rw [encode_succ, decode_concat, ih, hb, pow_succ']
      rw [Nat.mod_mul]
      ring

/-- The number that was written goes on where its high bytes end. -/
theorem encode_add (w v m : ℕ) : encode (w + v) m = encode w (m / 256 ^ v) ++ encode v m := by
  induction v generalizing m with
  | zero => rw [Nat.add_zero, pow_zero, Nat.div_one, encode_zero, List.append_nil]
  | succ v ih =>
      rw [← Nat.add_assoc, encode_succ, encode_succ, ih, Nat.div_div_eq_div_mul, ← pow_succ',
        List.append_assoc]

/-- Only the low bytes are written. -/
theorem encode_mod (w m : ℕ) : encode w (m % 256 ^ w) = encode w m := by
  induction w generalizing m with
  | zero => rfl
  | succ w ih =>
      have hdvd : 256 ∣ 256 ^ (w + 1) := Dvd.intro_left _ rfl
      rw [encode_succ, encode_succ, Nat.mod_mod_of_dvd m hdvd, pow_succ',
        Nat.mod_mul_right_div_self, ih]

/-- **The round trip** of a number that fits in `w` bytes. -/
theorem decode_encode_of_lt {w m : ℕ} (h : m < 256 ^ w) : decode (encode w m) = m := by
  rw [decode_encode, Nat.mod_eq_of_lt h]

end NetOrder
