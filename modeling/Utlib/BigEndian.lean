import Mathlib.Tactic.Ring
import Utlib.Bits

/-! Numbers by their binary digits, the most significant one first, and the 64-bit register that
shifts such digits in. -/

namespace Utlib.BigEndian

/-- The number with the digits `f 0`, ..., `f (n - 1)`. -/
def value (f : Nat → Bool) : Nat → Nat
  | 0 => 0
  | n + 1 => 2 * value f n + (f n).toNat

section Value

variable {f g : Nat → Bool} {m n : Nat}

theorem value_lt (f : Nat → Bool) (n : Nat) : value f n < 2 ^ n := by
  induction n with
  | zero => exact Nat.one_pos
  | succ n ih =>
    have hdigit := (f n).toNat_lt
    rw [value, pow_succ]
    omega

theorem value_congr (h : ∀ k, k < n → f k = g k) : value f n = value g n := by
  induction n with
  | zero => rfl
  | succ n ih =>
    rw [value, value, h n (Nat.lt_succ_self n), ih fun k hk => h k (Nat.lt_succ_of_lt hk)]

theorem value_add (f : Nat → Bool) (m n : Nat) :
    value f (m + n) = value f m * 2 ^ n + value (fun k => f (m + k)) n := by
  induction n with
  | zero => rw [pow_zero, Nat.mul_one]; rfl
  | succ n ih =>
    rw [← Nat.add_assoc, value, value, ih, pow_succ]
    ring

/-- The leading digits of a byte. -/
theorem value_bit (x : UInt8) (hn : n ≤ 8) : value (Bits.bit x) n = x.toNat / 2 ^ (8 - n) := by
  induction n with
  | zero =>
    rw [value, Nat.div_eq_of_lt x.toNat_lt]
  | succ n ih =>
    have hpow : 2 ^ (8 - n) = 2 ^ (7 - n) * 2 := by
      rw [← pow_succ]
      congr 1
      omega
    rw [value, ih (by omega), Bits.bit_eq_testBit x (by omega), Nat.toNat_testBit, hpow,
      ← Nat.div_div_eq_div_mul, Nat.div_add_mod, Nat.succ_sub_succ]

end Value

section Register

theorem toNat_toUInt64 (b : Bool) : b.toUInt64.toNat = b.toNat := by
  cases b <;> rfl

/-- The low `n` bits of a word, for `n` up to 64. -/
def lowMask (n : Nat) : UInt64 := if n = 64 then ~~~0 else (1 <<< UInt64.ofNat n) - 1

theorem toNat_ofNat {n : Nat} (hn : n < 64) : (UInt64.ofNat n).toNat % 64 = n := by
  rw [UInt64.toNat_ofNat_of_lt' (by rw [UInt64.size]; omega), Nat.mod_eq_of_lt hn]

theorem toNat_lowMask {n : Nat} (hn : n ≤ 64) : (lowMask n).toNat = 2 ^ n - 1 := by
  rw [lowMask]
  split
  · next h =>
    subst h
    rfl
  · have hlt : 2 ^ n < 2 ^ 64 := Nat.pow_lt_pow_right (by decide) (by omega)
    have hshift : (1 <<< UInt64.ofNat n : UInt64).toNat = 2 ^ n := by
      rw [UInt64.toNat_shiftLeft, toNat_ofNat (by omega), UInt64.toNat_one, Nat.one_shiftLeft,
        Nat.mod_eq_of_lt hlt]
    have hle : (1 : UInt64) ≤ 1 <<< UInt64.ofNat n := by
      rw [UInt64.le_iff_toNat_le, hshift]
      exact Nat.two_pow_pos n
    rw [UInt64.toNat_sub_of_le _ _ hle, hshift, UInt64.toNat_one]

theorem toNat_and_lowMask (x : UInt64) {n : Nat} (hn : n ≤ 64) :
    (x &&& lowMask n).toNat = x.toNat % 2 ^ n := by
  rw [UInt64.toNat_and, toNat_lowMask hn, Nat.and_two_pow_sub_one_eq_mod]

theorem toNat_shiftIn (x : UInt64) {y : UInt64} {n : Nat} (hn : n < 64) (hy : y.toNat < 2 ^ n) :
    (x <<< UInt64.ofNat n ||| y).toNat = (x.toNat * 2 ^ n + y.toNat) % 2 ^ 64 := by
  have hsplit : 2 ^ 64 = 2 ^ (64 - n) * 2 ^ n := by
    rw [← pow_add, Nat.sub_add_cancel (Nat.le_of_lt hn)]
  have hlt : x.toNat % 2 ^ (64 - n) * 2 ^ n + y.toNat < 2 ^ (64 - n) * 2 ^ n := by
    have hmod := Nat.mod_lt x.toNat (Nat.two_pow_pos (64 - n))
    have hle := Nat.mul_le_mul_right (2 ^ n) (Nat.succ_le_of_lt hmod)
    rw [Nat.succ_mul] at hle
    omega
  calc
    (x <<< UInt64.ofNat n ||| y).toNat = x.toNat % 2 ^ (64 - n) * 2 ^ n + y.toNat := by
      rw [UInt64.toNat_or, UInt64.toNat_shiftLeft, toNat_ofNat hn, Nat.shiftLeft_eq, hsplit,
        Nat.mul_mod_mul_right, ← Nat.shiftLeft_eq, ← Nat.shiftLeft_add_eq_or_of_lt hy]
    _ = (x.toNat * 2 ^ n + y.toNat) % 2 ^ 64 := by
      rw [← Nat.mod_eq_of_lt hlt, hsplit, ← Nat.mul_mod_mul_right, Nat.mod_add_mod]

end Register

end Utlib.BigEndian
