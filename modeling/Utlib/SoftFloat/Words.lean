import Utlib.SoftFloat.Basic
import Mathlib.Data.Nat.Bitwise

/-! Bit operations on words as arithmetic. -/

namespace Utlib.SoftFloat

open Utlib.Rounding

section Words

variable {x mask : UInt64} {g : ℕ}

theorem toNat_and_mask (hmask : mask.toNat = 2 ^ g - 1) : (x &&& mask).toNat = x.toNat % 2 ^ g := by
  rw [UInt64.toNat_and, hmask, Nat.and_two_pow_sub_one_eq_mod]

theorem ne_zero_iff : x ≠ 0 ↔ x.toNat ≠ 0 := by
  rw [ne_eq, ← UInt64.toNat_inj, UInt64.toNat_zero]

theorem and_mask_ne_zero_iff (hmask : mask.toNat = 2 ^ g - 1) :
    x &&& mask ≠ 0 ↔ x.toNat % 2 ^ g ≠ 0 := by
  rw [ne_zero_iff, toNat_and_mask hmask]

theorem toNat_and_not_mask (hmask : mask.toNat = 2 ^ g - 1) :
    (x &&& ~~~mask).toNat = x.toNat / 2 ^ g * 2 ^ g := by
  have hnot : (~~~mask).toNat = 2 ^ 64 - (mask.toNat + 1) := by
    rw [UInt64.toNat_not, Nat.sub_sub, Nat.add_comm 1]
    rfl
  have hlt : mask.toNat < 2 ^ 64 := mask.toNat_lt
  apply Nat.eq_of_testBit_eq
  intro i
  rw [UInt64.toNat_and, hnot, Nat.testBit_and, Nat.testBit_two_pow_sub_succ hlt, hmask,
    Nat.testBit_two_pow_sub_one, Nat.testBit_mul_two_pow, Nat.testBit_div_two_pow]
  by_cases hi : i < 64
  · by_cases hg : g ≤ i
    · simp [hi, hg, Nat.sub_add_cancel hg]
    · simp [hi, hg]
      omega
  · have hx : x.toNat.testBit i = false :=
      Nat.testBit_lt_two_pow (x.toNat_lt.trans_le (Nat.pow_le_pow_right two_pos (by omega)))
    by_cases hg : g ≤ i
    · simp [hx, Nat.sub_add_cancel hg]
    · simp [hx, hg]

theorem toNat_or_succ (hg : g < 64) (hmask : mask.toNat = 2 ^ g - 1) :
    (mask ||| (mask + 1)).toNat = 2 ^ (g + 1) - 1 := by
  have hpow : 2 ^ g < 2 ^ 64 := Nat.pow_lt_pow_right one_lt_two hg
  have hpos := Nat.two_pow_pos g
  have hsucc : (mask + 1).toNat = 2 ^ g := by
    rw [UInt64.toNat_add, hmask, UInt64.toNat_one]
    omega
  rw [UInt64.toNat_or, hsucc, hmask, Nat.or_comm]
  have hor := Nat.two_pow_add_eq_or_of_lt (show 2 ^ g - 1 < 2 ^ g by omega) 1
  rw [Nat.mul_one] at hor
  rw [← hor, Nat.pow_succ]
  omega

theorem and_highBit_ne_zero_iff : x &&& 0x8000000000000000 ≠ 0 ↔ 2 ^ 63 ≤ x.toNat := by
  have hlt := x.toNat_lt
  rw [ne_zero_iff, UInt64.toNat_and]
  change x.toNat &&& 2 ^ 63 ≠ 0 ↔ _
  rw [Nat.and_two_pow, Nat.testBit_eq_decide_div_mod_eq]
  by_cases h : x.toNat / 2 ^ 63 % 2 = 1
  · rw [decide_eq_true h, Bool.toNat_true]
    omega
  · rw [decide_eq_false h, Bool.toNat_false]
    omega

/-- The bits that a shift by `dist` to the right cuts off. -/
theorem toNat_shiftLeft_rest {a : UInt64} {dist : ℕ} (hpos : 0 < dist) (hlt : dist ≤ 64) :
    (a <<< UInt64.ofNat (64 - dist)).toNat = a.toNat % 2 ^ dist * 2 ^ (64 - dist) := by
  have hmod : (UInt64.ofNat (64 - dist)).toNat % 64 = 64 - dist := by
    rw [UInt64.toNat_ofNat']
    omega
  have hsplit : 2 ^ 64 = 2 ^ dist * 2 ^ (64 - dist) := by
    rw [← pow_add, Nat.add_sub_of_le hlt]
  rw [UInt64.toNat_shiftLeft, hmod, Nat.shiftLeft_eq, hsplit, Nat.mul_mod_mul_right]

theorem toNat_shiftRight_of_lt {a : UInt64} {dist : ℕ} (hlt : dist < 64) :
    (a >>> UInt64.ofNat dist).toNat = a.toNat / 2 ^ dist := by
  have hmod : (UInt64.ofNat dist).toNat % 64 = dist := by
    rw [UInt64.toNat_ofNat']
    omega
  rw [UInt64.toNat_shiftRight, hmod, Nat.shiftRight_eq_div_pow]

theorem div_two_pow_lt {a : UInt64} {dist : ℕ} (hpos : 0 < dist) :
    a.toNat / 2 ^ dist < 2 ^ 63 := by
  have hlt : a.toNat < 2 ^ 64 := a.toNat_lt
  have hpow : 2 ^ 1 ≤ 2 ^ dist := Nat.pow_le_pow_right two_pos hpos
  rw [Nat.div_lt_iff_lt_mul (Nat.two_pow_pos dist)]
  omega

theorem toNat_ite_ne_zero (a : UInt64) :
    (if a ≠ 0 then (1 : UInt64) else 0).toNat = if a.toNat = 0 then 0 else 1 := by
  by_cases h : a ≠ 0
  · rw [if_pos h, if_neg (ne_zero_iff.1 h), UInt64.toNat_one]
  · rw [if_neg h, if_pos (not_not.1 (ne_zero_iff.not.1 h)), UInt64.toNat_zero]

theorem toNat_shiftRightJam64 {a : UInt64} {dist : ℕ} (hpos : 0 < dist) :
    (shiftRightJam64 a dist).toNat = jam a.toNat (2 ^ dist) := by
  rw [shiftRightJam64]
  split
  · have hrest := toNat_shiftLeft_rest (a := a) hpos (show dist ≤ 64 by omega)
    have hzero : a.toNat % 2 ^ dist * 2 ^ (64 - dist) = 0 ↔ a.toNat % 2 ^ dist = 0 := by
      have htwo := Nat.two_pow_pos (64 - dist)
      rw [Nat.mul_eq_zero]
      omega
    rw [UInt64.toNat_or, toNat_shiftRight_of_lt (by omega), toNat_ite_ne_zero, hrest, jam]
    simp only [hzero]
  · have hlt : a.toNat < 2 ^ 64 := a.toNat_lt
    have hpow : 2 ^ 63 ≤ 2 ^ dist := Nat.pow_le_pow_right two_pos (by omega)
    have hsmall : a.toNat / 2 ^ dist / 2 = 0 := by
      rw [Nat.div_div_eq_div_mul, Nat.div_eq_of_lt (by omega)]
    have hsplit := Nat.div_add_mod a.toNat (2 ^ dist)
    rw [toNat_ite_ne_zero]
    rcases jam_cases a.toNat (2 ^ dist) with ⟨hzero, heq⟩ | ⟨hne, heq⟩
    · rw [heq]
      split
      · next hn => rw [hn, Nat.zero_div]
      · next hn =>
        have hquot : a.toNat / 2 ^ dist ≠ 0 := by
          intro hquot
          rw [hquot, hzero] at hsplit
          omega
        omega
    · rw [heq, hsmall, if_neg]
      rintro h
      rw [h, Nat.zero_mod] at hne
      exact hne rfl

theorem toNat_carry (p : Prop) [Decidable p] :
    (if p then 1 else 0 : UInt64).toNat = if p then 1 else 0 := by
  split <;> rfl

theorem toNat_or_ite (p : Prop) [Decidable p] :
    (x ||| if p then 1 else 0).toNat = if p then x.toNat / 2 * 2 + 1 else x.toNat := by
  rw [UInt64.toNat_or, toNat_carry]
  split
  · rw [or_one]
  · rw [Nat.or_zero]

end Words

end Utlib.SoftFloat
