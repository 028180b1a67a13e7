import Mathlib.Data.List.Basic
import Mathlib.Data.Nat.Bitwise
import Mathlib.Tactic.IntervalCases

/-! Bits of bytes and of byte strings, the most significant bit of each byte first. -/

namespace Utlib.Bits

def bit (x : UInt8) (k : Nat) : Bool := x.toBitVec.getMsbD k

def mask (k : Nat) : UInt8 := 1 <<< UInt8.ofNat (7 - k)

def bitAt (xs : List UInt8) (k : Nat) : Bool := bit (xs.getD (k / 8) 0) (k % 8)

def assignBit (xs : List UInt8) (k : Nat) (value : Bool) : List UInt8 :=
  let x := xs.getD (k / 8) 0
  xs.set (k / 8) (if value then x ||| mask (k % 8) else x &&& ~~~mask (k % 8))

section Byte

theorem eq_of_bit {x y : UInt8} (h : ∀ k, k < 8 → bit x k = bit y k) : x = y := by
  rw [← UInt8.toBitVec_inj]
  exact BitVec.eq_of_getMsbD_eq h

theorem bit_or (x y : UInt8) (k : Nat) : bit (x ||| y) k = (bit x k || bit y k) := by
  simp [bit]

theorem bit_and (x y : UInt8) (k : Nat) : bit (x &&& y) k = (bit x k && bit y k) := by
  simp [bit]

theorem bit_not (x : UInt8) {k : Nat} (hk : k < 8) : bit (~~~x) k = !bit x k := by
  simp [bit, hk]

theorem bit_zero (k : Nat) : bit 0 k = false := by
  simp [bit]

theorem bit_mask {j k : Nat} (hj : j < 8) (hk : k < 8) : bit (mask j) k = decide (k = j) := by
  have h : ∀ j < 8, ∀ k < 8, bit (mask j) k = decide (k = j) := by decide
  exact h j hj k hk

theorem bit_eq_testBit (x : UInt8) {k : Nat} (hk : k < 8) : bit x k = x.toNat.testBit (7 - k) := by
  rw [bit, BitVec.getMsbD_eq_getLsbD, decide_eq_true hk, Bool.true_and]
  rfl

theorem toNat_toUInt8 (b : Bool) : b.toUInt8.toNat = b.toNat := by
  cases b <;> rfl

theorem shiftRight_and_one (x : UInt8) {k : Nat} (hk : k < 8) :
    x >>> UInt8.ofNat (7 - k) &&& 1 = (bit x k).toUInt8 := by
  have hshift : (UInt8.ofNat (7 - k)).toNat % 8 = 7 - k := by
    rw [UInt8.toNat_ofNat_of_lt' (by simp [UInt8.size]; omega)]
    omega
  rw [← UInt8.toNat_inj, UInt8.toNat_and, UInt8.toNat_shiftRight, hshift, bit_eq_testBit x hk,
    toNat_toUInt8, Nat.toNat_testBit]
  simp [Nat.shiftRight_eq_div_pow]

theorem and_mask_ne_zero (x : UInt8) {k : Nat} (hk : k < 8) : x &&& mask k ≠ 0 ↔ bit x k := by
  constructor
  · intro h
    by_contra hbit
    apply h
    apply eq_of_bit
    intro j hj
    rw [bit_and, bit_mask hk hj, bit_zero]
    by_cases hjk : j = k
    · rw [hjk, Bool.eq_false_of_not_eq_true hbit, Bool.false_and]
    · rw [decide_eq_false hjk, Bool.and_false]
  · intro hbit h
    have hzero := bit_and x (mask k) k
    rw [h, bit_zero, hbit, bit_mask hk hk, decide_eq_true rfl] at hzero
    exact Bool.noConfusion hzero

theorem bit_shiftIn (x : UInt8) (b : Bool) {k : Nat} (hk : k < 8) :
    bit (x <<< 1 ||| b.toUInt8) k = if k = 7 then b else bit x (k + 1) := by
  cases b <;> interval_cases k <;> simp [bit]

/-- Eight bits shifted in one after the other. -/
theorem bit_gather (f : Nat → Bool) {j k : Nat} (hj : j ≤ 8) (hk : k < 8) :
    bit ((List.range j).foldl (fun x b => x <<< 1 ||| (f b).toUInt8) 0) k =
      if 8 - j ≤ k then f (k - (8 - j)) else false := by
  induction j generalizing k with
  | zero => rw [if_neg (by omega)]; exact bit_zero k
  | succ j ih =>
    rw [List.range_succ, List.foldl_append, List.foldl_cons, List.foldl_nil, bit_shiftIn _ _ hk]
    by_cases hlast : k = 7
    · rw [if_pos hlast, if_pos (by omega)]
      congr 1
      omega
    · rw [if_neg hlast, ih (by omega) (by omega)]
      by_cases hin : 8 - (j + 1) ≤ k
      · rw [if_pos hin, if_pos (by omega)]
        congr 1
        omega
      · rw [if_neg hin, if_neg (by omega)]

end Byte

section String

variable {xs : List UInt8} {j k : Nat}

@[simp] theorem length_assignBit (xs : List UInt8) (k : Nat) (value : Bool) :
    (assignBit xs k value).length = xs.length := List.length_set

theorem bitAt_set (h : k / 8 < xs.length) (x : UInt8) :
    bitAt (xs.set (k / 8) x) j = if j / 8 = k / 8 then bit x (j % 8) else bitAt xs j := by
  rw [bitAt, bitAt, List.getD_eq_getElem?_getD, List.getD_eq_getElem?_getD, List.getElem?_set]
  by_cases hj : k / 8 = j / 8
  · rw [if_pos hj, if_pos h, if_pos hj.symm]
    rfl
  · rw [if_neg hj, if_neg (Ne.symm hj)]

theorem bitAt_assignBit (h : k / 8 < xs.length) (value : Bool) :
    bitAt (assignBit xs k value) j = if j = k then value else bitAt xs j := by
  have hmask := bit_mask (Nat.mod_lt k (by decide : 0 < 8)) (Nat.mod_lt j (by decide : 0 < 8))
  rw [assignBit, bitAt_set h]
  by_cases hbyte : j / 8 = k / 8
  · have hjk : j = k ↔ j % 8 = k % 8 := by omega
    rw [if_pos hbyte, bitAt, hbyte]
    cases value with
    | false =>
      simp only [Bool.false_eq_true, if_false]
      rw [bit_and, bit_not _ (Nat.mod_lt j (by decide)), hmask]
      by_cases h' : j % 8 = k % 8
      · simp [hjk.2 h']
      · simp [h', mt hjk.1 h']
    | true =>
      simp only [if_true]
      rw [bit_or, hmask]
      by_cases h' : j % 8 = k % 8
      · simp [hjk.2 h']
      · simp [h', mt hjk.1 h']
  · rw [if_neg hbyte, if_neg (by rintro rfl; exact hbyte rfl)]

theorem bit_getD_of_aligned (h : k % 8 = 0) {b : Nat} (hb : b < 8) :
    bit (xs.getD (k / 8) 0) b = bitAt xs (k + b) := by
  rw [bitAt, show (k + b) / 8 = k / 8 by omega, show (k + b) % 8 = b by omega]

/-- Bits assigned one after the other at the positions `p 0`, `p 1`, ... -/
def scatter (p : Nat → Nat) (f : Nat → Bool) (n : Nat) (xs : List UInt8) : List UInt8 :=
  (List.range n).foldl (fun xs b => assignBit xs (p b) (f b)) xs

variable {p : Nat → Nat} {f : Nat → Bool} {n : Nat}

theorem scatter_succ : scatter p f (n + 1) xs = assignBit (scatter p f n xs) (p n) (f n) := by
  rw [scatter, List.range_succ, List.foldl_append]
  rfl

@[simp] theorem length_scatter : (scatter p f n xs).length = xs.length := by
  induction n with
  | zero => rfl
  | succ n ih => rw [scatter_succ, length_assignBit, ih]

theorem bitAt_scatter_of_ne (hp : ∀ b, b < n → p b / 8 < xs.length)
    (hk : ∀ b, b < n → k ≠ p b) : bitAt (scatter p f n xs) k = bitAt xs k := by
  induction n with
  | zero => rfl
  | succ n ih =>
    have hlen : p n / 8 < (scatter p f n xs).length := by
      rw [length_scatter]
      exact hp n (Nat.lt_succ_self n)
    rw [scatter_succ, bitAt_assignBit hlen, if_neg (hk n (Nat.lt_succ_self n))]
    exact ih (fun b hb => hp b (by omega)) fun b hb => hk b (by omega)

theorem bitAt_scatter (hp : ∀ b, b < n → p b / 8 < xs.length)
    (hinj : ∀ b c, b < n → c < n → p b = p c → b = c) {b : Nat} (hb : b < n) :
    bitAt (scatter p f n xs) (p b) = f b := by
  induction n with
  | zero => exact absurd hb (Nat.not_lt_zero b)
  | succ n ih =>
    have hlen : p n / 8 < (scatter p f n xs).length := by
      rw [length_scatter]
      exact hp n (Nat.lt_succ_self n)
    rw [scatter_succ, bitAt_assignBit hlen]
    by_cases h : p b = p n
    · rw [if_pos h, hinj b n hb (Nat.lt_succ_self n) h]
    · have hb' : b < n := by
        have hne : b ≠ n := fun hne => h (by rw [hne])
        omega
      rw [if_neg h]
      exact ih (fun c hc => hp c (by omega)) (fun c d hc hd => hinj c d (by omega) (by omega)) hb'

end String

end Utlib.Bits
