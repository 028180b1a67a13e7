import Utlib.SoftFloat.Words

/-! Arithmetic on pairs of words. -/

namespace Utlib.SoftFloat

open Utlib.Rounding

structure Uint128 where
  v64 : UInt64
  v0 : UInt64

namespace Uint128

def toNat (z : Uint128) : ℕ := z.v64.toNat * 2 ^ 64 + z.v0.toNat

theorem toNat_lt (z : Uint128) : z.toNat < 2 ^ 128 := by
  have hlt := z.v64.toNat_lt
  have hlt' := z.v0.toNat_lt
  rw [toNat]
  omega

theorem toNat_div (z : Uint128) : z.toNat / 2 ^ 64 = z.v64.toNat := by
  have hlt := z.v0.toNat_lt
  rw [toNat]
  omega

theorem toNat_mod (z : Uint128) : z.toNat % 2 ^ 64 = z.v0.toNat := by
  have hlt := z.v0.toNat_lt
  rw [toNat]
  omega

theorem toNat_inj {z z' : Uint128} (h : z.toNat = z'.toNat) : z = z' := by
  have hhigh : z.v64 = z'.v64 := UInt64.toNat_inj.1 (by rw [← toNat_div, ← toNat_div, h])
  have hlow : z.v0 = z'.v0 := UInt64.toNat_inj.1 (by rw [← toNat_mod, ← toNat_mod, h])
  cases z
  cases z'
  simp_all

end Uint128

def add128 (a64 a0 b64 b0 : UInt64) : Uint128 :=
  ⟨a64 + b64 + if a0 + b0 < a0 then 1 else 0, a0 + b0⟩

def sub128 (a64 a0 b64 b0 : UInt64) : Uint128 :=
  ⟨a64 - b64 - if a0 < b0 then 1 else 0, a0 - b0⟩

def lt128 (a64 a0 b64 b0 : UInt64) : Bool := a64 < b64 || (a64 = b64 && a0 < b0)

def le128 (a64 a0 b64 b0 : UInt64) : Bool := a64 < b64 || (a64 = b64 && a0 ≤ b0)

/-- Four products of halves; the carry out of the middle is added by hand. -/
def mul64To128 (a b : UInt64) : Uint128 :=
  let a32 := (a >>> 32).toUInt32.toUInt64
  let a0 := a.toUInt32.toUInt64
  let b32 := (b >>> 32).toUInt32.toUInt64
  let b0 := b.toUInt32.toUInt64
  let mid1 := a32 * b0
  let mid := mid1 + a0 * b32
  let v64 := a32 * b32 + ((if mid < mid1 then 1 else 0 : UInt64) <<< 32 ||| mid >>> 32)
  let v0 := a0 * b0 + mid <<< 32
  ⟨v64 + if v0 < mid <<< 32 then 1 else 0, v0⟩

def mul64ByShifted32To128 (a : UInt64) (b : UInt32) : Uint128 :=
  let mid := a.toUInt32.toUInt64 * b.toUInt64
  ⟨(a >>> 32).toUInt32.toUInt64 * b.toUInt64 + mid >>> 32, mid <<< 32⟩

def shortShiftLeft128 (a64 a0 : UInt64) (dist : ℕ) : Uint128 :=
  ⟨a64 <<< UInt64.ofNat dist ||| a0 >>> UInt64.ofNat (64 - dist), a0 <<< UInt64.ofNat dist⟩

def shiftRightJam128 (a64 a0 : UInt64) (dist : ℕ) : Uint128 :=
  if dist < 64 then
    ⟨a64 >>> UInt64.ofNat dist,
      a64 <<< UInt64.ofNat (64 - dist) ||| a0 >>> UInt64.ofNat dist |||
        if a0 <<< UInt64.ofNat (64 - dist) ≠ 0 then 1 else 0⟩
  else if dist < 127 then
    ⟨0, a64 >>> UInt64.ofNat (dist - 64) |||
      if a64 &&& (1 <<< UInt64.ofNat (dist - 64) - 1) ||| a0 ≠ 0 then 1 else 0⟩
  else
    ⟨0, if a64 ||| a0 ≠ 0 then 1 else 0⟩

section Sums

variable {a64 a0 b64 b0 : UInt64}

theorem toNat_add128 (a64 a0 b64 b0 : UInt64) :
    (add128 a64 a0 b64 b0).toNat =
      (Uint128.toNat ⟨a64, a0⟩ + Uint128.toNat ⟨b64, b0⟩) % 2 ^ 128 := by
  have ha := a0.toNat_lt
  have hb := b0.toNat_lt
  have hcarry : a0 + b0 < a0 ↔ 2 ^ 64 ≤ a0.toNat + b0.toNat := by
    rw [UInt64.lt_iff_toNat_lt, UInt64.toNat_add]
    omega
  rw [add128, Uint128.toNat, Uint128.toNat, Uint128.toNat]
  dsimp only
  rw [UInt64.toNat_add, UInt64.toNat_add, UInt64.toNat_add, toNat_carry]
  simp only [hcarry]
  split <;> omega

theorem toNat_sub128 (a64 a0 b64 b0 : UInt64) :
    (sub128 a64 a0 b64 b0).toNat =
      (Uint128.toNat ⟨a64, a0⟩ + (2 ^ 128 - Uint128.toNat ⟨b64, b0⟩)) % 2 ^ 128 := by
  have ha := a0.toNat_lt
  have hb := b0.toNat_lt
  have ha' := a64.toNat_lt
  have hb' := b64.toNat_lt
  rw [sub128, Uint128.toNat, Uint128.toNat, Uint128.toNat]
  dsimp only
  rw [UInt64.toNat_sub, UInt64.toNat_sub, UInt64.toNat_sub, toNat_carry]
  simp only [UInt64.lt_iff_toNat_lt]
  split <;> omega

theorem lt128_iff (a64 a0 b64 b0 : UInt64) :
    lt128 a64 a0 b64 b0 = true ↔ Uint128.toNat ⟨a64, a0⟩ < Uint128.toNat ⟨b64, b0⟩ := by
  have ha := a0.toNat_lt
  have hb := b0.toNat_lt
  simp only [lt128, Uint128.toNat, Bool.or_eq_true, Bool.and_eq_true, decide_eq_true_iff,
    UInt64.lt_iff_toNat_lt, ← UInt64.toNat_inj]
  omega

theorem le128_iff (a64 a0 b64 b0 : UInt64) :
    le128 a64 a0 b64 b0 = true ↔ Uint128.toNat ⟨a64, a0⟩ ≤ Uint128.toNat ⟨b64, b0⟩ := by
  have ha := a0.toNat_lt
  have hb := b0.toNat_lt
  simp only [le128, Uint128.toNat, Bool.or_eq_true, Bool.and_eq_true, decide_eq_true_iff,
    UInt64.lt_iff_toNat_lt, UInt64.le_iff_toNat_le, ← UInt64.toNat_inj]
  omega

end Sums

section Products

variable (a b : UInt64)

theorem toNat_low : a.toUInt32.toUInt64.toNat = a.toNat % 2 ^ 32 := by
  rw [UInt32.toNat_toUInt64, UInt64.toNat_toUInt32]

theorem toNat_shiftRight_32 : (a >>> 32).toNat = a.toNat / 2 ^ 32 := by
  rw [UInt64.toNat_shiftRight, Nat.shiftRight_eq_div_pow]
  rfl

theorem toNat_shiftLeft_32 : (a <<< 32).toNat = a.toNat % 2 ^ 32 * 2 ^ 32 := by
  rw [UInt64.toNat_shiftLeft, Nat.shiftLeft_eq]
  change a.toNat * 2 ^ 32 % 2 ^ 64 = _
  omega

theorem toNat_high : (a >>> 32).toUInt32.toUInt64.toNat = a.toNat / 2 ^ 32 := by
  have hlt := a.toNat_lt
  rw [toNat_low, toNat_shiftRight_32]
  omega

/-- The product of two halves leaves room for two more halves. -/
theorem mul_half_le {m n : ℕ} (hm : m < 2 ^ 32) (hn : n < 2 ^ 32) :
    m * n ≤ (2 ^ 32 - 1) * (2 ^ 32 - 1) :=
  Nat.mul_le_mul (by omega) (by omega)

theorem toNat_mul_half {x y : UInt64} (hx : x.toNat < 2 ^ 32) (hy : y.toNat < 2 ^ 32) :
    (x * y).toNat = x.toNat * y.toNat := by
  have hle := mul_half_le hx hy
  rw [UInt64.toNat_mul]
  exact Nat.mod_eq_of_lt (by omega)

theorem toNat_mul64To128 : (mul64To128 a b).toNat = a.toNat * b.toNat := by
  have ha := a.toNat_lt
  have hb := b.toNat_lt
  have ha0 : a.toUInt32.toUInt64.toNat < 2 ^ 32 := by rw [toNat_low]; omega
  have hb0 : b.toUInt32.toUInt64.toNat < 2 ^ 32 := by rw [toNat_low]; omega
  have ha32 : (a >>> 32).toUInt32.toUInt64.toNat < 2 ^ 32 := by rw [toNat_high]; omega
  have hb32 : (b >>> 32).toUInt32.toUInt64.toNat < 2 ^ 32 := by rw [toNat_high]; omega
  have hsplit : a.toNat * b.toNat =
      a.toNat / 2 ^ 32 * (b.toNat / 2 ^ 32) * 2 ^ 64 +
        (a.toNat / 2 ^ 32 * (b.toNat % 2 ^ 32) + a.toNat % 2 ^ 32 * (b.toNat / 2 ^ 32)) * 2 ^ 32 +
          a.toNat % 2 ^ 32 * (b.toNat % 2 ^ 32) := by
    conv_lhs => rw [← Nat.div_add_mod a.toNat (2 ^ 32), ← Nat.div_add_mod b.toNat (2 ^ 32)]
    ring
  have hp := mul_half_le ha0 hb0
  have hq := mul_half_le ha32 hb0
  have hr := mul_half_le ha0 hb32
  have ht := mul_half_le ha32 hb32
  rw [hsplit, ← toNat_high a, ← toNat_high b, ← toNat_low a, ← toNat_low b,
    ← toNat_mul_half ha32 hb32, ← toNat_mul_half ha32 hb0, ← toNat_mul_half ha0 hb32,
    ← toNat_mul_half ha0 hb0]
  rw [← toNat_mul_half ha0 hb0] at hp
  rw [← toNat_mul_half ha32 hb0] at hq
  rw [← toNat_mul_half ha0 hb32] at hr
  rw [← toNat_mul_half ha32 hb32] at ht
  rw [mul64To128, Uint128.toNat]
  dsimp only
  generalize a.toUInt32.toUInt64 * b.toUInt32.toUInt64 = p at *
  generalize (a >>> 32).toUInt32.toUInt64 * b.toUInt32.toUInt64 = q at *
  generalize a.toUInt32.toUInt64 * (b >>> 32).toUInt32.toUInt64 = r at *
  generalize (a >>> 32).toUInt32.toUInt64 * (b >>> 32).toUInt32.toUInt64 = t at *
  clear hsplit ha0 hb0 ha32 hb32 ha hb
  have hmid : (q + r).toNat = (q.toNat + r.toNat) % 2 ^ 64 := UInt64.toNat_add q r
  have hcarry : q + r < q ↔ 2 ^ 64 ≤ q.toNat + r.toNat := by
    rw [UInt64.lt_iff_toNat_lt, hmid]
    omega
  have hor : ((if q + r < q then 1 else 0 : UInt64) <<< 32 ||| (q + r) >>> 32).toNat =
      (if q + r < q then 1 else 0) * 2 ^ 32 + (q + r).toNat / 2 ^ 32 := by
    have hlt : (q + r).toNat / 2 ^ 32 < 2 ^ 32 := by
      have := (q + r).toNat_lt
      omega
    rw [UInt64.toNat_or, toNat_shiftRight_32, toNat_shiftLeft_32, toNat_carry]
    rw [show (if q + r < q then 1 else 0) % 2 ^ 32 * 2 ^ 32 =
      2 ^ 32 * if q + r < q then 1 else 0 by split <;> rfl, ← Nat.two_pow_add_eq_or_of_lt hlt]
    ring
  have hlow : p + (q + r) <<< 32 < (q + r) <<< 32 ↔
      2 ^ 64 ≤ p.toNat + (q + r).toNat % 2 ^ 32 * 2 ^ 32 := by
    rw [UInt64.lt_iff_toNat_lt, UInt64.toNat_add, toNat_shiftLeft_32]
    have := p.toNat_lt
    omega
  rw [UInt64.toNat_add, UInt64.toNat_add, UInt64.toNat_add, hor, toNat_carry, toNat_shiftLeft_32]
  simp only [hlow, hcarry, hmid]
  split <;> split <;> omega

theorem toNat_mul64ByShifted32To128 (b : UInt32) :
    (mul64ByShifted32To128 a b).toNat = a.toNat * b.toNat * 2 ^ 32 := by
  have ha := a.toNat_lt
  have hb := b.toNat_lt
  have hb' : b.toUInt64.toNat < 2 ^ 32 := by rw [UInt32.toNat_toUInt64]; omega
  have ha0 : a.toUInt32.toUInt64.toNat < 2 ^ 32 := by rw [toNat_low]; omega
  have ha32 : (a >>> 32).toUInt32.toUInt64.toNat < 2 ^ 32 := by rw [toNat_high]; omega
  have hsplit : a.toNat * b.toNat =
      a.toNat / 2 ^ 32 * b.toNat * 2 ^ 32 + a.toNat % 2 ^ 32 * b.toNat := by
    conv_lhs => rw [← Nat.div_add_mod a.toNat (2 ^ 32)]
    ring
  have hp := mul_half_le ha0 hb'
  have hq := mul_half_le ha32 hb'
  rw [hsplit, ← toNat_high a, ← toNat_low a, ← UInt32.toNat_toUInt64 b,
    ← toNat_mul_half ha32 hb', ← toNat_mul_half ha0 hb']
  rw [← toNat_mul_half ha0 hb'] at hp
  rw [← toNat_mul_half ha32 hb'] at hq
  rw [mul64ByShifted32To128, Uint128.toNat]
  dsimp only
  rw [UInt64.toNat_add, toNat_shiftRight_32, toNat_shiftLeft_32]
  omega

end Products

section Shifts

variable {dist : ℕ}

theorem toNat_shiftLeft_of_lt (a : UInt64) (hpos : 0 < dist) (hlt : dist < 64) :
    (a <<< UInt64.ofNat dist).toNat = a.toNat % 2 ^ (64 - dist) * 2 ^ dist := by
  have hrest := toNat_shiftLeft_rest (a := a) (show 0 < 64 - dist by omega) (by omega)
  rwa [show 64 - (64 - dist) = dist by omega] at hrest

/-- The upper word takes over what the lower one loses. -/
theorem toNat_shiftLeft_or (a64 a0 : UInt64) (hpos : 0 < dist) (hlt : dist < 64) :
    (a64 <<< UInt64.ofNat dist ||| a0 >>> UInt64.ofNat (64 - dist)).toNat =
      a64.toNat % 2 ^ (64 - dist) * 2 ^ dist + a0.toNat / 2 ^ (64 - dist) := by
  have hquot : a0.toNat / 2 ^ (64 - dist) < 2 ^ dist := by
    rw [Nat.div_lt_iff_lt_mul (Nat.two_pow_pos _), ← pow_add, Nat.add_sub_of_le hlt.le]
    exact a0.toNat_lt
  rw [UInt64.toNat_or, toNat_shiftLeft_of_lt a64 hpos hlt, toNat_shiftRight_of_lt (by omega),
    Nat.mul_comm, ← Nat.two_pow_add_eq_or_of_lt hquot]

theorem toNat_shortShiftLeft128 (a64 a0 : UInt64) (hpos : 0 < dist) (hlt : dist < 64) :
    (shortShiftLeft128 a64 a0 dist).toNat =
      Uint128.toNat ⟨a64, a0⟩ * 2 ^ dist % 2 ^ 128 := by
  have hprod : 2 ^ (64 - dist) * 2 ^ dist = 2 ^ 64 := by
    rw [← pow_add, Nat.sub_add_cancel hlt.le]
  rw [shortShiftLeft128, Uint128.toNat, Uint128.toNat]
  dsimp only
  rw [toNat_shiftLeft_or a64 a0 hpos hlt, toNat_shiftLeft_of_lt a0 hpos hlt]
  have ha := a0.toNat_lt
  have hpos' := Nat.two_pow_pos dist
  have hpos'' := Nat.two_pow_pos (64 - dist)
  generalize 2 ^ (64 - dist) = q at *
  generalize 2 ^ dist = p at *
  have hy : a0.toNat / q < p := by
    rw [Nat.div_lt_iff_lt_mul hpos'', Nat.mul_comm, hprod]
    exact ha
  have hr : a64.toNat % q * p + p ≤ 2 ^ 64 := by
    rw [← Nat.succ_mul, ← hprod]
    exact Nat.mul_le_mul_right p (Nat.mod_lt _ hpos'')
  have hs : a0.toNat % q * p + p ≤ 2 ^ 64 := by
    rw [← Nat.succ_mul, ← hprod]
    exact Nat.mul_le_mul_right p (Nat.mod_lt _ hpos'')
  have hword (a : ℕ) : a * p = a % q * p + 2 ^ 64 * (a / q) := by
    calc a * p = (q * (a / q) + a % q) * p := by rw [Nat.div_add_mod]
      _ = a % q * p + q * p * (a / q) := by ring
      _ = a % q * p + 2 ^ 64 * (a / q) := by rw [hprod]
  have hsum : (a64.toNat * 2 ^ 64 + a0.toNat) * p = a64.toNat * p * 2 ^ 64 + a0.toNat * p := by ring
  rw [hsum, hword a64.toNat, hword a0.toNat]
  omega

theorem jam_eq_ite (n d : ℕ) : jam n d = if n % d ≠ 0 then n / d / 2 * 2 + 1 else n / d := by
  rcases jam_cases n d with ⟨hzero, heq⟩ | ⟨hne, heq⟩
  · rw [heq, if_neg (not_not.2 hzero)]
  · rw [heq, if_pos hne]

theorem toNat_shiftRightJam128 (a64 a0 : UInt64) (hpos : 0 < dist) :
    (shiftRightJam128 a64 a0 dist).toNat = jam (Uint128.toNat ⟨a64, a0⟩) (2 ^ dist) := by
  have ha := a0.toNat_lt
  have ha' := a64.toNat_lt
  rw [shiftRightJam128, jam_eq_ite]
  split
  · next hlt =>
    have hrest : a0 <<< UInt64.ofNat (64 - dist) ≠ 0 ↔ a0.toNat % 2 ^ dist ≠ 0 := by
      have htwo := Nat.two_pow_pos (64 - dist)
      rw [ne_zero_iff, toNat_shiftLeft_rest hpos hlt.le, ne_eq, Nat.mul_eq_zero]
      omega
    have hor := toNat_shiftLeft_or a64 a0 (show 0 < 64 - dist by omega) (by omega)
    rw [show 64 - (64 - dist) = dist by omega] at hor
    have hprod : 2 ^ 64 = 2 ^ dist * 2 ^ (64 - dist) := by rw [← pow_add, Nat.add_sub_of_le hlt.le]
    have hmod : (a64.toNat * 2 ^ 64 + a0.toNat) % 2 ^ dist = a0.toNat % 2 ^ dist := by
      rw [hprod, Nat.mul_left_comm, Nat.mul_add_mod]
    have hdiv : (a64.toNat * 2 ^ 64 + a0.toNat) / 2 ^ dist =
        a64.toNat / 2 ^ dist * 2 ^ 64 + a64.toNat % 2 ^ dist * 2 ^ (64 - dist) +
          a0.toNat / 2 ^ dist := by
      rw [hprod, Nat.mul_left_comm, Nat.mul_add_div (Nat.two_pow_pos dist), ← hprod]
      conv_lhs => rw [← Nat.div_add_mod a64.toNat (2 ^ dist)]
      rw [hprod]
      ring
    rw [Uint128.toNat, Uint128.toNat]
    dsimp only
    rw [toNat_shiftRight_of_lt hlt, toNat_or_ite, hor, hmod, hdiv]
    simp only [hrest]
    split <;> omega
  · next hge =>
    have hpow : 2 ^ dist = 2 ^ 64 * 2 ^ (dist - 64) := by rw [← pow_add, Nat.add_sub_of_le (by omega)]
    have hdiv : (a64.toNat * 2 ^ 64 + a0.toNat) / 2 ^ dist = a64.toNat / 2 ^ (dist - 64) := by
      rw [hpow, ← Nat.div_div_eq_div_mul]
      congr 1
      omega
    have hmod : (a64.toNat * 2 ^ 64 + a0.toNat) % 2 ^ dist ≠ 0 ↔
        a64.toNat % 2 ^ (dist - 64) ≠ 0 ∨ a0.toNat ≠ 0 := by
      have hquot : (a64.toNat * 2 ^ 64 + a0.toNat) / 2 ^ 64 = a64.toNat := by omega
      rw [hpow, Nat.mod_mul, hquot]
      omega
    have hsome (x y : UInt64) : x ||| y ≠ 0 ↔ x.toNat ≠ 0 ∨ y.toNat ≠ 0 := by
      rw [ne_zero_iff, UInt64.toNat_or, ne_eq, Nat.or_eq_zero_iff]
      tauto
    split
    · next hlt =>
      have hmask : (1 <<< UInt64.ofNat (dist - 64) - 1 : UInt64).toNat = 2 ^ (dist - 64) - 1 := by
        have hone : (1 <<< UInt64.ofNat (dist - 64) : UInt64).toNat = 2 ^ (dist - 64) := by
          rcases Nat.eq_zero_or_pos (dist - 64) with hzero | hpos'
          · rw [hzero]
            rfl
          · have hmod : 1 % 2 ^ (64 - (dist - 64)) = 1 :=
              Nat.mod_eq_of_lt (Nat.one_lt_two_pow (by omega))
            rw [toNat_shiftLeft_of_lt 1 hpos' (by omega), UInt64.toNat_one, hmod, Nat.one_mul]
        have hpos' := Nat.two_pow_pos (dist - 64)
        have hlt' : 2 ^ (dist - 64) < 2 ^ 64 := Nat.pow_lt_pow_right one_lt_two (by omega)
        rw [UInt64.toNat_sub, hone, UInt64.toNat_one]
        omega
      rw [Uint128.toNat, Uint128.toNat]
      dsimp only
      rw [toNat_or_ite, toNat_shiftRight_of_lt (by omega), hdiv, UInt64.toNat_zero, Nat.zero_mul,
        Nat.zero_add]
      simp only [hsome, toNat_and_mask hmask, hmod]
    · next hlarge =>
      have hsmall : a64.toNat / 2 ^ (dist - 64) / 2 = 0 := by
        have hpow' : 2 ^ 63 ≤ 2 ^ (dist - 64) := Nat.pow_le_pow_right two_pos (by omega)
        rw [Nat.div_div_eq_div_mul]
        exact Nat.div_eq_of_lt (by omega)
      have hsplit := Nat.div_add_mod a64.toNat (2 ^ (dist - 64))
      rw [Uint128.toNat, Uint128.toNat]
      dsimp only
      rw [toNat_carry, hdiv, hsmall, UInt64.toNat_zero, Nat.zero_mul, Nat.zero_add]
      simp only [hsome, hmod]
      by_cases hrest : a64.toNat % 2 ^ (dist - 64) ≠ 0 ∨ a0.toNat ≠ 0
      · have hne : a64.toNat ≠ 0 ∨ a0.toNat ≠ 0 := by
          refine hrest.imp_left fun h heq => h ?_
          rw [heq, Nat.zero_mod]
        rw [if_pos hne, if_pos hrest]
      · obtain ⟨hzero, hzero'⟩ := not_or.1 hrest
        rw [not_not] at hzero hzero'
        rw [hzero, Nat.add_zero] at hsplit
        rw [if_neg hrest]
        rcases (show a64.toNat / 2 ^ (dist - 64) = 0 ∨ a64.toNat / 2 ^ (dist - 64) = 1 by omega)
          with hquot | hquot
        · rw [hquot, Nat.mul_zero] at hsplit
          rw [hquot, if_neg (by omega)]
        · rw [hquot, Nat.mul_one] at hsplit
          have hpos' := Nat.two_pow_pos (dist - 64)
          rw [hquot, if_pos (by omega)]

end Shifts

end Utlib.SoftFloat
