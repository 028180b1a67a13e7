import Utlib.SoftFloat.Arithmetic

/-! Digits of quotients, guessed with a reciprocal and corrected by the remainder. -/

namespace Utlib.SoftFloat

open Utlib.Rounding

section Estimate

variable {n s w d : ℕ}

/-- The reciprocal of the upper half of a divisor, times a dividend without its lower bits, misses
the quotient by less than one half upwards, and by less than three halves downwards. -/
theorem recip_mul_bounds (hlo : s * 2 ^ 32 ≤ d) (hhi : d < (s + 1) * 2 ^ 32) (hs : 2 ^ 31 ≤ s)
    (hd : d < 2 ^ 64) (hw : w = (2 ^ 63 - 1) / s)
    (hn : n < 2 * (d * 2 ^ 32)) :
    n / 2 ^ 66 * w * (8 * d) < n * 2 ^ 32 + 8 * d * 2 ^ 31 ∧
      n * 2 ^ 32 < n / 2 ^ 66 * w * (8 * d) + 8 * d * (3 * 2 ^ 31) := by
  have hspos : 0 < s := by omega
  have hdpos : 0 < d := by omega
  have hsw : s * w ≤ 2 ^ 63 - 1 := hw ▸ Nat.mul_div_le _ _
  have hsw' : 2 ^ 63 ≤ s * (w + 1) := by
    have := Nat.lt_mul_div_succ (2 ^ 63 - 1) hspos
    rw [← hw] at this
    omega
  have hwlt : w < 2 ^ 32 := by
    by_contra hge
    have := Nat.mul_le_mul hs (not_lt.1 hge)
    omega
  have hr : n / 2 ^ 66 * 2 ^ 66 ≤ n := Nat.div_mul_le_self _ _
  have hr' : n < (n / 2 ^ 66 + 1) * 2 ^ 66 := by omega
  generalize n / 2 ^ 66 = r at *
  have hrd : r * 2 ^ 33 < d := by omega
  constructor
  · have hup : d * (r * w) ≤ (s + 1) * 2 ^ 32 * (r * w) := Nat.mul_le_mul_right _ hhi.le
    have hprod : (s + 1) * (r * w) = r * (s * w) + r * w := by ring
    have hmain : r * (s * w) ≤ r * (2 ^ 63 - 1) := Nat.mul_le_mul_left _ hsw
    have hrest : r * w ≤ r * 2 ^ 32 := Nat.mul_le_mul_left _ hwlt.le
    have hleft : r * w * (8 * d) = 8 * (d * (r * w)) := by ring
    have hright : (s + 1) * 2 ^ 32 * (r * w) = 2 ^ 32 * ((s + 1) * (r * w)) := by ring
    omega
  · have hdown : s * 2 ^ 32 * (w + 1) ≤ d * (w + 1) := Nat.mul_le_mul_right _ hlo
    have hdown' : s * 2 ^ 32 * (w + 1) = 2 ^ 32 * (s * (w + 1)) := by ring
    have hscaled : r * 2 ^ 95 ≤ r * (d * (w + 1)) := Nat.mul_le_mul_left _ (by omega)
    have hexpand : r * (d * (w + 1)) = d * (r * w) + r * d := by ring
    have hleft : r * w * (8 * d) = 8 * (d * (r * w)) := by ring
    have hrest : r * d ≤ 2 ^ 31 * d := Nat.mul_le_mul_right _ (by omega)
    linarith

variable {rem : Uint128} {b : UInt64}

theorem toNat_approxRecip32 {a : UInt32} (ha : 2 ^ 31 ≤ a.toNat) :
    (approxRecip32 a).toNat = (2 ^ 63 - 1) / a.toNat := by
  have hlt : (2 ^ 63 - 1) / a.toNat < 2 ^ 32 := by
    rw [Nat.div_lt_iff_lt_mul (by omega)]
    omega
  have hquot : ((0x7FFFFFFFFFFFFFFF : UInt64) / a.toUInt64).toNat = (2 ^ 63 - 1) / a.toNat := by
    rw [UInt64.toNat_div, UInt32.toNat_toUInt64]
    rfl
  rw [approxRecip32, UInt64.toNat_toUInt32, hquot, Nat.mod_eq_of_lt hlt]

theorem toNat_estimate64 (recip32 : UInt32) (hrem : rem.toNat < 2 ^ 97) :
    (estimate64 rem recip32).toNat = rem.toNat / 2 ^ 66 * recip32.toNat := by
  have hrecip := recip32.toNat_lt
  have hhigh : (rem.v64 >>> 2).toNat = rem.toNat / 2 ^ 66 := by
    rw [UInt64.toNat_shiftRight, ← rem.toNat_div, Nat.shiftRight_eq_div_pow]
    change rem.toNat / 2 ^ 64 / 2 ^ 2 = _
    omega
  have hprod : rem.toNat / 2 ^ 66 * recip32.toNat < 2 ^ 31 * 2 ^ 32 :=
    Nat.mul_lt_mul'' (by omega) hrecip
  rw [estimate64, UInt64.toNat_mul, toNat_low, hhigh, UInt32.toNat_toUInt64,
    Nat.mod_eq_of_lt (by omega : rem.toNat / 2 ^ 66 < 2 ^ 32), Nat.mod_eq_of_lt (by omega)]

theorem estimate64_bounds (hb : 2 ^ 63 ≤ b.toNat) (hrem : rem.toNat < 2 * (b.toNat * 2 ^ 32)) :
    let q64 := (estimate64 rem (approxRecip32 (b >>> 32).toUInt32)).toNat
    q64 < 2 ^ 63 ∧ q64 * (8 * b.toNat) < rem.toNat * 2 ^ 32 + 8 * b.toNat * 2 ^ 31 ∧
      rem.toNat * 2 ^ 32 < q64 * (8 * b.toNat) + 8 * b.toNat * (3 * 2 ^ 31) := by
  intro q64
  have hlt := b.toNat_lt
  have hhigh : (b >>> 32).toUInt32.toNat = b.toNat / 2 ^ 32 := by
    rw [UInt64.toNat_toUInt32, toNat_shiftRight_32]
    omega
  have hrecip : (approxRecip32 (b >>> 32).toUInt32).toNat = (2 ^ 63 - 1) / (b.toNat / 2 ^ 32) := by
    rw [toNat_approxRecip32 (by omega), hhigh]
  have hq64 : q64 = rem.toNat / 2 ^ 66 * (approxRecip32 (b >>> 32).toUInt32).toNat :=
    toNat_estimate64 _ (by omega)
  have hprod : rem.toNat / 2 ^ 66 * (approxRecip32 (b >>> 32).toUInt32).toNat < 2 ^ 31 * 2 ^ 32 :=
    Nat.mul_lt_mul'' (by omega) (UInt32.toNat_lt _)
  have hbounds := recip_mul_bounds (Nat.div_mul_le_self b.toNat (2 ^ 32)) (by omega) (by omega)
    hlt hrecip hrem
  rw [← hq64] at hbounds
  exact ⟨by omega, hbounds⟩

/-- A digit that is guessed is at most one too large, and less than two too small. -/
theorem estimate_bounds (hb : 2 ^ 63 ≤ b.toNat) (hrem : rem.toNat < 2 * (b.toNat * 2 ^ 32)) :
    let q := (estimate rem (approxRecip32 (b >>> 32).toUInt32)).toNat
    q * (b.toNat * 2 ^ 32) < rem.toNat * 2 ^ 29 + b.toNat * 2 ^ 32 ∧
      rem.toNat * 2 ^ 29 < (q + 2) * (b.toNat * 2 ^ 32) := by
  intro q
  obtain ⟨hlt, hup, hdown⟩ := estimate64_bounds hb hrem
  have hq : q = ((estimate64 rem (approxRecip32 (b >>> 32).toUInt32)).toNat + 2 ^ 31) / 2 ^ 32 := by
    have hhalf : (0x80000000 : UInt64).toNat = 2 ^ 31 := rfl
    change (UInt64.toUInt32 _).toNat = _
    rw [UInt64.toNat_toUInt32, toNat_shiftRight_32, UInt64.toNat_add, hhalf]
    omega
  generalize (estimate64 rem (approxRecip32 (b >>> 32).toUInt32)).toNat = q64 at *
  have hle : q * 2 ^ 32 * (8 * b.toNat) ≤ (q64 + 2 ^ 31) * (8 * b.toNat) :=
    Nat.mul_le_mul_right _ (by omega)
  have hge : (q64 + 2 ^ 31) * (8 * b.toNat) ≤ (q + 1) * 2 ^ 32 * (8 * b.toNat) :=
    Nat.mul_le_mul_right _ (by omega)
  have hq' : q * 2 ^ 32 * (8 * b.toNat) = 2 ^ 35 * (q * b.toNat) := by ring
  have hq'' : (q + 1) * 2 ^ 32 * (8 * b.toNat) = 2 ^ 35 * (q * b.toNat) + 2 ^ 35 * b.toNat := by
    ring
  have hq64 : (q64 + 2 ^ 31) * (8 * b.toNat) = q64 * (8 * b.toNat) + 2 ^ 34 * b.toNat := by ring
  have hgoal : q * (b.toNat * 2 ^ 32) = 2 ^ 32 * (q * b.toNat) := by ring
  have hgoal' : (q + 2) * (b.toNat * 2 ^ 32) = 2 ^ 32 * (q * b.toNat) + 2 ^ 33 * b.toNat := by ring
  rw [hgoal, hgoal']
  rw [hq', hq64] at hle
  rw [hq'', hq64] at hge
  omega

end Estimate

section Reduce

variable {rem : Uint128} {b : UInt64} {dist : ℕ} {q : UInt32}

theorem highBit128_iff (z : Uint128) :
    z.v64 &&& 0x8000000000000000 ≠ 0 ↔ 2 ^ 127 ≤ z.toNat := by
  rw [and_highBit_ne_zero_iff, ← z.toNat_div]
  omega

theorem or_words_eq_zero_iff (z : Uint128) : z.v64 ||| z.v0 = 0 ↔ z.toNat = 0 := by
  rw [UInt64.or_eq_zero_iff, ← UInt64.toNat_inj, ← UInt64.toNat_inj, UInt64.toNat_zero,
    Uint128.toNat]
  omega

theorem toNat_shifted (b : UInt64) : Uint128.toNat ⟨b >>> 32, b <<< 32⟩ = b.toNat * 2 ^ 32 := by
  rw [Uint128.toNat, toNat_shiftRight_32, toNat_shiftLeft_32]
  omega

theorem toNat_shortShiftLeft128_word (a : UInt64) (hpos : 0 < dist) (hlt : dist < 64) :
    (shortShiftLeft128 0 a dist).toNat = a.toNat * 2 ^ dist := by
  have hword : Uint128.toNat ⟨0, a⟩ = a.toNat := by
    rw [Uint128.toNat, UInt64.toNat_zero, Nat.zero_mul, Nat.zero_add]
  have hfits : a.toNat * 2 ^ dist < 2 ^ 64 * 2 ^ 64 :=
    Nat.mul_lt_mul'' a.toNat_lt (Nat.pow_lt_pow_right (by decide) hlt)
  rw [toNat_shortShiftLeft128 0 a hpos hlt, hword, Nat.mod_eq_of_lt (by omega)]

/-- The remainder may become negative, as the digit may be too large. -/
theorem reduce_cases (hpos : 0 < dist) (hle : dist ≤ 29)
    (hrem : rem.toNat < 2 * (b.toNat * 2 ^ 32))
    (hup : q.toNat * (b.toNat * 2 ^ 32) < rem.toNat * 2 ^ dist + b.toNat * 2 ^ 32)
    (hdown : rem.toNat * 2 ^ dist < (q.toNat + 3) * (b.toNat * 2 ^ 32)) :
    if (reduce b rem dist q).v64 &&& 0x8000000000000000 ≠ 0 then
      (reduce b rem dist q).toNat + q.toNat * (b.toNat * 2 ^ 32) =
        rem.toNat * 2 ^ dist + 2 ^ 128
    else
      (reduce b rem dist q).toNat + q.toNat * (b.toNat * 2 ^ 32) = rem.toNat * 2 ^ dist := by
  have hb := b.toNat_lt
  have hpow : 2 ^ dist ≤ 2 ^ 29 := Nat.pow_le_pow_right two_pos hle
  have hfits : rem.toNat * 2 ^ dist ≤ 2 ^ 97 * 2 ^ 29 := Nat.mul_le_mul (by omega) hpow
  have hshift := toNat_shortShiftLeft128 rem.v64 rem.v0 hpos (by omega : dist < 64)
  have hterm := toNat_mul64ByShifted32To128 b q
  have hsub := toNat_sub128 (shortShiftLeft128 rem.v64 rem.v0 dist).v64
    (shortShiftLeft128 rem.v64 rem.v0 dist).v0 (mul64ByShifted32To128 b q).v64
    (mul64ByShifted32To128 b q).v0
  change _ = rem.toNat * 2 ^ dist % 2 ^ 128 at hshift
  change (reduce b rem dist q).toNat = ((shortShiftLeft128 rem.v64 rem.v0 dist).toNat +
    (2 ^ 128 - (mul64ByShifted32To128 b q).toNat)) % 2 ^ 128 at hsub
  rw [hshift, hterm, Nat.mod_eq_of_lt (by omega : rem.toNat * 2 ^ dist < 2 ^ 128)] at hsub
  have hassoc : q.toNat * (b.toNat * 2 ^ 32) = b.toNat * q.toNat * 2 ^ 32 := by ring
  have hexpand : (q.toNat + 3) * (b.toNat * 2 ^ 32) =
      b.toNat * q.toNat * 2 ^ 32 + 3 * (b.toNat * 2 ^ 32) := by ring
  simp only [highBit128_iff]
  rw [hexpand] at hdown
  rw [hassoc] at hup ⊢
  split <;> omega

theorem mul_pred_add {q d : ℕ} (hpos : 1 ≤ q) : (q - 1) * d + d = q * d := by
  rw [← Nat.succ_mul, Nat.succ_eq_add_one, Nat.sub_add_cancel hpos]

/-- A negative remainder is corrected by adding the divisor once. -/
theorem reduce_corrected {s : Uint128} (hs : s.toNat = b.toNat * 2 ^ 32) (hpos : 0 < dist)
    (hle : dist ≤ 29) (hrem : rem.toNat < 2 * (b.toNat * 2 ^ 32))
    (hup : q.toNat * (b.toNat * 2 ^ 32) < rem.toNat * 2 ^ dist + b.toNat * 2 ^ 32)
    (hdown : rem.toNat * 2 ^ dist < (q.toNat + 3) * (b.toNat * 2 ^ 32)) :
    let z := reduce b rem dist q
    if z.v64 &&& 0x8000000000000000 ≠ 0 then
      1 ≤ q.toNat ∧ ∃ r, (add128 z.v64 z.v0 s.v64 s.v0).toNat = r ∧ r < b.toNat * 2 ^ 32 ∧
        z.toNat + b.toNat * 2 ^ 32 = r + 2 ^ 128 ∧
        (q.toNat - 1) * (b.toNat * 2 ^ 32) + r = rem.toNat * 2 ^ dist
    else
      ∃ r, z.toNat = r ∧ q.toNat * (b.toNat * 2 ^ 32) + r = rem.toNat * 2 ^ dist := by
  intro z
  have hb := b.toNat_lt
  have hz := z.toNat_lt
  have hcases := reduce_cases hpos hle hrem hup hdown
  have hadd := toNat_add128 z.v64 z.v0 s.v64 s.v0
  change _ = (z.toNat + s.toNat) % 2 ^ 128 at hadd
  rw [hs] at hadd
  change if z.v64 &&& 0x8000000000000000 ≠ 0 then z.toNat + _ = _ else z.toNat + _ = _ at hcases
  split
  · next hneg =>
    rw [if_pos hneg] at hcases
    have hpos : 1 ≤ q.toNat := by
      by_contra hzero
      rw [Nat.lt_one_iff.1 (not_le.1 hzero), Nat.zero_mul] at hcases
      omega
    have hsplit := mul_pred_add (d := b.toNat * 2 ^ 32) hpos
    refine ⟨hpos, _, hadd, by omega, by omega, by omega⟩
  · next hneg =>
    rw [if_neg hneg] at hcases
    exact ⟨_, rfl, by omega⟩

end Reduce

end Utlib.SoftFloat
