import Utlib.Float80.Add
import Utlib.SoftFloat.Quotient

/-! Remainders are exact. -/

namespace Utlib

open Utlib.Rounding

namespace SoftFloat

section Loop

variable {a : ℕ} {b : UInt64} {rem : Uint128} {j : ℕ}

/-- What is left of `a * 2 ^ j` after subtracting some multiple of the divisor. -/
structure Residue (a d j : ℕ) (rem : Uint128) : Prop where
  eq : ∃ m, m * d + rem.toNat = a * 2 ^ j
  lt : rem.toNat < 2 * d

theorem isNegative_iff (z : Uint128) : isNegative z = true ↔ 2 ^ 127 ≤ z.toNat := by
  rw [isNegative, decide_eq_true_iff, highBit128_iff]

theorem toNat_shiftedSigB (b : UInt64) : (shortShiftLeft128 0 b 32).toNat = b.toNat * 2 ^ 32 :=
  toNat_shortShiftLeft128_word b (by decide) (by decide)

theorem remRound_residue (hb : 2 ^ 63 ≤ b.toNat) (h : Residue a (b.toNat * 2 ^ 32) j rem) :
    Residue a (b.toNat * 2 ^ 32) (j + 29)
      (remRound b (approxRecip32 (b >>> 32).toUInt32) rem) := by
  obtain ⟨⟨m, heq⟩, hlt⟩ := h
  obtain ⟨hup, hdown⟩ := estimate_bounds hb hlt
  have hcases := reduce_corrected (toNat_shiftedSigB b) (by decide) le_rfl hlt hup
    (hdown.trans_le (Nat.mul_le_mul_right _ (by omega)))
  rw [remRound]
  generalize estimate rem (approxRecip32 (b >>> 32).toUInt32) = q at *
  have hexpand (n : ℕ) : (m * 2 ^ 29 + n) * (b.toNat * 2 ^ 32) =
      m * (b.toNat * 2 ^ 32) * 2 ^ 29 + n * (b.toNat * 2 ^ 32) := by ring
  have hpow : a * 2 ^ (j + 29) = a * 2 ^ j * 2 ^ 29 := by rw [pow_add, Nat.mul_assoc]
  simp only [isNegative, decide_eq_true_iff]
  split
  · next hneg =>
    rw [if_pos hneg] at hcases
    obtain ⟨hpos, r, hr, hr', -, hexact⟩ := hcases
    refine ⟨⟨m * 2 ^ 29 + (q.toNat - 1), ?_⟩, ?_⟩
    · rw [hr, hexpand, hpow]
      omega
    · rw [hr]
      exact hr'.trans_le (Nat.le_mul_of_pos_left _ two_pos)
  · next hneg =>
    rw [if_neg hneg] at hcases
    obtain ⟨r, hr, hexact⟩ := hcases
    refine ⟨⟨m * 2 ^ 29 + q.toNat, ?_⟩, ?_⟩
    · rw [hr, hexpand, hpow]
      omega
    · rw [add_mul] at hdown
      rw [hr]
      omega

/-- The loop stops between two rounds, when less than 29 bits of the quotient are left. -/
theorem remLoop_residue (hb : 2 ^ 63 ≤ b.toNat) (expDiff : ℤ) (rem : Uint128)
    (hexp : -29 ≤ expDiff) (h : Residue a (b.toNat * 2 ^ 32) j rem) :
    -29 ≤ (remLoop b (approxRecip32 (b >>> 32).toUInt32) expDiff rem).1 ∧
      (remLoop b (approxRecip32 (b >>> 32).toUInt32) expDiff rem).1 < 0 ∧
      ∃ j' : ℕ, j' + (remLoop b (approxRecip32 (b >>> 32).toUInt32) expDiff rem).1 = j + expDiff ∧
        Residue a (b.toNat * 2 ^ 32) j'
          (remLoop b (approxRecip32 (b >>> 32).toUInt32) expDiff rem).2 := by
  fun_induction remLoop b (approxRecip32 (b >>> 32).toUInt32) expDiff rem generalizing j with
  | case1 expDiff rem hneg => exact ⟨hexp, hneg, j, rfl, h⟩
  | case2 expDiff rem hpos ih =>
    obtain ⟨hlo, hhi, j', hj, hresidue⟩ := ih (by omega) (remRound_residue hb h)
    refine ⟨hlo, hhi, j', ?_, hresidue⟩
    push_cast at hj
    omega

theorem truncated_bounds {r q q64 d dist : ℕ} (hle : dist ≤ 29)
    (hq : q = q64 / 2 ^ 32 / 2 ^ (29 - dist)) (hup : q64 * (8 * d) < r * 2 ^ 32 + 8 * d * 2 ^ 31)
    (hdown : r * 2 ^ 32 < q64 * (8 * d) + 8 * d * (3 * 2 ^ 31)) :
    q * (d * 2 ^ 32) < r * 2 ^ dist + d * 2 ^ 32 ∧ r * 2 ^ dist < (q + 3) * (d * 2 ^ 32) := by
  have hw := Nat.two_pow_pos (29 - dist)
  have hprod : 2 ^ dist * 2 ^ (29 - dist) = 2 ^ 29 := by rw [← pow_add, Nat.add_sub_of_le hle]
  rw [Nat.div_div_eq_div_mul] at hq
  have hlo : q * (2 ^ 32 * 2 ^ (29 - dist)) ≤ q64 := hq ▸ Nat.div_mul_le_self _ _
  have hhi : q64 < (q + 1) * (2 ^ 32 * 2 ^ (29 - dist)) :=
    Nat.lt_mul_of_div_lt (hq ▸ Nat.lt_succ_self _) (by positivity)
  generalize 2 ^ (29 - dist) = w at *
  generalize 2 ^ dist = c at *
  have hlo' := Nat.mul_le_mul_right (8 * d) hlo
  have hhi' := Nat.mul_le_mul_right (8 * d) hhi.le
  have hwd : d ≤ w * d := Nat.le_mul_of_pos_left d hw
  have hr : r * c * (8 * w) = r * 2 ^ 32 := by
    calc r * c * (8 * w) = r * 8 * (c * w) := by ring
      _ = r * 2 ^ 32 := by rw [hprod]; ring
  constructor
  · by_contra hge
    have := Nat.mul_le_mul_right (8 * w) (not_lt.1 hge)
    linarith
  · by_contra hge
    have := Nat.mul_le_mul_right (8 * w) (not_lt.1 hge)
    linarith

/-- The digit for the bits that are left is not rounded. -/
theorem lastDigit_bounds {dist : ℕ} (hle : dist ≤ 29) (hb : 2 ^ 63 ≤ b.toNat)
    (hrem : rem.toNat < 2 * (b.toNat * 2 ^ 32)) :
    let q := (estimate64 rem (approxRecip32 (b >>> 32).toUInt32) >>> 32).toUInt32 >>>
      UInt32.ofNat (29 - dist)
    q.toNat * (b.toNat * 2 ^ 32) < rem.toNat * 2 ^ dist + b.toNat * 2 ^ 32 ∧
      rem.toNat * 2 ^ dist < (q.toNat + 3) * (b.toNat * 2 ^ 32) := by
  intro q
  obtain ⟨hlt, hup, hdown⟩ := estimate64_bounds hb hrem
  have hq : q.toNat = (estimate64 rem (approxRecip32 (b >>> 32).toUInt32)).toNat / 2 ^ 32 /
      2 ^ (29 - dist) := by
    have hdist : (UInt32.ofNat (29 - dist)).toNat % 32 = 29 - dist := by
      rw [UInt32.toNat_ofNat']
      omega
    change (_ >>> UInt32.ofNat (29 - dist)).toNat = _
    rw [UInt32.toNat_shiftRight, hdist, UInt64.toNat_toUInt32, toNat_shiftRight_32,
      Nat.shiftRight_eq_div_pow]
    congr 1
    omega
  exact truncated_bounds hle hq hup hdown

end Loop

section Select

variable {n d : ℕ} {s : Uint128}

/-- The two remainders around zero, and the quotient of the negative one. -/
structure Selected (n d : ℕ) (z : Selection) : Prop where
  altRem : z.altRem.toNat = n % d
  rem : z.rem.toNat + d = n % d + 2 ^ 128
  quotient : z.q.toNat % 2 = (n / d + 1) % 2

theorem selected_of {m r : ℕ} {q : UInt32} {rem altRem : Uint128} (hr : altRem.toNat = r)
    (heq : m * d + r = n) (hlt : r < d) (hrem : rem.toNat + d = r + 2 ^ 128)
    (hq : q.toNat % 2 = (m + 1) % 2) : Selected n d ⟨q, rem, altRem⟩ := by
  have hmod : n % d = r := by
    rw [← heq, Nat.mul_add_mod_self_right, Nat.mod_eq_of_lt hlt]
  have hdiv : n / d = m := by
    rw [← heq, Nat.mul_comm, Nat.mul_add_div (by omega), Nat.div_eq_of_lt hlt, Nat.add_zero]
  refine ⟨?_, ?_, ?_⟩
  · rw [hmod, hr]
  · rw [hmod, hrem]
  · rw [hdiv, hq]

/-- The fuel is enough if the remainder is less than as many divisors. -/
theorem subtractLoop_selected (hs : s.toNat = d) (hd : d < 2 ^ 100) (fuel : ℕ) :
    ∀ {q : UInt32} {rem : Uint128} {m : ℕ}, m * d + rem.toNat = n → q.toNat % 2 = m % 2 →
      rem.toNat < 2 ^ 127 → rem.toNat < fuel * d →
        ∃ z, subtractLoop s fuel q rem = some z ∧ Selected n d z := by
  induction fuel with
  | zero =>
    intro q rem m heq hq hlt hfuel
    omega
  | succ fuel ih =>
    intro q rem m heq hq hlt hfuel
    have hsub := toNat_sub128 rem.v64 rem.v0 s.v64 s.v0
    change _ = (rem.toNat + (2 ^ 128 - s.toNat)) % 2 ^ 128 at hsub
    have hsucc : (q + 1).toNat % 2 = (m + 1) % 2 := by
      have hone : (1 : UInt32).toNat = 1 := rfl
      rw [UInt32.toNat_add, hone]
      omega
    obtain ⟨r, hr⟩ : ∃ r, rem.toNat = r := ⟨_, rfl⟩
    rw [hs, hr] at hsub
    rw [hr] at heq hlt hfuel
    rw [Nat.succ_mul] at hfuel
    rw [subtractLoop]
    simp only [isNegative_iff, hsub]
    split
    · next hneg => exact ⟨_, rfl, selected_of hr heq (by omega) (by rw [hsub]; omega) hsucc⟩
    · next hneg =>
      refine ih ?_ hsucc ?_ ?_
      · rw [hsub, Nat.succ_mul]
        omega
      · rw [hsub]
        omega
      · rw [hsub]
        omega

/-- The remainder that is selected belongs to the nearest quotient. -/
theorem toNat_select {z : Selection} (h : Selected n d z) (hpos : 0 < d) (hd : d < 2 ^ 100) :
    z.select.toNat =
      if Mode.nearest.Carries false n d then n % d + 2 ^ 128 - d else n % d := by
  have hlt := Nat.mod_lt n hpos
  have hadd := toNat_add128 z.rem.v64 z.rem.v0 z.altRem.v64 z.altRem.v0
  change _ = (z.rem.toNat + z.altRem.toNat) % 2 ^ 128 at hadd
  have hrem := h.rem
  have hodd : z.q &&& 1 ≠ 0 ↔ n / d % 2 = 0 := by
    have hone : (1 : UInt32).toNat = 1 := rfl
    have := h.quotient
    rw [ne_eq, ← UInt32.toNat_inj, UInt32.toNat_and, hone, Nat.and_one_is_mod, UInt32.toNat_zero]
    omega
  have hcarries : Mode.nearest.Carries false n d ↔
      d < 2 * (n % d) ∨ 2 * (n % d) = d ∧ n / d % 2 = 1 := Iff.rfl
  rw [h.altRem] at hadd
  rw [Selection.select]
  simp only [isNegative_iff, or_words_eq_zero_iff, hodd, hadd]
  split
  · next hsmaller =>
    rw [if_neg (by rw [hcarries]; omega), h.altRem]
  · next hlarger =>
    rw [if_pos (by rw [hcarries]; omega)]
    omega

theorem subtractLoop_smaller {fuel : ℕ} {rem : Uint128} (hfuel : 1 ≤ fuel) (hs : s.toNat = d)
    (hd : d < 2 ^ 100) (hr : rem.toNat = n) (hlt : n < d) :
    ∃ z, subtractLoop s fuel 0 rem = some z ∧ Selected n d z := by
  have hn : n < 2 ^ 127 := (hlt.trans hd).trans (by decide)
  have heq : 0 * d + n = n := by rw [Nat.zero_mul, Nat.zero_add]
  exact subtractLoop_selected hs hd fuel (hr.symm ▸ heq) rfl (hr.symm ▸ hn)
    (hr.symm ▸ hlt.trans_le (Nat.le_mul_of_pos_left d hfuel))

theorem subtractLoop_once {fuel : ℕ} {rem : Uint128} (hfuel : 1 ≤ fuel) (hs : s.toNat = d)
    (hd : d < 2 ^ 100) (hr : rem.toNat = n) (hle : d ≤ n) (hlt : n < 2 * d) :
    ∃ z, subtractLoop s fuel 1 (sub128 rem.v64 rem.v0 s.v64 s.v0) = some z ∧ Selected n d z := by
  have hsub := toNat_sub128 rem.v64 rem.v0 s.v64 s.v0
  change _ = (rem.toNat + (2 ^ 128 - s.toNat)) % 2 ^ 128 at hsub
  rw [hs, hr] at hsub
  have hdiff : (sub128 rem.v64 rem.v0 s.v64 s.v0).toNat = n - d := by
    rw [hsub]
    omega
  have heq : 1 * d + (n - d) = n := by omega
  have hfits : n - d < fuel * d := (show n - d < d by omega).trans_le
    (Nat.le_mul_of_pos_left d hfuel)
  exact subtractLoop_selected hs hd fuel (hdiff.symm ▸ heq) rfl
    (hdiff.symm ▸ (show n - d < 2 ^ 127 by omega)) (hdiff.symm ▸ hfits)

theorem remLast_selected {fuel a j : ℕ} {b : UInt64} {e : ℤ} {rem : Uint128} (hfuel : 3 ≤ fuel)
    (hb : 2 ^ 63 ≤ b.toNat) (hlo : -29 ≤ e) (hhi : e < 0)
    (h : Residue a (b.toNat * 2 ^ 32) j rem) :
    ∃ z, remLast fuel b (approxRecip32 (b >>> 32).toUInt32) (e, rem) = some z ∧
      Selected (a * 2 ^ (j + (e + 30).toNat)) (b.toNat * 2 ^ 32) z := by
  obtain ⟨⟨m, heq⟩, hlt⟩ := h
  have hb' := b.toNat_lt
  obtain ⟨dist, hdist⟩ : ∃ dist, (e + 30).toNat = dist := ⟨_, rfl⟩
  have hshift : ((-e - 1) % 32).toNat = 29 - dist := by omega
  have hpos : 0 < dist := by omega
  have hle : dist ≤ 29 := by omega
  obtain ⟨hup, hdown⟩ := lastDigit_bounds hle hb hlt
  have hcases := reduce_corrected (toNat_shiftedSigB b) hpos hle hlt hup hdown
  have htotal : a * 2 ^ (j + dist) = (m * (b.toNat * 2 ^ 32) + rem.toNat) * 2 ^ dist := by
    rw [heq, pow_add, Nat.mul_assoc]
  have heven (k : ℕ) : (m * 2 ^ dist + k) % 2 = k % 2 := by
    obtain ⟨c, hc⟩ := Nat.exists_eq_succ_of_ne_zero hpos.ne'
    rw [hc, pow_succ, ← Nat.mul_assoc, Nat.mul_add_mod_self_right]
  have hexpand (k r : ℕ) (hk : k * (b.toNat * 2 ^ 32) + r = rem.toNat * 2 ^ dist) :
      (m * 2 ^ dist + k) * (b.toNat * 2 ^ 32) + r = a * 2 ^ (j + dist) := by
    rw [htotal, Nat.add_mul _ _ (2 ^ dist), ← hk]
    ring
  rw [remLast]
  simp only [hdist, hshift]
  generalize (estimate64 rem (approxRecip32 (b >>> 32).toUInt32) >>> 32).toUInt32 >>>
    UInt32.ofNat (29 - dist) = q at *
  simp only [isNegative, decide_eq_true_iff]
  split
  · next hneg =>
    rw [if_pos hneg] at hcases
    obtain ⟨hq, r, hr, hr', hback, hexact⟩ := hcases
    refine ⟨_, rfl, selected_of hr (hexpand _ _ hexact) hr' hback ?_⟩
    rw [Nat.add_assoc, Nat.sub_add_cancel hq, heven]
  · next hneg =>
    rw [if_neg hneg] at hcases
    obtain ⟨r, hr, hexact⟩ := hcases
    rw [Nat.add_mul] at hdown
    have hsmall : r < 3 * (b.toNat * 2 ^ 32) := by omega
    exact subtractLoop_selected (toNat_shiftedSigB b) (by omega) fuel
      (hr.symm ▸ hexpand _ _ hexact) (heven _).symm (by omega)
      (hr.symm ▸ hsmall.trans_le (Nat.mul_le_mul_right _ hfuel))

/-- The operands as multiples of one unit, and the selection from them. -/
structure RemSpec (a b : ExpSig) (exp : ℤ) (n d : ℕ) (z : Selection) : Prop where
  exp_lo : b.exp - 1 ≤ exp
  exp_hi : exp ≤ b.exp
  selected : Selected (n * 2 ^ 32) (d * 2 ^ 32) z
  pos : 0 < d
  lt : d < 2 ^ 65
  dividend : (n : ℚ) * 2 ^ (exp - 16446) = a.sig.toNat * 2 ^ (a.exp - 16446)
  divisor : (d : ℚ) * 2 ^ (exp - 16446) = b.sig.toNat * 2 ^ (b.exp - 16446)

theorem remSigs_spec {a b : ExpSig} {fuel : ℕ} (hfuel : 3 ≤ fuel) (ha : 2 ^ 63 ≤ a.sig.toNat)
    (hb : 2 ^ 63 ≤ b.sig.toNat) (hdiff : -1 ≤ a.exp - b.exp) :
    ∃ exp n d z, remSigs fuel a b = some (exp, z) ∧ RemSpec a b exp n d z := by
  have ha' := a.sig.toNat_lt
  have hb' := b.sig.toNat_lt
  have hone : 1 ≤ fuel := by omega
  have hrem := toNat_shiftedSigB a.sig
  have hshifted := toNat_shiftedSigB b.sig
  rw [remSigs]
  simp only
  split
  · next hsmall =>
    split
    · next hne =>
      have hexp : a.exp = b.exp - 1 := by omega
      have hdouble : (shortShiftLeft128 0 b.sig 33).toNat = 2 * b.sig.toNat * 2 ^ 32 := by
        rw [toNat_shortShiftLeft128_word b.sig (by decide) (by decide)]
        ring
      obtain ⟨z, hz, hselected⟩ := subtractLoop_smaller hone hdouble (by omega) hrem (by omega)
      refine ⟨b.exp - 1, a.sig.toNat, 2 * b.sig.toNat, z, by rw [hz]; rfl, le_rfl, by omega,
        hselected, by omega, by omega, by rw [hexp], ?_⟩
      rw [show b.exp - 16446 = b.exp - 1 - 16446 + 1 by ring, zpow_add_one₀ two_ne_zero]
      push_cast
      ring
    · next hzero =>
      have hexp : a.exp = b.exp := by omega
      simp only [UInt64.le_iff_toNat_le]
      split
      · next hle =>
        obtain ⟨z, hz, hselected⟩ := subtractLoop_once hone hshifted (by omega) hrem (by omega)
          (by omega)
        exact ⟨b.exp, a.sig.toNat, b.sig.toNat, z, by rw [hz]; rfl, by omega, le_rfl, hselected,
          by omega, by omega, by rw [hexp], rfl⟩
      · next hgt =>
        obtain ⟨z, hz, hselected⟩ := subtractLoop_smaller hone hshifted (by omega) hrem (by omega)
        exact ⟨b.exp, a.sig.toNat, b.sig.toNat, z, by rw [hz]; rfl, by omega, le_rfl, hselected,
          by omega, by omega, by rw [hexp], rfl⟩
  · next hlarge =>
    have hstart : Residue (a.sig.toNat * 2 ^ 32) (b.sig.toNat * 2 ^ 32) 0
        (shortShiftLeft128 0 a.sig 32) :=
      ⟨⟨0, by rw [hrem, Nat.zero_mul, Nat.zero_add, pow_zero, Nat.mul_one]⟩, by omega⟩
    obtain ⟨hlo, hhi, j, hj, hresidue⟩ := remLoop_residue hb (a.exp - b.exp - 30) _ (by omega)
      hstart
    generalize remLoop b.sig (approxRecip32 (b.sig >>> 32).toUInt32) (a.exp - b.exp - 30)
      (shortShiftLeft128 0 a.sig 32) = w at *
    obtain ⟨e, rem⟩ := w
    dsimp only at hlo hhi hj hresidue
    obtain ⟨z, hz, hselected⟩ := remLast_selected hfuel hb hlo hhi hresidue
    obtain ⟨k, hk⟩ : ∃ k, j + (e + 30).toNat = k := ⟨_, rfl⟩
    have hexp : a.exp - 16446 = b.exp - 16446 + k := by omega
    rw [hk, Nat.mul_right_comm] at hselected
    refine ⟨b.exp, a.sig.toNat * 2 ^ k, b.sig.toNat, z, by rw [hz]; rfl, by omega, le_rfl,
      hselected, by omega, by omega, ?_, rfl⟩
    rw [hexp, zpow_add₀ two_ne_zero, zpow_natCast]
    push_cast
    ring

end Select

end SoftFloat

namespace Float80

section Representable

variable {x y : Float80}

/-- All magnitudes are multiples of the smallest one. -/
theorem magnitude_units (x : Float80) : ∃ m : ℕ, x.magnitude = m * 2 ^ (-16445 : ℤ) := by
  obtain ⟨k, hk⟩ := Int.eq_ofNat_of_zero_le
    (show 0 ≤ max (x.biasedExponent.toNat : ℤ) 1 - 1 by omega)
  refine ⟨x.man.toNat * 2 ^ k, ?_⟩
  rw [magnitude, show max (x.biasedExponent.toNat : ℤ) 1 - 16446 = k + (-16445) by omega,
    zpow_add₀ two_ne_zero, zpow_natCast, Nat.cast_mul, Nat.cast_pow, Nat.cast_ofNat, mul_assoc]

theorem representable_units {v : ℚ} {k m : ℕ} {e : ℤ} (hk : v = k * 2 ^ (e - 16446))
    (hlt : k < 2 ^ 64) (he : e < 0x7FFF) (hm : v = m * 2 ^ (-16445 : ℤ)) :
    Precision.extended.format.Representable v := by
  have hmax : v < 2 ^ (Precision.extended.format.emax + 1) := by
    have hlt' : (k : ℚ) < 2 ^ (64 : ℤ) := by exact_mod_cast hlt
    calc v = k * 2 ^ (e - 16446) := hk
      _ < 2 ^ (64 : ℤ) * 2 ^ (e - 16446) := mul_lt_mul_of_pos_right hlt' (zpow_pos two_pos _)
      _ = 2 ^ (64 + (e - 16446)) := (zpow_add₀ two_ne_zero _ _).symm
      _ ≤ 2 ^ (Precision.extended.format.emax + 1) :=
        zpow_le_zpow_right₀ one_le_two (by change 64 + (e - 16446) ≤ 16383 + 1; omega)
  rcases le_or_gt 1 e with hle | hgt
  · exact ⟨k, e - 16446, hk, hlt, by change -16382 - 64 + 1 ≤ e - 16446; omega, hmax⟩
  · refine ⟨m, -16445, hm, ?_, by change (-16382 : ℤ) - 64 + 1 ≤ -16445; omega, hmax⟩
    have hle : (m : ℚ) * 2 ^ (-16445 : ℤ) ≤ k * 2 ^ (-16445 : ℤ) := by
      rw [← hm, hk]
      exact mul_le_mul_of_nonneg_left (zpow_le_zpow_right₀ one_le_two (by omega))
        (Nat.cast_nonneg k)
    have hle' : m ≤ k := by
      exact_mod_cast le_of_mul_le_mul_right hle (zpow_pos two_pos _)
    exact hle'.trans_lt hlt

end Representable

section Rem

variable {x y : Float80} {a b : SoftFloat.ExpSig} {mode : RoundingMode} {exp : ℤ} {n d : ℕ}
  {z : SoftFloat.Selection}

/-- What is left after subtracting the nearest multiple, in units of the operands. -/
def leftOver (n d : ℕ) : ℕ := if Mode.nearest.Carries false n d then d - n % d else n % d

theorem remainder_units {u : ℚ} (hu : 0 < u) (hd : 0 < d) (hne : n % d ≠ 0) :
    let r := n * u - Mode.nearest.round false (n * u / (d * u)) * (d * u)
    (r < 0 ↔ Mode.nearest.Carries false n d) ∧ |r| = leftOver n d * u := by
  intro r
  have hlt := Nat.mod_lt n hd
  have hquot : (n * u / (d * u) : ℚ) = n / d := mul_div_mul_right _ _ hu.ne'
  have hsplit : (n : ℚ) = d * (n / d : ℕ) + (n % d : ℕ) := by
    exact_mod_cast (Nat.div_add_mod n d).symm
  have hr : r = n * u - (Mode.nearest.roundDiv false n d : ℕ) * (d * u) := by
    change n * u - Mode.nearest.round false (n * u / (d * u)) * (d * u) = _
    rw [hquot, Mode.round_natCast_div hd, Int.cast_natCast]
  rw [hr, Mode.roundDiv, leftOver]
  split
  · next hcarries =>
    have hsub : (n : ℚ) * u - ((n / d + 1 : ℕ) : ℚ) * (d * u) = -((d - n % d : ℕ) * u) := by
      rw [Nat.cast_sub hlt.le, hsplit]
      push_cast
      ring
    have hpos : (0 : ℚ) < (d - n % d : ℕ) * u := mul_pos (Nat.cast_pos.2 (by omega)) hu
    rw [hsub, abs_neg, abs_of_pos hpos]
    exact ⟨iff_of_true (neg_lt_zero.2 hpos) hcarries, rfl⟩
  · next hstays =>
    have hsub : (n : ℚ) * u - ((n / d + 0 : ℕ) : ℚ) * (d * u) = (n % d : ℕ) * u := by
      rw [Nat.add_zero]
      nth_rewrite 1 [hsplit]
      ring
    have hpos : (0 : ℚ) < (n % d : ℕ) * u := mul_pos (Nat.cast_pos.2 (by omega)) hu
    rw [hsub, abs_of_pos hpos]
    exact ⟨iff_of_false (not_lt.2 hpos.le) hstays, rfl⟩

theorem toNat_select_spec (h : SoftFloat.RemSpec a b exp n d z) :
    z.select.toNat = if Mode.nearest.Carries false n d then 2 ^ 128 - leftOver n d * 2 ^ 32
      else leftOver n d * 2 ^ 32 := by
  have hlt := Nat.mod_lt n h.pos
  have hd := h.lt
  have hmod : n * 2 ^ 32 % (d * 2 ^ 32) = n % d * 2 ^ 32 := Nat.mul_mod_mul_right _ _ _
  have hdiv : n * 2 ^ 32 / (d * 2 ^ 32) = n / d :=
    Nat.mul_div_mul_right _ _ (Nat.two_pow_pos 32)
  have hcarries : Mode.nearest.Carries false (n * 2 ^ 32) (d * 2 ^ 32) ↔
      Mode.nearest.Carries false n d := by
    change d * 2 ^ 32 < 2 * (n * 2 ^ 32 % (d * 2 ^ 32)) ∨ 2 * (n * 2 ^ 32 % (d * 2 ^ 32)) =
      d * 2 ^ 32 ∧ n * 2 ^ 32 / (d * 2 ^ 32) % 2 = 1 ↔ d < 2 * (n % d) ∨ 2 * (n % d) = d ∧
        n / d % 2 = 1
    rw [hmod, hdiv]
    omega
  rw [SoftFloat.toNat_select h.selected (Nat.mul_pos h.pos (Nat.two_pow_pos 32)) (by omega), hmod,
    if_congr hcarries rfl rfl, leftOver]
  split
  · rw [Nat.sub_mul]
    omega
  · rfl

theorem leftOver_lt (hd : 0 < d) (hd' : d < 2 ^ 65) : leftOver n d < 2 ^ 64 := by
  have hlt := Nat.mod_lt n hd
  have hcarries : Mode.nearest.Carries false n d ↔
      d < 2 * (n % d) ∨ 2 * (n % d) = d ∧ n / d % 2 = 1 := Iff.rfl
  rw [leftOver]
  split
  · next h =>
    rw [hcarries] at h
    omega
  · next h =>
    rw [hcarries] at h
    omega

theorem leftOver_eq_zero_iff (hd : 0 < d) : leftOver n d = 0 ↔ n % d = 0 := by
  have hlt := Nat.mod_lt n hd
  rw [leftOver]
  split
  · next h =>
    refine iff_of_false (by omega) fun hzero => ?_
    exact Mode.not_carries_of_dvd hzero h
  · exact Iff.rfl

/-- The remainder is packed by its sign and its magnitude. -/
theorem packRem_eq (h : SoftFloat.RemSpec a b exp n d z) (sign : Bool) (s : SoftFloat.State) :
    ∃ w : SoftFloat.Uint128, w.toNat = leftOver n d * 2 ^ 32 ∧
      SoftFloat.packRem sign exp z.select s =
        SoftFloat.normRoundPackToExtF80 (sign ^^ Mode.nearest.Carries false n d)
          (if w.v64 ||| w.v0 ≠ 0 then exp + 32 else 0) w.v64 w.v0 80 s := by
  have hselect := toNat_select_spec h
  have hlt : leftOver n d < 2 ^ 64 := leftOver_lt h.pos h.lt
  have hzero := leftOver_eq_zero_iff (n := n) h.pos
  rw [SoftFloat.packRem]
  generalize z.select = rem at *
  simp only [SoftFloat.isNegative_iff]
  by_cases hcarries : Mode.nearest.Carries false n d
  · have hpos : leftOver n d ≠ 0 := fun heq =>
      Mode.not_carries_of_dvd (hzero.1 heq) hcarries
    have hsub := SoftFloat.toNat_sub128 0 0 rem.v64 rem.v0
    have hnone : SoftFloat.Uint128.toNat ⟨0, 0⟩ = 0 := rfl
    change _ = (_ + (2 ^ 128 - rem.toNat)) % 2 ^ 128 at hsub
    rw [if_pos hcarries] at hselect
    rw [hnone, hselect] at hsub
    rw [if_pos (by omega), decide_eq_true hcarries, Bool.xor_true]
    exact ⟨SoftFloat.sub128 0 0 rem.v64 rem.v0, by omega, rfl⟩
  · rw [if_neg hcarries] at hselect
    rw [if_neg (by omega), decide_eq_false hcarries, Bool.xor_false]
    exact ⟨rem, hselect, rfl⟩

theorem normRoundPackToExtF80_zero (sign : Bool) (exp : ℤ) (roundingPrecision : UInt8)
    (s : SoftFloat.State) :
    SoftFloat.normRoundPackToExtF80 sign exp 0 0 roundingPrecision s = none := by
  have hwidth : SoftFloat.countLeadingZeros64 0 = 64 := by decide
  rw [SoftFloat.normRoundPackToExtF80, if_pos rfl]
  simp only [hwidth]
  rfl

theorem packRem_none (h : SoftFloat.RemSpec a b exp n d z) (sign : Bool) (s : SoftFloat.State)
    (hzero : n % d = 0) : SoftFloat.packRem sign exp z.select s = none := by
  obtain ⟨w, hw, heq⟩ := packRem_eq h sign s
  have hw0 : w.toNat = (⟨0, 0⟩ : SoftFloat.Uint128).toNat := by
    rw [hw, (leftOver_eq_zero_iff h.pos).2 hzero, Nat.zero_mul]
    rfl
  rw [heq, SoftFloat.Uint128.toNat_inj hw0]
  exact normRoundPackToExtF80_zero _ _ _ _

theorem computes_packRem {current : SoftFloat.State}
    (hmode : current.roundingMode = SoftFloat.ofMode mode) (ha : Normalized x a)
    (hb : Normalized y b) (h : SoftFloat.RemSpec a b exp n d z) (sign : Bool) (hne : n % d ≠ 0) :
    let r := x.magnitude - Mode.nearest.round false (x.magnitude / y.magnitude) * y.magnitude
    Computes current (.exact (.finite (sign ^^ decide (r < 0)) |r|))
      (SoftFloat.packRem sign exp z.select current) := by
  have hlo := h.exp_lo
  have hhi := h.exp_hi
  have hlo' := hb.exp_lo
  have hhi' := hb.exp_hi
  have hu : (0 : ℚ) < 2 ^ (exp - 16446) := zpow_pos two_pos _
  have hx : x.magnitude = n * 2 ^ (exp - 16446) := ha.magnitude.trans h.dividend.symm
  have hy : y.magnitude = d * 2 ^ (exp - 16446) := hb.magnitude.trans h.divisor.symm
  obtain ⟨hsign, habs⟩ := remainder_units hu h.pos hne
  rw [← hx, ← hy] at hsign habs
  intro r
  obtain ⟨w, hw, heq⟩ := packRem_eq h sign current
  have hw0 : w.toNat ≠ 0 := by
    have := (leftOver_eq_zero_iff (n := n) h.pos).not.2 hne
    omega
  have hwords : w.v64 ||| w.v0 ≠ 0 := (SoftFloat.or_words_eq_zero_iff w).not.2 hw0
  have hexact : Precision.extended.format.Representable |r| := by
    obtain ⟨m, hm⟩ := magnitude_units x
    obtain ⟨m', hm'⟩ := magnitude_units y
    obtain ⟨q, hq⟩ : ∃ q, Mode.nearest.round false (x.magnitude / y.magnitude) = q := ⟨_, rfl⟩
    have hr : r = ((m - q * m' : ℤ) : ℚ) * 2 ^ (-16445 : ℤ) := by
      change x.magnitude - Mode.nearest.round false (x.magnitude / y.magnitude) * y.magnitude = _
      rw [hq, hm, hm', Int.cast_sub, Int.cast_mul, Int.cast_natCast, Int.cast_natCast, sub_mul,
        mul_assoc]
    have hunits : |r| = ((m - q * m' : ℤ).natAbs : ℕ) * 2 ^ (-16445 : ℤ) := by
      rw [hr, abs_mul, abs_of_pos (zpow_pos two_pos (-16445) : (0 : ℚ) < _), Nat.cast_natAbs,
        Int.cast_abs]
    exact representable_units habs (leftOver_lt h.pos h.lt) (by omega) hunits
  have hpack := computes_normRoundPack mode .extended (sign ^^ decide (r < 0)) hmode hw0 (.inl rfl)
    (w := |r|) (show -2 ^ 30 ≤ exp + 32 by omega) (by omega) ?_
  · rw [Format.round_representable mode _ hexact] at hpack
    rw [heq, if_pos hwords, ← decide_eq_decide.2 hsign]
    exact hpack
  · rw [habs, hw, SoftFloat.cast_mul_two_pow,
      show exp - 16446 = exp + 32 - 16510 + (32 : ℕ) by push_cast; ring]

/-- A dividend that is copied comes back in its canonical encoding. -/
theorem copyA_datum (ha : Normalized x a) (sign : Bool) :
    (fromSF (SoftFloat.copyA sign a)).Canonical ∧
      (fromSF (SoftFloat.copyA sign a)).datum = .finite sign x.magnitude := by
  have hlo := ha.exp_lo
  have hhi := ha.exp_hi
  have hsig := ha.sig
  have hlt := a.sig.toNat_lt
  rw [SoftFloat.copyA]
  split
  · next hsmall =>
    obtain ⟨m, hm⟩ := magnitude_units x
    obtain ⟨k, hk⟩ : ∃ k, (1 - a.exp).toNat = k := ⟨_, rfl⟩
    have hshift : a.sig.toNat = m * 2 ^ k := by
      have heq : (a.sig.toNat : ℚ) * 2 ^ (a.exp - 16446) =
          (m * 2 ^ k : ℕ) * 2 ^ (a.exp - 16446) := by
        rw [← ha.magnitude, hm, SoftFloat.cast_mul_two_pow]
        congr 2
        omega
      exact_mod_cast mul_right_cancel₀ (zpow_ne_zero _ two_ne_zero) heq
    have hwidth : k < 64 := by
      rw [← Nat.pow_lt_pow_iff_right (a := 2) (by decide)]
      refine (Nat.le_mul_of_pos_left (2 ^ k) (Nat.pos_of_ne_zero ?_)).trans_lt (hshift ▸ hlt)
      rintro rfl
      omega
    have hquot : (a.sig >>> UInt64.ofNat k).toNat = m := by
      rw [SoftFloat.toNat_shiftRight_of_lt hwidth, hshift,
        Nat.mul_div_cancel _ (Nat.two_pow_pos k)]
    have hsmall' : m < 2 ^ 63 := by
      have hpow : 2 ^ 1 ≤ 2 ^ k := Nat.pow_le_pow_right two_pos (by omega)
      have := Nat.mul_le_mul_left m hpow
      omega
    rw [hk]
    refine Represents.datum (r := ⟨.finite x.magnitude, false, false, false⟩)
      (represents_fromSF ⟨le_rfl, by decide, ?_, ?_⟩)
    · rw [hquot]
      omega
    · rw [hquot, hm]
      rfl
  · next hlarge =>
    refine Represents.datum (r := ⟨.finite x.magnitude, false, false, false⟩)
      (represents_fromSF ⟨by omega, hhi, by omega, ?_⟩)
    rw [ha.magnitude, max_eq_left (by omega)]

theorem copyA_zero (sign : Bool) :
    SoftFloat.copyA sign ⟨0, 0⟩ = SoftFloat.packZero sign := by
  cases sign <;> decide

/-- Less than half of the divisor is nearest to no multiple but zero. -/
theorem remainder_small {v v' : ℚ} (hv : 0 ≤ v) (hlt : 2 * v ≤ v') (hv' : 0 < v') (sign s : Bool) :
    Datum.remainder (.finite sign v) (.finite s v') = .exact (.finite sign v) := by
  have hhalf : |v / v' - (0 : ℤ)| ≤ 1 / 2 := by
    rw [Int.cast_zero, sub_zero, abs_of_nonneg (div_nonneg hv hv'.le), div_le_iff₀ hv']
    linarith
  have hround : Mode.nearest.round false (v / v') = 0 := Mode.nearest_eq hhalf fun _ => Even.zero
  rw [Datum.remainder, if_neg hv'.ne', hround]
  dsimp only
  rw [Int.cast_zero, zero_mul, sub_zero, abs_of_nonneg hv, decide_eq_false (not_lt.2 hv),
    Bool.xor_false]

theorem magnitude_double_le (ha : Normalized x a) (hb : Normalized y b) (hlt : a.exp - b.exp < -1) :
    2 * x.magnitude ≤ y.magnitude := by
  have hsigA : (a.sig.toNat : ℚ) ≤ 2 ^ (64 : ℤ) := by exact_mod_cast a.sig.toNat_lt.le
  have hsigB : (2 : ℚ) ^ (63 : ℤ) ≤ b.sig.toNat := by exact_mod_cast hb.sig
  rw [ha.magnitude, hb.magnitude]
  have hscale : (2 : ℚ) ^ (a.exp - 16446) ≤ 2 ^ (b.exp - 2 - 16446) :=
    zpow_le_zpow_right₀ one_le_two (by omega)
  calc 2 * (a.sig.toNat * (2 : ℚ) ^ (a.exp - 16446))
      ≤ 2 * (2 ^ (64 : ℤ) * 2 ^ (b.exp - 2 - 16446)) :=
        mul_le_mul_of_nonneg_left (mul_le_mul hsigA hscale (zpow_nonneg zero_le_two _)
          (zpow_nonneg zero_le_two _))
          zero_le_two
    _ = 2 ^ (63 : ℤ) * 2 ^ (b.exp - 16446) := by
        rw [show b.exp - 2 - 16446 = b.exp - 16446 + (-2) by ring, zpow_add₀ two_ne_zero]
        ring
    _ ≤ b.sig.toNat * 2 ^ (b.exp - 16446) :=
        mul_le_mul_of_nonneg_right hsigB (zpow_nonneg zero_le_two _)

end Rem

section Operator

variable {x y : Float80} {mode : RoundingMode}

def rem (x rhs : Float80) (fuel : ℕ) (env : SoftFloat.State) :
    Except SoftFloat.Fault (Float80 × SoftFloat.State) :=
  (SoftFloat.extF80Rem fuel x.toSF rhs.toSF env).map fun z => (fromSF z.1, z.2)

theorem toOption_map {α β : Type} (o : Except SoftFloat.Fault α) (f : α → β) :
    (o.map f).toOption = o.toOption.map f := by
  cases o <;> rfl

/-- Nothing is left of a dividend that is a multiple of the divisor. -/
def IsMultiple (x y : Float80) : Prop :=
  x.isFinite ∧ y.isFinite ∧ x.man ≠ 0 ∧ y.man ≠ 0 ∧ ∃ k : ℕ, x.magnitude = k * y.magnitude

theorem multiple_iff {a b : SoftFloat.ExpSig} {exp : ℤ} {n d : ℕ} {z : SoftFloat.Selection}
    (ha : Normalized x a) (hb : Normalized y b) (h : SoftFloat.RemSpec a b exp n d z) :
    (∃ k : ℕ, x.magnitude = k * y.magnitude) ↔ n % d = 0 := by
  have hx : x.magnitude = n * 2 ^ (exp - 16446) := ha.magnitude.trans h.dividend.symm
  have hy : y.magnitude = d * 2 ^ (exp - 16446) := hb.magnitude.trans h.divisor.symm
  have hu : (2 : ℚ) ^ (exp - 16446) ≠ 0 := zpow_ne_zero _ two_ne_zero
  rw [← Nat.dvd_iff_mod_eq_zero]
  constructor
  · rintro ⟨k, hk⟩
    rw [hx, hy, ← mul_assoc] at hk
    refine ⟨k, ?_⟩
    rw [Nat.mul_comm]
    exact_mod_cast mul_right_cancel₀ hu hk
  · rintro ⟨k, rfl⟩
    refine ⟨k, ?_⟩
    rw [hx, hy, Nat.cast_mul]
    ring

/-- Two finite operands, neither of which is zero. -/
theorem remFinite {a b : SoftFloat.ExpSig} {fuel : ℕ} {current : SoftFloat.State}
    (hfuel : 3 ≤ fuel) (hmode : current.roundingMode = SoftFloat.ofMode mode)
    (ha : Normalized x a) (hb : Normalized y b) (sign sign' : Bool) :
    let o :=
      if a.exp - b.exp < -1 then .ok (SoftFloat.copyA sign a, current)
      else (SoftFloat.Fault.fuel.unless (SoftFloat.remSigs fuel a b)).bind fun z =>
        SoftFloat.Fault.shift.unless (SoftFloat.packRem sign z.1 z.2.select current)
    ((∃ k : ℕ, x.magnitude = k * y.magnitude) → o = .error .shift) ∧
      ((¬∃ k : ℕ, x.magnitude = k * y.magnitude) → Computes current
        (Datum.remainder (.finite sign x.magnitude) (.finite sign' y.magnitude)) o.toOption) := by
  intro o
  have hx := ha.magnitude_pos
  have hy := hb.magnitude_pos
  by_cases hsmall : a.exp - b.exp < -1
  · have hdouble := magnitude_double_le ha hb hsmall
    have ho : o = .ok (SoftFloat.copyA sign a, current) := if_pos hsmall
    rw [ho, remainder_small hx.le hdouble hy]
    refine ⟨?_, fun _ => computes_exact (copyA_datum ha sign)⟩
    rintro ⟨k, hk⟩
    have hpos : (1 : ℚ) ≤ k := by
      refine Nat.one_le_cast.2 (Nat.pos_of_ne_zero ?_)
      rintro rfl
      rw [Nat.cast_zero, zero_mul] at hk
      exact hx.ne' hk
    have hle : y.magnitude ≤ x.magnitude := hk ▸ le_mul_of_one_le_left hy.le hpos
    linarith
  · obtain ⟨exp, n, d, z, hz, hspec⟩ := SoftFloat.remSigs_spec hfuel ha.sig hb.sig (by omega)
    have ho : o = SoftFloat.Fault.shift.unless (SoftFloat.packRem sign exp z.select current) := by
      change (if a.exp - b.exp < -1 then _ else _) = _
      rw [if_neg hsmall, hz]
      rfl
    rw [ho, multiple_iff ha hb hspec]
    refine ⟨fun hzero => ?_, fun hne => ?_⟩
    · rw [packRem_none hspec sign current hzero]
      rfl
    rw [Datum.remainder, if_neg hy.ne', SoftFloat.Fault.toOption_unless]
    exact computes_packRem hmode ha hb hspec sign hne

theorem rem_finite_returns {current : SoftFloat.State} {fuel : ℕ} (hfuel : 3 ≤ fuel)
    (hmode : current.roundingMode = SoftFloat.ofMode mode) (hx : x.isFinite) (hy : y.isFinite) :
    (IsMultiple x y → SoftFloat.extF80Rem fuel x.toSF y.toSF current = .error .shift) ∧
      (¬IsMultiple x y → Computes current (Datum.remainder x.datum y.datum)
        (SoftFloat.extF80Rem fuel x.toSF y.toSF current).toOption) := by
  have hexp := exp_ne_of_isFinite hy
  rw [datum_of_isFinite hx, datum_of_isFinite hy, SoftFloat.extF80Rem,
    if_neg (exp_ne_of_isFinite hx), if_neg (fun h => hexp h.1), if_neg hexp,
    signExtF80UI64_toSF, show x.toSF.signif = x.man from rfl, show y.toSF.signif = y.man from rfl]
  by_cases hyzero : y.man = 0
  · refine ⟨fun h => absurd hyzero h.2.2.2.1, fun _ => ?_⟩
    rw [if_pos hyzero, Datum.remainder, if_pos ((magnitude_eq_zero_iff y).2 hyzero)]
    exact computes_invalid
  obtain ⟨b, hb, hnormalized'⟩ := normalizeOperand_toSF hy hyzero
  rw [if_neg hyzero, show y.man = y.toSF.signif from rfl, hb, SoftFloat.Fault.unless_bind]
  by_cases hxzero : x.man = 0
  · refine ⟨fun h => absurd hxzero h.2.2.1, fun _ => ?_⟩
    rw [if_pos hxzero, (magnitude_eq_zero_iff x).2 hxzero, copyA_zero,
      remainder_small le_rfl (by rw [mul_zero]; exact y.magnitude_nonneg)
        hnormalized'.magnitude_pos]
    exact computes_exact (datum_packZero _)
  obtain ⟨a, ha, hnormalized⟩ := normalizeOperand_toSF hx hxzero
  rw [if_neg hxzero, show x.man = x.toSF.signif from rfl, ha, SoftFloat.Fault.unless_bind]
  obtain ⟨hnone, hsome⟩ := remFinite hfuel hmode hnormalized hnormalized' x.sign y.sign
  exact ⟨fun h => hnone h.2.2.2.2, fun h => hsome fun hk => h ⟨hx, hy, hxzero, hyzero, hk⟩⟩

/-- An infinite divisor leaves the dividend as it is. -/
theorem rem_infinite {current : SoftFloat.State} {fuel : ℕ} (hx : x.isFinite)
    (hy : y.isInfinite) (hcanonical : y.Canonical) :
    Computes current (.exact (.finite x.sign x.magnitude))
      (SoftFloat.extF80Rem fuel x.toSF y.toSF current).toOption := by
  obtain ⟨hexp, hfraction⟩ := of_isInfinite hy
  have hman : y.toSF.signif = 0x8000000000000000 := man_of_isInfinite hy hcanonical
  have hnorm : SoftFloat.normalizeOperand (0x7FFF + 0x7FFF) 0x8000000000000000 =
      some ⟨0xFFFE, 0x8000000000000000⟩ := by
    rw [SoftFloat.normalizeOperand, if_pos (by decide), if_neg (by decide)]
    rfl
  rw [SoftFloat.extF80Rem, if_neg (exp_ne_of_isFinite hx), if_neg (fun h => hfraction h.2),
    if_pos hexp, signExtF80UI64_toSF, hexp, hman, if_neg (by decide), hnorm,
    SoftFloat.Fault.unless_bind]
  by_cases hxzero : x.toSF.signif = 0
  · rw [if_pos hxzero, (magnitude_eq_zero_iff x).2 hxzero, copyA_zero]
    exact computes_exact (datum_packZero _)
  · obtain ⟨a, ha, hnormalized⟩ := normalizeOperand_toSF hx hxzero
    have hlt := hnormalized.exp_hi
    rw [if_neg hxzero, ha, SoftFloat.Fault.unless_bind, if_pos (show a.exp - 65534 < -1 by omega)]
    exact computes_exact (copyA_datum hnormalized x.sign)

/-- The code computes the remainder of IEEE 754, without rounding, in each rounding mode and each
rounding precision. Multiples of the divisor are left out: there the code shifts by the width of
the word, having subtracted the divisor three times at most. So are infinite divisors without the
integer bit, which count as zero. -/
theorem rem_returns (x y : Float80) (env : SoftFloat.State) (mode : RoundingMode)
    (precision : Precision) (fuel : ℕ) (hfuel : 3 ≤ fuel) (hy : y.isInfinite → y.Canonical) :
    (IsMultiple x y →
        x.rem y fuel (FloatEnv.configured env mode precision) = .error .shift) ∧
      (¬IsMultiple x y → Returns (FloatEnv.configured env mode precision)
        (Datum.remainder x.datum y.datum)
        (x.rem y fuel (FloatEnv.configured env mode precision)).toOption) := by
  rw [rem, toOption_map]
  have hpropagated (h : x.isNaN ∨ y.isNaN) :=
    computes_nan (FloatEnv.configured env mode precision) h
  have hother {o : Prop} (h : ¬(x.isFinite ∧ y.isFinite)) : IsMultiple x y → o :=
    fun hmultiple => absurd ⟨hmultiple.1, hmultiple.2.1⟩ h
  by_cases hfinite : x.isFinite ∧ y.isFinite
  · obtain ⟨hnone, hsome⟩ := rem_finite_returns hfuel
      (rfl : (FloatEnv.configured env mode precision).roundingMode = SoftFloat.ofMode mode)
      hfinite.1 hfinite.2
    refine ⟨fun h => ?_, fun h => (hsome h).returns⟩
    rw [hnone h]
    rfl
  refine ⟨hother hfinite, fun _ => Computes.returns ?_⟩
  rcases classes x with hxfinite | hxinfinite | hxnan
  · rcases classes y with hyfinite | hyinfinite | hynan
    · exact absurd ⟨hxfinite, hyfinite⟩ hfinite
    · rw [datum_of_isFinite hxfinite, datum_of_isInfinite hyinfinite]
      exact rem_infinite hxfinite hyinfinite (hy hyinfinite)
    · rw [SoftFloat.extF80Rem, if_neg (exp_ne_of_isFinite hxfinite), if_pos (of_isNaN hynan)]
      rw [datum_of_isFinite hxfinite, datum_of_isNaN hynan] at *
      exact hpropagated (.inr hynan)
  · obtain ⟨hexp, hfraction⟩ := of_isInfinite hxinfinite
    rw [SoftFloat.extF80Rem, if_pos hexp, datum_of_isInfinite hxinfinite] at *
    by_cases hynan : y.isNaN
    · rw [if_pos (.inr (of_isNaN hynan))]
      rw [datum_of_isNaN hynan] at *
      exact hpropagated (.inr hynan)
    · rw [if_neg (not_or.2 ⟨hfraction, fun h => hynan ?_⟩)]
      · rcases classes y with hyfinite | hyinfinite | hynan'
        · rw [datum_of_isFinite hyfinite]
          exact computes_invalid
        · rw [datum_of_isInfinite hyinfinite]
          exact computes_invalid
        · exact absurd hynan' hynan
      · have hmax := (biasedExponent_eq_max_iff y).2 h.1
        exact (isNaN_iff y).2 ⟨hmax, (fraction_ne_zero_iff y.man).1 h.2⟩
  · obtain ⟨hexp, hfraction⟩ := of_isNaN hxnan
    rw [SoftFloat.extF80Rem, if_pos hexp, if_pos (.inl hfraction)]
    rw [datum_of_isNaN hxnan] at *
    exact hpropagated (.inl hxnan)

theorem rem_returns_five :
    let five : Float80 := ⟨0x4001, 0xA000000000000000⟩
    let three : Float80 := ⟨0xC000, 0xC000000000000000⟩
    let current := FloatEnv.configured ⟨.nearEven, 0, 80⟩ .up .single
    (IsMultiple five three → five.rem three 3 current = .error .shift) ∧
      (¬IsMultiple five three → Returns current (Datum.remainder five.datum three.datum)
        (five.rem three 3 current).toOption) :=
  rem_returns _ _ _ .up .single 3 le_rfl fun h => absurd h (by decide)

end Operator

end Float80

end Utlib
