import Utlib.Float80.Double

/-! The conversion to doubles rounds correctly. -/

namespace Utlib

open Utlib.Rounding

namespace SoftFloat

section Rounding

variable {mode : Mode} (sign : Bool) {sig : UInt64} {s : State}

theorem reduced_word : Reduced 10 0x200 0x3FF where
  two_le := by decide
  lt := by decide
  increment := rfl
  mask := rfl

/-- Rounding at the end of packing, whose sum has room for the carry. -/
theorem packRounded_eq (hs : s.roundingMode = ofMode mode) (hsig : sig.toNat < 2 ^ 63)
    (exp : ℤ) :
    ∃ q : UInt64, q.toNat = mode.roundDiv sign sig.toNat (2 ^ 10) ∧
      packRounded sign exp sig (selectIncrement (ofMode mode) sign 0x200 0x3FF) s =
        (packToF64UI sign (if q = 0 then 0 else exp) q,
          if sig.toNat % 2 ^ 10 ≠ 0 then raiseFlags flagInexact s else s) := by
  have hinc : mode.increment sign (2 ^ 10) < 2 ^ 10 := mode.increment_lt sign (Nat.two_pow_pos 10)
  have hbits : sig &&& 0x3FF ≠ 0 ↔ sig.toNat % 2 ^ 10 ≠ 0 := and_mask_ne_zero_iff reduced_word.mask
  have hsum : ((sig + selectIncrement (ofMode mode) sign 0x200 0x3FF) >>> 10).toNat =
      (sig.toNat + mode.increment sign (2 ^ 10)) / 2 ^ 10 := by
    rw [UInt64.toNat_shiftRight, reduced_word.toNat_sum, Nat.mod_eq_of_lt (by omega),
      Nat.shiftRight_eq_div_pow]
    rfl
  have htie : sig &&& 0x3FF = 0x200 ∧ ofMode mode = .nearEven ↔
      mode.Tie sig.toNat (2 ^ 10) := by
    have htwo : (0x200 : UInt64).toNat = 2 ^ 9 := rfl
    rw [ofMode_eq_nearEven_iff, ← UInt64.toNat_inj, toNat_and_mask reduced_word.mask, htwo,
      and_comm]
    apply and_congr_right'
    omega
  rw [packRounded]
  simp only [hbits, htie, hs]
  rw [if_neg (not_odd mode)]
  refine ⟨_, ?_, rfl⟩
  by_cases h : mode.Tie sig.toNat (2 ^ 10)
  · have hmask : (1 : UInt64).toNat = 2 ^ 1 - 1 := rfl
    rw [if_pos h, toNat_and_not_mask hmask, hsum, Mode.roundDiv_of_tie (Nat.two_pow_pos 10) h,
      Nat.div_div_eq_div_mul, pow_one]
  · rw [if_neg h, Mode.roundDiv_of_not_tie (Nat.two_pow_pos 10) (by decide) h, ← hsum]
    congr 1
    apply UInt64.toBitVec_inj.1
    simp

theorem raiseFlags_rounded (inexact tiny : Prop) [Decidable inexact] [Decidable tiny] (s : State) :
    (if inexact then raiseFlags flagInexact
        (if tiny ∧ inexact then raiseFlags flagUnderflow s else s)
      else if tiny ∧ inexact then raiseFlags flagUnderflow s else s) =
      raiseFlags (flagsOf inexact false (inexact ∧ tiny)) s := by
  have hnone : raiseFlags 0 s = s := by
    rw [raiseFlags, UInt8.or_zero]
  by_cases hinexact : inexact
  · by_cases htiny : tiny
    · simp only [hinexact, htiny, and_self, if_true, raiseFlags, UInt8.or_assoc]
      rfl
    · simp only [hinexact, htiny, false_and, and_false, if_true, if_false]
      rfl
  · simp only [hinexact, and_false, false_and, if_false]
    exact hnone.symm

theorem raiseFlags_inexact (inexact : Prop) [Decidable inexact] (s : State) :
    (if inexact then raiseFlags flagInexact s else s) =
      raiseFlags (flagsOf inexact false false) s := by
  have hnone : raiseFlags 0 s = s := by
    rw [raiseFlags, UInt8.or_zero]
  by_cases hinexact : inexact
  · simp only [hinexact, if_true]
    rfl
  · simp only [hinexact, if_false]
    exact hnone.symm

theorem selectIncrement_eq_zero_iff (mode : Mode) (sign : Bool) :
    selectIncrement (ofMode mode) sign 0x200 0x3FF = 0 ↔ mode.overflows sign = false := by
  cases mode <;> cases sign <;> decide

theorem carries_iff (hsig : sig.toNat < 2 ^ 63) :
    0x8000000000000000 ≤ sig + selectIncrement (ofMode mode) sign 0x200 0x3FF ↔
      2 ^ 53 ≤ mode.roundDiv sign sig.toNat (2 ^ 10) := by
  have hinc : mode.increment sign (2 ^ 10) < 2 ^ 10 := mode.increment_lt sign (Nat.two_pow_pos 10)
  rw [UInt64.le_iff_toNat_le, reduced_word.toNat_sum, Nat.mod_eq_of_lt (by omega),
    Mode.le_roundDiv_iff (Nat.two_pow_pos 10) (by decide) (by decide)]
  exact Iff.rfl

/-- Packing below the smallest exponent of normal numbers. -/
theorem roundPackToF64_subnormal (hs : s.roundingMode = ofMode mode) (hsig : sig.toNat < 2 ^ 63)
    {dist : ℕ} (hpos : 0 < dist) (hle : dist ≤ 0x1000) :
    ∃ q : UInt64, q.toNat = mode.roundDiv sign sig.toNat (2 ^ (10 + dist)) ∧
      roundPackToF64 sign (-dist) sig s = (packToF64UI sign 0 q,
        raiseFlags (flagsOf (sig.toNat % 2 ^ (10 + dist) ≠ 0) false
          (sig.toNat % 2 ^ (10 + dist) ≠ 0 ∧
            ¬(dist = 1 ∧ 2 ^ 53 ≤ mode.roundDiv sign sig.toNat (2 ^ 10)))) s) := by
  have hjam := toNat_shiftRightJam64 (a := sig) hpos
  have hdist : (- -(dist : ℤ)).toNat = dist := by omega
  have hsplit : 2 ^ (10 + dist) = 2 ^ dist * (2 * (2 * 2 ^ 8)) := by
    rw [Nat.add_comm, pow_add]
    rfl
  have hten : 2 ^ 10 = 2 * (2 * 2 ^ 8) := rfl
  have hsmall : (shiftRightJam64 sig dist).toNat < 2 ^ 63 := by
    have hpow : 2 ^ 1 ≤ 2 ^ dist := Nat.pow_le_pow_right two_pos hpos
    have hquot : sig.toNat / 2 ^ dist ≤ sig.toNat / 2 := Nat.div_le_div_left hpow two_pos
    rw [hjam]
    rcases jam_cases sig.toNat (2 ^ dist) with ⟨-, heq⟩ | ⟨-, heq⟩ <;> omega
  have hround : mode.roundDiv sign (shiftRightJam64 sig dist).toNat (2 ^ 10) =
      mode.roundDiv sign sig.toNat (2 ^ (10 + dist)) := by
    rw [hjam, hsplit, hten, Mode.roundDiv_jam _ _ _ _ _ (Nat.two_pow_pos _)]
  have hexact : (shiftRightJam64 sig dist).toNat % 2 ^ 10 = 0 ↔
      sig.toNat % 2 ^ (10 + dist) = 0 := by
    rw [hjam, hsplit, hten, jam_mod_eq_zero_iff _ _ _ (Nat.two_pow_pos _)]
  have hbits : shiftRightJam64 sig dist &&& 0x3FF ≠ 0 ↔ sig.toNat % 2 ^ (10 + dist) ≠ 0 := by
    rw [and_mask_ne_zero_iff reduced_word.mask, ne_eq, hexact]
  have htiny : detectTininess = .beforeRounding ∨ -(dist : ℤ) < -1 ∨
      sig + selectIncrement (ofMode mode) sign 0x200 0x3FF < 0x8000000000000000 ↔
        ¬(dist = 1 ∧ 2 ^ 53 ≤ mode.roundDiv sign sig.toNat (2 ^ 10)) := by
    have hafter : detectTininess ≠ .beforeRounding := by decide
    rw [or_iff_right hafter, ← UInt64.not_le, carries_iff sign hsig]
    omega
  obtain ⟨t, ht⟩ : ∃ t, (if ¬(dist = 1 ∧ 2 ^ 53 ≤ mode.roundDiv sign sig.toNat (2 ^ 10)) ∧
      sig.toNat % 2 ^ (10 + dist) ≠ 0 then raiseFlags flagUnderflow s else s) = t := ⟨_, rfl⟩
  have hmode : t.roundingMode = ofMode mode := by
    rw [← ht]
    split
    · exact hs
    · exact hs
  rw [roundPackToF64, hs]
  simp only [hdist, htiny, hbits]
  rw [if_pos ⟨by rw [decide_eq_true_iff]; omega, by omega⟩, ht]
  obtain ⟨q, hq, heq⟩ := packRounded_eq sign hmode hsmall 0
  refine ⟨q, hq.trans hround, ?_⟩
  rw [heq, ite_self, ← raiseFlags_rounded, ht]
  simp only [ne_eq, hexact]

/-- Packing with the exponent of a normal number. -/
theorem roundPackToF64_normal (hs : s.roundingMode = ofMode mode) (hsig : sig.toNat < 2 ^ 63)
    {e : ℕ} (he : e < 0x7FD ∨ e = 0x7FD ∧ mode.roundDiv sign sig.toNat (2 ^ 10) < 2 ^ 53) :
    ∃ q : UInt64, q.toNat = mode.roundDiv sign sig.toNat (2 ^ 10) ∧
      roundPackToF64 sign e sig s = (packToF64UI sign (if q = 0 then 0 else e) q,
        raiseFlags (flagsOf (sig.toNat % 2 ^ 10 ≠ 0) false false) s) := by
  have hcarries : e = 0x7FD →
      ¬0x8000000000000000 ≤ sig + selectIncrement (ofMode mode) sign 0x200 0x3FF := by
    intro htop
    rw [carries_iff sign hsig]
    omega
  obtain ⟨q, hq, heq⟩ := packRounded_eq sign hs hsig (e : ℤ)
  refine ⟨q, hq, ?_⟩
  rw [roundPackToF64, hs]
  simp only
  rw [if_neg (by omega), if_neg ?_, heq, raiseFlags_inexact]
  rintro ⟨hnear, hfar | hcarry⟩
  · omega
  · rw [decide_eq_true_iff] at hnear
    exact hcarries (by omega) hcarry

theorem roundPackToF64_overflow (hs : s.roundingMode = ofMode mode) (hsig : sig.toNat < 2 ^ 63)
    {e : ℕ} (hlt : e < 2 ^ 16)
    (he : 0x7FD < e ∨ e = 0x7FD ∧ 2 ^ 53 ≤ mode.roundDiv sign sig.toNat (2 ^ 10)) :
    roundPackToF64 sign e sig s =
      (packToF64UI sign 0x7FF 0 - if mode.overflows sign then 0 else 1,
        raiseFlags (flagsOf true true false) s) := by
  have hover : 0x7FD < (e : ℤ) ∨
      0x8000000000000000 ≤ sig + selectIncrement (ofMode mode) sign 0x200 0x3FF := by
    rw [carries_iff sign hsig]
    omega
  rw [roundPackToF64, hs]
  simp only [selectIncrement_eq_zero_iff]
  rw [if_neg (by omega), if_pos ⟨by rw [decide_eq_true_iff]; omega, hover⟩]
  refine Prod.ext ?_ rfl
  cases mode.overflows sign <;> rfl

end Rounding

end SoftFloat

namespace Float80

open SoftFloat

def doubleFormat : Format where
  precision := 53
  emin := -1022
  emax := 1023

/-- The number in a packed word, whose significand may also be the power after the largest one. -/
theorem doubleDatum_pack (sign : Bool) {e m : ℕ} {q : UInt64} (hq : q.toNat = m)
    (hnormal : e = 0 ∨ 2 ^ 52 ≤ m) (hm : m ≤ 2 ^ 53) (hfit : e * 2 ^ 52 + m < 0x7FF * 2 ^ 52) :
    doubleDatum (packToF64UI sign e q) = .finite sign (m * 2 ^ ((e : ℤ) + 1 - 1075)) := by
  obtain ⟨w, hw⟩ : ∃ w, packToF64UI sign e q = w := ⟨_, rfl⟩
  have hword := toNat_packToF64UI sign hq (show e * 2 ^ 52 + m < 2 ^ 63 by omega)
  rw [hw] at hword ⊢
  have hexp := expF64UI_eq w
  have hfrac := toNat_fracF64UI w
  have hle : sign.toNat ≤ 1 := Bool.toNat_le sign
  have hsign : signF64UI w = sign := by
    have hinj : ∀ b c : Bool, b.toNat = c.toNat → b = c := by decide
    apply hinj
    rw [toNat_signF64UI]
    omega
  rw [doubleDatum, if_neg (by omega), hsign]
  congr 1
  by_cases hzero : expF64UI w = 0
  · have hzero' : e = 0 ∧ m = (fracF64UI w).toNat := by omega
    rw [if_pos hzero, hzero, Nat.zero_add, hzero'.1, hzero'.2]
    rfl
  · rw [if_neg hzero, max_eq_left (by omega)]
    rcases hm.lt_or_eq with hlt | rfl
    · have hm' : 2 ^ 52 + (fracF64UI w).toNat = m := by omega
      have he : expF64UI w = e + 1 := by omega
      rw [hm', he]
    · have hm' : 2 ^ 52 + (fracF64UI w).toNat = 2 ^ 52 := by omega
      have he : expF64UI w = e + 2 := by omega
      have hcast := cast_mul_two_pow (2 ^ 52) 1 ((e : ℤ) + 1 - 1075)
      rw [hm', he, show 2 ^ 53 = 2 ^ 52 * 2 ^ 1 from rfl, hcast]
      congr 2
      push_cast
      ring

theorem doubleDatum_overflow (mode : Mode) (sign : Bool) :
    doubleDatum (packToF64UI sign 0x7FF 0 - if mode.overflows sign then 0 else 1) =
      (Result.ofRounded sign (doubleFormat.overflowed mode sign : Rounded ℚ)).datum := by
  rw [Format.overflowed, Result.ofRounded]
  cases mode.overflows sign with
  | true =>
    rw [if_pos rfl, if_pos rfl]
    cases sign <;> rfl
  | false =>
    have hlargest : (doubleFormat.largest : ℚ) =
        ((2 ^ 53 - 1 : ℕ) : ℚ) * 2 ^ (((0x7FD : ℕ) : ℤ) + 1 - 1075) := by
      have hsplit : (2 : ℚ) ^ (1024 : ℤ) = 2 ^ (53 : ℤ) * 2 ^ (971 : ℤ) := by
        rw [← zpow_add₀ two_ne_zero]
        norm_num
      rw [Format.largest, Format.quantum]
      change (2 : ℚ) ^ (1024 : ℤ) - 2 ^ (971 : ℤ) = _ * 2 ^ (971 : ℤ)
      have hcast : ((2 ^ 53 - 1 : ℕ) : ℚ) = 2 ^ (53 : ℤ) - 1 := by norm_num
      rw [hsplit, hcast, sub_mul, one_mul]
    have hword : packToF64UI sign 0x7FF 0 - 1 = packToF64UI sign (0x7FD : ℕ) (2 ^ 53 - 1) := by
      cases sign <;> rfl
    rw [if_neg Bool.false_ne_true, if_neg Bool.false_ne_true, hword,
      doubleDatum_pack sign rfl (by decide) (by decide) (by decide)]
    exact congrArg _ hlargest.symm

/-- A double has the wanted datum, and the wanted flags are raised. -/
def Narrows (env : State) (r : Result ℚ) (o : UInt64 × State) : Prop :=
  o.2 = FloatEnv.raiseFlags env (FloatFlags.ofFlags r.flags) ∧ doubleDatum o.1 = r.datum

variable {mode : Mode} {sign : Bool} {sig : UInt64} {s : State} {n : ℕ}

theorem raiseFlags_ofRounded (sign : Bool) (r : Rounded ℚ) (s : State) :
    FloatEnv.raiseFlags s (FloatFlags.ofFlags (Result.ofRounded sign r).flags) =
      SoftFloat.raiseFlags (raised r) s := by
  rw [FloatEnv.raiseFlags, FloatEnv.ofFlags_and_all, FloatEnv.ofFlags_ofRounded,
    SoftFloat.raiseFlags]

theorem jam_two_lt (hn : n < 2 ^ 64) : jam n 2 < 2 ^ 63 := by
  rcases jam_cases n 2 with ⟨-, heq⟩ | ⟨-, heq⟩ <;> omega

/-- The word that is packed has one bit less than the significand, and what the last bit of a
jammed word tells is enough. -/
theorem roundPackToF64_narrows (hs : s.roundingMode = ofMode mode) (hlo : 2 ^ 63 ≤ n)
    (hhi : n < 2 ^ 64) (hsig : sig.toNat = jam n 2) {e : ℤ} (he : -0x1000 ≤ e) (he' : e < 2 ^ 16) :
    Narrows s (.ofRounded sign (doubleFormat.round mode sign ((n : ℚ) * 2 ^ (e - 1085))))
      (roundPackToF64 sign e sig s) := by
  have hsmall : sig.toNat < 2 ^ 63 := by
    rw [hsig]
    exact jam_two_lt hhi
  have hround : mode.roundDiv sign sig.toNat (2 ^ 10) = mode.roundDiv sign n (2 ^ 11) := by
    rw [hsig]
    exact Mode.roundDiv_jam mode sign n 2 (2 ^ 8) two_pos
  have hbounds : 2 ^ 52 ≤ mode.roundDiv sign n (2 ^ 11) ∧
      mode.roundDiv sign n (2 ^ 11) ≤ 2 ^ 53 :=
    Format.roundDiv_bounds (f := doubleFormat) mode sign hlo hhi (by decide) rfl
  have ht : (-e).toNat = (doubleFormat.emin - ((63 : ℕ) + (e - 1085))).toNat := by
    change _ = (-1022 - ((63 : ℕ) + (e - 1085))).toNat
    omega
  have hover : doubleFormat.emax < ((63 : ℕ) : ℤ) + (e - 1085) ↔ 0x7FD < e := by
    change 1023 < _ ↔ _
    omega
  have hover' : doubleFormat.emax = ((63 : ℕ) : ℤ) + (e - 1085) ↔ e = 0x7FD := by
    change 1023 = _ ↔ _
    omega
  have hnormal : doubleFormat.emin ≤ ((63 : ℕ) : ℤ) + (e - 1085) ↔ 0 ≤ e := by
    change -1022 ≤ _ ↔ _
    omega
  have hnormal' : doubleFormat.emin = ((63 : ℕ) : ℤ) + (e - 1085) + 1 ↔ e = -1 := by
    change -1022 = _ ↔ _
    omega
  have hprecision : 2 ^ doubleFormat.precision = 2 ^ 53 := rfl
  rw [Narrows, raiseFlags_ofRounded, Format.round_dyadic (f := doubleFormat) hlo hhi (by decide)
    (show 63 + 1 = doubleFormat.precision + 11 from rfl) ht]
  simp only [hover, hover', hnormal, hnormal', hprecision]
  split
  · next hmax =>
    obtain ⟨k, rfl⟩ : ∃ k : ℕ, e = k := ⟨e.toNat, by omega⟩
    rw [roundPackToF64_overflow sign hs hsmall (by omega) (by rw [hround]; omega)]
    exact ⟨rfl, doubleDatum_overflow mode sign⟩
  · next hmax =>
    by_cases hneg : e < 0
    · obtain ⟨dist, rfl⟩ : ∃ dist : ℕ, e = -dist := ⟨(-e).toNat, by omega⟩
      obtain ⟨q, hq, heq⟩ := roundPackToF64_subnormal sign hs hsmall
        (show 0 < dist by omega) (by omega)
      have hdist : (- -(dist : ℤ)).toNat = dist := by omega
      have hsplit : 2 ^ (10 + dist) = 2 * (2 * (2 ^ 8 * 2 ^ dist)) := by
        rw [pow_add]
        ring
      have hsplit' : 2 ^ (11 + dist) = 2 * (2 * (2 * (2 ^ 8 * 2 ^ dist))) := by
        rw [pow_add]
        ring
      have hround' : mode.roundDiv sign sig.toNat (2 ^ (10 + dist)) =
          mode.roundDiv sign n (2 ^ (11 + dist)) := by
        rw [hsig, hsplit, hsplit']
        exact Mode.roundDiv_jam mode sign n 2 (2 ^ 8 * 2 ^ dist) two_pos
      have hexact : sig.toNat % 2 ^ (10 + dist) = 0 ↔ n % 2 ^ (11 + dist) = 0 := by
        rw [hsig, hsplit, hsplit']
        exact jam_mod_eq_zero_iff n 2 (2 * (2 ^ 8 * 2 ^ dist)) two_pos
      have hle : mode.roundDiv sign n (2 ^ (11 + dist)) ≤ 2 ^ 53 := by
        have hpow : 2 ^ 11 ≤ 2 ^ (11 + dist) := Nat.pow_le_pow_right two_pos (by omega)
        have hquot : n / 2 ^ (11 + dist) ≤ n / 2 ^ 11 := Nat.div_le_div_left hpow (by decide)
        have hnext := (mode.le_roundDiv sign n (2 ^ (11 + dist))).2
        omega
      rw [hround'] at hq
      rw [heq, hdist]
      refine ⟨?_, (doubleDatum_pack (e := 0) sign hq (.inl rfl) hle (by omega)).trans ?_⟩
      · have hunder : dist = 1 ∧ 2 ^ 53 ≤ mode.roundDiv sign n (2 ^ 11) ↔ 0 ≤ -(dist : ℤ) ∨
            -(dist : ℤ) = -1 ∧ mode.roundDiv sign n (2 ^ 11) = 2 ^ 53 := by omega
        simp only [raised, hround, hunder, hexact, ne_eq]
      · refine congrArg (Datum.finite sign) ?_
        congr 2
        push_cast
        ring
    · obtain ⟨k, rfl⟩ : ∃ k : ℕ, e = k := ⟨e.toNat, by omega⟩
      obtain ⟨q, hq, heq⟩ := roundPackToF64_normal sign (e := k) hs hsmall
        (by rw [hround]; omega)
      have hne : q ≠ 0 := by
        rw [ne_zero_iff, hq, hround]
        omega
      have hexact : sig.toNat % 2 ^ 10 = 0 ↔ n % 2 ^ 11 = 0 := by
        rw [hsig]
        exact jam_mod_eq_zero_iff n 2 (2 ^ 9) two_pos
      have hzero : (-(k : ℤ)).toNat = 0 := by omega
      rw [hround] at hq
      rw [heq, if_neg hne, hzero]
      refine ⟨?_, (doubleDatum_pack sign hq (.inr hbounds.1) hbounds.2 (by omega)).trans ?_⟩
      · have hunder : ¬(n % 2 ^ (11 + 0) ≠ 0 ∧ ¬(0 ≤ (k : ℤ) ∨
            (k : ℤ) = -1 ∧ mode.roundDiv sign n (2 ^ 11) = 2 ^ 53)) :=
          fun h => h.2 (.inl (Int.natCast_nonneg k))
        simp only [raised, hunder, hexact, decide_false, ne_eq, Nat.add_zero]
      · refine congrArg (Datum.finite sign) ?_
        rw [Nat.add_zero]
        congr 2
        push_cast
        ring

/-- Far below the smallest double, nothing but the sign of the number matters. -/
theorem roundPackToF64_tiny (hs : s.roundingMode = ofMode mode) (hlo : 2 ^ 63 ≤ n)
    (hhi : n < 2 ^ 64) (hpos : 0 < sig.toNat) (hsig : sig.toNat < 2 ^ 63) {e : ℤ}
    (he : e ≤ -0x1000) :
    Narrows s (.ofRounded sign (doubleFormat.round mode sign ((n : ℚ) * 2 ^ (e - 1085))))
      (roundPackToF64 sign (-0x1000) sig s) := by
  have hlarge {m : ℕ} (hm : m < 2 ^ 64) {k : ℕ} (hk : 0x1000 ≤ k) : 2 * m < 2 ^ k := by
    have hpow : 2 ^ 65 ≤ 2 ^ k := Nat.pow_le_pow_right two_pos (by omega)
    omega
  have ht : (-e).toNat = (doubleFormat.emin - ((63 : ℕ) + (e - 1085))).toNat := by
    change _ = (-1022 - ((63 : ℕ) + (e - 1085))).toNat
    omega
  have hover : ¬(doubleFormat.emax < ((63 : ℕ) : ℤ) + (e - 1085) ∨
      doubleFormat.emax = ((63 : ℕ) : ℤ) + (e - 1085) ∧
        mode.roundDiv sign n (2 ^ 11) = 2 ^ doubleFormat.precision) := by
    change ¬(1023 < _ ∨ 1023 = _ ∧ _)
    omega
  have hnormal : ¬(doubleFormat.emin ≤ ((63 : ℕ) : ℤ) + (e - 1085) ∨
      doubleFormat.emin = ((63 : ℕ) : ℤ) + (e - 1085) + 1 ∧
        mode.roundDiv sign n (2 ^ 11) = 2 ^ doubleFormat.precision) := by
    change ¬(-1022 ≤ _ ∨ -1022 = _ ∧ _)
    omega
  have hn : n % 2 ^ (11 + (-e).toNat) ≠ 0 := by
    have hn := hlarge hhi (show 0x1000 ≤ 11 + (-e).toNat by omega)
    rw [Nat.mod_eq_of_lt (by omega)]
    omega
  obtain ⟨dist, hdist⟩ : ∃ dist : ℕ, dist = 0x1000 := ⟨_, rfl⟩
  have hm : sig.toNat % 2 ^ (10 + dist) ≠ 0 := by
    have hm := hlarge (show sig.toNat < 2 ^ 64 by omega) (show 0x1000 ≤ 10 + dist by omega)
    rw [Nat.mod_eq_of_lt (by omega)]
    omega
  have hsame : mode.roundDiv sign sig.toNat (2 ^ (10 + dist)) =
      mode.roundDiv sign n (2 ^ (11 + (-e).toNat)) :=
    Mode.roundDiv_of_tiny hpos (hlarge (by omega) (by omega)) (by omega) (hlarge hhi (by omega))
  obtain ⟨q, hq, heq⟩ := roundPackToF64_subnormal sign hs hsig (show 0 < dist by omega)
    (show dist ≤ 0x1000 by omega)
  have hle : mode.roundDiv sign n (2 ^ (11 + (-e).toNat)) ≤ 2 ^ 53 := by
    have hn := hlarge hhi (show 0x1000 ≤ 11 + (-e).toNat by omega)
    have hnext := (mode.le_roundDiv sign n (2 ^ (11 + (-e).toNat))).2
    rw [Nat.div_eq_of_lt (by omega)] at hnext
    omega
  have hexp : (-0x1000 : ℤ) = -dist := by omega
  have hfar : ¬(dist = 1 ∧ 2 ^ 53 ≤ mode.roundDiv sign sig.toNat (2 ^ 10)) := by omega
  rw [hsame] at hq
  rw [Narrows, raiseFlags_ofRounded, Format.round_dyadic (f := doubleFormat) hlo hhi (by decide)
    (show 63 + 1 = doubleFormat.precision + 11 from rfl) ht, if_neg hover, hexp, heq]
  refine ⟨?_, (doubleDatum_pack (e := 0) sign hq (.inl rfl) hle (by omega)).trans ?_⟩
  · simp only [raised, hfar, hnormal, ne_eq, hn, hm, not_false_eq_true, and_self]
  · refine congrArg (Datum.finite sign) ?_
    congr 2
    push_cast
    omega

theorem jam_two_pos (hn : 0 < n) : 0 < jam n 2 := by
  rcases jam_cases n 2 with ⟨hzero, heq⟩ | ⟨hzero, heq⟩ <;> omega

variable {x : Float80}

theorem narrows_finite (hcanonical : x.Canonical) (hx : x.isFinite) (hman : x.man ≠ 0)
    (hs : s.roundingMode = ofMode mode) :
    Narrows s (.ofRounded x.sign (doubleFormat.round mode x.sign x.magnitude))
      (x.toDouble s) := by
  have hpos : 0 < x.man.toNat := Nat.pos_of_ne_zero (ne_zero_iff.1 hman)
  have hlt := biasedExponent_lt hx
  have hjam : (shortShiftRightJam64 x.toSF.signif 1).toNat = jam x.man.toNat 2 :=
    toNat_shortShiftRightJam64 x.man
  have hzero : ¬(expExtF80UI64 x.toSF.signExp = 0 ∧ x.toSF.signif = 0) := fun h => hman h.2
  rw [toDouble, extF80ToF64]
  simp only [hzero, exp_ne_of_isFinite hx, if_false]
  rw [expExtF80UI64_toSF, signExtF80UI64_toSF]
  by_cases hbig : 0x2C01 ≤ x.biasedExponent.toNat
  · have hlo : 2 ^ 63 ≤ x.man.toNat := by
      rw [← integerBit_iff]
      refine hcanonical.2 fun h => ?_
      rw [h] at hbig
      exact absurd hbig (by decide)
    have hmax : max ((x.biasedExponent.toNat : ℤ) - 0x3C01) (-0x1000) =
        x.biasedExponent.toNat - 0x3C01 := by omega
    have hmagnitude : x.magnitude =
        x.man.toNat * 2 ^ ((x.biasedExponent.toNat : ℤ) - 0x3C01 - 1085) := by
      rw [magnitude, max_eq_left (by omega)]
      congr 2
      ring
    rw [hmax, hmagnitude]
    exact roundPackToF64_narrows hs hlo x.man.toNat_lt hjam (by omega) (by omega)
  · obtain ⟨hnormalized, hlo⟩ := toNat_normalized hman
    have hhi : x.man.toNat * 2 ^ countlZero x.man < 2 ^ 64 := by
      rw [← hnormalized]
      exact UInt64.toNat_lt _
    have hmax : max ((x.biasedExponent.toNat : ℤ) - 0x3C01) (-0x1000) = -0x1000 := by omega
    have hmagnitude : x.magnitude = (x.man.toNat * 2 ^ countlZero x.man : ℕ) *
        2 ^ (max (x.biasedExponent.toNat : ℤ) 1 - 0x3C01 - countlZero x.man - 1085) := by
      rw [magnitude, cast_mul_two_pow]
      congr 2
      ring
    rw [hmax, hmagnitude]
    refine roundPackToF64_tiny hs hlo hhi ?_ ?_ (by omega)
    · rw [hjam]
      exact jam_two_pos hpos
    · rw [hjam]
      exact jam_two_lt x.man.toNat_lt

theorem doubleDatum_nan (c : CommonNaN) : doubleDatum (commonNaNToF64UI c) = .nan false := by
  obtain ⟨b, hb⟩ : ∃ b, (c.v64 >>> 12).toNat = b := ⟨_, rfl⟩
  have hsmall : b < 2 ^ 52 := by
    have hlt := c.v64.toNat_lt
    rw [← hb, UInt64.toNat_shiftRight, Nat.shiftRight_eq_div_pow]
    change c.v64.toNat / 2 ^ 12 < 2 ^ 52
    omega
  have hlow : 2 ^ 51 ≤ 2 ^ 51 ||| b := Nat.left_le_or
  have hhigh : 2 ^ 51 ||| b < 2 ^ 52 := Nat.or_lt_two_pow (by decide) hsmall
  have hword : (commonNaNToF64UI c).toNat =
      2 ^ 63 * c.sign.toNat + (2 ^ 52 * 0x7FF + (2 ^ 51 ||| b)) := by
    rw [Nat.two_pow_add_eq_or_of_lt (b := 2 ^ 51 ||| b) hhigh,
      Nat.two_pow_add_eq_or_of_lt (by rw [← Nat.two_pow_add_eq_or_of_lt hhigh]; omega),
      toNat_commonNaNToF64UI, hb]
    ac_rfl
  have hexp := expF64UI_eq (commonNaNToF64UI c)
  have hfrac := toNat_fracF64UI (commonNaNToF64UI c)
  have hne : fracF64UI (commonNaNToF64UI c) ≠ 0 := by
    rw [ne_zero_iff]
    omega
  rw [doubleDatum, if_pos (by omega), if_neg hne, decide_eq_false (by omega)]

theorem narrows_exact {d : Datum ℚ} {w : UInt64} (h : doubleDatum w = d) :
    Narrows s (.exact d) (w, s) :=
  ⟨(FloatEnv.raiseFlags_ofFlags_empty s).symm, h⟩

theorem narrows_zero (hcanonical : x.Canonical) (hman : x.man = 0) :
    Narrows s (.exact (.finite x.sign 0)) (x.toDouble s) := by
  have hexp : x.biasedExponent = 0 := by
    by_contra hne
    have hlo := (integerBit_iff x).1 (hcanonical.2 hne)
    rw [hman] at hlo
    exact absurd hlo (by decide)
  have hzero : expExtF80UI64 x.toSF.signExp = 0 ∧ x.toSF.signif = 0 := by
    rw [expExtF80UI64_toSF, hexp]
    exact ⟨rfl, hman⟩
  rw [toDouble, extF80ToF64]
  simp only [hzero, and_self, if_true]
  apply narrows_exact
  rw [signExtF80UI64_toSF]
  exact (doubleDatum_pack (e := 0) x.sign rfl (.inl rfl) (by decide) (by decide)).trans
    (congrArg _ (by rw [UInt64.toNat_zero, Nat.cast_zero, zero_mul]))

theorem narrows_infinite (hx : x.isInfinite) :
    Narrows s (.exact (.infinite x.sign)) (x.toDouble s) := by
  obtain ⟨hexp, hfrac⟩ := of_isInfinite hx
  rw [toDouble, extF80ToF64]
  simp only [hexp, if_neg hfrac]
  rw [if_neg (fun h => absurd h.1 (by decide)), if_pos trivial, signExtF80UI64_toSF]
  apply narrows_exact
  cases x.sign <;> rfl

theorem narrows_nan (hx : x.isNaN) :
    Narrows s (.ofNaN x.isSignalingNaN) (x.toDouble s) := by
  obtain ⟨hexp, hfrac⟩ := of_isNaN hx
  rw [toDouble, extF80ToF64]
  simp only [hexp, if_pos hfrac]
  rw [if_neg (fun h => absurd h.1 (by decide)), if_pos trivial]
  refine ⟨?_, doubleDatum_nan _⟩
  dsimp only
  rw [extF80UIToCommonNaN, isSigNaN_toSF]
  cases x.isSignalingNaN with
  | true => rfl
  | false => exact (FloatEnv.raiseFlags_ofFlags_empty s).symm

/-- The conversion to doubles rounds every number correctly. -/
theorem toDouble_rounds (hx : x.Canonical) (mode : Mode) (env : State) :
    Narrows (FloatEnv.setRoundingMode env mode) (x.datum.roundTo doubleFormat mode)
      (x.toDouble (FloatEnv.setRoundingMode env mode)) := by
  rcases x.classes with hclass | hclass | hclass
  · rw [datum_of_isFinite hclass, Datum.roundTo]
    by_cases hman : x.man = 0
    · rw [(magnitude_eq_zero_iff x).2 hman, round_zero_exact]
      exact narrows_zero hx hman
    · exact narrows_finite hx hclass hman rfl
  · rw [datum_of_isInfinite hclass]
    exact narrows_infinite hclass
  · rw [datum_of_isNaN hclass]
    exact narrows_nan hclass

theorem toDouble_rounds_third :
    (⟨0x3FFD, 0xAAAAAAAAAAAAAAAB⟩ : Float80).Canonical ∧
      Narrows (FloatEnv.setRoundingMode ⟨.nearEven, 0, 80⟩ .up)
        ((⟨0x3FFD, 0xAAAAAAAAAAAAAAAB⟩ : Float80).datum.roundTo doubleFormat .up)
        (toDouble ⟨0x3FFD, 0xAAAAAAAAAAAAAAAB⟩ (FloatEnv.setRoundingMode ⟨.nearEven, 0, 80⟩ .up)) :=
  ⟨by decide, toDouble_rounds (by decide) .up ⟨.nearEven, 0, 80⟩⟩

end Float80

end Utlib
