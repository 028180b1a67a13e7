import Utlib.SoftFloat.Words

/-! The truncating conversion to 32-bit integers. -/

namespace Utlib.SoftFloat

open Utlib.Rounding

theorem toInt_toInt32 (x : UInt32) :
    x.toInt32.toInt = if 2 * x.toNat < 2 ^ 32 then (x.toNat : ℤ) else x.toNat - 2 ^ 32 :=
  BitVec.toInt_eq_toNat_cond x.toBitVec

theorem toInt_signed {x : UInt32} (sign : Bool) (hx : x.toNat < 2 ^ 31) :
    (if sign then -x else x).toInt32.toInt = if sign then -(x.toNat : ℤ) else x.toNat := by
  rw [toInt_toInt32]
  cases sign with
  | false =>
    simp only [Bool.false_eq_true, if_false]
    rw [if_pos (by omega)]
  | true =>
    simp only [if_true]
    rw [UInt32.toNat_neg, UInt32.size]
    split <;> omega

variable {sig : UInt64}

theorem roundToI32_minMag (sign exact : Bool) (s : State) (hsig : sig.toNat < 2 ^ 43) :
    (roundToI32 sign sig .minMag exact s).1.toInt =
        (if sign then -((sig.toNat / 2 ^ 12 : ℕ) : ℤ) else (sig.toNat / 2 ^ 12 : ℕ)) ∧
      (roundToI32 sign sig .minMag exact s).2 =
        if sig.toNat % 2 ^ 12 ≠ 0 ∧ exact then raiseFlags flagInexact s else s := by
  have hmask : (0xFFF : UInt64).toNat = 2 ^ 12 - 1 := rfl
  have hbits : sig &&& 0xFFF ≠ 0 ↔ sig.toNat % 2 ^ 12 ≠ 0 := and_mask_ne_zero_iff hmask
  have hquot : (sig >>> 12).toUInt32.toNat = sig.toNat / 2 ^ 12 := by
    rw [UInt64.toNat_toUInt32, UInt64.toNat_shiftRight, Nat.shiftRight_eq_div_pow]
    exact Nat.mod_eq_of_lt (show sig.toNat / 2 ^ 12 < 2 ^ 32 by omega)
  have hfits : ¬sig &&& 0xFFFFF00000000000 ≠ 0 := by
    have hlow : (0xFFFFFFFFFFF : UInt64).toNat = 2 ^ 44 - 1 := rfl
    have hhigh : (0xFFFFF00000000000 : UInt64) = ~~~0xFFFFFFFFFFF := rfl
    rw [ne_zero_iff, hhigh, toNat_and_not_mask hlow]
    omega
  have hincrement : (if roundsToNearest .minMag then 0x800
      else if roundsAway .minMag sign ∨ sign ∧ RoundMode.minMag = .odd then 0xFFF
      else 0 : UInt64) = 0 := by
    cases sign <;> rfl
  have hz := toInt_signed (x := (sig >>> 12).toUInt32) sign (by omega)
  rw [roundToI32, hincrement, UInt64.add_zero, if_neg hfits]
  simp only [reduceCtorEq, and_false, if_false]
  generalize (if sign then -(sig >>> 12).toUInt32 else (sig >>> 12).toUInt32).toInt32 = z at hz ⊢
  rw [hquot] at hz
  have hsign : ¬(z ≠ 0 ∧ decide (z < 0) ≠ sign) := by
    rintro ⟨hne, hsign⟩
    rw [ne_eq, ← Int32.toInt_inj, Int32.toInt_zero, hz] at hne
    apply hsign
    have hneg : z < 0 ↔ sign = true := by
      rw [Int32.lt_iff_toInt_lt, Int32.toInt_zero, hz]
      cases sign with
      | false =>
        rw [if_neg Bool.false_ne_true]
        exact iff_of_false (by omega) Bool.false_ne_true
      | true =>
        rw [if_pos rfl] at hne ⊢
        exact iff_of_true (by omega) rfl
    simp only [hneg, Bool.decide_eq_true]
  simp only [if_neg hsign, hbits]
  exact ⟨hz, trivial⟩

/-- The conversion truncates the magnitudes below `2 ^ 31`. -/
theorem extF80ToI32_minMag {a : ExtFloat80} {e : ℕ} (exact : Bool) (s : State)
    (hexp : expExtF80UI64 a.signExp = e) (hlt : e < 0x401E) :
    (extF80ToI32 a .minMag exact s).1.toInt =
        (if signExtF80UI64 a.signExp then -((a.signif.toNat / 2 ^ (0x403E - e) : ℕ) : ℤ)
          else (a.signif.toNat / 2 ^ (0x403E - e) : ℕ)) ∧
      (extF80ToI32 a .minMag exact s).2 =
        if a.signif.toNat % 2 ^ (0x403E - e) ≠ 0 ∧ exact then raiseFlags flagInexact s else s := by
  have hdist : ¬0x4032 - expExtF80UI64 a.signExp ≤ 0 := by
    rw [hexp]
    omega
  have hdist' : (0x4032 - expExtF80UI64 a.signExp).toNat = 0x4032 - e := by
    rw [hexp]
    omega
  have hpos : 0 < 0x4032 - e := by omega
  have hsplit : 2 ^ (0x403E - e) = 2 ^ (0x4032 - e) * (2 * 2 ^ 11) := by
    rw [← pow_succ', ← pow_add]
    congr 1
    omega
  have hjam := toNat_shiftRightJam64 (a := a.signif) hpos
  have hsmall : (shiftRightJam64 a.signif (0x4032 - e)).toNat < 2 ^ 43 := by
    have hsig : a.signif.toNat < 2 ^ 64 := a.signif.toNat_lt
    have hpow : 2 ^ 21 ≤ 2 ^ (0x4032 - e) := Nat.pow_le_pow_right two_pos (by omega)
    have hquot : a.signif.toNat / 2 ^ (0x4032 - e) < 2 ^ 43 := by
      rw [Nat.div_lt_iff_lt_mul (Nat.two_pow_pos _)]
      omega
    rw [hjam]
    rcases jam_cases a.signif.toNat (2 ^ (0x4032 - e)) with ⟨-, heq⟩ | ⟨-, heq⟩ <;> omega
  have hround := roundToI32_minMag (signExtF80UI64 a.signExp) exact s hsmall
  have hmod := jam_mod_eq_zero_iff a.signif.toNat (2 ^ (0x4032 - e)) (2 ^ 11)
    (Nat.two_pow_pos _)
  rw [extF80ToI32, if_neg hdist, hdist', hsplit, ← jam_div]
  simp only [ne_eq, ← hmod, ← hjam]
  exact hround

end Utlib.SoftFloat
