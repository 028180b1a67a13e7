import Utlib.SoftFloat.Encoding

/-! Packing with fewer significand bits than the format has. -/

namespace Utlib.SoftFloat

open Utlib.Rounding

/-- Rounding increment and mask of a precision that leaves `g` bits out. -/
structure Reduced (g : ℕ) (roundIncrement roundMask : UInt64) : Prop where
  two_le : 2 ≤ g
  lt : g < 63
  increment : roundIncrement.toNat = 2 ^ g / 2
  mask : roundMask.toNat = 2 ^ g - 1

theorem reduced_double : Reduced 11 0x400 0x7FF where
  two_le := by decide
  lt := by decide
  increment := rfl
  mask := rfl

theorem reduced_single : Reduced 40 0x8000000000 0xFFFFFFFFFF where
  two_le := by decide
  lt := by decide
  increment := rfl
  mask := rfl

namespace Reduced

variable {g : ℕ} {roundIncrement roundMask x : UInt64} {mode : Mode} {sign : Bool}

theorem even (h : Reduced g roundIncrement roundMask) : 2 ^ g % 2 = 0 := by
  have hdvd : 2 ^ 1 ∣ 2 ^ g := Nat.pow_dvd_pow 2 (by have := h.two_le; omega)
  exact Nat.mod_eq_zero_of_dvd hdvd

theorem toNat_selectIncrement (h : Reduced g roundIncrement roundMask) :
    (selectIncrement (ofMode mode) sign roundIncrement roundMask).toNat =
      mode.increment sign (2 ^ g) := by
  cases mode with
  | nearest => exact h.increment
  | zero => cases sign <;> rfl
  | down =>
    cases sign with
    | false => rfl
    | true => exact h.mask
  | up =>
    cases sign with
    | false => exact h.mask
    | true => rfl

theorem tie_iff (h : Reduced g roundIncrement roundMask) :
    ofMode mode = .nearEven ∧ (x &&& roundMask) <<< 1 = roundMask + 1 ↔
      mode.Tie x.toNat (2 ^ g) := by
  have hpow : 2 ^ g < 2 ^ 63 := Nat.pow_lt_pow_right one_lt_two h.lt
  have hlt := Nat.mod_lt x.toNat (Nat.two_pow_pos g)
  rw [ofMode_eq_nearEven_iff, ← UInt64.toNat_inj, UInt64.toNat_shiftLeft, UInt64.toNat_add,
    toNat_and_mask h.mask, h.mask, UInt64.toNat_one, Nat.shiftLeft_eq, Nat.one_mod, pow_one]
  apply and_congr_right'
  omega

theorem toNat_clearRoundBits (h : Reduced g roundIncrement roundMask)
    (hsum : x.toNat + mode.increment sign (2 ^ g) < 2 ^ 64) :
    (clearRoundBits (ofMode mode)
      (x + selectIncrement (ofMode mode) sign roundIncrement roundMask) (x &&& roundMask)
      roundMask).toNat = mode.roundDiv sign x.toNat (2 ^ g) * 2 ^ g := by
  have hadd : (x + selectIncrement (ofMode mode) sign roundIncrement roundMask).toNat =
      x.toNat + mode.increment sign (2 ^ g) := by
    rw [UInt64.toNat_add, h.toNat_selectIncrement, Nat.mod_eq_of_lt hsum]
  have hpos := Nat.two_pow_pos g
  rw [clearRoundBits]
  simp only [h.tie_iff]
  split
  · next htie =>
    rw [toNat_and_not_mask (toNat_or_succ (by have := h.lt; omega) h.mask), hadd,
      Mode.roundDiv_of_tie hpos htie, Nat.pow_succ, Nat.mul_assoc, Nat.mul_comm 2]
  · next htie =>
    rw [toNat_and_not_mask h.mask, hadd, Mode.roundDiv_of_not_tie hpos h.even htie]

theorem toNat_clearRoundBits_highBit (h : Reduced g roundIncrement roundMask)
    (roundingMode : RoundMode) (roundBits : UInt64) :
    (clearRoundBits roundingMode 0x8000000000000000 roundBits roundMask).toNat = 2 ^ 63 := by
  have hhigh : (0x8000000000000000 : UInt64).toNat = 2 ^ 63 := rfl
  rw [clearRoundBits]
  split
  · rw [toNat_and_not_mask (toNat_or_succ (by have := h.lt; omega) h.mask), hhigh]
    exact Nat.div_mul_cancel (Nat.pow_dvd_pow 2 h.lt)
  · rw [toNat_and_not_mask h.mask, hhigh]
    exact Nat.div_mul_cancel (Nat.pow_dvd_pow 2 h.lt.le)

variable {sig : UInt64} {flags : UInt8} {exp : ℤ}

theorem roundDiv_bounds (h : Reduced g roundIncrement roundMask) (mode : Mode) (sign : Bool)
    (hsig : 2 ^ 63 ≤ sig.toNat) :
    2 ^ (64 - g - 1) ≤ mode.roundDiv sign sig.toNat (2 ^ g) ∧
      mode.roundDiv sign sig.toNat (2 ^ g) ≤ 2 ^ (64 - g) := by
  have hlt := h.lt
  exact Format.roundDiv_bounds (f := extended (64 - g)) mode sign hsig sig.toNat_lt
    (Nat.sub_pos_of_lt (by omega)) (Nat.sub_add_cancel (by omega)).symm

theorem wraps_iff (h : Reduced g roundIncrement roundMask) (hsig : 2 ^ 63 ≤ sig.toNat) :
    mode.roundDiv sign sig.toNat (2 ^ g) = 2 ^ (64 - g) ↔
      2 ^ 64 ≤ sig.toNat + mode.increment sign (2 ^ g) := by
  have hlt := h.lt
  have hprod : 2 ^ (64 - g) * 2 ^ g = 2 ^ 64 := by
    rw [← pow_add, Nat.sub_add_cancel (by omega)]
  have hdvd : 2 ^ 1 ∣ 2 ^ (64 - g) := Nat.pow_dvd_pow 2 (by omega)
  have hle := (h.roundDiv_bounds mode sign hsig).2
  rw [← hprod, ← Mode.le_roundDiv_iff (Nat.two_pow_pos g) h.even (Nat.mod_eq_zero_of_dvd hdvd)]
  omega

theorem toNat_sum (h : Reduced g roundIncrement roundMask) :
    (sig + selectIncrement (ofMode mode) sign roundIncrement roundMask).toNat =
      (sig.toNat + mode.increment sign (2 ^ g)) % 2 ^ 64 := by
  rw [UInt64.toNat_add, h.toNat_selectIncrement]

theorem increment_lt (h : Reduced g roundIncrement roundMask) (mode : Mode) (sign : Bool) :
    mode.increment sign (2 ^ g) < 2 ^ 63 :=
  (mode.increment_lt sign (Nat.two_pow_pos g)).trans (Nat.pow_lt_pow_right one_lt_two h.lt)

theorem sum_lt_sig_iff (h : Reduced g roundIncrement roundMask) :
    sig + selectIncrement (ofMode mode) sign roundIncrement roundMask < sig ↔
      2 ^ 64 ≤ sig.toNat + mode.increment sign (2 ^ g) := by
  have hinc := h.increment_lt mode sign
  have hlt := sig.toNat_lt
  rw [UInt64.lt_iff_toNat_lt, h.toNat_sum]
  omega

theorem sum_lt_increment_iff (h : Reduced g roundIncrement roundMask) :
    sig + selectIncrement (ofMode mode) sign roundIncrement roundMask <
        selectIncrement (ofMode mode) sign roundIncrement roundMask ↔
      2 ^ 64 ≤ sig.toNat + mode.increment sign (2 ^ g) := by
  have hinc := h.increment_lt mode sign
  have hlt := sig.toNat_lt
  rw [UInt64.lt_iff_toNat_lt, h.toNat_sum, h.toNat_selectIncrement]
  omega

theorem reducedNormal_correct (h : Reduced g roundIncrement roundMask)
    (hsig : 2 ^ 63 ≤ sig.toNat) (hpos : 0 < exp)
    (hmax : ¬(0x7FFE < exp ∨
      exp = 0x7FFE ∧ mode.roundDiv sign sig.toNat (2 ^ g) = 2 ^ (64 - g))) :
    Correct (reducedNormal (ofMode mode) exp sig
        (selectIncrement (ofMode mode) sign roundIncrement roundMask) roundMask flags) flags
      ((extended (64 - g)).round mode sign ((sig.toNat : ℚ) * 2 ^ (exp - 16446))) := by
  have hg := h.lt
  have hshift : g + (1 - exp).toNat = g := by omega
  rw [round_extended _ _ _ hsig sig.toNat_lt (by omega), if_neg hmax, hshift, reducedNormal,
    if_neg (not_odd mode)]
  simp only [h.sum_lt_increment_iff, raiseInexact_eq, Bool.and_false,
    and_mask_ne_zero_iff h.mask, hpos, true_or, not_true_eq_false, and_false, decide_false]
  rw [h.wraps_iff hsig] at hmax
  split
  · next hwrap =>
    refine ⟨encodes_normal ?_ ?_ ?_ ?_, rfl⟩
    · dsimp only
      omega
    · dsimp only
      omega
    · exact (h.toNat_clearRoundBits_highBit _ _).ge
    · have hcast := cast_mul_two_pow 1 63 (exp + 1 - 16446)
      have hcast' := cast_mul_two_pow 1 (64 - g) (exp - 16446 + g)
      rw [one_mul] at hcast hcast'
      rw [h.toNat_clearRoundBits_highBit, hcast, (h.wraps_iff hsig).2 hwrap, hcast']
      congr 2
      omega
  · next hwrap =>
    have hsum := lt_of_not_ge hwrap
    have hge := (h.roundDiv_bounds mode sign hsig).1
    refine ⟨encodes_normal hpos ?_ ?_ ?_, rfl⟩
    · dsimp only
      omega
    · rw [h.toNat_clearRoundBits hsum]
      calc 2 ^ 63 = 2 ^ (64 - g - 1) * 2 ^ g := by
            rw [← pow_add, show 64 - g - 1 + g = 63 by omega]
        _ ≤ _ := Nat.mul_le_mul_right _ hge
    · rw [h.toNat_clearRoundBits hsum, cast_mul_two_pow]

theorem shiftRightJam64_le (sig : UInt64) {dist : ℕ} (hpos : 0 < dist) :
    (shiftRightJam64 sig dist).toNat ≤ 2 ^ 63 := by
  have hquot := div_two_pow_lt (a := sig) hpos
  rw [toNat_shiftRightJam64 hpos]
  rcases jam_cases sig.toNat (2 ^ dist) with ⟨-, heq⟩ | ⟨-, heq⟩ <;> omega

/-- A rounded subnormal number becomes the smallest normal one when the sum reaches its highest
bit. -/
theorem highBit_iff (h : Reduced g roundIncrement roundMask)
    (hsum : sig.toNat + mode.increment sign (2 ^ g) < 2 ^ 64) :
    (sig + selectIncrement (ofMode mode) sign roundIncrement roundMask) &&& 0x8000000000000000 ≠
      0 ↔ 2 ^ 63 ≤ mode.roundDiv sign sig.toNat (2 ^ g) * 2 ^ g := by
  have hg := h.lt
  have hprod : 2 ^ (63 - g) * 2 ^ g = 2 ^ 63 := by
    rw [← pow_add, Nat.sub_add_cancel (by omega)]
  have hdvd : 2 ^ 1 ∣ 2 ^ (63 - g) := Nat.pow_dvd_pow 2 (by omega)
  rw [and_highBit_ne_zero_iff, h.toNat_sum, Nat.mod_eq_of_lt hsum, ← hprod,
    Nat.mul_le_mul_right_iff (Nat.two_pow_pos g),
    Mode.le_roundDiv_iff (Nat.two_pow_pos g) h.even (Nat.mod_eq_zero_of_dvd hdvd)]

theorem isTiny_iff (h : Reduced g roundIncrement roundMask) (hsig : 2 ^ 63 ≤ sig.toNat)
    (hexp : exp ≤ 0) :
    detectTininess = .beforeRounding ∨ exp < 0 ∨
        sig ≤ sig + selectIncrement (ofMode mode) sign roundIncrement roundMask ↔
      ¬(0 < exp ∨ exp = 0 ∧ mode.roundDiv sign sig.toNat (2 ^ g) = 2 ^ (64 - g)) := by
  have hafter : detectTininess ≠ .beforeRounding := by decide
  rw [h.wraps_iff hsig, ← h.sum_lt_sig_iff, ← UInt64.not_lt]
  rcases hexp.lt_or_eq with hneg | hzero
  · exact iff_of_true (.inr (.inl hneg)) (by omega)
  · subst hzero
    simp only [hafter, lt_irrefl, false_or, true_and]

theorem reducedSubnormal_correct (h : Reduced g roundIncrement roundMask)
    (hsig : 2 ^ 63 ≤ sig.toNat) (hexp : exp ≤ 0) :
    Correct (reducedSubnormal (ofMode mode) exp sig
        (selectIncrement (ofMode mode) sign roundIncrement roundMask) roundMask flags) flags
      ((extended (64 - g)).round mode sign ((sig.toNat : ℚ) * 2 ^ (exp - 16446))) := by
  have hg := h.lt
  have hdist : 0 < (1 - exp).toNat := by omega
  have hjam := toNat_shiftRightJam64 (a := sig) hdist
  have hsplit : 2 ^ (g + (1 - exp).toNat) = 2 ^ (1 - exp).toNat * 2 ^ g := by
    rw [Nat.add_comm, pow_add]
  have hfour : 2 ^ g = 2 * (2 * 2 ^ (g - 2)) := by
    have htwo := h.two_le
    rw [← Nat.mul_assoc, show 2 * 2 = 2 ^ 2 from rfl, ← pow_add, Nat.add_sub_of_le htwo]
  have hround : mode.roundDiv sign (shiftRightJam64 sig (1 - exp).toNat).toNat (2 ^ g) =
      mode.roundDiv sign sig.toNat (2 ^ (g + (1 - exp).toNat)) := by
    rw [hjam, hsplit, hfour, Mode.roundDiv_jam _ _ _ _ _ (Nat.two_pow_pos _)]
  have hbits : shiftRightJam64 sig (1 - exp).toNat &&& roundMask ≠ 0 ↔
      sig.toNat % 2 ^ (g + (1 - exp).toNat) ≠ 0 := by
    rw [and_mask_ne_zero_iff h.mask, hjam, hsplit, hfour, ne_eq,
      jam_mod_eq_zero_iff _ _ _ (Nat.two_pow_pos _)]
  have hsum : (shiftRightJam64 sig (1 - exp).toNat).toNat + mode.increment sign (2 ^ g) <
      2 ^ 64 := by
    have hle := shiftRightJam64_le sig hdist
    have hinc := h.increment_lt mode sign
    omega
  rw [round_extended _ _ _ hsig sig.toNat_lt (by omega), if_neg (by omega), reducedSubnormal,
    if_neg (not_odd mode)]
  simp only [raiseInexact_eq, hbits, h.isTiny_iff hsig hexp]
  refine ⟨encodes_subnormal ?_ ?_, ?_⟩
  · dsimp only
    simp only [h.highBit_iff hsum, h.toNat_clearRoundBits hsum]
  · dsimp only
    rw [h.toNat_clearRoundBits hsum, hround, cast_mul_two_pow]
    congr 2
    omega
  · rw [raised, Bool.decide_and]

theorem roundReduced_correct (h : Reduced g roundIncrement roundMask)
    (hsig : 2 ^ 63 ≤ sig.toNat) (hlo : -2 ^ 31 ≤ exp) (hhi : exp < 2 ^ 31) :
    Correct (roundReduced (ofMode mode) sign exp sig 0 roundIncrement roundMask flags) flags
      ((extended (64 - g)).round mode sign ((sig.toNat : ℚ) * 2 ^ (exp - 16446))) := by
  have hg := h.lt
  rw [roundReduced]
  simp only [nearBounds_and_le_iff hlo hhi, nearBounds_and_overflow_iff hlo hhi]
  simp only [ne_eq, not_true_eq_false, if_false, UInt64.or_zero, h.sum_lt_sig_iff,
    ← h.wraps_iff hsig]
  split
  · next hle => exact h.reducedSubnormal_correct hsig hle
  · next hpos =>
    split
    · next hmax =>
      rw [round_extended _ _ _ hsig sig.toNat_lt (by omega), if_pos hmax]
      exact overflow_correct hg h.mask
    · next hmax => exact h.reducedNormal_correct hsig (lt_of_not_ge hpos) hmax

end Reduced

end Utlib.SoftFloat
