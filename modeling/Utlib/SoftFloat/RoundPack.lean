import Utlib.SoftFloat.Reduced
import Utlib.Rounding.Cell

/-! Packing with all significand bits, and with any number of them. -/

namespace Utlib.SoftFloat

open Utlib.Rounding

/-- What `extra` says of the remainder `r` of a division by `d`. -/
structure Discarded (extra : UInt64) (r d : ℕ) : Prop where
  zero : extra.toNat = 0 ↔ r = 0
  half : 2 ^ 63 ≤ extra.toNat ↔ d ≤ 2 * r
  tie : 2 ^ 63 ≤ extra.toNat → (extra.toNat % 2 ^ 63 = 0 ↔ 2 * r = d)

section Extended

variable {sig extra : UInt64} {mode : Mode} {sign : Bool} {flags : UInt8} {exp : ℤ} {dist : ℕ}

theorem toNat_shiftRightJam64Extra_v (sig : UInt64) (dist : ℕ) :
    (shiftRightJam64Extra sig 0 dist).v.toNat = sig.toNat / 2 ^ dist := by
  rw [shiftRightJam64Extra]
  split
  · next hlt => exact toNat_shiftRight_of_lt hlt
  · next hge =>
    have hpow : 2 ^ 64 ≤ 2 ^ dist := Nat.pow_le_pow_right two_pos (not_lt.1 hge)
    exact (Nat.div_eq_of_lt (sig.toNat_lt.trans_le hpow)).symm

theorem shiftRightJam64Extra_discarded (sig : UInt64) (hpos : 0 < dist) :
    Discarded (shiftRightJam64Extra sig 0 dist).extra (sig.toNat % 2 ^ dist) (2 ^ dist) := by
  have hsig : sig.toNat < 2 ^ 64 := sig.toNat_lt
  rcases le_or_gt dist 64 with hle | hgt
  · have hextra : (shiftRightJam64Extra sig 0 dist).extra.toNat =
        sig.toNat % 2 ^ dist * 2 ^ (64 - dist) := by
      rw [shiftRightJam64Extra]
      split
      · rw [if_neg (not_not.2 rfl), UInt64.or_zero]
        exact toNat_shiftLeft_rest hpos hle
      · next hge =>
        have heq : dist = 64 := by omega
        subst heq
        rw [if_neg (not_not.2 rfl), if_pos rfl, UInt64.or_zero, Nat.mod_eq_of_lt hsig,
          Nat.sub_self, pow_zero, Nat.mul_one]
    have hpow : 2 ^ dist * 2 ^ (64 - dist) = 2 ^ 64 := by rw [← pow_add, Nat.add_sub_of_le hle]
    have htwo := Nat.two_pow_pos (64 - dist)
    have hlt := (shiftRightJam64Extra sig 0 dist).extra.toNat_lt
    have hle_iff : 2 ^ dist * 2 ^ (64 - dist) ≤ 2 * (sig.toNat % 2 ^ dist) * 2 ^ (64 - dist) ↔
        2 ^ dist ≤ 2 * (sig.toNat % 2 ^ dist) := Nat.mul_le_mul_right_iff htwo
    have heq_iff : 2 * (sig.toNat % 2 ^ dist) * 2 ^ (64 - dist) = 2 ^ dist * 2 ^ (64 - dist) ↔
        2 * (sig.toNat % 2 ^ dist) = 2 ^ dist := Nat.mul_left_inj htwo.ne'
    rw [Nat.mul_assoc, hpow] at hle_iff heq_iff
    refine ⟨?_, ?_, ?_⟩
    · rw [hextra, Nat.mul_eq_zero]
      omega
    · rw [← hle_iff, hextra]
      omega
    · rw [← heq_iff, ← hextra]
      omega
  · have hextra : (shiftRightJam64Extra sig 0 dist).extra.toNat =
        if sig.toNat = 0 then 0 else 1 := by
      rw [shiftRightJam64Extra, if_neg (by omega), if_neg (not_not.2 rfl), if_neg (by omega),
        UInt64.or_zero, toNat_ite_ne_zero]
    have hpow : 2 ^ 65 ≤ 2 ^ dist := Nat.pow_le_pow_right two_pos hgt
    rw [Nat.mod_eq_of_lt (by omega)]
    refine ⟨?_, ?_, ?_⟩
    · rw [hextra]
      split <;> omega
    · rw [hextra]
      split <;> omega
    · rw [hextra]
      split <;> omega

/-- The shift of both words: what falls out of the second one is jammed. -/
theorem shiftRightJam64Extra_eq (sig extra : UInt64) (dist : ℕ) :
    shiftRightJam64Extra sig extra dist =
      ⟨(shiftRightJam64Extra sig 0 dist).v,
        (shiftRightJam64Extra sig 0 dist).extra ||| if extra ≠ 0 then 1 else 0⟩ := by
  rw [shiftRightJam64Extra, shiftRightJam64Extra]
  split <;> simp only [ne_eq, not_true_eq_false, if_false, UInt64.or_zero]

theorem toNat_or_jammed (a extra : UInt64) :
    (a ||| if extra ≠ 0 then 1 else 0).toNat =
      if extra.toNat = 0 then a.toNat else a.toNat / 2 * 2 + 1 := by
  rw [toNat_or_ite]
  simp only [ne_zero_iff, ne_eq, ite_not]

/-- A remainder is extended by the word that is jammed. -/
theorem Discarded.jammed {a : UInt64} {r d : ℕ} (h : Discarded a r d) (heven : d % 2 = 0)
    (extra : UInt64) :
    Discarded (a ||| if extra ≠ 0 then 1 else 0) (r * 2 ^ 64 + extra.toNat) (d * 2 ^ 64) := by
  have hlt : extra.toNat < 2 ^ 64 := extra.toNat_lt
  obtain ⟨hzero, hhalf, htie⟩ := h
  refine ⟨?_, ?_, ?_⟩
  · rw [toNat_or_jammed]
    split <;> omega
  · rw [toNat_or_jammed]
    split <;> omega
  · rw [toNat_or_jammed]
    split <;> omega

/-- The quotient and the remainder that a shift leaves of two words. -/
theorem shiftRightJam64Extra_spec (sig extra : UInt64) (hpos : 0 < dist) :
    (shiftRightJam64Extra sig extra dist).v.toNat =
        (sig.toNat * 2 ^ 64 + extra.toNat) / 2 ^ (64 + dist) ∧
      Discarded (shiftRightJam64Extra sig extra dist).extra
        ((sig.toNat * 2 ^ 64 + extra.toNat) % 2 ^ (64 + dist)) (2 ^ (64 + dist)) := by
  have hlt : extra.toNat < 2 ^ 64 := extra.toNat_lt
  have heven : 2 ^ dist % 2 = 0 :=
    Nat.mod_eq_zero_of_dvd (Nat.pow_dvd_pow 2 (show 1 ≤ dist by omega))
  have hquot : (sig.toNat * 2 ^ 64 + extra.toNat) / 2 ^ 64 = sig.toNat := by omega
  have hmod : (sig.toNat * 2 ^ 64 + extra.toNat) % 2 ^ 64 = extra.toNat := by omega
  have hrest := (shiftRightJam64Extra_discarded sig hpos).jammed heven extra
  rw [shiftRightJam64Extra_eq, pow_add, ← Nat.div_div_eq_div_mul, Nat.mod_mul, hquot, hmod,
    Nat.add_comm, Nat.mul_comm (2 ^ 64), Nat.mul_comm (2 ^ 64)]
  exact ⟨toNat_shiftRightJam64Extra_v sig dist, hrest⟩

theorem incrementsExtra_iff {n d : ℕ} (h : Discarded extra (n % d) d) :
    incrementsExtra (ofMode mode) sign extra = true ↔ mode.Carries sign n d ∨ mode.Tie n d := by
  have hne : extra ≠ 0 ↔ n % d ≠ 0 := by rw [ne_zero_iff, ne_eq, h.zero]
  cases mode with
  | nearest =>
    have hhalf : incrementsExtra (ofMode .nearest) sign extra = true ↔ 2 ^ 63 ≤ extra.toNat :=
      decide_eq_true_iff
    simp only [hhalf, h.half, Mode.Carries, Mode.Tie, true_and]
    omega
  | zero =>
    have hnever : incrementsExtra (ofMode .zero) sign extra = false := by cases sign <;> rfl
    simp [hnever, Mode.Carries, Mode.Tie]
  | down =>
    have haway : incrementsExtra (ofMode .down) sign extra = (sign && decide (extra ≠ 0)) := by
      cases sign <;> rfl
    rw [haway, Bool.and_eq_true, decide_eq_true_iff, hne]
    simp [Mode.Carries, Mode.Tie]
  | up =>
    have haway : incrementsExtra (ofMode .up) sign extra = (!sign && decide (extra ≠ 0)) := by
      cases sign <;> rfl
    rw [haway, Bool.and_eq_true, decide_eq_true_iff, hne]
    simp [Mode.Carries, Mode.Tie]

theorem clearsTie_iff {n d : ℕ} (h : Discarded extra (n % d) d)
    (hincrements : mode.Carries sign n d ∨ mode.Tie n d) :
    extra &&& 0x7FFFFFFFFFFFFFFF = 0 ∧ ofMode mode = .nearEven ↔ mode.Tie n d := by
  have hmask : (0x7FFFFFFFFFFFFFFF : UInt64).toNat = 2 ^ 63 - 1 := rfl
  rw [ofMode_eq_nearEven_iff, ← UInt64.toNat_inj, toNat_and_mask hmask, UInt64.toNat_zero,
    Mode.Tie, and_comm]
  refine and_congr_right fun hnearest => ?_
  subst hnearest
  have hhalf : 2 ^ 63 ≤ extra.toNat := by
    rw [h.half]
    simp only [Mode.Carries, Mode.Tie, true_and] at hincrements
    omega
  exact h.tie hhalf

theorem toNat_clearTie {n d : ℕ} (h : Discarded extra (n % d) d)
    (hincrements : mode.Carries sign n d ∨ mode.Tie n d) (hsig : sig.toNat = n / d + 1) :
    (clearTie (ofMode mode) sig extra).toNat = mode.roundDiv sign n d := by
  have hone : (1 : UInt64).toNat = 2 ^ 1 - 1 := rfl
  have hzero : (0 : UInt64).toNat = 2 ^ 0 - 1 := rfl
  rw [clearTie]
  simp only [clearsTie_iff h hincrements]
  split
  · next htie =>
    obtain ⟨rfl, hhalf⟩ := htie
    have hcarries : Mode.nearest.Carries sign n d ↔ n / d % 2 = 1 := by
      simp only [Mode.Carries]
      omega
    rw [toNat_and_not_mask hone, hsig, Mode.roundDiv]
    simp only [hcarries]
    split <;> omega
  · next htie =>
    rw [toNat_and_not_mask hzero, hsig, Mode.roundDiv, if_pos (hincrements.resolve_right htie)]
    omega

variable {n : ℕ}

/-- Rounding two words as one number to the first of them. -/
theorem round_words (mode : Mode) (sign : Bool) (exp : ℤ) (hlo : 2 ^ 127 ≤ n) (hhi : n < 2 ^ 128) :
    (extended 64).round mode sign ((n : ℚ) * 2 ^ (exp - 16510)) =
      if 0x7FFE < exp ∨ exp = 0x7FFE ∧ mode.roundDiv sign n (2 ^ 64) = 2 ^ 64 then
        (extended 64).overflowed mode sign
      else
        { outcome := .finite (mode.roundDiv sign n (2 ^ (64 + (1 - exp).toNat)) *
            (2 : ℚ) ^ (exp - 16510 + (64 + (1 - exp).toNat : ℕ)))
          inexact := n % 2 ^ (64 + (1 - exp).toNat) ≠ 0
          overflow := false
          underflow := n % 2 ^ (64 + (1 - exp).toNat) ≠ 0 ∧
            ¬(0 < exp ∨ exp = 0 ∧ mode.roundDiv sign n (2 ^ 64) = 2 ^ 64) } := by
  have htiny : (1 - exp).toNat = ((extended 64).emin - ((127 : ℕ) + (exp - 16510))).toNat := by
    rw [extended_emin]
    omega
  have hover : (extended 64).emax < ((127 : ℕ) : ℤ) + (exp - 16510) ↔ 0x7FFE < exp := by
    rw [extended_emax]
    omega
  have hover' : (extended 64).emax = ((127 : ℕ) : ℤ) + (exp - 16510) ↔ exp = 0x7FFE := by
    rw [extended_emax]
    omega
  have hnormal : (extended 64).emin ≤ ((127 : ℕ) : ℤ) + (exp - 16510) ↔ 0 < exp := by
    rw [extended_emin]
    omega
  have hnormal' : (extended 64).emin = ((127 : ℕ) : ℤ) + (exp - 16510) + 1 ↔ exp = 0 := by
    rw [extended_emin]
    omega
  rw [Format.round_dyadic (f := extended 64) (w := 127) (s := 64) hlo hhi (by decide) rfl htiny]
  simp only [hover, hover', hnormal, hnormal', extended_precision]

/-- Rounding carries out of the first word only if this word is full. -/
theorem roundDiv_eq_iff (mode : Mode) (sign : Bool) (hhi : n < 2 ^ 128) :
    mode.roundDiv sign n (2 ^ 64) = 2 ^ 64 ↔
      n / 2 ^ 64 = 2 ^ 64 - 1 ∧ (mode.Carries sign n (2 ^ 64) ∨ mode.Tie n (2 ^ 64)) := by
  have hcarries (hfull : n / 2 ^ 64 = 2 ^ 64 - 1) (htie : mode.Tie n (2 ^ 64)) :
      mode.Carries sign n (2 ^ 64) := by
    obtain ⟨rfl, hhalf⟩ := htie
    exact .inr ⟨hhalf, by omega⟩
  rw [Mode.roundDiv]
  split
  · next h =>
    simp only [h, true_or, and_true]
    omega
  · next h =>
    refine iff_of_false (by omega) ?_
    rintro ⟨hfull, hcarries' | htie⟩
    · exact h hcarries'
    · exact h (hcarries hfull htie)

theorem discarded_word (sig extra : UInt64) :
    Discarded extra ((sig.toNat * 2 ^ 64 + extra.toNat) % 2 ^ 64) (2 ^ 64) := by
  have hlt : extra.toNat < 2 ^ 64 := extra.toNat_lt
  refine ⟨?_, ?_, ?_⟩ <;> omega

theorem extendedSubnormal_correct (hsig : 2 ^ 63 ≤ sig.toNat) (hexp : exp ≤ 0) :
    Correct (extendedSubnormal (ofMode mode) sign exp sig extra flags) flags
      ((extended 64).round mode sign
        (((sig.toNat * 2 ^ 64 + extra.toNat : ℕ) : ℚ) * 2 ^ (exp - 16510))) := by
  have hlt : sig.toNat < 2 ^ 64 := sig.toNat_lt
  have hlt' : extra.toNat < 2 ^ 64 := extra.toNat_lt
  have hdist : 0 < (1 - exp).toNat := by omega
  have hfull : (sig.toNat * 2 ^ 64 + extra.toNat) / 2 ^ 64 = sig.toNat := by omega
  have hfull' : sig < 0xFFFFFFFFFFFFFFFF ↔ ¬sig.toNat = 2 ^ 64 - 1 := by
    rw [UInt64.lt_iff_toNat_lt]
    change sig.toNat < 2 ^ 64 - 1 ↔ _
    omega
  obtain ⟨hv, hdiscarded⟩ := shiftRightJam64Extra_spec sig extra hdist
  have hquot : (shiftRightJam64Extra sig extra (1 - exp).toNat).v.toNat < 2 ^ 63 := by
    rw [shiftRightJam64Extra_eq]
    dsimp only
    rw [toNat_shiftRightJam64Extra_v]
    exact div_two_pow_lt hdist
  have hextra : (shiftRightJam64Extra sig extra (1 - exp).toNat).extra ≠ 0 ↔
      (sig.toNat * 2 ^ 64 + extra.toNat) % 2 ^ (64 + (1 - exp).toNat) ≠ 0 := by
    rw [ne_zero_iff, ne_eq, hdiscarded.zero]
  have hover : ¬(0x7FFE < exp ∨ exp = 0x7FFE ∧
      mode.roundDiv sign (sig.toNat * 2 ^ 64 + extra.toNat) (2 ^ 64) = 2 ^ 64) := by omega
  have htiny : (detectTininess = .beforeRounding ∨ exp < 0 ∨
      ¬incrementsExtra (ofMode mode) sign extra = true ∨ sig < 0xFFFFFFFFFFFFFFFF) ↔
      ¬(0 < exp ∨ exp = 0 ∧
        mode.roundDiv sign (sig.toNat * 2 ^ 64 + extra.toNat) (2 ^ 64) = 2 ^ 64) := by
    have hafter : ¬detectTininess = .beforeRounding := by decide
    rw [roundDiv_eq_iff mode sign (by omega), ← incrementsExtra_iff (discarded_word sig extra), hfull, hfull']
    simp only [hafter, false_or]
    by_cases hzero : exp = 0
    · subst hzero
      simp only [lt_irrefl, false_or, true_and]
      tauto
    · exact iff_of_true (.inl (by omega)) (by omega)
  have hround := round_words (n := sig.toNat * 2 ^ 64 + extra.toNat) mode sign exp (by omega)
    (by omega)
  rw [if_neg hover] at hround
  rw [hround, extendedSubnormal, if_neg (not_odd mode)]
  have hscale : exp - 16510 + ((64 + (1 - exp).toNat : ℕ) : ℤ) = -16445 := by omega
  simp only [raiseInexact_eq, hextra, htiny, hscale]
  have hflags (inexact tiny : Prop) [Decidable inexact] [Decidable tiny] :
      (decide inexact && decide tiny) = decide (inexact ∧ tiny) := (Bool.decide_and _ _).symm
  split
  · next hincrements =>
    rw [incrementsExtra_iff hdiscarded] at hincrements
    have hsum : ((shiftRightJam64Extra sig extra (1 - exp).toNat).v + 1).toNat =
        (sig.toNat * 2 ^ 64 + extra.toNat) / 2 ^ (64 + (1 - exp).toNat) + 1 := by
      rw [UInt64.toNat_add, hv, UInt64.toNat_one]
      omega
    refine ⟨encodes_subnormal ?_ ?_, ?_⟩
    · simp only [and_highBit_ne_zero_iff]
    · dsimp only
      rw [toNat_clearTie hdiscarded hincrements hsum]
    · rw [hflags, raised]
  · next hincrements =>
    rw [incrementsExtra_iff hdiscarded, not_or] at hincrements
    refine ⟨encodes_subnormal ?_ ?_, ?_⟩
    · dsimp only
      rw [if_neg (by omega)]
    · dsimp only
      rw [hv, Mode.roundDiv, if_neg hincrements.1, Nat.add_zero]
    · rw [hflags, raised]

theorem extendedNormal_correct (hsig : 2 ^ 63 ≤ sig.toNat) (hpos : 0 < exp)
    (hmax : ¬(0x7FFE < exp ∨ exp = 0x7FFE ∧
      mode.roundDiv sign (sig.toNat * 2 ^ 64 + extra.toNat) (2 ^ 64) = 2 ^ 64)) :
    Correct (extendedNormal (ofMode mode) sign exp sig extra flags) flags
      ((extended 64).round mode sign
        (((sig.toNat * 2 ^ 64 + extra.toNat : ℕ) : ℚ) * 2 ^ (exp - 16510))) := by
  have hlt : sig.toNat < 2 ^ 64 := sig.toNat_lt
  have hlt' : extra.toNat < 2 ^ 64 := extra.toNat_lt
  have hdiscarded := discarded_word sig extra
  have hfull : (sig.toNat * 2 ^ 64 + extra.toNat) / 2 ^ 64 = sig.toNat := by omega
  have hzero : (1 - exp).toNat = 0 := by omega
  have hscale : exp - 16510 + ((64 + 0 : ℕ) : ℤ) = exp - 16446 := by omega
  have hextra : extra ≠ 0 ↔ (sig.toNat * 2 ^ 64 + extra.toNat) % 2 ^ 64 ≠ 0 := by
    rw [ne_zero_iff, ne_eq, hdiscarded.zero]
  have hround := round_words (n := sig.toNat * 2 ^ 64 + extra.toNat) mode sign exp (by omega)
    (by omega)
  rw [if_neg hmax, hzero, hscale] at hround
  have hflags (inexact : Bool) : flags ||| flagsOf inexact false (inexact && false) =
      flags ||| flagsOf inexact false false := by rw [Bool.and_false]
  have hraised : (decide ((sig.toNat * 2 ^ 64 + extra.toNat) % 2 ^ (64 + 0) ≠ 0 ∧ ¬(0 < exp ∨
      exp = 0 ∧ mode.roundDiv sign (sig.toNat * 2 ^ 64 + extra.toNat) (2 ^ 64) = 2 ^ 64))) =
      false := decide_eq_false fun h => h.2 (.inl hpos)
  rw [hround, extendedNormal, if_neg (not_odd mode)]
  simp only [raiseInexact_eq, hextra, hflags]
  split
  · next hincrements =>
    rw [incrementsExtra_iff hdiscarded] at hincrements
    have hlast := roundDiv_eq_iff mode sign
      (show sig.toNat * 2 ^ 64 + extra.toNat < 2 ^ 128 by omega)
    rw [hfull] at hlast
    have hwrap : sig + 1 = 0 ↔ sig.toNat = 2 ^ 64 - 1 := by
      rw [← UInt64.toNat_inj, UInt64.toNat_add, UInt64.toNat_one, UInt64.toNat_zero]
      omega
    split
    · next hcarry =>
      rw [hwrap] at hcarry
      have hdiv := hlast.2 ⟨hcarry, hincrements⟩
      refine ⟨encodes_normal (by dsimp only; omega) (by dsimp only; omega) le_rfl ?_, ?_⟩
      · dsimp only
        rw [Nat.add_zero, hdiv, show exp + 1 - 16446 = exp - 16446 + 1 by omega,
          zpow_add_one₀ two_ne_zero]
        change _ = ((2 ^ 63 : ℕ) : ℚ) * _
        push_cast
        ring
      · rw [raised, hraised, Nat.add_zero]
    · next hcarry =>
      rw [hwrap] at hcarry
      have hsum : (sig + 1).toNat = (sig.toNat * 2 ^ 64 + extra.toNat) / 2 ^ 64 + 1 := by
        rw [UInt64.toNat_add, UInt64.toNat_one]
        omega
      have hclear := toNat_clearTie hdiscarded hincrements hsum
      have hge := (mode.le_roundDiv sign (sig.toNat * 2 ^ 64 + extra.toNat) (2 ^ 64)).1
      refine ⟨encodes_normal hpos (by dsimp only; omega) (by dsimp only; omega) ?_, ?_⟩
      · dsimp only
        rw [hclear, Nat.add_zero]
      · rw [raised, hraised, Nat.add_zero]
  · next hincrements =>
    rw [incrementsExtra_iff hdiscarded, not_or] at hincrements
    refine ⟨encodes_normal hpos (by dsimp only; omega) hsig ?_, ?_⟩
    · dsimp only
      rw [Nat.add_zero, Mode.roundDiv, if_neg hincrements.1, hfull, Nat.add_zero]
    · rw [raised, hraised, Nat.add_zero]

theorem roundExtended_correct (hsig : 2 ^ 63 ≤ sig.toNat) (hlo : -2 ^ 31 ≤ exp)
    (hhi : exp < 2 ^ 31) :
    Correct (roundExtended (ofMode mode) sign exp sig extra flags) flags
      ((extended 64).round mode sign
        (((sig.toNat * 2 ^ 64 + extra.toNat : ℕ) : ℚ) * 2 ^ (exp - 16510))) := by
  have hlt : sig.toNat < 2 ^ 64 := sig.toNat_lt
  have hlt' : extra.toNat < 2 ^ 64 := extra.toNat_lt
  have hfull : (sig.toNat * 2 ^ 64 + extra.toNat) / 2 ^ 64 = sig.toNat := by omega
  have hwraps : sig = 0xFFFFFFFFFFFFFFFF ∧ incrementsExtra (ofMode mode) sign extra = true ↔
      mode.roundDiv sign (sig.toNat * 2 ^ 64 + extra.toNat) (2 ^ 64) = 2 ^ 64 := by
    rw [roundDiv_eq_iff mode sign (by omega), incrementsExtra_iff (discarded_word sig extra), hfull,
      ← UInt64.toNat_inj]
    exact Iff.rfl
  rw [roundExtended]
  simp only [nearBounds_and_le_iff hlo hhi, nearBounds_and_overflow_iff hlo hhi, hwraps]
  split
  · next hle => exact extendedSubnormal_correct hsig hle
  · next hpos =>
    split
    · next hmax =>
      rw [round_words mode sign exp (by omega) (by omega), if_pos hmax]
      exact overflow_correct (g := 0) (by decide) rfl
    · next hmax => exact extendedNormal_correct hsig (lt_of_not_ge hpos) hmax

end Extended

/-- The number of significand bits that a rounding precision leaves. -/
def significandBits (roundingPrecision : UInt8) : ℕ :=
  if roundingPrecision = 64 then 53 else if roundingPrecision = 32 then 24 else 64

/-- A word and what has been discarded behind it stand for a significand, as far as rounding goes. -/
def Approximates (sig extra : UInt64) (v : ℚ) : Prop :=
  SameCell (1 / 2) (((sig.toNat * 2 ^ 64 + extra.toNat : ℕ) : ℚ) / (2 ^ 64 : ℕ)) v

theorem approximates_word (sig : UInt64) : Approximates sig 0 sig.toNat := by
  refine .of_eq ?_
  rw [UInt64.toNat_zero, Nat.add_zero, Nat.cast_mul, mul_div_cancel_right₀]
  positivity

section AnyPrecision

variable {sig extra : UInt64} {exp : ℤ} {v : ℚ} {bits : ℕ} {u : ℚ} {j : ℤ}

/-- Rounding does not see the difference between significands in one cell. -/
theorem round_approximated {n : ℚ} (mode : Mode) (sign : Bool) (exp : ℤ) (hn : 2 ^ 63 ≤ n)
    (hbits : j + bits ≤ 63) (h : SameCell (2 ^ j) n v) :
    (extended bits).round mode sign (n * 2 ^ (exp - 16446)) =
      (extended bits).round mode sign (v * 2 ^ (exp - 16446)) := by
  have hscale : (0 : ℚ) < 2 ^ (exp - 16446) := zpow_pos two_pos _
  have hpos : 0 < n * 2 ^ (exp - 16446) := mul_pos ((by norm_num : (0 : ℚ) < 2 ^ 63).trans_le hn)
    hscale
  have hcell := h.mul_right hscale
  rw [← zpow_add₀ two_ne_zero] at hcell
  have hlog : 63 + (exp - 16446) ≤ Int.log 2 (n * 2 ^ (exp - 16446)) := by
    rw [← Int.zpow_le_iff_le_log one_lt_two hpos, Nat.cast_ofNat, zpow_add₀ two_ne_zero]
    exact mul_le_mul_of_nonneg_right hn hscale.le
  refine Format.round_congr hpos ?_ hcell
  rw [extended_precision]
  omega

theorem Approximates.round_words (mode : Mode) (sign : Bool) (exp : ℤ) (hsig : 2 ^ 63 ≤ sig.toNat)
    (h : Approximates sig extra v) :
    (extended 64).round mode sign
        (((sig.toNat * 2 ^ 64 + extra.toNat : ℕ) : ℚ) * 2 ^ (exp - 16510)) =
      (extended 64).round mode sign (v * 2 ^ (exp - 16446)) := by
  have hhalf : (1 / 2 : ℚ) = 2 ^ (-1 : ℤ) := by norm_num
  rw [Approximates, hhalf] at h
  have hle : (2 : ℚ) ^ 63 ≤ ((sig.toNat * 2 ^ 64 + extra.toNat : ℕ) : ℚ) / (2 ^ 64 : ℕ) := by
    rw [le_div_iff₀ (by positivity)]
    exact_mod_cast (show 2 ^ 63 * 2 ^ 64 ≤ sig.toNat * 2 ^ 64 + extra.toNat by omega)
  rw [← round_approximated mode sign exp hle (by norm_num) h, div_mul_eq_mul_div,
    show exp - 16446 = exp - 16510 + (64 : ℕ) by push_cast; ring, zpow_add₀ two_ne_zero,
    zpow_natCast, ← mul_assoc, Nat.cast_pow, Nat.cast_ofNat, mul_div_cancel_right₀]
  positivity

/-- Jamming both words into one costs a bit. -/
theorem Approximates.jammed (h : Approximates sig extra v) :
    SameCell (2 ^ (1 : ℤ)) ((sig ||| if extra ≠ 0 then 1 else 0).toNat : ℚ) v := by
  have hlt : extra.toNat < 2 ^ 64 := extra.toNat_lt
  have hjam : (sig ||| if extra ≠ 0 then 1 else 0).toNat =
      jam (sig.toNat * 2 ^ 64 + extra.toNat) (2 ^ 64) := by
    rw [toNat_or_jammed]
    rcases jam_cases (sig.toNat * 2 ^ 64 + extra.toNat) (2 ^ 64) with ⟨hzero, heq⟩ | ⟨hne, heq⟩
    · rw [heq, if_pos (by omega)]
      omega
    · rw [heq, if_neg (by omega)]
      omega
  have hcoarse := h.coarsen (k := 4) (by norm_num) (by decide)
  rw [show ((4 : ℕ) : ℚ) * (1 / 2) = 2 by norm_num] at hcoarse
  rw [zpow_one, hjam]
  exact (sameCell_jam _ (Nat.two_pow_pos 64)).trans two_pos hcoarse

theorem roundReduced_eq (mode : RoundMode) (sign : Bool) (exp : ℤ) (sig extra increment mask : UInt64)
    (flags : UInt8) :
    roundReduced mode sign exp sig extra increment mask flags =
      roundReduced mode sign exp (sig ||| if extra ≠ 0 then 1 else 0) 0 increment mask flags := by
  simp only [roundReduced, ne_eq, not_true_eq_false, if_false, UInt64.or_zero]

theorem Reduced.roundReduced_approximates {g : ℕ} {increment mask : UInt64} {mode : Mode}
    {sign : Bool} {flags : UInt8} (hreduced : Reduced g increment mask) (hsig : 2 ^ 63 ≤ sig.toNat) (hlo : -2 ^ 31 ≤ exp) (hhi : exp < 2 ^ 31)
    (h : Approximates sig extra v) :
    Correct (roundReduced (ofMode mode) sign exp sig extra increment mask flags) flags
      ((extended (64 - g)).round mode sign (v * 2 ^ (exp - 16446))) := by
  have hjammed : 2 ^ 63 ≤ (sig ||| if extra ≠ 0 then 1 else 0).toNat := by
    rw [toNat_or_jammed]
    split <;> omega
  have hjammed' : (2 : ℚ) ^ 63 ≤ (sig ||| if extra ≠ 0 then 1 else 0).toNat := by
    exact_mod_cast hjammed
  have hlt := hreduced.lt
  have htwo := hreduced.two_le
  rw [roundReduced_eq, ← round_approximated (j := 1) mode sign exp hjammed' (by omega) h.jammed]
  exact hreduced.roundReduced_correct hjammed hlo hhi

/-- Packing rounds the number that the two words stand for, whatever the precision is. -/
theorem roundParts_approximates (mode : Mode) (sign : Bool) (roundingPrecision flags : UInt8)
    (hsig : 2 ^ 63 ≤ sig.toNat) (hlo : -2 ^ 31 ≤ exp) (hhi : exp < 2 ^ 31)
    (h : Approximates sig extra v) :
    Correct (roundParts (ofMode mode) sign exp sig extra roundingPrecision flags) flags
      ((extended (significandBits roundingPrecision)).round mode sign (v * 2 ^ (exp - 16446))) := by
  rw [roundParts, significandBits]
  split
  · exact reduced_double.roundReduced_approximates hsig hlo hhi h
  · split
    · exact reduced_single.roundReduced_approximates hsig hlo hhi h
    · rw [← h.round_words mode sign exp hsig]
      exact roundExtended_correct hsig hlo hhi

theorem roundParts_correct (mode : Mode) (sign : Bool) (exp : ℤ) {sig : UInt64}
    (roundingPrecision flags : UInt8) (hsig : 2 ^ 63 ≤ sig.toNat) (hlo : -2 ^ 31 ≤ exp)
    (hhi : exp < 2 ^ 31) :
    Correct (roundParts (ofMode mode) sign exp sig 0 roundingPrecision flags) flags
      ((extended (significandBits roundingPrecision)).round mode sign
        ((sig.toNat : ℚ) * 2 ^ (exp - 16446))) :=
  roundParts_approximates mode sign roundingPrecision flags hsig hlo hhi (approximates_word sig)

end AnyPrecision

end Utlib.SoftFloat
