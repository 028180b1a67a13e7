import Utlib.SoftFloat.Words
import Mathlib.Data.Rat.Floor

/-! What it means that a packed number is a rounded one. -/

namespace Utlib.SoftFloat

open Utlib.Rounding

section Modes

def ofMode : Mode → RoundMode
  | .nearest => .nearEven
  | .zero => .minMag
  | .down => .min
  | .up => .max

variable (mode : Mode) (sign : Bool)

theorem not_odd {bits : Prop} : ¬(bits ∧ ofMode mode = .odd) := by
  rintro ⟨-, hodd⟩
  cases mode <;> cases hodd

theorem ofMode_eq_nearEven_iff : ofMode mode = .nearEven ↔ mode = .nearest := by
  cases mode <;> decide

theorem roundsAway_ofMode : (roundsToNearest (ofMode mode) || roundsAway (ofMode mode) sign) =
    mode.overflows sign := by
  cases mode <;> cases sign <;> rfl

end Modes

/-- The formats with the exponent range of the extended format. -/
def extended (precision : ℕ) : Format where
  precision := precision
  emin := -16382
  emax := 16383

@[simp]
theorem extended_precision (precision : ℕ) : (extended precision).precision = precision := rfl

@[simp]
theorem extended_emin (precision : ℕ) : (extended precision).emin = -16382 := rfl

@[simp]
theorem extended_emax (precision : ℕ) : (extended precision).emax = 16383 := rfl

def flagsOf (inexact overflow underflow : Bool) : UInt8 :=
  (if inexact then flagInexact else 0) ||| (if overflow then flagOverflow else 0) |||
    if underflow then flagUnderflow else 0

def raised (r : Rounded ℚ) : UInt8 := flagsOf r.inexact r.overflow r.underflow

/-- Exponent and significand are the canonical encoding of a magnitude. -/
def Encodes (exp : ℤ) (sig : UInt64) : Outcome ℚ → Prop
  | .finite v => 0 ≤ exp ∧ exp < 0x7FFF ∧ (2 ^ 63 ≤ sig.toNat ↔ exp ≠ 0) ∧
      v = sig.toNat * 2 ^ (max exp 1 - 16446)
  | .infinite => exp = 0x7FFF ∧ sig = 0x8000000000000000

theorem encodes_normal {exp : ℤ} {sig : UInt64} {v : ℚ} (hpos : 0 < exp) (hlt : exp < 0x7FFF)
    (hsig : 2 ^ 63 ≤ sig.toNat) (hv : v = sig.toNat * 2 ^ (exp - 16446)) :
    Encodes exp sig (.finite v) := by
  refine ⟨hpos.le, hlt, iff_of_true hsig hpos.ne', ?_⟩
  rwa [max_eq_left (by omega)]

theorem encodes_subnormal {exp : ℤ} {sig : UInt64} {v : ℚ}
    (hexp : exp = if 2 ^ 63 ≤ sig.toNat then 1 else 0)
    (hv : v = sig.toNat * 2 ^ (-16445 : ℤ)) : Encodes exp sig (.finite v) := by
  have hmax : max exp 1 - 16446 = -16445 := by
    rw [hexp]
    split <;> omega
  refine ⟨?_, ?_, ?_, by rwa [hmax]⟩
  · rw [hexp]
    split <;> omega
  · rw [hexp]
    split <;> omega
  · rw [hexp]
    split <;> omega

theorem cast_mul_two_pow (r g : ℕ) (k : ℤ) : ((r * 2 ^ g : ℕ) : ℚ) * 2 ^ k = r * 2 ^ (k + g) := by
  rw [Nat.cast_mul, Nat.cast_pow, Nat.cast_ofNat, mul_assoc, ← zpow_natCast,
    ← zpow_add₀ two_ne_zero, add_comm k]

structure Correct (z : Parts) (flags : UInt8) (r : Rounded ℚ) : Prop where
  encodes : Encodes z.exp z.sig r.outcome
  flags : z.exceptionFlags = flags ||| raised r

section Dyadic

variable {n g : ℕ} {exp : ℤ} {mode : Mode} {sign : Bool}

/-- What rounding makes of a significand with its highest bit set. -/
theorem round_extended (mode : Mode) (sign : Bool) (exp : ℤ) (hlo : 2 ^ 63 ≤ n)
    (hhi : n < 2 ^ 64) (hg : g < 64) :
    (extended (64 - g)).round mode sign ((n : ℚ) * 2 ^ (exp - 16446)) =
      if 0x7FFE < exp ∨ exp = 0x7FFE ∧ mode.roundDiv sign n (2 ^ g) = 2 ^ (64 - g) then
        (extended (64 - g)).overflowed mode sign
      else
        { outcome := .finite (mode.roundDiv sign n (2 ^ (g + (1 - exp).toNat)) *
            (2 : ℚ) ^ (exp - 16446 + (g + (1 - exp).toNat : ℕ)))
          inexact := n % 2 ^ (g + (1 - exp).toNat) ≠ 0
          overflow := false
          underflow := n % 2 ^ (g + (1 - exp).toNat) ≠ 0 ∧
            ¬(0 < exp ∨ exp = 0 ∧ mode.roundDiv sign n (2 ^ g) = 2 ^ (64 - g)) } := by
  have htiny : (1 - exp).toNat = ((extended (64 - g)).emin - (63 + (exp - 16446))).toNat := by
    rw [extended_emin]
    omega
  have hover : (extended (64 - g)).emax < ((63 : ℕ) : ℤ) + (exp - 16446) ↔ 0x7FFE < exp := by
    rw [extended_emax]
    omega
  have hover' : (extended (64 - g)).emax = ((63 : ℕ) : ℤ) + (exp - 16446) ↔ exp = 0x7FFE := by
    rw [extended_emax]
    omega
  have hnormal : (extended (64 - g)).emin ≤ ((63 : ℕ) : ℤ) + (exp - 16446) ↔ 0 < exp := by
    rw [extended_emin]
    omega
  have hnormal' : (extended (64 - g)).emin = ((63 : ℕ) : ℤ) + (exp - 16446) + 1 ↔ exp = 0 := by
    rw [extended_emin]
    omega
  rw [Format.round_dyadic (f := extended (64 - g)) (w := 63) (s := g) hlo hhi
    (Nat.sub_pos_of_lt hg) (Nat.sub_add_cancel hg.le).symm htiny]
  simp only [hover, hover', hnormal, hnormal']
  rfl

theorem round_extended_of_gt (hlo : 2 ^ 63 ≤ n) (hhi : n < 2 ^ 64) (hg : g < 64)
    (hexp : 0x7FFE < exp) :
    (extended (64 - g)).round mode sign ((n : ℚ) * 2 ^ (exp - 16446)) =
      (extended (64 - g)).overflowed mode sign := by
  rw [round_extended _ _ _ hlo hhi hg, if_pos (.inl hexp)]

/-- Far below the smallest magnitude the exponent does not matter. -/
theorem round_extended_of_le {exp' : ℤ} (hlo : 2 ^ 63 ≤ n) (hhi : n < 2 ^ 64) (hg : g < 64)
    (hexp : exp ≤ -64) (hexp' : exp' ≤ -64) :
    (extended (64 - g)).round mode sign ((n : ℚ) * 2 ^ (exp - 16446)) =
      (extended (64 - g)).round mode sign ((n : ℚ) * 2 ^ (exp' - 16446)) := by
  have hlt {e : ℤ} (he : e ≤ -64) : 2 * n < 2 ^ (g + (1 - e).toNat) := by
    have hpow : 2 ^ 65 ≤ 2 ^ (g + (1 - e).toNat) := Nat.pow_le_pow_right two_pos (by omega)
    omega
  have hexponent {e : ℤ} (he : e ≤ -64) :
      e - 16446 + (g + (1 - e).toNat : ℕ) = g - 16445 := by omega
  have hmod {e : ℤ} (he : e ≤ -64) : n % 2 ^ (g + (1 - e).toNat) = n :=
    Nat.mod_eq_of_lt (by have := hlt he; omega)
  have htiny {e : ℤ} (he : e ≤ -64) :
      ¬(0 < e ∨ e = 0 ∧ mode.roundDiv sign n (2 ^ g) = 2 ^ (64 - g)) := by omega
  rw [round_extended _ _ _ hlo hhi hg, round_extended _ _ _ hlo hhi hg, if_neg (by omega),
    if_neg (by omega), Mode.roundDiv_of_lt (hlt hexp) (hlt hexp'), hexponent hexp, hexponent hexp']
  simp only [hmod hexp, hmod hexp', htiny hexp, htiny hexp']

theorem encodes_largest (g : ℕ) (hg : g < 63) {sig : UInt64} (hsig : sig.toNat = 2 ^ 64 - 2 ^ g) :
    Encodes 0x7FFE sig (.finite (extended (64 - g)).largest) := by
  have hpow : 2 ^ g < 2 ^ 63 := Nat.pow_lt_pow_right one_lt_two hg
  refine ⟨by decide, by decide, iff_of_true (by omega) (by decide), ?_⟩
  have hbase (e : ℕ) :
      ((2 ^ e : ℕ) : ℚ) * 2 ^ (max 0x7FFE 1 - 16446 : ℤ) = 2 ^ (e + 16320 : ℤ) := by
    rw [Nat.cast_pow, Nat.cast_ofNat, ← zpow_natCast, ← zpow_add₀ two_ne_zero]
    rfl
  rw [hsig, Format.largest, Format.quantum, Nat.cast_sub (by omega), sub_mul, hbase, hbase]
  simp only [extended_emax, extended_precision]
  congr 2
  omega

end Dyadic

section Bounds

variable {exp : ℤ}

theorem nearBounds_and_le_iff (hlo : -2 ^ 31 ≤ exp) (hhi : exp < 2 ^ 31) :
    nearBounds exp ∧ exp ≤ 0 ↔ exp ≤ 0 := by
  rw [nearBounds, decide_eq_true_iff]
  omega

theorem nearBounds_and_overflow_iff (hlo : -2 ^ 31 ≤ exp) (hhi : exp < 2 ^ 31) {wraps : Prop} :
    nearBounds exp ∧ (0x7FFE < exp ∨ exp = 0x7FFE ∧ wraps) ↔
      0x7FFE < exp ∨ exp = 0x7FFE ∧ wraps := by
  rw [nearBounds, decide_eq_true_iff]
  refine and_iff_right_of_imp ?_
  rintro (hlt | ⟨heq, -⟩) <;> omega

end Bounds

section Outcomes

variable {g : ℕ} {mask : UInt64} {mode : Mode} {sign : Bool} {flags : UInt8} {v : Outcome ℚ}

theorem raiseInexact_eq (inexact isTiny : Bool) (flags : UInt8) :
    raiseInexact inexact isTiny flags = flags ||| flagsOf inexact false (inexact && isTiny) := by
  cases inexact with
  | false =>
    have hflags : flagsOf false false false = 0 := by decide
    rw [Bool.false_and, hflags, UInt8.or_zero]
    rfl
  | true =>
    cases isTiny with
    | false => rfl
    | true =>
      have hflags : flagsOf true false true = flagUnderflow ||| flagInexact := by decide
      rw [Bool.and_self, hflags, ← UInt8.or_assoc]
      rfl

theorem overflow_correct (hg : g < 63) (hmask : mask.toNat = 2 ^ g - 1) :
    Correct (overflow (ofMode mode) sign mask flags) flags
      ((extended (64 - g)).overflowed mode sign) := by
  have hraised : flagOverflow ||| flagInexact =
      raised ((extended (64 - g)).overflowed mode sign) := by
    have hflags : flagsOf true true false = flagOverflow ||| flagInexact := by decide
    exact hflags.symm
  rw [overflow, roundsAway_ofMode]
  cases haway : mode.overflows sign with
  | true =>
    refine ⟨?_, by rw [if_pos rfl, hraised]⟩
    rw [if_pos rfl, Format.overflowed, haway, if_pos rfl]
    exact ⟨rfl, rfl⟩
  | false =>
    refine ⟨?_, by rw [if_neg Bool.false_ne_true, hraised]⟩
    rw [if_neg Bool.false_ne_true, Format.overflowed, haway, if_neg Bool.false_ne_true]
    apply encodes_largest g hg
    have hpow : 2 ^ g < 2 ^ 63 := Nat.pow_lt_pow_right one_lt_two hg
    have hpos := Nat.two_pow_pos g
    rw [UInt64.toNat_not, hmask, UInt64.size]
    omega

end Outcomes

end Utlib.SoftFloat
