import Utlib.SoftFloat.RoundPack
import Utlib.SoftFloat.ToI32

/-! The 80-bit numbers and the floating-point environment. -/

namespace Utlib

open Utlib.Rounding

structure Float80 where
  se : UInt16
  man : UInt64
deriving DecidableEq

abbrev RoundingMode := Rounding.Mode

inductive Precision
  | single
  | double
  | extended
deriving DecidableEq

namespace FloatFlags

def inexact : UInt8 := 0x01
def unfl : UInt8 := 0x02
def ovfl : UInt8 := 0x04
def invalid : UInt8 := 0x10
def all : UInt8 := 0x1F

/-- The flags of a rounding. -/
def ofRounded (r : Rounded ℚ) : UInt8 :=
  (if r.inexact then inexact else 0) ||| (if r.overflow then ovfl else 0) |||
    if r.underflow then unfl else 0

end FloatFlags

def Precision.toByte : Precision → UInt8
  | single => 32
  | double => 64
  | extended => 80

/-- The results of an operation with a rounding precision. -/
def Precision.format : Precision → Format
  | single => ⟨24, -16382, 16383⟩
  | double => ⟨53, -16382, 16383⟩
  | extended => ⟨64, -16382, 16383⟩

namespace FloatEnv

variable (env : SoftFloat.State)

def setRoundingMode (mode : RoundingMode) : SoftFloat.State :=
  { env with roundingMode := SoftFloat.ofMode mode }

def setPrecision (precision : Precision) : SoftFloat.State :=
  { env with roundingPrecision := precision.toByte }

def flags : UInt8 := env.exceptionFlags

def clearFlags (mask : UInt8) : SoftFloat.State :=
  { env with exceptionFlags := env.exceptionFlags &&& ~~~mask }

def raiseFlags (mask : UInt8) : SoftFloat.State :=
  { env with exceptionFlags := env.exceptionFlags ||| (mask &&& FloatFlags.all) }

/-- Raising the saved flags after clearing all undoes what has been raised in between. -/
theorem raiseFlags_clearFlags (mask : UInt8) (h : mask &&& ~~~FloatFlags.all = 0) :
    raiseFlags (clearFlags (SoftFloat.raiseFlags mask env) FloatFlags.all) (flags env) = env := by
  have hsplit : (env.exceptionFlags ||| mask) &&& ~~~FloatFlags.all =
      env.exceptionFlags &&& ~~~FloatFlags.all := by
    apply UInt8.toBitVec_inj.1
    rw [UInt8.toBitVec_and, UInt8.toBitVec_or, BitVec.and_or_distrib_right, ← UInt8.toBitVec_and,
      ← UInt8.toBitVec_and, h, ← UInt8.toBitVec_or, UInt8.or_zero]
  have hjoin : env.exceptionFlags &&& ~~~FloatFlags.all |||
      (env.exceptionFlags &&& FloatFlags.all) = env.exceptionFlags := by
    apply UInt8.toBitVec_inj.1
    rw [UInt8.toBitVec_or, UInt8.toBitVec_and, UInt8.toBitVec_and,
      ← BitVec.and_or_distrib_left, UInt8.toBitVec_not, BitVec.not_or_self, BitVec.and_allOnes]
  rw [raiseFlags, clearFlags, SoftFloat.raiseFlags, flags]
  dsimp only
  rw [hsplit, hjoin]

theorem raiseFlags_ofRounded (r : Rounded ℚ) :
    raiseFlags env (FloatFlags.ofRounded r) = SoftFloat.raiseFlags (SoftFloat.raised r) env := by
  have hmask : FloatFlags.ofRounded r &&& FloatFlags.all = SoftFloat.raised r := by
    rw [FloatFlags.ofRounded, SoftFloat.raised]
    generalize r.inexact = inexact, r.overflow = overflow, r.underflow = underflow
    decide +revert
  rw [raiseFlags, SoftFloat.raiseFlags, hmask]

end FloatEnv

namespace Float80

def fromBits (signExp : UInt16) (mantissa : UInt64) : Float80 := ⟨signExp, mantissa⟩

def infinity (negative : Bool) : Float80 :=
  ⟨if negative then 0xFFFF else 0x7FFF, (1 : UInt64) <<< 63⟩

def quietNaN (negative : Bool) : Float80 :=
  ⟨if negative then 0xFFFF else 0x7FFF, 0xC000000000000000⟩

variable (x : Float80)

def sign : Bool := x.se &&& 0x8000 ≠ 0

def biasedExponent : UInt16 := x.se &&& 0x7FFF

def bias : ℤ := 0x3FFF

def exponent : ℤ := x.biasedExponent.toNat - bias

def integerBit : Bool := x.man >>> 63 ≠ 0

def isZero : Bool := x.biasedExponent = 0 ∧ x.man = 0

def isInfinite : Bool := x.biasedExponent = 0x7FFF ∧ x.man <<< 1 = 0

def isNaN : Bool := x.biasedExponent = 0x7FFF ∧ x.man <<< 1 ≠ 0

def isFinite : Bool := x.biasedExponent ≠ 0x7FFF

def toSF : SoftFloat.ExtFloat80 := ⟨x.se, x.man⟩

def fromSF (x : SoftFloat.ExtFloat80) : Float80 := fromBits x.signExp x.signif

def toInt32Truncated (env : SoftFloat.State) : Int32 × SoftFloat.State :=
  SoftFloat.extF80ToI32 x.toSF .minMag true env

/-- The integer bit of a finite number is set unless the exponent is minimal. -/
def Canonical : Prop := x.integerBit ↔ x.biasedExponent ≠ 0

instance : Decidable x.Canonical :=
  inferInstanceAs (Decidable (x.integerBit = true ↔ x.biasedExponent ≠ 0))

def magnitude : ℚ := x.man.toNat * 2 ^ (max (x.biasedExponent.toNat : ℤ) 1 - 16446)

/-- A finite number without its fraction. -/
def truncated : ℤ := if x.sign then -⌊x.magnitude⌋ else ⌊x.magnitude⌋

def Represents (negative : Bool) : Outcome ℚ → Prop
  | .finite v => x.isFinite ∧ x.Canonical ∧ x.sign = negative ∧ x.magnitude = v
  | .infinite => x = infinity negative

theorem toNat_pack (sign : Bool) {exp : ℕ} (hlt : exp < 2 ^ 15) :
    (SoftFloat.packToExtF80UI64 sign exp).toNat = 2 ^ 15 * sign.toNat + exp := by
  have hexp : (UInt16.ofInt exp).toNat = exp := by
    rw [UInt16.ofInt, UInt16.toNat_ofNat']
    omega
  have hsign : ((if sign then 1 else 0 : UInt16) <<< 15).toNat = 2 ^ 15 * sign.toNat := by
    cases sign <;> rfl
  rw [SoftFloat.packToExtF80UI64, UInt16.toNat_or, hsign, hexp,
    Nat.two_pow_add_eq_or_of_lt hlt]

variable {sign : Bool} {exp : ℤ} {sig : UInt64}

theorem biasedExponent_pack (sign : Bool) (sig : UInt64) (hlo : 0 ≤ exp) (hhi : exp ≤ 0x7FFF) :
    ((fromSF ⟨SoftFloat.packToExtF80UI64 sign exp, sig⟩).biasedExponent.toNat : ℤ) = exp := by
  lift exp to ℕ using hlo
  have hmask : (0x7FFF : UInt16).toNat = 2 ^ 15 - 1 := rfl
  rw [fromSF, fromBits, biasedExponent, UInt16.toNat_and, hmask, Nat.and_two_pow_sub_one_eq_mod,
    toNat_pack sign (by omega)]
  omega

theorem sign_pack (hlo : 0 ≤ exp) (hhi : exp ≤ 0x7FFF) :
    (fromSF ⟨SoftFloat.packToExtF80UI64 sign exp, sig⟩).sign = sign := by
  lift exp to ℕ using hlo
  have hmask : (0x8000 : UInt16).toNat = 2 ^ 15 := rfl
  have hbit : (2 ^ 15 * sign.toNat + exp).testBit 15 = sign := by
    rw [Nat.testBit_eq_decide_div_mod_eq, Nat.mul_add_div (by decide), Nat.div_eq_of_lt (by omega)]
    cases sign <;> rfl
  have hne : SoftFloat.packToExtF80UI64 sign exp &&& 0x8000 ≠ 0 ↔ sign = true := by
    rw [ne_eq, ← UInt16.toNat_inj, UInt16.toNat_and, hmask, toNat_pack sign (by omega),
      Nat.and_two_pow, hbit]
    cases sign <;> decide
  rw [Float80.sign, fromSF, fromBits]
  simp only [hne, Bool.decide_eq_true]

theorem integerBit_iff (x : Float80) : x.integerBit = true ↔ 2 ^ 63 ≤ x.man.toNat := by
  have hlt := x.man.toNat_lt
  rw [integerBit, decide_eq_true_iff, SoftFloat.ne_zero_iff, UInt64.toNat_shiftRight,
    Nat.shiftRight_eq_div_pow]
  change x.man.toNat / 2 ^ 63 ≠ 0 ↔ _
  omega

/-- A number packed from the encoding of an outcome represents this outcome. -/
theorem represents_fromSF {v : Outcome ℚ} (h : SoftFloat.Encodes exp sig v) :
    (fromSF ⟨SoftFloat.packToExtF80UI64 sign exp, sig⟩).Represents sign v := by
  cases v with
  | finite v =>
    obtain ⟨hlo, hlt, hbit, hv⟩ := h
    have hexp := biasedExponent_pack sign sig hlo hlt.le
    refine ⟨?_, ?_, sign_pack hlo hlt.le, ?_⟩
    · rw [isFinite, decide_eq_true_iff, ne_eq, ← UInt16.toNat_inj]
      intro heq
      rw [heq] at hexp
      exact hlt.ne' hexp
    · rw [Canonical, integerBit_iff, ne_eq, ← UInt16.toNat_inj]
      have hzero : exp = 0 ↔
          (fromSF ⟨SoftFloat.packToExtF80UI64 sign exp, sig⟩).biasedExponent.toNat = 0 := by
        omega
      exact hbit.trans (not_congr hzero)
    · rw [magnitude, hexp, hv]
      rfl
  | infinite =>
    obtain ⟨rfl, rfl⟩ := h
    cases sign <;> rfl

end Float80

end Utlib
