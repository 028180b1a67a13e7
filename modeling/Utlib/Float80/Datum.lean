import Utlib.SoftFloat.Arithmetic
import Utlib.Rounding.Ieee

/-! What the encodings stand for, and what it means that an operation computes a result. -/

namespace Utlib

open Utlib.Rounding

namespace FloatFlags

def divByZero : UInt8 := 0x08

def ofFlags (f : Flags) : UInt8 :=
  (if f.invalid then invalid else 0) ||| (if f.divideByZero then divByZero else 0) |||
    (if f.overflow then ovfl else 0) ||| (if f.underflow then unfl else 0) |||
    if f.inexact then inexact else 0

end FloatFlags

namespace FloatEnv

/-- An environment with one of the rounding modes and one of the rounding precisions. -/
def configured (env : SoftFloat.State) (mode : RoundingMode) (precision : Precision) :
    SoftFloat.State :=
  setPrecision (setRoundingMode env mode) precision

variable {env : SoftFloat.State} {mode : RoundingMode} {precision : Precision}

@[simp]
theorem configured_roundingMode :
    (configured env mode precision).roundingMode = SoftFloat.ofMode mode := rfl

@[simp]
theorem configured_roundingPrecision :
    (configured env mode precision).roundingPrecision = precision.toByte := rfl

theorem raiseFlags_ofFlags_empty (env : SoftFloat.State) :
    raiseFlags env (FloatFlags.ofFlags {}) = env := by
  have hnone : FloatFlags.ofFlags {} &&& FloatFlags.all = 0 := by decide
  rw [raiseFlags, hnone, UInt8.or_zero]

theorem raiseFlags_ofFlags_divideByZero (env : SoftFloat.State) :
    raiseFlags env (FloatFlags.ofFlags { divideByZero := true }) =
      SoftFloat.raiseFlags SoftFloat.flagInfinite env := rfl

theorem ofFlags_ofRounded (negative : Bool) (r : Rounded ℚ) :
    FloatFlags.ofFlags (Result.ofRounded negative r).flags = SoftFloat.raised r := by
  have hsame (inexact overflow underflow : Bool) : FloatFlags.ofFlags
      { overflow := overflow, underflow := underflow, inexact := inexact } =
        SoftFloat.flagsOf inexact overflow underflow := by
    decide +revert
  exact hsame r.inexact r.overflow r.underflow

theorem ofFlags_and_all (f : Flags) :
    FloatFlags.ofFlags f &&& FloatFlags.all = FloatFlags.ofFlags f := by
  obtain ⟨invalid, divideByZero, overflow, underflow, inexact⟩ := f
  decide +revert

end FloatEnv

namespace Float80

def isSignalingNaN (x : Float80) : Bool := x.isNaN && x.man &&& (1 : UInt64) <<< 62 = 0

def datum (x : Float80) : Datum ℚ :=
  if x.isNaN then .nan x.isSignalingNaN
  else if x.isInfinite then .infinite x.sign
  else .finite x.sign x.magnitude

/-- An operation has a result with the wanted datum, in its canonical encoding, and raises the
wanted flags. -/
def Computes (env : SoftFloat.State) (r : Result ℚ)
    (o : Option (SoftFloat.ExtFloat80 × SoftFloat.State)) : Prop :=
  ∃ z, o = some (z, FloatEnv.raiseFlags env (FloatFlags.ofFlags r.flags)) ∧
    (fromSF z).Canonical ∧ (fromSF z).datum = r.datum

/-- The same of an operation on the numbers of the library. -/
def Returns (env : SoftFloat.State) (r : Result ℚ) (o : Option (Float80 × SoftFloat.State)) :
    Prop :=
  ∃ z : Float80, o = some (z, FloatEnv.raiseFlags env (FloatFlags.ofFlags r.flags)) ∧
    z.Canonical ∧ z.datum = r.datum

theorem Computes.returns {env : SoftFloat.State} {r : Result ℚ}
    {o : Option (SoftFloat.ExtFloat80 × SoftFloat.State)} (h : Computes env r o) :
    Returns env r (o.map fun z => (fromSF z.1, z.2)) := by
  obtain ⟨z, rfl, hz⟩ := h
  exact ⟨fromSF z, rfl, hz⟩

section Classes

variable {x : Float80}

theorem biasedExponent_eq_max_iff (x : Float80) :
    x.biasedExponent = 0x7FFF ↔ SoftFloat.expExtF80UI64 x.toSF.signExp = 0x7FFF := by
  rw [expExtF80UI64_toSF, ← UInt16.toNat_inj]
  exact Nat.cast_inj.symm

theorem biasedExponent_le (x : Float80) : x.biasedExponent.toNat ≤ 0x7FFF := by
  have hmask : (0x7FFF : UInt16).toNat = 2 ^ 15 - 1 := rfl
  rw [biasedExponent, UInt16.toNat_and, hmask, Nat.and_two_pow_sub_one_eq_mod]
  omega

theorem fraction_ne_zero_iff (m : UInt64) : m &&& 0x7FFFFFFFFFFFFFFF ≠ 0 ↔ m.toNat % 2 ^ 63 ≠ 0 :=
  SoftFloat.and_mask_ne_zero_iff rfl

theorem shiftLeft_one_ne_zero_iff (m : UInt64) : m <<< 1 ≠ 0 ↔ m.toNat % 2 ^ 63 ≠ 0 := by
  rw [SoftFloat.ne_zero_iff, UInt64.toNat_shiftLeft, Nat.shiftLeft_eq]
  change m.toNat * 2 ^ 1 % 2 ^ 64 ≠ 0 ↔ _
  omega

theorem isNaN_iff (x : Float80) :
    x.isNaN = true ↔ x.biasedExponent = 0x7FFF ∧ x.man.toNat % 2 ^ 63 ≠ 0 := by
  rw [isNaN, decide_eq_true_iff, shiftLeft_one_ne_zero_iff]

theorem isInfinite_iff (x : Float80) :
    x.isInfinite = true ↔ x.biasedExponent = 0x7FFF ∧ x.man.toNat % 2 ^ 63 = 0 := by
  rw [isInfinite, decide_eq_true_iff]
  exact and_congr_right' (not_iff_not.1 (shiftLeft_one_ne_zero_iff x.man))

theorem datum_of_isFinite (hx : x.isFinite) : x.datum = .finite x.sign x.magnitude := by
  rw [datum, if_neg (not_isNaN hx), if_neg (not_isInfinite hx)]

theorem datum_of_isInfinite (hx : x.isInfinite) : x.datum = .infinite x.sign := by
  have hnan : ¬x.isNaN := by
    rw [isNaN_iff]
    exact fun hnan => hnan.2 ((isInfinite_iff x).1 hx).2
  rw [datum, if_neg hnan, if_pos hx]

theorem datum_of_isNaN (hx : x.isNaN) : x.datum = .nan x.isSignalingNaN := if_pos hx

theorem isNaN_datum (hx : x.isNaN) : x.datum.IsNaN := by
  rw [datum_of_isNaN hx]
  trivial

/-- The three kinds of encodings, as the code tells them apart. -/
theorem classes (x : Float80) : x.isFinite ∨ x.isInfinite ∨ x.isNaN := by
  by_cases hexp : x.biasedExponent = 0x7FFF
  · by_cases hman : x.man.toNat % 2 ^ 63 = 0
    · exact .inr (.inl ((isInfinite_iff x).2 ⟨hexp, hman⟩))
    · exact .inr (.inr ((isNaN_iff x).2 ⟨hexp, hman⟩))
  · exact .inl (decide_eq_true hexp)

theorem exp_ne_of_isFinite (hx : x.isFinite) :
    ¬SoftFloat.expExtF80UI64 x.toSF.signExp = 0x7FFF := by
  rw [← biasedExponent_eq_max_iff]
  exact of_decide_eq_true hx

theorem of_isInfinite (hx : x.isInfinite) :
    SoftFloat.expExtF80UI64 x.toSF.signExp = 0x7FFF ∧
      ¬x.toSF.signif &&& 0x7FFFFFFFFFFFFFFF ≠ 0 := by
  obtain ⟨hexp, hman⟩ := (isInfinite_iff x).1 hx
  exact ⟨(biasedExponent_eq_max_iff x).1 hexp, fun hne => (fraction_ne_zero_iff x.man).1 hne hman⟩

theorem of_isNaN (hx : x.isNaN) :
    SoftFloat.expExtF80UI64 x.toSF.signExp = 0x7FFF ∧
      x.toSF.signif &&& 0x7FFFFFFFFFFFFFFF ≠ 0 := by
  obtain ⟨hexp, hman⟩ := (isNaN_iff x).1 hx
  exact ⟨(biasedExponent_eq_max_iff x).1 hexp, (fraction_ne_zero_iff x.man).2 hman⟩

theorem magnitude_eq_zero_iff (x : Float80) : x.magnitude = 0 ↔ x.man = 0 := by
  have hpow : (2 : ℚ) ^ (max (x.biasedExponent.toNat : ℤ) 1 - 16446) ≠ 0 :=
    zpow_ne_zero _ two_ne_zero
  rw [magnitude, mul_eq_zero, or_iff_left hpow, Nat.cast_eq_zero, ← UInt64.toNat_inj,
    UInt64.toNat_zero]

end Classes

section Operands

variable {x : Float80}

/-- What the preparation of an operand leaves: the same number, with the highest bit set. -/
structure Normalized (x : Float80) (z : SoftFloat.ExpSig) : Prop where
  sig : 2 ^ 63 ≤ z.sig.toNat
  exp_lo : -63 ≤ z.exp
  exp_hi : z.exp < 0x7FFF
  magnitude : x.magnitude = z.sig.toNat * 2 ^ (z.exp - 16446)

theorem normSubnormalExtF80Sig_eq {sig : UInt64} (hsig : sig ≠ 0) :
    SoftFloat.normSubnormalExtF80Sig sig =
      some ⟨-countlZero sig, sig <<< UInt64.ofNat (countlZero sig)⟩ := by
  rw [SoftFloat.normSubnormalExtF80Sig, shiftLeft]
  exact if_pos (countlZero_lt hsig) ▸ rfl

theorem normalizeOperand_toSF (hx : x.isFinite) (hman : x.man ≠ 0) :
    ∃ z, SoftFloat.normalizeOperand (SoftFloat.expExtF80UI64 x.toSF.signExp) x.toSF.signif =
      some z ∧ Normalized x z := by
  have hlt := biasedExponent_lt hx
  have hexp : (if SoftFloat.expExtF80UI64 x.toSF.signExp = 0 then 1
      else SoftFloat.expExtF80UI64 x.toSF.signExp) = max (x.biasedExponent.toNat : ℤ) 1 := by
    rw [expExtF80UI64_toSF]
    split <;> omega
  rw [SoftFloat.normalizeOperand, show x.toSF.signif = x.man from rfl]
  simp only [hexp, SoftFloat.and_highBit_ne_zero_iff]
  split
  · next hhigh =>
    exact ⟨_, rfl, hhigh, by dsimp only; omega, by dsimp only; omega, rfl⟩
  · have hshift := countlZero_lt hman
    obtain ⟨hnormalized, hlo⟩ := toNat_normalized hman
    rw [normSubnormalExtF80Sig_eq hman]
    refine ⟨_, rfl, ?_, by dsimp only; omega, by dsimp only; omega, ?_⟩
    · dsimp only
      omega
    · dsimp only
      rw [hnormalized, SoftFloat.cast_mul_two_pow, Float80.magnitude]
      congr 2
      omega

theorem Normalized.magnitude_pos {z : SoftFloat.ExpSig} (h : Normalized x z) : 0 < x.magnitude := by
  have hsig : 0 < z.sig.toNat := by
    have := h.sig
    omega
  rw [h.magnitude]
  exact mul_pos (Nat.cast_pos.2 hsig) (zpow_pos two_pos _)

end Operands

section Results

variable {env : SoftFloat.State} {r : Result ℚ} {sign : Bool}

theorem datum_packInfinity (sign : Bool) :
    (fromSF (SoftFloat.packInfinity sign)).Canonical ∧
      (fromSF (SoftFloat.packInfinity sign)).datum = .infinite sign := by
  cases sign
  · exact ⟨by decide, datum_of_isInfinite (by decide)⟩
  · exact ⟨by decide, datum_of_isInfinite (by decide)⟩

theorem datum_packZero (sign : Bool) :
    (fromSF (SoftFloat.packZero sign)).Canonical ∧
      (fromSF (SoftFloat.packZero sign)).datum = .finite sign 0 := by
  have hzero : (fromSF (SoftFloat.packZero sign)).magnitude = 0 := (magnitude_eq_zero_iff _).2 rfl
  cases sign
  · exact ⟨by decide, (datum_of_isFinite (by decide)).trans (congrArg _ hzero)⟩
  · exact ⟨by decide, (datum_of_isFinite (by decide)).trans (congrArg _ hzero)⟩

theorem computes_exact {z : SoftFloat.ExtFloat80} {d : Datum ℚ}
    (h : (fromSF z).Canonical ∧ (fromSF z).datum = d) :
    Computes env (.exact d) (some (z, env)) :=
  ⟨z, by rw [Result.exact, FloatEnv.raiseFlags_ofFlags_empty], h⟩

theorem computes_invalid : Computes env .invalid (some (SoftFloat.invalid env)) :=
  ⟨SoftFloat.defaultNaN, rfl, by decide, datum_of_isNaN (by decide)⟩

theorem Represents.datum {x : Float80} {r : Rounded ℚ} (h : x.Represents sign r.outcome) :
    x.Canonical ∧ x.datum = (Result.ofRounded sign r).datum := by
  rw [Result.ofRounded]
  generalize r.outcome = o at h
  cases o with
  | finite v =>
    obtain ⟨hfinite, hcanonical, rfl, rfl⟩ := h
    exact ⟨hcanonical, datum_of_isFinite hfinite⟩
  | infinite =>
    rw [Represents] at h
    subst h
    cases sign
    · exact ⟨by decide, datum_of_isInfinite (by decide)⟩
    · exact ⟨by decide, datum_of_isInfinite (by decide)⟩

/-- Packing computes the rounded number that its arguments stand for. -/
theorem computes_roundPack_of {current : SoftFloat.State} (mode : RoundingMode)
    (precision : Precision) (sign : Bool) {sig extra : UInt64} {exp : ℤ} {v w : ℚ}
    (hmode : current.roundingMode = SoftFloat.ofMode mode) (hsig : 2 ^ 63 ≤ sig.toNat)
    (hlo : -2 ^ 31 ≤ exp) (hhi : exp < 2 ^ 31) (h : SoftFloat.Approximates sig extra v)
    (hw : w = v * 2 ^ (exp - 16446)) :
    Computes current (.ofRounded sign (precision.format.round mode sign w))
      (some (SoftFloat.roundPackToExtF80 sign exp sig extra precision.toByte current)) := by
  have hcorrect := SoftFloat.roundParts_approximates mode sign precision.toByte
    current.exceptionFlags hsig hlo hhi h
  rw [← format_eq, ← hw] at hcorrect
  refine ⟨_, ?_, Represents.datum (represents_fromSF hcorrect.encodes)⟩
  rw [FloatEnv.raiseFlags, FloatEnv.ofFlags_and_all, FloatEnv.ofFlags_ofRounded, ← hcorrect.flags,
    SoftFloat.roundPackToExtF80, hmode]

theorem computes_roundPack (env : SoftFloat.State) (mode : RoundingMode) (precision : Precision)
    (sign : Bool) {sig extra : UInt64} {exp : ℤ} {v w : ℚ} (hsig : 2 ^ 63 ≤ sig.toNat)
    (hlo : -2 ^ 31 ≤ exp) (hhi : exp < 2 ^ 31) (h : SoftFloat.Approximates sig extra v)
    (hw : w = v * 2 ^ (exp - 16446)) :
    Computes (FloatEnv.configured env mode precision)
      (.ofRounded sign (precision.format.round mode sign w))
      (some (SoftFloat.roundPackToExtF80 sign exp sig extra precision.toByte
        (FloatEnv.configured env mode precision))) :=
  computes_roundPack_of mode precision sign rfl hsig hlo hhi h hw

/-- Packing two words that hold all bits of a number. -/
theorem computes_roundPack_words (env : SoftFloat.State) (mode : RoundingMode)
    (precision : Precision) (sign : Bool) (z : SoftFloat.Uint128) {exp : ℤ} {w : ℚ}
    (hz : 2 ^ 127 ≤ z.toNat) (hlo : -2 ^ 31 ≤ exp) (hhi : exp < 2 ^ 31)
    (hw : w = z.toNat * 2 ^ (exp - 16510)) :
    Computes (FloatEnv.configured env mode precision)
      (.ofRounded sign (precision.format.round mode sign w))
      (some (SoftFloat.roundPackToExtF80 sign exp z.v64 z.v0 precision.toByte
        (FloatEnv.configured env mode precision))) := by
  have hsig : 2 ^ 63 ≤ z.v64.toNat := by
    rw [← z.toNat_div]
    omega
  refine computes_roundPack env mode precision sign hsig hlo hhi (.of_eq rfl) ?_
  rw [hw, show exp - 16446 = exp - 16510 + (64 : ℕ) by push_cast; ring, zpow_add₀ two_ne_zero,
    zpow_natCast, ← mul_assoc, mul_right_comm, Nat.cast_pow, Nat.cast_ofNat, div_mul_cancel₀]
  · rfl
  · positivity

theorem round_zero_exact (f : Format) (mode : RoundingMode) (sign : Bool) :
    Result.ofRounded sign (f.round mode sign (0 : ℚ)) = .exact (.finite sign 0) := by
  rw [f.round_zero]
  rfl

end Results

section NaN

variable {x y : Float80}

theorem isSigNaN_toSF (x : Float80) : SoftFloat.isSigNaNExtF80UI x.toSF = x.isSignalingNaN := by
  have hlow : x.man &&& 0x3FFFFFFFFFFFFFFF ≠ 0 ↔ x.man.toNat % 2 ^ 62 ≠ 0 :=
    SoftFloat.and_mask_ne_zero_iff rfl
  have hbit : x.man &&& 0x4000000000000000 = 0 ↔ x.man.toNat / 2 ^ 62 % 2 = 0 := by
    rw [← UInt64.toNat_inj, UInt64.toNat_and]
    change x.man.toNat &&& 2 ^ 62 = 0 ↔ _
    rw [Nat.and_two_pow, Nat.testBit_eq_decide_div_mod_eq]
    by_cases h : x.man.toNat / 2 ^ 62 % 2 = 1
    · rw [decide_eq_true h, Bool.toNat_true]
      omega
    · rw [decide_eq_false h, Bool.toNat_false]
      omega
  have hone : (1 : UInt64) <<< 62 = 0x4000000000000000 := rfl
  rw [Bool.eq_iff_iff, SoftFloat.isSigNaNExtF80UI, isSignalingNaN, Bool.and_eq_true,
    Bool.and_eq_true, Bool.and_eq_true, isNaN_iff, hone]
  have hsame : x.man.toNat / 2 ^ 62 % 2 = 0 ∧ x.man.toNat % 2 ^ 62 ≠ 0 ↔
      x.man.toNat % 2 ^ 63 ≠ 0 ∧ x.man.toNat / 2 ^ 62 % 2 = 0 := by omega
  simp only [decide_eq_true_iff, toSF, hlow, hbit, and_assoc, hsame]
  exact and_congr_left' decide_eq_true_iff

theorem isNaN_toSF (x : Float80) : SoftFloat.isNaNExtF80UI x.toSF = x.isNaN := by
  rw [Bool.eq_iff_iff, SoftFloat.isNaNExtF80UI, isNaN_iff, Bool.and_eq_true, decide_eq_true_iff,
    decide_eq_true_iff]
  exact and_congr_right' (fraction_ne_zero_iff x.man)

/-- Two bits are set in each NaN that is passed on. -/
theorem nonsignaling_datum {a : SoftFloat.ExtFloat80} (ha : a.signExp &&& 0x7FFF = 0x7FFF) :
    (fromSF (SoftFloat.nonsignaling a)).Canonical ∧
      (fromSF (SoftFloat.nonsignaling a)).datum = .nan false := by
  obtain ⟨z, hz⟩ : ∃ z, fromSF (SoftFloat.nonsignaling a) = z := ⟨_, rfl⟩
  have hman : z.man.toNat = a.signif.toNat ||| 0xC000000000000000 := by
    rw [← hz]
    exact UInt64.toNat_or _ _
  have hexp : z.biasedExponent = 0x7FFF := by
    rw [← hz]
    exact ha
  have hbit : z.man.toNat.testBit 63 = true := by
    rw [hman, Nat.testBit_or, Bool.or_eq_true]
    exact .inr (by decide)
  have hbit' : z.man.toNat.testBit 62 = true := by
    rw [hman, Nat.testBit_or, Bool.or_eq_true]
    exact .inr (by decide)
  have hnan : z.isNaN = true := by
    refine (isNaN_iff z).2 ⟨hexp, fun hzero => ?_⟩
    have hlow : (z.man.toNat % 2 ^ 63).testBit 62 = true := by
      rw [Nat.testBit_mod_two_pow, hbit']
      decide
    rw [hzero, Nat.zero_testBit] at hlow
    exact Bool.false_ne_true hlow
  have hquiet : z.isSignalingNaN = false := by
    rw [isSignalingNaN, hnan, Bool.true_and, decide_eq_false_iff_not, ← UInt64.toNat_inj,
      UInt64.toNat_and]
    change ¬z.man.toNat &&& 2 ^ 62 = 0
    rw [Nat.and_two_pow, hbit']
    decide
  rw [hz]
  refine ⟨iff_of_true ((integerBit_iff z).2 (Nat.ge_two_pow_of_testBit hbit)) ?_, ?_⟩
  · rw [hexp]
    decide
  · rw [datum_of_isNaN hnan, hquiet]

/-- One of two operands with the largest exponent is a NaN after its quieting. -/
theorem largerMag_datum {a b : SoftFloat.ExtFloat80}
    (h : a.signExp &&& 0x7FFF = 0x7FFF ∨ b.signExp &&& 0x7FFF = 0x7FFF) :
    (fromSF (SoftFloat.largerMag a b)).Canonical ∧
      (fromSF (SoftFloat.largerMag a b)).datum = .nan false := by
  have hmax (c : SoftFloat.ExtFloat80) : (c.signExp &&& 0x7FFF).toNat ≤ 0x7FFF :=
    biasedExponent_le (fromSF c)
  have htop {c : SoftFloat.ExtFloat80} (hc : 0x7FFF ≤ (c.signExp &&& 0x7FFF).toNat) :
      c.signExp &&& 0x7FFF = 0x7FFF := UInt16.toNat_inj.1 ((hmax c).antisymm hc)
  have htop' {c : SoftFloat.ExtFloat80} (hc : c.signExp &&& 0x7FFF = 0x7FFF) :
      0x7FFF ≤ (c.signExp &&& 0x7FFF).toNat := by rw [hc]; decide
  have hboth (hle : ¬a.signExp &&& 0x7FFF < b.signExp &&& 0x7FFF)
      (hge : ¬b.signExp &&& 0x7FFF < a.signExp &&& 0x7FFF) :
      a.signExp &&& 0x7FFF = 0x7FFF ∧ b.signExp &&& 0x7FFF = 0x7FFF := by
    rw [UInt16.lt_iff_toNat_lt] at hle hge
    rcases h with ha | hb
    · exact ⟨ha, htop (by have := htop' ha; omega)⟩
    · exact ⟨htop (by have := htop' hb; omega), hb⟩
  rw [SoftFloat.largerMag]
  split
  · next hlt =>
    refine nonsignaling_datum (h.resolve_left fun ha => ?_)
    rw [UInt16.lt_iff_toNat_lt] at hlt
    have := htop' ha
    have := hmax b
    omega
  · next hle =>
    split
    · next hlt =>
      refine nonsignaling_datum (h.resolve_right fun hb => ?_)
      rw [UInt16.lt_iff_toNat_lt] at hlt
      have := htop' hb
      have := hmax a
      omega
    · next hge =>
      obtain ⟨ha, hb⟩ := hboth hle hge
      split
      · exact nonsignaling_datum hb
      · split
        · exact nonsignaling_datum ha
        · split
          · exact nonsignaling_datum ha
          · exact nonsignaling_datum hb

theorem computes_propagateNaN (env : SoftFloat.State) (h : x.isNaN ∨ y.isNaN) :
    Computes env (.ofNaN (x.isSignalingNaN || y.isSignalingNaN))
      (some (SoftFloat.propagateNaNExtF80UI x.toSF y.toSF env)) := by
  have hmax {c : Float80} (hc : c.isNaN) : c.toSF.signExp &&& 0x7FFF = 0x7FFF :=
    ((isNaN_iff c).1 hc).1
  have hlarger := largerMag_datum (h.imp hmax hmax)
  have hsignaling {c : Float80} (hc : c.isSignalingNaN = true) : c.isNaN = true :=
    (Bool.and_eq_true _ _ ▸ hc).1
  have hraise : FloatEnv.raiseFlags env (FloatFlags.ofFlags { invalid := true }) =
    SoftFloat.raiseFlags SoftFloat.flagInvalid env := rfl
  rw [SoftFloat.propagateNaNExtF80UI, isSigNaN_toSF, isSigNaN_toSF, isNaN_toSF, isNaN_toSF,
    Result.ofNaN]
  cases hsx : x.isSignalingNaN with
  | true =>
    cases hsy : y.isSignalingNaN with
    | true => exact ⟨_, rfl, hlarger⟩
    | false =>
      cases hy : y.isNaN with
      | true => exact ⟨_, rfl, nonsignaling_datum (hmax hy)⟩
      | false => exact ⟨_, rfl, nonsignaling_datum (hmax (hsignaling hsx))⟩
  | false =>
    cases hsy : y.isSignalingNaN with
    | true =>
      cases hx : x.isNaN with
      | true => exact ⟨_, rfl, nonsignaling_datum (hmax hx)⟩
      | false => exact ⟨_, rfl, nonsignaling_datum (hmax (hsignaling hsy))⟩
    | false =>
      refine ⟨_, ?_, hlarger⟩
      rw [Bool.or_false, FloatEnv.raiseFlags_ofFlags_empty]
      rfl

theorem isSignalingNaN_of_isFinite (hx : x.isFinite) : x.isSignalingNaN = false := by
  rw [isSignalingNaN, Bool.eq_false_iff.2 (not_isNaN hx), Bool.false_and]

theorem isSignalingNaN_of_isInfinite (hx : x.isInfinite) : x.isSignalingNaN = false := by
  have hnan : ¬x.isNaN := fun hnan => ((isNaN_iff x).1 hnan).2 ((isInfinite_iff x).1 hx).2
  rw [isSignalingNaN, Bool.eq_false_iff.2 hnan, Bool.false_and]

theorem isSignaling_datum (x : Float80) : x.datum.isSignaling = x.isSignalingNaN := by
  rcases classes x with hx | hx | hx
  · rw [datum_of_isFinite hx, isSignalingNaN_of_isFinite hx]
    rfl
  · rw [datum_of_isInfinite hx, isSignalingNaN_of_isInfinite hx]
    rfl
  · rw [datum_of_isNaN hx]
    rfl

/-- A NaN among the operands is passed on, whatever the operation is. -/
theorem computes_nan (env : SoftFloat.State) (h : x.isNaN ∨ y.isNaN) :
    Computes env (.ofNaN (x.datum.isSignaling || y.datum.isSignaling))
      (some (SoftFloat.propagateNaNExtF80UI x.toSF y.toSF env)) := by
  rw [isSignaling_datum, isSignaling_datum]
  exact computes_propagateNaN env h

end NaN

end Float80

end Utlib
