import Utlib.Float80.Basic

/-! `scale` multiplies by a power of two and rounds once. -/

namespace Utlib.Float80

open Utlib.Rounding

def countlZero (m : UInt64) : ℕ := if m = 0 then 64 else 63 - m.toNat.log2

/-- A shift by the width or more is undefined. -/
def shiftLeft (m : UInt64) (dist : ℕ) : Option UInt64 :=
  if dist < 64 then some (m <<< UInt64.ofNat dist) else none

/-- An operation on `i32` whose result does not fit is undefined. -/
def checkI32 (n : ℤ) : Option ℤ := if -2 ^ 31 ≤ n ∧ n < 2 ^ 31 then some n else none

def scaleFactor (rhs : Float80) (env : SoftFloat.State) : ℤ × SoftFloat.State :=
  if 20 ≤ rhs.exponent then
    (if rhs.sign then -0x100000 else 0x100000, env)
  else
    let saved := FloatEnv.flags env
    let n := rhs.toInt32Truncated env
    (n.1.toInt, FloatEnv.raiseFlags (FloatEnv.clearFlags n.2 FloatFlags.all) saved)

section Scale

-- the addition is left to SoftFloat: only NaN reaches it
variable (plus : Float80 → Float80 → SoftFloat.State → Float80 × SoftFloat.State)

def scale (x rhs : Float80) (env : SoftFloat.State) : Option (Float80 × SoftFloat.State) :=
  if x.isNaN ∨ rhs.isNaN then
    some (plus x rhs env)
  else if rhs.isInfinite then
    some (quietNaN false, FloatEnv.raiseFlags env FloatFlags.invalid)
  else if x.isZero ∨ x.isInfinite then
    some (x, env)
  else do
    let n := scaleFactor rhs env
    let e : ℤ := if x.biasedExponent ≠ 0 then x.biasedExponent.toNat else 1
    let shift := countlZero x.man
    let m ← shiftLeft x.man shift
    let e ← checkI32 (e - shift)
    let exp ← checkI32 (e + n.1)
    let z := SoftFloat.roundPackToExtF80 x.sign exp m 0 n.2.roundingPrecision n.2
    some (fromSF z.1, z.2)

end Scale

section Normalize

variable {m : UInt64}

theorem countlZero_lt (hm : m ≠ 0) : countlZero m < 64 := by
  rw [countlZero, if_neg hm]
  omega

theorem toNat_normalized (hm : m ≠ 0) :
    (m <<< UInt64.ofNat (countlZero m)).toNat = m.toNat * 2 ^ countlZero m ∧
      2 ^ 63 ≤ m.toNat * 2 ^ countlZero m := by
  have hne : m.toNat ≠ 0 := SoftFloat.ne_zero_iff.1 hm
  have hlog : m.toNat.log2 ≤ 63 := by
    have hlt := (Nat.log2_lt hne).2 m.toNat_lt
    omega
  have hshift : countlZero m = 63 - m.toNat.log2 := by rw [countlZero, if_neg hm]
  have hlo : 2 ^ m.toNat.log2 ≤ m.toNat := Nat.log2_self_le hne
  have hhi : m.toNat < 2 ^ (m.toNat.log2 + 1) := Nat.lt_log2_self
  have hmod : (UInt64.ofNat (countlZero m)).toNat % 64 = countlZero m := by
    rw [UInt64.toNat_ofNat']
    omega
  have hfits : m.toNat * 2 ^ countlZero m < 2 ^ 64 := by
    calc m.toNat * 2 ^ countlZero m < 2 ^ (m.toNat.log2 + 1) * 2 ^ countlZero m :=
          Nat.mul_lt_mul_of_pos_right hhi (Nat.two_pow_pos _)
      _ = 2 ^ 64 := by
          rw [← pow_add]
          congr 1
          omega
  refine ⟨?_, ?_⟩
  · rw [UInt64.toNat_shiftLeft, hmod, Nat.shiftLeft_eq, Nat.mod_eq_of_lt hfits]
  · calc 2 ^ 63 = 2 ^ m.toNat.log2 * 2 ^ countlZero m := by
          rw [← pow_add]
          congr 1
          omega
      _ ≤ m.toNat * 2 ^ countlZero m := Nat.mul_le_mul_right _ hlo

end Normalize

section Factor

variable {rhs : Float80} {env : SoftFloat.State}

theorem signExtF80UI64_toSF (x : Float80) : SoftFloat.signExtF80UI64 x.toSF.signExp = x.sign := by
  have hmask : (0x8000 : UInt16).toNat = 2 ^ 15 := rfl
  have hlt : x.se.toNat < 2 ^ 16 := x.se.toNat_lt
  have hshift : x.se >>> 15 ≠ 0 ↔ x.se.toNat.testBit 15 = true := by
    rw [ne_eq, ← UInt16.toNat_inj, UInt16.toNat_shiftRight, UInt16.toNat_zero,
      Nat.shiftRight_eq_div_pow, Nat.testBit_eq_decide_div_mod_eq, decide_eq_true_iff]
    change ¬x.se.toNat / 2 ^ 15 = 0 ↔ _
    omega
  have hand : x.se &&& 0x8000 ≠ 0 ↔ x.se.toNat.testBit 15 = true := by
    rw [ne_eq, ← UInt16.toNat_inj, UInt16.toNat_and, hmask, UInt16.toNat_zero, Nat.and_two_pow]
    cases x.se.toNat.testBit 15 <;> decide
  rw [SoftFloat.signExtF80UI64, sign, toSF]
  simp only [hshift, hand]

theorem expExtF80UI64_toSF (x : Float80) :
    SoftFloat.expExtF80UI64 x.toSF.signExp = x.biasedExponent.toNat := rfl

theorem floor_mul_two_pow_neg (n j : ℕ) : ⌊(n : ℚ) * 2 ^ (-(j : ℤ))⌋ = (n / 2 ^ j : ℕ) := by
  rw [← floor_natCast_div (K := ℚ), zpow_neg, zpow_natCast, ← div_eq_mul_inv, Nat.cast_pow,
    Nat.cast_ofNat]

theorem floor_magnitude (hlt : rhs.exponent < 20) :
    ⌊rhs.magnitude⌋ = (rhs.man.toNat / 2 ^ (0x403E - rhs.biasedExponent.toNat) : ℕ) := by
  rw [exponent, bias] at hlt
  rw [magnitude]
  rcases Nat.eq_zero_or_pos rhs.biasedExponent.toNat with hzero | hpos
  · have hman : rhs.man.toNat < 2 ^ 64 := rhs.man.toNat_lt
    have hsmall {j : ℕ} (hj : 64 ≤ j) : rhs.man.toNat / 2 ^ j = 0 :=
      Nat.div_eq_of_lt (hman.trans_le (Nat.pow_le_pow_right two_pos hj))
    rw [hzero, hsmall (by decide)]
    have hfloor := floor_mul_two_pow_neg rhs.man.toNat 16445
    rwa [hsmall (by decide)] at hfloor
  · have hexponent : (rhs.biasedExponent.toNat : ℤ) - 16446 =
        -((0x403E - rhs.biasedExponent.toNat : ℕ) : ℤ) := by omega
    rw [max_eq_left (by omega), hexponent, floor_mul_two_pow_neg]

theorem scaleFactor_of_lt (hlt : rhs.exponent < 20) :
    scaleFactor rhs env = (rhs.truncated, env) := by
  have hexp : rhs.biasedExponent.toNat < 0x401E := by
    rw [exponent, bias] at hlt
    omega
  obtain ⟨hint, hstate⟩ := SoftFloat.extF80ToI32_minMag true env (expExtF80UI64_toSF rhs) hexp
  rw [signExtF80UI64_toSF] at hint
  have htruncated : (rhs.toInt32Truncated env).1.toInt = rhs.truncated := by
    rw [truncated, floor_magnitude hlt]
    exact hint
  have hrestored : FloatEnv.raiseFlags (FloatEnv.clearFlags (rhs.toInt32Truncated env).2
      FloatFlags.all) (FloatEnv.flags env) = env := by
    have hnone : SoftFloat.raiseFlags 0 env = env := by
      rw [SoftFloat.raiseFlags, UInt8.or_zero]
    rw [toInt32Truncated, hstate]
    split
    · exact FloatEnv.raiseFlags_clearFlags env _ (by decide)
    · have hnothing := FloatEnv.raiseFlags_clearFlags env 0 (by decide)
      rwa [hnone] at hnothing
  rw [scaleFactor, if_neg (not_le.2 hlt)]
  exact Prod.ext htruncated hrestored

theorem scaleFactor_env : (scaleFactor rhs env).2 = env := by
  by_cases hlt : rhs.exponent < 20
  · rw [scaleFactor_of_lt hlt]
  · rw [scaleFactor, if_pos (not_lt.1 hlt)]

/-- A factor is either the truncated number or a bound that this number exceeds. -/
def Clamped (factor n : ℤ) : Prop :=
  factor = n ∧ -2 ^ 20 ≤ n ∧ n ≤ 2 ^ 20 ∨ factor = 2 ^ 20 ∧ 2 ^ 20 ≤ n ∨
    factor = -2 ^ 20 ∧ n ≤ -2 ^ 20

theorem floor_lt (hlt : rhs.exponent < 20) : 0 ≤ ⌊rhs.magnitude⌋ ∧ ⌊rhs.magnitude⌋ < 2 ^ 20 := by
  have hman : rhs.man.toNat < 2 ^ 64 := rhs.man.toNat_lt
  have hpow : 2 ^ 44 ≤ 2 ^ (0x403E - rhs.biasedExponent.toNat) := by
    apply Nat.pow_le_pow_right two_pos
    rw [exponent, bias] at hlt
    omega
  have hquot : rhs.man.toNat / 2 ^ (0x403E - rhs.biasedExponent.toNat) < 2 ^ 20 := by
    rw [Nat.div_lt_iff_lt_mul (Nat.two_pow_pos _)]
    omega
  rw [floor_magnitude hlt]
  exact ⟨Int.natCast_nonneg _, by exact_mod_cast hquot⟩

theorem le_floor (hcanonical : rhs.Canonical) (hle : 20 ≤ rhs.exponent) :
    2 ^ 20 ≤ ⌊rhs.magnitude⌋ := by
  rw [exponent, bias] at hle
  have hbiased : rhs.biasedExponent ≠ 0 := by
    intro hzero
    rw [hzero, UInt16.toNat_zero] at hle
    omega
  have hman := (integerBit_iff rhs).1 (hcanonical.2 hbiased)
  have hman' : (2 : ℚ) ^ 63 ≤ rhs.man.toNat := by exact_mod_cast hman
  rw [Int.le_floor, magnitude, max_eq_left (by omega)]
  calc ((2 ^ 20 : ℤ) : ℚ) = 2 ^ 63 * 2 ^ (-43 : ℤ) := by norm_num
    _ ≤ rhs.man.toNat * 2 ^ ((rhs.biasedExponent.toNat : ℤ) - 16446) :=
      mul_le_mul hman' (zpow_le_zpow_right₀ one_le_two (by omega)) (zpow_pos two_pos _).le
        (Nat.cast_nonneg _)

theorem scaleFactor_range (rhs : Float80) (env : SoftFloat.State) :
    -2 ^ 20 ≤ (scaleFactor rhs env).1 ∧ (scaleFactor rhs env).1 ≤ 2 ^ 20 := by
  rcases lt_or_ge rhs.exponent 20 with hlt | hle
  · have hfloor := floor_lt hlt
    rw [scaleFactor_of_lt hlt, truncated]
    split <;> omega
  · rw [scaleFactor, if_pos hle]
    dsimp only
    split <;> omega

theorem clamped_scaleFactor (env : SoftFloat.State) (hcanonical : rhs.Canonical) :
    Clamped (scaleFactor rhs env).1 rhs.truncated := by
  rcases lt_or_ge rhs.exponent 20 with hlt | hle
  · have hfloor := floor_lt hlt
    rw [scaleFactor_of_lt hlt]
    refine .inl ⟨rfl, ?_⟩
    rw [truncated]
    split <;> omega
  · have hfloor := le_floor hcanonical hle
    rw [scaleFactor, if_pos hle, truncated]
    cases rhs.sign with
    | false => exact .inr (.inl ⟨rfl, hfloor⟩)
    | true => exact .inr (.inr ⟨rfl, neg_le_neg hfloor⟩)

end Factor

section Rounding

variable {mode : RoundingMode} {negative : Bool} {precision : Precision}

theorem format_eq (precision : Precision) :
    precision.format = SoftFloat.extended (SoftFloat.significandBits precision.toByte) := by
  cases precision <;> rfl

theorem significandBits_eq (precision : Precision) :
    ∃ g < 64, SoftFloat.significandBits precision.toByte = 64 - g := by
  cases precision with
  | single => exact ⟨40, by decide, rfl⟩
  | double => exact ⟨11, by decide, rfl⟩
  | extended => exact ⟨0, by decide, rfl⟩

/-- Clamping the factor does not change the rounded product. -/
theorem round_clamped {n : ℕ} {e factor k : ℤ} (hlo : 2 ^ 63 ≤ n) (hhi : n < 2 ^ 64)
    (he : -63 ≤ e) (he' : e < 0x7FFF) (h : Clamped factor k) :
    precision.format.round mode negative ((n : ℚ) * 2 ^ (e + factor - 16446)) =
      precision.format.round mode negative ((n : ℚ) * 2 ^ (e + k - 16446)) := by
  obtain ⟨g, hg, hbits⟩ := significandBits_eq precision
  rw [format_eq, hbits]
  rcases h with ⟨rfl, -⟩ | ⟨rfl, hk⟩ | ⟨rfl, hk⟩
  · rfl
  · rw [SoftFloat.round_extended_of_gt hlo hhi hg (by omega),
      SoftFloat.round_extended_of_gt hlo hhi hg (by omega)]
  · exact SoftFloat.round_extended_of_le hlo hhi hg (by omega) (by omega)

end Rounding

section Correct

variable (plus : Float80 → Float80 → SoftFloat.State → Float80 × SoftFloat.State)
  {x rhs : Float80} {env : SoftFloat.State}

theorem not_isNaN (hx : x.isFinite) : ¬x.isNaN := by
  rw [isFinite, decide_eq_true_iff] at hx
  rw [isNaN, decide_eq_true_iff]
  exact fun hnan => hx hnan.1

theorem not_isInfinite (hx : x.isFinite) : ¬x.isInfinite := by
  rw [isFinite, decide_eq_true_iff] at hx
  rw [isInfinite, decide_eq_true_iff]
  exact fun hinfinite => hx hinfinite.1

theorem man_ne_zero (hcanonical : x.Canonical) (hnonzero : ¬x.isZero) : x.man ≠ 0 := by
  intro hman
  have hbit : ¬x.integerBit := by
    rw [integerBit, hman]
    decide
  rw [isZero, decide_eq_true_iff] at hnonzero
  exact hbit (hcanonical.2 fun hexp => hnonzero ⟨hexp, hman⟩)

theorem biasedExponent_lt (hx : x.isFinite) : x.biasedExponent.toNat < 0x7FFF := by
  have hmask : (0x7FFF : UInt16).toNat = 2 ^ 15 - 1 := rfl
  have hle : x.biasedExponent.toNat < 2 ^ 15 := by
    rw [biasedExponent, UInt16.toNat_and, hmask, Nat.and_two_pow_sub_one_eq_mod]
    exact Nat.mod_lt _ (by decide)
  rw [isFinite, decide_eq_true_iff, ne_eq, ← UInt16.toNat_inj] at hx
  change ¬x.biasedExponent.toNat = 32767 at hx
  omega

/-- The exponent that denormals share with the smallest normal numbers. -/
theorem scale_exponent (x : Float80) :
    (if x.biasedExponent ≠ 0 then (x.biasedExponent.toNat : ℤ) else 1) =
      max (x.biasedExponent.toNat : ℤ) 1 := by
  have hzero : x.biasedExponent = 0 ↔ x.biasedExponent.toNat = 0 := by
    rw [← UInt16.toNat_inj, UInt16.toNat_zero]
  simp only [ne_eq, hzero]
  split <;> omega

theorem checkI32_of_range {n : ℤ} (hlo : -2 ^ 31 ≤ n) (hhi : n < 2 ^ 31) :
    checkI32 n = some n := if_pos ⟨hlo, hhi⟩

/-- No operation of the code is undefined. -/
theorem scale_of_man_ne_zero (hx : x.isFinite) (hman : x.man ≠ 0) (hrhs : rhs.isFinite) :
    x.scale plus rhs env =
      let z := SoftFloat.roundPackToExtF80 x.sign
        (max (x.biasedExponent.toNat : ℤ) 1 - countlZero x.man + (scaleFactor rhs env).1)
        (x.man <<< UInt64.ofNat (countlZero x.man)) 0 env.roundingPrecision env
      some (fromSF z.1, z.2) := by
  have hshift := countlZero_lt hman
  have hexp := biasedExponent_lt hx
  have hfactor := scaleFactor_range rhs env
  have hnonzero : ¬x.isZero := by
    rw [isZero, decide_eq_true_iff]
    exact fun hzero => hman hzero.2
  have hnan : ¬(x.isNaN ∨ rhs.isNaN) := not_or.2 ⟨not_isNaN hx, not_isNaN hrhs⟩
  have hspecial : ¬(x.isZero ∨ x.isInfinite) := not_or.2 ⟨hnonzero, not_isInfinite hx⟩
  rw [scale, if_neg hnan, if_neg (not_isInfinite hrhs), if_neg hspecial]
  simp only [scale_exponent, shiftLeft, if_pos hshift, Option.bind_eq_bind, Option.bind_some]
  rw [checkI32_of_range (by omega) (by omega), Option.bind_some,
    checkI32_of_range (by omega) (by omega), Option.bind_some, scaleFactor_env]

/-- Scaling by a number is multiplication by the power of two that the number truncates to,
followed by one rounding. -/
theorem scale_correct (mode : RoundingMode) (precision : Precision) (env : SoftFloat.State)
    (hx : x.isFinite) (hcanonical : x.Canonical) (hnonzero : ¬x.isZero)
    (hrhs : rhs.isFinite) (hrhs' : rhs.Canonical) :
    let current := FloatEnv.setPrecision (FloatEnv.setRoundingMode env mode) precision
    let rounded := precision.format.round mode x.sign (x.magnitude * 2 ^ rhs.truncated)
    ∃ z, x.scale plus rhs current =
        some (z, FloatEnv.raiseFlags current (FloatFlags.ofRounded rounded)) ∧
      z.Represents x.sign rounded.outcome := by
  intro current rounded
  have hman := man_ne_zero hcanonical hnonzero
  have hshift := countlZero_lt hman
  have hexp := biasedExponent_lt hx
  have hclamped := clamped_scaleFactor current hrhs'
  obtain ⟨hnormalized, hlo⟩ := toNat_normalized hman
  rw [← hnormalized] at hlo
  have hproduct : x.magnitude * 2 ^ rhs.truncated =
      ((x.man <<< UInt64.ofNat (countlZero x.man)).toNat : ℚ) *
        2 ^ (max (x.biasedExponent.toNat : ℤ) 1 - countlZero x.man + rhs.truncated - 16446) := by
    rw [hnormalized, SoftFloat.cast_mul_two_pow, magnitude, mul_assoc, ← zpow_add₀ two_ne_zero]
    congr 2
    omega
  have hrounded : rounded = precision.format.round mode x.sign
      (((x.man <<< UInt64.ofNat (countlZero x.man)).toNat : ℚ) *
        2 ^ (max (x.biasedExponent.toNat : ℤ) 1 - countlZero x.man + (scaleFactor rhs current).1 -
          16446)) := by
    rw [round_clamped hlo (UInt64.toNat_lt _) (by omega) (by omega) hclamped, ← hproduct]
  have hrange := scaleFactor_range rhs current
  have hcorrect := SoftFloat.roundParts_correct mode x.sign
    (max (x.biasedExponent.toNat : ℤ) 1 - countlZero x.man + (scaleFactor rhs current).1)
    precision.toByte current.exceptionFlags hlo (by omega) (by omega)
  rw [← format_eq, ← hrounded] at hcorrect
  refine ⟨_, ?_, represents_fromSF hcorrect.encodes⟩
  rw [scale_of_man_ne_zero plus hx hman hrhs, FloatEnv.raiseFlags_ofRounded,
    SoftFloat.raiseFlags, ← hcorrect.flags]
  rfl

theorem scale_correct_three :
    let three : Float80 := ⟨0x4000, 0xC000000000000000⟩
    let four : Float80 := ⟨0x4001, 0x8000000000000000⟩
    let seven : Float80 := ⟨0x4001, 0xE000000000000000⟩
    let current := FloatEnv.setPrecision (FloatEnv.setRoundingMode ⟨.nearEven, 0, 80⟩ .up) .double
    let rounded := Precision.double.format.round .up three.sign
      (three.magnitude * 2 ^ four.truncated)
    ∃ z, three.scale (fun _ _ env => (seven, env)) four current =
        some (z, FloatEnv.raiseFlags current (FloatFlags.ofRounded rounded)) ∧
      z.Represents three.sign rounded.outcome :=
  scale_correct _ .up .double _ (by decide) (by decide) (by decide) (by decide) (by decide)

example (plus : Float80 → Float80 → SoftFloat.State → Float80 × SoftFloat.State) :
    (scale plus ⟨0x4000, 0xC000000000000000⟩ ⟨0x4001, 0x8000000000000000⟩ ⟨.nearEven, 0, 80⟩).map
      Prod.fst = some ⟨0x4004, 0xC000000000000000⟩ := by
  rfl

end Correct

end Utlib.Float80
