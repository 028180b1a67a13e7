import Utlib.Float80.Compare

/-! Conversions from and to integers, and numbers without a fraction. -/

namespace Utlib

open Utlib.Rounding

namespace SoftFloat

section ToI64

variable {sig extra : UInt64} {mode : Mode} {sign : Bool} {n d : ℕ}

theorem toInt_toInt64 (x : UInt64) :
    x.toInt64.toInt = if 2 * x.toNat < 2 ^ 64 then (x.toNat : ℤ) else x.toNat - 2 ^ 64 :=
  BitVec.toInt_eq_toNat_cond x.toBitVec

/-- An integer by its sign and its magnitude. -/
def signedInt (sign : Bool) (n : ℕ) : ℤ := if sign then -(n : ℤ) else n

/-- What comes out for an integer, or for none that is in range. -/
def i64Of (s : State) : Option (ℤ × Bool) → ℤ × State
  | none => (-2 ^ 63, raiseFlags flagInvalid s)
  | some (n, exact) => (n, if exact then s else raiseFlags flagInexact s)

def inRange (n : ℤ) (exact : Bool) : Option (ℤ × Bool) :=
  if -2 ^ 63 ≤ n ∧ n ≤ 2 ^ 63 - 1 then some (n, exact) else none

theorem toInt_negated (sig : UInt64) (sign : Bool) :
    (if sign then -sig else sig).toInt64.toInt =
      if -2 ^ 63 ≤ signedInt sign sig.toNat ∧ signedInt sign sig.toNat ≤ 2 ^ 63 - 1 then
        signedInt sign sig.toNat
      else signedInt sign sig.toNat + if sign then 2 ^ 64 else -2 ^ 64 := by
  have hlt := sig.toNat_lt
  rw [toInt_toInt64, signedInt]
  cases sign with
  | false =>
    simp only [Bool.false_eq_true, if_false]
    split <;> split <;> omega
  | true =>
    simp only [if_true]
    rw [UInt64.toNat_neg, UInt64.size]
    split <;> split <;> omega

theorem signToI64_spec (mode : Mode) (sign : Bool) (sig extra : UInt64) (s : State) :
    ((signToI64 sign sig extra (ofMode mode) true s).1.toInt,
        (signToI64 sign sig extra (ofMode mode) true s).2) =
      i64Of s (inRange (signedInt sign sig.toNat) (extra = 0)) := by
  have hz := toInt_negated sig sign
  have hlt := sig.toNat_lt
  rw [signToI64]
  generalize (if sign then -sig else sig).toInt64 = z at hz ⊢
  have hwrong : (z ≠ 0 ∧ decide (z < 0) ≠ sign) ↔
      ¬(-2 ^ 63 ≤ signedInt sign sig.toNat ∧ signedInt sign sig.toNat ≤ 2 ^ 63 - 1) := by
    have hzero : z ≠ 0 ↔ z.toInt ≠ 0 := by
      rw [ne_eq, ← Int64.toInt_inj, Int64.toInt_zero]
    have hneg : z < 0 ↔ z.toInt < 0 := by rw [Int64.lt_iff_toInt_lt, Int64.toInt_zero]
    rw [hzero]
    rw [signedInt] at hz ⊢
    cases sign with
    | false =>
      rw [ne_eq (decide _), Bool.not_eq_false, decide_eq_true_iff, hneg]
      simp only [Bool.false_eq_true, if_false] at hz ⊢
      split at hz <;> omega
    | true =>
      rw [ne_eq (decide _), Bool.not_eq_true, decide_eq_false_iff_not, hneg]
      simp only [if_true] at hz ⊢
      split at hz <;> omega
  by_cases hin : -2 ^ 63 ≤ signedInt sign sig.toNat ∧ signedInt sign sig.toNat ≤ 2 ^ 63 - 1
  · rw [if_pos hin] at hz
    rw [if_neg (hwrong.not.2 (not_not.2 hin)), if_neg (not_odd mode), inRange, if_pos hin, i64Of, hz]
    by_cases hextra : extra = 0
    · simp [hextra]
    · simp [hextra]
  · rw [if_pos (hwrong.2 hin), inRange, if_neg hin]
    rfl

theorem increments_eq (mode : Mode) (sign : Bool) (extra : UInt64) :
    (if roundsToNearest (ofMode mode) then decide (0x8000000000000000 ≤ extra)
      else extra ≠ 0 && (roundsAway (ofMode mode) sign || sign && ofMode mode = .odd)) =
        incrementsExtra (ofMode mode) sign extra := by
  rw [incrementsExtra]
  cases mode <;> cases sign <;> simp [roundsToNearest, roundsAway, ofMode, Bool.and_comm]

theorem clearTie_eq (mode : Mode) {sign : Bool} {extra : UInt64} (sig : UInt64)
    (h : incrementsExtra (ofMode mode) sign extra = true) :
    (if extra = 0x8000000000000000 ∧ ofMode mode = .nearEven then sig &&& ~~~1 else sig) =
      clearTie (ofMode mode) sig extra := by
  have htie : extra = 0x8000000000000000 ∧ ofMode mode = .nearEven ↔
      extra &&& 0x7FFFFFFFFFFFFFFF = 0 ∧ ofMode mode = .nearEven := by
    refine and_congr_left fun hmode => ?_
    have hmask : (0x7FFFFFFFFFFFFFFF : UInt64).toNat = 2 ^ 63 - 1 := rfl
    have hlt := extra.toNat_lt
    rw [hmode] at h
    have hhalf : 2 ^ 63 ≤ extra.toNat := of_decide_eq_true h
    rw [← UInt64.toNat_inj, ← UInt64.toNat_inj, toNat_and_mask hmask, UInt64.toNat_zero]
    change extra.toNat = 2 ^ 63 ↔ _
    omega
  rw [clearTie]
  simp only [htie]
  split
  · rfl
  · have hnone : (0 : UInt64).toNat = 2 ^ 0 - 1 := rfl
    apply UInt64.toNat_inj.1
    rw [toNat_and_not_mask hnone]
    omega

theorem roundToI64_spec (mode : Mode) (sign : Bool) {sig extra : UInt64} (s : State)
    (h : Discarded extra (n % d) d) (hsig : sig.toNat = n / d) :
    ((roundToI64 sign sig extra (ofMode mode) true s).1.toInt,
        (roundToI64 sign sig extra (ofMode mode) true s).2) =
      i64Of s (inRange (signedInt sign (mode.roundDiv sign n d)) (n % d = 0)) := by
  have hzero : extra = 0 ↔ n % d = 0 := by
    rw [← h.zero, ← UInt64.toNat_inj, UInt64.toNat_zero]
  have hlt := sig.toNat_lt
  have hincrements : incrementsExtra (ofMode mode) sign extra = true ↔
      mode.Carries sign n d ∨ mode.Tie n d := incrementsExtra_iff h
  rw [roundToI64]
  simp only [increments_eq]
  by_cases hround : incrementsExtra (ofMode mode) sign extra = true
  · have hsucc : (sig + 1).toNat = (n / d + 1) % 2 ^ 64 := by
      rw [UInt64.toNat_add, hsig]
      rfl
    have hcases := hincrements.1 hround
    rw [if_pos hround]
    by_cases hfull : n / d = 2 ^ 64 - 1
    · have hcarries : mode.Carries sign n d := by
        rcases hcases with hcarries | ⟨rfl, htie⟩
        · exact hcarries
        · exact .inr ⟨htie, by omega⟩
      have hover : sig + 1 = 0 := UInt64.toNat_inj.1 (by rw [hsucc, UInt64.toNat_zero]; omega)
      have hout : ¬(-2 ^ 63 ≤ signedInt sign (n / d + 1) ∧
          signedInt sign (n / d + 1) ≤ 2 ^ 63 - 1) := by
        rw [hfull, signedInt]
        cases sign <;> decide
      rw [if_pos hover, Mode.roundDiv, if_pos hcarries, inRange, if_neg hout]
      rfl
    · have hover : sig + 1 ≠ 0 := by
        rw [ne_zero_iff, hsucc]
        omega
      have hclear := toNat_clearTie h hcases (show (sig + 1).toNat = n / d + 1 by omega)
      rw [if_neg hover, clearTie_eq mode (sig + 1) hround, signToI64_spec, hclear]
      simp only [hzero]
  · have hstays : ¬mode.Carries sign n d := fun h => hround (hincrements.2 (.inl h))
    rw [if_neg hround, signToI64_spec, Mode.roundDiv, if_neg hstays, hsig, Nat.add_zero]
    simp only [hzero]

end ToI64

end SoftFloat

namespace Float80

section ToInt64

variable {x : Float80} {env : SoftFloat.State} {mode : RoundingMode} {precision : Precision}
  {n d : ℕ} {sign : Bool}

def toInt64 (x : Float80) (env : SoftFloat.State) : Int64 × SoftFloat.State :=
  SoftFloat.extF80ToI64 x.toSF env.roundingMode true env

/-- The integer of a quotient, by the code's division. -/
theorem toInteger_div (mode : RoundingMode) (sign : Bool) (hd : 0 < d) :
    Datum.toInteger mode (-2 ^ 63) (2 ^ 63 - 1) (.finite sign (n / d : ℚ)) =
      SoftFloat.inRange (SoftFloat.signedInt sign (mode.roundDiv sign n d)) (n % d = 0) := by
  have hpos : (d : ℚ) ≠ 0 := Nat.cast_ne_zero.2 hd.ne'
  have hexact : ((mode.roundDiv sign n d : ℤ) : ℚ) = n / d ↔ n % d = 0 := by
    rw [eq_div_iff hpos, Int.cast_natCast]
    exact Iff.trans (by exact_mod_cast Iff.rfl) (Mode.roundDiv_mul_eq_iff hd)
  rw [Datum.toInteger, Mode.round_natCast_div hd, SoftFloat.inRange, SoftFloat.signedInt]
  simp only [hexact]

theorem mul_zpow_neg (n k : ℕ) : (n : ℚ) * 2 ^ (-(k : ℤ)) = n / (2 ^ k : ℕ) := by
  rw [zpow_neg, zpow_natCast, Nat.cast_pow, Nat.cast_ofNat, div_eq_mul_inv]

theorem magnitude_div (hexp : x.biasedExponent.toNat ≤ 0x403E) (hpos : 0 < x.biasedExponent.toNat) :
    x.magnitude = x.man.toNat / (2 ^ (0x403E - x.biasedExponent.toNat) : ℕ) := by
  rw [magnitude, max_eq_left (by omega), show (x.biasedExponent.toNat : ℤ) - 16446 =
    -((0x403E - x.biasedExponent.toNat : ℕ) : ℤ) by omega, mul_zpow_neg]

/-- Numbers with a larger exponent than 63 are out of range. -/
theorem toInteger_large (mode : RoundingMode) (sign : Bool) {v : ℚ} (h : 2 ^ 64 ≤ v) :
    Datum.toInteger mode (-2 ^ 63) (2 ^ 63 - 1) (.finite sign v) = none := by
  have hfloor : (2 : ℤ) ^ 64 ≤ ⌊v⌋ := Int.le_floor.2 (by exact_mod_cast h)
  have hround : (2 : ℤ) ^ 64 ≤ mode.round sign v := by
    rw [Mode.round]
    split <;> omega
  rw [Datum.toInteger]
  refine if_neg ?_
  cases sign with
  | false =>
    rw [if_neg Bool.false_ne_true]
    omega
  | true =>
    rw [if_pos rfl]
    omega

/-- Denormals are shifted by one place too many, which cannot be seen in the result. -/
theorem toInteger_tiny (mode : RoundingMode) (sign : Bool) {k k' : ℕ} (hk : 64 ≤ k) (hk' : 64 ≤ k')
    (hlt : n < 2 ^ 63) :
    Datum.toInteger mode (-2 ^ 63) (2 ^ 63 - 1) (.finite sign ((n : ℚ) * 2 ^ (-(k : ℤ)))) =
      SoftFloat.inRange (SoftFloat.signedInt sign (mode.roundDiv sign n (2 ^ k')))
        (n % 2 ^ k' = 0) := by
  have hwidth {k : ℕ} (hk : 64 ≤ k) : 2 * n < 2 ^ k :=
    (show 2 * n < 2 ^ 64 by omega).trans_le (Nat.pow_le_pow_right two_pos hk)
  have hsame : n % 2 ^ k = n % 2 ^ k' := by
    rw [Nat.mod_eq_of_lt (by have := hwidth hk; omega),
      Nat.mod_eq_of_lt (by have := hwidth hk'; omega)]
  rw [mul_zpow_neg, toInteger_div mode sign (Nat.two_pow_pos _),
    Mode.roundDiv_of_lt (hwidth hk) (hwidth hk'), hsame]

theorem toInt64_finite (x : Float80) (mode : RoundingMode) (s : SoftFloat.State)
    (hx : x.Canonical) (hfinite : x.isFinite) :
    ((SoftFloat.extF80ToI64 x.toSF (SoftFloat.ofMode mode) true s).1.toInt,
        (SoftFloat.extF80ToI64 x.toSF (SoftFloat.ofMode mode) true s).2) =
      SoftFloat.i64Of s (Datum.toInteger mode (-2 ^ 63) (2 ^ 63 - 1)
        (.finite x.sign x.magnitude)) := by
  have hlt := biasedExponent_lt hfinite
  rw [SoftFloat.extF80ToI64, signExtF80UI64_toSF, show x.toSF.signif = x.man from rfl]
  simp only [exp_eq]
  rcases lt_trichotomy x.biasedExponent.toNat 0x403E with hbelow | hat | habove
  · obtain ⟨dist, hdist⟩ : ∃ dist, 0x403E - x.biasedExponent.toNat = dist := ⟨_, rfl⟩
    have hshift : (0x403E - (x.biasedExponent.toNat : ℤ)).toNat = dist := by omega
    rw [if_neg (by omega), hshift, SoftFloat.roundToI64_spec mode x.sign s
      (SoftFloat.shiftRightJam64Extra_discarded x.man (by omega))
      (SoftFloat.toNat_shiftRightJam64Extra_v x.man dist)]
    rcases Nat.eq_zero_or_pos x.biasedExponent.toNat with hzero | hpos
    · have hman : x.man.toNat < 2 ^ 63 := man_lt hx (by rw [exp_eq]; omega)
      have hmagnitude : x.magnitude = x.man.toNat * 2 ^ (-(16445 : ℕ) : ℤ) := by
        rw [magnitude, hzero]
        rfl
      rw [hmagnitude, toInteger_tiny mode x.sign (by decide) (show 64 ≤ dist by omega) hman]
    · rw [magnitude_div hbelow.le hpos, hdist, toInteger_div mode x.sign (Nat.two_pow_pos _)]
  · rw [if_pos (by omega), if_neg (by omega)]
    rw [SoftFloat.roundToI64_spec (n := x.man.toNat) mode x.sign s
      (by rw [Nat.mod_one]; exact SoftFloat.discarded_nothing) (Nat.div_one _).symm,
      magnitude_div hat.le (by omega), hat, Nat.sub_self, pow_zero,
      toInteger_div mode x.sign Nat.one_pos]
  · have hman : 2 ^ 63 ≤ x.man.toNat := le_man hx (by rw [exp_eq]; omega)
    have hlarge : (2 : ℚ) ^ 64 ≤ x.magnitude := by
      have hman' : (2 : ℚ) ^ (63 : ℤ) ≤ x.man.toNat := by exact_mod_cast hman
      have hpow : (2 : ℚ) ^ (1 : ℤ) ≤ 2 ^ (max (x.biasedExponent.toNat : ℤ) 1 - 16446) :=
        zpow_le_zpow_right₀ one_le_two (by omega)
      calc (2 : ℚ) ^ 64 = 2 ^ (63 : ℤ) * 2 ^ (1 : ℤ) := by norm_num
        _ ≤ x.magnitude := mul_le_mul hman' hpow (by positivity) (Nat.cast_nonneg _)
    rw [if_pos (by omega), if_pos (by omega), toInteger_large mode x.sign hlarge]
    rfl

/-- A number is rounded as the environment says; what is out of range, an infinity and a NaN are
invalid, and the smallest integer comes out. -/
theorem toInt64_returns (x : Float80) (env : SoftFloat.State) (mode : RoundingMode)
    (precision : Precision) (hx : x.Canonical) :
    ((x.toInt64 (FloatEnv.configured env mode precision)).1.toInt,
        (x.toInt64 (FloatEnv.configured env mode precision)).2) =
      SoftFloat.i64Of (FloatEnv.configured env mode precision)
        (Datum.toInteger mode (-2 ^ 63) (2 ^ 63 - 1) x.datum) := by
  rw [toInt64, FloatEnv.configured_roundingMode]
  have hother (hexp : SoftFloat.expExtF80UI64 x.toSF.signExp = 0x7FFF) (s : SoftFloat.State) :
      SoftFloat.extF80ToI64 x.toSF (SoftFloat.ofMode mode) true s =
        (SoftFloat.i64FromOverflow, SoftFloat.raiseFlags SoftFloat.flagInvalid s) := by
    rw [SoftFloat.extF80ToI64]
    simp only [hexp]
    rw [if_pos (by decide), if_pos (by decide)]
  rcases classes x with hfinite | hinfinite | hnan
  · rw [datum_of_isFinite hfinite]
    exact toInt64_finite x mode _ hx hfinite
  · rw [hother (of_isInfinite hinfinite).1, datum_of_isInfinite hinfinite]
    rfl
  · rw [hother (of_isNaN hnan).1, datum_of_isNaN hnan]
    rfl

theorem toInt64_returns_half :
    let x : Float80 := ⟨0xBFFE, 0x8000000000000000⟩
    let current := FloatEnv.configured ⟨.nearEven, 0, 80⟩ .down .extended
    ((x.toInt64 current).1.toInt, (x.toInt64 current).2) =
      SoftFloat.i64Of current (Datum.toInteger .down (-2 ^ 63) (2 ^ 63 - 1) x.datum) :=
  toInt64_returns _ _ .down .extended (by decide)

end ToInt64

section FromInt

def fromInt (value : Int64) : Float80 := fromSF (SoftFloat.i64ToExtF80 value)

theorem toNat_magnitude (value : Int64) :
    (if decide (value < 0) then -value.toUInt64 else value.toUInt64).toNat = value.toInt.natAbs := by
  have hneg : value < 0 ↔ value.toInt < 0 := by rw [Int64.lt_iff_toInt_lt, Int64.toInt_zero]
  have hlt := value.toUInt64.toNat_lt
  have hint := SoftFloat.toInt_toInt64 value.toUInt64
  rw [Int64.toInt64_toUInt64] at hint
  split
  · next h =>
    rw [decide_eq_true_iff, hneg] at h
    rw [UInt64.toNat_neg, UInt64.size]
    split at hint <;> omega
  · next h =>
    rw [decide_eq_true_iff, hneg] at h
    split at hint <;> omega

/-- Integers are represented exactly. -/
theorem represents_fromInt {value : Int64} (hne : value ≠ 0) :
    (fromInt value).Represents (decide (value < 0)) (.finite |(value.toInt : ℚ)|) := by
  obtain ⟨absA, habs⟩ :
      ∃ m, (if decide (value < 0) then -value.toUInt64 else value.toUInt64) = m := ⟨_, rfl⟩
  have hmagnitude := toNat_magnitude value
  rw [habs] at hmagnitude
  have hnonzero : absA ≠ 0 := by
    rw [SoftFloat.ne_zero_iff, hmagnitude, ne_eq, Int.natAbs_eq_zero, ← Int64.toInt_zero,
      Int64.toInt_inj]
    exact hne
  have hshift := countlZero_lt hnonzero
  obtain ⟨hnormalized, hlo⟩ := toNat_normalized hnonzero
  rw [fromInt, SoftFloat.i64ToExtF80, if_pos hne]
  simp only [habs]
  refine represents_fromSF (SoftFloat.encodes_normal ?_ ?_ ?_ ?_)
  · rw [SoftFloat.countLeadingZeros64]
    omega
  · omega
  · rw [SoftFloat.countLeadingZeros64, hnormalized]
    exact hlo
  · rw [SoftFloat.countLeadingZeros64, hnormalized, SoftFloat.cast_mul_two_pow, hmagnitude,
      Nat.cast_natAbs, Int.cast_abs]
    rw [show (0x403E - (countlZero absA : ℤ) - 16446 + countlZero absA) = 0 by omega, zpow_zero,
      mul_one]

theorem datum_fromInt (value : Int64) : (fromInt value).Canonical ∧
    (fromInt value).datum = .finite (decide (value < 0)) |(value.toInt : ℚ)| := by
  by_cases hne : value ≠ 0
  · obtain ⟨hfinite, hcanonical, hsign, hmagnitude⟩ := represents_fromInt hne
    exact ⟨hcanonical, by rw [datum_of_isFinite hfinite, hsign, hmagnitude]⟩
  · rw [not_not.1 hne]
    have hzero : (fromInt 0).magnitude = 0 := (magnitude_eq_zero_iff _).2 rfl
    refine ⟨by decide, ?_⟩
    rw [datum_of_isFinite (by decide), hzero, Int64.toInt_zero, Int.cast_zero, abs_zero]
    rfl

theorem toInteger_fromInt (mode : RoundingMode) (value : Int64) :
    Datum.toInteger mode (-2 ^ 63) (2 ^ 63 - 1)
      (.finite (decide (value < 0)) |(value.toInt : ℚ)|) = some (value.toInt, true) := by
  have hneg : value < 0 ↔ value.toInt < 0 := by rw [Int64.lt_iff_toInt_lt, Int64.toInt_zero]
  have hlo := value.le_toInt
  have hhi := value.toInt_lt
  have hsigned : (if decide (value < 0) then -|value.toInt| else |value.toInt|) = value.toInt := by
    simp only [decide_eq_true_iff, hneg]
    split
    · next h => rw [abs_of_neg h, neg_neg]
    · next h => exact abs_of_nonneg (not_lt.1 h)
  rw [Datum.toInteger, ← Int.cast_abs, Mode.round_intCast]
  simp only [hsigned]
  rw [if_pos (by omega), decide_true]

/-- Reading an integer back gives the same integer in every rounding mode, and raises no flag. -/
theorem fromInt_returns (value : Int64) (env : SoftFloat.State) (mode : RoundingMode)
    (precision : Precision) :
    ((fromInt value).Canonical ∧
      (fromInt value).datum = .finite (decide (value < 0)) |(value.toInt : ℚ)|) ∧
    (fromInt value).toInt64 (FloatEnv.configured env mode precision) =
      (value, FloatEnv.configured env mode precision) := by
  obtain ⟨hcanonical, hdatum⟩ := datum_fromInt value
  refine ⟨⟨hcanonical, hdatum⟩, ?_⟩
  have hfinite : (fromInt value).isFinite := by
    rcases classes (fromInt value) with h | h | h
    · exact h
    · rw [datum_of_isInfinite h] at hdatum
      cases hdatum
    · rw [datum_of_isNaN h] at hdatum
      cases hdatum
  have hread := toInt64_finite (fromInt value) mode (FloatEnv.configured env mode precision)
    hcanonical hfinite
  rw [datum_of_isFinite hfinite] at hdatum
  rw [hdatum, toInteger_fromInt, Prod.ext_iff] at hread
  exact Prod.ext (Int64.toInt_inj.1 hread.1) hread.2

end FromInt

end Float80

end Utlib
