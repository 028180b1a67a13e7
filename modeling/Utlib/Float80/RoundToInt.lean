import Utlib.Float80.Compare

/-! Numbers without a fraction. -/

namespace Utlib

open Utlib.Rounding

namespace SoftFloat

section RoundBits

variable {mode : Mode} {sign : Bool} {dist : ℕ} {sigA : UInt64}

theorem div_mul_mod {s d m : ℕ} (h : d ∣ m) : s % m / d * d = s / d * d % m := by
  obtain ⟨k, rfl⟩ := h
  rw [Nat.mod_mul_right_div_self, Nat.mul_comm (s / d % k), Nat.mul_comm (s / d),
    Nat.mul_mod_mul_left]

theorem toNat_lastBitMask (hlt : dist < 64) :
    ((1 : UInt64) <<< UInt64.ofNat dist).toNat = 2 ^ dist := by
  have hpow : 2 ^ dist < 2 ^ 64 := Nat.pow_lt_pow_right one_lt_two hlt
  have hmod : (UInt64.ofNat dist).toNat % 64 = dist := by
    rw [UInt64.toNat_ofNat']
    omega
  rw [UInt64.toNat_shiftLeft, hmod, UInt64.toNat_one, Nat.one_shiftLeft, Nat.mod_eq_of_lt hpow]

theorem toNat_pred_pow {mask : UInt64} (hmask : mask.toNat = 2 ^ dist) :
    (mask - 1).toNat = 2 ^ dist - 1 := by
  have hpos := Nat.two_pow_pos dist
  have hlt := mask.toNat_lt
  rw [UInt64.toNat_sub_of_le _ _ (UInt64.le_iff_toNat_le.2 (by rw [UInt64.toNat_one]; omega)), hmask,
    UInt64.toNat_one]

theorem toNat_half_pow {mask : UInt64} (hmask : mask.toNat = 2 ^ dist) :
    (mask >>> 1).toNat = 2 ^ dist / 2 := by
  rw [UInt64.toNat_shiftRight, hmask, Nat.shiftRight_eq_div_pow]
  rfl

/-- Clearing one more bit than the mask has. -/
theorem and_not_and_not {x mask : UInt64} :
    x &&& ~~~(mask + 1) &&& ~~~mask = x &&& ~~~(mask ||| (mask + 1)) := by
  apply UInt64.toBitVec_inj.1
  simp only [UInt64.toBitVec_and, UInt64.toBitVec_not, UInt64.toBitVec_or]
  rw [BitVec.and_assoc, BitVec.not_or, BitVec.and_comm (~~~(mask + 1).toBitVec)]

/-- What is kept of the significand, unless the sum wraps around. -/
theorem toNat_roundBits (mode : Mode) (sign : Bool) {mask : UInt64} (hmask : mask.toNat = 2 ^ dist)
    (hpos : 0 < dist) :
    (roundBits sign sigA mask (ofMode mode)).toNat =
      mode.roundDiv sign sigA.toNat (2 ^ dist) * 2 ^ dist % 2 ^ 64 := by
  have hpow : 2 ^ dist < 2 ^ 64 := hmask ▸ mask.toNat_lt
  have hdist : dist < 64 := (Nat.pow_lt_pow_iff_right one_lt_two).1 hpow
  have hpred := toNat_pred_pow hmask
  have hhalf := toNat_half_pow hmask
  have hsucc : mask - 1 + 1 = mask := by
    rw [UInt64.sub_add_cancel]
  have htwo : 0 < 2 ^ dist := Nat.two_pow_pos dist
  have heven : 2 ^ dist % 2 = 0 :=
    Nat.mod_eq_zero_of_dvd (dvd_pow_self 2 hpos.ne')
  have hdvd : 2 ^ dist ∣ 2 ^ 64 := Nat.pow_dvd_pow 2 hdist.le
  have hdvd' : 2 ^ (dist + 1) ∣ 2 ^ 64 := Nat.pow_dvd_pow 2 hdist
  -- truncation of the sum, when the number is not half-way between two integers
  have hplain {sum : UInt64} (htie : ¬mode.Tie sigA.toNat (2 ^ dist))
      (hsum : sum.toNat = (sigA.toNat + mode.increment sign (2 ^ dist)) % 2 ^ 64) :
      (sum &&& ~~~(mask - 1)).toNat =
        mode.roundDiv sign sigA.toNat (2 ^ dist) * 2 ^ dist % 2 ^ 64 := by
    rw [toNat_and_not_mask hpred, hsum, div_mul_mod hdvd, Mode.roundDiv_of_not_tie htwo heven htie]
  cases mode with
  | nearest =>
    have hsum : (sigA + mask >>> 1).toNat =
        (sigA.toNat + Mode.nearest.increment sign (2 ^ dist)) % 2 ^ 64 := by
      rw [UInt64.toNat_add, hhalf]
      rfl
    have hzero : (sigA + mask >>> 1) &&& (mask - 1) = 0 ↔
        Mode.nearest.Tie sigA.toNat (2 ^ dist) := by
      have hlt := Nat.mod_lt sigA.toNat htwo
      rw [← UInt64.toNat_inj, toNat_and_mask hpred, hsum, Nat.mod_mod_of_dvd _ hdvd,
        UInt64.toNat_zero, Mode.increment, Mode.Tie, and_iff_right rfl, Nat.add_mod]
      rw [Nat.mod_eq_of_lt (show 2 ^ dist / 2 < 2 ^ dist by omega)]
      generalize sigA.toNat % 2 ^ dist = r at *
      generalize 2 ^ dist = d at *
      constructor
      · intro h
        by_cases hfits : r + d / 2 < d
        · rw [Nat.mod_eq_of_lt hfits] at h
          omega
        · rw [Nat.mod_eq_sub_mod (by omega), Nat.mod_eq_of_lt (by omega)] at h
          omega
      · intro h
        rw [show r + d / 2 = d by omega, Nat.mod_self]
    have hmodes : ofMode .nearest = .nearEven := rfl
    rw [roundBits, hmodes, if_neg (by decide), if_pos rfl]
    simp only
    by_cases htie : Mode.nearest.Tie sigA.toNat (2 ^ dist)
    · have hboth : (sigA + mask >>> 1) &&& ~~~mask &&& ~~~(mask - 1) =
          (sigA + mask >>> 1) &&& ~~~((mask - 1) ||| (mask - 1 + 1)) := by
        rw [← and_not_and_not, hsucc]
      rw [if_pos (hzero.2 htie), hboth, toNat_and_not_mask (toNat_or_succ hdist hpred), hsum,
        div_mul_mod hdvd', Mode.roundDiv_of_tie htwo htie, Nat.pow_succ, Nat.mul_assoc,
        Nat.mul_comm 2]
    · rw [if_neg (hzero.not.2 htie)]
      exact hplain htie hsum
  | zero =>
    refine hplain (fun h => by cases h.1) ?_
    cases sign <;> exact (Nat.mod_eq_of_lt sigA.toNat_lt).symm
  | down =>
    cases sign with
    | false => exact hplain (fun h => by cases h.1) (Nat.mod_eq_of_lt sigA.toNat_lt).symm
    | true =>
      refine hplain (fun h => by cases h.1) ?_
      change (sigA + (mask - 1)).toNat = _
      rw [UInt64.toNat_add, hpred]
      rfl
  | up =>
    cases sign with
    | true => exact hplain (fun h => by cases h.1) (Nat.mod_eq_of_lt sigA.toNat_lt).symm
    | false =>
      refine hplain (fun h => by cases h.1) ?_
      change (sigA + (mask - 1)).toNat = _
      rw [UInt64.toNat_add, hpred]
      rfl

end RoundBits

end SoftFloat

namespace Float80

section RoundToInt

variable {x : Float80} {env : SoftFloat.State} {mode : RoundingMode} {sign : Bool} {exp : ℤ}
  {sigA : UInt64} {v : ℚ}

def roundToInt (x : Float80) (env : SoftFloat.State) : Option (Float80 × SoftFloat.State) :=
  (SoftFloat.extF80RoundToInt x.toSF env.roundingMode true env).map fun z => (fromSF z.1, z.2)

theorem and_signBit (x : Float80) :
    x.toSF.signExp &&& (0x8000 : UInt16) = (if x.sign then 1 else 0 : UInt16) <<< (15 : UInt16) := by
  have hbit : (0x8000 : UInt16).toNat = 2 ^ 15 := rfl
  have hmax := biasedExponent_le x
  have hse := toNat_se x
  apply UInt16.toNat_inj.1
  change (x.se &&& (0x8000 : UInt16)).toNat = _
  rw [UInt16.toNat_and, hbit, Nat.and_two_pow, Nat.testBit_eq_decide_div_mod_eq, hse]
  have hdiv : (2 ^ 15 * x.sign.toNat + x.biasedExponent.toNat) / 2 ^ 15 = x.sign.toNat := by omega
  rw [hdiv]
  cases x.sign <;> rfl

theorem pack_succ (sign : Bool) {exp : ℤ} (hlo : 0 ≤ exp) (hhi : exp < 0x7FFF) :
    SoftFloat.packToExtF80UI64 sign exp + 1 = SoftFloat.packToExtF80UI64 sign (exp + 1) := by
  lift exp to ℕ using hlo
  apply UInt16.toNat_inj.1
  rw [UInt16.toNat_add, toNat_pack sign (by omega), show (exp : ℤ) + 1 = (exp + 1 : ℕ) by omega,
    toNat_pack sign (by omega), UInt16.toNat_one, Nat.mod_eq_of_lt, Nat.add_assoc]
  cases sign <;> simp only [Bool.toNat_true, Bool.toNat_false] <;> omega

theorem signBit_ne_zero (sign : Bool) :
    decide ((if sign then 1 else 0 : UInt16) <<< 15 ≠ 0) = sign := by
  cases sign <;> rfl

theorem raiseFlags_ofFlags_inexact (s : SoftFloat.State) :
    FloatEnv.raiseFlags s (FloatFlags.ofFlags { inexact := true }) =
      SoftFloat.raiseFlags SoftFloat.flagInexact s := by
  have hflag : FloatFlags.ofFlags { inexact := true } &&& FloatFlags.all = SoftFloat.flagInexact := by
    decide
  rw [FloatEnv.raiseFlags, hflag, SoftFloat.raiseFlags]

theorem computes_integral (mode : RoundingMode) (s : SoftFloat.State) (v : ℚ)
    {z : SoftFloat.ExtFloat80 × SoftFloat.State}
    (h : (fromSF z.1).Represents sign (.finite (mode.round sign v : ℚ)))
    (hflags : z.2 = if (mode.round sign v : ℚ) = v then s
      else SoftFloat.raiseFlags SoftFloat.flagInexact s) :
    Computes s (Datum.roundToIntegral mode (.finite sign v)) (some z) := by
  obtain ⟨hfinite, hcanonical, hsign, hmagnitude⟩ := h
  refine ⟨z.1, ?_, hcanonical, ?_⟩
  · rw [Datum.roundToIntegral]
    refine congrArg some (Prod.ext rfl ?_)
    rw [hflags]
    split
    · next heq =>
      rw [decide_eq_false (not_not.2 heq), FloatEnv.raiseFlags_ofFlags_empty]
    · next hne =>
      rw [decide_eq_true hne]
      exact (raiseFlags_ofFlags_inexact s).symm
  · rw [datum_of_isFinite hfinite, hsign, hmagnitude]
    rfl

/-- What lies below one goes to zero or to one. -/
theorem round_below_one (mode : RoundingMode) (sign : Bool) (hpos : 0 < v) (hlt : v < 1)
    (hhalf : 1 < 2 * v ↔ sigA &&& 0x7FFFFFFFFFFFFFFF ≠ 0 ∧ exp = 0x3FFE) :
    mode.round sign v = if SoftFloat.mag1 sign exp sigA (SoftFloat.ofMode mode) then 1 else 0 := by
  have hfloor : ⌊v⌋ = 0 := Int.floor_eq_zero_iff.2 ⟨hpos.le, hlt⟩
  have hfract : Int.fract v = v := Int.fract_eq_self.2 ⟨hpos.le, hlt⟩
  have hincrements : mode.Increments sign 0 v ↔
      SoftFloat.mag1 sign exp sigA (SoftFloat.ofMode mode) = true := by
    cases mode with
    | nearest =>
      have heven : ¬(2 * v = 1 ∧ ¬Even (0 : ℤ)) := fun h => h.2 Even.zero
      simp only [Mode.Increments, SoftFloat.ofMode, SoftFloat.mag1, or_iff_left heven, hhalf,
        Bool.and_eq_true, decide_eq_true_iff]
    | zero => exact iff_of_false id Bool.false_ne_true
    | down => exact (and_iff_left hpos.ne')
    | up =>
      refine (and_iff_left hpos.ne').trans ?_
      cases sign
      · exact iff_of_true rfl rfl
      · exact iff_of_false (Ne.symm Bool.false_ne_true) Bool.false_ne_true
  rw [Mode.round, hfloor, hfract, zero_add]
  simp only [hincrements]

theorem represents_one (sign : Bool) :
    (fromSF ⟨(if sign then 1 else 0 : UInt16) <<< 15 ||| 0x3FFF, 0x8000000000000000⟩).Represents sign
      (.finite ((1 : ℤ) : ℚ)) := by
  have hexp : UInt16.ofInt 0x3FFF = 0x3FFF := by decide
  have hsig : (0x8000000000000000 : UInt64).toNat = 2 ^ 63 := rfl
  have hpack : (if sign then 1 else 0 : UInt16) <<< 15 ||| 0x3FFF =
      SoftFloat.packToExtF80UI64 sign 0x3FFF := by
    rw [SoftFloat.packToExtF80UI64, hexp]
  rw [hpack]
  refine represents_fromSF (SoftFloat.encodes_normal (by decide) (by decide) hsig.ge ?_)
  rw [hsig]
  norm_num

theorem represents_zero (sign : Bool) :
    (fromSF ⟨(if sign then 1 else 0 : UInt16) <<< 15, 0⟩).Represents sign
      (.finite ((0 : ℤ) : ℚ)) := by
  have hpack : (if sign then 1 else 0 : UInt16) <<< 15 = SoftFloat.packToExtF80UI64 sign 0 :=
    UInt16.or_zero.symm
  rw [hpack]
  refine represents_fromSF ⟨le_rfl, by decide, by decide, ?_⟩
  rw [Int.cast_zero, UInt64.toNat_zero, Nat.cast_zero, zero_mul]

theorem computes_below_one (x : Float80) (mode : RoundingMode) (s : SoftFloat.State)
    (hexp : exp ≤ 0x3FFE) (hpos : 0 < v) (hlt : v < 1)
    (hhalf : 1 < 2 * v ↔ sigA &&& 0x7FFFFFFFFFFFFFFF ≠ 0 ∧ exp = 0x3FFE) :
    Computes s (Datum.roundToIntegral mode (.finite x.sign v))
      (some (SoftFloat.roundSigToInt (x.toSF.signExp &&& 0x8000) exp sigA (SoftFloat.ofMode mode)
        true s)) := by
  have hround := round_below_one mode x.sign hpos hlt hhalf
  have hne : ¬(mode.round x.sign v : ℚ) = v := by
    rw [hround]
    split
    · exact_mod_cast hlt.ne'
    · exact_mod_cast hpos.ne
  rw [SoftFloat.roundSigToInt, and_signBit, signBit_ne_zero, if_pos hexp]
  refine computes_integral mode s v ?_ ?_
  · rw [hround]
    by_cases hone : SoftFloat.mag1 x.sign exp sigA (SoftFloat.ofMode mode) = true
    · rw [if_pos hone, if_pos hone]
      exact represents_one x.sign
    · rw [if_neg hone, if_neg hone]
      exact represents_zero x.sign
  · rw [if_neg hne]
    rfl

/-- The kept bits are those of the rounded quotient, with the next exponent after a carry. -/
theorem represents_between (mode : RoundingMode) (sign : Bool) {dist : ℕ} {sig : UInt64}
    (hlo : 0 < dist) (hhi : dist < 64) (hsigA : 2 ^ 63 ≤ sigA.toNat)
    (hsig : sig.toNat = mode.roundDiv sign sigA.toNat (2 ^ dist) * 2 ^ dist % 2 ^ 64) :
    let pack := SoftFloat.packToExtF80UI64 sign (0x403E - dist)
    let z : SoftFloat.ExtFloat80 :=
      if sig = 0 then ⟨pack + 1, 0x8000000000000000⟩ else ⟨pack, sig⟩
    (fromSF z).Represents sign (.finite (mode.roundDiv sign sigA.toNat (2 ^ dist) : ℕ)) ∧
      (z.signif ≠ sigA ↔ sigA.toNat % 2 ^ dist ≠ 0) := by
  obtain ⟨q, hq⟩ : ∃ q, mode.roundDiv sign sigA.toNat (2 ^ dist) = q := ⟨_, rfl⟩
  have hpos := Nat.two_pow_pos dist
  have hlt := sigA.toNat_lt
  have hsplit : 2 ^ (64 - dist) * 2 ^ dist = 2 ^ 64 := by
    rw [← pow_add, Nat.sub_add_cancel hhi.le]
  have hsplit' : 2 ^ (63 - dist) * 2 ^ dist = 2 ^ 63 := by
    rw [← pow_add, Nat.sub_add_cancel (by omega)]
  have hbounds := mode.le_roundDiv sign sigA.toNat (2 ^ dist)
  have hfloor : 2 ^ (63 - dist) ≤ sigA.toNat / 2 ^ dist := by
    rwa [Nat.le_div_iff_mul_le hpos, hsplit']
  have hceil : sigA.toNat / 2 ^ dist < 2 ^ (64 - dist) := by
    rwa [Nat.div_lt_iff_lt_mul hpos, hsplit]
  have hexact : mode.roundDiv sign sigA.toNat (2 ^ dist) * 2 ^ dist = sigA.toNat ↔
      sigA.toNat % 2 ^ dist = 0 := Mode.roundDiv_mul_eq_iff hpos
  have hhigh : (0x8000000000000000 : UInt64).toNat = 2 ^ 63 := rfl
  rw [hq] at hsig hbounds hexact
  rw [hq]
  have hvalue (r : ℕ) (e : ℤ) (k : ℕ) (h : e + k = 16446) :
      ((r * 2 ^ k : ℕ) : ℚ) * 2 ^ (e - 16446) = r := by
    rw [SoftFloat.cast_mul_two_pow, show e - 16446 + k = 0 by omega, zpow_zero, mul_one]
  rcases (show q ≤ 2 ^ (64 - dist) by omega).lt_or_eq with hsmall | hwraps
  · have hfits : q * 2 ^ dist < 2 ^ 64 := by
      rw [← hsplit]
      exact Nat.mul_lt_mul_of_pos_right hsmall hpos
    have hlarge : 2 ^ 63 ≤ q * 2 ^ dist := by
      rw [← hsplit']
      exact Nat.mul_le_mul_right _ (hfloor.trans hbounds.1)
    rw [Nat.mod_eq_of_lt hfits] at hsig
    have hne : sig ≠ 0 := SoftFloat.ne_zero_iff.2 (by omega)
    dsimp only
    rw [if_neg hne]
    refine ⟨represents_fromSF (SoftFloat.encodes_normal (by omega) (by omega) (by omega) ?_), ?_⟩
    · rw [hsig, hvalue q _ dist (by omega)]
    · rw [ne_eq, ← UInt64.toNat_inj, hsig, hexact]
  · have hzero : sig = 0 := by
      rw [hwraps, hsplit, Nat.mod_self] at hsig
      exact UInt64.toNat_inj.1 hsig
    dsimp only
    rw [if_pos hzero, pack_succ sign (by omega) (by omega)]
    refine ⟨represents_fromSF (SoftFloat.encodes_normal (by omega) (by omega) hhigh.ge ?_), ?_⟩
    · rw [hhigh, hwraps]
      have hcast : (2 : ℕ) ^ 63 = 2 ^ (64 - dist) * 2 ^ (dist - 1) := by
        rw [← pow_add]
        congr 1
        omega
      rw [hcast, hvalue _ _ (dist - 1) (by omega)]
    · -- the wrapped number is not the operand, which is smaller than the carry
      have hup : sigA.toNat % 2 ^ dist ≠ 0 := by
        intro hdvd
        have hsame := hexact.2 hdvd
        rw [hwraps, hsplit] at hsame
        omega
      refine iff_of_true (fun heq => hup ?_) hup
      change (0x8000000000000000 : UInt64) = sigA at heq
      rw [← heq, hhigh]
      exact Nat.mod_eq_zero_of_dvd (Nat.pow_dvd_pow 2 (by omega))

theorem computes_between (x : Float80) (mode : RoundingMode) (s : SoftFloat.State)
    (hlo : 0x3FFE < exp) (hhi : exp < 0x403E) (hsigA : 2 ^ 63 ≤ sigA.toNat)
    (hv : v = sigA.toNat * 2 ^ (exp - 16446)) :
    Computes s (Datum.roundToIntegral mode (.finite x.sign v))
      (some (SoftFloat.roundSigToInt (x.toSF.signExp &&& 0x8000) exp sigA (SoftFloat.ofMode mode)
        true s)) := by
  obtain ⟨dist, hdist⟩ : ∃ dist : ℕ, exp = 0x403E - dist := ⟨(0x403E - exp).toNat, by omega⟩
  have hshift : (0x403E - exp).toNat = dist := by omega
  have hquotient : v = sigA.toNat / (2 ^ dist : ℕ) := by
    rw [hv, show exp - 16446 = -(dist : ℤ) by omega, zpow_neg, zpow_natCast, Nat.cast_pow,
      Nat.cast_ofNat, div_eq_mul_inv]
  have hround : mode.round x.sign v = mode.roundDiv x.sign sigA.toNat (2 ^ dist) := by
    rw [hquotient, Mode.round_natCast_div (Nat.two_pow_pos dist)]
  have hexact : (mode.round x.sign v : ℚ) = v ↔ sigA.toNat % 2 ^ dist = 0 := by
    have hne : ((2 ^ dist : ℕ) : ℚ) ≠ 0 := Nat.cast_ne_zero.2 (Nat.two_pow_pos dist).ne'
    rw [hround, hquotient, eq_div_iff hne, Int.cast_natCast]
    exact Iff.trans (by exact_mod_cast Iff.rfl) (Mode.roundDiv_mul_eq_iff (Nat.two_pow_pos dist))
  have hlow : 0 < dist := by omega
  have hhigh : dist < 64 := by omega
  obtain ⟨hrepresents, hinexact⟩ := represents_between mode x.sign hlow hhigh hsigA
    (SoftFloat.toNat_roundBits mode x.sign (SoftFloat.toNat_lastBitMask hhigh) hlow)
  rw [← hdist] at hrepresents hinexact
  have hodd : ¬SoftFloat.ofMode mode = .odd := by cases mode <;> decide
  rw [SoftFloat.roundSigToInt, and_signBit, signBit_ne_zero, if_neg (by omega), hshift]
  simp only [if_neg hodd]
  rw [← SoftFloat.packToExtF80UI64]
  revert hrepresents hinexact
  generalize (if SoftFloat.roundBits x.sign sigA (1 <<< UInt64.ofNat dist) (SoftFloat.ofMode mode) = 0
    then (_ : SoftFloat.ExtFloat80) else _) = z
  intro hrepresents hinexact
  rw [← Int.cast_natCast, ← hround] at hrepresents
  rw [ne_eq (_ % _), ← hexact] at hinexact
  by_cases heq : (mode.round x.sign v : ℚ) = v
  · rw [if_neg (hinexact.not.2 (not_not.2 heq))]
    exact computes_integral mode s v hrepresents (if_pos heq).symm
  · rw [if_pos (hinexact.2 heq)]
    exact computes_integral mode s v hrepresents (if_neg heq).symm

/-- Large numbers have no fraction. -/
theorem computes_large (x : Float80) (mode : RoundingMode) (s : SoftFloat.State)
    (hlo : 0x403E ≤ exp) (hhi : exp < 0x7FFF) (hsigA : 2 ^ 63 ≤ sigA.toNat)
    (hv : v = sigA.toNat * 2 ^ (exp - 16446)) :
    Computes s (Datum.roundToIntegral mode (.finite x.sign v))
      (some (⟨x.toSF.signExp &&& 0x8000 ||| UInt16.ofInt exp, sigA⟩, s)) := by
  obtain ⟨k, hk⟩ : ∃ k : ℕ, exp - 16446 = k := ⟨(exp - 16446).toNat, by omega⟩
  have hinteger : v = ((sigA.toNat * 2 ^ k : ℕ) : ℤ) := by
    rw [hv, hk, zpow_natCast, Int.cast_natCast, Nat.cast_mul, Nat.cast_pow, Nat.cast_ofNat]
  have hround : (mode.round x.sign v : ℚ) = v := by rw [hinteger, Mode.round_intCast]
  refine computes_integral mode s v ?_ (if_pos hround).symm
  rw [hround, and_signBit, ← SoftFloat.packToExtF80UI64]
  exact represents_fromSF (SoftFloat.encodes_normal (by omega) hhi hsigA hv)

/-- Where a significand with the highest bit lies, when its exponent is small. -/
theorem below_one {n : ℕ} {e : ℤ} (hlo : 2 ^ 63 ≤ n) (hhi : n < 2 ^ 64) (he : e ≤ 0x3FFE)
    (hv : v = n * 2 ^ (e - 16446)) :
    0 < v ∧ v < 1 ∧ (1 < 2 * v ↔ n % 2 ^ 63 ≠ 0 ∧ e = 0x3FFE) := by
  have hn : (0 : ℚ) < n := by
    have : 0 < n := by omega
    exact_mod_cast this
  have hn' : (n : ℚ) < 2 ^ 64 := by exact_mod_cast hhi
  have hpow : (0 : ℚ) < 2 ^ (e - 16446) := zpow_pos two_pos _
  have hlt {k : ℕ} (hk : e + k ≤ 0x3FFE) : v * 2 ^ k < 1 := by
    have hsplit : (1 : ℚ) = 2 ^ 64 * 2 ^ (-64 - k : ℤ) * 2 ^ k := by
      rw [← zpow_natCast, ← zpow_natCast, ← zpow_add₀ two_ne_zero, ← zpow_add₀ two_ne_zero,
        show ((64 : ℕ) : ℤ) + (-64 - k) + k = 0 by push_cast; ring, zpow_zero]
    have hle : (2 : ℚ) ^ (e - 16446) ≤ 2 ^ (-64 - k : ℤ) :=
      zpow_le_zpow_right₀ one_le_two (by omega)
    rw [hsplit, hv]
    refine mul_lt_mul_of_pos_right ?_ (by positivity)
    exact mul_lt_mul hn' hle hpow (by positivity)
  refine ⟨hv ▸ mul_pos hn hpow, ?_, ?_⟩
  · have hone := hlt (k := 0) (by omega)
    rwa [pow_zero, mul_one] at hone
  · rcases he.lt_or_eq with hless | rfl
    · have htwo := hlt (k := 1) (by omega)
      rw [pow_one, mul_comm] at htwo
      exact iff_of_false (not_lt.2 htwo.le) fun h => hless.ne h.2
    · have hhalf : 1 < 2 * v ↔ 2 ^ 63 < n := by
        have hvalue : 2 * v = n / 2 ^ 63 := by
          rw [hv, show (0x3FFE : ℤ) - 16446 = -64 by norm_num, zpow_neg]
          norm_num
          ring
        rw [hvalue, one_lt_div (by positivity)]
        exact_mod_cast Iff.rfl
      rw [hhalf, and_iff_left rfl]
      omega

/-- The exponent may be one too small after the preparation of a denormal. -/
theorem computes_roundNormalized (x : Float80) (mode : RoundingMode) (s : SoftFloat.State) {e : ℤ}
    (hhi : exp < 0x7FFF) (hsigA : 2 ^ 63 ≤ sigA.toNat) (hv : v = sigA.toNat * 2 ^ (e - 16446))
    (he : e = exp ∨ exp ≤ 0 ∧ e = exp + 1) :
    Computes s (Datum.roundToIntegral mode (.finite x.sign v))
      (some (SoftFloat.roundNormalized x.toSF.signExp exp sigA (SoftFloat.ofMode mode) true s)) := by
  rw [SoftFloat.roundNormalized, if_neg hhi.ne]
  split
  · next hlarge =>
    obtain rfl : e = exp := by omega
    exact computes_large x mode s hlarge hhi hsigA hv
  · next hsmall =>
    by_cases hone : 0x3FFE < exp
    · obtain rfl : e = exp := by omega
      exact computes_between x mode s hone (by omega) hsigA hv
    · obtain ⟨hpos, hlt, hhalf⟩ := below_one hsigA sigA.toNat_lt (by omega) hv
      refine computes_below_one x mode s (by omega) hpos hlt ?_
      rw [hhalf, fraction_ne_zero_iff]
      exact and_congr_right' (by omega)

theorem computes_finite (hx : x.isFinite) (mode : RoundingMode) (s : SoftFloat.State) :
    Computes s (Datum.roundToIntegral mode (.finite x.sign x.magnitude))
      (SoftFloat.extF80RoundToInt x.toSF (SoftFloat.ofMode mode) true s) := by
  have hfinite := exp_ne_of_isFinite hx
  have hlt := biasedExponent_lt hx
  rw [SoftFloat.extF80RoundToInt, show x.toSF.signif = x.man from rfl]
  split
  · next hsmall =>
    split
    · next hman =>
      have hzero : x.magnitude = 0 := (magnitude_eq_zero_iff x).2 hman
      have hround : mode.round x.sign (0 : ℚ) = 0 := by
        have hcast := Mode.round_intCast (K := ℚ) mode x.sign 0
        rwa [Int.cast_zero] at hcast
      rw [hzero]
      refine computes_integral mode s 0 ?_ ?_
      · rw [hround, and_signBit]
        exact represents_zero x.sign
      · rw [hround, if_pos Int.cast_zero]
    · next hman =>
      have hshift := countlZero_lt hman
      obtain ⟨hnormalized, hlo⟩ := toNat_normalized hman
      rw [normSubnormalExtF80Sig_eq hman, Option.bind_eq_bind, Option.bind_some,
        expExtF80UI64_toSF]
      refine computes_roundNormalized (e := max (x.biasedExponent.toNat : ℤ) 1 - countlZero x.man)
        x mode s (by dsimp only; omega) ?_ ?_ (by dsimp only; omega)
      · dsimp only
        omega
      · dsimp only
        rw [hnormalized, SoftFloat.cast_mul_two_pow, magnitude]
        congr 2
        omega
  · next hlarge =>
    have hhigh : 2 ^ 63 ≤ x.man.toNat :=
      SoftFloat.and_highBit_ne_zero_iff.1 fun hzero => hlarge ⟨hzero, hfinite⟩
    rw [expExtF80UI64_toSF]
    exact computes_roundNormalized x mode s (by omega) hhigh rfl (by omega)

theorem computes_roundToInt (x : Float80) (mode : RoundingMode) (s : SoftFloat.State) :
    Computes s (Datum.roundToIntegral mode x.datum)
      (SoftFloat.extF80RoundToInt x.toSF (SoftFloat.ofMode mode) true s) := by
  rcases classes x with hfinite | hinfinite | hnan
  · rw [datum_of_isFinite hfinite]
    exact computes_finite hfinite mode s
  · obtain ⟨hexp, hfraction⟩ := of_isInfinite hinfinite
    have hpack : x.toSF.signExp &&& 0x8000 ||| UInt16.ofInt 0x7FFF =
        SoftFloat.packToExtF80UI64 x.sign 0x7FFF := by
      rw [and_signBit, SoftFloat.packToExtF80UI64]
    rw [SoftFloat.extF80RoundToInt, if_neg (fun h => h.2 hexp), hexp, SoftFloat.roundNormalized,
      if_pos (by decide), if_pos rfl, if_neg hfraction, hpack, datum_of_isInfinite hinfinite]
    exact computes_exact (datum_packInfinity x.sign)
  · obtain ⟨hexp, hfraction⟩ := of_isNaN hnan
    have hzero : isSignalingNaN ⟨0, 0⟩ = false := by decide
    rw [SoftFloat.extF80RoundToInt, if_neg (fun h => h.2 hexp), hexp, SoftFloat.roundNormalized,
      if_pos (by decide), if_pos rfl, if_pos hfraction, datum_of_isNaN hnan]
    have hcomputes := computes_propagateNaN (y := ⟨0, 0⟩) s (.inl hnan)
    rwa [hzero, Bool.or_false] at hcomputes

/-- The operand is rounded to an integer in the rounding mode of the environment. The precision does
not matter. -/
theorem roundToInt_returns (x : Float80) (env : SoftFloat.State) (mode : RoundingMode)
    (precision : Precision) :
    Returns (FloatEnv.configured env mode precision) (Datum.roundToIntegral mode x.datum)
      (x.roundToInt (FloatEnv.configured env mode precision)) := by
  rw [roundToInt, FloatEnv.configured_roundingMode]
  exact (computes_roundToInt x mode _).returns

end RoundToInt

end Float80

end Utlib
