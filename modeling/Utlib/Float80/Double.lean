import Utlib.Float80.Datum

/-! The conversions from and to doubles, which keep every double as it is. -/

namespace Utlib

open Utlib.Rounding

namespace SoftFloat

section Fields

def signF64UI (a : UInt64) : Bool := a >>> 63 ≠ 0

def expF64UI (a : UInt64) : ℤ := (a >>> 52 &&& 0x7FF).toNat

def fracF64UI (a : UInt64) : UInt64 := a &&& 0x000FFFFFFFFFFFFF

def packToF64UI (sign : Bool) (exp : ℤ) (sig : UInt64) : UInt64 :=
  (if sign then 1 else 0 : UInt64) <<< 63 + UInt64.ofInt exp <<< 52 + sig

def isSigNaNF64UI (a : UInt64) : Bool :=
  a &&& 0x7FF8000000000000 = 0x7FF0000000000000 && a &&& 0x0007FFFFFFFFFFFF ≠ 0

variable (a : UInt64)

theorem expF64UI_eq : expF64UI a = (a.toNat / 2 ^ 52 % 2 ^ 11 : ℕ) := by
  have hmask : (0x7FF : UInt64).toNat = 2 ^ 11 - 1 := rfl
  rw [expF64UI, toNat_and_mask hmask, UInt64.toNat_shiftRight, Nat.shiftRight_eq_div_pow]
  rfl

theorem toNat_fracF64UI : (fracF64UI a).toNat = a.toNat % 2 ^ 52 :=
  toNat_and_mask rfl

theorem toNat_signF64UI : (signF64UI a).toNat = a.toNat / 2 ^ 63 := by
  have hlt := a.toNat_lt
  have hsign : signF64UI a = true ↔ a.toNat / 2 ^ 63 ≠ 0 := by
    rw [signF64UI, decide_eq_true_iff, ne_zero_iff, UInt64.toNat_shiftRight,
      Nat.shiftRight_eq_div_pow]
    exact Iff.rfl
  cases h : signF64UI a with
  | false =>
    rw [h] at hsign
    rw [Bool.toNat_false]
    simp only [Bool.false_eq_true, false_iff] at hsign
    omega
  | true =>
    have hne := hsign.1 h
    rw [Bool.toNat_true]
    omega

theorem packed_fits {s e n : ℕ} (hs : s ≤ 1) (h : e * 2 ^ 52 + n < 2 ^ 63) :
    ((s * 2 ^ 63 + ((e : ℤ) % 2 ^ 64).toNat % 2 ^ 64 * 2 ^ 52 % 2 ^ 64) % 2 ^ 64 + n) % 2 ^ 64 =
      s * 2 ^ 63 + e * 2 ^ 52 + n := by
  omega

theorem toNat_packToF64UI (sign : Bool) {e n : ℕ} {sig : UInt64} (hsig : sig.toNat = n)
    (h : e * 2 ^ 52 + n < 2 ^ 63) :
    (packToF64UI sign e sig).toNat = sign.toNat * 2 ^ 63 + e * 2 ^ 52 + n := by
  have hsign : ((if sign then 1 else 0 : UInt64) <<< 63).toNat = sign.toNat * 2 ^ 63 := by
    cases sign <;> rfl
  have hexp : (UInt64.ofInt e <<< 52).toNat =
      ((e : ℤ) % 2 ^ 64).toNat % 2 ^ 64 * 2 ^ 52 % 2 ^ 64 := by
    rw [UInt64.toNat_shiftLeft, Nat.shiftLeft_eq, UInt64.ofInt, UInt64.toNat_ofNat']
    rfl
  rw [packToF64UI, UInt64.toNat_add, UInt64.toNat_add, hsign, hexp, hsig,
    packed_fits (Bool.toNat_le sign) h]

variable {a}

/-- Packing its parts gives the word again. -/
theorem packToF64UI_eq {e n : ℕ} {sig : UInt64} (hsig : sig.toNat = n)
    (h : e * 2 ^ 52 + n = a.toNat % 2 ^ 63) : packToF64UI (signF64UI a) e sig = a := by
  have hsplit := Nat.div_add_mod a.toNat (2 ^ 63)
  have hlt := Nat.mod_lt a.toNat (Nat.two_pow_pos 63)
  apply UInt64.toNat_inj.1
  rw [toNat_packToF64UI _ hsig (h ▸ hlt), toNat_signF64UI, Nat.add_assoc, h, Nat.mul_comm, hsplit]

end Fields

section CommonNaN

/-- Without its second word, which no conversion between these formats reads. -/
structure CommonNaN where
  sign : Bool
  v64 : UInt64

def f64UIToCommonNaN (a : UInt64) (s : State) : CommonNaN × State :=
  (⟨a >>> 63 ≠ 0, a <<< 12⟩, if isSigNaNF64UI a then raiseFlags flagInvalid s else s)

def commonNaNToExtF80UI (a : CommonNaN) : ExtFloat80 :=
  ⟨(if a.sign then 1 else 0 : UInt16) <<< 15 ||| 0x7FFF,
    (0xC000000000000000 : UInt64) ||| a.v64 >>> (1 : UInt64)⟩

def extF80UIToCommonNaN (a : ExtFloat80) (s : State) : CommonNaN × State :=
  (⟨a.signExp >>> 15 ≠ 0, a.signif <<< 1⟩,
    if isSigNaNExtF80UI a then raiseFlags flagInvalid s else s)

def commonNaNToF64UI (a : CommonNaN) : UInt64 :=
  (if a.sign then 1 else 0 : UInt64) <<< (63 : UInt64) ||| 0x7FF8000000000000 |||
    a.v64 >>> (12 : UInt64)

end CommonNaN

section Conversions

def normSubnormalF64Sig (sig : UInt64) : ExpSig :=
  let shiftDist := countLeadingZeros64 sig - 11
  ⟨1 - shiftDist, sig <<< UInt64.ofNat shiftDist⟩

def f64ToExtF80 (a : UInt64) (s : State) : ExtFloat80 × State :=
  let sign := signF64UI a
  let exp := expF64UI a
  let frac := fracF64UI a
  if exp = 0x7FF then
    if frac ≠ 0 then
      let commonNaN := f64UIToCommonNaN a s
      (commonNaNToExtF80UI commonNaN.1, commonNaN.2)
    else (packInfinity sign, s)
  else if exp = 0 ∧ frac = 0 then (packZero sign, s)
  else
    let normExpSig := if exp = 0 then normSubnormalF64Sig frac else ⟨exp, frac⟩
    (⟨packToExtF80UI64 sign (normExpSig.exp + 0x3C00),
      (normExpSig.sig ||| 0x0010000000000000) <<< 11⟩, s)

def shortShiftRightJam64 (a : UInt64) (dist : ℕ) : UInt64 :=
  a >>> UInt64.ofNat dist ||| if a &&& (1 <<< UInt64.ofNat dist - 1) ≠ 0 then 1 else 0

/-- The end of `roundPackToF64`. -/
def packRounded (sign : Bool) (exp : ℤ) (sig roundIncrement : UInt64) (s : State) :
    UInt64 × State :=
  let roundBits := sig &&& 0x3FF
  let sig := (sig + roundIncrement) >>> 10
  let t := if roundBits ≠ 0 then raiseFlags flagInexact s else s
  if roundBits ≠ 0 ∧ s.roundingMode = .odd then (packToF64UI sign exp (sig ||| 1), t)
  else
    let sig := sig &&& ~~~if roundBits = 0x200 ∧ s.roundingMode = .nearEven then 1 else 0
    (packToF64UI sign (if sig = 0 then 0 else exp) sig, t)

def roundPackToF64 (sign : Bool) (exp : ℤ) (sig : UInt64) (s : State) : UInt64 × State :=
  let roundIncrement := selectIncrement s.roundingMode sign 0x200 0x3FF
  -- the exponent is compared as a number of 16 bits without a sign
  let nearBounds : Bool := 0x7FD ≤ exp % 2 ^ 16
  if nearBounds ∧ exp < 0 then
    let isTiny := detectTininess = .beforeRounding ∨ exp < -1 ∨
      sig + roundIncrement < 0x8000000000000000
    let sig := shiftRightJam64 sig (-exp).toNat
    packRounded sign 0 sig roundIncrement
      (if isTiny ∧ sig &&& 0x3FF ≠ 0 then raiseFlags flagUnderflow s else s)
  else if nearBounds ∧ (0x7FD < exp ∨ 0x8000000000000000 ≤ sig + roundIncrement) then
    (packToF64UI sign 0x7FF 0 - if roundIncrement = 0 then 1 else 0,
      raiseFlags (flagOverflow ||| flagInexact) s)
  else packRounded sign exp sig roundIncrement s

/-- The exponent is cut off as it is where it has to fit into 16 bits. -/
def extF80ToF64 (a : ExtFloat80) (s : State) : UInt64 × State :=
  let sign := signExtF80UI64 a.signExp
  let exp := expExtF80UI64 a.signExp
  let sig := a.signif
  if exp = 0 ∧ sig = 0 then (packToF64UI sign 0 0, s)
  else if exp = 0x7FFF then
    if sig &&& 0x7FFFFFFFFFFFFFFF ≠ 0 then
      let commonNaN := extF80UIToCommonNaN a s
      (commonNaNToF64UI commonNaN.1, commonNaN.2)
    else (packToF64UI sign 0x7FF 0, s)
  else roundPackToF64 sign (max (exp - 0x3C01) (-0x1000)) (shortShiftRightJam64 sig 1) s

end Conversions

section Exact

variable {sign : Bool} {exp : ℤ} {sig increment : UInt64} {s : State} {m : ℕ}

theorem packRounded_exact (hsig : sig.toNat = m * 2 ^ 10) (hpos : 0 < m) (hlt : m < 2 ^ 53)
    (hincrement : increment.toNat < 2 ^ 10) :
    packRounded sign exp sig increment s = (packToF64UI sign exp (UInt64.ofNat m), s) := by
  have hmask : (0x3FF : UInt64).toNat = 2 ^ 10 - 1 := rfl
  have hbits : sig &&& 0x3FF = 0 := by
    apply UInt64.toNat_inj.1
    rw [toNat_and_mask hmask, hsig, Nat.mul_mod_left]
    rfl
  have hm : (UInt64.ofNat m).toNat = m := by
    rw [UInt64.toNat_ofNat']
    omega
  have hshift : (sig + increment) >>> 10 = UInt64.ofNat m := by
    apply UInt64.toNat_inj.1
    rw [UInt64.toNat_shiftRight, Nat.shiftRight_eq_div_pow, UInt64.toNat_add, hsig, hm]
    change (m * 2 ^ 10 + increment.toNat) % 2 ^ 64 / 2 ^ 10 = m
    omega
  have hne : UInt64.ofNat m ≠ 0 := by
    rw [ne_zero_iff, hm]
    omega
  rw [packRounded]
  simp only [hbits, hshift]
  have hkeep : UInt64.ofNat m &&& ~~~0 = UInt64.ofNat m := by
    apply UInt64.toBitVec_inj.1
    simp
  have htie : ¬((0 : UInt64) = 0x200 ∧ s.roundingMode = .nearEven) :=
    fun h => absurd h.1 (by decide)
  rw [if_neg (fun h => h.1 rfl), if_neg htie, hkeep, if_neg hne, if_neg (not_not.2 rfl)]

theorem selectIncrement_lt (mode : RoundMode) (sign : Bool) :
    (selectIncrement mode sign 0x200 0x3FF).toNat < 2 ^ 10 := by
  cases mode <;> cases sign <;> decide

/-- The exponent and the significand of a nonzero finite number, whose word without the sign is
`n`. -/
inductive Unpacks (n : ℕ) : ℤ → ℕ → Prop
  | normal (e f : ℕ) (hf : f < 2 ^ 52) (he : e < 0x7FE) (h : e * 2 ^ 52 + (2 ^ 52 + f) = n) :
    Unpacks n (e + 1) (2 ^ 52 + f)
  | subnormal (d : ℕ) (hd : 0 < d) (hle : d ≤ 52) (hlo : 2 ^ 52 ≤ n * 2 ^ d)
    (hhi : n * 2 ^ d < 2 ^ 53) : Unpacks n (1 - d) (n * 2 ^ d)

theorem Unpacks.bounds {n : ℕ} (h : Unpacks n exp m) :
    2 ^ 52 ≤ m ∧ m < 2 ^ 53 ∧ -52 < exp ∧ exp < 0x7FF := by
  cases h with
  | normal e f hf he h => omega
  | subnormal d hd hle hlo hhi => exact ⟨hlo, hhi, by omega, by omega⟩

variable {a : UInt64}

/-- Rounding a significand that a word has been unpacked to gives the word again. -/
theorem roundPackToF64_of_unpacks (h : Unpacks (a.toNat % 2 ^ 63) exp m)
    (hsig : sig.toNat = m * 2 ^ 10) : roundPackToF64 (signF64UI a) (exp - 1) sig s = (a, s) := by
  obtain ⟨increment, hselect⟩ : ∃ increment,
      selectIncrement s.roundingMode (signF64UI a) 0x200 0x3FF = increment := ⟨_, rfl⟩
  have hincrement : increment.toNat < 2 ^ 10 := by
    rw [← hselect]
    exact selectIncrement_lt _ _
  rw [roundPackToF64]
  simp only [hselect]
  cases h with
  | normal e f hf he h =>
    have hlow : ¬(0x8000000000000000 : UInt64) ≤ sig + increment := by
      rw [UInt64.le_iff_toNat_le, UInt64.toNat_add, hsig]
      change ¬2 ^ 63 ≤ ((2 ^ 52 + f) * 2 ^ 10 + increment.toNat) % 2 ^ 64
      omega
    have hcancel : ((e : ℤ) + 1 - 1) = e := by omega
    rw [hcancel, if_neg (by omega), if_neg (by simp only [hlow, or_false]; omega),
      packRounded_exact hsig (by omega) (by omega) hincrement]
    refine congrArg (·, s) (packToF64UI_eq ?_ h)
    rw [UInt64.toNat_ofNat']
    omega
  | subnormal d hd hle hlo hhi =>
    have hcancel : (1 - (d : ℤ) - 1) = -d := by omega
    have hdist : (- -(d : ℤ)).toNat = d := by omega
    have hpow : 1 < 2 ^ d := Nat.one_lt_two_pow hd.ne'
    have hjam : (shiftRightJam64 sig d).toNat = a.toNat % 2 ^ 63 * 2 ^ 10 := by
      have hdvd : a.toNat % 2 ^ 63 * 2 ^ d * 2 ^ 10 = a.toNat % 2 ^ 63 * 2 ^ 10 * 2 ^ d := by
        ring
      rw [toNat_shiftRightJam64 hd, hsig, hdvd, jam, Nat.mul_mod_left,
        Nat.mul_div_cancel _ (Nat.two_pow_pos d)]
      exact Nat.or_zero _
    have hpos : 0 < a.toNat % 2 ^ 63 := by
      by_contra hzero
      rw [Nat.eq_zero_of_not_pos hzero] at hlo
      omega
    have hsmall : a.toNat % 2 ^ 63 < 2 ^ 53 :=
      lt_of_le_of_lt (Nat.le_mul_of_pos_right _ hpow.le) hhi
    have hbits : ¬shiftRightJam64 sig d &&& 0x3FF ≠ 0 := by
      have hmask : (0x3FF : UInt64).toNat = 2 ^ 10 - 1 := rfl
      rw [and_mask_ne_zero_iff hmask, hjam, Nat.mul_mod_left]
      exact not_not.2 rfl
    rw [hcancel, if_pos ⟨by rw [decide_eq_true_iff]; omega, by omega⟩, hdist,
      if_neg (fun h => hbits h.2), packRounded_exact hjam hpos hsmall hincrement]
    refine congrArg (·, s) (packToF64UI_eq (e := 0) (n := a.toNat % 2 ^ 63) ?_ (by omega))
    rw [UInt64.toNat_ofNat']
    omega

theorem two_pow_or {f : ℕ} (hf : f < 2 ^ 52) : 2 ^ 52 ||| f = 2 ^ 52 + f :=
  (Nat.two_pow_add_eq_or_of_lt hf 1).symm

theorem toNat_orBit (hlt : sig.toNat < 2 ^ 52) :
    (sig ||| 0x0010000000000000).toNat = 2 ^ 52 + sig.toNat := by
  rw [← two_pow_or hlt, Nat.or_comm]
  exact UInt64.toNat_or _ _

theorem toNat_setBit (hlo : 2 ^ 52 ≤ sig.toNat) (hhi : sig.toNat < 2 ^ 53) :
    (sig ||| 0x0010000000000000).toNat = sig.toNat := by
  obtain ⟨f, hf⟩ := Nat.exists_eq_add_of_le hlo
  rw [UInt64.toNat_or, hf, ← two_pow_or (by omega)]
  change 2 ^ 52 ||| f ||| 2 ^ 52 = 2 ^ 52 ||| f
  rw [Nat.or_comm, ← Nat.or_assoc, Nat.or_self]

/-- A subnormal fraction is shifted until its highest bit is the hidden one of normal numbers. -/
theorem normSubnormalF64Sig_unpacks (hne : sig ≠ 0) (hlt : sig.toNat < 2 ^ 52) :
    Unpacks sig.toNat (normSubnormalF64Sig sig).exp
      ((normSubnormalF64Sig sig).sig ||| 0x0010000000000000).toNat := by
  obtain ⟨hnormalized, hlo⟩ := Float80.toNat_normalized hne
  have hhi : sig.toNat * 2 ^ Float80.countlZero sig < 2 ^ 64 := by
    rw [← hnormalized]
    exact UInt64.toNat_lt _
  have hwidth := Float80.countlZero_lt hne
  have hmany : 11 < Float80.countlZero sig := by
    by_contra hfew
    have hpow : 2 ^ Float80.countlZero sig ≤ 2 ^ 11 :=
      Nat.pow_le_pow_right two_pos (not_lt.1 hfew)
    have hprod := Nat.mul_le_mul_left sig.toNat hpow
    omega
  obtain ⟨d, hd⟩ := Nat.exists_eq_add_of_le hmany.le
  have hsplit : sig.toNat * 2 ^ Float80.countlZero sig = sig.toNat * 2 ^ d * 2 ^ 11 := by
    rw [hd]
    ring
  rw [hsplit] at hlo hhi
  have hshift : (sig <<< UInt64.ofNat d).toNat = sig.toNat * 2 ^ d := by
    have hmod : (UInt64.ofNat d).toNat % 64 = d := by
      rw [UInt64.toNat_ofNat']
      omega
    rw [UInt64.toNat_shiftLeft, hmod, Nat.shiftLeft_eq, Nat.mod_eq_of_lt]
    omega
  have hdist : countLeadingZeros64 sig - 11 = d := by
    rw [countLeadingZeros64]
    omega
  rw [normSubnormalF64Sig]
  simp only [hdist]
  rw [toNat_setBit, hshift]
  · exact .subnormal d (by omega) (by omega) (by omega) (by omega)
  · rw [hshift]
    omega
  · rw [hshift]
    omega

/-- The conversion of a nonzero finite number moves its parts. -/
theorem f64ToExtF80_unpacks (hexp : expF64UI a ≠ 0x7FF)
    (hne : ¬(expF64UI a = 0 ∧ fracF64UI a = 0)) :
    ∃ exp sig m, Unpacks (a.toNat % 2 ^ 63) exp m ∧ sig.toNat = m * 2 ^ 11 ∧
      f64ToExtF80 a s = (⟨packToExtF80UI64 (signF64UI a) (exp + 0x3C00), sig⟩, s) := by
  have hfrac := toNat_fracF64UI a
  have hmod := expF64UI_eq a
  have hshift {sig : UInt64} (hsig : sig.toNat < 2 ^ 53) :
      (sig <<< 11).toNat = sig.toNat * 2 ^ 11 := by
    rw [UInt64.toNat_shiftLeft, Nat.shiftLeft_eq]
    change sig.toNat * 2 ^ 11 % 2 ^ 64 = _
    rw [Nat.mod_eq_of_lt]
    omega
  rw [f64ToExtF80]
  simp only [if_neg hexp, if_neg hne]
  by_cases hzero : expF64UI a = 0
  · have hunpacks : Unpacks (fracF64UI a).toNat (normSubnormalF64Sig (fracF64UI a)).exp _ :=
      normSubnormalF64Sig_unpacks (fun h => hne ⟨hzero, h⟩) (by omega)
    rw [if_pos hzero]
    refine ⟨_, _, _, ?_, hshift hunpacks.bounds.2.1, rfl⟩
    convert hunpacks using 1
    omega
  · rw [if_neg hzero]
    have hor : (fracF64UI a ||| 0x0010000000000000).toNat = 2 ^ 52 + (fracF64UI a).toNat :=
      toNat_orBit (by omega)
    refine ⟨_, _, _, ?_, hshift (by dsimp only; omega), rfl⟩
    obtain ⟨e, he⟩ : ∃ e : ℕ, expF64UI a = e + 1 := ⟨(expF64UI a).toNat - 1, by omega⟩
    rw [hor, he]
    exact .normal e _ (by omega) (by omega) (by omega)

theorem toNat_shortShiftRightJam64 (sig : UInt64) :
    (shortShiftRightJam64 sig 1).toNat = jam sig.toNat 2 := by
  have hmask : (1 <<< UInt64.ofNat 1 - 1 : UInt64).toNat = 2 ^ 1 - 1 := rfl
  rw [shortShiftRightJam64, UInt64.toNat_or, toNat_shiftRight_of_lt (by decide), toNat_ite_ne_zero,
    toNat_and_mask hmask]
  rfl

theorem expExtF80UI64_pack (sign : Bool) (hlo : 0 ≤ exp) (hhi : exp ≤ 0x7FFF) :
    expExtF80UI64 (packToExtF80UI64 sign exp) = exp :=
  Float80.biasedExponent_pack sign 0 hlo hhi

theorem signExtF80UI64_pack (sign : Bool) (hlo : 0 ≤ exp) (hhi : exp ≤ 0x7FFF) :
    signExtF80UI64 (packToExtF80UI64 sign exp) = sign :=
  (Float80.signExtF80UI64_toSF (Float80.fromSF ⟨packToExtF80UI64 sign exp, 0⟩)).trans
    (Float80.sign_pack hlo hhi)

/-- The number that a double has been converted to is converted back without rounding. -/
theorem extF80ToF64_of_unpacks (h : Unpacks (a.toNat % 2 ^ 63) exp m)
    (hsig : sig.toNat = m * 2 ^ 11) :
    extF80ToF64 ⟨packToExtF80UI64 (signF64UI a) (exp + 0x3C00), sig⟩ s = (a, s) := by
  obtain ⟨hlo, hhi, hexp, hexp'⟩ := h.bounds
  have hlo' : 0 ≤ exp + 0x3C00 := by omega
  have hhi' : exp + 0x3C00 ≤ 0x7FFF := by omega
  have hcancel : max (exp + 0x3C00 - 0x3C01) (-0x1000) = exp - 1 := by omega
  rw [extF80ToF64]
  simp only [expExtF80UI64_pack _ hlo' hhi', signExtF80UI64_pack _ hlo' hhi', hcancel]
  rw [if_neg (by omega), if_neg (by omega)]
  apply roundPackToF64_of_unpacks h
  rw [toNat_shortShiftRightJam64, hsig]
  rcases jam_cases (m * 2 ^ 11) 2 with ⟨hzero, heq⟩ | ⟨hne, heq⟩ <;> omega

end Exact

section NaN

variable (a : UInt64)

theorem commonNaNToExtF80UI_eq (c : CommonNaN) : commonNaNToExtF80UI c =
    nonsignaling ⟨packToExtF80UI64 c.sign 0x7FFF, c.v64 >>> (1 : UInt64)⟩ := by
  have hpack : (if c.sign then 1 else 0 : UInt16) <<< 15 ||| 0x7FFF =
      packToExtF80UI64 c.sign 0x7FFF := by
    cases c.sign <;> rfl
  rw [commonNaNToExtF80UI, hpack, UInt64.or_comm]
  rfl

theorem nan_signExp (sign : Bool) : packToExtF80UI64 sign 0x7FFF &&& 0x7FFF = 0x7FFF := by
  cases sign <;> rfl

theorem commonNaN_datum (c : CommonNaN) :
    (Float80.fromSF (commonNaNToExtF80UI c)).Canonical ∧
      (Float80.fromSF (commonNaNToExtF80UI c)).datum = .nan false := by
  rw [commonNaNToExtF80UI_eq]
  exact Float80.nonsignaling_datum (nan_signExp c.sign)

theorem isNaN_of_datum {x : Float80} {s : Bool} (h : x.datum = .nan s) : x.isNaN := by
  rcases x.classes with hx | hx | hx
  · rw [Float80.datum_of_isFinite hx] at h
    cases h
  · rw [Float80.datum_of_isInfinite hx] at h
    cases h
  · exact hx

theorem and_shifted (n m k : ℕ) : n &&& m <<< k = (n >>> k &&& m) <<< k := by
  apply Nat.eq_of_testBit_eq
  intro i
  simp only [Nat.testBit_and, Nat.testBit_shiftLeft, Nat.testBit_shiftRight]
  by_cases hle : k ≤ i
  · simp [hle]
  · simp [hle]

/-- The highest bit of the fraction tells the two kinds of NaNs apart. -/
theorem isSigNaNF64UI_iff (hexp : expF64UI a = 0x7FF) (hne : fracF64UI a ≠ 0) :
    isSigNaNF64UI a = true ↔ (fracF64UI a).toNat < 2 ^ 51 := by
  have hmod := expF64UI_eq a
  have hfrac := toNat_fracF64UI a
  have hne' := ne_zero_iff.1 hne
  have hlow : a &&& 0x0007FFFFFFFFFFFF ≠ 0 ↔ a.toNat % 2 ^ 51 ≠ 0 := and_mask_ne_zero_iff rfl
  have hhigh : a &&& 0x7FF8000000000000 = 0x7FF0000000000000 ↔
      a.toNat / 2 ^ 51 % 2 ^ 12 = 0xFFE := by
    rw [← UInt64.toNat_inj, UInt64.toNat_and]
    change a.toNat &&& (2 ^ 12 - 1) <<< 51 = 0x7FF0000000000000 ↔ _
    rw [and_shifted, Nat.and_two_pow_sub_one_eq_mod, Nat.shiftLeft_eq, Nat.shiftRight_eq_div_pow]
    omega
  rw [isSigNaNF64UI, Bool.and_eq_true, decide_eq_true_iff, decide_eq_true_iff, hlow, hhigh]
  omega

theorem toNat_fraction {n : ℕ} (hn : n < 2 ^ 52) :
    (n * 2 ^ 11 ||| 0xC000000000000000) * 2 % 2 ^ 64 / 2 ^ 12 = n ||| 2 ^ 51 := by
  have hcut (x : ℕ) : x * 2 % 2 ^ 64 / 2 ^ 12 = x / 2 ^ 11 % 2 ^ 52 := by omega
  have hhigh : 0xC000000000000000 >>> 11 % 2 ^ 52 = 2 ^ 51 := by decide
  rw [hcut, ← Nat.shiftRight_eq_div_pow, Nat.shiftRight_or_distrib, Nat.or_mod_two_pow, hhigh,
    Nat.shiftRight_eq_div_pow, Nat.mul_div_cancel _ (Nat.two_pow_pos 11), Nat.mod_eq_of_lt hn]

theorem toNat_commonNaNToF64UI (c : CommonNaN) : (commonNaNToF64UI c).toNat =
    2 ^ 63 * c.sign.toNat ||| (2 ^ 52 * 0x7FF ||| 2 ^ 51) ||| (c.v64 >>> 12).toNat := by
  have hbit : ((if c.sign then 1 else 0 : UInt64) <<< 63).toNat = 2 ^ 63 * c.sign.toNat := by
    cases c.sign <;> rfl
  have hquiet : (0x7FF8000000000000 : UInt64).toNat = 2 ^ 52 * 0x7FF ||| 2 ^ 51 := rfl
  rw [commonNaNToF64UI, UInt64.toNat_or, UInt64.toNat_or, hbit, hquiet]

/-- The fraction of a NaN is what the common form keeps of it, and the highest bit gets set. -/
theorem commonNaN_word (hexp : expF64UI a = 0x7FF) :
    commonNaNToF64UI ⟨signF64UI a, (((a <<< 12) >>> 1) ||| 0xC000000000000000) <<< 1⟩ =
      a ||| 0x0008000000000000 := by
  have hmod := expF64UI_eq a
  have hsign := toNat_signF64UI a
  obtain ⟨f, hf⟩ : ∃ f, a.toNat % 2 ^ 52 = f := ⟨_, rfl⟩
  have hsmall : f < 2 ^ 52 := by omega
  have hfraction : ((((a <<< 12) >>> 1) ||| 0xC000000000000000) <<< 1 >>> 12).toNat =
      f ||| 2 ^ 51 := by
    have hmove : a.toNat * 2 ^ 12 % 2 ^ 64 / 2 ^ 1 = f * 2 ^ 11 := by omega
    rw [← toNat_fraction hsmall, UInt64.toNat_shiftRight, UInt64.toNat_shiftLeft,
      UInt64.toNat_or, UInt64.toNat_shiftRight, UInt64.toNat_shiftLeft, ← hmove]
    simp only [Nat.shiftLeft_eq, Nat.shiftRight_eq_div_pow]
    rfl
  have hword : a.toNat = 2 ^ 63 * (signF64UI a).toNat ||| (2 ^ 52 * 0x7FF ||| f) := by
    rw [← Nat.two_pow_add_eq_or_of_lt hsmall, ← Nat.two_pow_add_eq_or_of_lt (by omega)]
    omega
  have hone : (0x0008000000000000 : UInt64).toNat = 2 ^ 51 := rfl
  apply UInt64.toNat_inj.1
  rw [toNat_commonNaNToF64UI, UInt64.toNat_or, hfraction, hone, hword]
  ac_rfl

theorem extF80ToF64_nan (hexp : expF64UI a = 0x7FF) (s : State) :
    extF80ToF64 (commonNaNToExtF80UI ⟨signF64UI a, a <<< 12⟩) s =
      (a ||| 0x0008000000000000, s) := by
  obtain ⟨z, hz⟩ : ∃ z, commonNaNToExtF80UI ⟨signF64UI a, a <<< 12⟩ = z := ⟨_, rfl⟩
  have hdatum : (Float80.fromSF z).datum = .nan false := by
    rw [← hz]
    exact (commonNaN_datum _).2
  obtain ⟨hback, hfraction⟩ := Float80.of_isNaN (isNaN_of_datum hdatum)
  have hquiet : isSigNaNExtF80UI z = false := by
    have hsignaling := Float80.isSignaling_datum (Float80.fromSF z)
    rw [hdatum, ← Float80.isSigNaN_toSF] at hsignaling
    exact hsignaling.symm
  rw [commonNaNToExtF80UI_eq] at hz
  have hsign : signExtF80UI64 z.signExp = signF64UI a := by
    rw [← hz]
    exact signExtF80UI64_pack _ (by decide) (by decide)
  have hsignif : z.signif = (a <<< 12) >>> 1 ||| 0xC000000000000000 := by
    rw [← hz]
    rfl
  have hcommon : extF80UIToCommonNaN z s =
      (⟨signF64UI a, ((a <<< 12) >>> 1 ||| 0xC000000000000000) <<< 1⟩, s) := by
    rw [extF80UIToCommonNaN, hquiet, if_neg Bool.false_ne_true, ← hsign, hsignif]
    rfl
  change expExtF80UI64 z.signExp = 0x7FFF at hback
  change z.signif &&& 0x7FFFFFFFFFFFFFFF ≠ 0 at hfraction
  rw [commonNaNToExtF80UI_eq, hz, extF80ToF64]
  simp only [hback, hcommon]
  rw [if_neg (fun h => absurd h.1 (by decide)), if_pos trivial, if_pos hfraction,
    commonNaN_word a hexp]

variable {a}

theorem f64ToExtF80_nan (hexp : expF64UI a = 0x7FF) (hne : fracF64UI a ≠ 0) (s : State) :
    f64ToExtF80 a s = (commonNaNToExtF80UI ⟨signF64UI a, a <<< 12⟩,
      if isSigNaNF64UI a then raiseFlags flagInvalid s else s) := by
  rw [f64ToExtF80, if_pos hexp, if_pos hne]
  rfl

theorem f64ToExtF80_infinity (hexp : expF64UI a = 0x7FF) (hfrac : fracF64UI a = 0) (s : State) :
    f64ToExtF80 a s = (packInfinity (signF64UI a), s) := by
  rw [f64ToExtF80, if_pos hexp, if_neg (not_not.2 hfrac)]

theorem f64ToExtF80_zero (h : expF64UI a = 0 ∧ fracF64UI a = 0) (s : State) :
    f64ToExtF80 a s = (packZero (signF64UI a), s) := by
  rw [f64ToExtF80, if_neg (by rw [h.1]; decide), if_pos h]

theorem extF80ToF64_infinity (sign : Bool) (t : State) :
    extF80ToF64 (packInfinity sign) t = (packToF64UI sign 0x7FF 0, t) := by
  cases sign <;> rfl

theorem extF80ToF64_zero (sign : Bool) (t : State) :
    extF80ToF64 (packZero sign) t = (packToF64UI sign 0 0, t) := by
  cases sign <;> rfl

end NaN

end SoftFloat

namespace Float80

open SoftFloat

/-- The double is given by its word, as it is for the other direction. -/
def fromDouble (value : UInt64) (env : State) : Float80 × State :=
  let z := f64ToExtF80 value env
  (fromSF z.1, z.2)

def toDouble (x : Float80) (env : State) : UInt64 × State := extF80ToF64 x.toSF env

/-- What the words of doubles stand for. -/
def doubleDatum (value : UInt64) : Datum ℚ :=
  if expF64UI value = 0x7FF then
    if fracF64UI value = 0 then .infinite (signF64UI value)
    else .nan ((fracF64UI value).toNat < 2 ^ 51)
  else
    .finite (signF64UI value)
      (((if expF64UI value = 0 then 0 else 2 ^ 52) + (fracF64UI value).toNat : ℕ) *
        2 ^ (max (expF64UI value) 1 - 1075))

/-- A double after its conversions: of a NaN, the highest bit of the fraction is set. -/
def quietDouble (value : UInt64) : UInt64 :=
  if expF64UI value = 0x7FF ∧ fracF64UI value ≠ 0 then value ||| 0x0008000000000000 else value

variable {value : UInt64} {exp : ℤ} {m : ℕ}

theorem magnitude_of_unpacks (h : Unpacks (value.toNat % 2 ^ 63) exp m) :
    (((if expF64UI value = 0 then 0 else 2 ^ 52) + (fracF64UI value).toNat : ℕ) : ℚ) *
      2 ^ (max (expF64UI value) 1 - 1075) = m * 2 ^ (exp - 1075) := by
  have hmod := expF64UI_eq value
  have hfrac := toNat_fracF64UI value
  obtain ⟨n, hn⟩ : ∃ n, value.toNat % 2 ^ 63 = n := ⟨_, rfl⟩
  rw [hn] at h
  cases h with
  | normal e f hf he h =>
    have hexp : expF64UI value = e + 1 := by omega
    have hf' : (fracF64UI value).toNat = f := by omega
    rw [hexp, hf', if_neg (by omega), max_eq_left (by omega)]
  | subnormal d hd hle hlo hhi =>
    have hpow : 2 ^ 1 ≤ 2 ^ d := Nat.pow_le_pow_right two_pos hd
    have hsmall := lt_of_le_of_lt (Nat.mul_le_mul_left n hpow) hhi
    have hexp : expF64UI value = 0 := by omega
    have hn' : (fracF64UI value).toNat = n := by omega
    rw [hexp, hn', if_pos rfl, max_eq_right (by decide), Nat.zero_add, cast_mul_two_pow]
    congr 2
    omega

theorem computes_unpacked {sig : UInt64} (h : Unpacks (value.toNat % 2 ^ 63) exp m)
    (hsig : sig.toNat = m * 2 ^ 11) (sign : Bool) (env : State) :
    Computes env (.exact (.finite sign (m * 2 ^ (exp - 1075))))
      (some (⟨packToExtF80UI64 sign (exp + 0x3C00), sig⟩, env)) := by
  obtain ⟨hlo, hhi, hexp, hexp'⟩ := h.bounds
  refine computes_exact ?_
  have hencodes : Encodes (exp + 0x3C00) sig (.finite (m * 2 ^ (exp - 1075))) := by
    refine encodes_normal (by omega) (by omega) (by omega) ?_
    rw [hsig, cast_mul_two_pow]
    congr 2
    push_cast
    ring
  have hrepresents : (fromSF ⟨packToExtF80UI64 sign _, sig⟩).Represents sign _ :=
    represents_fromSF hencodes
  obtain ⟨hfinite, hcanonical, hsign, hmagnitude⟩ := hrepresents
  exact ⟨hcanonical, by rw [datum_of_isFinite hfinite, hsign, hmagnitude]⟩

/-- The conversion from doubles is exact, and quiets the signaling NaNs. -/
theorem computes_f64ToExtF80 (value : UInt64) (env : State) :
    Computes env (doubleDatum value).convert (some (f64ToExtF80 value env)) := by
  rw [doubleDatum]
  by_cases hexp : expF64UI value = 0x7FF
  · rw [if_pos hexp]
    by_cases hfrac : fracF64UI value = 0
    · rw [if_pos hfrac, f64ToExtF80_infinity hexp hfrac]
      exact computes_exact (datum_packInfinity _)
    · rw [if_neg hfrac, f64ToExtF80_nan hexp hfrac]
      refine ⟨_, ?_, commonNaN_datum ⟨signF64UI value, value <<< 12⟩⟩
      have hsignaling := isSigNaNF64UI_iff value hexp hfrac
      by_cases hlow : (fracF64UI value).toNat < 2 ^ 51
      · rw [if_pos (hsignaling.2 hlow), decide_eq_true hlow]
        rfl
      · rw [if_neg (fun h => hlow (hsignaling.1 h)), decide_eq_false hlow]
        exact congrArg (fun s => some (_, s)) (FloatEnv.raiseFlags_ofFlags_empty env).symm
  · rw [if_neg hexp]
    by_cases hzero : expF64UI value = 0 ∧ fracF64UI value = 0
    · rw [f64ToExtF80_zero hzero, hzero.1, hzero.2]
      have hmagnitude : (((if (0 : ℤ) = 0 then 0 else 2 ^ 52) + (0 : UInt64).toNat : ℕ) : ℚ) *
          2 ^ (max (0 : ℤ) 1 - 1075) = 0 := by
        simp
      rw [hmagnitude]
      exact computes_exact (datum_packZero _)
    · obtain ⟨exp, sig, m, hunpacks, hsig, heq⟩ := f64ToExtF80_unpacks (s := env) hexp hzero
      rw [heq, magnitude_of_unpacks hunpacks]
      exact computes_unpacked hunpacks hsig _ env

theorem packToF64UI_fields {e : ℕ} (hexp : expF64UI value = e) (hfrac : fracF64UI value = 0) :
    packToF64UI (signF64UI value) e 0 = value := by
  have hmod := expF64UI_eq value
  have hzero := toNat_fracF64UI value
  rw [hfrac, UInt64.toNat_zero] at hzero
  exact packToF64UI_eq (n := 0) rfl (by omega)

/-- Converting a converted double back neither rounds it nor raises a flag. -/
theorem extF80ToF64_f64ToExtF80 (value : UInt64) (env env' : State) :
    extF80ToF64 (f64ToExtF80 value env).1 env' = (quietDouble value, env') := by
  rw [quietDouble]
  by_cases hexp : expF64UI value = 0x7FF
  · by_cases hfrac : fracF64UI value = 0
    · rw [if_neg (fun h => h.2 hfrac), f64ToExtF80_infinity hexp hfrac, extF80ToF64_infinity]
      exact congrArg (·, env') (packToF64UI_fields (e := 0x7FF) hexp hfrac)
    · rw [if_pos ⟨hexp, hfrac⟩, f64ToExtF80_nan hexp hfrac, extF80ToF64_nan value hexp]
  · rw [if_neg (fun h => hexp h.1)]
    by_cases hzero : expF64UI value = 0 ∧ fracF64UI value = 0
    · rw [f64ToExtF80_zero hzero, extF80ToF64_zero]
      exact congrArg (·, env') (packToF64UI_fields (e := 0) hzero.1 hzero.2)
    · obtain ⟨exp, sig, m, hunpacks, hsig, heq⟩ := f64ToExtF80_unpacks (s := env) hexp hzero
      rw [heq, extF80ToF64_of_unpacks hunpacks hsig]

/-- Each double has its number among the 80-bit numbers, from which it is got back in each
rounding mode. -/
theorem fromDouble_toDouble (value : UInt64) (env env' : State) :
    Returns env (doubleDatum value).convert (some (fromDouble value env)) ∧
      (fromDouble value env).1.toDouble env' = (quietDouble value, env') :=
  ⟨(computes_f64ToExtF80 value env).returns, extF80ToF64_f64ToExtF80 value env env'⟩

end Float80

end Utlib
