import Utlib.Float80.Add

/-! Comparisons. -/

namespace Utlib.Float80

open Utlib.Rounding

section Order

variable {x y : Float80}

/-- The magnitude of what is not a NaN. -/
def extent (x : Float80) : WithTop ℚ := if x.isInfinite then ⊤ else x.magnitude

def key (x : Float80) : ℕ := x.biasedExponent.toNat * 2 ^ 64 + x.man.toNat

theorem number_datum (hx : ¬x.isNaN) : x.datum.number = some (extended x.sign x.extent) := by
  rw [extent]
  rcases (classes x).imp_right fun h => h.resolve_right hx with hfinite | hinfinite
  · rw [datum_of_isFinite hfinite, if_neg (not_isInfinite hfinite), Datum.number]
  · rw [datum_of_isInfinite hinfinite, if_pos hinfinite, Datum.number]

theorem number_datum_nan (hx : x.isNaN) : x.datum.number = none := by
  rw [datum_of_isNaN hx, Datum.number]

theorem extent_nonneg (x : Float80) : 0 ≤ x.extent := by
  rw [extent]
  split
  · exact le_top
  · exact_mod_cast x.magnitude_nonneg

theorem extent_eq_zero_iff (hx : x.Canonical) : x.extent = 0 ↔ x.isZero := by
  rw [extent]
  split
  · next hinfinite =>
    have hexp := biasedExponent_of_isInfinite hinfinite
    refine iff_of_false WithTop.top_ne_zero fun hzero => ?_
    obtain ⟨hzero, -⟩ := of_decide_eq_true hzero
    rw [hzero] at hexp
    exact absurd hexp (by decide)
  · rw [WithTop.coe_eq_zero]
    refine ⟨fun hzero => ?_, fun hzero => ?_⟩
    · by_contra hne
      exact (magnitude_pos hx hne).ne' hzero
    · exact (magnitude_eq_zero_iff x).2 (of_decide_eq_true hzero).2

/-- The bits of canonical numbers are ordered as their magnitudes are. -/
theorem extent_lt_iff (hx : x.Canonical) (hy : y.Canonical) (hxnan : ¬x.isNaN) (hynan : ¬y.isNaN) :
    x.extent < y.extent ↔ x.key < y.key := by
  have hxlt := x.man.toNat_lt
  have hylt := y.man.toNat_lt
  rw [extent, extent, key, key]
  rcases (classes x).imp_right fun h => h.resolve_right hxnan with hxfinite | hxinfinite
  · have hxexp := biasedExponent_lt hxfinite
    rw [if_neg (not_isInfinite hxfinite)]
    rcases (classes y).imp_right fun h => h.resolve_right hynan with hyfinite | hyinfinite
    · rw [if_neg (not_isInfinite hyfinite), WithTop.coe_lt_coe]
      rcases lt_trichotomy x.biasedExponent.toNat y.biasedExponent.toNat with hlt | heq | hgt
      · exact iff_of_true (magnitude_lt_of_exp hx hy hlt) (by omega)
      · rw [magnitude_lt_iff_of_exp heq]
        omega
      · exact iff_of_false (not_lt.2 (magnitude_lt_of_exp hy hx hgt).le) (by omega)
    · have hyexp := biasedExponent_of_isInfinite hyinfinite
      rw [if_pos hyinfinite]
      exact iff_of_true (WithTop.coe_lt_top _) (by omega)
  · have hxexp := biasedExponent_of_isInfinite hxinfinite
    have hyexp := biasedExponent_le y
    have hman := man_of_isInfinite hxinfinite hx
    rw [if_pos hxinfinite]
    refine iff_of_false (not_lt.2 le_top) fun hlt => ?_
    have hyexp' : y.biasedExponent.toNat = 0x7FFF := by omega
    have hyinfinite : y.isInfinite := by
      refine (classes y).elim (fun h => ?_) fun h => h.resolve_right hynan
      have := biasedExponent_lt h
      omega
    rw [hman, man_of_isInfinite hyinfinite hy] at hlt
    omega

theorem toNat_se (x : Float80) : x.se.toNat = 2 ^ 15 * x.sign.toNat + x.biasedExponent.toNat := by
  have hlt := x.se.toNat_lt
  have hmask : (0x7FFF : UInt16).toNat = 2 ^ 15 - 1 := rfl
  have hbit : (0x8000 : UInt16).toNat = 2 ^ 15 := rfl
  have hsign : x.sign = x.se.toNat.testBit 15 := by
    rw [sign, Bool.eq_iff_iff, decide_eq_true_iff, ne_eq, ← UInt16.toNat_inj, UInt16.toNat_and,
      hbit, Nat.and_two_pow, UInt16.toNat_zero]
    cases x.se.toNat.testBit 15 <;> decide
  rw [hsign, Nat.testBit_eq_decide_div_mod_eq, biasedExponent, UInt16.toNat_and, hmask,
    Nat.and_two_pow_sub_one_eq_mod]
  by_cases hhigh : x.se.toNat / 2 ^ 15 % 2 = 1
  · rw [decide_eq_true hhigh, Bool.toNat_true]
    omega
  · rw [decide_eq_false hhigh, Bool.toNat_false]
    omega

theorem magLess_iff (hsign : x.sign = y.sign) :
    SoftFloat.magLess x.toSF y.toSF = true ↔ x.key < y.key := by
  have hse (x : Float80) : SoftFloat.Uint128.toNat ⟨x.se.toUInt64, x.man⟩ =
      x.se.toNat * 2 ^ 64 + x.man.toNat := by
    rw [SoftFloat.Uint128.toNat, UInt16.toNat_toUInt64]
  rw [SoftFloat.magLess, SoftFloat.lt128_iff]
  change SoftFloat.Uint128.toNat ⟨x.se.toUInt64, x.man⟩ <
    SoftFloat.Uint128.toNat ⟨y.se.toUInt64, y.man⟩ ↔ _
  rw [hse, hse, toNat_se, toNat_se, hsign, key, key]
  omega

theorem key_inj (hsign : x.sign = y.sign) : x.key = y.key ↔ x = y := by
  refine ⟨fun heq => ?_, congrArg key⟩
  have hxlt := x.man.toNat_lt
  have hylt := y.man.toNat_lt
  rw [key, key] at heq
  have hse : x.se = y.se := by
    apply UInt16.toNat_inj.1
    rw [toNat_se, toNat_se, hsign]
    omega
  have hman : x.man = y.man := UInt64.toNat_inj.1 (by omega)
  cases x
  cases y
  simp_all

theorem zeros_or (x y : Float80) : (x.toSF.signExp ||| y.toSF.signExp) &&& 0x7FFF = 0 ↔
    x.biasedExponent = 0 ∧ y.biasedExponent = 0 := by
  have hsplit : (x.se ||| y.se) &&& 0x7FFF = x.biasedExponent ||| y.biasedExponent := by
    apply UInt16.toBitVec_inj.1
    simp only [biasedExponent, UInt16.toBitVec_and, UInt16.toBitVec_or, BitVec.and_or_distrib_right]
  change (x.se ||| y.se) &&& 0x7FFF = 0 ↔ _
  rw [hsplit, UInt16.or_eq_zero_iff]

theorem bothZero_iff (x y : Float80) :
    SoftFloat.bothZero x.toSF y.toSF = true ↔ x.isZero ∧ y.isZero := by
  have hword (e : UInt16) : e.toUInt64 = 0 ↔ e = 0 := by
    rw [← UInt64.toNat_inj, UInt16.toNat_toUInt64, ← UInt16.toNat_inj]
    exact Iff.rfl
  rw [SoftFloat.bothZero, decide_eq_true_iff, UInt64.or_eq_zero_iff, UInt64.or_eq_zero_iff, hword,
    zeros_or, isZero, isZero, decide_eq_true_iff, decide_eq_true_iff, toSF, toSF]
  exact and_assoc.trans and_and_and_comm

end Order

section Operators

variable {x y : Float80}

def eq (x rhs : Float80) (env : SoftFloat.State) : Bool × SoftFloat.State :=
  SoftFloat.extF80Eq x.toSF rhs.toSF env

def lt (x rhs : Float80) (env : SoftFloat.State) : Bool × SoftFloat.State :=
  SoftFloat.extF80Lt x.toSF rhs.toSF env

def le (x rhs : Float80) (env : SoftFloat.State) : Bool × SoftFloat.State :=
  SoftFloat.extF80Le x.toSF rhs.toSF env

/-- The numbers of two data are related; a NaN is not related to anything. -/
def Related (r : WithBot (WithTop ℚ) → WithBot (WithTop ℚ) → Prop) (d d' : Datum ℚ) : Prop :=
  ∃ u ∈ d.number, ∃ u' ∈ d'.number, r u u'

theorem related_iff (r : WithBot (WithTop ℚ) → WithBot (WithTop ℚ) → Prop) (hx : ¬x.isNaN)
    (hy : ¬y.isNaN) :
    Related r x.datum y.datum ↔ r (extended x.sign x.extent) (extended y.sign y.extent) := by
  rw [Related, number_datum hx, number_datum hy]
  simp only [Option.mem_def, Option.some.injEq, exists_eq_left']

theorem not_related (r : WithBot (WithTop ℚ) → WithBot (WithTop ℚ) → Prop)
    (h : x.isNaN ∨ y.isNaN) : ¬Related r x.datum y.datum := by
  rintro ⟨u, hu, u', hu', -⟩
  rcases h with hx | hy
  · rw [number_datum_nan hx] at hu
    cases hu
  · rw [number_datum_nan hy] at hu'
    cases hu'

theorem not_nan_iff (x y : Float80) :
    (SoftFloat.isNaNExtF80UI x.toSF || SoftFloat.isNaNExtF80UI y.toSF) = true ↔
      x.isNaN ∨ y.isNaN := by
  rw [isNaN_toSF, isNaN_toSF, Bool.or_eq_true]

theorem ne_iff_key (hsign : x.sign = y.sign) : x.se ≠ y.se ∨ x.man ≠ y.man ↔ x.key ≠ y.key := by
  rw [ne_eq, ne_eq, ← not_and_or, not_iff_not, key_inj hsign]
  constructor
  · rintro ⟨hse, hman⟩
    cases x
    cases y
    simp_all
  · rintro rfl
    exact ⟨rfl, rfl⟩

theorem lt_number (hx : x.Canonical) (hy : y.Canonical) (hxnan : ¬x.isNaN) (hynan : ¬y.isNaN)
    (env : SoftFloat.State) : (x.lt y env).1 = true ↔
      extended x.sign x.extent < extended y.sign y.extent := by
  have hnan := (not_nan_iff x y).not.2 (not_or.2 ⟨hxnan, hynan⟩)
  rw [lt, SoftFloat.extF80Lt, if_neg hnan]
  simp only [signExtF80UI64_toSF]
  split
  · next hsign =>
    rw [Bool.and_eq_true, Bool.not_eq_true', ← Bool.not_eq_true, bothZero_iff,
      ← extent_eq_zero_iff hx, ← extent_eq_zero_iff hy]
    cases hxsign : x.sign with
    | true =>
      have hysign : y.sign = false := by simpa [hxsign] using hsign
      rw [hysign, extended_lt_mixed x.extent_nonneg y.extent_nonneg]
      exact and_iff_right rfl
    | false =>
      have hysign : y.sign = true := by simpa [hxsign] using hsign
      rw [hysign]
      exact iff_of_false (fun h => Bool.false_ne_true h.1)
        (not_extended_lt_mixed x.extent_nonneg y.extent_nonneg)
  · next hsign =>
    have hsame : x.sign = y.sign := not_not.1 hsign
    have hbits : (x.toSF.signExp ≠ y.toSF.signExp || x.toSF.signif ≠ y.toSF.signif) = true ↔
        x.key ≠ y.key := by
      rw [Bool.or_eq_true, decide_eq_true_iff, decide_eq_true_iff]
      exact ne_iff_key hsame
    have hless := magLess_iff hsame
    rw [Bool.and_eq_true, hbits, ← hsame]
    cases x.sign with
    | false =>
      rw [Bool.false_xor, hless, extended_lt_positive, extent_lt_iff hx hy hxnan hynan]
      omega
    | true =>
      rw [Bool.true_xor, Bool.not_eq_true', ← Bool.not_eq_true, hless, extended_lt_negative,
        extent_lt_iff hy hx hynan hxnan]
      omega

theorem le_number (hx : x.Canonical) (hy : y.Canonical) (hxnan : ¬x.isNaN) (hynan : ¬y.isNaN)
    (env : SoftFloat.State) : (x.le y env).1 = true ↔
      extended x.sign x.extent ≤ extended y.sign y.extent := by
  have hnan := (not_nan_iff x y).not.2 (not_or.2 ⟨hxnan, hynan⟩)
  rw [le, SoftFloat.extF80Le, if_neg hnan, ← not_lt]
  simp only [signExtF80UI64_toSF]
  split
  · next hsign =>
    rw [Bool.or_eq_true, bothZero_iff, ← extent_eq_zero_iff hx, ← extent_eq_zero_iff hy]
    cases hxsign : x.sign with
    | true =>
      have hysign : y.sign = false := by simpa [hxsign] using hsign
      rw [hysign]
      exact iff_of_true (.inl rfl) (not_extended_lt_mixed y.extent_nonneg x.extent_nonneg)
    | false =>
      have hysign : y.sign = true := by simpa [hxsign] using hsign
      rw [hysign, extended_lt_mixed y.extent_nonneg x.extent_nonneg, not_not, and_comm]
      exact or_iff_right Bool.false_ne_true
  · next hsign =>
    have hsame : x.sign = y.sign := not_not.1 hsign
    have hbits : (x.toSF.signExp = y.toSF.signExp && x.toSF.signif = y.toSF.signif) = true ↔
        x.key = y.key := by
      rw [Bool.and_eq_true, decide_eq_true_iff, decide_eq_true_iff, ← not_iff_not,
        ← ne_eq x.key, ← ne_iff_key hsame, not_and_or]
      exact Iff.rfl
    have hless := magLess_iff hsame
    rw [Bool.or_eq_true, hbits, ← hsame]
    cases x.sign with
    | false =>
      rw [Bool.false_xor, hless, extended_lt_positive, extent_lt_iff hy hx hynan hxnan]
      omega
    | true =>
      rw [Bool.true_xor, Bool.not_eq_true', ← Bool.not_eq_true, hless, extended_lt_negative,
        extent_lt_iff hx hy hxnan hynan]
      omega

theorem extent_inj (hx : x.Canonical) (hy : y.Canonical) (hxnan : ¬x.isNaN) (hynan : ¬y.isNaN) :
    x.extent = y.extent ↔ x.key = y.key := by
  rw [le_antisymm_iff, ← not_lt, ← not_lt, extent_lt_iff hx hy hxnan hynan,
    extent_lt_iff hy hx hynan hxnan]
  omega

theorem eq_bits_iff (x y : Float80) :
    (x.toSF.signif = y.toSF.signif && (x.toSF.signExp = y.toSF.signExp ||
        x.toSF.signif = 0 && (x.toSF.signExp ||| y.toSF.signExp) &&& 0x7FFF = 0)) = true ↔
      x = y ∨ x.isZero ∧ y.isZero := by
  rw [Bool.and_eq_true, Bool.or_eq_true, Bool.and_eq_true]
  simp only [decide_eq_true_iff, zeros_or, isZero]
  change x.man = y.man ∧ (x.se = y.se ∨ x.man = 0 ∧ _) ↔ _
  constructor
  · rintro ⟨hman, hse | ⟨hzero, hx, hy⟩⟩
    · left
      cases x
      cases y
      simp_all
    · exact .inr ⟨⟨hx, hzero⟩, hy, hman ▸ hzero⟩
  · rintro (rfl | ⟨⟨hx, hzero⟩, hy, hzero'⟩)
    · exact ⟨rfl, .inl rfl⟩
    · exact ⟨hzero.trans hzero'.symm, .inr ⟨hzero, hx, hy⟩⟩

theorem eq_number (hx : x.Canonical) (hy : y.Canonical) (hxnan : ¬x.isNaN) (hynan : ¬y.isNaN)
    (env : SoftFloat.State) : (x.eq y env).1 = true ↔
      extended x.sign x.extent = extended y.sign y.extent := by
  have hnan := (not_nan_iff x y).not.2 (not_or.2 ⟨hxnan, hynan⟩)
  rw [eq, SoftFloat.extF80Eq, if_neg hnan]
  dsimp only
  rw [eq_bits_iff, ← extent_eq_zero_iff hx, ← extent_eq_zero_iff hy]
  by_cases hsign : x.sign = y.sign
  · rw [hsign, extended_inj, extent_inj hx hy hxnan hynan, key_inj hsign]
    refine or_iff_left_of_imp fun h => ?_
    rw [← key_inj hsign, ← extent_inj hx hy hxnan hynan, h.1, h.2]
  · have hne : x ≠ y := fun heq => hsign (heq ▸ rfl)
    rw [or_iff_right hne]
    cases hxsign : x.sign with
    | true =>
      have hysign : y.sign = false := by simpa [hxsign] using Ne.symm hsign
      rw [hysign, extended_eq_mixed x.extent_nonneg y.extent_nonneg]
    | false =>
      have hysign : y.sign = true := by simpa [hxsign] using Ne.symm hsign
      rw [hysign, eq_comm (a := extended false _), extended_eq_mixed y.extent_nonneg x.extent_nonneg,
        and_comm]

/-- The comparisons are those of the numbers that the operands stand for. -/
theorem compare_related (x y : Float80) (env : SoftFloat.State) (hx : x.Canonical)
    (hy : y.Canonical) :
    ((x.eq y env).1 = true ↔ Related (· = ·) x.datum y.datum) ∧
      ((x.lt y env).1 = true ↔ Related (· < ·) x.datum y.datum) ∧
      ((x.le y env).1 = true ↔ Related (· ≤ ·) x.datum y.datum) := by
  by_cases hnan : x.isNaN ∨ y.isNaN
  · have hcode := (not_nan_iff x y).2 hnan
    rw [eq, lt, le, SoftFloat.extF80Eq, SoftFloat.extF80Lt, SoftFloat.extF80Le, if_pos hcode,
      if_pos hcode, if_pos hcode]
    exact ⟨iff_of_false Bool.false_ne_true (not_related _ hnan),
      iff_of_false Bool.false_ne_true (not_related _ hnan),
      iff_of_false Bool.false_ne_true (not_related _ hnan)⟩
  · obtain ⟨hxnan, hynan⟩ := not_or.1 hnan
    rw [related_iff _ hxnan hynan, related_iff _ hxnan hynan, related_iff _ hxnan hynan]
    exact ⟨eq_number hx hy hxnan hynan env, lt_number hx hy hxnan hynan env,
      le_number hx hy hxnan hynan env⟩

/-- Equality is quiet, the other comparisons are not. -/
theorem compare_flags (x y : Float80) (env : SoftFloat.State) :
    (x.eq y env).2 = FloatEnv.raiseFlags env (FloatFlags.ofFlags
        { invalid := x.datum.isSignaling || y.datum.isSignaling }) ∧
      (x.lt y env).2 = FloatEnv.raiseFlags env (FloatFlags.ofFlags
        { invalid := x.isNaN || y.isNaN }) ∧
      (x.le y env).2 = FloatEnv.raiseFlags env (FloatFlags.ofFlags
        { invalid := x.isNaN || y.isNaN }) := by
  have hraise (b : Bool) : FloatEnv.raiseFlags env (FloatFlags.ofFlags { invalid := b }) =
      if b then SoftFloat.raiseFlags SoftFloat.flagInvalid env else env := by
    cases b with
    | false => exact FloatEnv.raiseFlags_ofFlags_empty env
    | true => rfl
  have hquiet {x : Float80} (hx : x.isNaN = false) : x.isSignalingNaN = false := by
    rw [isSignalingNaN, hx, Bool.false_and]
  rw [hraise, hraise, eq, lt, le, SoftFloat.extF80Eq, SoftFloat.extF80Lt, SoftFloat.extF80Le,
    isNaN_toSF, isNaN_toSF, isSigNaN_toSF, isSigNaN_toSF, isSignaling_datum, isSignaling_datum]
  cases hx : x.isNaN with
  | true => exact ⟨rfl, rfl, rfl⟩
  | false =>
    cases hy : y.isNaN with
    | true => exact ⟨rfl, rfl, rfl⟩
    | false =>
      rw [hquiet hx, hquiet hy]
      exact ⟨rfl, rfl, rfl⟩

/-- The comparisons of IEEE 754: signed zeros are equal, a NaN is unordered. -/
theorem compare_returns (x y : Float80) (env : SoftFloat.State) (hx : x.Canonical)
    (hy : y.Canonical) :
    let raised (invalid : Bool) :=
      FloatEnv.raiseFlags env (FloatFlags.ofFlags { invalid := invalid })
    (((x.eq y env).1 = true ↔ Related (· = ·) x.datum y.datum) ∧
        (x.eq y env).2 = raised (x.datum.isSignaling || y.datum.isSignaling)) ∧
      (((x.lt y env).1 = true ↔ Related (· < ·) x.datum y.datum) ∧
        (x.lt y env).2 = raised (x.isNaN || y.isNaN)) ∧
      (((x.le y env).1 = true ↔ Related (· ≤ ·) x.datum y.datum) ∧
        (x.le y env).2 = raised (x.isNaN || y.isNaN)) := by
  obtain ⟨heq, hlt, hle⟩ := compare_related x y env hx hy
  obtain ⟨heq', hlt', hle'⟩ := compare_flags x y env
  exact ⟨⟨heq, heq'⟩, ⟨hlt, hlt'⟩, hle, hle'⟩

theorem compare_returns_zeros :
    let zero : Float80 := ⟨0, 0⟩
    let minus : Float80 := ⟨0x8000, 0⟩
    let env : SoftFloat.State := ⟨.nearEven, 0, 80⟩
    let raised (invalid : Bool) :=
      FloatEnv.raiseFlags env (FloatFlags.ofFlags { invalid := invalid })
    (((zero.eq minus env).1 = true ↔ Related (· = ·) zero.datum minus.datum) ∧
        (zero.eq minus env).2 = raised (zero.datum.isSignaling || minus.datum.isSignaling)) ∧
      (((zero.lt minus env).1 = true ↔ Related (· < ·) zero.datum minus.datum) ∧
        (zero.lt minus env).2 = raised (zero.isNaN || minus.isNaN)) ∧
      (((zero.le minus env).1 = true ↔ Related (· ≤ ·) zero.datum minus.datum) ∧
        (zero.le minus env).2 = raised (zero.isNaN || minus.isNaN)) :=
  compare_returns _ _ _ (by decide) (by decide)

end Operators

end Utlib.Float80
