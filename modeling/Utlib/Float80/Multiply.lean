import Utlib.Float80.Datum

/-! Products are correctly rounded. -/

namespace Utlib.Float80

open Utlib.Rounding

def mul (x rhs : Float80) (env : SoftFloat.State) : Option (Float80 × SoftFloat.State) :=
  (SoftFloat.extF80Mul x.toSF rhs.toSF env).map fun z => (fromSF z.1, z.2)

section Mul

variable {x y : Float80} {a b : SoftFloat.ExpSig} {env : SoftFloat.State} {mode : RoundingMode}
  {precision : Precision}

theorem mul_scaled (m n : ℕ) (e f : ℤ) :
    (m : ℚ) * 2 ^ e * (n * 2 ^ f) = ((m * n : ℕ) : ℚ) * 2 ^ (e + f) := by
  rw [Nat.cast_mul, mul_mul_mul_comm, ← zpow_add₀ two_ne_zero]

theorem computes_mulSigs (env : SoftFloat.State) (mode : RoundingMode) (precision : Precision)
    (sign : Bool) (ha : Normalized x a) (hb : Normalized y b) :
    Computes (FloatEnv.configured env mode precision)
      (.ofRounded sign (precision.format.round mode sign (x.magnitude * y.magnitude)))
      (some (SoftFloat.mulSigs sign a b (FloatEnv.configured env mode precision))) := by
  obtain ⟨hsigA, hloA, hhiA, hmagnitudeA⟩ := ha
  obtain ⟨hsigB, hloB, hhiB, hmagnitudeB⟩ := hb
  have hprod := SoftFloat.toNat_mul64To128 a.sig b.sig
  have hlow : 2 ^ 63 * 2 ^ 63 ≤ a.sig.toNat * b.sig.toNat := Nat.mul_le_mul hsigA hsigB
  have hlt : (SoftFloat.mul64To128 a.sig b.sig).v64 < 0x8000000000000000 ↔
      (SoftFloat.mul64To128 a.sig b.sig).toNat < 2 ^ 127 := by
    rw [UInt64.lt_iff_toNat_lt, ← SoftFloat.Uint128.toNat_div]
    change _ < 2 ^ 63 ↔ _
    omega
  have hexact : x.magnitude * y.magnitude =
      ((a.sig.toNat * b.sig.toNat : ℕ) : ℚ) * 2 ^ (a.exp + b.exp - 0x3FFE - 16510) := by
    rw [hmagnitudeA, hmagnitudeB, mul_scaled,
      show a.exp - 16446 + (b.exp - 16446) = a.exp + b.exp - 0x3FFE - 16510 by ring]
  rw [SoftFloat.mulSigs]
  generalize SoftFloat.mul64To128 a.sig b.sig = z at hprod hlt
  simp only [hlt, FloatEnv.configured_roundingPrecision]
  split
  · next hsmall =>
    have hdouble : (SoftFloat.add128 z.v64 z.v0 z.v64 z.v0).toNat = z.toNat * 2 ^ 1 := by
      have hsum := SoftFloat.toNat_add128 z.v64 z.v0 z.v64 z.v0
      change _ = (z.toNat + z.toNat) % 2 ^ 128 at hsum
      omega
    refine computes_roundPack_words env mode precision sign _ (by omega) (by omega) (by omega) ?_
    have hscale : a.exp + b.exp - 0x3FFE - 16510 =
        a.exp + b.exp - 0x3FFE - 1 - 16510 + (1 : ℕ) := by
      push_cast
      ring
    rw [hexact, hdouble, hprod, SoftFloat.cast_mul_two_pow, hscale]
  · refine computes_roundPack_words env mode precision sign z (by omega) (by omega) (by omega) ?_
    rw [hexact, hprod]

/-- A finite encoding without mantissa bits is zero only if its exponent is minimal. -/
def PseudoZero (x : Float80) : Prop := x.isFinite ∧ x.man = 0 ∧ x.biasedExponent ≠ 0

instance (x : Float80) : Decidable x.PseudoZero :=
  inferInstanceAs (Decidable (x.isFinite ∧ x.man = 0 ∧ x.biasedExponent ≠ 0))

theorem computes_mulInfinity (env : SoftFloat.State) (sign : Bool) (hy : y.isFinite)
    (hpseudo : ¬y.PseudoZero) :
    Computes env (if y.magnitude = 0 then .invalid else .exact (.infinite sign))
      (some (SoftFloat.mulInfinity sign
        (SoftFloat.expExtF80UI64 y.toSF.signExp = 0 ∧ y.toSF.signif = 0) env)) := by
  have hexp : SoftFloat.expExtF80UI64 y.toSF.signExp = 0 ↔ y.biasedExponent = 0 := by
    rw [expExtF80UI64_toSF, ← UInt16.toNat_inj]
    exact Nat.cast_eq_zero
  have hzero : SoftFloat.expExtF80UI64 y.toSF.signExp = 0 ∧ y.toSF.signif = 0 ↔
      y.magnitude = 0 := by
    rw [magnitude_eq_zero_iff, hexp]
    refine ⟨And.right, fun hman => ⟨?_, hman⟩⟩
    by_contra hne
    exact hpseudo ⟨hy, hman, hne⟩
  rw [SoftFloat.mulInfinity]
  simp only [hzero, decide_eq_true_iff]
  split
  · exact computes_invalid
  · exact computes_exact (datum_packInfinity sign)

/-- The code computes the product that IEEE 754 asks for, of any two operands that are not
pseudo-zeros, in each rounding mode and each rounding precision. -/
theorem mul_returns (x y : Float80) (env : SoftFloat.State) (mode : RoundingMode)
    (precision : Precision) (hx : ¬x.PseudoZero) (hy : ¬y.PseudoZero) :
    Returns (FloatEnv.configured env mode precision)
      (Datum.multiply precision.format mode x.datum y.datum)
      (x.mul y (FloatEnv.configured env mode precision)) := by
  have hpropagated (h : x.isNaN ∨ y.isNaN) :=
    computes_nan (FloatEnv.configured env mode precision) h
  apply Computes.returns
  rw [SoftFloat.extF80Mul]
  simp only [signExtF80UI64_toSF]
  rcases classes x with hfinite | hinfinite | hnan
  · rw [if_neg (exp_ne_of_isFinite hfinite), datum_of_isFinite hfinite] at *
    rcases classes y with hfinite' | hinfinite' | hnan'
    · rw [if_neg (exp_ne_of_isFinite hfinite'), datum_of_isFinite hfinite', Datum.multiply]
      by_cases hzero : x.toSF.signif = 0 ∨ y.toSF.signif = 0
      · have hprod : x.magnitude * y.magnitude = 0 := by
          rw [mul_eq_zero, magnitude_eq_zero_iff, magnitude_eq_zero_iff]
          exact hzero
        rw [if_pos hzero, hprod, round_zero_exact]
        exact computes_exact (datum_packZero _)
      · obtain ⟨hman, hman'⟩ := not_or.1 hzero
        obtain ⟨a, ha, hnormalized⟩ := normalizeOperand_toSF hfinite hman
        obtain ⟨b, hb, hnormalized'⟩ := normalizeOperand_toSF hfinite' hman'
        rw [if_neg hzero, ha, hb]
        exact computes_mulSigs env mode precision _ hnormalized hnormalized'
    · obtain ⟨hexp, hfraction⟩ := of_isInfinite hinfinite'
      rw [if_pos hexp, if_neg hfraction, datum_of_isInfinite hinfinite', Datum.multiply]
      exact computes_mulInfinity _ _ hfinite hx
    · obtain ⟨hexp, hfraction⟩ := of_isNaN hnan'
      rw [if_pos hexp, if_pos hfraction]
      rw [datum_of_isNaN hnan'] at *
      exact hpropagated (.inr hnan')
  · obtain ⟨hexp, hfraction⟩ := of_isInfinite hinfinite
    rw [if_pos hexp, datum_of_isInfinite hinfinite] at *
    rcases classes y with hfinite' | hinfinite' | hnan'
    · rw [if_neg (not_or.2 ⟨hfraction, fun h => exp_ne_of_isFinite hfinite' h.1⟩),
        datum_of_isFinite hfinite', Datum.multiply]
      exact computes_mulInfinity _ _ hfinite' hy
    · obtain ⟨hexp', hfraction'⟩ := of_isInfinite hinfinite'
      have hnonzero : ¬(SoftFloat.expExtF80UI64 y.toSF.signExp = 0 ∧ y.toSF.signif = 0) := by
        rw [hexp']
        exact fun h => absurd h.1 (by decide)
      rw [if_neg (not_or.2 ⟨hfraction, fun h => hfraction' h.2⟩), datum_of_isInfinite hinfinite',
        Datum.multiply, SoftFloat.mulInfinity, if_neg (by rw [decide_eq_true_iff]; exact hnonzero)]
      exact computes_exact (datum_packInfinity _)
    · rw [if_pos (.inr (of_isNaN hnan'))]
      rw [datum_of_isNaN hnan'] at *
      exact hpropagated (.inr hnan')
  · obtain ⟨hexp, hfraction⟩ := of_isNaN hnan
    rw [if_pos hexp, if_pos (.inl hfraction)]
    rw [datum_of_isNaN hnan] at *
    exact hpropagated (.inl hnan)

theorem mul_returns_three :
    let three : Float80 := ⟨0x4000, 0xC000000000000000⟩
    let third : Float80 := ⟨0x3FFD, 0xAAAAAAAAAAAAAAAB⟩
    let current := FloatEnv.configured ⟨.nearEven, 0, 80⟩ .up .double
    Returns current (Datum.multiply Precision.double.format .up three.datum third.datum)
      (three.mul third current) :=
  mul_returns _ _ _ .up .double (by decide) (by decide)

end Mul

end Utlib.Float80
