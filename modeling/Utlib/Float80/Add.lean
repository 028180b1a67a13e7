import Utlib.Float80.Datum

/-! Sums and differences are correctly rounded. -/

namespace Utlib

open Utlib.Rounding

namespace SoftFloat

section Cells

variable {sig extra : UInt64} {r d : ℕ}

/-- A word that classifies a remainder stands for the fraction that it leaves. -/
theorem Discarded.sameCell (h : Discarded extra r d) (hlt : r < d) :
    SameCell (1 / 2 : ℚ) (extra.toNat / (2 ^ 64 : ℕ)) (r / d) := by
  have hd : (0 : ℚ) < d := Nat.cast_pos.2 (by omega)
  have hword : (0 : ℚ) < (2 ^ 64 : ℕ) := by positivity
  have hextra := extra.toNat_lt
  obtain ⟨hzero, hhalf, htie⟩ := h
  rcases Nat.eq_zero_or_pos r with heq | hpos
  · rw [hzero.2 heq, heq]
    exact .of_eq (by simp)
  · have hne : 0 < extra.toNat := Nat.pos_of_ne_zero fun hextra => hpos.ne' (hzero.1 hextra)
    rcases lt_trichotomy (2 * r) d with hbelow | hat | habove
    · have hsmall : extra.toNat < 2 ^ 63 := not_le.1 fun hle => by have := hhalf.1 hle; omega
      refine .inr ⟨0, ?_, ?_, ?_, ?_⟩ <;> push_cast
      · exact (zero_mul (1 / 2 : ℚ)).trans_lt (div_pos (by exact_mod_cast hne) (by norm_num))
      · rw [div_lt_iff₀ (by norm_num)]
        have : (extra.toNat : ℚ) < 2 ^ 63 := by exact_mod_cast hsmall
        linarith
      · exact (zero_mul (1 / 2 : ℚ)).trans_lt (div_pos (by exact_mod_cast hpos) hd)
      · rw [div_lt_iff₀ hd]
        have : (2 * r : ℚ) < d := by exact_mod_cast hbelow
        linarith
    · have hle := hhalf.2 hat.ge
      have hmod := (htie hle).2 hat
      have heq : extra.toNat = 2 ^ 63 := by omega
      refine .of_eq ?_
      rw [heq, ← hat, div_eq_div_iff hword.ne' (by rw [hat]; exact hd.ne')]
      push_cast
      ring
    · have hle := hhalf.2 habove.le
      have hmod : extra.toNat % 2 ^ 63 ≠ 0 := fun hmod => habove.ne' ((htie hle).1 hmod)
      have hlarge : 2 ^ 63 < extra.toNat := by omega
      refine .inr ⟨1, ?_, ?_, ?_, ?_⟩ <;> push_cast
      · rw [lt_div_iff₀ (by norm_num)]
        have : (2 : ℚ) ^ 63 < extra.toNat := by exact_mod_cast hlarge
        linarith
      · rw [div_lt_iff₀ (by norm_num)]
        have : (extra.toNat : ℚ) < 2 ^ 64 := by exact_mod_cast hextra
        linarith
      · rw [lt_div_iff₀ hd]
        have : (d : ℚ) < 2 * r := by exact_mod_cast habove
        linarith
      · rw [div_lt_iff₀ hd]
        have : (r : ℚ) < d := by exact_mod_cast hlt
        linarith

theorem Discarded.approximates (h : Discarded extra r d) (hlt : r < d) (sig : UInt64) :
    Approximates sig extra (sig.toNat + r / d) := by
  have hcell := (h.sameCell hlt).add_left (2 * sig.toNat)
  have hsum : (((sig.toNat * 2 ^ 64 + extra.toNat : ℕ) : ℚ) / (2 ^ 64 : ℕ)) =
      ((2 * sig.toNat : ℤ) : ℚ) * (1 / 2) + extra.toNat / (2 ^ 64 : ℕ) := by
    push_cast
    field_simp
  have hsum' : (sig.toNat : ℚ) + r / d = ((2 * sig.toNat : ℤ) : ℚ) * (1 / 2) + r / d := by
    push_cast
    ring
  rw [Approximates, hsum, hsum']
  exact hcell

end Cells

section Carries

variable {sig extra : UInt64} {r d : ℕ}

/-- What is true of a sum that is ready to be packed: it stands for `t`, in units of `2 ^ expZ`. -/
structure Sum.Holds (z : Sum) (expZ : ℤ) (t : ℚ) : Prop where
  sig : 2 ^ 63 ≤ z.sig.toNat
  exp_lo : expZ ≤ z.exp
  exp_hi : z.exp ≤ expZ + 1
  approximates : Approximates z.sig z.extra (t * 2 ^ (expZ - z.exp))

/-- The carry of the sum comes back as the highest bit. -/
theorem shiftRight1_holds (expZ : ℤ) (sig : UInt64) (h : Discarded extra r d) (hlt : r < d) :
    (shiftRight1 expZ sig extra).Holds expZ ((sig.toNat + 2 ^ 64 : ℕ) + r / d) := by
  have hd : (0 : ℚ) < d := Nat.cast_pos.2 (by omega)
  have hsig := sig.toNat_lt
  have hhalf : (sig >>> UInt64.ofNat 1).toNat = sig.toNat / 2 := toNat_shiftRight_of_lt (by decide)
  have hhigh : (sig >>> UInt64.ofNat 1 ||| 0x8000000000000000).toNat = sig.toNat / 2 + 2 ^ 63 := by
    have hor := Nat.two_pow_add_eq_or_of_lt (show sig.toNat / 2 < 2 ^ 63 by omega) 1
    rw [Nat.mul_one] at hor
    rw [UInt64.toNat_or, hhalf, Nat.or_comm]
    change 2 ^ 63 ||| sig.toNat / 2 = _
    omega
  have hlow : (sig <<< UInt64.ofNat (64 - 1)).toNat = sig.toNat % 2 * 2 ^ 63 :=
    toNat_shiftLeft_rest (show 0 < 1 by decide) (by decide)
  have hnonzero : extra ≠ 0 ↔ r ≠ 0 := by rw [ne_zero_iff, ne_eq, h.zero]
  have hdiscarded : Discarded (shiftRight1 expZ sig extra).extra (sig.toNat % 2 * d + r) (2 * d) := by
    have hextra : (shiftRight1 expZ sig extra).extra.toNat =
        if r ≠ 0 then sig.toNat % 2 * 2 ^ 63 + 1 else sig.toNat % 2 * 2 ^ 63 := by
      change (sig <<< UInt64.ofNat (64 - 1) ||| if extra ≠ 0 then 1 else 0).toNat = _
      rw [toNat_or_ite, hlow]
      simp only [hnonzero]
      split <;> omega
    rcases Nat.mod_two_eq_zero_or_one sig.toNat with heven | hodd
    · rw [heven] at hextra ⊢
      refine ⟨?_, ?_, ?_⟩ <;> rw [hextra] <;> split <;> omega
    · rw [hodd] at hextra ⊢
      refine ⟨?_, ?_, ?_⟩ <;> rw [hextra] <;> split <;> omega
  have hrest : sig.toNat % 2 * d + r < 2 * d := by
    rcases Nat.mod_two_eq_zero_or_one sig.toNat with hmod | hmod <;> rw [hmod] <;> omega
  have happrox := hdiscarded.approximates hrest (shiftRight1 expZ sig extra).sig
  refine ⟨?_, ?_, le_rfl, ?_⟩
  · change 2 ^ 63 ≤ (sig >>> UInt64.ofNat 1 ||| 0x8000000000000000).toNat
    omega
  · change expZ ≤ expZ + 1
    omega
  · have hvalue : ((shiftRight1 expZ sig extra).sig.toNat : ℚ) +
        (sig.toNat % 2 * d + r : ℕ) / (2 * d : ℕ) =
          ((sig.toNat + 2 ^ 64 : ℕ) + r / d) * 2 ^ (expZ - (shiftRight1 expZ sig extra).exp) := by
      change ((sig >>> UInt64.ofNat 1 ||| 0x8000000000000000).toNat : ℚ) + _ =
        _ * 2 ^ (expZ - (expZ + 1))
      have hsplit : (sig.toNat : ℚ) = 2 * (sig.toNat / 2 : ℕ) + (sig.toNat % 2 : ℕ) := by
        exact_mod_cast (Nat.div_add_mod sig.toNat 2).symm
      rw [hhigh, sub_add_cancel_left, zpow_neg_one]
      push_cast at hsplit ⊢
      rw [hsplit]
      field_simp
      ring
    rwa [hvalue] at happrox

/-- A sum of a normalized significand and a smaller one carries at most once. -/
theorem newlyAligned_holds (expZ : ℤ) {a b : UInt64} (ha : 2 ^ 63 ≤ a.toNat)
    (hb : b.toNat < 2 ^ 63) (h : Discarded extra r d) (hlt : r < d) :
    (newlyAligned expZ (a + b) extra).Holds expZ ((a.toNat + b.toNat : ℕ) + r / d) := by
  have ha' := a.toNat_lt
  have hsum : (a + b).toNat = (a.toNat + b.toNat) % 2 ^ 64 := UInt64.toNat_add a b
  rw [newlyAligned]
  simp only [and_highBit_ne_zero_iff]
  split
  · next hhigh =>
    have heq : (a + b).toNat = a.toNat + b.toNat := by omega
    refine ⟨hhigh, le_rfl, by dsimp only; omega, ?_⟩
    dsimp only
    rw [sub_self, zpow_zero, mul_one, ← heq]
    exact h.approximates hlt (a + b)
  · have heq : (a + b).toNat + 2 ^ 64 = a.toNat + b.toNat := by omega
    rw [← heq]
    exact shiftRight1_holds expZ (a + b) h hlt

theorem discarded_nothing : Discarded 0 0 1 := ⟨by decide, by decide, by decide⟩

theorem align64_spec {exp : ℤ} {expDiff : ℕ} (hsmall : exp = 0 → sig.toNat < 2 ^ 63)
    (hpos : 0 < expDiff) :
    (align64 exp sig expDiff).v.toNat = sig.toNat / 2 ^ alignDist exp expDiff ∧
      (align64 exp sig expDiff).v.toNat < 2 ^ 63 ∧
      Discarded (align64 exp sig expDiff).extra (sig.toNat % 2 ^ alignDist exp expDiff)
        (2 ^ alignDist exp expDiff) := by
  rw [align64]
  split
  · next hzero =>
    have hexp : exp = 0 := by
      by_contra hne
      rw [alignDist, if_neg hne] at hzero
      omega
    rw [hzero, pow_zero, Nat.div_one, Nat.mod_one]
    exact ⟨rfl, hsmall hexp, discarded_nothing⟩
  · next hne =>
    have hv := toNat_shiftRightJam64Extra_v sig (alignDist exp expDiff)
    refine ⟨hv, ?_, shiftRightJam64Extra_discarded sig (by omega)⟩
    rw [hv]
    exact div_two_pow_lt (by omega)

end Carries

end SoftFloat

namespace Float80

section AddMags

variable {x y : Float80} {env : SoftFloat.State} {mode : RoundingMode} {precision : Precision}
  {sign : Bool}

theorem computes_sum {z : SoftFloat.Sum} {expZ : ℤ} {t w : ℚ} (h : z.Holds expZ t)
    (hlo : -2 ^ 30 ≤ expZ) (hhi : expZ < 2 ^ 30) (hw : w = t * 2 ^ (expZ - 16446)) :
    Computes (FloatEnv.configured env mode precision)
      (.ofRounded sign (precision.format.round mode sign w))
      (some (z.pack sign (FloatEnv.configured env mode precision))) := by
  have hexp_lo := h.exp_lo
  have hexp_hi := h.exp_hi
  refine computes_roundPack env mode precision sign h.sig (by omega) (by omega) h.approximates ?_
  rw [hw, mul_assoc, ← zpow_add₀ two_ne_zero]
  congr 2
  ring

/-- Denormals have less than 64 bits. -/
theorem man_lt (hx : x.Canonical) (hexp : SoftFloat.expExtF80UI64 x.toSF.signExp = 0) :
    x.toSF.signif.toNat < 2 ^ 63 := by
  rw [expExtF80UI64_toSF] at hexp
  by_contra hge
  have hne := hx.1 ((integerBit_iff x).2 (not_lt.1 hge))
  rw [ne_eq, ← UInt16.toNat_inj] at hne
  exact hne (by exact_mod_cast hexp)

theorem le_man (hx : x.Canonical) (hexp : SoftFloat.expExtF80UI64 x.toSF.signExp ≠ 0) :
    2 ^ 63 ≤ x.man.toNat := by
  rw [expExtF80UI64_toSF] at hexp
  refine (integerBit_iff x).1 (hx.2 ?_)
  rw [ne_eq, ← UInt16.toNat_inj]
  exact fun hzero => hexp (by exact_mod_cast hzero)

theorem exp_eq (x : Float80) :
    SoftFloat.expExtF80UI64 x.toSF.signExp = (x.biasedExponent.toNat : ℤ) :=
  expExtF80UI64_toSF x

theorem quotient_add_remainder (n : ℕ) {d : ℕ} (hd : 0 < d) :
    ((n / d : ℕ) : ℚ) + (n % d : ℕ) / d = n / d := by
  have hpos : (0 : ℚ) < d := Nat.cast_pos.2 hd
  have hn : (n : ℚ) = d * (n / d : ℕ) + (n % d : ℕ) := by
    exact_mod_cast (Nat.div_add_mod n d).symm
  rw [eq_div_iff hpos.ne', add_mul, div_mul_cancel₀ _ hpos.ne', mul_comm, hn]

/-- The smaller magnitude in units of the larger one. -/
theorem magnitude_aligned (hlt : x.biasedExponent.toNat < y.biasedExponent.toNat) :
    x.magnitude = x.man.toNat / (2 ^ SoftFloat.alignDist x.biasedExponent.toNat
        (y.biasedExponent.toNat - x.biasedExponent.toNat) : ℕ) *
      2 ^ ((y.biasedExponent.toNat : ℤ) - 16446) := by
  have hdist : (y.biasedExponent.toNat : ℤ) - 16446 = max (x.biasedExponent.toNat : ℤ) 1 - 16446 +
      SoftFloat.alignDist x.biasedExponent.toNat
        (y.biasedExponent.toNat - x.biasedExponent.toNat) := by
    rw [SoftFloat.alignDist]
    split <;> omega
  rw [hdist, zpow_add₀ two_ne_zero, zpow_natCast, magnitude]
  push_cast
  field_simp

theorem computes_aligned (env : SoftFloat.State) (mode : RoundingMode) (precision : Precision)
    (sign : Bool) (hx : x.Canonical) (hy : y.Canonical) (hfinite : y.isFinite)
    (hlt : x.biasedExponent.toNat < y.biasedExponent.toNat) :
    let z := SoftFloat.align64 x.biasedExponent.toNat x.man
      (y.biasedExponent.toNat - x.biasedExponent.toNat)
    Computes (FloatEnv.configured env mode precision)
      (.ofRounded sign (precision.format.round mode sign (y.magnitude + x.magnitude)))
      (some ((SoftFloat.newlyAligned y.biasedExponent.toNat (y.man + z.v) z.extra).pack sign
        (FloatEnv.configured env mode precision))) := by
  intro z
  have hexp := biasedExponent_lt hfinite
  have hpos := Nat.two_pow_pos (SoftFloat.alignDist x.biasedExponent.toNat
    (y.biasedExponent.toNat - x.biasedExponent.toNat))
  have hman (hzero : (x.biasedExponent.toNat : ℤ) = 0) : x.man.toNat < 2 ^ 63 :=
    man_lt hx ((exp_eq x).trans hzero)
  obtain ⟨hv, hsmall, hdiscarded⟩ := SoftFloat.align64_spec hman (Nat.sub_pos_of_lt hlt)
  have hy' : 2 ^ 63 ≤ y.man.toNat := le_man hy (by rw [exp_eq]; omega)
  have hholds := SoftFloat.newlyAligned_holds y.biasedExponent.toNat hy' hsmall hdiscarded
    (Nat.mod_lt _ hpos)
  refine computes_sum hholds (by omega) (by omega) ?_
  rw [magnitude_aligned hlt, hv, Nat.cast_add, add_assoc, quotient_add_remainder _ hpos, add_mul,
    Float80.magnitude, max_eq_left (by omega)]

theorem isZero_of (hexp : x.biasedExponent.toNat = 0) (hman : x.man.toNat = 0) : x.isZero :=
  decide_eq_true ⟨UInt16.toNat_inj.1 hexp, UInt64.toNat_inj.1 hman⟩

theorem computes_addMags (env : SoftFloat.State) (mode : RoundingMode) (precision : Precision)
    (sign : Bool) (hx : x.Canonical) (hy : y.Canonical) (hxfinite : x.isFinite)
    (hyfinite : y.isFinite) (hne : ¬(x.isZero ∧ y.isZero)) :
    Computes (FloatEnv.configured env mode precision)
      (.ofRounded sign (precision.format.round mode sign (x.magnitude + y.magnitude)))
      (SoftFloat.addMagsExtF80 x.toSF y.toSF sign (FloatEnv.configured env mode precision)) := by
  have hxexp := biasedExponent_lt hxfinite
  have hyexp := biasedExponent_lt hyfinite
  rw [SoftFloat.addMagsExtF80]
  simp only [exp_eq]
  rcases lt_trichotomy x.biasedExponent.toNat y.biasedExponent.toNat with hlt | heq | hgt
  · have haligned := computes_aligned env mode precision sign hx hy hyfinite hlt
    have hdist : (-((x.biasedExponent.toNat : ℤ) - y.biasedExponent.toNat)).toNat =
        y.biasedExponent.toNat - x.biasedExponent.toNat := by omega
    rw [if_neg (by omega), if_pos (by omega), if_neg (by omega), hdist, add_comm]
    simp only [UInt64.add_comm _ y.toSF.signif]
    exact haligned
  · rw [if_pos (by omega), if_neg (by omega)]
    split
    · next hzero =>
      have hx' := man_lt hx ((exp_eq x).trans hzero)
      have hy' := man_lt hy ((exp_eq y).trans (by omega))
      have hsum : (x.toSF.signif + y.toSF.signif).toNat = x.man.toNat + y.man.toNat :=
        (UInt64.toNat_add _ _).trans (Nat.mod_eq_of_lt (by omega))
      have hsum' : x.toSF.signif + y.toSF.signif ≠ 0 := by
        rw [SoftFloat.ne_zero_iff, hsum]
        intro hnone
        refine hne ⟨?_, ?_⟩
        · exact isZero_of (by omega) (by omega)
        · exact isZero_of (by omega) (by omega)
      obtain ⟨hnormalized, hlo⟩ := toNat_normalized hsum'
      have hshift := countlZero_lt hsum'
      rw [normSubnormalExtF80Sig_eq hsum']
      refine computes_roundPack env mode precision sign ?_ (by dsimp only; omega)
        (by dsimp only; omega) (SoftFloat.approximates_word _) ?_
      · dsimp only
        omega
      · dsimp only
        rw [hnormalized, hsum, SoftFloat.cast_mul_two_pow, magnitude, magnitude, Nat.cast_add,
          show max (x.biasedExponent.toNat : ℤ) 1 = 1 by omega,
          show max (y.biasedExponent.toNat : ℤ) 1 = 1 by omega, ← add_mul]
        congr 2
        ring
    · next hnormal =>
      have hx' := le_man hx (by rw [exp_eq]; omega)
      have hy' := le_man hy (by rw [exp_eq]; omega)
      have hsum : (x.man + y.man).toNat + 2 ^ 64 = x.man.toNat + y.man.toNat := by
        have := x.man.toNat_lt
        have := y.man.toNat_lt
        rw [UInt64.toNat_add]
        omega
      have hholds := SoftFloat.shiftRight1_holds x.biasedExponent.toNat (x.man + y.man)
        SoftFloat.discarded_nothing Nat.one_pos
      refine computes_sum hholds (by omega) (by omega) ?_
      rw [hsum, magnitude, magnitude, heq, max_eq_left (by omega)]
      push_cast
      ring
  · have haligned := computes_aligned env mode precision sign hy hx hxfinite hgt
    have hdist : ((x.biasedExponent.toNat : ℤ) - y.biasedExponent.toNat).toNat =
        x.biasedExponent.toNat - y.biasedExponent.toNat := by omega
    rw [if_neg (by omega), if_neg (by omega), if_neg (by omega), hdist]
    exact haligned

end AddMags

section NormRoundPack

variable {env : SoftFloat.State} {mode : RoundingMode} {precision : Precision}

theorem toNat_normalized128 {w : SoftFloat.Uint128} (hw : w.v64 ≠ 0) :
    w.toNat * 2 ^ countlZero w.v64 < 2 ^ 128 ∧ 2 ^ 127 ≤ w.toNat * 2 ^ countlZero w.v64 := by
  have hshift := countlZero_lt hw
  obtain ⟨hnormalized, hlo⟩ := toNat_normalized hw
  have hlt := (w.v64 <<< UInt64.ofNat (countlZero w.v64)).toNat_lt
  have hlow := w.v0.toNat_lt
  have hpow : 2 ^ countlZero w.v64 * 2 ^ (64 - countlZero w.v64) = 2 ^ 64 := by
    rw [← pow_add, Nat.add_sub_of_le hshift.le]
  have hpos := Nat.two_pow_pos (countlZero w.v64)
  rw [hnormalized] at hlt
  rw [SoftFloat.Uint128.toNat]
  generalize 2 ^ countlZero w.v64 = p at *
  have hroom : (w.v64.toNat + 1) * p ≤ 2 ^ 64 := by
    rw [← hpow, Nat.mul_comm p] at hlt ⊢
    exact Nat.mul_le_mul_right p (Nat.lt_of_mul_lt_mul_right hlt)
  have hlow' : w.v0.toNat * p < 2 ^ 64 * p := Nat.mul_lt_mul_of_pos_right hlow hpos
  have hsplit : (w.v64.toNat * 2 ^ 64 + w.v0.toNat) * p =
      w.v64.toNat * p * 2 ^ 64 + w.v0.toNat * p := by ring
  rw [Nat.succ_mul] at hroom
  omega

/-- Normalization shifts two words to the left. -/
theorem normRoundPackToExtF80_eq (sign : Bool) (exp : ℤ) {z : SoftFloat.Uint128}
    (hz : z.toNat ≠ 0) (roundingPrecision : UInt8) (s : SoftFloat.State) :
    ∃ (dist : ℕ) (z' : SoftFloat.Uint128), dist < 128 ∧ 2 ^ 127 ≤ z'.toNat ∧
      z'.toNat = z.toNat * 2 ^ dist ∧
      SoftFloat.normRoundPackToExtF80 sign exp z.v64 z.v0 roundingPrecision s =
        some (SoftFloat.roundPackToExtF80 sign (exp - dist) z'.v64 z'.v0 roundingPrecision s) := by
  have hshifted {w : SoftFloat.Uint128} (e : ℤ) (hw : w.v64 ≠ 0) :
      ∃ z' : SoftFloat.Uint128, 2 ^ 127 ≤ z'.toNat ∧
        z'.toNat = w.toNat * 2 ^ countlZero w.v64 ∧
        (if SoftFloat.countLeadingZeros64 w.v64 = 0 then
          some (SoftFloat.roundPackToExtF80 sign e w.v64 w.v0 roundingPrecision s)
        else if SoftFloat.countLeadingZeros64 w.v64 < 64 then
          some (SoftFloat.roundPackToExtF80 sign (e - SoftFloat.countLeadingZeros64 w.v64)
            (SoftFloat.shortShiftLeft128 w.v64 w.v0 (SoftFloat.countLeadingZeros64 w.v64)).v64
            (SoftFloat.shortShiftLeft128 w.v64 w.v0 (SoftFloat.countLeadingZeros64 w.v64)).v0
            roundingPrecision s)
        else none) = some (SoftFloat.roundPackToExtF80 sign (e - countlZero w.v64) z'.v64 z'.v0
          roundingPrecision s) := by
    have hlt := countlZero_lt hw
    obtain ⟨hfits, hlo⟩ := toNat_normalized128 hw
    rw [SoftFloat.countLeadingZeros64]
    split
    · next hzero =>
      rw [hzero, pow_zero, Nat.mul_one] at hlo
      refine ⟨w, hlo, by rw [hzero, pow_zero, Nat.mul_one], ?_⟩
      rw [hzero, Nat.cast_zero, sub_zero]
    · next hpos =>
      have hshift := SoftFloat.toNat_shortShiftLeft128 w.v64 w.v0 (Nat.pos_of_ne_zero hpos) hlt
      rw [← Nat.mod_eq_of_lt hfits] at hlo
      exact ⟨_, hlo.trans_eq hshift.symm, hshift.trans (Nat.mod_eq_of_lt hfits), rfl⟩
  rw [SoftFloat.normRoundPackToExtF80]
  split
  · next hhigh =>
    have hv0 : z.toNat = z.v0.toNat := by
      rw [SoftFloat.Uint128.toNat, hhigh, UInt64.toNat_zero, Nat.zero_mul, Nat.zero_add]
    have hne : z.v0 ≠ 0 := by
      rw [SoftFloat.ne_zero_iff, ← hv0]
      exact hz
    obtain ⟨z', hlo, heq, hcode⟩ := hshifted (w := ⟨z.v0, 0⟩) (exp - 64) hne
    refine ⟨64 + countlZero z.v0, z', by have := countlZero_lt hne; omega, hlo, ?_, ?_⟩
    · rw [heq, hv0, pow_add, ← Nat.mul_assoc, SoftFloat.Uint128.toNat, UInt64.toNat_zero,
        Nat.add_zero]
    · rw [show exp - ((64 + countlZero z.v0 : ℕ) : ℤ) = exp - 64 - countlZero z.v0 by
        push_cast; ring]
      exact hcode
  · next hhigh =>
    obtain ⟨z', hlo, heq, hcode⟩ := hshifted exp hhigh
    exact ⟨countlZero z.v64, z', (countlZero_lt hhigh).trans (by decide), hlo, heq, hcode⟩

/-- The bits of a difference that were jammed are normalized by at most one place. -/
theorem computes_normRoundPack {current : SoftFloat.State} (mode : RoundingMode)
    (precision : Precision) (sign : Bool) {exp : ℤ} {z : SoftFloat.Uint128} {t w : ℚ}
    (hmode : current.roundingMode = SoftFloat.ofMode mode) (hz : z.toNat ≠ 0)
    (h : (z.toNat : ℚ) = t ∨ 2 ^ 126 ≤ z.toNat ∧ SameCell 2 (z.toNat : ℚ) t)
    (hlo : -2 ^ 30 ≤ exp) (hhi : exp < 2 ^ 30) (hw : w = t * 2 ^ (exp - 16510)) :
    Computes current (.ofRounded sign (precision.format.round mode sign w))
      (SoftFloat.normRoundPackToExtF80 sign exp z.v64 z.v0 precision.toByte current) := by
  obtain ⟨dist, z', hdist, hlo', heq, hcode⟩ := normRoundPackToExtF80_eq sign exp hz
    precision.toByte current
  have hsig : 2 ^ 63 ≤ z'.v64.toNat := by
    rw [← z'.toNat_div]
    omega
  have hcell : SoftFloat.Approximates z'.v64 z'.v0 (t * 2 ^ dist / (2 ^ 64 : ℕ)) := by
    have hword : ((z'.v64.toNat * 2 ^ 64 + z'.v0.toNat : ℕ) : ℚ) = z.toNat * 2 ^ dist := by
      change (z'.toNat : ℚ) = _
      rw [heq]
      push_cast
      rfl
    rw [SoftFloat.Approximates, hword]
    rcases h with hexact | ⟨hlarge, hsame⟩
    · exact .of_eq (by rw [hexact])
    · have hscale : (0 : ℚ) < 2 ^ dist / (2 ^ 64 : ℕ) := by positivity
      have hdist' : dist ≤ 1 := by
        by_contra hgt
        have hpow : 2 ^ 2 ≤ 2 ^ dist := Nat.pow_le_pow_right two_pos (by omega)
        have hprod : 2 ^ 126 * 2 ^ 2 ≤ z.toNat * 2 ^ dist := Nat.mul_le_mul hlarge hpow
        have := z'.toNat_lt
        omega
      have hscaled := (hsame.mul_right hscale).coarsen (k := 2 ^ (62 - dist)) (by positivity)
        (Nat.two_pow_pos _)
      have hunit : ((2 ^ (62 - dist) : ℕ) : ℚ) * (2 * (2 ^ dist / (2 ^ 64 : ℕ))) = 1 / 2 := by
        rcases (show dist = 0 ∨ dist = 1 by omega) with rfl | rfl <;> norm_num
      rwa [hunit, ← mul_div_assoc, ← mul_div_assoc] at hscaled
  rw [hcode]
  refine computes_roundPack_of mode precision sign hmode hsig (by omega) (by omega) hcell ?_
  have hscale : exp - 16510 = exp - dist - 16446 + dist - (64 : ℕ) := by
    push_cast
    ring
  rw [hw, hscale, zpow_sub₀ two_ne_zero, zpow_add₀ two_ne_zero, zpow_natCast, zpow_natCast]
  push_cast
  ring

end NormRoundPack

section SubMags

variable {x y : Float80} {env : SoftFloat.State} {mode : RoundingMode} {precision : Precision}
  {sign : Bool}

theorem align128_spec {exp : ℤ} {sig : UInt64} {expDiff : ℕ}
    (hsmall : exp = 0 → sig.toNat < 2 ^ 63) (hpos : 0 < expDiff) :
    (SoftFloat.align128 exp sig expDiff).toNat =
        jam (sig.toNat * 2 ^ 64) (2 ^ SoftFloat.alignDist exp expDiff) ∧
      (SoftFloat.align128 exp sig expDiff).toNat < 2 ^ 127 := by
  have hsig := sig.toNat_lt
  rw [SoftFloat.align128]
  split
  · next hzero =>
    have hexp : exp = 0 := by
      by_contra hne
      rw [SoftFloat.alignDist, if_neg hne] at hzero
      omega
    have hlt := hsmall hexp
    have hexact : jam (sig.toNat * 2 ^ 64) (2 ^ 0) = sig.toNat * 2 ^ 64 := by
      rw [SoftFloat.jam_eq_ite, pow_zero, Nat.mod_one, Nat.div_one, if_neg (by decide)]
    have hword : SoftFloat.Uint128.toNat ⟨sig, 0⟩ = sig.toNat * 2 ^ 64 := by
      rw [SoftFloat.Uint128.toNat, UInt64.toNat_zero, Nat.add_zero]
    rw [hzero, hexact, hword]
    exact ⟨rfl, by omega⟩
  · next hne =>
    have hjam := SoftFloat.toNat_shiftRightJam128 sig 0 (Nat.pos_of_ne_zero hne)
    have hword : SoftFloat.Uint128.toNat ⟨sig, 0⟩ = sig.toNat * 2 ^ 64 := by
      rw [SoftFloat.Uint128.toNat, UInt64.toNat_zero, Nat.add_zero]
    have hquot : sig.toNat * 2 ^ 64 / 2 ^ SoftFloat.alignDist exp expDiff < 2 ^ 127 := by
      have hpow : 2 ^ 1 ≤ 2 ^ SoftFloat.alignDist exp expDiff :=
        Nat.pow_le_pow_right two_pos (Nat.pos_of_ne_zero hne)
      rw [Nat.div_lt_iff_lt_mul (Nat.two_pow_pos _)]
      omega
    rw [hword] at hjam
    refine ⟨hjam, ?_⟩
    rw [hjam]
    rcases jam_cases (sig.toNat * 2 ^ 64) (2 ^ SoftFloat.alignDist exp expDiff) with
      ⟨-, heq⟩ | ⟨-, heq⟩ <;> omega

/-- A difference of a normalized significand and an aligned one. -/
theorem toNat_sub_aligned {a : UInt64} {z : SoftFloat.Uint128} (ha : 2 ^ 63 ≤ a.toNat)
    (hz : z.toNat < 2 ^ 127) :
    (SoftFloat.sub128 a 0 z.v64 z.v0).toNat = a.toNat * 2 ^ 64 - z.toNat := by
  have ha' := a.toNat_lt
  have hsub := SoftFloat.toNat_sub128 a 0 z.v64 z.v0
  have hword : SoftFloat.Uint128.toNat ⟨a, 0⟩ = a.toNat * 2 ^ 64 := by
    rw [SoftFloat.Uint128.toNat, UInt64.toNat_zero, Nat.add_zero]
  rw [hword] at hsub
  change _ = (a.toNat * 2 ^ 64 + (2 ^ 128 - z.toNat)) % 2 ^ 128 at hsub
  omega

theorem computes_subAligned (env : SoftFloat.State) (mode : RoundingMode) (precision : Precision)
    (sign : Bool) (hx : x.Canonical) (hy : y.Canonical) (hfinite : y.isFinite)
    (hlt : x.biasedExponent.toNat < y.biasedExponent.toNat) :
    Computes (FloatEnv.configured env mode precision)
      (.ofRounded sign (precision.format.round mode sign (y.magnitude - x.magnitude)))
      (SoftFloat.subAligned sign y.biasedExponent.toNat y.man
        (SoftFloat.align128 x.biasedExponent.toNat x.man
          (y.biasedExponent.toNat - x.biasedExponent.toNat))
        (FloatEnv.configured env mode precision)) := by
  have hexp := biasedExponent_lt hfinite
  have hx' := x.man.toNat_lt
  have hy' : 2 ^ 63 ≤ y.man.toNat := le_man hy (by rw [exp_eq]; omega)
  have hman (hzero : (x.biasedExponent.toNat : ℤ) = 0) : x.man.toNat < 2 ^ 63 :=
    man_lt hx ((exp_eq x).trans hzero)
  obtain ⟨hjam, hsmall⟩ := align128_spec hman (Nat.sub_pos_of_lt hlt)
  have hsub := toNat_sub_aligned hy' hsmall
  have hmagnitude := magnitude_aligned hlt
  generalize SoftFloat.align128 x.biasedExponent.toNat x.man
    (y.biasedExponent.toNat - x.biasedExponent.toNat) = z at *
  generalize SoftFloat.alignDist x.biasedExponent.toNat
    (y.biasedExponent.toNat - x.biasedExponent.toNat) = dist at *
  have hpos := Nat.two_pow_pos dist
  have hcast : ((y.man.toNat * 2 ^ 64 - z.toNat : ℕ) : ℚ) =
      (y.man.toNat * 2 ^ 63 : ℤ) * 2 - (z.toNat : ℚ) := by
    rw [Nat.cast_sub (by omega)]
    push_cast
    ring
  refine computes_normRoundPack mode precision sign rfl (by omega)
    (t := (y.man.toNat * 2 ^ 63 : ℤ) * 2 - (x.man.toNat * 2 ^ 64 : ℕ) / (2 ^ dist : ℕ)) ?_
    (by omega) (by omega) ?_
  · rw [hsub, hcast, hjam]
    rcases le_or_gt dist 64 with hle | hgt
    · -- nothing but zeros is shifted out of the second word
      have hpow : 2 ^ 64 = 2 ^ dist * 2 ^ (64 - dist) := by rw [← pow_add, Nat.add_sub_of_le hle]
      have hexact : x.man.toNat * 2 ^ 64 % 2 ^ dist = 0 := by
        rw [hpow, Nat.mul_left_comm]
        exact Nat.mul_mod_right _ _
      have hquot := quotient_add_remainder (x.man.toNat * 2 ^ 64) hpos
      rw [hexact, Nat.cast_zero, zero_div, add_zero] at hquot
      rw [SoftFloat.jam_eq_ite, if_neg (not_not.2 hexact), hquot]
      exact .inl rfl
    · have hquot : x.man.toNat * 2 ^ 64 / 2 ^ dist < 2 ^ 63 := by
        have hpow : 2 ^ 65 ≤ 2 ^ dist := Nat.pow_le_pow_right two_pos hgt
        rw [Nat.div_lt_iff_lt_mul hpos]
        omega
      refine .inr ⟨?_, (sameCell_jam _ hpos).sub_left _⟩
      rw [← hjam]
      rcases jam_cases (x.man.toNat * 2 ^ 64) (2 ^ dist) with ⟨-, heq⟩ | ⟨-, heq⟩ <;> omega
  · rw [hmagnitude, magnitude, max_eq_left (by omega),
      show (y.biasedExponent.toNat : ℤ) - 16446 = y.biasedExponent.toNat - 16510 + (64 : ℕ) by
        push_cast; ring, zpow_add₀ two_ne_zero, zpow_natCast]
    push_cast
    ring

theorem magnitude_lt_of_exp (hx : x.Canonical) (hy : y.Canonical)
    (hlt : x.biasedExponent.toNat < y.biasedExponent.toNat) : x.magnitude < y.magnitude := by
  have hx' := x.man.toNat_lt
  have hy' : 2 ^ 63 ≤ y.man.toNat := le_man hy (by rw [exp_eq]; omega)
  have hquot : (x.man.toNat : ℚ) / (2 ^ SoftFloat.alignDist x.biasedExponent.toNat
      (y.biasedExponent.toNat - x.biasedExponent.toNat) : ℕ) < y.man.toNat := by
    rw [div_lt_iff₀ (by positivity)]
    by_cases hexp : (x.biasedExponent.toNat : ℤ) = 0
    · have hman := man_lt hx ((exp_eq x).trans hexp)
      have hone := Nat.one_le_two_pow (n := SoftFloat.alignDist x.biasedExponent.toNat
        (y.biasedExponent.toNat - x.biasedExponent.toNat))
      exact_mod_cast (hman.trans_le hy').trans_le (Nat.le_mul_of_pos_right _ hone)
    · have hpow : 2 ^ 1 ≤ 2 ^ SoftFloat.alignDist x.biasedExponent.toNat
          (y.biasedExponent.toNat - x.biasedExponent.toNat) := by
        rw [SoftFloat.alignDist, if_neg hexp]
        exact Nat.pow_le_pow_right two_pos (by omega)
      have hprod := Nat.mul_le_mul hy' hpow
      exact_mod_cast (show x.man.toNat < y.man.toNat * _ by omega)
  rw [magnitude_aligned hlt, magnitude, max_eq_left (by omega)]
  exact mul_lt_mul_of_pos_right hquot (zpow_pos two_pos _)

theorem magnitude_lt_iff_of_exp (heq : x.biasedExponent.toNat = y.biasedExponent.toNat) :
    x.magnitude < y.magnitude ↔ x.man.toNat < y.man.toNat := by
  rw [magnitude, magnitude, heq, mul_lt_mul_iff_left₀ (zpow_pos two_pos _), Nat.cast_lt]

theorem computes_subSame (env : SoftFloat.State) (mode : RoundingMode) (precision : Precision)
    (sign : Bool) (hfinite : y.isFinite) {expZ : ℤ}
    (hexp : expZ = max (y.biasedExponent.toNat : ℤ) 1)
    (heq : x.biasedExponent.toNat = y.biasedExponent.toNat) (hlt : x.man.toNat < y.man.toNat) :
    Computes (FloatEnv.configured env mode precision)
      (.ofRounded sign (precision.format.round mode sign (y.magnitude - x.magnitude)))
      (SoftFloat.subAligned sign expZ y.man ⟨x.man, 0⟩ (FloatEnv.configured env mode precision)) := by
  have hexp' := biasedExponent_lt hfinite
  have hy' := y.man.toNat_lt
  have hword (a : UInt64) : SoftFloat.Uint128.toNat ⟨a, 0⟩ = a.toNat * 2 ^ 64 := by
    rw [SoftFloat.Uint128.toNat, UInt64.toNat_zero, Nat.add_zero]
  have hsub := SoftFloat.toNat_sub128 y.man 0 x.man 0
  rw [hword, hword] at hsub
  have hdiff : (SoftFloat.sub128 y.man 0 x.man 0).toNat =
      (y.man.toNat - x.man.toNat) * 2 ^ 64 := by omega
  refine computes_normRoundPack mode precision sign rfl (by dsimp only; omega) (.inl rfl)
    (by omega) (by omega) ?_
  dsimp only
  rw [hdiff, SoftFloat.cast_mul_two_pow, Nat.cast_sub hlt.le, magnitude, magnitude, heq, hexp,
    ← sub_mul]
  congr 2
  push_cast
  ring

theorem computes_subMags (env : SoftFloat.State) (mode : RoundingMode) (precision : Precision)
    (sign : Bool) (hx : x.Canonical) (hy : y.Canonical) (hxfinite : x.isFinite)
    (hyfinite : y.isFinite) :
    Computes (FloatEnv.configured env mode precision)
      (Datum.add precision.format mode (.finite sign x.magnitude) (.finite (!sign) y.magnitude))
      (SoftFloat.subMagsExtF80 x.toSF y.toSF sign (FloatEnv.configured env mode precision)) := by
  have hxexp := biasedExponent_lt hxfinite
  have hyexp := biasedExponent_lt hyfinite
  have hswap (hlt : x.magnitude < y.magnitude) :
      Datum.add precision.format mode (.finite sign x.magnitude) (.finite (!sign) y.magnitude) =
        .ofRounded (!sign) (precision.format.round mode (!sign) (y.magnitude - x.magnitude)) := by
    have hsame := Datum.add_opposite precision.format mode (!sign) hlt
    rwa [Bool.not_not, Datum.sum_comm] at hsame
  rw [SoftFloat.subMagsExtF80]
  simp only [exp_eq]
  rcases lt_trichotomy x.biasedExponent.toNat y.biasedExponent.toNat with hlt | heq | hgt
  · have hdist : (-((x.biasedExponent.toNat : ℤ) - y.biasedExponent.toNat)).toNat =
        y.biasedExponent.toNat - x.biasedExponent.toNat := by omega
    rw [if_neg (by omega), if_pos (by omega), if_neg (by omega), hdist,
      hswap (magnitude_lt_of_exp hx hy hlt)]
    exact computes_subAligned env mode precision (!sign) hx hy hyfinite hlt
  · have hexpZ : (if (x.biasedExponent.toNat : ℤ) = 0 then 1 else (x.biasedExponent.toNat : ℤ)) =
        max (y.biasedExponent.toNat : ℤ) 1 := by
      split <;> omega
    rw [if_neg (by omega), if_neg (by omega), if_neg (by omega), hexpZ]
    simp only [UInt64.lt_iff_toNat_lt]
    split
    · next hlt =>
      rw [Datum.add_opposite _ _ _ ((magnitude_lt_iff_of_exp heq.symm).2 hlt)]
      exact computes_subSame env mode precision sign hxfinite (by rw [heq]) heq.symm hlt
    · next hle =>
      split
      · next hlt =>
        rw [hswap ((magnitude_lt_iff_of_exp heq).2 hlt)]
        exact computes_subSame env mode precision (!sign) hyfinite rfl heq hlt
      · next hge =>
        have hsame : x.magnitude = y.magnitude := by
          refine le_antisymm (not_lt.1 fun h => hle ?_) (not_lt.1 fun h => hge ?_)
          · exact (magnitude_lt_iff_of_exp heq.symm).1 h
          · exact (magnitude_lt_iff_of_exp heq).1 h
        have hdown : SoftFloat.ofMode mode = .min ↔ mode = .down := by cases mode <;> decide
        rw [hsame, Datum.add_cancels, FloatEnv.configured_roundingMode]
        simp only [hdown]
        exact computes_exact (datum_packZero _)
  · have hdist : ((x.biasedExponent.toNat : ℤ) - y.biasedExponent.toNat).toNat =
        x.biasedExponent.toNat - y.biasedExponent.toNat := by omega
    rw [if_pos (by omega), if_neg (by omega), hdist,
      Datum.add_opposite _ _ _ (magnitude_lt_of_exp hy hx hgt)]
    exact computes_subAligned env mode precision sign hy hx hxfinite hgt

end SubMags

section Specials

variable {x y : Float80} {env : SoftFloat.State} {mode : RoundingMode} {precision : Precision}
  {sign : Bool}

theorem biasedExponent_of_isInfinite (hx : x.isInfinite) : x.biasedExponent.toNat = 0x7FFF := by
  rw [((isInfinite_iff x).1 hx).1]
  rfl

theorem biasedExponent_of_isNaN (hx : x.isNaN) : x.biasedExponent.toNat = 0x7FFF := by
  rw [((isNaN_iff x).1 hx).1]
  rfl

theorem man_of_isInfinite (hx : x.isInfinite) (hcanonical : x.Canonical) :
    x.man = 0x8000000000000000 := by
  have hexp := biasedExponent_of_isInfinite hx
  have hlow := ((isInfinite_iff x).1 hx).2
  have hhigh := le_man hcanonical (by rw [exp_eq]; omega)
  have hlt := x.man.toNat_lt
  apply UInt64.toNat_inj.1
  change x.man.toNat = 2 ^ 63
  omega

/-- Whether one of the operands is a NaN is seen from both fractions at once. -/
theorem or_fraction_ne_zero_iff (m m' : UInt64) :
    (m ||| m') &&& 0x7FFFFFFFFFFFFFFF ≠ 0 ↔
      m &&& 0x7FFFFFFFFFFFFFFF ≠ 0 ∨ m' &&& 0x7FFFFFFFFFFFFFFF ≠ 0 := by
  have hsplit : (m ||| m') &&& 0x7FFFFFFFFFFFFFFF =
      m &&& 0x7FFFFFFFFFFFFFFF ||| m' &&& 0x7FFFFFFFFFFFFFFF := by
    apply UInt64.toBitVec_inj.1
    simp only [UInt64.toBitVec_and, UInt64.toBitVec_or, BitVec.and_or_distrib_right]
  rw [hsplit, ne_eq, UInt64.or_eq_zero_iff, not_and_or]

theorem isNaN_iff_fraction (hexp : x.biasedExponent.toNat = 0x7FFF) :
    x.toSF.signif &&& 0x7FFFFFFFFFFFFFFF ≠ 0 ↔ x.isNaN := by
  rw [isNaN_iff, and_iff_right (UInt16.toNat_inj.1 hexp)]
  exact fraction_ne_zero_iff x.man

/-- The operand with the larger exponent is the NaN, if the exponents differ. -/
theorem nan_exponents (h : x.isNaN ∨ y.isNaN) :
    (x.biasedExponent.toNat < y.biasedExponent.toNat → y.isNaN) ∧
      (y.biasedExponent.toNat < x.biasedExponent.toNat → x.isNaN) ∧
      (x.biasedExponent.toNat = y.biasedExponent.toNat → x.biasedExponent.toNat = 0x7FFF) := by
  have hx := biasedExponent_le x
  have hy := biasedExponent_le y
  rcases h with hnan | hnan
  · have hexp := biasedExponent_of_isNaN hnan
    exact ⟨fun _ => by omega, fun _ => hnan, fun _ => hexp⟩
  · have hexp := biasedExponent_of_isNaN hnan
    exact ⟨fun _ => hnan, fun _ => by omega, fun heq => heq.trans hexp⟩

theorem or_fraction_of_nan (h : x.isNaN ∨ y.isNaN) (hx : x.biasedExponent.toNat = 0x7FFF)
    (hy : y.biasedExponent.toNat = 0x7FFF) :
    (x.toSF.signif ||| y.toSF.signif) &&& 0x7FFFFFFFFFFFFFFF ≠ 0 :=
  (or_fraction_ne_zero_iff _ _).2 (h.imp (isNaN_iff_fraction hx).2 (isNaN_iff_fraction hy).2)

theorem addMags_nan (h : x.isNaN ∨ y.isNaN) :
    SoftFloat.addMagsExtF80 x.toSF y.toSF sign env =
      some (SoftFloat.propagateNaNExtF80UI x.toSF y.toSF env) := by
  obtain ⟨hright, hleft, hboth⟩ := nan_exponents h
  rw [SoftFloat.addMagsExtF80]
  simp only [exp_eq]
  rcases lt_trichotomy x.biasedExponent.toNat y.biasedExponent.toNat with hlt | heq | hgt
  · have hexp := biasedExponent_of_isNaN (hright hlt)
    rw [if_neg (by omega), if_pos (by omega), if_pos (by omega),
      if_pos ((isNaN_iff_fraction hexp).2 (hright hlt))]
  · have hexp := hboth heq
    rw [if_pos (by omega), if_pos (by omega), if_pos (or_fraction_of_nan h hexp (by omega))]
  · have hexp := biasedExponent_of_isNaN (hleft hgt)
    rw [if_neg (by omega), if_neg (by omega), if_pos (by omega),
      if_pos ((isNaN_iff_fraction hexp).2 (hleft hgt))]

theorem subMags_nan (h : x.isNaN ∨ y.isNaN) :
    SoftFloat.subMagsExtF80 x.toSF y.toSF sign env =
      some (SoftFloat.propagateNaNExtF80UI x.toSF y.toSF env) := by
  obtain ⟨hright, hleft, hboth⟩ := nan_exponents h
  rw [SoftFloat.subMagsExtF80]
  simp only [exp_eq]
  rcases lt_trichotomy x.biasedExponent.toNat y.biasedExponent.toNat with hlt | heq | hgt
  · have hexp := biasedExponent_of_isNaN (hright hlt)
    rw [if_neg (by omega), if_pos (by omega), if_pos (by omega),
      if_pos ((isNaN_iff_fraction hexp).2 (hright hlt))]
  · have hexp := hboth heq
    rw [if_neg (by omega), if_neg (by omega), if_pos (by omega),
      if_pos (or_fraction_of_nan h hexp (by omega))]
  · have hexp := biasedExponent_of_isNaN (hleft hgt)
    rw [if_pos (by omega), if_pos (by omega), if_pos ((isNaN_iff_fraction hexp).2 (hleft hgt))]

theorem toSF_of_isInfinite (hx : x.isInfinite) (hcanonical : x.Canonical) :
    (fromSF x.toSF).Canonical ∧ (fromSF x.toSF).datum = .infinite x.sign :=
  ⟨hcanonical, datum_of_isInfinite hx⟩

theorem magnitude_nonneg (x : Float80) : 0 ≤ x.magnitude :=
  mul_nonneg (Nat.cast_nonneg _) (zpow_nonneg zero_le_two _)

theorem magnitude_pos (hx : x.Canonical) (hzero : ¬x.isZero) : 0 < x.magnitude := by
  refine lt_of_le_of_ne x.magnitude_nonneg fun heq => hzero ?_
  have hman : x.man.toNat = 0 := by rw [(magnitude_eq_zero_iff x).1 heq.symm, UInt64.toNat_zero]
  refine isZero_of ?_ hman
  by_contra hexp
  have := le_man hx (by rw [exp_eq]; omega)
  omega

/-- Magnitudes are added, whatever the operands are, under the sign of the first one. -/
theorem computes_addMags_all (env : SoftFloat.State) (mode : RoundingMode)
    (precision : Precision) (hx : x.Canonical) (hy : y.Canonical) (hne : ¬(x.isZero ∧ y.isZero)) :
    Computes (FloatEnv.configured env mode precision)
      (Datum.add precision.format mode x.datum (y.datum.withSign x.sign))
      (SoftFloat.addMagsExtF80 x.toSF y.toSF x.sign (FloatEnv.configured env mode precision)) := by
  by_cases hnan : x.isNaN ∨ y.isNaN
  · rw [addMags_nan hnan, Datum.add_of_nan _ _ (hnan.imp isNaN_datum
      fun h => Datum.isNaN_withSign.2 (isNaN_datum h)), Datum.isSignaling_withSign]
    exact computes_nan _ hnan
  obtain ⟨hxnan, hynan⟩ := not_or.1 hnan
  have hxclass := (classes x).imp_right fun h => h.resolve_right hxnan
  have hyclass := (classes y).imp_right fun h => h.resolve_right hynan
  rcases hxclass with hxfinite | hxinfinite
  · have hxexp := biasedExponent_lt hxfinite
    rw [datum_of_isFinite hxfinite]
    rcases hyclass with hyfinite | hyinfinite
    · have hpos : 0 < x.magnitude + y.magnitude := by
        rcases not_and_or.1 hne with hxzero | hyzero
        · exact add_pos_of_pos_of_nonneg (magnitude_pos hx hxzero) y.magnitude_nonneg
        · exact add_pos_of_nonneg_of_pos x.magnitude_nonneg (magnitude_pos hy hyzero)
      rw [datum_of_isFinite hyfinite, Datum.withSign, Datum.add_same _ _ _ hpos]
      exact computes_addMags env mode precision x.sign hx hy hxfinite hyfinite hne
    · have hyexp := biasedExponent_of_isInfinite hyinfinite
      rw [datum_of_isInfinite hyinfinite, SoftFloat.addMagsExtF80]
      simp only [exp_eq]
      rw [if_neg (by omega), if_pos (by omega), if_pos (by omega),
        if_neg (mt (isNaN_iff_fraction hyexp).1 hynan)]
      rw [show y.toSF.signif = 0x8000000000000000 from man_of_isInfinite hyinfinite hy]
      exact computes_exact (datum_packInfinity x.sign)
  · have hxexp := biasedExponent_of_isInfinite hxinfinite
    rw [datum_of_isInfinite hxinfinite, SoftFloat.addMagsExtF80]
    simp only [exp_eq]
    rcases hyclass with hyfinite | hyinfinite
    · have hyexp := biasedExponent_lt hyfinite
      rw [datum_of_isFinite hyfinite, if_neg (by omega), if_neg (by omega), if_pos (by omega),
        if_neg (mt (isNaN_iff_fraction hxexp).1 hxnan)]
      exact computes_exact (toSF_of_isInfinite hxinfinite hx)
    · have hyexp := biasedExponent_of_isInfinite hyinfinite
      have hfraction := mt (or_fraction_ne_zero_iff x.toSF.signif y.toSF.signif).1
        (not_or.2 ⟨mt (isNaN_iff_fraction hxexp).1 hxnan, mt (isNaN_iff_fraction hyexp).1 hynan⟩)
      rw [datum_of_isInfinite hyinfinite, if_pos (by omega), if_pos (by omega), if_neg hfraction,
        Datum.withSign, Datum.add, if_pos rfl]
      exact computes_exact (toSF_of_isInfinite hxinfinite hx)

theorem computes_subMags_all (env : SoftFloat.State) (mode : RoundingMode)
    (precision : Precision) (hx : x.Canonical) (hy : y.Canonical) :
    Computes (FloatEnv.configured env mode precision)
      (Datum.add precision.format mode x.datum (y.datum.withSign !x.sign))
      (SoftFloat.subMagsExtF80 x.toSF y.toSF x.sign (FloatEnv.configured env mode precision)) := by
  by_cases hnan : x.isNaN ∨ y.isNaN
  · rw [subMags_nan hnan, Datum.add_of_nan _ _ (hnan.imp isNaN_datum
      fun h => Datum.isNaN_withSign.2 (isNaN_datum h)), Datum.isSignaling_withSign]
    exact computes_nan _ hnan
  obtain ⟨hxnan, hynan⟩ := not_or.1 hnan
  have hxclass := (classes x).imp_right fun h => h.resolve_right hxnan
  have hyclass := (classes y).imp_right fun h => h.resolve_right hynan
  rcases hxclass with hxfinite | hxinfinite
  · have hxexp := biasedExponent_lt hxfinite
    rw [datum_of_isFinite hxfinite]
    rcases hyclass with hyfinite | hyinfinite
    · rw [datum_of_isFinite hyfinite]
      exact computes_subMags env mode precision x.sign hx hy hxfinite hyfinite
    · have hyexp := biasedExponent_of_isInfinite hyinfinite
      rw [datum_of_isInfinite hyinfinite, SoftFloat.subMagsExtF80]
      simp only [exp_eq]
      rw [if_neg (by omega), if_pos (by omega), if_pos (by omega),
        if_neg (mt (isNaN_iff_fraction hyexp).1 hynan)]
      exact computes_exact (datum_packInfinity !x.sign)
  · have hxexp := biasedExponent_of_isInfinite hxinfinite
    rw [datum_of_isInfinite hxinfinite, SoftFloat.subMagsExtF80]
    simp only [exp_eq]
    rcases hyclass with hyfinite | hyinfinite
    · have hyexp := biasedExponent_lt hyfinite
      rw [datum_of_isFinite hyfinite, if_pos (by omega), if_pos (by omega),
        if_neg (mt (isNaN_iff_fraction hxexp).1 hxnan)]
      exact computes_exact (toSF_of_isInfinite hxinfinite hx)
    · have hyexp := biasedExponent_of_isInfinite hyinfinite
      have hfraction := mt (or_fraction_ne_zero_iff x.toSF.signif y.toSF.signif).1
        (not_or.2 ⟨mt (isNaN_iff_fraction hxexp).1 hxnan, mt (isNaN_iff_fraction hyexp).1 hynan⟩)
      have hsign : ¬x.sign = !x.sign := by cases x.sign <;> decide
      rw [datum_of_isInfinite hyinfinite, if_neg (by omega), if_neg (by omega), if_pos (by omega),
        if_neg hfraction, Datum.withSign, Datum.add, if_neg hsign]
      exact computes_invalid

theorem withSign_datum (x : Float80) : x.datum.withSign x.sign = x.datum := by
  rcases classes x with hx | hx | hx
  · rw [datum_of_isFinite hx, Datum.withSign]
  · rw [datum_of_isInfinite hx, Datum.withSign]
  · rw [datum_of_isNaN hx, Datum.withSign]

theorem negate_datum (x : Float80) : x.datum.negate = x.datum.withSign !x.sign := by
  rcases classes x with hx | hx | hx
  · rw [datum_of_isFinite hx, Datum.withSign, Datum.negate]
  · rw [datum_of_isInfinite hx, Datum.withSign, Datum.negate]
  · rw [datum_of_isNaN hx, Datum.withSign, Datum.negate]

end Specials

section Operators

variable {x y : Float80} {env : SoftFloat.State}

def add (x rhs : Float80) (env : SoftFloat.State) : Option (Float80 × SoftFloat.State) :=
  (SoftFloat.extF80Add x.toSF rhs.toSF env).map fun z => (fromSF z.1, z.2)

def sub (x rhs : Float80) (env : SoftFloat.State) : Option (Float80 × SoftFloat.State) :=
  (SoftFloat.extF80Sub x.toSF rhs.toSF env).map fun z => (fromSF z.1, z.2)

/-- Nothing is left to normalize in two zeros: their mantissa is shifted by the width of the
word. -/
theorem addMags_zero (sign : Bool) (env : SoftFloat.State) (hx : x.isZero) (hy : y.isZero) :
    SoftFloat.addMagsExtF80 x.toSF y.toSF sign env = none := by
  obtain ⟨hxexp, hxman⟩ := of_decide_eq_true hx
  obtain ⟨hyexp, hyman⟩ := of_decide_eq_true hy
  have hsum : x.toSF.signif + y.toSF.signif = 0 := by
    change x.man + y.man = 0
    rw [hxman, hyman]
    rfl
  have hnone : SoftFloat.normSubnormalExtF80Sig 0 = none := by decide
  rw [SoftFloat.addMagsExtF80]
  simp only [exp_eq, hxexp, hyexp]
  rw [if_pos (by decide), if_neg (by decide), if_pos (by decide), hsum, hnone]
  rfl

/-- The code computes the sum that IEEE 754 asks for, except of two zeros with one sign. -/
theorem add_returns (x y : Float80) (env : SoftFloat.State) (mode : RoundingMode)
    (precision : Precision) (hx : x.Canonical) (hy : y.Canonical) :
    if x.isZero ∧ y.isZero ∧ x.sign = y.sign then
      x.add y (FloatEnv.configured env mode precision) = none
    else
      Returns (FloatEnv.configured env mode precision)
        (Datum.add precision.format mode x.datum y.datum)
        (x.add y (FloatEnv.configured env mode precision)) := by
  split
  · next hzero =>
    obtain ⟨hxzero, hyzero, hsame⟩ := hzero
    rw [add, SoftFloat.extF80Add]
    simp only [signExtF80UI64_toSF]
    rw [if_pos hsame, addMags_zero _ _ hxzero hyzero]
    rfl
  next hne =>
  apply Computes.returns
  rw [SoftFloat.extF80Add]
  simp only [signExtF80UI64_toSF]
  split
  · next hsame =>
    rw [← withSign_datum y, ← hsame]
    exact computes_addMags_all env mode precision hx hy fun h => hne ⟨h.1, h.2, hsame⟩
  · next hsame =>
    rw [← withSign_datum y, ← Bool.not_eq.2 hsame]
    exact computes_subMags_all env mode precision hx hy

theorem add_returns_tiny :
    let one : Float80 := ⟨0x3FFF, 0x8000000000000000⟩
    let tiny : Float80 := ⟨0x8000, 0x0000000000000001⟩
    let current := FloatEnv.configured ⟨.nearEven, 0, 80⟩ .down .single
    if one.isZero ∧ tiny.isZero ∧ one.sign = tiny.sign then one.add tiny current = none
    else Returns current (Datum.add Precision.single.format .down one.datum tiny.datum)
      (one.add tiny current) :=
  add_returns _ _ _ .down .single (by decide) (by decide)

/-- The same of differences, where two zeros with different signs are left out. -/
theorem sub_returns (x y : Float80) (env : SoftFloat.State) (mode : RoundingMode)
    (precision : Precision) (hx : x.Canonical) (hy : y.Canonical) :
    if x.isZero ∧ y.isZero ∧ x.sign ≠ y.sign then
      x.sub y (FloatEnv.configured env mode precision) = none
    else
      Returns (FloatEnv.configured env mode precision)
        (Datum.subtract precision.format mode x.datum y.datum)
        (x.sub y (FloatEnv.configured env mode precision)) := by
  split
  · next hzero =>
    obtain ⟨hxzero, hyzero, hsame⟩ := hzero
    rw [sub, SoftFloat.extF80Sub]
    simp only [signExtF80UI64_toSF]
    rw [if_neg hsame, addMags_zero _ _ hxzero hyzero]
    rfl
  next hne =>
  apply Computes.returns
  rw [SoftFloat.extF80Sub, Datum.subtract, negate_datum]
  simp only [signExtF80UI64_toSF]
  split
  · next hsame =>
    rw [← hsame]
    exact computes_subMags_all env mode precision hx hy
  · next hsame =>
    rw [← Bool.eq_not.2 hsame]
    exact computes_addMags_all env mode precision hx hy fun h => hne ⟨h.1, h.2, hsame⟩

theorem sub_returns_half :
    let one : Float80 := ⟨0x3FFF, 0x8000000000000000⟩
    let half : Float80 := ⟨0x3FFE, 0x8000000000000000⟩
    let current := FloatEnv.configured ⟨.nearEven, 0, 80⟩ .nearest .extended
    if one.isZero ∧ half.isZero ∧ one.sign ≠ half.sign then one.sub half current = none
    else Returns current (Datum.subtract Precision.extended.format .nearest one.datum half.datum)
      (one.sub half current) :=
  sub_returns _ _ _ .nearest .extended (by decide) (by decide)

end Operators

end Float80

end Utlib
