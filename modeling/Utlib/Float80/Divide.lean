import Utlib.Float80.Multiply
import Utlib.SoftFloat.Quotient

/-! Quotients are correctly rounded. -/

namespace Utlib

open Utlib.Rounding

namespace SoftFloat

section Rounds

variable {a i : ℕ} {b : UInt64} {z : Division}

/-- After `i` rounds: the digits so far, and what is left of the dividend. -/
structure Quotient (a : ℕ) (b : UInt64) (i : ℕ) (z : Division) : Prop where
  eq : z.sigZ.toNat * (b.toNat * 2 ^ 32) + z.rem.toNat = a * 2 ^ (29 * i)
  lt : z.rem.toNat < 2 * (b.toNat * 2 ^ 32)

theorem toNat_digit (s q : UInt64) (h : s.toNat * 2 ^ 29 + q.toNat < 2 ^ 64) :
    (s <<< 29 + q).toNat = s.toNat * 2 ^ 29 + q.toNat := by
  have hshift : (s <<< 29).toNat = s.toNat * 2 ^ 29 := by
    rw [UInt64.toNat_shiftLeft, Nat.shiftLeft_eq]
    exact Nat.mod_eq_of_lt (lt_of_le_of_lt (Nat.le_add_right _ _) h)
  rw [UInt64.toNat_add, hshift, Nat.mod_eq_of_lt h]

theorem divRound_quotient (hb : 2 ^ 63 ≤ b.toNat) (ha : a < b.toNat * 2 ^ 32) (hi : i < 2)
    (h : Quotient a b i z) :
    Quotient a b (i + 1) (divRound b (approxRecip32 (b >>> 32).toUInt32) z) := by
  obtain ⟨hup, hdown⟩ := estimate_bounds hb h.lt
  have hcases := reduce_corrected (toNat_shifted b) (by decide) le_rfl h.lt hup
    (hdown.trans_le (Nat.mul_le_mul_right _ (by omega)))
  rw [divRound]
  generalize estimate z.rem (approxRecip32 (b >>> 32).toUInt32) = q at *
  have hpow : a * 2 ^ (29 * (i + 1)) = a * 2 ^ (29 * i) * 2 ^ 29 := by rw [mul_add, pow_add]; ring
  have htotal : a * 2 ^ (29 * (i + 1)) < b.toNat * 2 ^ 32 * 2 ^ 58 := by
    refine Nat.mul_lt_mul_of_lt_of_le ha (Nat.pow_le_pow_right two_pos (by omega)) (by positivity)
  have hdigits {n r : ℕ} (heq : n * (b.toNat * 2 ^ 32) + r = a * 2 ^ (29 * (i + 1))) :
      n < 2 ^ 58 := by
    by_contra hge
    have := Nat.mul_le_mul_right (b.toNat * 2 ^ 32) (not_lt.1 hge)
    omega
  have hexpand (n : ℕ) : (z.sigZ.toNat * 2 ^ 29 + n) * (b.toNat * 2 ^ 32) =
      z.sigZ.toNat * (b.toNat * 2 ^ 32) * 2 ^ 29 + n * (b.toNat * 2 ^ 32) := by ring
  have heq := h.eq
  split
  · next hneg =>
    rw [if_pos hneg] at hcases
    obtain ⟨hpos, r, hr, hlt, -, hexact⟩ := hcases
    have hpred : (q - 1).toUInt64.toNat = q.toNat - 1 := by
      rw [UInt32.toNat_toUInt64, UInt32.toNat_sub_of_le _ _ (by rwa [UInt32.le_iff_toNat_le])]
      rfl
    have hnext : (z.sigZ.toNat * 2 ^ 29 + (q.toNat - 1)) * (b.toNat * 2 ^ 32) +
        r = a * 2 ^ (29 * (i + 1)) := by
      rw [hexpand]
      omega
    have hdigit := toNat_digit z.sigZ (q - 1).toUInt64
      (hpred.symm ▸ (hdigits hnext).trans (by decide))
    rw [hpred] at hdigit
    refine ⟨?_, ?_⟩
    · dsimp only
      rw [hdigit, hr, hnext]
    · dsimp only
      rw [hr]
      exact hlt.trans_le (Nat.le_mul_of_pos_left _ two_pos)
  · next hneg =>
    rw [if_neg hneg] at hcases
    obtain ⟨r, hr, hexact⟩ := hcases
    have hnext : (z.sigZ.toNat * 2 ^ 29 + q.toNat) * (b.toNat * 2 ^ 32) + r = a * 2 ^ (29 * (i + 1)) := by
      rw [hexpand]
      omega
    have hdigit := toNat_digit z.sigZ q.toUInt64
      (UInt32.toNat_toUInt64 q ▸ (hdigits hnext).trans (by decide))
    rw [UInt32.toNat_toUInt64] at hdigit
    refine ⟨?_, ?_⟩
    · dsimp only
      rw [hdigit, hr, hnext]
    · dsimp only
      rw [add_mul] at hdown
      rw [hr]
      omega

theorem divLoop_quotient (hb : 2 ^ 63 ≤ b.toNat) (ha : a < b.toNat * 2 ^ 32)
    (h : Quotient a b 0 z) {n : ℕ} (hn : n ≤ 2) :
    Quotient a b n ((divRound b (approxRecip32 (b >>> 32).toUInt32))^[n] z) := by
  induction n with
  | zero => exact h
  | succ n ih =>
    rw [Function.iterate_succ_apply']
    exact divRound_quotient hb ha hn (ih (Nat.le_of_succ_le hn))

end Rounds

section Sharpen

variable {rem : Uint128} {b : UInt64}

/-- A digit with its exact remainder is jammed by its last bit. -/
theorem toNat_jammed {n d : ℕ} {q : UInt32} {z : Uint128} (h : q.toNat * d + z.toNat = n)
    (hlt : z.toNat < d) : (if z.v64 ||| z.v0 ≠ 0 then q ||| 1 else q).toNat = jam n d := by
  have hmod : n % d = z.toNat := by
    rw [← h, Nat.mul_add_mod_self_right, Nat.mod_eq_of_lt hlt]
  have hdiv : n / d = q.toNat := by
    rw [← h, Nat.mul_comm, Nat.mul_add_div (by omega), Nat.div_eq_of_lt hlt, Nat.add_zero]
  have hset : (q ||| 1).toNat = q.toNat / 2 * 2 + 1 := (UInt32.toNat_or q 1).trans (or_one _)
  simp only [ne_eq, or_words_eq_zero_iff]
  rw [jam_eq_ite, hmod, hdiv]
  split
  · exact hset
  · rfl

theorem correct_spec {q : UInt32} (hb : 2 ^ 63 ≤ b.toNat)
    (hrem : rem.toNat < 2 * (b.toNat * 2 ^ 32))
    (hup : q.toNat * (b.toNat * 2 ^ 32) < rem.toNat * 2 ^ 29 + b.toNat * 2 ^ 32)
    (hdown : rem.toNat * 2 ^ 29 < (q.toNat + 2) * (b.toNat * 2 ^ 32)) :
    (correct b rem q).1.toNat * (b.toNat * 2 ^ 32) + (correct b rem q).2.toNat =
        rem.toNat * 2 ^ 29 ∧
      (correct b rem q).2.toNat < b.toNat * 2 ^ 32 := by
  have hb' := b.toNat_lt
  have hterm : (shortShiftLeft128 0 b 32).toNat = b.toNat * 2 ^ 32 :=
    toNat_shortShiftLeft128_word b (by decide) (by decide)
  have hcases := reduce_corrected hterm (by decide) le_rfl hrem hup
    (hdown.trans_le (Nat.mul_le_mul_right _ (by omega)))
  have hsub := toNat_sub128 (reduce b rem 29 q).v64 (reduce b rem 29 q).v0
    (shortShiftLeft128 0 b 32).v64 (shortShiftLeft128 0 b 32).v0
  have hle := le128_iff (shortShiftLeft128 0 b 32).v64 (shortShiftLeft128 0 b 32).v0
    (reduce b rem 29 q).v64 (reduce b rem 29 q).v0
  change _ = ((reduce b rem 29 q).toNat + (2 ^ 128 - (shortShiftLeft128 0 b 32).toNat)) % 2 ^ 128
    at hsub
  change _ ↔ (shortShiftLeft128 0 b 32).toNat ≤ (reduce b rem 29 q).toNat at hle
  rw [hterm] at hsub hle
  have hfits : q.toNat < 2 ^ 31 := by
    by_contra hge
    have := Nat.mul_le_mul_right (b.toNat * 2 ^ 32) (not_lt.1 hge)
    omega
  rw [add_mul] at hdown
  rw [correct]
  split
  · next hneg =>
    rw [if_pos hneg] at hcases
    obtain ⟨hpos, r, hr, hlt, -, hexact⟩ := hcases
    have hpred : (q - 1).toNat = q.toNat - 1 :=
      UInt32.toNat_sub_of_le _ _ (by rwa [UInt32.le_iff_toNat_le])
    dsimp only
    rw [hpred, hr]
    exact ⟨hexact, hlt⟩
  · next hneg =>
    rw [if_neg hneg] at hcases
    obtain ⟨r, hr, hexact⟩ := hcases
    have hlt := (reduce b rem 29 q).toNat_lt
    rw [hr] at hsub hle hlt
    split
    · next hlarge =>
      have hsucc : (q + 1).toNat = q.toNat + 1 := by
        rw [UInt32.toNat_add]
        exact Nat.mod_eq_of_lt (by change q.toNat + 1 < 2 ^ 32; omega)
      have hsplit : (q.toNat + 1) * (b.toNat * 2 ^ 32) =
          q.toNat * (b.toNat * 2 ^ 32) + b.toNat * 2 ^ 32 := by ring
      rw [hsucc, hsub, hsplit]
      rw [hle] at hlarge
      omega
    · next hsmall =>
      rw [hle] at hsmall
      dsimp only
      rw [hr]
      exact ⟨hexact, not_le.1 hsmall⟩

/-- A digit that is far enough from the grid is on the same side as the quotient. -/
theorem sameCell_digit {n d q : ℕ} (hup : q * d < n + d) (hdown : n < (q + 2) * d)
    (hfar : ¬(q + 1) % 2 ^ 22 < 2) : SameCell (2 ^ 22 : ℚ) q (n / d) := by
  have hlower : q / 2 ^ 22 * 2 ^ 22 + 1 ≤ q := by omega
  have hupper : q + 2 ≤ (q / 2 ^ 22 + 1) * 2 ^ 22 := by omega
  generalize q / 2 ^ 22 = m at *
  have hlo : (m * 2 ^ 22) * d < n := by
    have hle := Nat.mul_le_mul_right d hlower
    rw [Nat.succ_mul] at hle
    omega
  have hhi : n < ((m + 1) * 2 ^ 22) * d := hdown.trans_le (Nat.mul_le_mul_right _ hupper)
  have hd : (0 : ℚ) < d := by
    refine Nat.cast_pos.2 (Nat.pos_of_ne_zero ?_)
    rintro rfl
    omega
  refine .inr ⟨m, ?_, ?_, ?_, ?_⟩
  · exact_mod_cast Nat.lt_of_succ_le hlower
  · exact_mod_cast (Nat.lt_add_of_pos_right two_pos).trans_le hupper
  · rw [lt_div_iff₀ hd]
    exact_mod_cast hlo
  · rw [div_lt_iff₀ hd]
    exact_mod_cast hhi

theorem sharpen_sameCell (hb : 2 ^ 63 ≤ b.toNat) (hrem : rem.toNat < 2 * (b.toNat * 2 ^ 32)) :
    SameCell (2 ^ 22 : ℚ)
      (sharpen b rem (estimate rem (approxRecip32 (b >>> 32).toUInt32))).toNat
      ((rem.toNat * 2 ^ 29 : ℕ) / (b.toNat * 2 ^ 32 : ℕ)) := by
  obtain ⟨hup, hdown⟩ := estimate_bounds hb hrem
  generalize estimate rem (approxRecip32 (b >>> 32).toUInt32) = q at *
  obtain ⟨hexact, hlt⟩ := correct_spec hb hrem hup hdown
  have hq := q.toNat_lt
  have hpos : 0 < b.toNat * 2 ^ 32 := by omega
  have hnear : (q + 1) &&& 0x3FFFFF < 2 ↔ (q.toNat + 1) % 2 ^ 22 < 2 := by
    have hone : (1 : UInt32).toNat = 1 := rfl
    have hmask : (0x3FFFFF : UInt32).toNat = 2 ^ 22 - 1 := rfl
    have htwo : (2 : UInt32).toNat = 2 := rfl
    rw [UInt32.lt_iff_toNat_lt, UInt32.toNat_and, UInt32.toNat_add, hmask, hone, htwo,
      Nat.and_two_pow_sub_one_eq_mod]
    omega
  rw [sharpen]
  split
  · rw [toNat_jammed hexact hlt]
    have hcell := (sameCell_jam (K := ℚ) (rem.toNat * 2 ^ 29) hpos).coarsen (k := 2 ^ 21)
      two_pos (by decide)
    rwa [show ((2 ^ 21 : ℕ) : ℚ) * 2 = 2 ^ 22 by norm_num] at hcell
  · next hfar =>
    exact sameCell_digit hup hdown (hnear.not.1 hfar)

end Sharpen

section Pack

variable {a : ℕ} {b : UInt64} {z : Division}

/-- The digits as they are put together for packing. -/
theorem toNat_digits {s : UInt64} {q : UInt32} (h : s.toNat * 2 ^ 29 + q.toNat < 2 ^ 87) :
    (s <<< 6 + (q >>> 23).toUInt64).toNat = (s.toNat * 2 ^ 29 + q.toNat) / 2 ^ 23 ∧
      (q.toUInt64 <<< 41).toNat = (s.toNat * 2 ^ 29 + q.toNat) % 2 ^ 23 * 2 ^ 41 := by
  have hshift : (s <<< 6).toNat = s.toNat * 2 ^ 6 := by
    rw [UInt64.toNat_shiftLeft, Nat.shiftLeft_eq]
    exact Nat.mod_eq_of_lt (by change s.toNat * 2 ^ 6 < 2 ^ 64; omega)
  have hhigh : (q >>> 23).toUInt64.toNat = q.toNat / 2 ^ 23 := by
    rw [UInt32.toNat_toUInt64, UInt32.toNat_shiftRight, Nat.shiftRight_eq_div_pow]
    rfl
  have hlow : (q.toUInt64 <<< 41).toNat = q.toNat * 2 ^ 41 % 2 ^ 64 := by
    rw [UInt64.toNat_shiftLeft, Nat.shiftLeft_eq, UInt32.toNat_toUInt64]
    rfl
  rw [UInt64.toNat_add, hshift, hhigh, hlow]
  constructor <;> omega

/-- The digits so far, and one that is nearly exact, are the quotient up to the half bit. -/
theorem sameCell_digits {a d s r q : ℕ} (hd : 0 < d) (heq : s * d + r = a * 2 ^ 58)
    (h : SameCell (2 ^ 22 : ℚ) q ((r * 2 ^ 29 : ℕ) / d)) :
    SameCell (1 / 2 : ℚ) ((s * 2 ^ 29 + q : ℕ) / (2 ^ 23 : ℕ)) (a * 2 ^ 64 / d) := by
  have hd' : (d : ℚ) ≠ 0 := Nat.cast_ne_zero.2 hd.ne'
  have hscaled := (h.mul_right (c := 1 / 2 ^ 23) (by positivity)).add_left
    ((s * 2 ^ 7 : ℕ) : ℤ)
  have hunit : (2 : ℚ) ^ 22 * (1 / 2 ^ 23) = 1 / 2 := by norm_num
  have hdigits : ((s * 2 ^ 29 + q : ℕ) / (2 ^ 23 : ℕ) : ℚ) =
      ((s * 2 ^ 7 : ℕ) : ℤ) * (1 / 2) + q * (1 / 2 ^ 23) := by
    push_cast
    ring
  have hvalue : (a * 2 ^ 64 / d : ℚ) =
      ((s * 2 ^ 7 : ℕ) : ℤ) * (1 / 2) + (r * 2 ^ 29 : ℕ) / d * (1 / 2 ^ 23) := by
    have heq' : (s * d + r : ℚ) = a * 2 ^ 58 := by exact_mod_cast heq
    have hsplit : (a * 2 ^ 64 : ℚ) = (s * d + r) * 2 ^ 6 := by
      rw [heq']
      ring
    rw [hsplit]
    push_cast
    field_simp
    ring
  rw [hunit] at hscaled
  rwa [hdigits, hvalue]

/-- The quotient has 64 bits before the point, and so have the digits. -/
theorem digits_bounds {a d n : ℕ} (hd : 0 < d) (ha : a < d) (hlarge : d ≤ 2 * a)
    (h : SameCell (1 / 2 : ℚ) (n / (2 ^ 23 : ℕ)) (a * 2 ^ 64 / d)) : 2 ^ 86 ≤ n ∧ n < 2 ^ 87 := by
  have hd' : (0 : ℚ) < d := Nat.cast_pos.2 hd
  have hlo := h.mul_le_iff (2 ^ 64) (by positivity)
  have hhi := h.mul_le_iff (2 ^ 65) (by positivity)
  rw [le_div_iff₀ (by positivity), le_div_iff₀ hd'] at hlo hhi
  push_cast at hlo hhi
  have hlarge' : (d : ℚ) ≤ 2 * a := by exact_mod_cast hlarge
  have ha' : (a : ℚ) < d := by exact_mod_cast ha
  constructor
  · have hle := hlo.2 (by linarith)
    exact_mod_cast (show (2 ^ 86 : ℚ) ≤ n by linarith)
  · by_contra hge
    have hge' : (2 ^ 87 : ℚ) ≤ n := by exact_mod_cast not_lt.1 hge
    have hle := hhi.1 (by linarith)
    linarith

theorem quotient_approximates {q : UInt32} (hb : 2 ^ 63 ≤ b.toNat)
    (ha : a < b.toNat * 2 ^ 32) (hlarge : b.toNat * 2 ^ 32 ≤ 2 * a) (h : Quotient a b 2 z)
    (hq : SameCell (2 ^ 22 : ℚ) q.toNat
      ((z.rem.toNat * 2 ^ 29 : ℕ) / (b.toNat * 2 ^ 32 : ℕ))) :
    2 ^ 63 ≤ (z.sigZ <<< 6 + (q >>> 23).toUInt64).toNat ∧
      Approximates (z.sigZ <<< 6 + (q >>> 23).toUInt64) (q.toUInt64 <<< 41)
        (a * 2 ^ 64 / (b.toNat * 2 ^ 32 : ℕ)) := by
  have hpos : 0 < b.toNat * 2 ^ 32 := by omega
  have hcell := sameCell_digits hpos h.eq hq
  obtain ⟨hlo, hhi⟩ := digits_bounds hpos ha hlarge hcell
  obtain ⟨hsig, hextra⟩ := toNat_digits hhi
  have hwords : (z.sigZ <<< 6 + (q >>> 23).toUInt64).toNat * 2 ^ 64 + (q.toUInt64 <<< 41).toNat =
      (z.sigZ.toNat * 2 ^ 29 + q.toNat) * 2 ^ 41 := by
    rw [hsig, hextra]
    omega
  refine ⟨?_, ?_⟩
  · rw [hsig]
    omega
  · have hscale : ((z.sigZ.toNat * 2 ^ 29 + q.toNat) * 2 ^ 41 : ℕ) / (2 ^ 64 : ℕ) =
        ((z.sigZ.toNat * 2 ^ 29 + q.toNat : ℕ) / (2 ^ 23 : ℕ) : ℚ) := by
      push_cast
      ring
    rw [Approximates, hwords, hscale]
    exact hcell

theorem quotient_start (b : UInt64) {rem : Uint128} (h : rem.toNat < b.toNat * 2 ^ 32) :
    Quotient rem.toNat b 0 ⟨0, rem⟩ := by
  refine ⟨?_, h.trans_le (Nat.le_mul_of_pos_left _ two_pos)⟩
  dsimp only
  rw [UInt64.toNat_zero, Nat.zero_mul, Nat.zero_add, Nat.mul_zero, pow_zero, Nat.mul_one]

end Pack

end SoftFloat

namespace Float80

section Divide

variable {x y : Float80} {a b : SoftFloat.ExpSig} {env : SoftFloat.State} {mode : RoundingMode}
  {precision : Precision}

theorem computes_quotient (env : SoftFloat.State) (mode : RoundingMode) (precision : Precision)
    (sign : Bool) {exp : ℤ} {n : ℕ} {b : UInt64} {z : SoftFloat.Division} {q : UInt32} {w : ℚ}
    (hb : 2 ^ 63 ≤ b.toNat) (hlt : n < b.toNat * 2 ^ 32) (hlarge : b.toNat * 2 ^ 32 ≤ 2 * n)
    (h : SoftFloat.Quotient n b 2 z)
    (hq : SameCell (2 ^ 22 : ℚ) q.toNat
      ((z.rem.toNat * 2 ^ 29 : ℕ) / (b.toNat * 2 ^ 32 : ℕ)))
    (hlo : -2 ^ 31 ≤ exp) (hhi : exp < 2 ^ 31)
    (hw : w = n * 2 ^ 64 / (b.toNat * 2 ^ 32 : ℕ) * 2 ^ (exp - 16446)) :
    Computes (FloatEnv.configured env mode precision)
      (.ofRounded sign (precision.format.round mode sign w))
      (some (SoftFloat.roundPackToExtF80 sign exp (z.sigZ <<< 6 + (q >>> 23).toUInt64)
        (q.toUInt64 <<< 41) precision.toByte (FloatEnv.configured env mode precision))) := by
  obtain ⟨hsig, happrox⟩ := SoftFloat.quotient_approximates hb hlt hlarge h hq
  exact computes_roundPack env mode precision sign hsig hlo hhi happrox hw

theorem computes_divSigs (env : SoftFloat.State) (mode : RoundingMode) (precision : Precision)
    (sign : Bool) (ha : Normalized x a) (hb : Normalized y b) :
    Computes (FloatEnv.configured env mode precision)
      (.ofRounded sign (precision.format.round mode sign (x.magnitude / y.magnitude)))
      (some (SoftFloat.divSigs sign a b (FloatEnv.configured env mode precision))) := by
  obtain ⟨hsigA, hloA, hhiA, hmagnitudeA⟩ := ha
  obtain ⟨hsigB, hloB, hhiB, hmagnitudeB⟩ := hb
  have hA := a.sig.toNat_lt
  have hB := b.sig.toNat_lt
  have hdivisor : (b.sig.toNat : ℚ) ≠ 0 := Nat.cast_ne_zero.2 (by omega)
  have hexact : x.magnitude / y.magnitude =
      (a.sig.toNat : ℚ) / b.sig.toNat * 2 ^ (a.exp - b.exp) := by
    rw [hmagnitudeA, hmagnitudeB, mul_div_mul_comm, ← zpow_sub₀ two_ne_zero]
    congr 2
    ring
  rw [SoftFloat.divSigs]
  simp only [UInt64.lt_iff_toNat_lt]
  split
  · next hlt =>
    have hrem := SoftFloat.toNat_shortShiftLeft128_word a.sig (show 0 < 32 by decide) (by decide)
    generalize SoftFloat.shortShiftLeft128 0 a.sig 32 = rem at *
    have hloop := SoftFloat.divLoop_quotient (a := rem.toNat) hsigB (by omega)
      (SoftFloat.quotient_start b.sig (by omega)) le_rfl
    refine computes_quotient env mode precision sign hsigB (by omega) (by omega) hloop
      (SoftFloat.sharpen_sameCell hsigB hloop.lt) (by omega) (by omega) ?_
    rw [hexact, hrem, show a.exp - b.exp + 0x3FFF - 1 - 16446 = a.exp - b.exp + (-64) by ring,
      zpow_add₀ two_ne_zero]
    push_cast
    field_simp
  · next hge =>
    have hrem := SoftFloat.toNat_shortShiftLeft128_word a.sig (show 0 < 31 by decide) (by decide)
    generalize SoftFloat.shortShiftLeft128 0 a.sig 31 = rem at *
    have hloop := SoftFloat.divLoop_quotient (a := rem.toNat) hsigB (by omega)
      (SoftFloat.quotient_start b.sig (by omega)) le_rfl
    refine computes_quotient env mode precision sign hsigB (by omega) (by omega) hloop
      (SoftFloat.sharpen_sameCell hsigB hloop.lt) (by omega) (by omega) ?_
    rw [hexact, hrem, show a.exp - b.exp + 0x3FFF - 16446 = a.exp - b.exp + (-63) by ring,
      zpow_add₀ two_ne_zero]
    push_cast
    field_simp
    norm_num

def div (x rhs : Float80) (env : SoftFloat.State) : Option (Float80 × SoftFloat.State) :=
  (SoftFloat.extF80Div x.toSF rhs.toSF env).map fun z => (fromSF z.1, z.2)

/-- A finite dividend, and a divisor that is finite as well. -/
theorem computes_divFinite (env : SoftFloat.State) (mode : RoundingMode) (precision : Precision)
    (hx : x.isFinite) (hy : y.isFinite) :
    Computes (FloatEnv.configured env mode precision)
      (Datum.divide precision.format mode x.datum y.datum)
      (SoftFloat.extF80Div x.toSF y.toSF (FloatEnv.configured env mode precision)) := by
  rw [datum_of_isFinite hx, datum_of_isFinite hy, Datum.divide, SoftFloat.extF80Div]
  simp only [signExtF80UI64_toSF, magnitude_eq_zero_iff]
  rw [if_neg (exp_ne_of_isFinite hx), if_neg (exp_ne_of_isFinite hy),
    show x.toSF.signif = x.man from rfl, show y.toSF.signif = y.man from rfl]
  by_cases hyzero : y.man = 0
  · rw [if_pos hyzero, if_pos hyzero]
    split
    · exact computes_invalid
    · refine ⟨_, ?_, datum_packInfinity _⟩
      rw [FloatEnv.raiseFlags_ofFlags_divideByZero]
  · obtain ⟨b, hb, hnormalized'⟩ := normalizeOperand_toSF hy hyzero
    rw [if_neg hyzero, if_neg hyzero, show y.man = y.toSF.signif from rfl, hb]
    simp only [Option.bind_eq_bind, Option.bind_some]
    by_cases hxzero : x.man = 0
    · rw [(magnitude_eq_zero_iff x).2 hxzero, zero_div, round_zero_exact, if_pos hxzero]
      exact computes_exact (datum_packZero _)
    · obtain ⟨a, ha, hnormalized⟩ := normalizeOperand_toSF hx hxzero
      rw [if_neg hxzero, show x.man = x.toSF.signif from rfl, ha]
      exact computes_divSigs env mode precision _ hnormalized hnormalized'

/-- The code computes the quotient that IEEE 754 asks for, of any two operands. -/
theorem div_returns (x y : Float80) (env : SoftFloat.State) (mode : RoundingMode)
    (precision : Precision) :
    Returns (FloatEnv.configured env mode precision)
      (Datum.divide precision.format mode x.datum y.datum)
      (x.div y (FloatEnv.configured env mode precision)) := by
  have hpropagated (h : x.isNaN ∨ y.isNaN) :=
    computes_nan (FloatEnv.configured env mode precision) h
  apply Computes.returns
  rcases classes x with hfinite | hinfinite | hnan
  · rcases classes y with hfinite' | hinfinite' | hnan'
    · exact computes_divFinite env mode precision hfinite hfinite'
    · obtain ⟨hexp, hfraction⟩ := of_isInfinite hinfinite'
      rw [SoftFloat.extF80Div, datum_of_isFinite hfinite, datum_of_isInfinite hinfinite']
      simp only [signExtF80UI64_toSF]
      rw [if_neg (exp_ne_of_isFinite hfinite), if_pos hexp, if_neg hfraction]
      exact computes_exact (datum_packZero _)
    · obtain ⟨hexp, hfraction⟩ := of_isNaN hnan'
      rw [SoftFloat.extF80Div, if_neg (exp_ne_of_isFinite hfinite), if_pos hexp,
        if_pos hfraction]
      rw [datum_of_isFinite hfinite, datum_of_isNaN hnan'] at *
      exact hpropagated (.inr hnan')
  · obtain ⟨hexp, hfraction⟩ := of_isInfinite hinfinite
    rw [SoftFloat.extF80Div, datum_of_isInfinite hinfinite, if_pos hexp, if_neg hfraction] at *
    rcases classes y with hfinite' | hinfinite' | hnan'
    · rw [if_neg (exp_ne_of_isFinite hfinite'), datum_of_isFinite hfinite']
      simp only [signExtF80UI64_toSF]
      exact computes_exact (datum_packInfinity _)
    · obtain ⟨hexp', hfraction'⟩ := of_isInfinite hinfinite'
      rw [if_pos hexp', if_neg hfraction', datum_of_isInfinite hinfinite']
      exact computes_invalid
    · obtain ⟨hexp', hfraction'⟩ := of_isNaN hnan'
      rw [if_pos hexp', if_pos hfraction']
      rw [datum_of_isNaN hnan'] at *
      exact hpropagated (.inr hnan')
  · obtain ⟨hexp, hfraction⟩ := of_isNaN hnan
    rw [SoftFloat.extF80Div, if_pos hexp, if_pos hfraction]
    rw [datum_of_isNaN hnan] at *
    exact hpropagated (.inl hnan)

end Divide

end Float80

end Utlib
