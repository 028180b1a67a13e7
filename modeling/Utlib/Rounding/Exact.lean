import Utlib.Rounding.Cell

/-! Numbers that a rounding does not change, and integers that are nearest. -/

namespace Utlib.Rounding

variable {K : Type} [Field K] [LinearOrder K] [IsStrictOrderedRing K] [FloorRing K]

section Modes

variable {mode : Mode} {negative : Bool}

theorem Mode.round_intCast (mode : Mode) (negative : Bool) (n : ℤ) :
    mode.round negative (n : K) = n := by
  have hstays : ¬mode.Increments negative n (0 : K) := by
    cases mode with
    | nearest => simp [Increments]
    | zero => exact id
    | down => exact fun h => h.2 rfl
    | up => exact fun h => h.2 rfl
  rw [round, Int.floor_intCast, Int.fract_intCast, if_neg hstays, add_zero]

/-- A nearest integer, which is even if there are two of them, is the one that is rounded to. -/
theorem Mode.nearest_eq {n : ℤ} {y : K} (h : |y - n| ≤ 1 / 2)
    (htie : |y - n| = 1 / 2 → Even n) : nearest.round negative y = n := by
  obtain ⟨hlo, hhi⟩ := abs_le.1 h
  have hfract := Int.self_sub_floor y
  rw [round]
  rcases le_or_gt (n : K) y with hle | hgt
  · have hfloor : ⌊y⌋ = n := Int.floor_eq_iff.2 ⟨hle, by linarith⟩
    rw [hfloor] at hfract ⊢
    have hstays : ¬nearest.Increments negative n (Int.fract y) := by
      rintro (hgt | ⟨heq, hodd⟩)
      · linarith
      · refine hodd (htie ?_)
        rw [abs_of_nonneg (by linarith)]
        linarith
    rw [if_neg hstays, add_zero]
  · have hfloor : ⌊y⌋ = n - 1 := by
      refine Int.floor_eq_iff.2 ⟨?_, ?_⟩ <;> push_cast <;> linarith
    rw [hfloor] at hfract ⊢
    push_cast at hfract
    have hgoes : nearest.Increments negative (n - 1) (Int.fract y) := by
      rcases lt_or_eq_of_le hlo with hlt | heq
      · exact .inl (by linarith)
      · have heven : Even n := htie (by rw [abs_of_neg (by linarith)]; linarith)
        refine .inr ⟨by linarith, fun heven' => ?_⟩
        rw [Int.even_sub_one] at heven'
        exact heven' heven
    rw [if_pos hgoes, sub_add_cancel]

end Modes

namespace Format

variable {f : Format} {mode : Mode} {negative : Bool} {v : K} {m : ℕ} {e e' : ℤ}

theorem roundAt_of_le (h : e' - f.precision + 1 ≤ e) :
    f.roundAt mode negative e' ((m : K) * 2 ^ e) = m * 2 ^ e := by
  obtain ⟨s, hs⟩ := Int.eq_ofNat_of_zero_le (sub_nonneg.2 h)
  have hscaled : (m : K) * 2 ^ e / f.quantum e' = ((m * 2 ^ s : ℕ) : ℤ) := by
    rw [quantum, div_eq_iff (zpow_ne_zero _ two_ne_zero)]
    push_cast
    rw [mul_assoc, ← zpow_natCast, ← zpow_add₀ two_ne_zero]
    congr 2
    omega
  rw [roundAt, hscaled, Mode.round_intCast, ← hscaled, div_mul_cancel₀]
  exact zpow_ne_zero _ two_ne_zero

theorem roundAt_zero : f.roundAt mode negative e' (0 : K) = 0 := by
  have hexact : f.roundAt mode negative e' (((0 : ℕ) : K) * 2 ^ (e' - f.precision + 1)) =
      ((0 : ℕ) : K) * 2 ^ (e' - f.precision + 1) := roundAt_of_le le_rfl
  rwa [Nat.cast_zero, zero_mul] at hexact

theorem log_lt_of_digits (hm : 0 < m) (hlt : m < 2 ^ f.precision) :
    Int.log 2 ((m : K) * 2 ^ e) < f.precision + e := by
  have hpos : (0 : K) < m * 2 ^ e := mul_pos (Nat.cast_pos.2 hm) (zpow_pos two_pos e)
  have hbase : ((2 : ℕ) : K) = 2 := Nat.cast_ofNat
  apply (Int.lt_zpow_iff_log_lt one_lt_two hpos).1
  rw [hbase, zpow_add₀ two_ne_zero, zpow_natCast]
  exact mul_lt_mul_of_pos_right (by exact_mod_cast hlt) (zpow_pos two_pos e)

/-- Rounding leaves the numbers of the format alone, in each mode. -/
theorem round_representable (mode : Mode) (negative : Bool) (h : f.Representable v) :
    f.round mode negative v = ⟨.finite v, false, false, false⟩ := by
  obtain ⟨m, e, rfl, hlt, hemin, hemax⟩ := h
  have hlog : Int.log 2 ((m : K) * 2 ^ e) - f.precision + 1 ≤ e ∨ m = 0 := by
    rcases Nat.eq_zero_or_pos m with hzero | hpos
    · exact .inr hzero
    · have := log_lt_of_digits (K := K) (e := e) hpos hlt
      exact .inl (by omega)
  have hunbounded : f.unbounded mode negative ((m : K) * 2 ^ e) = m * 2 ^ e := by
    rcases hlog with hle | rfl
    · exact roundAt_of_le hle
    · rw [Nat.cast_zero, zero_mul]
      exact roundAt_zero
  have hbounded : f.bounded mode negative ((m : K) * 2 ^ e) = m * 2 ^ e := by
    rcases hlog with hle | rfl
    · exact roundAt_of_le (by omega)
    · rw [Nat.cast_zero, zero_mul]
      exact roundAt_zero
  rw [round, hunbounded, hbounded, if_neg (not_le.2 hemax)]
  simp

theorem round_zero (f : Format) (mode : Mode) (negative : Bool) :
    f.round mode negative (0 : K) = ⟨.finite 0, false, false, false⟩ :=
  round_representable mode negative ⟨0, f.emin - f.precision + 1, by simp, by positivity, le_rfl,
    zpow_pos two_pos _⟩

end Format

end Utlib.Rounding
