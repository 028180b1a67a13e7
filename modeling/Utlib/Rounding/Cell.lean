import Utlib.Rounding

/-! What rounding cannot tell apart: magnitudes between the same two points of a finer grid. -/

namespace Utlib.Rounding

variable {K : Type} [Field K] [LinearOrder K]

/-- Two magnitudes are equal, or they lie between the same neighbours among the multiples of `u`. -/
def SameCell (u v v' : K) : Prop :=
  v = v' ∨ ∃ m : ℤ, m * u < v ∧ v < (m + 1) * u ∧ m * u < v' ∧ v' < (m + 1) * u

namespace SameCell

variable {u v v' c : K}

theorem of_eq (h : v = v') : SameCell u v v' := .inl h

theorem symm (h : SameCell u v v') : SameCell u v' v := by
  rcases h with rfl | ⟨m, hlo, hhi, hlo', hhi'⟩
  · exact .inl rfl
  · exact .inr ⟨m, hlo', hhi', hlo, hhi⟩

variable [IsStrictOrderedRing K]

theorem mul_right (hc : 0 < c) (h : SameCell u v v') : SameCell (u * c) (v * c) (v' * c) := by
  rcases h with rfl | ⟨m, hlo, hhi, hlo', hhi'⟩
  · exact .inl rfl
  · refine .inr ⟨m, ?_, ?_, ?_, ?_⟩ <;> rw [← mul_assoc] <;>
      exact mul_lt_mul_of_pos_right ‹_› hc

/-- A coarser grid has larger cells. -/
theorem coarsen {k : ℕ} (hu : 0 < u) (hk : 0 < k) (h : SameCell u v v') :
    SameCell (k * u) v v' := by
  rcases h with rfl | ⟨m, hlo, hhi, hlo', hhi'⟩
  · exact .inl rfl
  · have hk' : (0 : ℤ) < k := by exact_mod_cast hk
    have hle : m / (k : ℤ) * k ≤ m := Int.ediv_mul_le m hk'.ne'
    have hlt : m + 1 ≤ (m / (k : ℤ) + 1) * k := by
      have hmod := Int.emod_lt_of_pos m hk'
      have hsplit := Int.mul_ediv_add_emod m k
      linarith
    have hbelow : (m / (k : ℤ) : ℤ) * (k * u) ≤ m * u := by
      rw [← mul_assoc]
      exact mul_le_mul_of_nonneg_right (by exact_mod_cast hle) hu.le
    have habove : (m + 1) * u ≤ ((m / (k : ℤ) : ℤ) + 1) * (k * u) := by
      rw [← mul_assoc]
      exact mul_le_mul_of_nonneg_right (by exact_mod_cast hlt) hu.le
    exact .inr ⟨m / (k : ℤ), hbelow.trans_lt hlo, hhi.trans_le habove, hbelow.trans_lt hlo',
      hhi'.trans_le habove⟩

theorem add_left (n : ℤ) (h : SameCell u v v') : SameCell u (n * u + v) (n * u + v') := by
  rcases h with rfl | ⟨m, hlo, hhi, hlo', hhi'⟩
  · exact .inl rfl
  · refine .inr ⟨n + m, ?_, ?_, ?_, ?_⟩ <;> push_cast <;> linarith

/-- A grid is symmetric to each of its points. -/
theorem sub_left (n : ℤ) (h : SameCell u v v') : SameCell u (n * u - v) (n * u - v') := by
  rcases h with rfl | ⟨m, hlo, hhi, hlo', hhi'⟩
  · exact .inl rfl
  · refine .inr ⟨n - m - 1, ?_, ?_, ?_, ?_⟩ <;> push_cast <;> linarith

theorem mul_le_iff (n : ℤ) (hu : 0 < u) (h : SameCell u v v') : n * u ≤ v ↔ n * u ≤ v' := by
  rcases h with rfl | ⟨m, hlo, hhi, hlo', hhi'⟩
  · exact Iff.rfl
  · have hcell {x : K} (hx : m * u < x) (hx' : x < (m + 1) * u) : n * u ≤ x ↔ n ≤ m := by
      constructor
      · intro hle
        have hlt : (n : K) < (m + 1 : ℤ) := by
          push_cast
          exact lt_of_mul_lt_mul_right (hle.trans_lt hx') hu.le
        exact Int.lt_add_one_iff.1 (by exact_mod_cast hlt)
      · intro hle
        have hle' : (n : K) ≤ m := by exact_mod_cast hle
        exact (mul_le_mul_of_nonneg_right hle' hu.le).trans hx.le
    rw [hcell hlo hhi, hcell hlo' hhi']

/-- In the inner of a cell there is no point of the grid. -/
theorem eq_of_mul (n : ℤ) (hu : 0 < u) (h : SameCell u v v') (hv : v = n * u) : v' = v := by
  rcases h with rfl | ⟨m, hlo, hhi, -, -⟩
  · rfl
  · rw [hv] at hlo hhi
    have hlt : (m : K) < n := lt_of_mul_lt_mul_right hlo hu.le
    have hlt' : (n : K) < (m + 1 : ℤ) := by
      push_cast
      exact lt_of_mul_lt_mul_right hhi hu.le
    have hlt : m < n := by exact_mod_cast hlt
    have hlt' : n < m + 1 := by exact_mod_cast hlt'
    omega

theorem trans {v'' : K} (hu : 0 < u) (h : SameCell u v v') (h' : SameCell u v' v'') :
    SameCell u v v'' := by
  rcases h with rfl | ⟨m, hlo, hhi, hlo', hhi'⟩
  · exact h'
  · have hle : m * u ≤ v'' := (h'.mul_le_iff m hu).1 hlo'.le
    have hne : m * u ≠ v'' := fun heq =>
      hlo'.ne (heq.trans (h'.symm.eq_of_mul m hu heq.symm).symm)
    have hlt : v'' < (m + 1 : ℤ) * u := by
      rw [← not_le, ← h'.mul_le_iff (m + 1) hu, not_le]
      exact_mod_cast hhi'
    push_cast at hlt
    exact .inr ⟨m, hlo, hhi, hle.lt_of_ne hne, hlt⟩

end SameCell

section Rounding

variable [IsStrictOrderedRing K] [FloorRing K] {u v v' : K}

/-- Floor and fraction within the lower or the upper half between two integers. -/
theorem halfCell_parts {m : ℤ} (hlo : m * (1 / 2) < v) (hhi : v < (m + 1) * (1 / 2)) :
    ⌊v⌋ = m / 2 ∧ Int.fract v ≠ 0 ∧ 2 * Int.fract v ≠ 1 ∧ (1 < 2 * Int.fract v ↔ m % 2 = 1) := by
  have hm : (m : K) = 2 * (m / 2 : ℤ) + (m % 2 : ℤ) := by
    exact_mod_cast (Int.mul_ediv_add_emod m 2).symm
  have hfloor : ⌊v⌋ = m / 2 := by
    rw [Int.floor_eq_iff]
    rcases Int.emod_two_eq_zero_or_one m with hmod | hmod <;> rw [hmod] at hm <;>
      push_cast at hm <;> constructor <;> linarith
  have hfract : Int.fract v = v - (m / 2 : ℤ) := by rw [Int.fract, hfloor]
  rw [hfloor, hfract]
  rcases Int.emod_two_eq_zero_or_one m with hmod | hmod
  · rw [hmod] at hm
    push_cast at hm
    exact ⟨rfl, by linarith, by linarith, iff_of_false (by linarith) (by omega)⟩
  · rw [hmod] at hm
    push_cast at hm
    exact ⟨rfl, by linarith, by linarith, iff_of_true (by linarith) hmod⟩

theorem Mode.round_congr (mode : Mode) (negative : Bool) (h : SameCell (1 / 2) v v') :
    mode.round negative v = mode.round negative v' := by
  rcases h with rfl | ⟨m, hlo, hhi, hlo', hhi'⟩
  · rfl
  · obtain ⟨hfloor, hne, hhalf, hgt⟩ := halfCell_parts hlo hhi
    obtain ⟨hfloor', hne', hhalf', hgt'⟩ := halfCell_parts hlo' hhi'
    have hincrements : mode.Increments negative (m / 2) (Int.fract v) ↔
        mode.Increments negative (m / 2) (Int.fract v') := by
      cases mode with
      | nearest => simp only [Increments, hhalf, hhalf', false_and, or_false, hgt, hgt']
      | zero => exact Iff.rfl
      | down => exact and_congr_right' (iff_of_true hne hne')
      | up => exact and_congr_right' (iff_of_true hne hne')
    rw [round, round, hfloor, hfloor']
    simp only [hincrements]

namespace Format

variable {f : Format} {mode : Mode} {negative : Bool} {j e : ℤ}

theorem roundAt_congr (he : j + f.precision ≤ e) (h : SameCell (2 ^ j) v v') :
    f.roundAt mode negative e v = f.roundAt mode negative e v' := by
  obtain ⟨s, hs⟩ := Int.eq_ofNat_of_zero_le (sub_nonneg.2 he)
  have hpos : (0 : K) < 2 ^ j := zpow_pos two_pos j
  have hquantum : f.quantum e = 2 * ((2 ^ s : ℕ) * (2 : K) ^ j) := by
    rw [quantum, show e - f.precision + 1 = 1 + (s + j) by omega, zpow_add₀ two_ne_zero,
      zpow_add₀ two_ne_zero, zpow_one, zpow_natCast, Nat.cast_pow, Nat.cast_ofNat]
  have hpos' : (0 : K) < f.quantum e := zpow_pos two_pos _
  have hscaled : SameCell (1 / 2) (v / f.quantum e) (v' / f.quantum e) := by
    have hcell := (h.coarsen hpos (Nat.two_pow_pos s)).mul_right (inv_pos.2 hpos')
    rw [← div_eq_mul_inv, ← div_eq_mul_inv, ← div_eq_mul_inv] at hcell
    convert hcell using 1
    rw [hquantum]
    field_simp
  rw [roundAt, roundAt, mode.round_congr negative hscaled]

theorem roundAt_eq_iff_congr (he : j + f.precision ≤ e) (h : SameCell (2 ^ j) v v') :
    f.roundAt mode negative e v = v ↔ f.roundAt mode negative e v' = v' := by
  have hstep {x x' : K} (hx : SameCell (2 ^ j) x x') (heq : f.roundAt mode negative e x = x) :
      f.roundAt mode negative e x' = x' := by
    obtain ⟨s, hs⟩ := Int.eq_ofNat_of_zero_le (sub_nonneg.2 he)
    have hmul : x = (mode.round negative (x / f.quantum e) * 2 ^ (s + 1) : ℤ) * 2 ^ j := by
      conv_lhs => rw [← heq]
      rw [roundAt]
      nth_rewrite 2 [quantum]
      rw [show e - f.precision + 1 = ((s + 1 : ℕ) : ℤ) + j by push_cast; omega,
        zpow_add₀ two_ne_zero, zpow_natCast, ← mul_assoc]
      push_cast
      rfl
    have hsame := hx.eq_of_mul _ (zpow_pos two_pos j) hmul
    rw [hsame]
    exact heq
  exact ⟨hstep h, hstep h.symm⟩

theorem log_congr (hlog : j ≤ Int.log 2 v) (hv : 0 < v) (h : SameCell (2 ^ j) v v') :
    Int.log 2 v = Int.log 2 v' := by
  have hbase : ((2 : ℕ) : K) = 2 := Nat.cast_ofNat
  have hpoint {e : ℤ} (he : j ≤ e) : (2 : K) ^ e ≤ v ↔ (2 : K) ^ e ≤ v' := by
    obtain ⟨s, hs⟩ := Int.eq_ofNat_of_zero_le (sub_nonneg.2 he)
    have hsplit : (2 : K) ^ e = (2 ^ s : ℤ) * 2 ^ j := by
      rw [show e = s + j by omega, zpow_add₀ two_ne_zero, zpow_natCast]
      push_cast
      rfl
    rw [hsplit]
    exact h.mul_le_iff _ (zpow_pos two_pos j)
  have hlo : (2 : K) ^ Int.log 2 v ≤ v := by
    have := Int.zpow_log_le_self (b := 2) one_lt_two hv
    rwa [hbase] at this
  have hlo' := (hpoint hlog).1 hlo
  have hv' : 0 < v' := (zpow_pos two_pos _).trans_le hlo'
  apply le_antisymm
  · rw [← Int.zpow_le_iff_le_log one_lt_two hv', hbase]
    exact hlo'
  · by_contra hgt
    have hle : Int.log 2 v + 1 ≤ Int.log 2 v' := by omega
    rw [← Int.zpow_le_iff_le_log one_lt_two hv', hbase, ← hpoint (by omega), ← hbase,
      Int.zpow_le_iff_le_log one_lt_two hv] at hle
    omega

/-- Rounding does not distinguish two magnitudes in one cell of a grid that is at least twice as
fine as the numbers of the format. -/
theorem round_congr (hv : 0 < v) (hlog : j + f.precision ≤ Int.log 2 v)
    (h : SameCell (2 ^ j) v v') : f.round mode negative v = f.round mode negative v' := by
  have hsame : Int.log 2 v = Int.log 2 v' := log_congr (by omega) hv h
  have hunbounded : f.unbounded mode negative v = f.unbounded mode negative v' := by
    rw [unbounded, unbounded, ← hsame, roundAt_congr hlog h]
  have hmax : j + f.precision ≤ max (Int.log 2 v) f.emin := hlog.trans (le_max_left _ _)
  have hbounded : f.bounded mode negative v = f.bounded mode negative v' := by
    rw [bounded, bounded, ← hsame, roundAt_congr hmax h]
  have hexact : f.bounded mode negative v = v ↔ f.bounded mode negative v' = v' := by
    rw [bounded, bounded, ← hsame]
    exact roundAt_eq_iff_congr hmax h
  rw [round, round, hunbounded, ← hbounded]
  rw [← hbounded] at hexact
  simp only [ne_eq, hexact]

end Format

/-- Jamming keeps the cell among the even numbers. -/
theorem sameCell_jam (n : ℕ) {d : ℕ} (hd : 0 < d) : SameCell (2 : K) (jam n d : ℕ) (n / d) := by
  have hpos : (0 : K) < d := Nat.cast_pos.2 hd
  have hsplit := Nat.div_add_mod n d
  have hlt := Nat.mod_lt n hd
  have hn : (n : K) = d * (n / d : ℕ) + (n % d : ℕ) := by exact_mod_cast hsplit.symm
  rcases jam_cases n d with ⟨hzero, heq⟩ | ⟨hne, heq⟩
  · refine .inl ?_
    rw [heq, eq_div_iff hpos.ne', hn, hzero]
    push_cast
    ring
  · obtain ⟨q, hq⟩ : ∃ q, n / d / 2 = q := ⟨_, rfl⟩
    have hr : (0 : K) < (n % d : ℕ) := Nat.cast_pos.2 (Nat.pos_of_ne_zero hne)
    have hr' : ((n % d : ℕ) : K) < d := Nat.cast_lt.2 hlt
    have hlo : (2 : K) * q ≤ (n / d : ℕ) := by exact_mod_cast (show 2 * q ≤ n / d by omega)
    have hhi : ((n / d : ℕ) : K) ≤ 2 * q + 1 := by
      exact_mod_cast (show n / d ≤ 2 * q + 1 by omega)
    rw [heq, hq]
    refine .inr ⟨q, ?_, ?_, ?_, ?_⟩ <;> rw [Int.cast_natCast]
    · push_cast
      linarith
    · push_cast
      linarith
    · rw [lt_div_iff₀ hpos, hn]
      nlinarith
    · rw [div_lt_iff₀ hpos, hn]
      nlinarith

end Rounding

end Utlib.Rounding
