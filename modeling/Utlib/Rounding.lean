import Mathlib.Algebra.Order.Floor.Ring
import Mathlib.Data.Int.Log
import Mathlib.Tactic.FieldSimp
import Mathlib.Tactic.Linarith
import Mathlib.Tactic.Positivity
import Mathlib.Tactic.Ring

/-! Rounding to binary floating-point formats, as IEEE 754 has it, for a sign and a magnitude. -/

namespace Utlib.Rounding

inductive Mode
  | nearest
  | zero
  | down
  | up
deriving DecidableEq

structure Format where
  precision : ℕ
  emin : ℤ
  emax : ℤ

inductive Outcome (K : Type)
  | finite (magnitude : K)
  | infinite

structure Rounded (K : Type) where
  outcome : Outcome K
  inexact : Bool
  overflow : Bool
  underflow : Bool

/-- What exceeds every finite magnitude becomes infinite. -/
def Mode.overflows : Mode → Bool → Bool
  | nearest, _ => true
  | zero, _ => false
  | down, negative => negative
  | up, negative => !negative

section Definitions

variable {K : Type} [Field K] [LinearOrder K] [FloorRing K]

/-- A magnitude that lies between `q` and `q + 1`, beyond `q` by `r`, goes to `q + 1`. -/
def Mode.Increments (mode : Mode) (negative : Bool) (q : ℤ) (r : K) : Prop :=
  match mode with
  | nearest => 1 < 2 * r ∨ 2 * r = 1 ∧ ¬Even q
  | zero => False
  | down => negative = true ∧ r ≠ 0
  | up => negative = false ∧ r ≠ 0

instance (negative : Bool) (q : ℤ) (r : K) :
    (mode : Mode) → Decidable (mode.Increments negative q r)
  | .nearest => inferInstanceAs (Decidable (1 < 2 * r ∨ 2 * r = 1 ∧ ¬Even q))
  | .zero => inferInstanceAs (Decidable False)
  | .down => inferInstanceAs (Decidable (negative = true ∧ r ≠ 0))
  | .up => inferInstanceAs (Decidable (negative = false ∧ r ≠ 0))

def Mode.round (mode : Mode) (negative : Bool) (y : K) : ℤ :=
  ⌊y⌋ + if mode.Increments negative ⌊y⌋ (Int.fract y) then 1 else 0

namespace Format

variable (f : Format) (mode : Mode) (negative : Bool)

/-- The distance of the numbers with the exponent `e`. -/
def quantum (e : ℤ) : K := 2 ^ (e - f.precision + 1)

def roundAt (e : ℤ) (v : K) : K := mode.round negative (v / f.quantum e) * f.quantum e

/-- A format has the numbers with few digits, neither too small nor too large ones. -/
def Representable (v : K) : Prop :=
  ∃ (m : ℕ) (e : ℤ), v = m * 2 ^ e ∧ m < 2 ^ f.precision ∧ f.emin - f.precision + 1 ≤ e ∧
    v < 2 ^ (f.emax + 1)

variable [IsStrictOrderedRing K]

/-- Rounding with an unbounded exponent range. -/
def unbounded (v : K) : K := f.roundAt mode negative (Int.log 2 v) v

/-- Rounding with the smallest exponent of the format. -/
def bounded (v : K) : K := f.roundAt mode negative (max (Int.log 2 v) f.emin) v

def largest : K := 2 ^ (f.emax + 1) - f.quantum f.emax

def overflowed : Rounded K where
  outcome := if mode.overflows negative then .infinite else .finite f.largest
  inexact := true
  overflow := true
  underflow := false

/-- Tininess is detected after rounding. -/
def round (v : K) : Rounded K :=
  if 2 ^ (f.emax + 1) ≤ f.unbounded mode negative v then
    f.overflowed mode negative
  else
    { outcome := .finite (f.bounded mode negative v)
      inexact := f.bounded mode negative v ≠ v
      overflow := false
      underflow := f.bounded mode negative v ≠ v ∧ f.unbounded mode negative v < 2 ^ f.emin }

end Format

end Definitions

section Quotients

/-- What `Increments` says of the quotient of two natural numbers. -/
def Mode.Carries (mode : Mode) (negative : Bool) (n d : ℕ) : Prop :=
  match mode with
  | nearest => d < 2 * (n % d) ∨ 2 * (n % d) = d ∧ n / d % 2 = 1
  | zero => False
  | down => negative = true ∧ n % d ≠ 0
  | up => negative = false ∧ n % d ≠ 0

instance (negative : Bool) (n d : ℕ) : (mode : Mode) → Decidable (mode.Carries negative n d)
  | .nearest => inferInstanceAs (Decidable (d < 2 * (n % d) ∨ 2 * (n % d) = d ∧ n / d % 2 = 1))
  | .zero => inferInstanceAs (Decidable False)
  | .down => inferInstanceAs (Decidable (negative = true ∧ n % d ≠ 0))
  | .up => inferInstanceAs (Decidable (negative = false ∧ n % d ≠ 0))

def Mode.roundDiv (mode : Mode) (negative : Bool) (n d : ℕ) : ℕ :=
  n / d + if mode.Carries negative n d then 1 else 0

variable {K : Type} [Field K] [LinearOrder K] [IsStrictOrderedRing K] [FloorRing K]
  {mode : Mode} {negative : Bool} {n d : ℕ}

theorem Mode.increments_iff (hd : 0 < d) :
    mode.Increments negative (n / d : ℕ) ((n % d : ℕ) / (d : K)) ↔ mode.Carries negative n d := by
  have hpos : (0 : K) < d := Nat.cast_pos.2 hd
  have hzero : ((n % d : ℕ) : K) / d ≠ 0 ↔ n % d ≠ 0 := by
    rw [ne_eq, div_eq_zero_iff, Nat.cast_eq_zero, Nat.cast_eq_zero]
    omega
  cases mode with
  | nearest =>
    have hlt : 1 < 2 * (((n % d : ℕ) : K) / d) ↔ d < 2 * (n % d) := by
      rw [← mul_div_assoc, one_lt_div hpos]
      exact_mod_cast Iff.rfl
    have heq : 2 * (((n % d : ℕ) : K) / d) = 1 ↔ 2 * (n % d) = d := by
      rw [← mul_div_assoc, div_eq_one_iff_eq hpos.ne']
      exact_mod_cast Iff.rfl
    have hodd : ¬Even ((n / d : ℕ) : ℤ) ↔ n / d % 2 = 1 := by
      rw [Int.not_even_iff]
      omega
    simp only [Increments, Carries, hlt, heq, hodd]
  | zero => exact Iff.rfl
  | down => simp only [Increments, Carries, hzero]
  | up => simp only [Increments, Carries, hzero]

theorem floor_natCast_div (n d : ℕ) : ⌊(n : K) / (d : K)⌋ = (n / d : ℕ) := by
  rw [Int.floor_div_natCast, Int.floor_natCast, Int.natCast_div]

theorem Mode.round_natCast_div (hd : 0 < d) :
    mode.round negative ((n : K) / (d : K)) = mode.roundDiv negative n d := by
  rw [round, roundDiv, floor_natCast_div, Int.fract_div_natCast_eq_div_natCast_mod]
  simp only [Mode.increments_iff hd]
  push_cast
  rfl

theorem Mode.le_roundDiv (mode : Mode) (negative : Bool) (n d : ℕ) :
    n / d ≤ mode.roundDiv negative n d ∧ mode.roundDiv negative n d ≤ n / d + 1 := by
  rw [roundDiv]
  split <;> omega

theorem Mode.not_carries_of_dvd (h : n % d = 0) : ¬mode.Carries negative n d := by
  cases mode with
  | nearest =>
    simp only [Carries, h]
    rintro (hlt | ⟨heq, hodd⟩)
    · omega
    · rw [show d = 0 by omega, Nat.div_zero] at hodd
      omega
  | zero => exact id
  | down => exact fun hcarries => hcarries.2 h
  | up => exact fun hcarries => hcarries.2 h

theorem Mode.roundDiv_mul_eq_iff (hd : 0 < d) :
    mode.roundDiv negative n d * d = n ↔ n % d = 0 := by
  have hsplit := Nat.div_add_mod n d
  have hlt := Nat.mod_lt n hd
  rw [Nat.mul_comm] at hsplit
  constructor
  · intro heq
    rw [roundDiv] at heq
    split at heq
    · rw [Nat.succ_mul] at heq
      omega
    · rw [Nat.add_zero] at heq
      omega
  · intro hzero
    rw [roundDiv, if_neg (not_carries_of_dvd hzero)]
    rw [Nat.add_zero]
    omega

theorem Mode.roundDiv_of_lt {d' : ℕ} (hd : 2 * n < d) (hd' : 2 * n < d') :
    mode.roundDiv negative n d = mode.roundDiv negative n d' := by
  have hcarries : mode.Carries negative n d ↔ mode.Carries negative n d' := by
    cases mode with
    | nearest =>
      simp only [Carries, Nat.mod_eq_of_lt (show n < d by omega),
        Nat.mod_eq_of_lt (show n < d' by omega)]
      omega
    | zero => exact Iff.rfl
    | down => simp only [Carries, Nat.mod_eq_of_lt (show n < d by omega),
        Nat.mod_eq_of_lt (show n < d' by omega)]
    | up => simp only [Carries, Nat.mod_eq_of_lt (show n < d by omega),
        Nat.mod_eq_of_lt (show n < d' by omega)]
  rw [roundDiv, roundDiv, Nat.div_eq_of_lt (by omega), Nat.div_eq_of_lt (by omega)]
  simp only [hcarries]

theorem Mode.roundDiv_of_tiny {n' d' : ℕ} (hn : 0 < n) (hd : 2 * n < d) (hn' : 0 < n')
    (hd' : 2 * n' < d') :
    mode.roundDiv negative n d = mode.roundDiv negative n' d' := by
  have hcarries : mode.Carries negative n d ↔ mode.Carries negative n' d' := by
    cases mode with
    | nearest =>
      simp only [Carries, Nat.mod_eq_of_lt (show n < d by omega),
        Nat.mod_eq_of_lt (show n' < d' by omega)]
      omega
    | zero => exact Iff.rfl
    | down =>
      simp only [Carries, Nat.mod_eq_of_lt (show n < d by omega),
        Nat.mod_eq_of_lt (show n' < d' by omega)]
      exact and_congr_right' (iff_of_true hn.ne' hn'.ne')
    | up =>
      simp only [Carries, Nat.mod_eq_of_lt (show n < d by omega),
        Nat.mod_eq_of_lt (show n' < d' by omega)]
      exact and_congr_right' (iff_of_true hn.ne' hn'.ne')
  rw [roundDiv, roundDiv, Nat.div_eq_of_lt (by omega), Nat.div_eq_of_lt (by omega)]
  simp only [hcarries]

/-- What is added before truncation. -/
def Mode.increment (mode : Mode) (negative : Bool) (d : ℕ) : ℕ :=
  match mode with
  | nearest => d / 2
  | zero => 0
  | down => if negative then d - 1 else 0
  | up => if negative then 0 else d - 1

def Mode.Tie (mode : Mode) (n d : ℕ) : Prop := mode = nearest ∧ 2 * (n % d) = d

instance (mode : Mode) (n d : ℕ) : Decidable (mode.Tie n d) :=
  inferInstanceAs (Decidable (mode = .nearest ∧ 2 * (n % d) = d))

theorem Mode.increment_lt (mode : Mode) (negative : Bool) (hd : 0 < d) :
    mode.increment negative d < d := by
  cases mode <;> cases negative <;> simp only [increment] <;> grind

theorem Mode.add_div_eq_of_lt {m : ℕ} (hm : m < d) :
    (n + m) / d = n / d + if d ≤ n % d + m then 1 else 0 := by
  have hd : 0 < d := by omega
  have hlt := Nat.mod_lt n hd
  rw [Nat.add_div hd, Nat.div_eq_of_lt hm, Nat.mod_eq_of_lt hm, Nat.add_zero]

theorem Mode.roundDiv_of_not_tie (hd : 0 < d) (heven : d % 2 = 0) (htie : ¬mode.Tie n d) :
    mode.roundDiv negative n d = (n + mode.increment negative d) / d := by
  have hlt := Nat.mod_lt n hd
  have hstays : ¬d ≤ n % d + 0 := by omega
  have hleaves : n % d ≠ 0 ↔ d ≤ n % d + (d - 1) := by omega
  have hcarries : mode.Carries negative n d ↔ d ≤ n % d + mode.increment negative d := by
    cases mode with
    | nearest =>
      have hne : 2 * (n % d) ≠ d := fun heq => htie ⟨rfl, heq⟩
      simp only [Carries, increment]
      omega
    | zero => exact iff_of_false id hstays
    | down =>
      cases negative with
      | false => exact iff_of_false (fun h => Bool.false_ne_true h.1) hstays
      | true => exact (and_iff_right rfl).trans hleaves
    | up =>
      cases negative with
      | false => exact (and_iff_right rfl).trans hleaves
      | true => exact iff_of_false (fun h => Bool.false_ne_true h.1.symm) hstays
  rw [roundDiv, add_div_eq_of_lt (mode.increment_lt negative hd)]
  simp only [hcarries]

theorem Mode.roundDiv_of_tie (hd : 0 < d) (htie : mode.Tie n d) :
    mode.roundDiv negative n d = (n + mode.increment negative d) / (d * 2) * 2 := by
  obtain ⟨rfl, htie⟩ := htie
  have hsum : n + d / 2 = d * (n / d + 1) := by
    have hsplit := Nat.div_add_mod n d
    rw [Nat.mul_succ]
    omega
  have hcarries : nearest.Carries negative n d ↔ n / d % 2 = 1 := by
    simp only [Carries]
    omega
  rw [roundDiv, increment, hsum, Nat.mul_div_mul_left _ _ hd]
  simp only [hcarries]
  split <;> omega

/-- The rounded quotient reaches an even bound when the sum before truncation does. -/
theorem Mode.le_roundDiv_iff {q : ℕ} (hd : 0 < d) (heven : d % 2 = 0) (hq : q % 2 = 0) :
    q ≤ mode.roundDiv negative n d ↔ q * d ≤ n + mode.increment negative d := by
  by_cases htie : mode.Tie n d
  · rw [roundDiv_of_tie hd htie]
    have hhalf : q ≤ (n + mode.increment negative d) / (d * 2) * 2 ↔
        q / 2 ≤ (n + mode.increment negative d) / (d * 2) := by omega
    rw [hhalf, Nat.le_div_iff_mul_le (by omega)]
    have hsplit : q / 2 * (d * 2) = q * d := by
      rw [Nat.mul_comm d, ← Nat.mul_assoc, Nat.div_mul_cancel (Nat.dvd_of_mod_eq_zero hq)]
    rw [hsplit]
  · rw [roundDiv_of_not_tie hd heven htie, Nat.le_div_iff_mul_le hd]

/-- Truncation that keeps in the last digit whether anything has been cut off. -/
def jam (n d : ℕ) : ℕ := n / d ||| if n % d = 0 then 0 else 1

theorem or_one (q : ℕ) : q ||| 1 = q / 2 * 2 + 1 := by
  apply Nat.eq_of_testBit_eq
  intro i
  cases i with
  | zero => simp [Nat.testBit_zero]
  | succ i =>
    rw [Nat.testBit_or, Nat.testBit_add_one, Nat.testBit_add_one, Nat.testBit_add_one]
    rw [show (q / 2 * 2 + 1) / 2 = q / 2 by omega]
    simp

theorem jam_cases (n d : ℕ) :
    n % d = 0 ∧ jam n d = n / d ∨ n % d ≠ 0 ∧ jam n d = n / d / 2 * 2 + 1 := by
  by_cases hzero : n % d = 0
  · exact .inl ⟨hzero, by rw [jam, if_pos hzero, Nat.or_zero]⟩
  · exact .inr ⟨hzero, by rw [jam, if_neg hzero, or_one]⟩

theorem setLast_mod (q h : ℕ) : (q / 2 * 2 + 1) % (2 * h) = q % (2 * h) / 2 * 2 + 1 := by
  rw [Nat.mod_mul, Nat.mod_mul_right_div_self, show (q / 2 * 2 + 1) / 2 = q / 2 by omega]
  omega

theorem setLast_div (q h : ℕ) : (q / 2 * 2 + 1) / (2 * h) = q / (2 * h) := by
  rw [← Nat.div_div_eq_div_mul, ← Nat.div_div_eq_div_mul,
    show (q / 2 * 2 + 1) / 2 = q / 2 by omega]

theorem jam_div (n c h : ℕ) : jam n c / (2 * h) = n / (c * (2 * h)) := by
  rw [← Nat.div_div_eq_div_mul n c]
  rcases jam_cases n c with ⟨-, heq⟩ | ⟨-, heq⟩
  · rw [heq]
  · rw [heq, setLast_div]

theorem jam_mod (n c h : ℕ) :
    n % c = 0 ∧ jam n c % (2 * h) = n / c % (2 * h) ∨
      n % c ≠ 0 ∧ jam n c % (2 * h) = n / c % (2 * h) / 2 * 2 + 1 := by
  rcases jam_cases n c with ⟨hzero, heq⟩ | ⟨hzero, heq⟩
  · exact .inl ⟨hzero, by rw [heq]⟩
  · exact .inr ⟨hzero, by rw [heq, setLast_mod]⟩

theorem jam_mod_eq_zero_iff (n c h : ℕ) (hc : 0 < c) :
    jam n c % (2 * h) = 0 ↔ n % (c * (2 * h)) = 0 := by
  have hprod : c * (n / c % (2 * h)) = 0 ↔ n / c % (2 * h) = 0 := by
    rw [Nat.mul_eq_zero]
    omega
  rw [Nat.mod_mul (x := n)]
  rcases jam_mod n c h with ⟨hzero, heq⟩ | ⟨hzero, heq⟩ <;> omega

/-- Jamming does not change a rounding that cuts off at least two more digits. -/
theorem Mode.roundDiv_jam (mode : Mode) (negative : Bool) (n c m : ℕ) (hc : 0 < c) :
    mode.roundDiv negative (jam n c) (2 * (2 * m)) =
      mode.roundDiv negative n (c * (2 * (2 * m))) := by
  have hzero := jam_mod_eq_zero_iff n c (2 * m) hc
  have hcarries : mode.Carries negative (jam n c) (2 * (2 * m)) ↔
      mode.Carries negative n (c * (2 * (2 * m))) := by
    cases mode with
    | nearest =>
      have hlt := Nat.mod_lt n hc
      have hprod : c * (2 * (2 * m)) = 2 * (c * (2 * m)) := by ring
      have hbelow (h : n / c % (2 * (2 * m)) < 2 * m) :
          c * (n / c % (2 * (2 * m))) + c ≤ c * (2 * m) := by
        rw [← Nat.mul_succ]
        exact Nat.mul_le_mul_left c h
      have hat (h : n / c % (2 * (2 * m)) = 2 * m) :
          c * (n / c % (2 * (2 * m))) = c * (2 * m) := by rw [h]
      have habove (h : 2 * m < n / c % (2 * (2 * m))) :
          c * (2 * m) < c * (n / c % (2 * (2 * m))) := Nat.mul_lt_mul_of_pos_left h hc
      simp only [Carries, jam_div]
      rw [Nat.mod_mul (x := n), hprod]
      generalize n / (2 * (c * (2 * m))) = q
      clear hzero
      rcases jam_mod n c (2 * m) with ⟨hzero, heq⟩ | ⟨hzero, heq⟩ <;> omega
    | zero => exact Iff.rfl
    | down => simp only [Carries, ne_eq, hzero]
    | up => simp only [Carries, ne_eq, hzero]
  rw [roundDiv, roundDiv, jam_div]
  simp only [hcarries]

end Quotients

namespace Format

variable {K : Type} [Field K] [LinearOrder K] [IsStrictOrderedRing K] [FloorRing K]
  {f : Format} {mode : Mode} {negative : Bool} {n w : ℕ} {k : ℤ}

theorem roundAt_dyadic {e : ℤ} {s : ℕ} (h : e - f.precision + 1 = k + s) :
    f.roundAt mode negative e ((n : K) * 2 ^ k) =
      mode.roundDiv negative n (2 ^ s) * 2 ^ (k + s) := by
  have hscaled : (n : K) * 2 ^ k / 2 ^ (k + s) = n / (2 ^ s : ℕ) := by
    rw [zpow_add₀ two_ne_zero, zpow_natCast]
    push_cast
    field_simp
  rw [roundAt, quantum, h, hscaled, Mode.round_natCast_div (Nat.two_pow_pos s), Int.cast_natCast]

theorem log_dyadic (hlo : 2 ^ w ≤ n) (hhi : n < 2 ^ (w + 1)) :
    Int.log 2 ((n : K) * 2 ^ k) = w + k := by
  have hlo' : (2 : K) ^ w ≤ n := by exact_mod_cast hlo
  have hhi' : (n : K) < 2 ^ (w + 1) := by exact_mod_cast hhi
  have hpos : (0 : K) < 2 ^ k := zpow_pos two_pos k
  have hbase : ((2 : ℕ) : K) = 2 := Nat.cast_ofNat
  have hn : (0 : K) < n * 2 ^ k := mul_pos (lt_of_lt_of_le (pow_pos two_pos w) hlo') hpos
  apply le_antisymm
  · apply Int.lt_add_one_iff.1
    apply (Int.lt_zpow_iff_log_lt one_lt_two hn).1
    rw [hbase, add_right_comm, zpow_add₀ two_ne_zero, ← Nat.cast_succ, zpow_natCast]
    exact mul_lt_mul_of_pos_right hhi' hpos
  · apply (Int.zpow_le_iff_le_log one_lt_two hn).1
    rw [hbase, zpow_add₀ two_ne_zero, zpow_natCast]
    exact mul_le_mul_of_nonneg_right hlo' hpos.le

variable {s : ℕ}

theorem roundDiv_bounds (mode : Mode) (negative : Bool) (hlo : 2 ^ w ≤ n) (hhi : n < 2 ^ (w + 1))
    (hp : 0 < f.precision) (hs : w + 1 = f.precision + s) :
    2 ^ (f.precision - 1) ≤ mode.roundDiv negative n (2 ^ s) ∧
      mode.roundDiv negative n (2 ^ s) ≤ 2 ^ f.precision := by
  have hbounds := mode.le_roundDiv negative n (2 ^ s)
  have hpos := Nat.two_pow_pos s
  have hge : 2 ^ (f.precision - 1) ≤ n / 2 ^ s := by
    rw [Nat.le_div_iff_mul_le hpos, ← pow_add]
    rwa [show f.precision - 1 + s = w by omega]
  have hlt : n / 2 ^ s < 2 ^ f.precision := by
    rw [Nat.div_lt_iff_lt_mul hpos, ← pow_add]
    rwa [← hs]
  omega

theorem zpow_le_roundDiv_iff {e : ℤ} (hlo : 2 ^ w ≤ n) (hhi : n < 2 ^ (w + 1))
    (hp : 0 < f.precision) (hs : w + 1 = f.precision + s) :
    (2 : K) ^ e ≤ mode.roundDiv negative n (2 ^ s) * 2 ^ (k + s) ↔
      e ≤ w + k ∨ e = w + k + 1 ∧ mode.roundDiv negative n (2 ^ s) = 2 ^ f.precision := by
  obtain ⟨hge, hle⟩ := roundDiv_bounds mode negative hlo hhi hp hs
  generalize mode.roundDiv negative n (2 ^ s) = r at *
  have hge' : (2 : K) ^ (f.precision - 1 : ℤ) ≤ r := by
    rw [show (f.precision - 1 : ℤ) = (f.precision - 1 : ℕ) by omega, zpow_natCast]
    exact_mod_cast hge
  have hle' : (r : K) ≤ 2 ^ (f.precision : ℤ) := by
    rw [zpow_natCast]
    exact_mod_cast hle
  have hscale : (2 : K) ^ e ≤ r * 2 ^ (k + s) ↔ 2 ^ (e - (k + s)) ≤ (r : K) := by
    rw [zpow_sub₀ two_ne_zero, div_le_iff₀ (zpow_pos two_pos _)]
  rw [hscale]
  rcases lt_trichotomy e (w + k + 1) with hlt | heq | hgt
  · have hsmall : (2 : K) ^ (e - (k + s)) ≤ 2 ^ (f.precision - 1 : ℤ) :=
      zpow_le_zpow_right₀ one_le_two (by omega)
    exact iff_of_true (hsmall.trans hge') (.inl (by omega))
  · rw [show e - (k + s) = f.precision by omega, zpow_natCast]
    have hcast : (2 : K) ^ f.precision ≤ r ↔ 2 ^ f.precision ≤ r := by exact_mod_cast Iff.rfl
    rw [hcast]
    omega
  · have hlarge : (2 : K) ^ (f.precision : ℤ) < 2 ^ (e - (k + s)) :=
      zpow_lt_zpow_right₀ one_lt_two (by omega)
    refine iff_of_false (not_le.2 (hle'.trans_lt hlarge)) ?_
    omega

theorem round_dyadic (hlo : 2 ^ w ≤ n) (hhi : n < 2 ^ (w + 1)) (hp : 0 < f.precision)
    (hs : w + 1 = f.precision + s) {t : ℕ} (ht : t = (f.emin - (w + k)).toNat) :
    f.round mode negative ((n : K) * 2 ^ k) =
      if f.emax < w + k ∨
          f.emax = w + k ∧ mode.roundDiv negative n (2 ^ s) = 2 ^ f.precision then
        f.overflowed mode negative
      else
        { outcome :=
            .finite (mode.roundDiv negative n (2 ^ (s + t)) * (2 : K) ^ (k + (s + t : ℕ)))
          inexact := n % 2 ^ (s + t) ≠ 0
          overflow := false
          underflow := n % 2 ^ (s + t) ≠ 0 ∧ ¬(f.emin ≤ w + k ∨
            f.emin = w + k + 1 ∧ mode.roundDiv negative n (2 ^ s) = 2 ^ f.precision) } := by
  have hunbounded : f.unbounded mode negative ((n : K) * 2 ^ k) =
      mode.roundDiv negative n (2 ^ s) * 2 ^ (k + s) := by
    rw [unbounded, log_dyadic hlo hhi, roundAt_dyadic (s := s) (by omega)]
  have hbounded : f.bounded mode negative ((n : K) * 2 ^ k) =
      mode.roundDiv negative n (2 ^ (s + t)) * (2 : K) ^ (k + (s + t : ℕ)) := by
    rw [bounded, log_dyadic hlo hhi, roundAt_dyadic (s := s + t) (by omega)]
  have hexact : f.bounded mode negative ((n : K) * 2 ^ k) = n * 2 ^ k ↔ n % 2 ^ (s + t) = 0 := by
    rw [hbounded, add_comm k, zpow_add₀ two_ne_zero, zpow_natCast, ← mul_assoc,
      mul_left_inj' (zpow_ne_zero k two_ne_zero),
      ← Mode.roundDiv_mul_eq_iff (Nat.two_pow_pos (s + t))]
    exact_mod_cast Iff.rfl
  have htiny : f.unbounded mode negative ((n : K) * 2 ^ k) < 2 ^ f.emin ↔
      ¬(f.emin ≤ w + k ∨
        f.emin = w + k + 1 ∧ mode.roundDiv negative n (2 ^ s) = 2 ^ f.precision) := by
    rw [← zpow_le_roundDiv_iff (K := K) hlo hhi hp hs, hunbounded, not_le]
  have hover : 2 ^ (f.emax + 1) ≤ f.unbounded mode negative ((n : K) * 2 ^ k) ↔
      f.emax < w + k ∨ f.emax = w + k ∧ mode.roundDiv negative n (2 ^ s) = 2 ^ f.precision := by
    rw [hunbounded, zpow_le_roundDiv_iff hlo hhi hp hs]
    omega
  rw [round]
  simp only [hover, htiny, ne_eq, hexact]
  rw [hbounded]

end Format

end Utlib.Rounding
