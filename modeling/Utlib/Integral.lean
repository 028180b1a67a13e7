import Mathlib.Order.Basic
import Mathlib.Order.Lattice
import Mathlib.Algebra.Order.Ring.Int

/-! Integral types and their values. -/

namespace Utlib

/-- An integral type: its number of bits, and whether it has negative values. It has at least the
values 0 and 1. -/
structure Integral where
  bits : Nat
  signed : Bool
  two_le : (if signed then 2 else 1) ≤ bits
  deriving DecidableEq

namespace Integral

def min (T : Integral) : Int := if T.signed then -2 ^ (T.bits - 1) else 0

def max (T : Integral) : Int := T.min + 2 ^ T.bits - 1

@[ext] structure Value (T : Integral) where
  toInt : Int
  bounded : T.min ≤ toInt ∧ toInt ≤ T.max
  deriving DecidableEq

def i32 : Integral := ⟨32, true, by decide⟩

def i64 : Integral := ⟨64, true, by decide⟩

variable {T : Integral}

/-- Conversion to `T`, and what an operation in `T` leaves after an overflow. -/
def wrap (T : Integral) (x : Int) : T.Value where
  toInt := T.min + (x - T.min) % 2 ^ T.bits
  bounded := by
    have hpos : (0 : Int) < 2 ^ T.bits := Int.pow_pos (by decide)
    have hnonneg := Int.emod_nonneg (x - T.min) hpos.ne'
    have hlt := Int.emod_lt_of_pos (x - T.min) hpos
    rw [max]
    omega

instance : LinearOrder T.Value := LinearOrder.lift' Value.toInt fun _ _ => Value.ext

instance : Add T.Value := ⟨fun x y => T.wrap (x.toInt + y.toInt)⟩

instance : Sub T.Value := ⟨fun x y => T.wrap (x.toInt - y.toInt)⟩

instance : Zero T.Value := ⟨T.wrap 0⟩

instance : One T.Value := ⟨T.wrap 1⟩

theorem le_iff {x y : T.Value} : x ≤ y ↔ x.toInt ≤ y.toInt := Iff.rfl

theorem lt_iff {x y : T.Value} : x < y ↔ x.toInt < y.toInt := by
  rw [← not_le, le_iff, Int.not_le]

theorem toInt_wrap_eq (x : Int) : (T.wrap x).toInt = T.min + (x - T.min) % 2 ^ T.bits := rfl

theorem toInt_wrap {x : Int} (hmin : T.min ≤ x) (hmax : x ≤ T.max) : (T.wrap x).toInt = x := by
  rw [max] at hmax
  rw [toInt_wrap_eq, Int.emod_eq_of_lt (by omega) (by omega)]
  omega

theorem toInt_wrap_max (T : Integral) : (T.wrap (T.max + 1)).toInt = T.min := by
  rw [toInt_wrap_eq, max, Int.sub_add_cancel, add_sub_cancel_left, Int.emod_self, Int.add_zero]

theorem min_nonpos (T : Integral) : T.min ≤ 0 := by
  have hpow : (0 : Int) < 2 ^ (T.bits - 1) := Int.pow_pos (by decide)
  rw [min]
  split <;> omega

theorem one_le_max (T : Integral) : 1 ≤ T.max := by
  obtain ⟨bits, signed, h⟩ := T
  cases signed with
  | false =>
    have hpow : (2 : Int) ^ 1 ≤ 2 ^ bits := pow_le_pow_right₀ (by decide) h
    simp only [max, min, Bool.false_eq_true, if_false]
    omega
  | true =>
    have h' : 2 ≤ bits := h
    have hpow : (2 : Int) ^ 1 ≤ 2 ^ (bits - 1) :=
      pow_le_pow_right₀ (by decide) (Nat.le_sub_one_of_lt h')
    have hdouble : (2 : Int) ^ bits = 2 ^ (bits - 1) * 2 := by
      rw [← pow_succ, Nat.sub_add_cancel (Nat.le_of_lt h')]
    simp only [max, min, if_true, hdouble]
    omega

@[simp] theorem toInt_zero : (0 : T.Value).toInt = 0 :=
  toInt_wrap T.min_nonpos (by have := T.one_le_max; omega)

@[simp] theorem toInt_one : (1 : T.Value).toInt = 1 :=
  toInt_wrap (by have := T.min_nonpos; omega) T.one_le_max

theorem toInt_add {x y : T.Value} (hmin : T.min ≤ x.toInt + y.toInt)
    (hmax : x.toInt + y.toInt ≤ T.max) : (x + y).toInt = x.toInt + y.toInt :=
  toInt_wrap hmin hmax

theorem toInt_sub {x y : T.Value} (hmin : T.min ≤ x.toInt - y.toInt)
    (hmax : x.toInt - y.toInt ≤ T.max) : (x - y).toInt = x.toInt - y.toInt :=
  toInt_wrap hmin hmax

section Wrap

theorem wrap_congr {x y : Int} (h : x % 2 ^ T.bits = y % 2 ^ T.bits) : T.wrap x = T.wrap y := by
  apply Value.ext
  rw [toInt_wrap_eq, toInt_wrap_eq, Int.sub_emod, h, ← Int.sub_emod]

theorem toInt_wrap_emod (x : Int) : (T.wrap x).toInt % 2 ^ T.bits = x % 2 ^ T.bits := by
  rw [toInt_wrap_eq, Int.add_emod_emod, add_sub_cancel]

/-- Conversion to `T` and addition can be done in either order. -/
theorem wrap_add (x y : Int) : T.wrap x + T.wrap y = T.wrap (x + y) := by
  apply wrap_congr
  rw [Int.add_emod, toInt_wrap_emod, toInt_wrap_emod, ← Int.add_emod]

end Wrap

end Integral

end Utlib
