import Mathlib.Logic.Function.Iterate
import Mathlib.Tactic.Common

/-! Cyclic redundancy checks: shift registers with feedback that are fed bit by bit. -/

namespace Utlib

structure Register (w : Nat) where
  shift : BitVec w → BitVec w
  out : BitVec w → Bool
  poly : BitVec w
  shift_xor : ∀ a b, shift (a ^^^ b) = shift a ^^^ shift b
  out_xor : ∀ a b, out (a ^^^ b) = (out a ^^ out b)

namespace Register

variable {w : Nat}

/-- The register shifts right, the least significant bit comes out. -/
def right (poly : BitVec w) : Register w where
  shift reg := reg >>> 1
  out reg := reg.getLsbD 0
  poly := poly
  shift_xor a b := BitVec.ushiftRight_xor_distrib a b 1
  out_xor _ _ := BitVec.getLsbD_xor

/-- The register shifts left, the most significant bit comes out. -/
def left (poly : BitVec w) : Register w where
  shift reg := reg <<< 1
  out reg := reg.msb
  poly := poly
  shift_xor a b := BitVec.shiftLeft_xor_distrib a b 1
  out_xor _ _ := BitVec.msb_xor

variable (R : Register w)

def feed (reg : BitVec w) (bit : Bool) : BitVec w :=
  if R.out reg ^^ bit then R.shift reg ^^^ R.poly else R.shift reg

def step (reg : BitVec w) : BitVec w :=
  if R.out reg then R.shift reg ^^^ R.poly else R.shift reg

/-- The bits come out of `y` in this order, and then nothing is left of it. -/
def Lined : BitVec w → List Bool → Prop
  | y, [] => y = 0#w
  | y, bit :: bits => R.out y = bit ∧ Lined (R.shift y) bits

/-- Nothing but zeros comes out of `y` in `n` steps. -/
def Quiet : Nat → BitVec w → Prop
  | 0, _ => True
  | n + 1, y => R.out y = false ∧ Quiet n (R.shift y)

variable {R} {a b y : BitVec w}

theorem step_xor (a b : BitVec w) : R.step (a ^^^ b) = R.step a ^^^ R.step b := by
  rw [step, step, step, R.shift_xor, R.out_xor]
  cases R.out a <;> cases R.out b
  · rfl
  · exact BitVec.xor_assoc _ _ _
  · simp only [Bool.xor_false, if_true, Bool.false_eq_true, if_false]
    rw [BitVec.xor_assoc, BitVec.xor_assoc, BitVec.xor_comm R.poly]
  · simp only [Bool.xor_self, if_true, Bool.false_eq_true, if_false]
    rw [BitVec.xor_assoc, BitVec.xor_comm R.poly, BitVec.xor_assoc, BitVec.xor_self,
      BitVec.xor_zero]

theorem step_iterate_xor (n : Nat) (a b : BitVec w) :
    R.step^[n] (a ^^^ b) = R.step^[n] a ^^^ R.step^[n] b := by
  induction n generalizing a b with
  | zero => rfl
  | succ n ih => rw [Function.iterate_succ_apply, step_xor, ih, Function.iterate_succ_apply,
      Function.iterate_succ_apply]

theorem step_iterate_of_quiet {n : Nat} (h : R.Quiet n y) : R.step^[n] y = R.shift^[n] y := by
  induction n generalizing y with
  | zero => rfl
  | succ n ih =>
    have hstep : R.step y = R.shift y := by simp [step, h.1]
    rw [Function.iterate_succ_apply, Function.iterate_succ_apply, hstep, ih h.2]

theorem step_xor_eq_feed (reg y : BitVec w) :
    R.step (reg ^^^ y) = R.feed reg (R.out y) ^^^ R.shift y := by
  rw [step, feed, R.shift_xor, R.out_xor]
  split
  · rw [BitVec.xor_assoc, BitVec.xor_assoc, BitVec.xor_comm R.poly]
  · rfl

/-- Bits that are fed one after the other may be added to the register at once. -/
theorem foldl_feed {bits : List Bool} (h : R.Lined y bits) (reg : BitVec w) :
    bits.foldl R.feed reg = R.step^[bits.length] (reg ^^^ y) := by
  induction bits generalizing y reg with
  | nil =>
    rw [show y = 0#w from h]
    exact BitVec.xor_zero.symm
  | cons bit bits ih =>
    obtain ⟨hout, hrest⟩ := h
    rw [List.foldl_cons, ih hrest, List.length_cons, Function.iterate_succ_apply,
      step_xor_eq_feed, hout]

/-- The step of a byte or word at a time: what stays quiet moves, the rest comes from a table. -/
theorem step_iterate_split {n : Nat} (ha : R.Quiet n a) (b : BitVec w) :
    R.step^[n] (a ^^^ b) = R.shift^[n] a ^^^ R.step^[n] b := by
  rw [step_iterate_xor, step_iterate_of_quiet ha]

/-- Each step can be undone. -/
structure Reversible (R : Register w) : Prop where
  of_shift_zero : ∀ y, R.out y = false → R.shift y = 0#w → y = 0#w
  shift_ne_poly : ∀ y, R.shift y ≠ R.poly

theorem Reversible.eq_zero_of_step (h : R.Reversible) (hy : R.step y = 0#w) : y = 0#w := by
  rw [step] at hy
  cases hout : R.out y with
  | false =>
    rw [if_neg (by simp [hout])] at hy
    exact h.of_shift_zero y hout hy
  | true =>
    rw [if_pos hout, BitVec.xor_eq_zero_iff] at hy
    exact absurd hy (h.shift_ne_poly y)

theorem Reversible.step_injective (h : R.Reversible) : Function.Injective R.step := by
  intro a b hab
  rw [← BitVec.xor_eq_zero_iff]
  apply h.eq_zero_of_step
  rw [step_xor, hab, BitVec.xor_self]

section Right

variable {poly : BitVec w}

theorem right_shift_iterate (n : Nat) (y : BitVec w) : (right poly).shift^[n] y = y >>> n := by
  induction n generalizing y with
  | zero => rfl
  | succ n ih =>
    rw [Function.iterate_succ_apply, ih, Nat.add_comm, BitVec.shiftRight_add]
    rfl

theorem right_lined {bits : List Bool} (h : ∀ k, y.getLsbD k = bits.getD k false) :
    (right poly).Lined y bits := by
  induction bits generalizing y with
  | nil =>
    apply BitVec.eq_of_getLsbD_eq
    intro k _
    rw [h k]
    simp
  | cons bit bits ih =>
    refine ⟨h 0, ih ?_⟩
    intro k
    rw [← List.getD_cons_succ, ← h (k + 1), Nat.add_comm]
    exact BitVec.getLsbD_ushiftRight y 1 k

theorem right_quiet {n : Nat} (h : ∀ k, k < n → y.getLsbD k = false) : (right poly).Quiet n y := by
  induction n generalizing y with
  | zero => trivial
  | succ n ih =>
    refine ⟨h 0 (Nat.succ_pos n), ih ?_⟩
    intro k hk
    rw [← h (k + 1) (Nat.succ_lt_succ hk), Nat.add_comm]
    exact BitVec.getLsbD_ushiftRight y 1 k

theorem right_reversible (hpoly : poly.msb = true) : (right poly).Reversible where
  of_shift_zero y hout hshift := by
    apply BitVec.eq_of_getLsbD_eq
    intro k hk
    cases k with
    | zero => rw [show y.getLsbD 0 = false from hout, BitVec.getLsbD_zero]
    | succ k =>
      have hbit := congrArg (BitVec.getLsbD · k) hshift
      simpa [right, Nat.add_comm] using hbit
  shift_ne_poly y hy := by
    rw [← show y >>> 1 = poly from hy, BitVec.msb_ushiftRight] at hpoly
    simp at hpoly

end Right

section Left

variable {poly : BitVec w}

theorem left_shift_iterate (n : Nat) (y : BitVec w) : (left poly).shift^[n] y = y <<< n := by
  induction n generalizing y with
  | zero => exact (BitVec.shiftLeft_zero y).symm
  | succ n ih =>
    rw [Function.iterate_succ_apply, ih, Nat.add_comm, BitVec.shiftLeft_add]
    rfl

theorem left_lined {bits : List Bool} (h : ∀ k, y.getMsbD k = bits.getD k false) :
    (left poly).Lined y bits := by
  induction bits generalizing y with
  | nil =>
    apply BitVec.eq_of_getMsbD_eq
    intro k _
    rw [h k]
    simp
  | cons bit bits ih =>
    refine ⟨h 0, ih ?_⟩
    intro k
    rw [← List.getD_cons_succ, ← h (k + 1)]
    exact BitVec.getMsbD_shiftLeft y 1

theorem left_quiet {n : Nat} (h : ∀ k, k < n → y.getMsbD k = false) : (left poly).Quiet n y := by
  induction n generalizing y with
  | zero => trivial
  | succ n ih =>
    refine ⟨h 0 (Nat.succ_pos n), ih ?_⟩
    intro k hk
    rw [← h (k + 1) (Nat.succ_lt_succ hk)]
    exact BitVec.getMsbD_shiftLeft y 1

theorem left_reversible (hpoly : poly.getLsbD 0 = true) : (left poly).Reversible where
  of_shift_zero y hout hshift := by
    apply BitVec.eq_of_getMsbD_eq
    intro k hk
    cases k with
    | zero => rw [show y.getMsbD 0 = false from hout, BitVec.getMsbD_zero]
    | succ k =>
      have hbit := congrArg (BitVec.getMsbD · k) hshift
      simpa [left, Nat.add_comm] using hbit
  shift_ne_poly y hy := by
    rw [← show y <<< 1 = poly from hy] at hpoly
    simp at hpoly

end Left

end Register

end Utlib
