import Mathlib.Tactic.Ring
import Utlib.Sequence

/-! The bytes of fixed-width elements in memory. -/

namespace Utlib

open Sequence

class Layout (T : Type) where
  width : Nat
  width_pos : 0 < width
  encode : T → List UInt8
  decode : List UInt8 → T
  length_encode : ∀ x, (encode x).length = width
  decode_encode : ∀ x, decode (encode x) = x

namespace Layout

def littleEndian : Nat → Nat → List UInt8
  | 0, _ => []
  | k + 1, n => UInt8.ofNat n :: littleEndian k (n / 2 ^ 8)

def ofLittleEndian : List UInt8 → Nat
  | [] => 0
  | x :: xs => x.toNat + 2 ^ 8 * ofLittleEndian xs

theorem length_littleEndian (k n : Nat) : (littleEndian k n).length = k := by
  induction k generalizing n with
  | zero => rfl
  | succ k ih => rw [littleEndian, List.length_cons, ih]

theorem ofLittleEndian_littleEndian {k n : Nat} (h : n < (2 ^ 8) ^ k) :
    ofLittleEndian (littleEndian k n) = n := by
  induction k generalizing n with
  | zero =>
    rw [pow_zero] at h
    rw [littleEndian, ofLittleEndian]
    omega
  | succ k ih =>
    have hdiv : n / 2 ^ 8 < (2 ^ 8) ^ k := by
      rw [Nat.div_lt_iff_lt_mul (by decide)]
      rwa [pow_succ] at h
    rw [littleEndian, ofLittleEndian, ih hdiv, UInt8.toNat_ofNat']
    exact Nat.mod_add_div n (2 ^ 8)

instance : Layout UInt8 where
  width := 1
  width_pos := by decide
  encode x := [x]
  decode xs := xs.headD 0
  length_encode _ := rfl
  decode_encode _ := rfl

instance : Layout UInt32 where
  width := 4
  width_pos := by decide
  encode x := littleEndian 4 x.toNat
  decode xs := UInt32.ofNat (ofLittleEndian xs)
  length_encode _ := length_littleEndian _ _
  decode_encode x := by
    rw [ofLittleEndian_littleEndian x.toNat_lt, UInt32.ofNat_toNat]

instance : Layout UInt64 where
  width := 8
  width_pos := by decide
  encode x := littleEndian 8 x.toNat
  decode xs := UInt64.ofNat (ofLittleEndian xs)
  length_encode _ := length_littleEndian _ _
  decode_encode x := by
    rw [ofLittleEndian_littleEndian x.toNat_lt, UInt64.ofNat_toNat]

/-- The layout of another type with as many values. -/
abbrev transport {S T : Type} [Layout S] (view : T → S) (back : S → T)
    (h : ∀ x, back (view x) = x) : Layout T where
  width := width S
  width_pos := width_pos
  encode x := encode (view x)
  decode xs := back (decode xs)
  length_encode _ := length_encode _
  decode_encode x := by rw [decode_encode, h]

instance : Layout Int64 := transport Int64.toUInt64 UInt64.toInt64 fun _ => rfl

instance : Layout Bool := transport Bool.toUInt8 (· ≠ 0) fun x => by cases x <;> rfl

variable {T : Type} [Layout T]

def bytes (xs : List T) : List UInt8 := xs.flatMap encode

/-- The elements that fit into the bytes. -/
def elements (bs : List UInt8) : List T :=
  (List.range (bs.length / width T)).map fun i => decode (slice bs (i * width T) (width T))

theorem length_elements (bs : List UInt8) :
    (elements bs : List T).length = bs.length / width T := by
  rw [elements, List.length_map, List.length_range]

theorem length_bytes (xs : List T) : (bytes xs).length = xs.length * width T := by
  induction xs with
  | nil => simp [bytes]
  | cons x xs ih =>
    have hx := length_encode x
    rw [bytes] at ih ⊢
    rw [List.flatMap_cons, List.length_append, ih, hx, List.length_cons]
    ring

theorem slice_bytes (xs : List T) (i : Nat) (hi : i < xs.length) :
    slice (bytes xs) (i * width T) (width T) = encode xs[i] := by
  induction xs generalizing i with
  | nil => exact absurd hi (Nat.not_lt_zero i)
  | cons x xs ih =>
    have hx := length_encode x
    cases i with
    | zero =>
      rw [slice, Nat.zero_mul, List.drop_zero, bytes, List.flatMap_cons, ← hx, List.take_left]
      rfl
    | succ i =>
      have hdrop : (bytes (x :: xs)).drop ((i + 1) * width T) = (bytes xs).drop (i * width T) := by
        rw [bytes, List.flatMap_cons, Nat.succ_mul, Nat.add_comm, ← List.drop_drop]
        congr 1
        rw [← hx, List.drop_left]
        rfl
      rw [slice, hdrop]
      exact ih i (Nat.lt_of_succ_lt_succ hi)

theorem elements_bytes (xs : List T) : elements (bytes xs) = xs := by
  have hlen : (elements (bytes xs) : List T).length = xs.length := by
    rw [length_elements, length_bytes, Nat.mul_div_cancel _ width_pos]
  apply List.ext_getElem hlen
  intro i hi hi'
  simp only [elements, List.getElem_map, List.getElem_range]
  rw [slice_bytes xs i hi', decode_encode]

end Layout

end Utlib
