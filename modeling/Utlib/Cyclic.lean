import Mathlib.Data.List.Rotate
import Mathlib.Data.Nat.ModEq

/-! Storage read cyclically: `n` elements from slot `r` on, after the last slot the first. -/

universe u

namespace Utlib.Cyclic

variable {α : Type u}

def window (xs : List α) (r n : Nat) : List α := (xs.rotate r).take n

/-- Slot `i` of `c` lies `k` steps after slot `r`. -/
def After (c r k i : Nat) : Prop := i < c ∧ (i = r + k ∨ i + c = r + k)

theorem After.mod {c r k i : Nat} (h : After c r k i) : (r + k) % c = i := by
  obtain ⟨hlt, heq | heq⟩ := h
  · rw [← heq, Nat.mod_eq_of_lt hlt]
  · rw [← heq, Nat.add_mod_right, Nat.mod_eq_of_lt hlt]

/-- A position that goes round in both directions, from the remainder of a truncating division -/
theorem tmod_add_eq_emod {n : Int} (hn : 0 < n) (i : Int) :
    (if i.tmod n < 0 then i.tmod n + n else i.tmod n) = i % n := by
  have hnonneg := Int.emod_nonneg i hn.ne'
  have hlt := Int.emod_lt_of_pos i hn
  simp only [Int.tmod_eq_emod]
  split <;> split <;> omega

section Window

variable {xs : List α} {r n k i : Nat}

@[simp] theorem window_zero (xs : List α) (r : Nat) : window xs r 0 = [] := by simp [window]

@[simp] theorem length_window (h : n ≤ xs.length) : (window xs r n).length = n := by
  simp [window, h]

theorem getElem?_window (h : After xs.length r k i) (hk : k < n) (hn : n ≤ xs.length) :
    (window xs r n)[k]? = xs[i]? := by
  rw [window, List.getElem?_take_of_lt hk, List.getElem?_rotate (by omega), Nat.add_comm k,
    h.mod]

theorem window_set (h : After xs.length r k i) (hk : k < xs.length) (hn : n ≤ xs.length) (x : α) :
    window (xs.set i x) r n = (window xs r n).set k x := by
  apply List.ext_getElem?
  intro j
  by_cases hj : j < n
  · have hmod : (j + r) % xs.length = i ↔ k = j := by
      constructor
      · intro hji
        rw [Nat.add_comm] at hji
        have hmodEq : Nat.ModEq xs.length (r + j) (r + k) := hji.trans h.mod.symm
        have hjk := Nat.ModEq.add_left_cancel' r hmodEq
        exact (Nat.ModEq.eq_of_lt_of_lt hjk (by omega) hk).symm
      · intro hkj
        rw [← hkj, Nat.add_comm, h.mod]
    rw [window, List.getElem?_take_of_lt hj, List.getElem?_rotate (by simp; omega),
      List.getElem?_set, List.getElem?_set, length_window hn, window,
      List.getElem?_take_of_lt hj, List.getElem?_rotate (by omega)]
    simp only [List.length_set, eq_comm (a := i), hmod]
    by_cases hkj : k = j
    · simp [hkj, hj, h.1]
    · simp [hkj]
  · have hlen : (window (xs.set i x) r n).length = n := length_window (by simpa using hn)
    rw [List.getElem?_eq_none (by omega), List.getElem?_eq_none]
    simpa [length_window hn] using hj

theorem window_push (h : After xs.length r n i) (hn : n < xs.length) (x : α) :
    window (xs.set i x) r (n + 1) = window xs r n ++ [x] := by
  have hroom : n + 1 ≤ (xs.set i x).length := by
    rw [List.length_set]
    exact hn
  have hlast : (window (xs.set i x) r (n + 1))[n]? = some x := by
    rw [getElem?_window (by simpa using h) (Nat.lt_succ_self n) hroom,
      List.getElem?_set_self h.1]
  have hinit : (window (xs.set i x) r (n + 1)).take n = window xs r n := by
    have hkeep : window (xs.set i x) r n = (window xs r n).set n x :=
      window_set h hn (Nat.le_of_lt hn) x
    have hout : (window xs r n).set n x = window xs r n := by
      apply List.set_eq_of_length_le
      rw [length_window (Nat.le_of_lt hn)]
    rw [hout] at hkeep
    rw [window, List.take_take, Nat.min_eq_left (Nat.le_succ n)]
    exact hkeep
  calc
    window (xs.set i x) r (n + 1) = (window (xs.set i x) r (n + 1)).take (n + 1) := by
      rw [List.take_of_length_le (by rw [length_window hroom])]
    _ = window xs r n ++ [x] := by
      rw [List.take_add_one, hinit, hlast]
      rfl

theorem window_after (h : After xs.length r k i) (hk : k ≤ n) (hn : n ≤ xs.length) :
    window xs i (n - k) = (window xs r n).drop k := by
  have hrot : xs.rotate i = (xs.rotate r).drop k ++ (xs.rotate r).take k := by
    rw [← h.mod, List.rotate_mod, ← List.rotate_rotate, List.rotate_eq_drop_append_take]
    simp only [List.length_rotate]
    omega
  rw [window, hrot, List.take_append_of_le_length (by simp; omega), window, List.drop_take]

theorem window_take {m : Nat} (hm : m ≤ xs.length) (h : r + n ≤ m) :
    window (xs.take m) r n = window xs r n := by
  have hlen : (xs.take m).length = m := List.length_take_of_le hm
  rw [window, window, List.rotate_eq_drop_append_take (by omega),
    List.rotate_eq_drop_append_take (by omega), List.take_append_of_le_length (by simp; omega),
    List.take_append_of_le_length (by simp; omega), List.drop_take, List.take_take,
    Nat.min_eq_left (by omega)]

end Window

/-! An array access by a signed index; outside of the array there is nothing. -/

def load (xs : List α) (i : Int) : Option α := if 0 ≤ i then xs[i.toNat]? else none

def store (xs : List α) (i : Int) (x : α) : Option (List α) :=
  if 0 ≤ i ∧ i < xs.length then some (xs.set i.toNat x) else none

/-- `std::swap` of two array elements -/
def swap (xs : List α) (i j : Int) : Option (List α) := do
  let x ← load xs i
  let y ← load xs j
  let xs ← store xs i y
  store xs j x

theorem store_of_nil {xs : List α} (h : xs = []) (i : Int) (x : α) : store xs i x = none := by
  subst h
  rw [store, if_neg]
  simp only [List.length_nil]
  omega

theorem load_append_cons (xs ys : List α) (y : α) : load (xs ++ y :: ys) xs.length = some y := by
  rw [load, if_pos (Int.natCast_nonneg _), Int.toNat_natCast, List.getElem?_append_right le_rfl,
    Nat.sub_self, List.getElem?_cons_zero]

theorem store_append_cons (xs ys : List α) (x y : α) :
    store (xs ++ y :: ys) xs.length x = some (xs ++ x :: ys) := by
  rw [store, if_pos, Int.toNat_natCast, List.set_append_right _ _ le_rfl, Nat.sub_self,
    List.set_cons_zero]
  constructor
  · exact Int.natCast_nonneg _
  · simp only [List.length_append, List.length_cons]
    omega

end Utlib.Cyclic
