import Mathlib.Data.List.Basic
import Mathlib.Tactic.Ring

/-! `utl::Compressible` (abilities/Compressible.h, abilities/Compressible.cpp): the run-length
codecs.  A result vector is passed in and returned; its capacity is not modelled. -/

namespace Utlib.Compressible

def maxRunlength : Int := 255

def appendRunlengths (count : Int) (result : List UInt8) : List UInt8 :=
  if 0 ≤ count then
    let runlength := min count maxRunlength
    if runlength ≠ maxRunlength then
      result ++ [UInt8.ofNat runlength.toNat]
    else
      appendRunlengths (count - runlength) (result ++ [UInt8.ofNat runlength.toNat])
  else result
termination_by (count + 1).toNat
decreasing_by simp only [maxRunlength] at *; omega

def encode (n : Nat) (element : UInt8) (count : Nat) (result : List UInt8) : List UInt8 :=
  appendRunlengths (count - n) (result ++ List.replicate (min n count) element)

def rleLoop (n : Nat) (prev : UInt8) (repetitions : Nat) :
    List UInt8 → List UInt8 → List UInt8
  | [], result => encode n prev repetitions result
  | b :: buffer, result =>
    if b = prev then rleLoop n prev (repetitions + 1) buffer result
    else rleLoop n b 1 buffer (encode n prev repetitions result)

def rle (n : Nat) (buffer result : List UInt8) : List UInt8 := rleLoop n 0 0 buffer result

-- `unrleLoop` is the `for` loop of the source and `unrleRuns` its inner `while`; both move the
-- same index.
mutual

def unrleLoop (n : Nat) (prev : UInt8) (repetitions : Nat) :
    List UInt8 → List UInt8 → List UInt8
  | [], result => result
  | b :: buffer, result =>
    let repetitions := if prev ≠ b then 1 else repetitions + 1
    if repetitions = n then unrleRuns n b buffer (result ++ [b])
    else unrleLoop n b repetitions buffer (result ++ [b])

def unrleRuns (n : Nat) (prev : UInt8) : List UInt8 → List UInt8 → List UInt8
  | [], result => result
  | runlength :: buffer, result =>
    let result := result ++ List.replicate runlength.toNat prev
    if (runlength.toNat : Int) ≠ maxRunlength then unrleLoop n prev 0 buffer result
    else unrleRuns n prev buffer result

end

def unrle (n : Nat) (buffer result : List UInt8) : List UInt8 := unrleLoop n 0 0 buffer result

def rle2 (buffer result : List UInt8) : List UInt8 := rle 2 buffer result

def unrle2 (buffer result : List UInt8) : List UInt8 := unrle 2 buffer result

def rle3 (buffer result : List UInt8) : List UInt8 := unrle 3 buffer result

def unrle3 (buffer result : List UInt8) : List UInt8 := unrle 3 buffer result

theorem appendRunlengths_append (count : Int) (r s : List UInt8) :
    appendRunlengths count (r ++ s) = r ++ appendRunlengths count s := by
  induction count, s using appendRunlengths.induct with
  | case1 count s h runlength hlast =>
    rw [appendRunlengths, appendRunlengths, if_pos h, if_pos h, if_pos hlast, if_pos hlast,
      List.append_assoc]
  | case2 count s h runlength hfull ih =>
    rw [appendRunlengths, appendRunlengths, if_pos h, if_pos h, if_neg hfull, if_neg hfull,
      List.append_assoc]
    exact ih
  | case3 count s h =>
    rw [appendRunlengths, appendRunlengths, if_neg h, if_neg h]

theorem encode_append (n : Nat) (element : UInt8) (count : Nat) (r s : List UInt8) :
    encode n element count (r ++ s) = r ++ encode n element count s := by
  rw [encode, encode, List.append_assoc, appendRunlengths_append]

theorem rleLoop_append (n : Nat) (prev : UInt8) (repetitions : Nat) (buffer r s : List UInt8) :
    rleLoop n prev repetitions buffer (r ++ s) = r ++ rleLoop n prev repetitions buffer s := by
  induction buffer generalizing prev repetitions s with
  | nil => exact encode_append n prev repetitions r s
  | cons b buffer ih =>
    simp only [rleLoop, encode_append, ih]
    split <;> rfl

theorem rle_append (n : Nat) (buffer result : List UInt8) :
    rle n buffer result = result ++ rle n buffer [] := by
  have h := rleLoop_append n 0 0 buffer result []
  rwa [List.append_nil] at h

theorem unrleLoop_append (n : Nat) (prev : UInt8) (repetitions : Nat) (buffer r s : List UInt8) :
    unrleLoop n prev repetitions buffer (r ++ s) = r ++ unrleLoop n prev repetitions buffer s ∧
      unrleRuns n prev buffer (r ++ s) = r ++ unrleRuns n prev buffer s := by
  induction buffer generalizing prev repetitions s with
  | nil => exact ⟨rfl, rfl⟩
  | cons b buffer ih =>
    constructor
    · simp only [unrleLoop, List.append_assoc, ih, (ih _ 0 _).2]
      rw [← apply_ite (r ++ ·)]
    · simp only [unrleRuns, List.append_assoc, ih, (ih _ 0 _).2]
      split <;> rfl

theorem unrle_append (n : Nat) (buffer result : List UInt8) :
    unrle n buffer result = result ++ unrle n buffer [] := by
  have h := (unrleLoop_append n 0 0 buffer result []).1
  rwa [List.append_nil] at h

theorem appendRunlengths_of_lt {count : Int} (h : 0 ≤ count) (hlt : count < maxRunlength)
    (result : List UInt8) :
    appendRunlengths count result = result ++ [UInt8.ofNat count.toNat] := by
  have hmin : min count maxRunlength = count := min_eq_left hlt.le
  rw [appendRunlengths, if_pos h]
  simp only [hmin]
  rw [if_pos hlt.ne]

theorem appendRunlengths_of_ge {count : Int} (hge : maxRunlength ≤ count)
    (result : List UInt8) :
    appendRunlengths count result =
      result ++ 255 :: appendRunlengths (count - maxRunlength) [] := by
  have h : 0 ≤ count := le_trans (by decide) hge
  have hmin : min count maxRunlength = maxRunlength := min_eq_right hge
  rw [appendRunlengths, if_pos h]
  simp only [hmin, ne_eq, not_true_eq_false, if_false]
  rw [show UInt8.ofNat maxRunlength.toNat = 255 from rfl,
    ← List.append_nil (result ++ [255]), appendRunlengths_append, List.append_assoc]
  rfl

theorem unrleRuns_appendRunlengths (n : Nat) (a : UInt8) (k : Nat) (buffer result : List UInt8) :
    unrleRuns n a (appendRunlengths k [] ++ buffer) result =
      unrleLoop n a 0 buffer (result ++ List.replicate k a) := by
  induction k using Nat.strong_induction_on generalizing result with
  | _ k ih =>
    by_cases hlt : (k : Int) < maxRunlength
    · have hk : k < 255 := by simpa [maxRunlength] using hlt
      rw [appendRunlengths_of_lt (Int.natCast_nonneg k) hlt]
      simp only [List.nil_append, List.cons_append, unrleRuns, Int.toNat_natCast]
      rw [UInt8.toNat_ofNat_of_lt' (by simp [UInt8.size]; omega), if_pos hlt.ne]
    · have hk : 255 ≤ k := by simpa [maxRunlength] using hlt
      have hsub : (k : Int) - maxRunlength = (k - 255 : Nat) := by
        rw [maxRunlength]
        omega
      rw [appendRunlengths_of_ge (not_lt.1 hlt), hsub]
      simp only [List.nil_append, List.cons_append, unrleRuns]
      rw [if_neg (by decide), ih (k - 255) (by omega), List.append_assoc,
        show (255 : UInt8).toNat = 255 from rfl, ← List.replicate_add, Nat.add_sub_cancel' hk]

theorem unrleLoop_replicate {n r j : Nat} (h : r + j < n) (a : UInt8) (buffer result : List UInt8) :
    unrleLoop n a r (List.replicate j a ++ buffer) result =
      unrleLoop n a (r + j) buffer (result ++ List.replicate j a) := by
  induction j generalizing r result with
  | zero => simp
  | succ j ih =>
    simp only [List.replicate_succ, List.cons_append, unrleLoop, ne_eq, not_true_eq_false,
      if_false]
    rw [if_neg (by omega), ih (by omega), List.append_assoc, Nat.add_assoc, Nat.add_comm 1 j]
    rfl

theorem unrleLoop_run {n r j : Nat} (h : r + j + 1 = n) (a : UInt8)
    (buffer result : List UInt8) :
    unrleLoop n a r (List.replicate (j + 1) a ++ buffer) result =
      unrleRuns n a buffer (result ++ List.replicate (j + 1) a) := by
  rw [List.replicate_succ', List.append_assoc, unrleLoop_replicate (by omega)]
  simp only [List.singleton_append, unrleLoop, ne_eq, not_true_eq_false, if_false]
  rw [if_pos h, List.append_assoc]

/-- The decoder has counted no byte that the next run could continue. -/
def Fresh (prev : UInt8) (repetitions : Nat) (next : UInt8) : Prop :=
  repetitions = 0 ∨ prev ≠ next

theorem unrleLoop_fresh {p : UInt8} {r : Nat} {a : UInt8} (h : Fresh p r a) (n : Nat)
    (buffer result : List UInt8) :
    unrleLoop n p r (a :: buffer) result = unrleLoop n a 0 (a :: buffer) result := by
  simp only [unrleLoop, ne_eq, not_true_eq_false, if_false, Nat.zero_add]
  rcases h with rfl | h
  · simp
  · rw [if_pos h]

theorem unrleLoop_encode {n k : Nat} (hn : 1 ≤ n) (a : UInt8) (buffer : List UInt8) :
    ∃ r, ∀ result, unrleLoop n a 0 (encode n a k [] ++ buffer) result =
      unrleLoop n a r buffer (result ++ List.replicate k a) := by
  by_cases hk : k < n
  · use k
    intro result
    rw [encode, appendRunlengths, if_neg (by omega), Nat.min_eq_right hk.le, List.nil_append,
      unrleLoop_replicate (by omega), Nat.zero_add]
  · use 0
    intro result
    obtain ⟨m, rfl⟩ := Nat.exists_eq_add_of_le (not_lt.1 hk)
    obtain ⟨j, rfl⟩ := Nat.exists_eq_add_of_le' hn
    rw [encode, Nat.min_eq_left (Nat.le_add_right _ _), List.nil_append,
      ← List.append_nil (List.replicate _ _), appendRunlengths_append, List.append_assoc,
      unrleLoop_run (by omega),
      show ((j + 1 + m : Nat) : Int) - (j + 1 : Nat) = m by omega,
      unrleRuns_appendRunlengths, List.append_assoc, ← List.replicate_add]

theorem rleLoop_cons_of_ne {b prev : UInt8} (h : b ≠ prev) (n repetitions : Nat)
    (buffer : List UInt8) :
    rleLoop n prev repetitions (b :: buffer) [] =
      encode n prev repetitions [] ++ rleLoop n b 1 buffer [] := by
  rw [rleLoop, if_neg h, ← List.append_nil (encode n prev repetitions []), rleLoop_append,
    List.append_nil]

theorem exists_encode_eq_cons {n k : Nat} (hn : 1 ≤ n) (hk : 1 ≤ k) (a : UInt8) :
    ∃ rest, encode n a k [] = a :: rest := by
  obtain ⟨j, hj⟩ : ∃ j, min n k = j + 1 := Nat.exists_eq_add_of_le' (le_min hn hk)
  rw [encode, hj, List.nil_append, ← List.append_nil (List.replicate _ _),
    appendRunlengths_append]
  exact ⟨_, rfl⟩

theorem exists_rleLoop_eq_cons {n k : Nat} (hn : 1 ≤ n) (hk : 1 ≤ k) (a : UInt8)
    (buffer : List UInt8) : ∃ rest, rleLoop n a k buffer [] = a :: rest := by
  induction buffer generalizing k with
  | nil => exact exists_encode_eq_cons hn hk a
  | cons b buffer ih =>
    by_cases hb : b = a
    · rw [rleLoop, if_pos hb]
      exact ih (by omega)
    · rw [rleLoop_cons_of_ne hb]
      obtain ⟨rest, h⟩ := exists_encode_eq_cons hn hk a
      exact ⟨rest ++ rleLoop n b 1 buffer [], by rw [h]; rfl⟩

theorem unrleLoop_rleLoop {n : Nat} (hn : 1 ≤ n) (a : UInt8) (k : Nat)
    (buffer result : List UInt8) :
    unrleLoop n a 0 (rleLoop n a k buffer []) result =
      result ++ List.replicate k a ++ buffer := by
  induction buffer generalizing a k result with
  | nil =>
    obtain ⟨r, h⟩ := unrleLoop_encode (k := k) hn a []
    have h := h result
    rw [List.append_nil] at h
    rw [rleLoop, h, List.append_nil, unrleLoop]
  | cons b buffer ih =>
    by_cases hb : b = a
    · subst hb
      rw [rleLoop, if_pos rfl, ih, List.replicate_succ']
      simp
    · obtain ⟨r, h⟩ := unrleLoop_encode (k := k) hn a (rleLoop n b 1 buffer [])
      obtain ⟨rest, hrest⟩ := exists_rleLoop_eq_cons hn le_rfl b buffer
      rw [rleLoop_cons_of_ne hb, h, hrest, unrleLoop_fresh (Or.inr (Ne.symm hb)), ← hrest, ih]
      simp

theorem unrle_rle_nil {n : Nat} (hn : 1 ≤ n) (x : List UInt8) : unrle n (rle n x []) [] = x := by
  rw [rle, unrle, unrleLoop_rleLoop hn]
  rfl

theorem unrle_rle {n : Nat} (hn : 1 ≤ n) (x : List UInt8) :
    (∀ result, rle n x result = result ++ rle n x []) ∧
      (∀ result, unrle n (rle n x []) result = result ++ x) ∧
      ∀ buffer result, ∃ appended, unrle n buffer result = result ++ appended := by
  refine ⟨rle_append n x, ?_, ?_⟩
  · intro result
    rw [unrle_append, unrle_rle_nil hn]
  · intro buffer result
    exact ⟨_, unrle_append n buffer result⟩

theorem unrle_rle_two :
    (∀ result, rle 2 [0, 0, 7, 7, 7] result = result ++ rle 2 [0, 0, 7, 7, 7] []) ∧
    (∀ result, unrle 2 (rle 2 [0, 0, 7, 7, 7] []) result = result ++ [0, 0, 7, 7, 7]) ∧
    ∀ buffer result, ∃ appended, unrle 2 buffer result = result ++ appended :=
  unrle_rle (by decide) [0, 0, 7, 7, 7]

end Utlib.Compressible
