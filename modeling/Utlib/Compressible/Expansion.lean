import Mathlib.Data.List.Infix
import Utlib.Compressible.Rle

/-! How much longer than its input the output of `Compressible::rle` can be. -/

namespace Utlib.Compressible

variable {n : Nat}

theorem length_appendRunlengths (k : Nat) : (appendRunlengths k []).length = k / 255 + 1 := by
  induction k using Nat.strong_induction_on with
  | _ k ih =>
    by_cases hlt : (k : Int) < maxRunlength
    · have hk : k < 255 := by simpa [maxRunlength] using hlt
      rw [appendRunlengths_of_lt (Int.natCast_nonneg k) hlt, Nat.div_eq_of_lt hk]
      rfl
    · have hk : 255 ≤ k := by simpa [maxRunlength] using hlt
      have hsub : (k : Int) - maxRunlength = (k - 255 : Nat) := by
        rw [maxRunlength]
        omega
      rw [appendRunlengths_of_ge (not_lt.1 hlt), hsub, List.nil_append, List.length_cons,
        ih (k - 255) (by omega)]
      omega

theorem length_encode_of_lt {k : Nat} (hk : k < n) (a : UInt8) :
    (encode n a k []).length = k := by
  rw [encode, appendRunlengths, if_neg (by omega), Nat.min_eq_right hk.le, List.nil_append,
    List.length_replicate]

theorem length_encode_of_ge {k : Nat} (hk : n ≤ k) (a : UInt8) :
    (encode n a k []).length = n + ((k - n) / 255 + 1) := by
  have hcount : (k : Int) - n = (k - n : Nat) := by omega
  rw [encode, hcount, Nat.min_eq_left hk, List.nil_append, ← List.append_nil (List.replicate _ _),
    appendRunlengths_append, List.length_append, List.length_replicate, length_appendRunlengths]

/-- A run of just `n` bytes is the only one that becomes longer. -/
theorem length_encode_le (hn : 1 ≤ n) (a : UInt8) (k : Nat) :
    (encode n a k []).length ≤ k + k / n := by
  rcases Nat.lt_or_ge k n with hk | hk
  · rw [length_encode_of_lt hk]
    exact Nat.le_add_right k (k / n)
  · have hrest : (k - n) / 255 ≤ k - n := Nat.div_le_self (k - n) 255
    have hone : 1 ≤ k / n := (Nat.one_le_div_iff hn).2 hk
    rw [length_encode_of_ge hk]
    omega

theorem length_rleLoop_le (hn : 1 ≤ n) (prev : UInt8) (repetitions : Nat) (buffer : List UInt8) :
    (rleLoop n prev repetitions buffer []).length ≤
      repetitions + buffer.length + (repetitions + buffer.length) / n := by
  induction buffer generalizing prev repetitions with
  | nil => exact length_encode_le hn prev repetitions
  | cons b buffer ih =>
    by_cases hb : b = prev
    · have hloop := ih prev (repetitions + 1)
      rw [rleLoop, if_pos hb, List.length_cons, Nat.add_comm buffer.length, ← Nat.add_assoc]
      exact hloop
    · have hrun := length_encode_le hn prev repetitions
      have hloop := ih b 1
      have hsum : repetitions / n + (1 + buffer.length) / n ≤
          (repetitions + (1 + buffer.length)) / n := Nat.div_add_div_le_add_div
      rw [rleLoop_cons_of_ne hb, List.length_append, List.length_cons,
        Nat.add_comm buffer.length]
      omega

/-- Some byte occurs `n` or more times in a row. -/
def HasRun (n : Nat) (x : List UInt8) : Prop := ∃ a, List.replicate n a <:+: x

instance (n : Nat) (x : List UInt8) : Decidable (HasRun n x) := by
  refine decidable_of_iff (n = 0 ∨ ∃ a ∈ x, List.replicate n a <:+: x) ⟨?_, ?_⟩
  · rintro (rfl | ⟨a, -, hrun⟩)
    · exact ⟨0, List.nil_infix⟩
    · exact ⟨a, hrun⟩
  · rintro ⟨a, hrun⟩
    cases n with
    | zero => exact .inl rfl
    | succ n =>
      have hmem : a ∈ List.replicate (n + 1) a := List.mem_replicate.2 ⟨Nat.succ_ne_zero n, rfl⟩
      exact .inr ⟨a, hrun.subset hmem, hrun⟩

theorem hasRun_replicate_append {k : Nat} (hk : n ≤ k) (a : UInt8) (x : List UInt8) :
    HasRun n (List.replicate k a ++ x) := by
  obtain ⟨m, rfl⟩ := Nat.exists_eq_add_of_le hk
  refine ⟨a, [], List.replicate m a ++ x, ?_⟩
  rw [List.nil_append, ← List.append_assoc, ← List.replicate_add]

theorem HasRun.append_left {x : List UInt8} (h : HasRun n x) (y : List UInt8) :
    HasRun n (y ++ x) := by
  obtain ⟨a, hrun⟩ := h
  exact ⟨a, hrun.trans (List.suffix_append y x).isInfix⟩

theorem length_rleLoop_of_not_hasRun {prev : UInt8} {repetitions : Nat} {buffer : List UInt8}
    (h : ¬HasRun n (List.replicate repetitions prev ++ buffer)) :
    (rleLoop n prev repetitions buffer []).length = repetitions + buffer.length := by
  induction buffer generalizing prev repetitions with
  | nil =>
    have hshort : repetitions < n := not_le.1 fun hk => h (hasRun_replicate_append hk prev [])
    exact length_encode_of_lt hshort prev
  | cons b buffer ih =>
    by_cases hb : b = prev
    · subst hb
      have hnext : List.replicate repetitions b ++ b :: buffer =
          List.replicate (repetitions + 1) b ++ buffer := by
        rw [List.replicate_succ', List.append_assoc, List.singleton_append]
      rw [hnext] at h
      rw [rleLoop, if_pos rfl, ih h, List.length_cons, Nat.add_comm buffer.length, Nat.add_assoc]
    · have hshort : repetitions < n :=
        not_le.1 fun hk => h (hasRun_replicate_append hk prev (b :: buffer))
      have hrest : ¬HasRun n (List.replicate 1 b ++ buffer) :=
        fun hrun => h (hrun.append_left (List.replicate repetitions prev))
      rw [rleLoop_cons_of_ne hb, List.length_append, length_encode_of_lt hshort, ih hrest,
        List.length_cons, Nat.add_comm 1]

/-- What is appended is longer than the input by no more than one byte for every `n` of them. -/
theorem rle_expands (hn : 1 ≤ n) (x : List UInt8) :
    ∃ appended, (∀ result, rle n x result = result ++ appended) ∧
      appended.length ≤ x.length + x.length / n ∧
      (¬HasRun n x → appended.length = x.length) := by
  refine ⟨rle n x [], rle_append n x, ?_, fun h => ?_⟩
  · have hloop := length_rleLoop_le hn 0 0 x
    rwa [Nat.zero_add] at hloop
  · have hloop : (rleLoop n 0 0 x []).length = 0 + x.length := length_rleLoop_of_not_hasRun h
    rwa [Nat.zero_add] at hloop

/-- Two of the three runs cost a byte more if runs of two are shortened, and none if it is runs of
three. -/
theorem rle_expands_pairs :
    (∃ appended, (∀ result, rle 2 [7, 7, 8, 9, 9] result = result ++ appended) ∧
      appended.length ≤ 5 + 5 / 2 ∧ (¬HasRun 2 [7, 7, 8, 9, 9] → appended.length = 5)) ∧
    ∃ appended, (∀ result, rle 3 [7, 7, 8, 9, 9] result = result ++ appended) ∧
      appended.length = 5 := by
  refine ⟨rle_expands (by decide) [7, 7, 8, 9, 9], ?_⟩
  obtain ⟨appended, happend, -, hlen⟩ := rle_expands (show 1 ≤ 3 by decide) [7, 7, 8, 9, 9]
  exact ⟨appended, happend, hlen (by decide)⟩

end Utlib.Compressible
