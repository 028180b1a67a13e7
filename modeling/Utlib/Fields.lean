import Mathlib.Data.List.Basic
import Mathlib.Data.List.Destutter
import Mathlib.Data.List.DropRight

/-! The fields that a separator divides a list into, and what is left of the list when the empty
fields are dropped. -/

universe u

namespace Utlib.Fields

variable {α : Type u}

section All

variable [BEq α]

theorem not_mem_of_mem_splitOn [LawfulBEq α] {a : α} {xs l : List α} (h : l ∈ xs.splitOn a) :
    a ∉ l := by
  induction xs generalizing l with
  | nil =>
    rw [List.splitOn_nil, List.mem_singleton] at h
    rw [h]
    exact List.not_mem_nil
  | cons x xs ih =>
    rw [List.splitOn_cons_eq_if_modifyHead] at h
    split at h
    · rw [List.mem_cons] at h
      rcases h with rfl | h
      · exact List.not_mem_nil
      · exact ih h
    · next hx =>
      obtain ⟨f, fs, hfields⟩ := List.exists_cons_of_ne_nil (List.splitOn_ne_nil a xs)
      rw [hfields, List.modifyHead_cons, List.mem_cons] at h
      rw [hfields] at ih
      rcases h with rfl | h
      · rw [List.mem_cons, not_or]
        exact ⟨fun heq => hx (by simp [heq]), ih List.mem_cons_self⟩
      · exact ih (List.mem_cons_of_mem f h)

theorem length_splitOn (a : α) (xs : List α) : (xs.splitOn a).length = xs.count a + 1 := by
  induction xs with
  | nil => rfl
  | cons x xs ih =>
    rw [List.splitOn_cons_eq_if_modifyHead, List.count_cons]
    split
    · rw [List.length_cons, ih]
    · rw [List.length_modifyHead, ih, Nat.add_zero]

end All

theorem intercalate_concat (sep l : List α) (ls : List (List α)) :
    sep.intercalate (ls ++ [l]) = if ls = [] then l else sep.intercalate ls ++ sep ++ l := by
  induction ls with
  | nil => simp
  | cons f ls ih =>
    rw [if_neg (List.cons_ne_nil f ls), List.cons_append,
      List.intercalate_cons_of_ne_nil (by simp), ih]
    cases ls with
    | nil => simp
    | cons g ls => simp

/-- Not both are the separator. -/
def Apart (a x y : α) : Prop := ¬(x = a ∧ y = a)

theorem apart_left {a x y : α} (hx : x ≠ a) : Apart a x y := fun h => hx h.1

theorem apart_right {a x y : α} (hy : y ≠ a) : Apart a x y := fun h => hy h.2

/-- The fields that are not empty -/
def filled (ls : List (List α)) : List (List α) := ls.filter fun l => !l.isEmpty

section Filled

variable {ls : List (List α)}

theorem filled_concat_nil : filled (ls ++ [[]]) = filled ls := by
  rw [filled, List.filter_append]
  exact List.append_nil _

theorem filled_concat_cons (x : α) (l : List α) :
    filled (ls ++ [x :: l]) = filled ls ++ [x :: l] := by
  rw [filled, List.filter_append]
  rfl

theorem filled_eq_self (h : ∀ l ∈ ls, l ≠ []) : filled ls = ls :=
  List.filter_eq_self.2 fun l hl => by simpa using h l hl

end Filled

section Words

variable [DecidableEq α] (a : α)

def words (xs : List α) : List (List α) := filled (xs.splitOn a)

/-- Without the separators at the beginning and at the end -/
def strip (xs : List α) : List α := (xs.rdropWhile (· == a)).dropWhile (· == a)

instance : DecidableRel (Apart a) := fun _ _ => inferInstanceAs (Decidable (¬_))

/-- With every run of separators replaced by one -/
def collapse (xs : List α) : List α := xs.destutter (Apart a)

variable {a} {x y : α} {xs : List α}

theorem words_sep : words a (a :: xs) = words a xs := by
  rw [words, List.splitOn_cons_eq_if_modifyHead, if_pos (beq_self_eq_true a)]
  rfl

theorem splitOn_cons_ne (hx : x ≠ a) :
    (x :: xs).splitOn a = (xs.splitOn a).modifyHead (x :: ·) := by
  rw [List.splitOn_cons_eq_if_modifyHead, if_neg (by simpa using hx)]

theorem words_cons_sep (hx : x ≠ a) : words a (x :: a :: xs) = [x] :: words a xs := by
  rw [words, splitOn_cons_ne hx, List.splitOn_cons_eq_if_modifyHead,
    if_pos (beq_self_eq_true a)]
  rfl

theorem words_cons_cons (hx : x ≠ a) (hy : y ≠ a) (xs : List α) :
    ∃ l ls, words a (y :: xs) = (y :: l) :: ls ∧ words a (x :: y :: xs) = (x :: y :: l) :: ls := by
  obtain ⟨l, ls, hl⟩ := List.exists_cons_of_ne_nil (List.splitOn_ne_nil a xs)
  refine ⟨l, filled ls, ?_, ?_⟩
  · rw [words, splitOn_cons_ne hy, hl]
    rfl
  · rw [words, splitOn_cons_ne hx, splitOn_cons_ne hy, hl]
    rfl

theorem rdropWhile_cons (x : α) (xs : List α) :
    (x :: xs).rdropWhile (· == a) =
      if x = a ∧ xs.rdropWhile (· == a) = [] then [] else x :: xs.rdropWhile (· == a) := by
  simp only [List.rdropWhile, List.reverse_cons, List.dropWhile_append, List.reverse_eq_nil_iff,
    List.isEmpty_iff]
  by_cases hx : x = a
  · by_cases hnil : xs.reverse.dropWhile (· == a) = []
    · simp [hx, hnil]
    · simp [hnil]
  · by_cases hnil : xs.reverse.dropWhile (· == a) = []
    · simp [hx, hnil]
    · simp [hx, hnil]

theorem words_eq_nil_iff : words a xs = [] ↔ xs.rdropWhile (· == a) = [] := by
  induction xs with
  | nil => exact ⟨fun _ => rfl, fun _ => rfl⟩
  | cons x xs ih =>
    rw [rdropWhile_cons]
    by_cases hx : x = a
    · subst hx
      rw [words_sep, ih]
      simp
    · have hwords : words a (x :: xs) ≠ [] := by
        obtain ⟨l, ls, hl⟩ := List.exists_cons_of_ne_nil (List.splitOn_ne_nil a xs)
        rw [words, splitOn_cons_ne hx, hl]
        exact List.cons_ne_nil (x :: l) (filled ls)
      simp [hx, hwords]

/-- What the separators at the end leave, collapsed behind an element that is already there -/
theorem destutter'_rdropWhile (xs : List α) :
    (∀ x, x ≠ a → (xs.rdropWhile (· == a)).destutter' (Apart a) x =
        [a].intercalate (words a (x :: xs))) ∧
      (xs.rdropWhile (· == a)).destutter' (Apart a) a = a :: [a].intercalate (words a xs) := by
  induction xs with
  | nil =>
    refine ⟨fun x hx => ?_, rfl⟩
    rw [words, splitOn_cons_ne hx]
    rfl
  | cons y xs ih =>
    obtain ⟨ihx, iha⟩ := ih
    rw [rdropWhile_cons]
    by_cases hy : y = a
    · subst hy
      by_cases hnil : xs.rdropWhile (· == y) = []
      · have hwords := words_eq_nil_iff.2 hnil
        rw [if_pos ⟨rfl, hnil⟩]
        refine ⟨fun x hx => ?_, ?_⟩
        · rw [words_cons_sep hx, hwords]
          rfl
        · rw [words_sep, hwords]
          rfl
      · have hwords : words y xs ≠ [] := mt words_eq_nil_iff.1 hnil
        rw [if_neg fun h => hnil h.2]
        refine ⟨fun x hx => ?_, ?_⟩
        · rw [List.destutter'_cons_pos _ (apart_left hx), iha, words_cons_sep hx,
            List.intercalate_cons_of_ne_nil hwords]
          rfl
        · rw [List.destutter'_cons_neg _ (fun h => h ⟨rfl, rfl⟩), iha, words_sep]
    · rw [if_neg fun h => hy h.1]
      refine ⟨fun x hx => ?_, ?_⟩
      · obtain ⟨l, ls, htail, hall⟩ := words_cons_cons hx hy xs
        rw [List.destutter'_cons_pos _ (apart_left hx), ihx y hy, htail, hall]
        cases ls <;> rfl
      · rw [List.destutter'_cons_pos _ (apart_right hy), ihx y hy]

theorem destutter'_sep (xs : List α) :
    xs.destutter' (Apart a) a = a :: collapse a (xs.dropWhile (· == a)) := by
  induction xs with
  | nil => rfl
  | cons x xs ih =>
    by_cases hx : x = a
    · subst hx
      rw [List.destutter'_cons_neg _ (fun h => h ⟨rfl, rfl⟩), ih,
        List.dropWhile_cons_of_pos (by simp)]
    · rw [List.destutter'_cons_pos _ (apart_right hx),
        List.dropWhile_cons_of_neg (by simpa using hx)]
      rfl

/-- The fields that are not empty, joined again -/
theorem intercalate_words (a : α) (xs : List α) :
    [a].intercalate (words a xs) = collapse a (strip a xs) := by
  have hwords := (destutter'_rdropWhile (a := a) xs).2
  rw [destutter'_sep] at hwords
  exact (List.cons.inj hwords).2.symm

end Words

end Utlib.Fields
