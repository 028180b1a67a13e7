import Mathlib.Data.List.Basic
import Mathlib.Order.Lattice

/-! Stable sorting by a key, one element after the other. -/

universe u v

namespace Utlib

/-- `ys` is `xs` in the order of the keys, elements with one key in the order of `xs`. -/
structure StableSorted {α : Type u} {κ : Type v} [LinearOrder κ] (key : α → κ) (xs ys : List α) :
    Prop where
  perm : ys.Perm xs
  sorted : ys.Pairwise fun x y => key x ≤ key y
  stable : ∀ k, ys.filter (key · = k) = xs.filter (key · = k)

namespace StableSorted

variable {α : Type u} {κ : Type v} [LinearOrder κ] {key : α → κ} {xs ys front back : List α} {a : α}

theorem nil : StableSorted key [] [] := ⟨.nil, .nil, fun _ => rfl⟩

theorem insert (h : StableSorted key xs (front ++ back)) (hfront : ∀ x ∈ front, key x ≤ key a)
    (hback : ∀ x ∈ back, key a < key x) : StableSorted key (xs ++ [a]) (front ++ a :: back) := by
  obtain ⟨hsorted, hsorted', hcross⟩ := List.pairwise_append.1 h.sorted
  refine ⟨?_, ?_, ?_⟩
  · exact List.perm_middle.trans ((h.perm.cons a).trans (List.perm_append_singleton a xs).symm)
  · refine List.pairwise_append.2 ⟨hsorted, hsorted'.cons fun x hx => (hback x hx).le, ?_⟩
    intro x hx y hy
    rcases List.mem_cons.1 hy with rfl | hy
    · exact hfront x hx
    · exact hcross x hx y hy
  · intro k
    rw [List.filter_append, List.filter_cons, List.filter_append, ← h.stable k, List.filter_append,
      List.append_assoc]
    congr 1
    by_cases hk : key a = k
    · have hnone : back.filter (key · = k) = [] := by
        rw [List.filter_eq_nil_iff]
        intro x hx heq
        exact absurd (hback x hx) (by rw [hk, of_decide_eq_true heq]; exact lt_irrefl k)
      simp [hnone, hk]
    · simp [hk]

/-- Where an element with the key `k` goes. -/
theorem exists_split (h : ys.Pairwise fun x y => key x ≤ key y) (k : κ) :
    ∃ front back, ys = front ++ back ∧ (∀ x ∈ front, key x ≤ k) ∧ ∀ x ∈ back, k < key x := by
  induction ys with
  | nil => exact ⟨[], [], rfl, by simp, by simp⟩
  | cons y ys ih =>
    rw [List.pairwise_cons] at h
    by_cases hy : key y ≤ k
    · obtain ⟨front, back, rfl, hfront, hback⟩ := ih h.2
      exact ⟨y :: front, back, rfl, List.forall_mem_cons.2 ⟨hy, hfront⟩, hback⟩
    · have hlt : k < key y := not_le.1 hy
      exact ⟨[], y :: ys, rfl, by simp,
        List.forall_mem_cons.2 ⟨hlt, fun x hx => hlt.trans_le (h.1 x hx)⟩⟩

end StableSorted

end Utlib
