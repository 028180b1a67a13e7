import Mathlib.Data.List.Infix

/-! The longest common beginning of lists whose elements are told apart by a function only. The
first list is the one that it is taken from. -/

universe u v

namespace Utlib.CommonPrefix

variable {α : Type u} {β : Type v}

/-- The images of all lists begin with `p`. -/
def Shares (f : α → β) (l : List (List α)) (p : List β) : Prop := ∀ ys ∈ l, p <+: ys.map f

theorem shares_cons {f : α → β} {xs : List α} {l : List (List α)} {p : List β} :
    Shares f (xs :: l) p ↔ p <+: xs.map f ∧ Shares f l p := by
  rw [Shares, List.forall_mem_cons]
  rfl

variable [DecidableEq β] (f : α → β)

def commonLength : List α → List α → Nat
  | x :: xs, y :: ys => if f x = f y then commonLength xs ys + 1 else 0
  | _, _ => 0

def common (xs ys : List α) : List α := xs.take (commonLength f xs ys)

variable {f} {x y : α} {xs ys : List α} {l m : List (List α)} {p : List β}

theorem common_isPrefix : common f xs ys <+: xs := List.take_prefix _ xs

theorem commonLength_nil_left : commonLength f [] ys = 0 := rfl

theorem commonLength_nil_right : commonLength f xs [] = 0 := by
  cases xs with
  | nil => rfl
  | cons x xs => rfl

theorem common_cons_of_eq (h : f x = f y) : common f (x :: xs) (y :: ys) = x :: common f xs ys := by
  rw [common, commonLength, if_pos h, List.take_succ_cons]
  rfl

theorem common_cons_of_ne (h : f x ≠ f y) : common f (x :: xs) (y :: ys) = [] := by
  rw [common, commonLength, if_neg h, List.take_zero]

/-- A meet of the two images in the order of prefixes. -/
theorem isPrefix_map_common_iff :
    p <+: (common f xs ys).map f ↔ p <+: xs.map f ∧ p <+: ys.map f := by
  induction xs generalizing ys p with
  | nil =>
    refine ⟨fun h => ⟨h, ?_⟩, And.left⟩
    rw [List.prefix_nil.1 h]
    exact List.nil_prefix
  | cons x xs ih =>
    cases ys with
    | nil =>
      rw [common, commonLength_nil_right, List.take_zero]
      refine ⟨fun h => ⟨?_, h⟩, And.right⟩
      rw [List.prefix_nil.1 h]
      exact List.nil_prefix
    | cons y ys =>
      cases p with
      | nil => simp
      | cons q p =>
        by_cases hxy : f x = f y
        · rw [common_cons_of_eq hxy]
          simp only [List.map_cons, List.cons_prefix_cons, ih, hxy]
          tauto
        · rw [common_cons_of_ne hxy]
          simp only [List.map_nil, List.map_cons, List.cons_prefix_cons, List.prefix_nil]
          refine iff_of_false (List.cons_ne_nil q p) ?_
          rintro ⟨⟨rfl, -⟩, hy, -⟩
          exact hxy hy

theorem foldl_common_isPrefix : l.foldl (common f) xs <+: xs := by
  induction l generalizing xs with
  | nil => exact List.prefix_rfl
  | cons ys l ih => exact ih.trans common_isPrefix

/-- The meet of the images of all lists. -/
theorem isPrefix_map_foldl_iff : p <+: (l.foldl (common f) xs).map f ↔ Shares f (xs :: l) p := by
  induction l generalizing xs with
  | nil => simp [Shares]
  | cons ys l ih =>
    rw [List.foldl_cons, ih, shares_cons, isPrefix_map_common_iff, shares_cons, shares_cons,
      and_assoc]

theorem shares_foldl : Shares f (xs :: l) ((l.foldl (common f) xs).map f) :=
  isPrefix_map_foldl_iff.1 List.prefix_rfl

theorem length_le_length_foldl (h : Shares f (xs :: l) p) :
    p.length ≤ (l.foldl (common f) xs).length := by
  have hle := (isPrefix_map_foldl_iff.2 h).length_le
  rwa [List.length_map] at hle

/-- Neither the order nor the number of times that a list occurs has an influence on the image. -/
theorem map_foldl_congr (h : ∀ zs, zs ∈ xs :: l ↔ zs ∈ ys :: m) :
    (l.foldl (common f) xs).map f = (m.foldl (common f) ys).map f := by
  have hshares (p : List β) : Shares f (xs :: l) p ↔ Shares f (ys :: m) p :=
    forall_congr' fun zs => by rw [h zs]
  apply antisymm (r := (· <+: ·))
  · exact isPrefix_map_foldl_iff.2 ((hshares _).1 shares_foldl)
  · exact isPrefix_map_foldl_iff.2 ((hshares _).2 shares_foldl)

end Utlib.CommonPrefix
