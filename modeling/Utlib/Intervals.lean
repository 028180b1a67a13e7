import Mathlib.Data.List.Basic
import Mathlib.Order.Bounds.Basic

/-! Sets of a linear order as lists of half-open intervals, each behind the one before it and not
adjacent to it. -/

universe u

namespace Utlib

variable {α : Type u} [LinearOrder α]

/-- `rs` are the maximal half-open intervals of `s`, in increasing order. -/
structure Decomposes (rs : List (α × α)) (s : Set α) : Prop where
  nonempty : ∀ r ∈ rs, r.1 < r.2
  gaps : rs.Pairwise fun r q => r.2 < q.1
  covers : ∀ x, x ∈ s ↔ ∃ r ∈ rs, r.1 ≤ x ∧ x < r.2

namespace Decomposes

variable {rs qs : List (α × α)} {r : α × α} {s : Set α} {a b c : α}

theorem nil : Decomposes ([] : List (α × α)) ∅ := ⟨by simp, .nil, by simp⟩

theorem least (h : Decomposes (r :: rs) s) : IsLeast s r.1 := by
  have hr := h.nonempty r List.mem_cons_self
  constructor
  · exact (h.covers _).2 ⟨r, List.mem_cons_self, le_rfl, hr⟩
  · intro x hx
    obtain ⟨q, hq, hle, -⟩ := (h.covers x).1 hx
    rcases List.mem_cons.1 hq with rfl | hq
    · exact hle
    · exact (hr.trans (List.rel_of_pairwise_cons h.gaps hq)).le.trans hle

theorem upper_not_mem (h : Decomposes (r :: rs) s) : r.2 ∉ s := by
  intro hmem
  obtain ⟨q, hq, hle, hlt⟩ := (h.covers _).1 hmem
  rcases List.mem_cons.1 hq with rfl | hq
  · exact lt_irrefl _ hlt
  · exact not_lt.2 hle (List.rel_of_pairwise_cons h.gaps hq)

theorem tail (h : Decomposes (r :: rs) s) : Decomposes rs {x | x ∈ s ∧ r.2 ≤ x} where
  nonempty q hq := h.nonempty q (List.mem_cons_of_mem r hq)
  gaps := h.gaps.of_cons
  covers x := by
    rw [Set.mem_ofPred_eq, h.covers]
    constructor
    · rintro ⟨⟨q, hq, hle, hlt⟩, hr⟩
      rcases List.mem_cons.1 hq with rfl | hq
      · exact absurd hlt (not_lt.2 hr)
      · exact ⟨q, hq, hle, hlt⟩
    · rintro ⟨q, hq, hle, hlt⟩
      exact ⟨⟨q, List.mem_cons_of_mem r hq, hle, hlt⟩,
        (List.rel_of_pairwise_cons h.gaps hq).le.trans hle⟩

theorem head_eq {q : α × α} (hr : Decomposes (r :: rs) s) (hq : Decomposes (q :: qs) s) :
    r = q := by
  have hlower : r.1 = q.1 := hr.least.unique hq.least
  have hupper : ∀ {p p' : α × α} {ps ps'}, Decomposes (p :: ps) s → Decomposes (p' :: ps') s →
      p.1 = p'.1 → ¬p.2 < p'.2 := by
    intro p p' ps ps' hp hp' heq hlt
    apply hp.upper_not_mem
    have hle : p'.1 ≤ p.2 := heq ▸ (hp.nonempty p List.mem_cons_self).le
    exact (hp'.covers _).2 ⟨p', List.mem_cons_self, hle, hlt⟩
  exact Prod.ext hlower (le_antisymm (not_lt.1 (hupper hq hr hlower.symm))
    (not_lt.1 (hupper hr hq hlower)))

theorem unique (hr : Decomposes rs s) (hq : Decomposes qs s) : rs = qs := by
  induction rs generalizing qs s with
  | nil =>
    cases qs with
    | nil => rfl
    | cons q qs =>
      obtain ⟨p, hp, -⟩ := (hr.covers _).1 hq.least.1
      cases hp
  | cons r rs ih =>
    cases qs with
    | nil =>
      obtain ⟨p, hp, -⟩ := (hq.covers _).1 hr.least.1
      cases hp
    | cons q qs =>
      obtain rfl := hr.head_eq hq
      rw [ih hr.tail hq.tail]

theorem upper_le_last (h : Decomposes (rs ++ [(a, b)]) s) (hr : r ∈ rs ++ [(a, b)]) :
    r.2 ≤ b := by
  rcases List.mem_append.1 hr with hr | hr
  · have hgap : r.2 < a :=
      (List.pairwise_append.1 h.gaps).2.2 r hr (a, b) List.mem_cons_self
    exact (hgap.trans (h.nonempty (a, b) (by simp))).le
  · rw [List.mem_singleton.1 hr]

/-- A set with one more value behind the last interval. -/
theorem append (h : Decomposes rs s) (hlast : ∀ r ∈ rs, r.2 < a) (hc : ∀ x, x < c ↔ x ≤ a) :
    Decomposes (rs ++ [(a, c)]) (insert a s) where
  nonempty r hr := by
    rcases List.mem_append.1 hr with hr | hr
    · exact h.nonempty r hr
    · rw [List.mem_singleton.1 hr]
      exact (hc a).2 le_rfl
  gaps := by
    refine List.pairwise_append.2 ⟨h.gaps, List.pairwise_singleton _ _, ?_⟩
    intro r hr q hq
    rw [List.mem_singleton.1 hq]
    exact hlast r hr
  covers x := by
    rw [Set.mem_insert_iff, h.covers]
    constructor
    · rintro (rfl | ⟨r, hr, hx⟩)
      · exact ⟨(x, c), by simp, le_rfl, (hc x).2 le_rfl⟩
      · exact ⟨r, List.mem_append_left _ hr, hx⟩
    · rintro ⟨r, hr, hle, hlt⟩
      rcases List.mem_append.1 hr with hr | hr
      · exact .inr ⟨r, hr, hle, hlt⟩
      · rw [List.mem_singleton.1 hr] at hle hlt
        exact .inl (le_antisymm ((hc x).1 hlt) hle)

/-- A set with the value that ends the last interval. -/
theorem extend (h : Decomposes (rs ++ [(a, b)]) s) (hc : ∀ x, x < c ↔ x ≤ b) :
    Decomposes (rs ++ [(a, c)]) (insert b s) where
  nonempty r hr := by
    rcases List.mem_append.1 hr with hr | hr
    · exact h.nonempty r (List.mem_append_left _ hr)
    · rw [List.mem_singleton.1 hr]
      exact (hc a).2 (h.nonempty (a, b) (by simp)).le
  gaps := by
    obtain ⟨hgaps, -, hcross⟩ := List.pairwise_append.1 h.gaps
    refine List.pairwise_append.2 ⟨hgaps, List.pairwise_singleton _ _, ?_⟩
    intro r hr q hq
    rw [List.mem_singleton.1 hq]
    exact hcross r hr (a, b) List.mem_cons_self
  covers x := by
    have hab : a < b := h.nonempty (a, b) (by simp)
    rw [Set.mem_insert_iff, h.covers]
    simp only [List.mem_append, List.mem_singleton, or_and_right, exists_or, exists_eq_left, hc]
    constructor
    · rintro (rfl | hx | ⟨hle, hlt⟩)
      · exact .inr ⟨hab.le, le_rfl⟩
      · exact .inl hx
      · exact .inr ⟨hle, hlt.le⟩
    · rintro (hx | ⟨hle, hlt⟩)
      · exact .inr (.inl hx)
      · rcases hlt.eq_or_lt with rfl | hlt
        · exact .inl rfl
        · exact .inr (.inr ⟨hle, hlt⟩)

end Decomposes

end Utlib
