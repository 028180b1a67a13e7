import Utlib.Intervals
import Utlib.Range

/-! `utl::Range::coalesce` -/

namespace Utlib.Range

open Integral

variable {T : Integral}

def bounds (r : Range T) : T.Value × T.Value := (r.lower, r.upper)

/-- `rs` are the non-empty ranges, each behind the one before it and not adjacent to it, that
contain the values of `s`. -/
structure Canonical (rs : List (Range T)) (s : Set T.Value) : Prop where
  nonempty : ∀ r ∈ rs, r.lower < r.upper
  gaps : rs.Pairwise fun r q => r.upper < q.lower
  contents : ∀ x, (∃ r ∈ rs, r.contains x = true) ↔ x ∈ s

variable {s : Runs T} {x : T.Value} {rest values : List T.Value} {seen : Set T.Value}

theorem bounds_injective : Function.Injective (bounds (T := T)) := by
  intro r q h
  cases r
  cases q
  cases h
  rfl

theorem canonical_iff {rs : List (Range T)} : Canonical rs seen ↔ Decomposes (rs.map bounds) seen := by
  have hcontents : ∀ y, (∃ r ∈ rs, r.contains y = true) ↔
      ∃ r ∈ rs.map bounds, r.1 ≤ y ∧ y < r.2 := by
    intro y
    simp [contains, bounds]
  constructor
  · intro h
    refine ⟨?_, ?_, fun y => (h.contents y).symm.trans (hcontents y)⟩
    · simpa [bounds] using h.nonempty
    · simpa [List.pairwise_map, bounds] using h.gaps
  · intro h
    refine ⟨?_, ?_, fun y => (hcontents y).trans (h.covers y).symm⟩
    · simpa [bounds] using h.nonempty
    · simpa [List.pairwise_map, bounds] using h.gaps

theorem Canonical.unique {rs qs : List (Range T)} (hr : Canonical rs seen) (hq : Canonical qs seen) :
    rs = qs :=
  bounds_injective.list_map ((canonical_iff.1 hr).unique (canonical_iff.1 hq))

theorem toInt_succ (hmax : x.toInt ≠ T.max) : (x + 1).toInt = x.toInt + 1 := by
  have hbounded := x.bounded
  rw [toInt_add, toInt_one]
  · rw [toInt_one]
    omega
  · rw [toInt_one]
    omega

theorem lt_succ_iff (hmax : x.toInt ≠ T.max) (y : T.Value) : y < x + 1 ↔ y ≤ x := by
  rw [lt_iff, le_iff, toInt_succ hmax, Int.lt_add_one_iff]

theorem toInt_ne_max_of_lt {y : T.Value} (h : x < y) : x.toInt ≠ T.max := by
  have hle := y.bounded.2
  rw [lt_iff] at h
  omega

namespace Runs

@[simp] theorem prev_push (s : Runs T) (x : T.Value) : (s.push x).prev = x := by
  rw [push]
  split <;> rfl

theorem ranges_push_of_eq (h : x = s.prev + 1) :
    (s.push x).ranges = s.result ++ [⟨s.start, x + 1⟩] := by
  rw [push, if_pos h]
  rfl

theorem ranges_push_of_ne (h : x ≠ s.prev + 1) :
    (s.push x).ranges = s.ranges ++ [⟨x, x + 1⟩] := by
  rw [push, if_neg h]
  rfl

theorem map_ranges (s : Runs T) :
    s.ranges.map bounds = s.result.map bounds ++ [(s.start, s.prev + 1)] := by
  rw [ranges, List.map_append]
  rfl

theorem decomposes_start (hmax : x.toInt ≠ T.max) :
    Decomposes ((Runs.ranges ⟨[], x, x⟩).map bounds) {x} := by
  have h := Decomposes.nil.append (a := x) (by simp) (lt_succ_iff hmax)
  rwa [insert_empty_eq] at h

theorem decomposes_push (h : Decomposes (s.ranges.map bounds) seen) (hlt : s.prev < x)
    (hmax : x.toInt ≠ T.max) : Decomposes ((s.push x).ranges.map bounds) (insert x seen) := by
  by_cases hx : x = s.prev + 1
  · rw [map_ranges, ← hx] at h
    rw [ranges_push_of_eq hx, List.map_append]
    exact h.extend (lt_succ_iff hmax)
  · have hgap : s.prev + 1 < x := by
      have hsucc := toInt_succ (toInt_ne_max_of_lt hlt)
      have hne : x.toInt ≠ (s.prev + 1).toInt := fun heq => hx (Value.ext heq)
      rw [lt_iff] at hlt ⊢
      omega
    rw [ranges_push_of_ne hx, List.map_append]
    refine h.append (fun r hr => ?_) (lt_succ_iff hmax)
    rw [map_ranges] at h hr
    exact (h.upper_le_last hr).trans_lt hgap

theorem decomposes_foldl (h : Decomposes (s.ranges.map bounds) seen)
    (hsorted : (s.prev :: rest).Pairwise (· < ·)) (hmax : ∀ y ∈ rest, y.toInt ≠ T.max) :
    Decomposes ((rest.foldl push s).ranges.map bounds) (seen ∪ {y | y ∈ rest}) := by
  induction rest generalizing s seen with
  | nil => simpa using h
  | cons x rest ih =>
    rw [List.pairwise_cons] at hsorted
    rw [List.forall_mem_cons] at hmax
    have hpush := decomposes_push h (hsorted.1 x List.mem_cons_self) hmax.1
    have hrest := ih hpush (by rw [prev_push]; exact hsorted.2) hmax.2
    have hseen : seen ∪ {y | y ∈ x :: rest} = insert x seen ∪ {y | y ∈ rest} := by
      ext y
      simp only [List.mem_cons, Set.mem_union, Set.mem_insert_iff, Set.mem_ofPred_eq]
      tauto
    rw [hseen]
    exact hrest

/-- Where the ranges have gaps, each value was above the one before it. -/
theorem gaps_push (h : (s.push x).ranges.Pairwise fun r q => r.upper < q.lower)
    (hprev : s.prev.toInt ≠ T.max) :
    (s.ranges.Pairwise fun r q => r.upper < q.lower) ∧ s.prev < x := by
  by_cases hx : x = s.prev + 1
  · rw [ranges_push_of_eq hx] at h
    obtain ⟨hgaps, -, hcross⟩ := List.pairwise_append.1 h
    constructor
    · refine List.pairwise_append.2 ⟨hgaps, List.pairwise_singleton _ _, ?_⟩
      intro r hr q hq
      rw [List.mem_singleton.1 hq]
      exact hcross r hr ⟨s.start, x + 1⟩ List.mem_cons_self
    · rw [hx]
      exact (lt_succ_iff hprev s.prev).2 le_rfl
  · rw [ranges_push_of_ne hx] at h
    obtain ⟨hgaps, -, hcross⟩ := List.pairwise_append.1 h
    have hlast : s.prev + 1 < x :=
      hcross ⟨s.start, s.prev + 1⟩ (by simp [ranges]) _ List.mem_cons_self
    exact ⟨hgaps, ((lt_succ_iff hprev s.prev).2 le_rfl).trans hlast⟩

theorem increasing_of_gaps
    (h : (rest.foldl push s).ranges.Pairwise fun r q => r.upper < q.lower)
    (hmax : ∀ y ∈ s.prev :: rest, y.toInt ≠ T.max) :
    (s.ranges.Pairwise fun r q => r.upper < q.lower) ∧ (s.prev :: rest).Pairwise (· < ·) := by
  induction rest generalizing s with
  | nil => exact ⟨h, List.pairwise_singleton _ _⟩
  | cons x rest ih =>
    rw [List.forall_mem_cons] at hmax
    have hstep := ih (s := s.push x) h (by rw [prev_push]; exact hmax.2)
    rw [prev_push] at hstep
    obtain ⟨hgaps, hlt⟩ := gaps_push hstep.1 hmax.1
    refine ⟨hgaps, List.pairwise_cons.2 ⟨?_, hstep.2⟩⟩
    intro y hy
    rcases List.mem_cons.1 hy with rfl | hy
    · exact hlt
    · exact hlt.trans (List.rel_of_pairwise_cons hstep.2 hy)

end Runs

/-- The loop of `coalesce` runs over the values in increasing order. -/
theorem coalesce_cases (values : List T.Value) :
    (values = [] ∧ coalesce values = []) ∨
      ∃ first rest, (first :: rest).Perm values ∧ (first :: rest).Pairwise (· ≤ ·) ∧
        coalesce values = (rest.foldl Runs.push ⟨[], first, first⟩).ranges := by
  have hperm := List.perm_insertionSort (· ≤ ·) values
  have hsorted := List.pairwise_insertionSort (· ≤ ·) values
  cases hcopy : values.insertionSort (· ≤ ·) with
  | nil =>
    rw [hcopy] at hperm
    refine .inl ⟨hperm.nil_eq.symm, ?_⟩
    rw [coalesce, hcopy]
    rfl
  | cons first rest =>
    rw [hcopy] at hperm hsorted
    refine .inr ⟨first, rest, hperm, hsorted, ?_⟩
    rw [coalesce, hcopy]
    rfl

theorem coalesce_canonical (hnodup : values.Nodup) (hmax : ∀ y ∈ values, y.toInt ≠ T.max) :
    Canonical (coalesce values) {y | y ∈ values} := by
  rw [canonical_iff]
  rcases coalesce_cases values with ⟨rfl, hresult⟩ | ⟨first, rest, hperm, hsorted, hresult⟩
  · rw [hresult]
    simpa using Decomposes.nil
  · have hstrict : (first :: rest).Pairwise (· < ·) :=
      (hsorted.and (hperm.nodup_iff.2 hnodup)).imp fun h => lt_of_le_of_ne h.1 h.2
    have hmax' : ∀ y ∈ first :: rest, y.toInt ≠ T.max := fun y hy => hmax y (hperm.mem_iff.1 hy)
    rw [List.forall_mem_cons] at hmax'
    have h := Runs.decomposes_foldl (Runs.decomposes_start hmax'.1) hstrict hmax'.2
    have hseen : {y | y ∈ values} = {first} ∪ {y | y ∈ rest} := by
      ext y
      rw [Set.mem_ofPred_eq, ← hperm.mem_iff]
      simp
    rw [hresult, hseen]
    exact h

theorem nodup_of_gaps (hmax : ∀ y ∈ values, y.toInt ≠ T.max)
    (h : (coalesce values).Pairwise fun r q => r.upper < q.lower) : values.Nodup := by
  rcases coalesce_cases values with ⟨rfl, -⟩ | ⟨first, rest, hperm, -, hresult⟩
  · exact List.nodup_nil
  · rw [hresult] at h
    have hstrict := (Runs.increasing_of_gaps h fun y hy => hmax y (hperm.mem_iff.1 hy)).2
    exact hperm.nodup_iff.1 (hstrict.imp fun hlt => ne_of_lt hlt)

theorem coalesceSet_eq (values : UnorderedSet T.Value) :
    coalesceSet values = coalesce values.order := by
  have hpush : ∀ vec : List T.Value,
      values.order.foldl (fun vec val => vec ++ [val]) vec = vec ++ values.order := by
    induction values.order with
    | nil => simp
    | cons x xs ih => simp [ih]
  rw [coalesceSet, hpush, List.nil_append]

theorem coalesceSet_canonical (values : UnorderedSet T.Value)
    (hmax : ∀ y ∈ values, y.toInt ≠ T.max) :
    Canonical (coalesceSet values) {y | y ∈ values} ∧
      ∀ rs, Canonical rs {y | y ∈ values} → rs = coalesceSet values := by
  have h : Canonical (coalesceSet values) {y | y ∈ values} := by
    rw [coalesceSet_eq]
    exact coalesce_canonical values.nodup hmax
  exact ⟨h, fun rs hrs => hrs.unique h⟩

/-- 7, 3, 4 and -2, in this order -/
def fourValues : UnorderedSet i32.Value :=
  ⟨[i32.wrap 7, i32.wrap 3, i32.wrap 4, i32.wrap (-2)], by decide⟩

theorem coalesceSet_canonical_four :
    Canonical (coalesceSet fourValues) {y | y ∈ fourValues} ∧
      ∀ rs, Canonical rs {y | y ∈ fourValues} → rs = coalesceSet fourValues :=
  coalesceSet_canonical fourValues (by
    intro y hy
    have hall : ∀ y ∈ fourValues.order, y.toInt ≠ i32.max := by decide
    exact hall y hy)

theorem coalesce_eq_coalesceSet_iff (values : List T.Value) (hmax : ∀ y ∈ values, y.toInt ≠ T.max)
    (set : UnorderedSet T.Value) (hset : ∀ y, y ∈ set ↔ y ∈ values) :
    coalesce values = coalesceSet set ↔ values.Nodup := by
  have hcanonical : Canonical (coalesceSet set) {y | y ∈ values} := by
    rw [coalesceSet_eq, show {y | y ∈ values} = {y | y ∈ set.order} from
      Set.ext fun y => (hset y).symm]
    exact coalesce_canonical set.nodup fun y hy => hmax y ((hset y).1 hy)
  constructor
  · intro h
    rw [← h] at hcanonical
    exact nodup_of_gaps hmax hcanonical.gaps
  · intro hnodup
    exact (coalesce_canonical hnodup hmax).unique hcanonical

/-- 3 and 4, one after the other, and 7 -/
def distinctValues : List i32.Value := [i32.wrap 4, i32.wrap 7, i32.wrap 3]

theorem coalesce_eq_coalesceSet_distinct :
    coalesce distinctValues = coalesceSet ⟨distinctValues, by decide⟩ ↔ distinctValues.Nodup :=
  coalesce_eq_coalesceSet_iff distinctValues (by decide) ⟨distinctValues, by decide⟩
    fun _ => Iff.rfl

theorem coalesce_ne_coalesceSet_of_repeated :
    coalesce [i32.wrap 1, i32.wrap 1] ≠ coalesceSet ⟨[i32.wrap 1], by decide⟩ := by
  decide

end Utlib.Range
