import Utlib.RingBuffer.Queue

/-! `utl::ResizableRingBuffer`: construction, `resize` and `operator=`. -/

namespace Utlib.RingBuffer

open Cyclic

variable {T : Type}

/-- `ResizableRingBuffer(isize cap)`; a negative `cap` makes `new` throw. -/
def ofCapacity [Inhabited T] (cap : Int) : Option (RingBuffer T) :=
  if cap < 0 then none else some ⟨.resizable, List.replicate cap.toNat default, 0, 0⟩

def resize [Inhabited T] (b : RingBuffer T) (cap : Int) : Option (RingBuffer T) :=
  if b.capacity ≠ cap then
    if cap < 0 then none
    else some (clear { b with elements := List.replicate cap.toNat default })
  else some b

/-- `elements[i] = other.elements[i]` for the first `n` indices. -/
def copyElements (other : List T) : Nat → List T → Option (List T)
  | 0, xs => some xs
  | n + 1, xs => do
    let xs ← copyElements other n xs
    let x ← load other n
    store xs n x

/-- `operator=` -/
def assign (b other : RingBuffer T) : Option (RingBuffer T) := do
  let elements ← copyElements other.elements b.capacity.toNat b.elements
  some { b with elements := elements, r := other.r, w := other.w }

section Copy

variable {other xs : List T} {n : Nat}

theorem copyElements_eq (hother : n ≤ other.length) (hxs : n ≤ xs.length) :
    copyElements other n xs = some (other.take n ++ xs.drop n) := by
  induction n with
  | zero => rfl
  | succ n ih =>
    have hlen : (other.take n).length = n := List.length_take_of_le (by omega)
    have hload : load other (n : Int) = some other[n] := by
      rw [load, if_pos (Int.natCast_nonneg n), Int.toNat_natCast, List.getElem?_eq_getElem hother]
    have hstore : store (other.take n ++ xs.drop n) (n : Int) other[n] =
        some (other.take (n + 1) ++ xs.drop (n + 1)) := by
      have h := store_append_cons (other.take n) (xs.drop (n + 1)) other[n] xs[n]
      rwa [hlen, ← List.drop_eq_getElem_cons, ← List.singleton_append, ← List.append_assoc,
        ← List.take_succ_eq_append_getElem hother] at h
    rw [copyElements, ih (by omega) (by omega)]
    simp only [Option.bind_eq_bind, Option.bind_some, hload, hstore]

theorem length_of_copyElements {ys : List T} (h : copyElements other n xs = some ys) :
    n ≤ other.length := by
  cases n with
  | zero => exact Nat.zero_le _
  | succ n =>
    rw [copyElements] at h
    simp only [Option.bind_eq_bind, Option.bind_eq_some_iff] at h
    obtain ⟨_, -, x, hload, -⟩ := h
    rw [load, if_pos (Int.natCast_nonneg n), Int.toNat_natCast] at hload
    exact (List.getElem?_eq_some_iff.1 hload).1

end Copy

/-- `r` and `w` are indices of slots. -/
structure InRange (b : RingBuffer T) : Prop where
  reads : 0 ≤ b.r ∧ b.r < b.capacity
  writes : 0 ≤ b.w ∧ b.w < b.capacity

namespace InRange

variable {b : RingBuffer T}

theorem count_bounds (h : b.InRange) : 0 ≤ b.count ∧ b.count < b.capacity := by
  obtain ⟨hr, hw⟩ := h
  rw [count]
  split <;> omega

theorem spans (h : b.InRange) : b.Spans b.elements.length b.count.toNat := by
  obtain ⟨hcount, hlt⟩ := h.count_bounds
  obtain ⟨hr, hw⟩ := h
  rw [capacity] at *
  refine ⟨rfl, by omega, hr, hw.1, hw.2, ?_⟩
  rw [Int.toNat_of_nonneg hcount, count, capacity]
  split <;> omega

theorem holds (h : b.InRange) :
    b.Holds b.elements.length (window b.elements b.r.toNat b.count.toNat) := by
  have hlen : (window b.elements b.r.toNat b.count.toNat).length = b.count.toNat :=
    length_window (Nat.le_of_lt h.spans.room)
  constructor
  · rw [hlen]
    exact h.spans
  · rw [hlen]

theorem vector_eq (h : b.InRange) :
    b.vector = some (window b.elements b.r.toNat b.count.toNat) := h.holds.vector_eq

theorem length_eq (h : b.InRange) {xs : List T} (hxs : b.vector = some xs) :
    (xs.length : Int) = b.count := by
  rw [h.vector_eq] at hxs
  cases hxs
  rw [length_window (Nat.le_of_lt h.spans.room), Int.toNat_of_nonneg h.count_bounds.1]

end InRange

section Assign

variable {a b s : RingBuffer T}

/-- `a` with the first elements of `b` and its indices. -/
def assigned (a b : RingBuffer T) : RingBuffer T :=
  { a with elements := b.elements.take a.elements.length, r := b.r, w := b.w }

theorem assign_eq (h : a.capacity ≤ b.capacity) : a.assign b = some (assigned a b) := by
  have hlen : a.elements.length ≤ b.elements.length := Int.ofNat_le.1 h
  rw [assign, capacity, Int.toNat_natCast, copyElements_eq hlen le_rfl, List.drop_length,
    List.append_nil]
  rfl

theorem capacity_le_of_assign (h : a.assign b = some s) : a.capacity ≤ b.capacity := by
  rw [assign] at h
  simp only [Option.bind_eq_bind, Option.bind_eq_some_iff] at h
  obtain ⟨xs, hcopy, -⟩ := h
  have hlen := length_of_copyElements hcopy
  rw [capacity, Int.toNat_natCast] at hlen
  exact Int.ofNat_le.2 hlen

theorem capacity_assigned (h : a.capacity ≤ b.capacity) : (assigned a b).capacity = a.capacity := by
  rw [capacity, assigned, List.length_take_of_le (Int.ofNat_le.1 h), capacity]

theorem inRange_assigned_iff (h : a.capacity ≤ b.capacity) :
    (assigned a b).InRange ↔ (0 ≤ b.r ∧ b.r < a.capacity) ∧ 0 ≤ b.w ∧ b.w < a.capacity := by
  rw [← capacity_assigned h]
  exact ⟨fun hrange => ⟨hrange.reads, hrange.writes⟩, fun hrange => ⟨hrange.1, hrange.2⟩⟩

theorem count_assigned_eq_iff (h : a.capacity ≤ b.capacity) :
    (assigned a b).count = b.count ↔ (b.w < b.r → a.capacity = b.capacity) := by
  rw [count, count, capacity_assigned h]
  simp only [assigned]
  split <;> omega

theorem vector_assigned_eq_iff (h : a.capacity ≤ b.capacity) (hs : (assigned a b).InRange)
    (hb : b.InRange) :
    (assigned a b).vector = b.vector ↔ (b.w < b.r → a.capacity = b.capacity) := by
  constructor
  · intro hvector
    rw [← count_assigned_eq_iff h, ← hb.length_eq hb.vector_eq,
      ← hs.length_eq (hvector.trans hb.vector_eq)]
  · intro hwrap
    have hcount := (count_assigned_eq_iff h).2 hwrap
    have hlen : a.elements.length ≤ b.elements.length := Int.ofNat_le.1 h
    rw [hs.vector_eq, hb.vector_eq, hcount]
    congr 1
    by_cases hlt : b.w < b.r
    · have hfull : a.elements.length = b.elements.length := Int.ofNat_inj.1 (hwrap hlt)
      rw [assigned, hfull, List.take_length]
    · apply window_take hlen
      have hw := hs.writes
      rw [capacity_assigned h, capacity] at hw
      have hcount' : b.count = b.w - b.r := by rw [count, if_neg hlt]
      have hr := hb.reads
      simp only [assigned] at hw ⊢
      omega

/-- After `a = b` the two hold the same queue, `a` in indices of its own slots, and all accesses
were inside the two storages. -/
def CopiesQueue (a b : RingBuffer T) : Prop :=
  ∃ s, a.assign b = some s ∧ s.vector = b.vector ∧ s.InRange

theorem inRange_of_assigned (h : a.capacity ≤ b.capacity) (hs : (assigned a b).InRange) :
    b.InRange := by
  obtain ⟨hr, hw⟩ := (inRange_assigned_iff h).1 hs
  exact ⟨by omega, by omega⟩

theorem CopiesQueue.intro (h : a.capacity ≤ b.capacity) (hs : (assigned a b).InRange)
    (hwrap : b.w < b.r → a.capacity = b.capacity) : CopiesQueue a b :=
  ⟨_, assign_eq h, (vector_assigned_eq_iff h hs (inRange_of_assigned h hs)).2 hwrap, hs⟩

theorem copiesQueue_iff (a b : RingBuffer T) :
    CopiesQueue a b ↔
      a.capacity ≤ b.capacity ∧ (0 ≤ b.r ∧ b.r < a.capacity) ∧ (0 ≤ b.w ∧ b.w < a.capacity) ∧
        (b.w < b.r → a.capacity = b.capacity) := by
  constructor
  · rintro ⟨s, hassign, hvector, hrange⟩
    have hcap := capacity_le_of_assign hassign
    rw [assign_eq hcap] at hassign
    cases hassign
    obtain ⟨hr, hw⟩ := (inRange_assigned_iff hcap).1 hrange
    have hsource := inRange_of_assigned hcap hrange
    exact ⟨hcap, hr, hw, (vector_assigned_eq_iff hcap hrange hsource).1 hvector⟩
  · rintro ⟨hcap, hr, hw, hwrap⟩
    exact .intro hcap ((inRange_assigned_iff hcap).2 ⟨hr, hw⟩) hwrap

/-- Four slots are assigned a queue that is empty at slot 6 of eight. -/
theorem not_copiesQueue_of_eight_slots :
    ¬CopiesQueue (⟨.resizable, List.replicate 4 0, 0, 0⟩ : RingBuffer Nat)
      ⟨.resizable, List.replicate 8 0, 6, 6⟩ := by
  rintro ⟨s, hassign, -, hrange⟩
  cases hassign
  exact absurd hrange.reads.2 (by decide)

theorem copiesQueue_of_capacity_eq (h : a.capacity = b.capacity) (hb : b.InRange) :
    CopiesQueue a b := by
  have hs : (assigned a b).InRange := (inRange_assigned_iff h.le).2 (h ▸ ⟨hb.reads, hb.writes⟩)
  exact .intro h.le hs fun _ => h

variable [Inhabited T]

theorem capacity_replicate {a : RingBuffer T} {cap : Int} (h : 0 ≤ cap)
    (ha : a.elements = List.replicate cap.toNat default) : a.capacity = cap := by
  rw [capacity, ha, List.length_replicate, Int.toNat_of_nonneg h]

/-- A buffer that is made as large as another one, or is resized to that, can be assigned it. -/
theorem copiesQueue_resized (a : RingBuffer T) (hb : b.InRange) :
    (∃ s, ofCapacity b.capacity = some s ∧ CopiesQueue s b) ∧
      ∃ s, a.resize b.capacity = some s ∧ CopiesQueue s b := by
  have hcap : 0 ≤ b.capacity := Int.natCast_nonneg _
  refine ⟨⟨_, if_neg (Int.not_lt.2 hcap), ?_⟩, ?_⟩
  · exact copiesQueue_of_capacity_eq (capacity_replicate hcap rfl) hb
  rw [resize]
  split
  · exact ⟨_, if_neg (Int.not_lt.2 hcap),
      copiesQueue_of_capacity_eq (capacity_replicate hcap rfl) hb⟩
  · next heq => exact ⟨a, rfl, copiesQueue_of_capacity_eq (not_not.1 heq) hb⟩

end Assign

end Utlib.RingBuffer
