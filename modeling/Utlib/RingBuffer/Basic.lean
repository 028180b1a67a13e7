import Mathlib.Tactic.SplitIfs
import Utlib.Cyclic

/-! `utl::ResizableRingBuffer` and `utl::RingBuffer` (storage/RingBuffer.h).  A failed assertion
and an access outside of the storage are `none`. -/

namespace Utlib

open Cyclic

/-- The two class templates: `RingBuffer` and `ResizableRingBuffer`. They differ in `next` only. -/
inductive Template
  | fixed
  | resizable
  deriving DecidableEq

structure RingBuffer (T : Type) where
  template : Template
  elements : List T
  r : Int
  w : Int

namespace RingBuffer

variable {T : Type}

def capacity (b : RingBuffer T) : Int := b.elements.length

def clear (b : RingBuffer T) : RingBuffer T := { b with r := 0, w := 0 }

def cap (b : RingBuffer T) : Int := b.capacity

def count (b : RingBuffer T) : Int := if b.w < b.r then b.capacity - (b.r - b.w) else b.w - b.r

def free (b : RingBuffer T) : Int := b.capacity - b.count - 1

def isEmpty (b : RingBuffer T) : Bool := b.r = b.w

def isFull (b : RingBuffer T) : Bool := b.count = b.capacity - 1

def next (b : RingBuffer T) (i : Int) : Int :=
  match b.template with
  | .fixed => if i < b.capacity - 1 then i + 1 else 0
  | .resizable => if i + 1 < b.capacity then i + 1 else 0

def prev (b : RingBuffer T) (i : Int) : Int := if 0 < i then i - 1 else b.capacity - 1

def read (b : RingBuffer T) : Option (T × RingBuffer T) :=
  if b.isEmpty then none
  else do
    let x ← load b.elements b.r
    some (x, { b with r := b.next b.r })

def write (b : RingBuffer T) (element : T) : Option (RingBuffer T) :=
  if b.isFull then none
  else do
    let elements ← store b.elements b.w element
    some { b with elements := elements, w := b.next b.w }

/-- `read(T fallback)` -/
def readOr (b : RingBuffer T) (fallback : T) : Option (T × RingBuffer T) := do
  let b ← if b.isEmpty then b.write fallback else some b
  b.read

def put (b : RingBuffer T) (element : T) : Option (RingBuffer T) := do
  let elements ← store b.elements b.w element
  let w := b.next b.w
  some { b with elements := elements, w := w, r := if w = b.r then b.next b.r else b.r }

def skip (b : RingBuffer T) : RingBuffer T := { b with r := b.next b.r }

/-- `skip(isize n)` -/
def skipBy (b : RingBuffer T) (n : Int) : Option (RingBuffer T) :=
  if b.capacity = 0 then none else some { b with r := (b.r + n).tmod b.capacity }

def current (b : RingBuffer T) : Option T := load b.elements b.r

/-- `current(isize offset)` -/
def currentAt (b : RingBuffer T) (offset : Int) : Option T :=
  if b.capacity = 0 then none else load b.elements ((b.r + offset).tmod b.capacity)

def latest (b : RingBuffer T) : Option T := load b.elements (b.prev b.w)

/-- `for (i = begin(); i != end(); i = next(i))`, with `n` steps to spare. -/
def walk {α : Type} (b : RingBuffer T) (visit : Int → Option α) : Nat → Int → Option (List α)
  | 0, i => if i = b.w then some [] else none
  | n + 1, i =>
    if i = b.w then some []
    else do
      let x ← visit i
      let xs ← b.walk visit n (b.next i)
      some (x :: xs)

def vector (b : RingBuffer T) : Option (List T) :=
  b.walk (load b.elements) b.capacity.toNat b.r

/-- Of `c` slots, `j` lies `k` steps after `i`. -/
def Slot (c : Nat) (i : Int) (k : Nat) (j : Int) : Prop :=
  0 ≤ j ∧ j < c ∧ (j = i + k ∨ j + c = i + k)

theorem Slot.after {c k : Nat} {i j : Int} (h : Slot c i k j) (hi : 0 ≤ i) :
    After c i.toNat k j.toNat := by
  obtain ⟨hj, hlt, heq⟩ := h
  constructor <;> omega

theorem Slot.tmod {c k : Nat} {i j : Int} (h : Slot c i k j) (hi : 0 ≤ i) :
    (i + k).tmod c = j := by
  obtain ⟨hj, hlt, heq⟩ := h
  rw [Int.tmod_eq_emod_of_nonneg (by omega)]
  rcases heq with heq | heq
  · rw [← heq, Int.emod_eq_of_lt hj hlt]
  · rw [← heq, Int.add_emod_right, Int.emod_eq_of_lt hj hlt]

theorem Slot.exists {c k : Nat} {i : Int} (hi : 0 ≤ i) (hlt : i < c) (hk : k ≤ c) :
    ∃ j, Slot c i k j := by
  by_cases h : i + k < c
  · exact ⟨i + k, by omega, h, Or.inl rfl⟩
  · exact ⟨i + k - c, by omega, by omega, Or.inr (by omega)⟩

section Indices

variable {b : RingBuffer T} {c : Nat} {i : Int}

theorem next_slot (hc : b.capacity = c) (hi : 0 ≤ i) (hlt : i < c) : Slot c i 1 (b.next i) := by
  unfold next Slot
  split <;> split <;> omega

theorem prev_slot (hc : b.capacity = c) (hi : 0 ≤ i) (hlt : i < c) :
    0 ≤ b.prev i ∧ b.prev i < c ∧ Slot c (b.prev i) 1 i := by
  unfold prev Slot
  split <;> omega

end Indices

/-- Of the `c` slots of `b`, the `n` from `r` up to `w` are in use. -/
structure Spans (c : Nat) (b : RingBuffer T) (n : Nat) : Prop where
  sized : b.elements.length = c
  room : n < c
  reads : 0 ≤ b.r ∧ b.r < c
  ahead : Slot c b.r n b.w

namespace Spans

variable {c n : Nat} {b : RingBuffer T}

theorem capacity (h : Spans c b n) : b.capacity = c := by
  rw [RingBuffer.capacity, h.sized]

theorem count_eq (h : Spans c b n) : b.count = n := by
  have hc := h.capacity
  obtain ⟨_, hroom, hr, hw⟩ := h
  unfold Slot at hw
  unfold count
  split <;> omega

theorem isEmpty_iff (h : Spans c b n) : b.isEmpty = true ↔ n = 0 := by
  obtain ⟨_, hroom, hr, hw⟩ := h
  unfold Slot at hw
  simp only [isEmpty, decide_eq_true_eq]
  omega

theorem not_isEmpty_iff (h : Spans c b n) : b.isEmpty = false ↔ 0 < n := by
  rw [Bool.eq_false_iff, Ne, h.isEmpty_iff, Nat.pos_iff_ne_zero]

theorem isFull_iff (h : Spans c b n) : b.isFull = true ↔ n = c - 1 := by
  have hcount := h.count_eq
  have hc := h.capacity
  have hroom := h.room
  simp only [isFull, decide_eq_true_eq]
  omega

theorem not_isFull_iff (h : Spans c b n) : b.isFull = false ↔ n + 1 < c := by
  have hroom := h.room
  rw [Bool.eq_false_iff, Ne, h.isFull_iff]
  omega

theorem clear (hs : b.elements.length = c) (h0 : 0 < c) : Spans c b.clear 0 := by
  refine ⟨hs, h0, ⟨Int.le_refl 0, by simpa [RingBuffer.clear] using h0⟩, ?_⟩
  simp [Slot, RingBuffer.clear, h0]

/-- `walk` visits the slots in use, in order. -/
theorem walk_eq {α : Type} {visit : Int → Option α} {xs : List α} {m : Nat} {i : Int}
    (hc : b.capacity = c) (hm : xs.length ≤ m) (hroom : xs.length < c) (hi : 0 ≤ i ∧ i < c)
    (hw : Slot c i xs.length b.w)
    (hvisit : ∀ k x j, xs[k]? = some x → Slot c i k j → visit j = some x) :
    b.walk visit m i = some xs := by
  induction xs generalizing m i with
  | nil =>
    have hend : i = b.w := by
      unfold Slot at hw
      simp at hw
      omega
    cases m <;> simp [walk, hend]
  | cons x xs ih =>
    have hne : i ≠ b.w := by
      unfold Slot at hw
      simp at hw hroom
      omega
    cases m with
    | zero => simp at hm
    | succ m =>
      have hnext := next_slot hc hi.1 hi.2
      have hx : visit i = some x := hvisit 0 x i rfl (by unfold Slot; omega)
      have hrest : b.walk visit m (b.next i) = some xs := by
        simp at hm hroom
        apply ih hm (by omega) ⟨hnext.1, hnext.2.1⟩
        · unfold Slot at *
          simp at hw
          omega
        · intro k y j hy hj
          have hk : k < xs.length := (List.getElem?_eq_some_iff.1 hy).1
          apply hvisit (k + 1) y j hy
          unfold Slot at *
          omega
      simp [walk, hne, hx, hrest]

end Spans

end RingBuffer

end Utlib
