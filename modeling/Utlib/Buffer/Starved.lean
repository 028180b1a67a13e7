import Utlib.Buffer.Managed

/-! `utl::Buffer` when there is no storage to be had. -/

namespace Utlib.Buffer

open Program

variable {T : Type}

/-- How many elements the operation asks storage for. -/
def Operation.wants : {T : Type} → [Layout T] → Operation T → Option Nat
  | _, _, init elements => some elements
  | _, _, initFill elements _ => some elements
  | _, _, initArray (some _) elements => some elements
  | T, _, initString str => some (str.length / Layout.width T)
  | _, _, initVector vector => some vector.length
  | _, _, initBuffer other => some other.size
  | _, _, resize elements => some elements
  | _, _, resizePad elements _ => some elements
  | _, _, _ => none

variable [Layout T]

/-- The operation allocates, and the allocation fails. -/
def Operation.Starves (op : Operation T) (new : New T) (b : Buffer T) : Prop :=
  ∃ n, op.wants = some n ∧ n ≠ 0 ∧ n ≠ b.size ∧ new.block n = none

structure Emptied (t : Buffer T) : Prop where
  size_eq : t.size = 0
  ptr_eq : t.ptr = none
  managed_eq : ∀ address, t.managed = some address → address = none

/-- Neither an exception, an assertion nor an access to an element stops the operation. -/
def Operation.LeavesEmpty [Inhabited T] (op : Operation T) (new : New T) (b : Buffer T) : Prop :=
  ∃ t, op.run new b = .ok () t ∧ t.Emptied

/-- The operation copes with missing storage. -/
def Operation.Copes : Operation T → Buffer T → Prop
  | initVector _, _ => False
  | resizePad _ _, _ => False
  | resize _, b => b.managed = none ∨ b.managed = some none
  | _, _ => True

section Rules

variable {b : Buffer T} {new : New T} {n : Nat}

omit [Layout T] in
theorem wp_alloc_starved (h : b.Valid) (hn : n ≠ 0) (hsize : n ≠ b.size)
    (hnone : new.block n = none) {E : Failure → Buffer T → Prop} :
    wp (alloc new n) (fun _ => Emptied) E b := by
  simp only [alloc, wp_bind, wp_get, wp_require, wp_ite, wp_pure]
  refine ⟨fun _ => ⟨fun _ => ?_, fun hsame => absurd (not_not.1 hsame).symm hsize⟩,
    fun hassert => absurd h.null_iff hassert⟩
  refine (wp_dealloc h).mono (fun _ t _ => ⟨fun _ => ?_, fun hzero => absurd hn hzero⟩)
    fun _ _ he => he
  rw [acquire, hnone, wp_modify]
  refine ⟨rfl, rfl, fun address haddress => ?_⟩
  obtain ⟨_, -, rfl⟩ := Option.map_eq_some_iff.1 haddress
  rfl

omit [Layout T] in
theorem wp_initFill_starved (h : b.Valid) (hn : n ≠ 0) (hsize : n ≠ b.size)
    (hnone : new.block n = none) (value : T) {E : Failure → Buffer T → Prop} :
    wp (initFill new n value) (fun _ => Emptied) E b := by
  simp only [initFill, wp_bind, wp_get]
  refine (wp_alloc_starved h hn hsize hnone).mono (fun _ t ht => ?_) fun _ _ he => he
  rw [if_neg (by rw [ht.ptr_eq]; simp)]
  exact ht

omit [Layout T] in
theorem wp_initArray_starved (h : b.Valid) (hn : n ≠ 0) (hsize : n ≠ b.size)
    (hnone : new.block n = none) (cells : List T) {E : Failure → Buffer T → Prop} :
    wp (initArray new (some cells) n) (fun _ => Emptied) E b := by
  simp only [initArray, wp_bind, wp_get]
  refine (wp_alloc_starved h hn hsize hnone).mono (fun _ t ht => ?_) fun _ _ he => he
  rw [if_neg (by rw [ht.ptr_eq]; simp)]
  exact ht

omit [Layout T] in
theorem wp_initBuffer_starved {other : Buffer T} (h : b.Valid) (hn : other.size ≠ 0)
    (hsize : other.size ≠ b.size) (hnone : new.block other.size = none)
    {E : Failure → Buffer T → Prop} : wp (initBuffer new other) (fun _ => Emptied) E b := by
  simp only [initBuffer, wp_bind, wp_get]
  refine (wp_alloc_starved h hn hsize hnone).mono (fun _ t ht => ?_) fun _ _ he => he
  rw [if_neg (by rw [ht.size_eq]; simp)]
  exact ht

omit [Layout T] in
/-- The loop stores the first element through the null pointer. -/
theorem wp_initVector_starved {vector : List T} (h : b.Valid) (hn : vector.length ≠ 0)
    (hsize : vector.length ≠ b.size) (hnone : new.block vector.length = none) :
    wp (initVector new vector) (fun _ _ => False) (fun _ _ => True) b := by
  rw [initVector, wp_bind]
  refine (wp_alloc_starved h hn hsize hnone).mono (fun _ t ht => ?_) fun _ _ he => he
  cases vector with
  | nil => exact absurd rfl hn
  | cons x rest =>
    rw [fillFrom, List.length_cons, forRange, wp_bind]
    simp only [List.getElem?_cons_zero, store, wp_bind, wp_get, ht.ptr_eq, wp_throw]

omit [Layout T] in
/-- `resize` does not know the managed pointer. -/
theorem resize_starved (h : b.Valid) (hn : n ≠ 0) (hsize : n ≠ b.size)
    (hnone : new.block n = none) :
    resize new n b = .ok () { b with ptr := none, size := 0 } := by
  rw [resize, get_bind, require_bind h.null_iff, if_pos hsize.symm, if_neg hn, hnone]
  rfl

omit [Layout T] in
/-- The tail that `resizePad` clears is not there. -/
theorem wp_resizePad_starved (h : b.Valid) (hn : n ≠ 0) (hsize : n ≠ b.size)
    (hnone : new.block n = none) (pad : T) :
    wp (resizePad new n pad) (fun _ _ => False) (fun _ _ => True) b := by
  rw [resizePad, wp_bind, wp_get, wp_bind, wp_of_ok (resize_starved h hn hsize hnone)]
  simp only [clear, wp_bind, wp_get, wp_require]
  refine ⟨fun _ => ⟨fun hle => ?_, fun _ => trivial⟩, fun _ => trivial⟩
  omega

end Rules

section Starving

variable [Inhabited T] {b : Buffer T} {new : New T} {op : Operation T}

theorem leavesEmpty_of_wp (h : wp (op.run new) (fun _ => Emptied) (fun _ _ => False) b) :
    op.LeavesEmpty new b := by
  obtain ⟨_, t, hok, ht⟩ := h.exists_ok fun _ _ => id
  exact ⟨t, hok, ht⟩

theorem not_leavesEmpty_of_wp (h : wp (op.run new) (fun _ _ => False) (fun _ _ => True) b) :
    ¬op.LeavesEmpty new b := by
  rintro ⟨t, hok, -⟩
  exact h.ok hok

/-- Exactly these operations leave a valid empty buffer. -/
theorem leavesEmpty_iff (h : b.Valid) (hstarves : op.Starves new b) :
    op.LeavesEmpty new b ↔ op.Copes b := by
  obtain ⟨n, hwants, hn, hsize, hnone⟩ := hstarves
  cases op with
  | init elements =>
    cases hwants
    exact iff_of_true (leavesEmpty_of_wp (wp_initFill_starved h hn hsize hnone default)) trivial
  | initFill elements value =>
    cases hwants
    exact iff_of_true (leavesEmpty_of_wp (wp_initFill_starved h hn hsize hnone value)) trivial
  | initArray buf elements =>
    cases buf with
    | none => cases hwants
    | some cells =>
      cases hwants
      exact iff_of_true (leavesEmpty_of_wp (wp_initArray_starved h hn hsize hnone cells)) trivial
  | initString str =>
    cases hwants
    exact iff_of_true (leavesEmpty_of_wp (wp_initArray_starved h hn hsize hnone _)) trivial
  | initVector vector =>
    cases hwants
    exact iff_of_false (not_leavesEmpty_of_wp (wp_initVector_starved h hn hsize hnone)) id
  | initBuffer other =>
    cases hwants
    exact iff_of_true (leavesEmpty_of_wp (wp_initBuffer_starved h hn hsize hnone)) trivial
  | resize elements =>
    cases hwants
    have hrun := resize_starved h hn hsize hnone
    constructor
    · rintro ⟨t, hok, ht⟩
      rw [Operation.run, hrun] at hok
      cases hok
      cases hmanaged : b.managed with
      | none => exact .inl hmanaged
      | some address => exact .inr (by rw [hmanaged, ht.managed_eq address hmanaged])
    · intro hnull
      refine ⟨_, hrun, rfl, rfl, fun address haddress => ?_⟩
      rcases hnull with hnull | hnull
      · cases hnull.symm.trans haddress
      · cases hnull.symm.trans haddress
        rfl
  | resizePad elements pad =>
    cases hwants
    exact iff_of_false (not_leavesEmpty_of_wp (wp_resizePad_starved h hn hsize hnone pad)) id
  | _ => cases hwants

end Starving

def New.exhausted : New T where
  block _ := none
  length_cells n b h := by cases h

theorem leavesEmpty_init :
    (Operation.initFill 2 7).LeavesEmpty .exhausted (holding [1]) ↔
      (Operation.initFill 2 7).Copes (holding [1]) :=
  leavesEmpty_iff (valid_holding [1]) ⟨2, rfl, by decide, by decide, rfl⟩

theorem not_leavesEmpty_initVector :
    ¬∀ (b : Buffer UInt8) (op : Operation UInt8) (new : New UInt8), b.Valid → op.Starves new b →
      op.LeavesEmpty new b := by
  intro hall
  have hempty := hall (holding []) (.initVector [1]) .exhausted (valid_holding [])
    ⟨1, rfl, by decide, by decide, rfl⟩
  obtain ⟨t, hok, -⟩ := hempty
  cases hok

end Utlib.Buffer
