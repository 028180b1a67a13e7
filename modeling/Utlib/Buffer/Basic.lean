import Utlib.Compressible.Rle
import Utlib.Program
import Utlib.Sequence

/-! `utl::Buffer` (storage/Buffer.h, storage/Buffer.cpp). -/

namespace Utlib

namespace Buffer

inductive Failure where
  | throws
  | assertion
  | outOfBounds
  deriving DecidableEq

structure Block (T : Type) where
  base : Nat
  cells : List T

/-- What `new T[n]` returns during one call, `none` where it throws. -/
structure New (T : Type) where
  block : Nat → Option (Block T)
  length_cells : ∀ n b, block n = some b → b.cells.length = n

end Buffer

open Buffer in
/-- `managed` is the client's pointer variable, if there is one, with the address it holds. -/
structure Buffer (T : Type) where
  ptr : Option (Block T) := none
  size : Nat := 0
  managed : Option (Option Nat) := none

namespace Buffer

open Program Sequence

variable {T : Type}

def contents (b : Buffer T) : List T :=
  match b.ptr with
  | none => []
  | some block => block.cells

def dealloc : EStateM Failure (Buffer T) Unit := do
  let b ← get
  require (b.size = 0 ↔ b.ptr.isNone) .assertion
  if b.ptr.isSome then
    modify fun b => { b with ptr := none, size := 0, managed := b.managed.map fun _ => none }

def acquire (new : New T) (elements : Nat) : EStateM Failure (Buffer T) Unit :=
  match new.block elements with
  | some block =>
    modify fun b => { b with
                      ptr := some block
                      size := elements
                      managed := b.managed.map fun _ => some block.base }
  | none => modify fun b => { b with ptr := none, size := 0, managed := b.managed.map fun _ => none }

def alloc (new : New T) (elements : Nat) : EStateM Failure (Buffer T) Unit := do
  let b ← get
  require (b.size = 0 ↔ b.ptr.isNone) .assertion
  if b.size ≠ elements then
    dealloc
    if elements ≠ 0 then acquire new elements

/-- `ptr[i] = value` -/
def store (i : Nat) (value : T) : EStateM Failure (Buffer T) Unit := do
  let b ← get
  match b.ptr with
  | none => throw .outOfBounds
  | some block =>
    require (i < block.cells.length) .outOfBounds
    set { b with ptr := some { block with cells := block.cells.set i value } }

/-- `for (i = 0; i < vecsize; i++) ptr[i] = vector[i]` -/
def fillFrom (vector : List T) : EStateM Failure (Buffer T) Unit :=
  forRange (fun i => match vector[i]? with
    | some value => store i value
    | none => throw .outOfBounds) vector.length 0

def initVector (new : New T) (vector : List T) : EStateM Failure (Buffer T) Unit := do
  alloc new vector.length
  fillFrom vector

abbrev Algorithm := List UInt8 → List UInt8 → Except Failure (List UInt8)

def recoded (algo : Algorithm) (offset : Nat) (b : Buffer UInt8) : Except Failure (List UInt8) :=
  let skipped := b.contents.take (min offset b.size)
  if offset < b.size then algo (slice b.contents offset (b.size - offset)) skipped
  else .ok skipped

/-- The bodies of the private `compress` and `uncompress` are the same but for a capacity
estimate, which no codec's result depends on. -/
def recode (algo : Algorithm) (new : New UInt8) (offset : Nat) :
    EStateM Failure (Buffer UInt8) Unit := do
  let result ← look (recoded algo offset)
  initVector new result

inductive Compressor where | none | gzip | lz4 | rle2 | rle3
  deriving DecidableEq

/-- The codecs that call into zlib and LZ4. -/
structure Linked where
  gzip : Algorithm
  gunzip : Algorithm
  lz4 : Algorithm
  unlz4 : Algorithm

def compress (linked : Linked) (compressor : Compressor) (new : New UInt8) (offset : Nat) :
    EStateM Failure (Buffer UInt8) Unit :=
  match compressor with
  | .none => pure ()
  | .gzip => recode linked.gzip new offset
  | .lz4 => recode linked.lz4 new offset
  | .rle2 => recode (fun buffer result => .ok (Compressible.rle2 buffer result)) new offset
  | .rle3 => recode (fun buffer result => .ok (Compressible.rle3 buffer result)) new offset

def uncompress (linked : Linked) (compressor : Compressor) (new : New UInt8) (offset : Nat) :
    EStateM Failure (Buffer UInt8) Unit :=
  match compressor with
  | .none => pure ()
  | .gzip => recode linked.gunzip new offset
  | .lz4 => recode linked.unlz4 new offset
  | .rle2 => recode (fun buffer result => .ok (Compressible.unrle2 buffer result)) new offset
  | .rle3 => recode (fun buffer result => .ok (Compressible.unrle3 buffer result)) new offset

structure Valid (b : Buffer T) : Prop where
  size_eq : b.size = b.contents.length
  null_iff : b.size = 0 ↔ b.ptr.isNone

section Rules

variable {b : Buffer T} {E : Failure → Buffer T → Prop}

theorem wp_dealloc (h : b.Valid) :
    wp dealloc (fun _ t => t.Valid ∧ t.ptr = none) E b := by
  simp only [dealloc, wp_bind, wp_get, wp_require, wp_ite, wp_modify, wp_pure]
  refine ⟨fun _ => ⟨fun _ => ⟨⟨rfl, by simp⟩, trivial⟩, fun hnull => ⟨h, ?_⟩⟩,
    fun hassert => absurd h.null_iff hassert⟩
  simpa using hnull

theorem wp_acquire {new : New T} {n : Nat} (hn : n ≠ 0) :
    wp (acquire new n)
      (fun _ t => t.Valid ∧ (t.size = n ∨ new.block n = none ∧ t.ptr = none)) E b := by
  unfold acquire
  cases hblock : new.block n with
  | none => exact ⟨⟨rfl, by simp⟩, Or.inr ⟨rfl, rfl⟩⟩
  | some block =>
    have hlen := new.length_cells n block hblock
    exact ⟨⟨hlen.symm, by simp [hn]⟩, Or.inl rfl⟩

theorem wp_alloc (h : b.Valid) (new : New T) (n : Nat) :
    wp (alloc new n)
      (fun _ t => t.Valid ∧ (t.size = n ∨ new.block n = none ∧ t.ptr = none)) E b := by
  simp only [alloc, wp_bind, wp_get, wp_require, wp_ite, wp_pure]
  refine ⟨fun _ => ⟨fun _ => ?_, fun hsize => ⟨h, Or.inl (not_not.1 hsize)⟩⟩,
    fun hassert => absurd h.null_iff hassert⟩
  refine (wp_dealloc h).mono (fun _ t ht => ⟨wp_acquire, fun hn => ⟨ht.1, Or.inl ?_⟩⟩)
    (fun _ _ h => h)
  rw [not_not.1 hn]
  exact ht.1.null_iff.2 (by simp [ht.2])

theorem wp_store {i : Nat} {value : T} (h : b.Valid) (hi : i < b.size) :
    wp (store i value) (fun _ t => t.Valid ∧ t.contents = b.contents.set i value) E b := by
  have hlen := h.size_eq
  cases hptr : b.ptr with
  | none =>
    have hzero := h.null_iff.2 (by simp [hptr])
    omega
  | some block =>
    have hcells : b.contents = block.cells := by rw [contents, hptr]
    rw [hcells] at hlen ⊢
    simp only [store, wp_bind, wp_get, hptr, wp_require, wp_set]
    refine ⟨fun _ => ⟨⟨?_, ?_⟩, rfl⟩, fun hi' => absurd (hlen ▸ hi) hi'⟩
    · simpa [contents] using hlen
    · simp
      omega

theorem set_append_drop {xs ys : List T} {k : Nat} (hxs : xs.length = k) (hk : k < ys.length)
    (x : T) : (xs ++ ys.drop k).set k x = xs ++ [x] ++ ys.drop (k + 1) := by
  rw [List.set_append_right k _ hxs.le, hxs, Nat.sub_self, List.drop_eq_getElem_cons hk,
    List.set_cons_zero, List.append_assoc]
  rfl

theorem set_take_append_drop {xs ys : List T} {k : Nat} {x : T} (hx : xs[k]? = some x)
    (hk : k < ys.length) :
    (xs.take k ++ ys.drop k).set k x = xs.take (k + 1) ++ ys.drop (k + 1) := by
  obtain ⟨hlt, rfl⟩ := List.getElem?_eq_some_iff.1 hx
  rw [set_append_drop (List.length_take_of_le hlt.le) hk, List.take_succ_eq_append_getElem hlt]

/-- `for (i = 0; i < n; i++) ptr[i] = cells[i]` -/
theorem wp_fill (h : b.Valid) {cells : List T} {n : Nat} (hn : n ≤ cells.length)
    (hsize : b.size = n) :
    wp (forRange (fun i => match cells[i]? with
      | some value => store i value
      | none => throw .outOfBounds) n 0)
      (fun _ t => t.Valid ∧ t.contents = cells.take n) E b := by
  have hlen : b.contents.length = n := by rw [← h.size_eq, hsize]
  refine (wp_forRange (fun k t => Valid t ∧ t.contents = cells.take k ++ b.contents.drop k)
    n 0 b ⟨h, rfl⟩ ?_).mono ?_ (fun _ _ h => h)
  · intro k t _ hk ht
    obtain ⟨hvalid, hcontents⟩ := ht
    have hget : cells[k]? = some cells[k] := List.getElem?_eq_getElem (by omega)
    rw [hget]
    refine (wp_store hvalid ?_).mono (fun _ u hu => ⟨hu.1, ?_⟩) (fun _ _ h => h)
    · rw [hvalid.size_eq, hcontents, List.length_append, List.length_take, List.length_drop]
      omega
    · rw [hu.2, hcontents, set_take_append_drop hget (by omega)]
  · intro _ t ht
    rw [ht.2, Nat.zero_add, List.drop_eq_nil_of_le hlen.le, List.append_nil]
    exact ⟨ht.1, rfl⟩

theorem wp_fillFrom (h : b.Valid) {vector : List T} (hsize : b.size = vector.length) :
    wp (fillFrom vector) (fun _ t => t.Valid ∧ t.contents = vector) E b := by
  have hfill := wp_fill (E := E) h le_rfl hsize
  rwa [List.take_length] at hfill

theorem wp_fillFrom_null (h : b.Valid) (hptr : b.ptr = none) {vector : List T}
    (hE : ∀ e t, E e t) :
    wp (fillFrom vector) (fun _ t => t.Valid ∧ t.contents = vector) E b := by
  refine (wp_forRange (fun k t => t = b ∧ k = 0) vector.length 0 b ⟨rfl, rfl⟩ ?_).mono ?_
    (fun _ _ h => h)
  · intro k t _ hk ht
    obtain ⟨rfl, -⟩ := ht
    rw [List.getElem?_eq_getElem (by omega)]
    simp only [store, wp_bind, wp_get, hptr, wp_throw]
    exact hE _ _
  · intro _ t ht
    obtain ⟨rfl, hzero⟩ := ht
    have hnil : vector = [] := List.length_eq_zero_iff.1 (by omega)
    exact ⟨h, by rw [hnil, contents, hptr]⟩

theorem wp_initVector (h : b.Valid) (new : New T) (vector : List T) :
    wp (initVector new vector) (fun _ t => t.Valid ∧ t.contents = vector)
      (fun _ _ => new.block vector.length = none) b := by
  rw [initVector, wp_bind]
  refine (wp_alloc h new vector.length).mono (fun _ s hs => ?_) (fun _ _ h => h)
  obtain ⟨hs, hsize | ⟨hnone, hptr⟩⟩ := hs
  · exact wp_fillFrom hs hsize
  · exact wp_fillFrom_null hs hptr fun _ _ => hnone

end Rules

end Buffer

end Utlib
