import Mathlib.Data.List.Induction
import Utlib.Buffer.Editing

/-! The client's pointer variable over runs of operations. -/

namespace Utlib.Buffer

open Program Sequence Utlib.Path
open ZipArchive (Filesystem)

variable {T : Type}

/-- The managed pointer holds the buffer's address, which is null for no elements. -/
def Synced (b : Buffer T) : Prop :=
  b.managed = some (b.ptr.map Block.base) ∧ (b.size = 0 ↔ b.ptr.isNone)

structure InStep (b : Buffer T) : Prop extends Valid b where
  managed_eq : b.managed = some (b.ptr.map Block.base)

theorem InStep.synced {b : Buffer T} (h : b.InStep) : b.Synced := ⟨h.managed_eq, h.null_iff⟩

theorem Valid.manage {b : Buffer T} (h : b.Valid) : b.manage.InStep where
  size_eq := h.size_eq
  null_iff := h.null_iff
  managed_eq := rfl

section Storage

variable {new : New T} {b : Buffer T}

theorem keeps_dealloc : Keeps InStep (dealloc : EStateM Failure (Buffer T) Unit) := by
  intro b h
  simp only [dealloc, wp_bind, wp_get, wp_require, wp_ite, wp_modify, wp_pure]
  refine ⟨fun _ => ⟨fun _ => ⟨⟨rfl, by simp⟩, ?_⟩, fun _ => h⟩, fun _ => h⟩
  rw [h.managed_eq]
  rfl

theorem keeps_acquire (new : New T) {n : Nat} (hn : n ≠ 0) : Keeps InStep (acquire new n) := by
  intro b h
  unfold acquire
  cases hblock : new.block n with
  | none =>
    simp only [wp_modify, h.managed_eq]
    exact ⟨⟨rfl, by simp⟩, rfl⟩
  | some block =>
    have hlen := new.length_cells n block hblock
    simp only [wp_modify, h.managed_eq]
    exact ⟨⟨hlen.symm, by simp [hn]⟩, rfl⟩

theorem keeps_alloc (new : New T) (n : Nat) : Keeps InStep (alloc new n) := by
  refine keeps_get.bind fun b => (keeps_require _).bind fun _ => ?_
  split
  · refine keeps_dealloc.bind fun _ => ?_
    split
    · next hn => exact keeps_acquire new hn
    · exact keeps_pure ()
  · exact keeps_pure ()

theorem InStep.length_cells {block : Block T} (h : b.InStep) (hptr : b.ptr = some block) :
    block.cells.length = b.size := by
  rw [h.size_eq, contents, hptr]

theorem InStep.withCells {block : Block T} (h : b.InStep) (hptr : b.ptr = some block)
    {cells : List T} (hlen : cells.length = block.cells.length) :
    InStep { b with ptr := some { block with cells } } where
  size_eq := by
    rw [contents, hlen, h.length_cells hptr]
  null_iff := by
    have hnull := h.null_iff
    rwa [hptr] at hnull
  managed_eq := by
    have hmanaged := h.managed_eq
    rwa [hptr] at hmanaged

theorem keeps_store (i : Nat) (value : T) : Keeps InStep (store i value) := by
  intro b h
  cases hptr : b.ptr with
  | none =>
    simp only [store, wp_bind, wp_get, hptr, wp_throw]
    exact h
  | some block =>
    simp only [store, wp_bind, wp_get, hptr, wp_require, wp_set]
    exact ⟨fun _ => h.withCells hptr List.length_set, fun _ => h⟩

theorem keeps_storeAll (value : T) (offset len : Nat) :
    Keeps InStep (storeAll value offset len) :=
  Keeps.forRange (fun k => keeps_store (k + offset) value) len 0

theorem keeps_initFill (new : New T) (n : Nat) (value : T) :
    Keeps InStep (initFill new n value) := by
  refine (keeps_alloc new n).bind fun _ => keeps_get.bind fun b => ?_
  split
  · exact keeps_storeAll value 0 b.size
  · exact keeps_pure ()

theorem keeps_fill (cells : List T) (n : Nat) :
    Keeps InStep (forRange (fun i => match cells[i]? with
      | some value => store i value
      | none => throw .outOfBounds) n 0) := by
  refine Keeps.forRange (fun k => ?_) n 0
  split
  · exact keeps_store k _
  · exact keeps_throw _

theorem keeps_initArray (new : New T) (buf : Option (List T)) (n : Nat) :
    Keeps InStep (initArray new buf n) := by
  cases buf with
  | none => exact keeps_throw _
  | some cells =>
    refine (keeps_alloc new n).bind fun _ => keeps_get.bind fun b => ?_
    split
    · exact keeps_fill cells b.size
    · exact keeps_pure ()

theorem keeps_initString [Layout T] (new : New T) (str : List UInt8) :
    Keeps InStep (initString new str) :=
  keeps_initArray new _ _

theorem keeps_initVector (new : New T) (vector : List T) : Keeps InStep (initVector new vector) :=
  (keeps_alloc new vector.length).bind fun _ => keeps_fill vector vector.length

theorem keeps_initPath [Layout T] (new : New T) (w : Filesystem (List UInt8)) (path : Path) :
    Keeps InStep (initPath new w path : EStateM Failure (Buffer T) Unit) := by
  unfold initPath
  split
  · exact keeps_throw _
  · exact keeps_initString new _
  · exact keeps_initString new _

theorem keeps_initBuffer (new : New T) (other : Buffer T) : Keeps InStep (initBuffer new other) := by
  refine (keeps_alloc new other.size).bind fun _ => ?_
  intro b h
  rw [wp_bind, wp_get, wp_ite]
  refine ⟨fun _ => ?_, fun _ => h⟩
  split
  · exact h
  · next block hptr =>
    rw [wp_bind, wp_require, wp_set]
    refine ⟨fun hle => h.withCells hptr ?_, fun _ => h⟩
    rw [List.length_append, List.length_take, List.length_drop]
    omega

theorem keeps_recode (algo : Algorithm) (new : New UInt8) (offset : Nat) :
    Keeps InStep (recode algo new offset) :=
  (keeps_look _).bind fun result => keeps_initVector new result

theorem keeps_compress (linked : Linked) (compressor : Compressor) (new : New UInt8)
    (offset : Nat) : Keeps InStep (compress linked compressor new offset) := by
  cases compressor with
  | none => exact keeps_pure ()
  | gzip => exact keeps_recode _ new offset
  | lz4 => exact keeps_recode _ new offset
  | rle2 => exact keeps_recode _ new offset
  | rle3 => exact keeps_recode _ new offset

theorem keeps_uncompress (linked : Linked) (compressor : Compressor) (new : New UInt8)
    (offset : Nat) : Keeps InStep (uncompress linked compressor new offset) := by
  cases compressor with
  | none => exact keeps_pure ()
  | gzip => exact keeps_recode _ new offset
  | lz4 => exact keeps_recode _ new offset
  | rle2 => exact keeps_recode _ new offset
  | rle3 => exact keeps_recode _ new offset

end Storage

section Resize

variable {new : New T} {b : Buffer T} {n : Nat}

/-- The buffer has storage, and the managed pointer is null. -/
def Lost (b : Buffer T) : Prop := b.managed = some none ∧ b.ptr.isSome

theorem Lost.not_synced (h : b.Lost) : ¬b.Synced := by
  intro hsynced
  obtain ⟨block, hptr⟩ := Option.isSome_iff_exists.1 h.2
  have hmanaged := hsynced.1
  rw [h.1, hptr] at hmanaged
  cases hmanaged

theorem keeps_lost_store (i : Nat) (value : T) : Keeps Lost (store i value) := by
  intro b h
  obtain ⟨block, hptr⟩ := Option.isSome_iff_exists.1 h.2
  simp only [store, wp_bind, wp_get, hptr, wp_require, wp_set]
  exact ⟨fun _ => ⟨h.1, rfl⟩, fun _ => h⟩

theorem keeps_lost_clear (value : T) (offset len : Nat) : Keeps Lost (clear value offset len) := by
  refine keeps_get.bind fun b => (keeps_require _).bind fun _ => (keeps_require _).bind fun _ => ?_
  split
  · exact Keeps.forRange (fun k => keeps_lost_store (k + offset) value) len 0
  · exact keeps_pure ()

theorem wp_dealloc_null (h : b.InStep) {E : Failure → Buffer T → Prop} :
    wp dealloc (fun _ t => t.managed = some none) E b := by
  have hmanaged := h.managed_eq
  simp only [dealloc, wp_bind, wp_get, wp_require, wp_ite, wp_modify, wp_pure]
  refine ⟨fun _ => ⟨fun _ => by rw [hmanaged]; rfl, fun hnull => ?_⟩,
    fun hassert => absurd h.null_iff hassert⟩
  rw [hmanaged, Option.not_isSome_iff_eq_none.1 hnull]
  rfl

theorem wp_resize_lost (h : b.InStep) (hnew : new.Plentiful) (hn : n ≠ 0) (hsize : b.size ≠ n)
    {E : Failure → Buffer T → Prop} : wp (resize new n) (fun _ => Lost) E b := by
  obtain ⟨block, hblock⟩ := Option.isSome_iff_exists.1 (hnew n)
  have hcells := new.length_cells n block hblock
  simp only [resize, wp_bind, wp_get, wp_require, wp_ite, hblock, wp_look, wp_modify]
  refine ⟨fun _ => ⟨fun _ => ⟨fun hzero => absurd hzero hn, fun _ => ?_⟩,
    fun heq => absurd hsize heq⟩, fun hassert => absurd h.null_iff hassert⟩
  rw [copy_eq h.toValid (by omega) (by omega)]
  refine ⟨fun cells _ => ?_, fun e he => ?_⟩
  · exact (wp_dealloc_null h).mono (fun _ t ht => ⟨ht, rfl⟩) fun _ _ he => he
  · cases he

theorem wp_resize_inStep (h : b.InStep) (hn : n ≠ 0 → n = b.size) :
    wp (resize new n) (fun _ => InStep) (fun _ => InStep) b := by
  simp only [resize, wp_bind, wp_get, wp_require, wp_ite]
  refine ⟨fun _ => ⟨fun hne => ⟨fun _ => keeps_dealloc b h, fun hzero => ?_⟩, fun _ => h⟩,
    fun _ => h⟩
  exact absurd (hn hzero).symm hne

theorem wp_resizePad_lost (h : b.InStep) (hnew : new.Plentiful) (hn : n ≠ 0) (hsize : b.size ≠ n)
    (pad : T) : wp (resizePad new n pad) (fun _ => Lost) (fun _ => Lost) b := by
  simp only [resizePad, wp_bind, wp_get]
  exact (wp_resize_lost h hnew hn hsize (E := fun _ => Lost)).mono
    (fun _ t ht => keeps_lost_clear pad _ _ t ht) fun _ _ ht => ht

theorem keeps_clear (value : T) (offset len : Nat) : Keeps InStep (clear value offset len) := by
  refine keeps_get.bind fun b => (keeps_require _).bind fun _ => (keeps_require _).bind fun _ => ?_
  split
  · exact keeps_storeAll value offset len
  · exact keeps_pure ()

theorem wp_resizePad_inStep (h : b.InStep) (hn : n ≠ 0 → n = b.size) (pad : T) :
    wp (resizePad new n pad) (fun _ => InStep) (fun _ => InStep) b := by
  simp only [resizePad, wp_bind, wp_get]
  exact (wp_resize_inStep h hn).mono (fun _ t ht => keeps_clear pad _ _ t ht) fun _ _ ht => ht

/-- The loop of `strip` moves elements within the storage. -/
theorem wp_shift_inStep (h : b.InStep) (elements : Nat) {E : Failure → Buffer T → Prop} :
    wp (forRange (fun i => do store i (← load (i + elements))) (b.size - elements) 0)
      (fun _ t => t.InStep ∧ t.size = b.size) E b := by
  refine wp_forRange (fun _ t => t.InStep ∧ t.size = b.size) _ 0 b ⟨h, rfl⟩ ?_
  intro k t _ hk ht
  obtain ⟨ht, hsize⟩ := ht
  rw [wp_bind]
  have hlen := ht.size_eq
  refine (wp_load (by omega)).mono (fun value u hu => ?_) fun _ _ he => he
  rw [hu.1]
  refine ((wp_store (E := fun _ _ => False) ht.toValid (by omega)).and
    (keeps_store k value t ht)).mono (fun _ v hv => ⟨hv.2, ?_⟩) fun _ _ he => he.1.elim
  rw [hv.2.size_eq, hv.1.2, List.length_set]
  omega

theorem wp_strip_inStep {elements : Nat} {Q : Buffer T → Prop} (h : b.InStep)
    (hresize : ∀ t : Buffer T, t.InStep → t.size = b.size →
      wp (resize new (b.size - elements)) (fun _ => Q) (fun _ => Q) t) :
    wp (strip new elements) (fun _ => Q) (fun _ => Q) b := by
  simp only [strip, wp_bind, wp_get]
  exact (wp_shift_inStep h elements).mono (fun _ t ht => hresize t ht.1 ht.2) fun _ _ he => he

end Resize

inductive Operation : Type → Type 1
  | alloc {T : Type} (elements : Nat) : Operation T
  | dealloc {T : Type} : Operation T
  | init {T : Type} (elements : Nat) : Operation T
  | initFill {T : Type} (elements : Nat) (value : T) : Operation T
  | initArray {T : Type} (buf : Option (List T)) (elements : Nat) : Operation T
  | initBuffer {T : Type} (other : Buffer T) : Operation T
  | initString {T : Type} (str : List UInt8) : Operation T
  | initVector {T : Type} (vector : List T) : Operation T
  | initPath {T : Type} (w : Filesystem (List UInt8)) (path : Path) : Operation T
  | assign {T : Type} (other : Buffer T) : Operation T
  | resize {T : Type} (elements : Nat) : Operation T
  | resizePad {T : Type} (elements : Nat) (pad : T) : Operation T
  | strip {T : Type} (elements : Nat) : Operation T
  | compress (linked : Linked) (compressor : Compressor) (offset : Nat) : Operation UInt8
  | uncompress (linked : Linked) (compressor : Compressor) (offset : Nat) : Operation UInt8

def Operation.run : {T : Type} → [Layout T] → [Inhabited T] → Operation T → New T →
    EStateM Failure (Buffer T) Unit
  | _, _, _, alloc elements, new => Buffer.alloc new elements
  | _, _, _, dealloc, _ => Buffer.dealloc
  | _, _, _, init elements, new => Buffer.init new elements
  | _, _, _, initFill elements value, new => Buffer.initFill new elements value
  | _, _, _, initArray buf elements, new => Buffer.initArray new buf elements
  | _, _, _, initBuffer other, new => Buffer.initBuffer new other
  | _, _, _, initString str, new => Buffer.initString new str
  | _, _, _, initVector vector, new => Buffer.initVector new vector
  | _, _, _, initPath w path, new => Buffer.initPath new w path
  | _, _, _, assign other, new => Buffer.assign new other
  | _, _, _, resize elements, new => Buffer.resize new elements
  | _, _, _, resizePad elements pad, new => Buffer.resizePad new elements pad
  | _, _, _, strip elements, new => Buffer.strip new elements
  | _, _, _, compress linked compressor offset, new => Buffer.compress linked compressor new offset
  | _, _, _, uncompress linked compressor offset, new =>
    Buffer.uncompress linked compressor new offset

/-- The size that the operation asks of `resize`. -/
def Operation.resizes : Operation T → Buffer T → Option Nat
  | resize elements, _ => some elements
  | resizePad elements _, _ => some elements
  | strip elements, b => some (b.size - elements)
  | _, _ => none

/-- The operation makes `resize` replace the storage. -/
def Operation.Forgets (op : Operation T) (b : Buffer T) : Prop :=
  ∃ n, op.resizes b = some n ∧ n ≠ 0 ∧ n ≠ b.size

structure Call (T : Type) where
  operation : Operation T
  new : New T
  plentiful : new.Plentiful

section Calls

variable [Layout T] [Inhabited T] {b : Buffer T}

/-- The buffer after some operations, also where one of them throws. -/
def after (b : Buffer T) (calls : List (Call T)) : Buffer T :=
  calls.foldl (fun b c => final (c.operation.run c.new b)) b

theorem after_concat (b : Buffer T) (pre : List (Call T)) (c : Call T) :
    b.after (pre ++ [c]) = final (c.operation.run c.new (b.after pre)) := by
  rw [after, List.foldl_append]
  rfl

theorem Operation.inStep (op : Operation T) (new : New T) (h : b.InStep) (hkeeps : ¬op.Forgets b) :
    (final (op.run new b)).InStep := by
  have hresize : ∀ n, op.resizes b = some n → n ≠ 0 → n = b.size := by
    intro n hn hzero
    by_contra hne
    exact hkeeps ⟨n, hn, hzero, hne⟩
  cases op with
  | alloc elements => exact (keeps_alloc new elements).final h
  | dealloc => exact keeps_dealloc.final h
  | init elements => exact (keeps_initFill new elements default).final h
  | initFill elements value => exact (keeps_initFill new elements value).final h
  | initArray buf elements => exact (keeps_initArray new buf elements).final h
  | initBuffer other => exact (keeps_initBuffer new other).final h
  | initString str => exact (keeps_initString new str).final h
  | initVector vector => exact (keeps_initVector new vector).final h
  | initPath w path => exact (keeps_initPath new w path).final h
  | assign other => exact (keeps_initBuffer new other).final h
  | resize elements => exact (wp_resize_inStep h (hresize elements rfl)).final
  | resizePad elements pad => exact (wp_resizePad_inStep h (hresize elements rfl) pad).final
  | strip elements =>
    refine (wp_strip_inStep h fun t ht hsize => wp_resize_inStep ht fun hzero => ?_).final
    rw [hsize]
    exact hresize _ rfl hzero
  | compress linked compressor offset =>
    exact (keeps_compress linked compressor new offset).final h
  | uncompress linked compressor offset =>
    exact (keeps_uncompress linked compressor new offset).final h

theorem Operation.Forgets.lost {op : Operation T} {new : New T} (hforgets : op.Forgets b)
    (hnew : new.Plentiful) (h : b.InStep) : (final (op.run new b)).Lost := by
  obtain ⟨n, hn, hzero, hne⟩ := hforgets
  cases op with
  | resize elements =>
    cases hn
    exact (wp_resize_lost h hnew hzero hne.symm).final
  | resizePad elements pad =>
    cases hn
    exact (wp_resizePad_lost h hnew hzero hne.symm pad).final
  | strip elements =>
    cases hn
    exact (wp_strip_inStep h fun t ht hsize => wp_resize_lost ht hnew hzero (hsize ▸ hne.symm)).final
  | _ => cases hn

theorem inStep_after (h : b.InStep) {calls : List (Call T)}
    (hkeeps : ∀ pre c rest, calls = pre ++ c :: rest → ¬c.operation.Forgets (b.after pre)) :
    (b.after calls).InStep := by
  induction calls using List.reverseRecOn with
  | nil => exact h
  | append_singleton pre c ih =>
    rw [after_concat]
    refine c.operation.inStep c.new (ih fun done d rest heq => ?_) (hkeeps pre c [] rfl)
    apply hkeeps done d (rest ++ [c])
    rw [heq, List.append_assoc]
    rfl

theorem inStep_of_synced (h : b.InStep) {calls : List (Call T)}
    (hsynced : ∀ pre rest, calls = pre ++ rest → (b.after pre).Synced) :
    (b.after calls).InStep := by
  induction calls using List.reverseRecOn with
  | nil => exact h
  | append_singleton pre c ih =>
    have hpre : (b.after pre).InStep := ih fun done rest heq => by
      apply hsynced done (rest ++ [c])
      rw [heq, List.append_assoc]
    have hlast := hsynced (pre ++ [c]) [] (List.append_nil _).symm
    rw [after_concat] at hlast ⊢
    refine c.operation.inStep c.new hpre fun hforgets => ?_
    exact (hforgets.lost c.plentiful hpre).not_synced hlast

/-- From where it is managed on, the buffer keeps the managed pointer up to date. -/
def Tracks (b : Buffer T) (calls : List (Call T)) : Prop :=
  ∀ pre rest, calls = pre ++ rest → (b.manage.after pre).Synced

theorem tracks_iff (h : b.Valid) (calls : List (Call T)) :
    b.Tracks calls ↔
      ∀ pre c rest, calls = pre ++ c :: rest → ¬c.operation.Forgets (b.manage.after pre) := by
  constructor
  · intro hsynced pre c rest hcalls hforgets
    have hpre : (b.manage.after pre).InStep := inStep_of_synced h.manage fun done more heq => by
      apply hsynced done (more ++ c :: rest)
      rw [hcalls, heq, List.append_assoc]
    have hlost := hforgets.lost c.plentiful hpre
    rw [← after_concat] at hlost
    exact hlost.not_synced (hsynced (pre ++ [c]) rest (by rw [hcalls, List.append_cons]))
  · intro hkeeps pre rest hcalls
    refine (inStep_after h.manage fun done c more heq => ?_).synced
    apply hkeeps done c (more ++ rest)
    rw [hcalls, heq, List.append_assoc]
    rfl

theorem tracks_strip_all :
    (holding [1, 2]).Tracks [⟨.strip 3, .zeroed, New.plentiful_zeroed⟩] := by
  refine (tracks_iff (valid_holding [1, 2]) _).2 fun pre c rest hcalls hforgets => ?_
  obtain ⟨rfl, rfl, rfl⟩ : pre = [] ∧ c = ⟨.strip 3, .zeroed, New.plentiful_zeroed⟩ ∧ rest = [] := by
    simpa [List.singleton_eq_append_iff, and_comm] using hcalls
  obtain ⟨n, hn, hzero, -⟩ := hforgets
  cases hn
  exact hzero rfl

theorem not_tracks_resize : ¬∀ (b : Buffer UInt8) (calls : List (Call UInt8)), b.Valid →
    b.Tracks calls := by
  intro hall
  have hsynced := hall (holding []) [⟨.resize 1, .zeroed, New.plentiful_zeroed⟩] (valid_holding [])
    [⟨.resize 1, .zeroed, New.plentiful_zeroed⟩] [] rfl
  exact absurd hsynced.1 nofun

end Calls

end Utlib.Buffer
