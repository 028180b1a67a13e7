import Utlib.Buffer.Codecs
import Utlib.Buffer.Operations
import Utlib.Machine

/-! `utl::Buffer` as a resizable sequence. -/

namespace Utlib.Buffer

open Program Sequence

variable {T : Type}

/-- What new storage holds before anything is stored in it. -/
def New.fresh (new : New T) (n : Nat) : List T :=
  match new.block n with
  | some block => block.cells
  | none => []

theorem New.Plentiful.fresh_eq {new : New T} (h : new.Plentiful) (n : Nat) :
    ∃ block, new.block n = some block ∧ new.fresh n = block.cells ∧ block.cells.length = n := by
  obtain ⟨block, hblock⟩ := Option.isSome_iff_exists.1 (h n)
  refine ⟨block, hblock, ?_, new.length_cells n block hblock⟩
  rw [New.fresh, hblock]

theorem Valid.contents_eq_nil {b : Buffer T} (h : b.Valid) (hptr : ¬b.ptr.isSome) :
    b.size = 0 ∧ b.contents = [] := by
  have hsize := h.null_iff.2 (by simpa using hptr)
  have hlen := h.size_eq
  rw [hsize] at hlen
  exact ⟨hsize, List.length_eq_zero_iff.1 hlen.symm⟩

section Rules

variable {b : Buffer T} {new : New T} {E : Failure → Buffer T → Prop} {n : Nat}

theorem wp_alloc_plentiful (h : b.Valid) (hnew : new.Plentiful) (n : Nat) :
    wp (alloc new n) (fun _ t => t.Valid ∧ t.size = n) E b := by
  refine (wp_alloc h new n).mono (fun _ t ht => ⟨ht.1, ?_⟩) fun _ _ he => he
  rcases ht.2 with hsize | ⟨hnone, -⟩
  · exact hsize
  · obtain ⟨block, hblock, -⟩ := hnew.fresh_eq n
    rw [hnone] at hblock
    cases hblock

theorem wp_storeAll (h : b.Valid) (value : T) {offset len : Nat} (hlen : offset + len ≤ b.size) :
    wp (storeAll value offset len)
      (fun _ t => t.Valid ∧ t.contents =
        b.contents.take offset ++ List.replicate len value ++ b.contents.drop (offset + len))
      E b := by
  have hsize := h.size_eq
  refine (wp_forRange (fun k t => Valid t ∧ t.contents =
    b.contents.take offset ++ List.replicate k value ++ b.contents.drop (offset + k))
    len 0 b ⟨h, ?_⟩ ?_).mono ?_ fun _ _ he => he
  · rw [List.replicate_zero, List.append_nil, Nat.add_zero, List.take_append_drop]
  · intro k t _ hk ht
    obtain ⟨hvalid, hcontents⟩ := ht
    have hstored : (b.contents.take offset ++ List.replicate k value).length = offset + k := by
      rw [List.length_append, List.length_take_of_le (by omega), List.length_replicate]
    refine (wp_store hvalid ?_).mono (fun _ u hu => ⟨hu.1, ?_⟩) fun _ _ he => he
    · rw [hvalid.size_eq, hcontents, List.length_append, hstored, List.length_drop]
      omega
    · rw [hu.2, hcontents, Nat.add_comm k offset, set_append_drop hstored (by omega),
        List.replicate_succ', List.append_assoc (b.contents.take offset), Nat.add_assoc]
  · intro _ t ht
    rwa [Nat.zero_add] at ht

theorem wp_initFill (h : b.Valid) (hnew : new.Plentiful) (n : Nat) (value : T) :
    wp (initFill new n value) (fun _ t => t.Valid ∧ t.contents = List.replicate n value) E b := by
  simp only [initFill, wp_bind, wp_get]
  refine (wp_alloc_plentiful h hnew n).mono (fun _ t ht => ?_) fun _ _ he => he
  obtain ⟨hvalid, hsize⟩ := ht
  rw [wp_ite]
  refine ⟨fun _ => ?_, fun hnull => ⟨hvalid, ?_⟩⟩
  · refine (wp_storeAll hvalid value (by omega)).mono (fun _ u hu => ⟨hu.1, ?_⟩) fun _ _ he => he
    rw [hu.2, List.take_zero, List.nil_append, hsize, Nat.zero_add,
      List.drop_eq_nil_of_le (by rw [← hvalid.size_eq, hsize]), List.append_nil]
  · obtain ⟨hzero, hnil⟩ := hvalid.contents_eq_nil hnull
    rw [hnil, ← hsize, hzero, List.replicate_zero]

theorem wp_initArray (h : b.Valid) (hnew : new.Plentiful) {cells : List T}
    (hn : n ≤ cells.length) :
    wp (initArray new (some cells) n) (fun _ t => t.Valid ∧ t.contents = cells.take n) E b := by
  simp only [initArray, wp_bind, wp_get]
  refine (wp_alloc_plentiful h hnew n).mono (fun _ t ht => ?_) fun _ _ he => he
  obtain ⟨hvalid, hsize⟩ := ht
  rw [wp_ite]
  refine ⟨fun _ => ?_, fun hnull => ⟨hvalid, ?_⟩⟩
  · rw [hsize]
    exact wp_fill hvalid hn hsize
  · obtain ⟨hzero, hnil⟩ := hvalid.contents_eq_nil hnull
    rw [hnil, ← hsize, hzero, List.take_zero]

theorem wp_initVector_plentiful (h : b.Valid) (hnew : new.Plentiful) (vector : List T) :
    wp (initVector new vector) (fun _ t => t.Valid ∧ t.contents = vector) E b := by
  rw [initVector, wp_bind]
  exact (wp_alloc_plentiful h hnew vector.length).mono
    (fun _ t ht => wp_fillFrom ht.1 ht.2) fun _ _ he => he

theorem wp_initBuffer (h : b.Valid) (hnew : new.Plentiful) {other : Buffer T}
    (hother : other.Valid) :
    wp (initBuffer new other) (fun _ t => t.Valid ∧ t.contents = other.contents) E b := by
  have hlen := hother.size_eq
  simp only [initBuffer, wp_bind, wp_get]
  refine (wp_alloc_plentiful h hnew other.size).mono (fun _ t ht => ?_) fun _ _ he => he
  obtain ⟨hvalid, hsize⟩ := ht
  rw [wp_ite]
  refine ⟨fun hne => ?_, fun hzero => ⟨hvalid, ?_⟩⟩
  · cases hptr : t.ptr with
    | none => exact absurd (hvalid.null_iff.2 (by rw [hptr]; rfl)) hne
    | some block =>
      have hcells : block.cells.length = t.size := by rw [hvalid.size_eq, contents, hptr]
      have hcopied : other.contents.take t.size ++ block.cells.drop t.size = other.contents := by
        rw [List.take_of_length_le (by omega), List.drop_eq_nil_of_le (by omega), List.append_nil]
      rw [wp_bind, wp_require, hcopied]
      refine ⟨fun _ => ⟨⟨?_, ?_⟩, rfl⟩, fun hassert => absurd ⟨by omega, by omega⟩ hassert⟩
      · exact hsize.trans hlen
      · simpa using hne
  · have hnil : t.contents = [] := List.length_eq_zero_iff.1 (by rw [← hvalid.size_eq]; omega)
    have hnil' : other.contents = [] := List.length_eq_zero_iff.1 (by omega)
    rw [hnil, hnil']

theorem wp_clear (h : b.Valid) (value : T) {offset len : Nat} (hlen : offset + len ≤ b.size) :
    wp (clear value offset len)
      (fun _ t => t.Valid ∧ t.contents =
        b.contents.take offset ++ List.replicate len value ++ b.contents.drop (offset + len))
      E b := by
  simp only [clear, wp_bind, wp_get, wp_require, wp_ite]
  refine ⟨fun _ => ⟨fun _ => ⟨fun _ => wp_storeAll h value hlen, fun hnull => ⟨h, ?_⟩⟩,
    fun hassert => absurd hlen hassert⟩, fun hassert => absurd h.null_iff hassert⟩
  obtain ⟨hzero, hnil⟩ := h.contents_eq_nil hnull
  have hnothing : len = 0 := by omega
  rw [hnil, hnothing, List.take_nil, List.drop_nil]
  rfl

/-- The loop runs over the indices from `k` on. -/
theorem copyLoop_eq {cells buf : List T} {offset k n : Nat} (hcells : k + n + offset ≤ cells.length)
    (hbuf : k + n ≤ buf.length) :
    copyLoop cells offset (List.range' k n) buf =
      .ok (buf.take k ++ slice cells (k + offset) n ++ buf.drop (k + n)) := by
  induction n generalizing k buf with
  | zero => simp [copyLoop, slice]
  | succ n ih =>
    have hstep : (buf.set k cells[k + offset]).take (k + 1) = buf.take k ++ [cells[k + offset]] := by
      rw [List.take_succ_eq_append_getElem (by rw [List.length_set]; omega), List.take_set_of_le le_rfl,
        List.getElem_set_self]
    have hrest : (buf.set k cells[k + offset]).drop (k + 1 + n) = buf.drop (k + (n + 1)) := by
      rw [List.drop_set_of_lt (by omega)]
      congr 1
      omega
    have hslice : slice cells (k + offset) (n + 1) =
        cells[k + offset] :: slice cells (k + 1 + offset) n := by
      rw [slice, List.drop_eq_getElem_cons (by omega), List.take_succ_cons, slice]
      congr 3
      omega
    rw [List.range'_succ, copyLoop, List.getElem?_eq_getElem (by omega)]
    simp only [if_pos (show k < buf.length by omega)]
    rw [ih (by omega) (by rw [List.length_set]; omega), hstep, hrest, hslice]
    simp only [List.append_assoc, List.cons_append, List.nil_append]

theorem copy_eq (h : b.Valid) {buf : List T} {offset len : Nat} (hlen : offset + len ≤ b.size)
    (hbuf : len ≤ buf.length) :
    copy buf offset len b = .ok (slice b.contents offset len ++ buf.drop len) := by
  rw [copy, if_pos ⟨h.null_iff, hlen⟩]
  cases hptr : b.ptr with
  | none =>
    obtain ⟨hzero, hnil⟩ := h.contents_eq_nil (by rw [hptr]; simp)
    have hnothing : len = 0 := by omega
    rw [hnil, hnothing]
    rfl
  | some block =>
    have hcells : b.contents = block.cells := by rw [contents, hptr]
    have hsize := h.size_eq
    rw [hcells] at hsize ⊢
    simp only [List.range_eq_range']
    rw [copyLoop_eq (by omega) (by omega), List.take_zero, Nat.zero_add, Nat.zero_add,
      List.nil_append]

theorem wp_resize (h : b.Valid) (hnew : new.Plentiful) (n : Nat) :
    wp (resize new n)
      (fun _ t => t.Valid ∧ t.contents = b.contents.take n ++ (new.fresh n).drop b.contents.length)
      E b := by
  obtain ⟨block, hblock, hfresh, hcells⟩ := hnew.fresh_eq n
  have hsize := h.size_eq
  simp only [resize, wp_bind, wp_get, wp_require, wp_ite, hblock, wp_look, wp_modify, hfresh]
  refine ⟨fun _ => ⟨fun hne => ⟨fun hzero => ?_, fun hpos => ?_⟩, fun hsame => ⟨h, ?_⟩⟩,
    fun hassert => absurd h.null_iff hassert⟩
  · have hnil : block.cells = [] := List.length_eq_zero_iff.1 (hcells.trans hzero)
    refine (wp_dealloc h).mono (fun _ t ht => ⟨ht.1, ?_⟩) fun _ _ he => he
    rw [contents, ht.2, hnil, hzero, List.take_zero, List.drop_nil]
    rfl
  · have hcopied : slice b.contents 0 (min b.size n) ++ block.cells.drop (min b.size n) =
        b.contents.take n ++ block.cells.drop b.contents.length := by
      rcases Nat.le_total b.size n with hle | hge
      · rw [min_eq_left hle, slice, List.drop_zero, hsize, List.take_length,
          List.take_of_length_le (by omega)]
      · rw [min_eq_right hge, slice, List.drop_zero, List.drop_eq_nil_of_le (by omega),
          List.drop_eq_nil_of_le (by omega)]
    have hlen : (b.contents.take n ++ block.cells.drop b.contents.length).length = n := by
      rw [List.length_append, List.length_take, List.length_drop]
      omega
    rw [copy_eq h (by omega) (by omega), hcopied]
    refine ⟨fun cells hok => ?_, fun e he => by cases he⟩
    cases hok
    exact (wp_dealloc h).mono (fun _ t _ => ⟨⟨hlen.symm, by simpa using hpos⟩, rfl⟩)
      fun _ _ he => he
  · have hn := not_not.1 hsame
    rw [List.take_of_length_le (by omega), List.drop_eq_nil_of_le (by omega), List.append_nil]

theorem wp_resizePad (h : b.Valid) (hnew : new.Plentiful) (n : Nat) (pad : T) :
    wp (resizePad new n pad)
      (fun _ t => t.Valid ∧
        t.contents = b.contents.take n ++ List.replicate (n - b.contents.length) pad) E b := by
  have hsize := h.size_eq
  obtain ⟨block, hblock, hfresh, hcells⟩ := hnew.fresh_eq n
  simp only [resizePad, wp_bind, wp_get]
  refine (wp_resize h hnew n).mono (fun _ t ht => ?_) fun _ _ he => he
  obtain ⟨hvalid, hcontents⟩ := ht
  have hlen : t.size = n := by
    rw [hvalid.size_eq, hcontents, List.length_append, List.length_take, List.length_drop, hfresh]
    omega
  refine (wp_clear hvalid pad (by omega)).mono (fun _ u hu => ⟨hu.1, ?_⟩) fun _ _ he => he
  have hkept : t.contents.take (n - (n - b.size)) = b.contents.take n := by
    rw [hcontents, List.take_append_of_le_length (by rw [List.length_take]; omega), List.take_take]
    rcases Nat.le_total b.size n with hle | hge
    · rw [List.take_of_length_le (by omega), List.take_of_length_le (by omega)]
    · rw [min_eq_left (by omega), show n - (n - b.size) = n by omega]
  rw [hu.2, hkept, List.drop_eq_nil_of_le (by rw [← hvalid.size_eq]; omega), List.append_nil, hsize]

theorem wp_load {i : Nat} (hi : i < b.contents.length) :
    wp (load i) (fun value t => t = b ∧ b.contents[i]? = some value) E b := by
  simp only [load, wp_bind, wp_get]
  rw [List.getElem?_eq_getElem hi]
  exact ⟨rfl, rfl⟩

/-- The elements move down one by one; those that have not been moved yet are still in place. -/
theorem wp_shift (h : b.Valid) (elements : Nat) :
    wp (forRange (fun i => do store i (← load (i + elements))) (b.size - elements) 0)
      (fun _ t => t.Valid ∧ t.contents =
        b.contents.drop elements ++ b.contents.drop (b.size - elements)) E b := by
  have hsize := h.size_eq
  refine (wp_forRange (fun k t => Valid t ∧ t.contents =
    (b.contents.drop elements).take k ++ b.contents.drop k) (b.size - elements) 0 b
    ⟨h, rfl⟩ ?_).mono ?_ fun _ _ he => he
  · intro k t _ hk ht
    obtain ⟨hvalid, hcontents⟩ := ht
    have hmoved : ((b.contents.drop elements).take k).length = k := by
      rw [List.length_take, List.length_drop]
      omega
    have hlen : t.contents.length = b.size := by
      rw [hcontents, List.length_append, hmoved, List.length_drop]
      omega
    rw [wp_bind]
    refine (wp_load (by omega)).mono (fun value u hu => ?_) fun _ _ he => he
    obtain ⟨rfl, hvalue⟩ := hu
    have hget : (b.contents.drop elements)[k]? = some value := by
      rw [hcontents, List.getElem?_append_right (by omega), hmoved, List.getElem?_drop] at hvalue
      rw [List.getElem?_drop, ← hvalue]
      congr 1
      omega
    refine (wp_store hvalid (by rw [hvalid.size_eq]; omega)).mono (fun _ v hv => ⟨hv.1, ?_⟩)
      fun _ _ he => he
    rw [hv.2, hcontents]
    exact set_take_append_drop hget (by omega)
  · intro _ t ht
    rw [Nat.zero_add] at ht
    refine ⟨ht.1, ?_⟩
    rw [ht.2, List.take_of_length_le (by rw [List.length_drop]; omega)]

theorem wp_strip (h : b.Valid) (hnew : new.Plentiful) (elements : Nat) :
    wp (strip new elements)
      (fun _ t => t.Valid ∧ t.contents = b.contents.drop (min elements b.contents.length)) E b := by
  have hsize := h.size_eq
  simp only [strip, wp_bind, wp_get]
  refine (wp_shift h elements).mono (fun _ t ht => ?_) fun _ _ he => he
  obtain ⟨hvalid, hcontents⟩ := ht
  obtain ⟨block, hblock, hfresh, hcells⟩ := hnew.fresh_eq (b.size - elements)
  have hmoved : (b.contents.drop elements).length = b.size - elements := by
    rw [List.length_drop, hsize]
  refine (wp_resize hvalid hnew _).mono (fun _ u hu => ⟨hu.1, ?_⟩) fun _ _ he => he
  have htail : block.cells.drop t.contents.length = [] := by
    apply List.drop_eq_nil_of_le
    rw [hcontents, List.length_append]
    omega
  rw [hu.2, hfresh, htail, hcontents, List.take_append_of_le_length hmoved.ge,
    List.take_of_length_le hmoved.le, List.append_nil]
  rcases Nat.le_total elements b.contents.length with hle | hge
  · rw [min_eq_left hle]
  · rw [min_eq_right hge, List.drop_length, List.drop_eq_nil_of_le hge]

end Rules

inductive Edit (T : Type)
  | initFill (elements : Nat) (value : T)
  | initArray (buf : List T) (elements : Nat)
  | initVector (vector : List T)
  | initBuffer (other : Buffer T)
  | resize (elements : Nat)
  | resizePad (elements : Nat) (pad : T)
  | strip (elements : Nat)
  | clear (value : T) (offset len : Nat)
  | copy (buf : List T) (offset len : Nat)

/-- The result is the array that `copy` has written to. -/
def Edit.run (new : New T) : Edit T → EStateM Failure (Buffer T) (List T)
  | initFill elements value => do
    Buffer.initFill new elements value
    return []
  | initArray buf elements => do
    Buffer.initArray new (some buf) elements
    return []
  | initVector vector => do
    Buffer.initVector new vector
    return []
  | initBuffer other => do
    Buffer.initBuffer new other
    return []
  | resize elements => do
    Buffer.resize new elements
    return []
  | resizePad elements pad => do
    Buffer.resizePad new elements pad
    return []
  | strip elements => do
    Buffer.strip new elements
    return []
  | clear value offset len => do
    Buffer.clear value offset len
    return []
  | copy buf offset len => look (Buffer.copy buf offset len)

/-- The arguments describe existing elements. -/
def Edit.Allowed : Edit T → Buffer T → Prop
  | initArray buf elements, _ => elements ≤ buf.length
  | initBuffer other, _ => other.Valid
  | clear _ offset len, b => offset + len ≤ b.size
  | copy buf offset len, b => offset + len ≤ b.size ∧ len ≤ buf.length
  | _, _ => True

/-- An operation with the storage that its allocation finds. -/
structure Request (T : Type) where
  edit : Edit T
  new : New T
  plentiful : new.Plentiful

def Request.onList (r : Request T) (xs : List T) : List T × List T :=
  match r.edit with
  | .initFill elements value => ([], List.replicate elements value)
  | .initArray buf elements => ([], buf.take elements)
  | .initVector vector => ([], vector)
  | .initBuffer other => ([], other.contents)
  | .resize elements => ([], xs.take elements ++ (r.new.fresh elements).drop xs.length)
  | .resizePad elements pad =>
    ([], xs.take elements ++ List.replicate (elements - xs.length) pad)
  | .strip elements => ([], xs.drop (min elements xs.length))
  | .clear value offset len =>
    ([], xs.take offset ++ List.replicate len value ++ xs.drop (offset + len))
  | .copy buf offset len => ((xs.drop offset).take len ++ buf.drop len, xs)

def editor : Machine (Request T) (List T) (Buffer T) where
  pre r b := r.edit.Allowed b
  step r b :=
    match r.edit.run r.new b with
    | .ok out t => some (out, t)
    | .error _ _ => none

theorem editor_step_of_wp {r : Request T} {b : Buffer T} {out ys : List T}
    (h : wp (r.edit.run r.new) (fun o t => o = out ∧ t.Valid ∧ t.contents = ys)
      (fun _ _ => False) b) :
    ∃ t, editor.step r b = some (out, t) ∧ t.Valid ∧ t.contents = ys := by
  obtain ⟨_, t, hok, rfl, hvalid, hcontents⟩ := h.exists_ok fun _ _ => id
  refine ⟨t, ?_, hvalid, hcontents⟩
  simp only [editor, hok]

/-- An operation that returns nothing but what it leaves in the buffer. -/
theorem wp_silent {x : EStateM Failure (Buffer T) Unit} {b : Buffer T} {ys : List T}
    (h : wp x (fun _ t => t.Valid ∧ t.contents = ys) (fun _ _ => False) b) :
    wp (do x; return [] : EStateM Failure (Buffer T) (List T))
      (fun o t => o = [] ∧ t.Valid ∧ t.contents = ys) (fun _ _ => False) b := by
  rw [wp_bind]
  exact h.mono (fun _ _ ht => ⟨rfl, ht⟩) fun _ _ he => he

theorem editor_simulates :
    editor.Simulates Request.onList (fun (b : Buffer T) xs => b.Valid ∧ b.contents = xs) := by
  rintro ⟨edit, new, hnew⟩ b _ ⟨h, rfl⟩ hallowed
  apply editor_step_of_wp
  cases edit with
  | initFill elements value => exact wp_silent (wp_initFill h hnew elements value)
  | initArray buf elements => exact wp_silent (wp_initArray h hnew hallowed)
  | initVector vector => exact wp_silent (wp_initVector_plentiful h hnew vector)
  | initBuffer other => exact wp_silent (wp_initBuffer h hnew hallowed)
  | resize elements => exact wp_silent (wp_resize h hnew elements)
  | resizePad elements pad => exact wp_silent (wp_resizePad h hnew elements pad)
  | strip elements => exact wp_silent (wp_strip h hnew elements)
  | clear value offset len => exact wp_silent (wp_clear h value hallowed)
  | copy buf offset len =>
    rw [Edit.run, wp_look]
    rw [copy_eq h hallowed.1 hallowed.2]
    refine ⟨fun out hout => ?_, fun e he => by cases he⟩
    cases hout
    exact ⟨rfl, h, rfl⟩

/-- A run of operations leaves what the same operations leave of a list, and no access fails. -/
theorem run_is_sequence {b : Buffer T} {rs : List (Request T)} (h : b.Valid)
    (hallowed : editor.Admits rs b) :
    ∃ c, editor.run rs b = some ((Machine.follow Request.onList rs b.contents).1, c) ∧
      c.Valid ∧ c.contents = (Machine.follow Request.onList rs b.contents).2 :=
  editor_simulates.run ⟨h, rfl⟩ hallowed

def zeroed (edit : Edit UInt8) : Request UInt8 := ⟨edit, .zeroed, New.plentiful_zeroed⟩

theorem run_is_sequence_padded :
    let rs := [zeroed (.resizePad 5 9), zeroed (.strip 2), zeroed (.copy [0, 0] 1 2)]
    ∃ c, editor.run rs (holding [1, 2, 3]) =
        some ((Machine.follow Request.onList rs (holding [1, 2, 3]).contents).1, c) ∧
      c.Valid ∧
      c.contents = (Machine.follow Request.onList rs (holding [1, 2, 3]).contents).2 :=
  run_is_sequence (valid_holding [1, 2, 3])
    (.cons trivial rfl (.cons trivial rfl (.cons ⟨by decide, by decide⟩ rfl trivial)))

end Utlib.Buffer
