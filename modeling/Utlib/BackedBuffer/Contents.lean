import Utlib.BackedBuffer.Loading

namespace Utlib.BackedBuffer

open Program Sequence

variable {Path : Type} {f : Faults} {w w' w'' : World Path}

/-- Byte `i` of the buffer, whether it has been loaded or not. -/
def World.byteAt (w : World Path) (i : Nat) : UInt8 :=
  if w.page (i / pageSize) = .absent then w.fileByte i else w.memByte i

def World.contents (w : World Path) : List UInt8 := (List.range w.buf.bytes).map w.byteAt

@[simp] theorem length_contents (w : World Path) : w.contents.length = w.buf.bytes := by
  simp [World.contents]

theorem getD_contents (w : World Path) (i : Nat) :
    w.contents.getD i 0 = if i < w.buf.bytes then w.byteAt i else 0 :=
  getD_map_range w.byteAt w.buf.bytes i

theorem contents_eq (hbytes : w'.buf.bytes = w.buf.bytes)
    (h : ∀ i, i < w.buf.bytes → w'.byteAt i = w.byteAt i) : w'.contents = w.contents := by
  unfold World.contents
  rw [hbytes]
  apply List.map_congr_left
  intro i hi
  exact h i (List.mem_range.1 hi)

/-- Everything that connects the buffer to its file is as before. -/
structure SameFile (w w' : World Path) : Prop where
  disk : w'.disk = w.disk
  log : w'.log = w.log
  file : w'.buf.file = w.buf.file
  inStream : w'.buf.inStream = w.buf.inStream
  out : w'.buf.out = w.buf.out
  fileBytes : w'.buf.fileBytes = w.buf.fileBytes
  readOnly : w'.buf.readOnly = w.buf.readOnly

theorem SameFile.fileByte (h : SameFile w w') (i : Nat) : w'.fileByte i = w.fileByte i := by
  simp only [World.fileByte, World.inContent, h.fileBytes, h.inStream, h.disk]

theorem SameFile.trans (h : SameFile w w') (h' : SameFile w' w'') : SameFile w w'' where
  disk := h'.disk.trans h.disk
  log := h'.log.trans h.log
  file := h'.file.trans h.file
  inStream := h'.inStream.trans h.inStream
  out := h'.out.trans h.out
  fileBytes := h'.fileBytes.trans h.fileBytes
  readOnly := h'.readOnly.trans h.readOnly

/-- What the file holds; nothing if there is no file. -/
def World.content (w : World Path) : List UInt8 := (w.buf.file.bind w.disk).getD []

/-- The input stream reads the file, and the buffer knows how long it is. -/
structure Attached (w : World Path) : Prop where
  inStream : w.buf.inStream = w.buf.file
  known : w.content.length = w.buf.fileBytes

theorem Attached.inContent (h : Attached w) : w.inContent = w.content := by
  rw [World.inContent, h.inStream, World.content]

theorem Attached.fileByte (h : Attached w) (i : Nat) : w.fileByte i = w.content.getD i 0 := by
  rw [World.fileByte, h.inContent]
  split
  · rfl
  · rename_i hge
    exact (List.getD_eq_default _ _ (by rw [h.known]; omega)).symm

theorem SameFile.attached (h : SameFile w w') (hw : Attached w) : Attached w' where
  inStream := by rw [h.inStream, h.file, hw.inStream]
  known := by
    rw [h.fileBytes, ← hw.known, World.content, World.content, h.file, h.disk]

theorem Loaded.sameFile (h : Loaded w w') : SameFile w w' := by
  rw [h.same]
  exact ⟨rfl, rfl, rfl, rfl, rfl, rfl, rfl⟩

theorem Loaded.byteAt (h : Loaded w w') {i : Nat} (hi : i < w.buf.bytes) :
    w'.byteAt i = w.byteAt i := by
  unfold World.byteAt
  rcases h.page (i / pageSize) with hp | ⟨hp, hp'⟩
  · rw [hp, h.fileByte]
    split
    · rfl
    · rename_i hne
      exact h.kept i hne
  · rw [hp, hp', if_neg (by decide), if_pos rfl, h.filled i hi hp hp']

theorem Loaded.contents (h : Loaded w w') : w'.contents = w.contents :=
  contents_eq h.bytes fun _ hi => h.byteAt hi

theorem byteAt_of_present {i : Nat} (h : w.page (i / pageSize) ≠ .absent) :
    w.byteAt i = w.memByte i := if_neg h

theorem wp_byteView {offset len : Nat} (hw : Counted w.buf) (h : offset + len ≤ w.buf.bytes) :
    wp (byteView f offset len)
      (fun view w' => Loaded w w' ∧ view = slice w.contents offset len)
      (fun e w' => Loaded w w' ∧ LoadFailure f w e) w := by
  simp only [byteView, wp_bind, wp_buffer, wp_require]
  refine ⟨fun _ => ?_, fun hn => absurd h hn⟩
  apply (wp_load hw h).mono (fun _ t ht => ?_) (fun _ _ h => h)
  obtain ⟨hload, hpresent⟩ := ht
  rw [wp_pure]
  refine ⟨hload, ext_getD (z := 0) ?_ fun i hi => ?_⟩
  · simp only [length_slice, hload.memLen, hw.memLen, length_contents]
  · simp only [length_slice, hload.memLen, hw.memLen] at hi
    rw [getD_slice, getD_slice, if_pos (by omega), if_pos (by omega), getD_contents,
      if_pos (by omega), ← hload.byteAt (by omega),
      byteAt_of_present (hpresent _ (by omega) (by omega))]
    rfl

/-- The pages of `[first, stop)` have become dirty, and the count has followed. -/
structure Marked (first stop : Nat) (w w' : World Path) : Prop where
  same : w' = { w with buf := { w.buf with
    pages := w'.buf.pages, dirtyPages := w'.buf.dirtyPages } }
  pagesLen : w'.buf.pages.length = w.buf.pages.length
  page : ∀ q, w'.page q = if first ≤ q ∧ q < stop then .dirty else w.page q
  count : w'.buf.dirtyPages = w'.buf.pages.count .dirty

theorem Marked.step {first k : Nat} (h : Marked first k w w') (hk : first ≤ k)
    (hlt : k < w.buf.pages.length) {E : Failure Path → World Path → Prop} :
    wp (markDirty k) (fun _ => Marked first (k + 1) w) E w' := by
  have hext : ∀ {t : World Path}, t.page k = .dirty → (∀ q, q ≠ k → t.page q = w'.page q) →
      ∀ q, t.page q = if first ≤ q ∧ q < k + 1 then .dirty else w.page q := by
    intro t hdirty hother q
    by_cases hq : q = k
    · rw [hq, hdirty, if_pos (by omega)]
    · rw [hother q hq, h.page]
      simp only [show (q < k + 1) = (q < k) by apply propext; omega]
  rw [markDirty, wp_bind, wp_look]
  refine ⟨fun b hb => ?_, fun e he => ?_⟩
  · rw [isPage_eq_ok] at hb
    obtain ⟨hlt', rfl⟩ := hb
    by_cases hd : w'.page k = .dirty
    · simp only [hd, decide_true, Bool.not_true, Bool.false_eq_true, if_false, wp_pure]
      exact ⟨h.same, h.pagesLen, hext hd fun _ _ => rfl, h.count⟩
    · simp only [hd, decide_false, Bool.not_false, if_true, setPage, wp_bind, wp_buffer,
        wp_require, wp_edit]
      refine ⟨fun _ => ⟨?_, ?_, ?_, ?_⟩, fun hn => absurd hlt' hn⟩
      · rw [h.same]
      · simpa using h.pagesLen
      · apply hext
        · simp [World.page, hlt']
        · intro q hq
          simp only [World.page, List.getD_eq_getElem?_getD, List.getElem?_set_ne (Ne.symm hq)]
      · have hget : ¬w'.buf.pages[k] = .dirty := by
          rwa [World.page, List.getD_eq_getElem _ _ hlt'] at hd
        have hcount := h.count
        simp only [List.count_set hlt', beq_iff_eq, hget, if_false, if_true]
        omega
  · rw [isPage_eq_error, h.pagesLen] at he
    omega

theorem wp_markDirty {first n : Nat} {E : Failure Path → World Path → Prop}
    (hcount : w.buf.dirtyPages = w.buf.pages.count .dirty)
    (h : first + n ≤ w.buf.pages.length) :
    wp (forRange markDirty n first) (fun _ => Marked first (first + n) w) E w := by
  apply wp_forRange (Marked first · w)
  · refine ⟨rfl, rfl, fun q => ?_, hcount⟩
    rw [if_neg (by omega)]
  · intro k t hk hk' ht
    exact ht.step hk (by omega)

/-- Clean pages of a backed buffer hold what the file holds. -/
def World.Coherent (w : World Path) : Prop :=
  w.buf.file.isSome → ∀ i, i < w.buf.bytes → w.page (i / pageSize) = .clean → w.memByte i = w.fileByte i

theorem World.Coherent.byteAt (h : w.Coherent) (hfile : w.buf.file.isSome) {i : Nat}
    (hi : i < w.buf.bytes) (hd : w.page (i / pageSize) ≠ .dirty) : w.byteAt i = w.fileByte i := by
  unfold World.byteAt
  cases hp : w.page (i / pageSize) with
  | absent => exact if_pos rfl
  | clean => exact h hfile i hi hp
  | dirty => exact absurd hp hd

theorem Loaded.coherent (h : Loaded w w') (hw : w.Coherent) : w'.Coherent := by
  intro hfile i hi hclean
  rw [h.file] at hfile
  rw [h.bytes] at hi
  rw [h.fileByte]
  rcases h.page (i / pageSize) with hp | ⟨hp, _⟩
  · rw [h.kept i (by rw [← hp, hclean]; decide)]
    exact hw hfile i hi (hp ▸ hclean)
  · exact h.filled i hi hp hclean

/-- `data` has been written at `offset`; nothing else shows a different byte. -/
structure Written (offset : Nat) (data : List UInt8) (w w' : World Path) : Prop where
  sameFile : SameFile w w'
  bytes : w'.buf.bytes = w.buf.bytes
  pagesLen : w'.buf.pages.length = w.buf.pages.length
  counted : Counted w'.buf
  contents : w'.contents = overwrite 0 w.contents offset data
  coherent : w.Coherent → w'.Coherent

section Write

variable {offset : Nat} {data : List UInt8}

theorem present_of_touched {len p : Nat} (hlen : len ≠ 0)
    (h : ∀ i, offset ≤ i → i < offset + len → w.page (i / pageSize) ≠ .absent)
    (hp : offset / pageSize ≤ p) (hp' : p ≤ (offset + len - 1) / pageSize) :
    w.page p ≠ .absent := by
  have hpage := h (max offset (p * pageSize)) (by omega) (by simp only [pageSize] at *; omega)
  rwa [show max offset (p * pageSize) / pageSize = p by simp only [pageSize] at *; omega] at hpage

section Marking

variable {first stop : Nat}

theorem Marked.sameFile (h : Marked first stop w w') : SameFile w w' := by
  rw [h.same]
  exact ⟨rfl, rfl, rfl, rfl, rfl, rfl, rfl⟩

theorem Marked.bytes (h : Marked first stop w w') : w'.buf.bytes = w.buf.bytes := by
  rw [h.same]

theorem Marked.mem (h : Marked first stop w w') : w'.buf.mem = w.buf.mem := by
  rw [h.same]

theorem Marked.memByte (h : Marked first stop w w') (i : Nat) : w'.memByte i = w.memByte i := by
  rw [World.memByte, World.memByte, h.mem]

theorem Marked.counted (h : Marked first stop w w') (hw : Counted w.buf) : Counted w'.buf where
  count := h.count
  table := by
    rw [h.pagesLen, h.bytes]
    exact hw.table
  memLen := by
    rw [h.mem, h.bytes]
    exact hw.memLen
  memNull := by
    rw [h.mem, h.bytes]
    exact hw.memNull

theorem Marked.byteAt (h : Marked first stop w w')
    (hpresent : ∀ p, first ≤ p → p < stop → w.page p ≠ .absent) (i : Nat) :
    w'.byteAt i = w.byteAt i := by
  rw [World.byteAt, World.byteAt, h.page, h.memByte, h.sameFile.fileByte]
  split
  · rename_i hmark
    rw [if_neg (by decide), if_neg (hpresent _ hmark.1 hmark.2)]
  · rfl

theorem Marked.contents (h : Marked first stop w w')
    (hpresent : ∀ p, first ≤ p → p < stop → w.page p ≠ .absent) : w'.contents = w.contents :=
  contents_eq h.bytes fun i _ => h.byteAt hpresent i

theorem Marked.coherent (h : Marked first stop w w') (hw : w.Coherent) : w'.Coherent := by
  intro hfile i hi hclean
  rw [h.sameFile.file] at hfile
  rw [h.bytes] at hi
  rw [h.page] at hclean
  rw [h.memByte, h.sameFile.fileByte]
  split at hclean
  · cases hclean
  · exact hw hfile i hi hclean

end Marking

section Storing

variable {offset : Nat} {data : List UInt8}

def World.stored (w : World Path) (offset : Nat) (data : List UInt8) : World Path :=
  w.setMem (w.buf.mem.map fun m => overwrite 0 m offset data)

theorem sameFile_stored (w : World Path) (offset : Nat) (data : List UInt8) :
    SameFile w (w.stored offset data) := ⟨rfl, rfl, rfl, rfl, rfl, rfl, rfl⟩

theorem memOnly_stored (hw : Counted w.buf) (h : offset + data.length ≤ w.buf.bytes) :
    MemOnly offset (offset + data.length) w (w.stored offset data) :=
  memOnly_store offset data (by rwa [hw.memLen]) (Nat.le_refl _)

theorem counted_stored (hw : Counted w.buf) (h : offset + data.length ≤ w.buf.bytes) :
    Counted (w.stored offset data).buf where
  count := hw.count
  table := hw.table
  memLen := (memOnly_stored hw h).memLen.trans hw.memLen
  memNull := (memOnly_stored hw h).null.trans hw.memNull

variable (hw : Counted w.buf) (h : offset + data.length ≤ w.buf.bytes)
  (hcover : ∀ i, offset ≤ i → i < offset + data.length → w.page (i / pageSize) = .dirty)

include hw h hcover

theorem byteAt_stored (i : Nat) :
    (w.stored offset data).byteAt i =
      if offset ≤ i ∧ i < offset + data.length then data.getD (i - offset) 0 else w.byteAt i := by
  have hstore := memOnly_stored hw h
  rw [World.byteAt, hstore.page]
  split
  · rename_i habs
    rw [if_neg, World.byteAt, if_pos habs, hstore.fileByte]
    intro hin
    rw [hcover i hin.1 hin.2] at habs
    cases habs
  · rename_i hpres
    split
    · rename_i hin
      exact memByte_store (by rwa [hw.memLen]) hin.1 hin.2
    · rename_i hout
      rw [World.byteAt, if_neg hpres, hstore.frame i (by omega)]

theorem contents_stored :
    (w.stored offset data).contents = overwrite 0 w.contents offset data := by
  apply ext_getD (z := 0)
  · simp only [length_contents, length_overwrite]
    exact (Nat.max_eq_left h).symm
  · intro i hi
    rw [length_contents] at hi
    have hi' : i < w.buf.bytes := hi
    rw [getD_contents, if_pos hi, byteAt_stored hw h hcover, getD_overwrite, getD_contents,
      if_pos hi']

theorem coherent_stored (hco : w.Coherent) : (w.stored offset data).Coherent := by
  have hstore := memOnly_stored hw h
  intro hfile i hi hclean
  rw [hstore.page] at hclean
  have hout : i < offset ∨ offset + data.length ≤ i := by
    by_contra hin
    rw [hcover i (by omega) (by omega)] at hclean
    cases hclean
  rw [hstore.frame i hout, hstore.fileByte]
  exact hco hfile i hi hclean

end Storing

theorem Marked.written {t u : World Path} {first stop : Nat} (hw : Counted w.buf)
    (h : offset + data.length ≤ w.buf.bytes) (ht : Loaded w t) (hu : Marked first stop t u)
    (hpresent : ∀ p, first ≤ p → p < stop → t.page p ≠ .absent)
    (hcover : ∀ i, offset ≤ i → i < offset + data.length → u.page (i / pageSize) = .dirty) :
    Written offset data w (u.stored offset data) := by
  have hbytes : u.buf.bytes = w.buf.bytes := hu.bytes.trans ht.bytes
  have hcounted : Counted u.buf := hu.counted (ht.counted hw)
  rw [← hbytes] at h
  constructor
  · exact (ht.sameFile.trans hu.sameFile).trans (sameFile_stored u offset data)
  · exact hbytes
  · exact hu.pagesLen.trans ht.pagesLen
  · exact counted_stored hcounted h
  · rw [contents_stored hcounted h hcover, hu.contents hpresent, ht.contents]
  · intro hco
    exact coherent_stored hcounted h hcover (hu.coherent (ht.coherent hco))

theorem wp_write (hw : Counted w.buf) (h : offset + data.length ≤ w.buf.bytes) :
    wp (write f offset data) (fun _ w' => Written offset data w w')
      (fun e w' => Loaded w w' ∧ LoadFailure f w e) w := by
  simp only [write, mutableByteView, wp_bind, wp_buffer, wp_require]
  refine ⟨fun _ => ?_, fun hn => absurd h hn⟩
  apply (wp_load hw h).mono (fun _ t ht => ?_) (fun _ _ h => h)
  obtain ⟨hload, hpresent⟩ := ht
  rw [wp_ite]
  constructor
  · intro hlen
    have hle : offset / pageSize ≤ (offset + data.length - 1) / pageSize :=
      Nat.div_le_div_right (by omega)
    have hpages : ∀ p, offset / pageSize ≤ p →
        p < offset / pageSize + ((offset + data.length - 1) / pageSize + 1 - offset / pageSize) →
        t.page p ≠ .absent :=
      fun p hp hp' => present_of_touched hlen hpresent hp (by omega)
    have hlast := World.page_lt (hpages ((offset + data.length - 1) / pageSize) hle (by omega))
    apply (wp_markDirty (hload.counted hw).count (by omega)).mono (fun _ u hu => ?_)
      (fun _ _ h => h)
    rw [wp_store_mem]
    refine hu.written hw h hload hpages fun i hi hi' => ?_
    rw [hu.page, if_pos]
    have hlo : offset / pageSize ≤ i / pageSize := Nat.div_le_div_right hi
    have hhi : i / pageSize ≤ (offset + data.length - 1) / pageSize :=
      Nat.div_le_div_right (by omega)
    omega
  · intro hlen
    rw [wp_pure, wp_store_mem]
    have hu : Marked 0 0 t t := ⟨rfl, rfl, fun q => by rw [if_neg (by omega)],
      (hload.counted hw).count⟩
    exact hu.written hw h hload (fun p _ hp => by omega) fun i hi hi' => by omega

end Write

end Utlib.BackedBuffer
