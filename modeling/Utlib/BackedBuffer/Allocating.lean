import Utlib.BackedBuffer.Persist

namespace Utlib.BackedBuffer

open Program Sequence

variable {Path : Type}

section Footprint

variable {file : Option Path} {disk disk' : Disk Path}

/-- Files stay where they are, and only `file` can change. -/
structure Footprint (file : Option Path) (disk disk' : Disk Path) : Prop where
  present : ∀ path, (disk' path).isSome = (disk path).isSome
  elsewhere : ∀ path, file ≠ some path → disk' path = disk path

theorem Footprint.of_eq (h : disk' = disk) : Footprint file disk disk' := by
  constructor
  · intro path
    rw [h]
  · intro path _
    rw [h]

theorem Footprint.of_modifyFile [DecidableEq Path] {g : List UInt8 → List UInt8}
    (h : disk' = modifyFile file g disk) : Footprint file disk disk' := by
  constructor
  · intro path
    rw [h, isSome_modifyFile]
  · intro path hne
    rw [h, modifyFile_other hne]

theorem Footprint.onDisk {w w' : World Path} (h : Footprint file w.disk w'.disk) (hw : OnDisk w)
    (hfile : w'.buf.file = w.buf.file) : OnDisk w' := by
  intro path hpath
  rw [h.present]
  apply hw
  rw [← hfile, hpath]

end Footprint

/-- Nothing has been loaded yet. -/
structure Fresh (b : BackedBuffer Path) : Prop where
  counted : Counted b
  absent : ∀ p, b.pages.getD p .absent = .absent
  closed : b.out.openOn = none
  pending : b.out.pending = []

structure Blank (b : BackedBuffer Path) : Prop extends Fresh b where
  file : b.file = none
  inStream : b.inStream = none
  fileBytes : b.fileBytes = 0

section Fresh

variable {w : World Path}

theorem Fresh.idle {b : BackedBuffer Path} (h : Fresh b) : Idle b := by
  refine ⟨fun hopen => ?_, fun _ => h.pending, Or.inl h.closed⟩
  rw [h.closed] at hopen
  cases hopen

theorem blank_mk (failed : Bool) {m : Option (List UInt8)} {size count : Nat}
    (hlen : (m.getD []).length = size) (hnull : m = none ↔ size = 0)
    (hcount : count ≤ pageCount size) :
    Blank ({
      out := { failed := failed }
      mem := m
      bytes := size
      pages := List.replicate count .absent } : BackedBuffer Path) where
  counted := ⟨by simp [List.count_replicate], by simpa using hcount, hlen, hnull⟩
  absent p := by
    by_cases hp : p < count
    · exact List.getD_replicate _ hp
    · exact List.getD_eq_default _ _ (by simpa using hp)
  closed := rfl
  pending := rfl
  file := rfl
  inStream := rfl
  fileBytes := rfl

theorem blank_empty (failed : Bool) :
    Blank ({ out := { failed := failed } } : BackedBuffer Path) :=
  blank_mk (m := none) failed rfl (by simp) (Nat.zero_le 0)

theorem bookkept_empty (failed : Bool) :
    Bookkept ({ out := { failed := failed } } : BackedBuffer Path) where
  toCounted := (blank_empty failed).counted
  full := pageCount_zero.symm

end Fresh

section Dealloc

variable [DecidableEq Path] {f : Faults} {w w' : World Path}
  {Q : Unit → World Path → Prop} {E : Failure Path → World Path → Prop}

/-- What `out.close()` leaves between two calls. -/
structure Released (w w' : World Path) : Prop where
  buf : w'.buf = { w.buf with out := { failed := w'.buf.out.failed } }
  footprint : Footprint w.buf.file w.disk w'.disk
  disk : w.buf.out.openOn = none → w'.disk = w.disk

theorem wp_release (hidle : Idle w.buf) : wp (outClose f) (fun _ w' => Released w w') E w := by
  cases hout : w.buf.out.openOn with
  | none =>
    have hnone : w.buf.out.openOn.isNone = true := by rw [hout]; rfl
    simp only [outClose, wp_bind, wp_buffer, hnone, if_true, wp_edit]
    constructor
    · rw [hout, hidle.pending hout]
    · exact Footprint.of_eq rfl
    · exact fun _ => rfl
  | some path =>
    have hopen : w.buf.out.openOn = w.buf.file := by
      rcases hidle.target with hnone | hopen
      · rw [hnone] at hout
        cases hout
      · exact hopen
    rw [wp_outClose (by rw [hout]; rfl)]
    constructor
    · rfl
    · exact Footprint.of_modifyFile (by rw [hopen])
    · intro hclosed
      rw [hclosed] at hout
      cases hout

theorem wp_dealloc (hidle : Idle w.buf) :
    wp (dealloc f) (fun _ w' => w'.buf = { out := { failed := w'.buf.out.failed } } ∧
      Footprint w.buf.file w.disk w'.disk ∧ (w.buf.out.openOn = none → w'.disk = w.disk)) E w := by
  simp only [dealloc, wp_bind]
  apply (wp_release hidle).mono (fun _ t ht => ?_) (fun _ _ h => h)
  rw [wp_edit]
  refine ⟨?_, ht.footprint, ht.disk⟩
  rw [ht.buf]

/-- The allocation of the page table in `init` is made and fails. -/
def InitShort (f : Faults) (size : Nat) : Prop :=
  f.storage = false ∧ f.table = true ∧ pageCount size ≠ 0

theorem wp_init {size : Nat} (hidle : Idle w.buf) :
    wp (init f size)
      (fun _ w' => (Blank w'.buf ∧ Footprint w.buf.file w.disk w'.disk ∧ (w.buf.out.openOn = none → w'.disk = w.disk)) ∧
        w'.buf.bytes = size ∧ Bookkept w'.buf ∧ ¬InitShort f size)
      (fun e w' => (Blank w'.buf ∧ Footprint w.buf.file w.disk w'.disk ∧
        (w.buf.out.openOn = none → w'.disk = w.disk)) ∧ e = .throws .badAlloc ∧
        (Bookkept w'.buf ↔ ¬InitShort f size)) w := by
  simp only [init, takeMemory, wp_bind]
  apply (wp_dealloc hidle).mono (fun _ t ht => ?_) (fun _ _ h => h)
  obtain ⟨hbuf, hfoot, hdisk⟩ := ht
  rw [wp_ite]
  constructor
  · rintro ⟨hsize, hfail⟩
    rw [wp_bind, wp_throw]
    refine ⟨⟨?_, hfoot, hdisk⟩, rfl, ?_⟩
    · rw [hbuf]
      exact blank_empty _
    · rw [hbuf]
      exact ⟨fun _ h => by simp [InitShort, hfail] at h, fun _ => bookkept_empty _⟩
  · intro hgot
    rw [wp_edit, wp_ite, hbuf]
    have hnull : (if size = 0 then none else some (allocate f size)) = none ↔ size = 0 := by
      split <;> simp [*]
    have hlen : ((if size = 0 then none else some (allocate f size)).getD []).length = size := by
      split <;> simp [*, allocate]
    constructor
    · rintro ⟨hfail, hcount⟩
      rw [wp_bind, wp_throw]
      refine ⟨⟨blank_mk _ hlen hnull (Nat.zero_le _), hfoot, hdisk⟩, rfl, ?_⟩
      constructor
      · intro hbook
        exact absurd hbook.full.symm hcount
      · intro hshort
        refine absurd ⟨?_, hfail, hcount⟩ hshort
        have hsize : size ≠ 0 := by
          rintro rfl
          exact hcount rfl
        simpa [hsize] using hgot
    · intro htable
      rw [wp_edit]
      have hblank := @blank_mk Path t.buf.out.failed _ _ _ hlen hnull (Nat.le_refl _)
      refine ⟨⟨hblank, hfoot, hdisk⟩, rfl, ⟨hblank.counted, by simp⟩, ?_⟩
      exact fun hshort => htable hshort.2

theorem wp_initFile {size : Nat} {path : Path} {readOnly : Bool} (hidle : Idle w.buf) :
    wp (initFile f size path readOnly)
      (fun _ w' => Fresh w'.buf ∧ Footprint w.buf.file w.disk w'.disk ∧
        (w.buf.out.openOn = none → w'.disk = w.disk) ∧ w'.buf.bytes = size ∧
        w'.buf.file = some path ∧ w'.buf.inStream = some path ∧ (w'.disk path).isSome ∧
        w'.buf.fileBytes = ((w'.disk path).getD []).length ∧ Bookkept w'.buf ∧
        ¬InitShort f size)
      (fun e w' => (∃ x, e = .throws x) ∧ (w' = w ∨ Fresh w'.buf ∧
        Footprint w.buf.file w.disk w'.disk ∧ (Blank w'.buf ∨ w'.buf.file = some path ∧
          w'.buf.inStream = some path ∧ (w'.disk path).isSome ∧ f.fileSize = true)) ∧
        (Bookkept w.buf → (Bookkept w'.buf ↔ ¬(f.probe = false ∧ (w.disk path).isSome ∧
          f.openIn = false ∧ InitShort f size)))) w := by
  simp only [initFile, wp_bind, wp_get]
  rw [wp_ite]
  constructor
  · intro hprobe
    exact ⟨⟨_, rfl⟩, Or.inl rfl, fun hbook => ⟨fun _ h => by simp [hprobe] at h, fun _ => hbook⟩⟩
  intro hprobe
  rw [wp_ite]
  constructor
  · intro hmissing
    refine ⟨⟨_, rfl⟩, Or.inl rfl, fun hbook => ⟨fun _ h => ?_, fun _ => hbook⟩⟩
    rw [← Option.not_isSome, h.2.1] at hmissing
    cases hmissing
  intro hthere
  rw [wp_ite]
  constructor
  · intro hopenIn
    exact ⟨⟨_, rfl⟩, Or.inl rfl, fun hbook => ⟨fun _ h => by simp [hopenIn] at h, fun _ => hbook⟩⟩
  intro hopenIn
  have hsome : (w.disk path).isSome := by
    rwa [Bool.not_eq_true, Option.isNone_eq_false_iff] at hthere
  have hreach : f.probe = false ∧ (w.disk path).isSome ∧ f.openIn = false :=
    ⟨by simpa using hprobe, hsome, by simpa using hopenIn⟩
  rw [wp_bind]
  apply (wp_init hidle).mono
  · rintro _ t ⟨⟨hblank, hfoot, hdisk⟩, hbytes, hbook, hgood⟩
    rw [wp_ite]
    constructor
    · intro _
      refine ⟨⟨_, rfl⟩, Or.inr ⟨hblank.toFresh, hfoot, Or.inl hblank⟩, fun _ => ?_⟩
      exact ⟨fun _ h => hgood h.2.2.2, fun _ => hbook⟩
    intro _
    have hcounted : Counted ({ t.buf with file := some path, inStream := some path }) :=
      ⟨hbook.count, hbook.table, hbook.memLen, hbook.memNull⟩
    have hthere' : (t.disk path).isSome := by rw [hfoot.present, hsome]
    rw [wp_bind, wp_edit, wp_ite]
    constructor
    · intro hsize
      refine ⟨⟨_, rfl⟩, Or.inr ⟨⟨hcounted, hblank.absent, hblank.closed, hblank.pending⟩, hfoot,
        Or.inr ⟨rfl, rfl, hthere', hsize⟩⟩, fun _ => ⟨fun _ h => hgood h.2.2.2, fun _ => ?_⟩⟩
      exact ⟨hcounted, hbook.full⟩
    · intro _
      rw [wp_bind, wp_get, wp_edit]
      exact ⟨⟨⟨hbook.count, hbook.table, hbook.memLen, hbook.memNull⟩, hblank.absent,
        hblank.closed, hblank.pending⟩, hfoot, hdisk, hbytes, rfl, rfl, hthere', rfl,
        ⟨⟨hbook.count, hbook.table, hbook.memLen, hbook.memNull⟩, hbook.full⟩, hgood⟩
  · rintro e t ⟨⟨hblank, hfoot, hdisk⟩, rfl, hbook⟩
    refine ⟨⟨_, rfl⟩, Or.inr ⟨hblank.toFresh, hfoot, Or.inl hblank⟩, fun _ => ?_⟩
    rw [hbook]
    exact not_congr ⟨fun h => ⟨hreach.1, hreach.2.1, hreach.2.2, h⟩, fun h => h.2.2.2⟩

theorem wp_detach (hw : Counted w.buf) (hidle : Idle w.buf) :
    wp (detach f)
      (fun _ w' => ∃ t, Loaded w t ∧ (∀ i, i < w.buf.bytes → t.page (i / pageSize) ≠ .absent) ∧
        w'.buf = { t.buf with
          file := none
          inStream := none
          out := { failed := w'.buf.out.failed }
          fileBytes := 0 } ∧
        Footprint w.buf.file w.disk w'.disk ∧ (w.buf.out.openOn = none → w'.disk = w.disk))
      (fun e w' => Loaded w w' ∧ LoadFailure f w e) w := by
  simp only [detach, wp_bind, wp_buffer]
  apply (wp_load hw (Nat.le_of_eq (Nat.zero_add _))).mono (fun _ t ht => ?_) (fun _ _ h => h)
  obtain ⟨hload, hpresent⟩ := ht
  have hfile := hload.sameFile
  rw [wp_edit]
  have hidle' : Idle { t.buf with inStream := none } := by
    refine ⟨?_, ?_, ?_⟩ <;> simp only [hfile.out, hfile.file]
    exacts [hidle.failed, hidle.pending, hidle.target]
  apply (wp_release hidle').mono (fun _ u hu => ?_) (fun _ _ h => h)
  rw [wp_edit]
  refine ⟨t, hload, fun i hi => hpresent i (Nat.zero_le i) (by omega), ?_, ?_, ?_⟩
  · rw [hu.buf]
  · have hfoot := hu.footprint
    rwa [hfile.file, hfile.disk] at hfoot
  · intro hclosed
    exact (hu.disk (by rw [hfile.out]; exact hclosed)).trans hfile.disk

theorem wp_moveFrom {other : BackedBuffer Path} (hidle : Idle w.buf) :
    wp (moveFrom f other)
      (fun rest w' => w'.buf = other ∧ Footprint w.buf.file w.disk w'.disk ∧
        (w.buf.out.openOn = none → w'.disk = w.disk) ∧
        ∃ failed, rest = { out := { failed := failed } }) E w := by
  simp only [moveFrom, wp_bind]
  apply (wp_dealloc hidle).mono (fun _ t ht => ?_) (fun _ _ h => h)
  obtain ⟨_, hfoot, hdisk⟩ := ht
  rw [wp_buffer, wp_edit, wp_pure]
  exact ⟨rfl, hfoot, hdisk, _, rfl⟩

end Dealloc

section Resizing

variable {f : Faults} {w w' : World Path}

theorem count_drop {xs : List Page} {p : Nat} (h : p < xs.length) (s : Page) :
    (xs.drop p).count s =
      (xs.drop (p + 1)).count s + if xs.getD p .absent = s then 1 else 0 := by
  rw [List.drop_eq_getElem_cons h, List.count_cons, List.getD_eq_getElem _ _ h]
  simp only [beq_iff_eq]

theorem wp_forgetPages {size : Nat} {E : Failure Path → World Path → Prop}
    (hcount : w.buf.dirtyPages = w.buf.pages.count .dirty) :
    wp (forgetPages size) (fun _ w' => w' = { w with buf := { w.buf with
      dirtyPages := (w.buf.pages.take (pageCount size)).count .dirty } }) E w := by
  simp only [forgetPages, wp_bind, wp_buffer]
  by_cases hle : pageCount size ≤ w.buf.pages.length
  · refine (wp_forRange (fun p t => t = { w with buf := { w.buf with
      dirtyPages := ((w.buf.pages.take (pageCount size)).count .dirty +
        (w.buf.pages.drop p).count .dirty : Nat) } }) _ _ w ?_ ?_).mono ?_ (fun _ _ h => h)
    · rw [← List.count_append, List.take_append_drop, ← hcount]
    · rintro k t hk hk' rfl
      have hlt : k < w.buf.pages.length := by omega
      rw [forgetPage, wp_bind, wp_look]
      refine ⟨fun b hb => ?_, fun e he => ?_⟩
      · obtain ⟨_, rfl⟩ := isPage_eq_ok.1 hb
        rw [wp_ite, count_drop hlt]
        constructor
        · intro hdirty
          have hpage : w.buf.pages.getD k .absent = .dirty := of_decide_eq_true hdirty
          simp only [wp_edit, if_pos hpage]
          congr 2
          omega
        · intro hclean
          have hpage : ¬w.buf.pages.getD k .absent = .dirty := fun h =>
            hclean (decide_eq_true h)
          simp only [wp_pure, if_neg hpage, Nat.add_zero]
      · have hge := (isPage_eq_error.1 he).1
        exact absurd hge (Nat.not_le.2 hlt)
    · rintro _ t rfl
      rw [List.drop_eq_nil_of_le (by omega), List.count_nil, Nat.add_zero]
  · have hnone : w.buf.pages.length - pageCount size = 0 := by omega
    have hall : w.buf.pages.take (pageCount size) = w.buf.pages :=
      List.take_of_length_le (by omega)
    rw [hnone, hall, ← hcount]
    rfl

/-- The page table has to grow, and its allocation fails. -/
def TableShort (f : Faults) (size : Nat) (w : World Path) : Prop :=
  f.table = true ∧ w.buf.pages.length < pageCount size

/-- The old last page has to be completed from the file, and reading the file fails. -/
def CompletionFails (f : Faults) (size : Nat) (w : World Path) : Prop :=
  w.buf.bytes < size ∧ w.buf.bytes % pageSize ≠ 0 ∧
    w.page (w.buf.bytes / pageSize) ≠ .absent ∧
    FillFails f w w.buf.bytes (min ((w.buf.bytes / pageSize + 1) * pageSize) size)

/-- `resize` has the memory and then fails. -/
def Torn (f : Faults) (size : Nat) (w : World Path) : Prop :=
  size ≠ w.buf.bytes ∧ f.storage = false ∧ (TableShort f size w ∨ CompletionFails f size w)

structure Resized (size : Nat) (w w' : World Path) : Prop where
  sameFile : SameFile w w'
  bytes : w'.buf.bytes = size
  counted : Counted w'.buf
  page : ∀ p, w'.page p = if p < pageCount size then w.page p else .absent
  memByte : ∀ i, i < w.buf.bytes → i < size → w'.memByte i = w.memByte i

theorem Resized.memOnly {size first stop : Nat} {t : World Path} (h : Resized size w t)
    (hfirst : w.buf.bytes ≤ first) (ht : MemOnly first stop t w') : Resized size w w' where
  sameFile := h.sameFile.trans (by rw [ht.same]; exact ⟨rfl, rfl, rfl, rfl, rfl, rfl, rfl⟩)
  bytes := by
    rw [ht.same]
    exact h.bytes
  counted := by
    have hcounted := h.counted
    rw [ht.same]
    exact ⟨hcounted.count, hcounted.table, ht.memLen.trans hcounted.memLen,
      ht.null.trans hcounted.memNull⟩
  page p := by rw [ht.page, h.page]
  memByte i hi hi' := by rw [ht.frame i (by omega), h.memByte i hi hi']

theorem SameFile.fillFails {first stop : Nat} (h : SameFile w w') :
    FillFails f w' first stop ↔ FillFails f w first stop := by
  simp only [FillFails, ReadFails, World.inContent, h.fileBytes, h.inStream, h.disk]

/-- A loaded page that reaches beyond the end can only be the last one, partially used. -/
theorem last_of_present {i : Nat} (hw : Counted w.buf) (hi : w.buf.bytes ≤ i)
    (hpage : w.page (i / pageSize) ≠ .absent) :
    i / pageSize = w.buf.bytes / pageSize ∧ w.buf.bytes % pageSize ≠ 0 := by
  have hlt := lt_pageCount.1 (Nat.lt_of_lt_of_le (World.page_lt hpage) hw.table)
  simp only [pageSize] at hlt ⊢
  omega

theorem wp_completePage {size : Nat} {t : World Path} (hw : Counted w.buf)
    (ht : Resized size w t) (hlen : t.buf.pages.length = pageCount size)
    (hlt : w.buf.bytes < size) :
    wp (completePage f w.buf.bytes)
      (fun _ w' => (Resized size w w' ∧ w'.buf.pages.length = pageCount size ∧
        ∀ i, w.buf.bytes ≤ i → i < size → w.page (i / pageSize) ≠ .absent →
          w'.memByte i = w.fileByte i) ∧ ¬CompletionFails f size w)
      (fun e w' => (∃ x, e = .throws x) ∧ Resized size w w' ∧
        w'.buf.pages.length = pageCount size ∧ CompletionFails f size w) t := by
  simp only [completePage, wp_bind, wp_buffer, ht.bytes]
  rw [wp_ite]
  constructor
  · intro hpart
    have hin : w.buf.bytes / pageSize < pageCount size := by
      rw [lt_pageCount]
      simp only [pageSize]
      omega
    have htpage : t.page (w.buf.bytes / pageSize) = w.page (w.buf.bytes / pageSize) := by
      rw [ht.page, if_pos hin]
    rw [wp_bind, wp_look]
    refine ⟨fun b hb => ?_, fun e he => ?_⟩
    · obtain ⟨_, rfl⟩ := isPage_eq_ok.1 hb
      rw [wp_ite, htpage]
      constructor
      · intro hpresent
        have hpage : w.page (w.buf.bytes / pageSize) ≠ .absent := by simpa using hpresent
        have hmem : min ((w.buf.bytes / pageSize + 1) * pageSize) size ≤
            (t.buf.mem.getD []).length := by
          rw [ht.counted.memLen, ht.bytes]
          exact Nat.min_le_right _ _
        apply (wp_fill w.buf.bytes _ (by simp only [pageSize]; omega) hmem).mono
        · rintro _ u ⟨⟨hu, hfill⟩, hgood⟩
          refine ⟨⟨ht.memOnly (Nat.le_refl _) hu, ?_, fun i hi hi' hpresent' => ?_⟩, fun hfail => ?_⟩
          · rw [hu.same]
            exact hlen
          · have hlast := last_of_present hw hi hpresent'
            rw [hfill i hi (by simp only [pageSize] at hlast ⊢; omega), ht.sameFile.fileByte]
          · exact hgood (ht.sameFile.fillFails.2 hfail.2.2.2)
        · rintro e u ⟨hu, rfl, hfail⟩
          refine ⟨⟨_, rfl⟩, ht.memOnly (Nat.le_refl _) hu, ?_, hlt, hpart, hpage,
            ht.sameFile.fillFails.1 hfail⟩
          rw [hu.same]
          exact hlen
      · intro habsent
        have hpage : w.page (w.buf.bytes / pageSize) = .absent := by simpa using habsent
        refine ⟨⟨ht, hlen, fun i hi _ hpresent => ?_⟩, fun hfail => hfail.2.2.1 hpage⟩
        rw [(last_of_present hw hi hpresent).1] at hpresent
        exact absurd hpage hpresent
    · have hge := (isPage_eq_error.1 he).1
      omega
  · intro hfull
    refine ⟨⟨ht, hlen, fun i hi _ hpresent => ?_⟩, fun hfail => hfull hfail.2.1⟩
    exact absurd (last_of_present hw hi hpresent).2 hfull

/-- The buffer after it has the memory `m` and the pages `ps` for `size` bytes. -/
def World.reshaped (w : World Path) (size : Nat) (m : Option (List UInt8)) (ps : List Page) :
    World Path :=
  { w with buf := { w.buf with
    mem := m
    bytes := size
    pages := ps
    dirtyPages := (w.buf.pages.take (pageCount size)).count .dirty } }

/-- The memory of `size` bytes that keeps what the buffer has. -/
structure Carried (w : World Path) (size : Nat) (m : Option (List UInt8)) : Prop where
  length : (m.getD []).length = size
  null : m = none ↔ size = 0
  memByte : ∀ i, i < w.buf.bytes → i < size → (m.getD []).getD i 0 = w.memByte i

theorem Carried.resized {size : Nat} {m : Option (List UInt8)} {ps : List Page}
    (h : Carried w size m)
    (hcount : ps.count .dirty = (w.buf.pages.take (pageCount size)).count .dirty)
    (htable : ps.length ≤ pageCount size)
    (hpage : ∀ p, ps.getD p .absent = if p < pageCount size then w.page p else .absent) :
    Resized size w (w.reshaped size m ps) where
  sameFile := ⟨rfl, rfl, rfl, rfl, rfl, rfl, rfl⟩
  bytes := rfl
  counted := ⟨congrArg Nat.cast hcount.symm, htable, h.length, h.null⟩
  page := hpage
  memByte := h.memByte

theorem count_takeD (xs : List Page) (n : Nat) :
    (xs.takeD n .absent).count .dirty = (xs.take n).count .dirty := by
  by_cases h : n ≤ xs.length
  · rw [List.takeD_eq_take _ h]
  · rw [takeD_eq_append (by omega), List.take_of_length_le (by omega), List.count_append,
      List.count_replicate]
    rfl

theorem length_reallocate (f : Faults) (old : List UInt8) (size : Nat) :
    (reallocate f old size).length = size := by
  simp only [reallocate, length_overwrite, allocate, List.length_map, List.length_range,
    List.length_take]
  omega

theorem getD_reallocate (f : Faults) {old : List UInt8} {size i : Nat} (h : i < old.length)
    (h' : i < size) : (reallocate f old size).getD i 0 = old.getD i 0 := by
  have hlen : i < 0 + (old.take size).length := by
    rw [List.length_take]
    omega
  rw [reallocate, getD_overwrite_of_mem (Nat.zero_le i) hlen, Nat.sub_zero, getD_take, if_pos h']

theorem carried_reallocate (f : Faults) (hw : Counted w.buf) (size : Nat) :
    Carried w size
      (if size = 0 then none else some (reallocate f (w.buf.mem.getD []) size)) where
  length := by
    split
    · next hsize => rw [hsize]; rfl
    · exact length_reallocate f _ size
  null := by
    split <;> simp [*]
  memByte i hi hi' := by
    rw [if_neg (by omega)]
    exact getD_reallocate f (by rwa [hw.memLen]) hi'

theorem wp_forgetShrunk {size : Nat} {m : Option (List UInt8)}
    {E : Failure Path → World Path → Prop} (hw : Counted w.buf) :
    wp (if size < w.buf.bytes then forgetPages size else pure ())
      (fun _ t => t = w.reshaped size m w.buf.pages) E
      { w with buf := { w.buf with mem := m, bytes := size } } := by
  rw [wp_ite]
  constructor
  · intro _
    exact wp_forgetPages hw.count
  · intro hge
    have hle : w.buf.pages.length ≤ pageCount size := by
      have htable := hw.table
      simp only [pageCount, pageSize] at htable ⊢
      omega
    rw [wp_pure, World.reshaped, List.take_of_length_le hle, ← hw.count]

theorem Torn.of_fails {size : Nat} (hne : size ≠ w.buf.bytes) (hgot : ¬(size ≠ 0 ∧ f.storage = true))
    (hfail : TableShort f size w ∨ CompletionFails f size w) : Torn f size w := by
  refine ⟨hne, ?_, hfail⟩
  have hsize : size ≠ 0 := by
    rintro rfl
    rcases hfail with hfail | hfail
    · exact Nat.not_lt_zero _ hfail.2
    · exact Nat.not_lt_zero _ hfail.1
  simpa [hsize] using hgot

theorem Carried.resized_short {size : Nat} {m : Option (List UInt8)} (h : Carried w size m)
    (hshort : TableShort f size w) : Resized size w (w.reshaped size m w.buf.pages) := by
  apply h.resized
  · rw [List.take_of_length_le (Nat.le_of_lt hshort.2)]
  · exact Nat.le_of_lt hshort.2
  · intro p
    split
    · rfl
    · exact List.getD_eq_default _ _ (by have hlt := hshort.2; omega)

theorem Carried.resized_takeD {size : Nat} {m : Option (List UInt8)} (h : Carried w size m) :
    Resized size w (w.reshaped size m (w.buf.pages.takeD (pageCount size) .absent)) :=
  h.resized (count_takeD _ _) (Nat.le_of_eq (List.takeD_length _ _ _)) (getD_takeD _ _)

/-- What `resize` leaves when it returns and when it throws. -/
def ResizeDone (f : Faults) (size : Nat) (w w' : World Path) : Prop :=
  ¬Torn f size w ∧ ((size = w.buf.bytes ∧ w' = w) ∨ (size ≠ w.buf.bytes ∧
    Resized size w w' ∧ w'.buf.pages.length = pageCount size ∧
    ∀ i, w.buf.bytes ≤ i → i < size → w.page (i / pageSize) ≠ .absent →
      w'.memByte i = w.fileByte i))

def ResizeFailed (f : Faults) (size : Nat) (w : World Path) (e : Failure Path)
    (w' : World Path) : Prop :=
  (∃ x, e = .throws x) ∧
    ((size ≠ w.buf.bytes ∧ f.storage = true ∧ w' = w) ∨ (Torn f size w ∧
      Resized size w w' ∧ (TableShort f size w ∧ w'.buf.pages = w.buf.pages ∨
        ¬TableShort f size w ∧ w'.buf.pages.length = pageCount size)))

/-- `resize` once it has the memory and has counted the dirty pages that are gone. -/
theorem wp_reshaped {size : Nat} {m : Option (List UInt8)} (hw : Counted w.buf)
    (hne : size ≠ w.buf.bytes) (hgot : ¬(size ≠ 0 ∧ f.storage = true)) (hm : Carried w size m) :
    wp (do resizePages f (pageCount size); if w.buf.bytes < size then completePage f w.buf.bytes)
      (fun _ => ResizeDone f size w) (ResizeFailed f size w)
      (w.reshaped size m w.buf.pages) := by
  simp only [resizePages, wp_bind, wp_buffer]
  rw [wp_ite]
  constructor
  · intro hshort
    have hshort : TableShort f size w := hshort
    exact ⟨⟨_, rfl⟩, Or.inr ⟨.of_fails hne hgot (Or.inl hshort), hm.resized_short hshort,
      Or.inl ⟨hshort, rfl⟩⟩⟩
  · intro hshort
    have hshort : ¬TableShort f size w := hshort
    have hcount : (w.buf.pages.takeD (pageCount size) .absent).length = pageCount size :=
      List.takeD_length _ _ _
    rw [wp_edit, wp_ite]
    constructor
    · intro hlt
      apply (wp_completePage hw hm.resized_takeD hcount hlt).mono
      · rintro _ u ⟨hdone, hgood⟩
        exact ⟨fun h => h.2.2.elim hshort hgood, Or.inr ⟨hne, hdone⟩⟩
      · rintro e u ⟨hthrow, hu, hulen, hfail⟩
        exact ⟨hthrow, Or.inr ⟨.of_fails hne hgot (Or.inr hfail), hu, Or.inr ⟨hshort, hulen⟩⟩⟩
    · intro hge
      exact ⟨fun h => h.2.2.elim hshort fun hfail => hge hfail.1,
        Or.inr ⟨hne, hm.resized_takeD, hcount, fun i hi hi' => by omega⟩⟩

theorem wp_resize {size : Nat} (hw : Counted w.buf) :
    wp (resize f size) (fun _ => ResizeDone f size w) (ResizeFailed f size w) w := by
  simp only [resize, wp_bind, wp_buffer]
  rw [wp_ite]
  constructor
  · intro hne
    simp only [takeMemory, wp_bind]
    rw [wp_ite]
    constructor
    · intro hfail
      exact ⟨⟨_, rfl⟩, Or.inl ⟨hne, hfail.2, rfl⟩⟩
    · intro hgot
      rw [wp_edit, wp_ite_seq]
      apply (wp_forgetShrunk hw).mono (fun _ t ht => ?_) (fun _ _ h => h)
      subst ht
      exact wp_reshaped hw hne hgot (carried_reallocate f hw size)
  · intro heq
    have hsize : size = w.buf.bytes := by simpa using heq
    exact ⟨fun htorn => htorn.1 hsize, Or.inl ⟨hsize, rfl⟩⟩

end Resizing

end Utlib.BackedBuffer
