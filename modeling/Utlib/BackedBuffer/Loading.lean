import Utlib.BackedBuffer.Basic

namespace Utlib.BackedBuffer

open Program Sequence

variable {Path : Type}

section Primitives

variable {E : Failure Path → World Path → Prop} {w : World Path}

@[simp] theorem wp_buffer {Q : BackedBuffer Path → World Path → Prop} :
    wp buffer Q E w ↔ Q w.buf w := Iff.rfl

@[simp] theorem wp_edit {Q : Unit → World Path → Prop}
    (g : BackedBuffer Path → BackedBuffer Path) :
    wp (edit g) Q E w ↔ Q () { w with buf := g w.buf } := Iff.rfl

@[simp] theorem wp_throwIOError {Q : Unit → World Path → Prop} (fault : IOFault)
    (file : Option Path) : wp (throwIOError fault file) Q E w ↔ E (.throws (.ioError fault file)) w :=
  Iff.rfl

@[simp] theorem wp_record {Q : Unit → World Path → Prop} (step : FileStep) (good : Bool) :
    wp (record step good) Q E w ↔ Q () { w with log := w.log ++ [(step, good)] } := Iff.rfl

theorem wp_touch {Q : Unit → World Path → Prop} {offset len : Nat}
    (h : offset + len ≤ (w.buf.mem.getD []).length) :
    wp (touch offset len) Q E w ↔ Q () w := by
  simp only [touch, wp_bind, wp_buffer, wp_require]
  exact ⟨fun hq => hq.1 h, fun hq => ⟨fun _ => hq, fun hn => absurd h hn⟩⟩

end Primitives

section State

def World.setMem (w : World Path) (m : Option (List UInt8)) : World Path :=
  { w with buf := { w.buf with mem := m } }

def World.setPages (w : World Path) (pages : List Page) : World Path :=
  { w with buf := { w.buf with pages := pages } }

/-- Pages beyond the table count as absent, bytes beyond the memory as zero. -/
def World.page (w : World Path) (p : Nat) : Page := w.buf.pages.getD p .absent

def World.memByte (w : World Path) (i : Nat) : UInt8 := (w.buf.mem.getD []).getD i 0

/-- What `fetch` finds for byte `i`. -/
def World.fileByte (w : World Path) (i : Nat) : UInt8 :=
  if i < w.buf.fileBytes then w.inContent.getD i 0 else 0

@[simp] theorem World.page_setMem (w : World Path) (m p) : (w.setMem m).page p = w.page p := rfl

@[simp] theorem World.fileByte_setMem (w : World Path) (m i) :
    (w.setMem m).fileByte i = w.fileByte i := rfl

@[simp] theorem World.memByte_setPages (w : World Path) (ps i) :
    (w.setPages ps).memByte i = w.memByte i := rfl

@[simp] theorem World.fileByte_setPages (w : World Path) (ps i) :
    (w.setPages ps).fileByte i = w.fileByte i := rfl

theorem isPage_eq_ok {s : Page} {p : Nat} {w : World Path} {b : Bool} :
    isPage s p w = .ok b ↔ p < w.buf.pages.length ∧ b = decide (w.page p = s) := by
  unfold isPage World.page
  by_cases h : p < w.buf.pages.length
  · simp [h, eq_comm]
  · simp [h]

theorem isPage_eq_error {s : Page} {p : Nat} {w : World Path} {e : Failure Path} :
    isPage s p w = .error e ↔ w.buf.pages.length ≤ p ∧ e = .outOfBounds := by
  unfold isPage
  by_cases h : p < w.buf.pages.length
  · simp only [List.getElem?_eq_getElem h, reduceCtorEq, false_iff]
    omega
  · simp only [List.getElem?_eq_none (by omega : w.buf.pages.length ≤ p), Except.error.injEq]
    constructor
    · rintro rfl
      exact ⟨by omega, rfl⟩
    · rintro ⟨_, rfl⟩
      rfl

theorem isPage_eq_true {s : Page} {p : Nat} {w : World Path} (h : isPage s p w = .ok true) :
    p < w.buf.pages.length ∧ w.page p = s := by
  simpa [isPage_eq_ok] using h

theorem isPage_eq_false {s : Page} {p : Nat} {w : World Path} (h : isPage s p w = .ok false) :
    p < w.buf.pages.length ∧ w.page p ≠ s := by
  simpa [isPage_eq_ok] using h

theorem World.page_lt {w : World Path} {p : Nat} (h : w.page p ≠ .absent) :
    p < w.buf.pages.length := by
  by_contra hge
  exact h (List.getD_eq_default _ _ (by omega))

end State

/-- The bookkeeping that survives every call, even one that fails in the page table. -/
structure Counted (b : BackedBuffer Path) : Prop where
  count : b.dirtyPages = b.pages.count .dirty
  table : b.pages.length ≤ pageCount b.bytes
  memLen : (b.mem.getD []).length = b.bytes
  memNull : b.mem = none ↔ b.bytes = 0

structure Bookkept (b : BackedBuffer Path) : Prop extends Counted b where
  full : b.pages.length = pageCount b.bytes

/-- A read goes wrong when a fault stops it or the file ends before `stop`. -/
def ReadFails (f : Faults) (w : World Path) (offset stop : Nat) : Prop :=
  (f.read offset).isSome ∨ w.inContent.length < stop

def FillFails (f : Faults) (w : World Path) (first stop : Nat) : Prop :=
  first < min w.buf.fileBytes stop ∧ ReadFails f w first (min w.buf.fileBytes stop)

def ReadTrouble (f : Faults) (w : World Path) : Prop :=
  (∃ o, (f.read o).isSome) ∨ w.inContent.length < w.buf.fileBytes

theorem FillFails.readTrouble {f : Faults} {w : World Path} {first stop : Nat}
    (h : FillFails f w first stop) : ReadTrouble f w := by
  rcases h.2 with hfault | hshort
  · exact Or.inl ⟨first, hfault⟩
  · exact Or.inr (Nat.lt_of_lt_of_le hshort (Nat.min_le_left _ _))

/-- The memory may differ from `w` inside `[first, stop)` only. -/
structure MemOnly (first stop : Nat) (w w' : World Path) : Prop where
  same : w' = w.setMem w'.buf.mem
  null : w'.buf.mem = none ↔ w.buf.mem = none
  memLen : (w'.buf.mem.getD []).length = (w.buf.mem.getD []).length
  frame : ∀ i, i < first ∨ stop ≤ i → w'.memByte i = w.memByte i

/-- What a call that only loads may do to the buffer. -/
structure Loaded (w w' : World Path) : Prop where
  same : w' = (w.setMem w'.buf.mem).setPages w'.buf.pages
  null : w'.buf.mem = none ↔ w.buf.mem = none
  memLen : (w'.buf.mem.getD []).length = (w.buf.mem.getD []).length
  pagesLen : w'.buf.pages.length = w.buf.pages.length
  page : ∀ p, w'.page p = w.page p ∨ (w.page p = .absent ∧ w'.page p = .clean)
  kept : ∀ i, w.page (i / pageSize) ≠ .absent → w'.memByte i = w.memByte i
  filled : ∀ i, i < w.buf.bytes → w.page (i / pageSize) = .absent →
    w'.page (i / pageSize) = .clean → w'.memByte i = w.fileByte i

section Specs

variable {f : Faults} {w w' w'' : World Path}

theorem wp_store_mem {Q : Unit → World Path → Prop} {E : Failure Path → World Path → Prop}
    {offset : Nat} {data : List UInt8} :
    wp (store offset data) Q E w ↔
      Q () (w.setMem (w.buf.mem.map fun m => overwrite 0 m offset data)) := Iff.rfl

theorem memOnly_store (offset : Nat) (data : List UInt8) {stop : Nat}
    (h : offset + data.length ≤ (w.buf.mem.getD []).length) (hstop : offset + data.length ≤ stop) :
    MemOnly offset stop w (w.setMem (w.buf.mem.map fun m => overwrite 0 m offset data)) := by
  cases hm : w.buf.mem with
  | none =>
    constructor
    · rfl
    · simp [World.setMem, hm]
    · simp [World.setMem, hm]
    · simp [World.setMem, World.memByte, hm]
  | some m =>
    rw [hm] at h
    constructor
    · rfl
    · simp [World.setMem, hm]
    · simp only [World.setMem, Option.map_some, Option.getD_some, length_overwrite, hm] at h ⊢
      omega
    · intro i hi
      simp only [World.memByte, World.setMem, Option.map_some, Option.getD_some, hm]
      exact getD_overwrite_of_notMem (by omega)

theorem memByte_store {offset : Nat} {data : List UInt8} {i : Nat}
    (h : offset + data.length ≤ (w.buf.mem.getD []).length) (hi : offset ≤ i)
    (hi' : i < offset + data.length) :
    (w.setMem (w.buf.mem.map fun m => overwrite 0 m offset data)).memByte i =
      data.getD (i - offset) 0 := by
  cases hm : w.buf.mem with
  | none =>
    rw [hm, Option.getD_none, List.length_nil] at h
    omega
  | some m =>
    simp only [World.memByte, World.setMem, Option.map_some, Option.getD_some]
    exact getD_overwrite_of_mem hi hi'

theorem MemOnly.refl (first stop : Nat) (w : World Path) : MemOnly first stop w w :=
  ⟨rfl, Iff.rfl, rfl, fun _ _ => rfl⟩

theorem MemOnly.trans {first stop : Nat} (h : MemOnly first stop w w')
    (h' : MemOnly first stop w' w'') : MemOnly first stop w w'' where
  same := by
    rw [h'.same, h.same]
    rfl
  null := h'.null.trans h.null
  memLen := h'.memLen.trans h.memLen
  frame i hi := (h'.frame i hi).trans (h.frame i hi)

theorem MemOnly.mono {first stop first' stop' : Nat} (h : MemOnly first stop w w')
    (hf : first' ≤ first) (hs : stop ≤ stop') : MemOnly first' stop' w w' where
  same := h.same
  null := h.null
  memLen := h.memLen
  frame i hi := h.frame i (by omega)

theorem MemOnly.fileByte {first stop : Nat} (h : MemOnly first stop w w') (i : Nat) :
    w'.fileByte i = w.fileByte i := by
  rw [h.same, World.fileByte_setMem]

theorem MemOnly.page {first stop : Nat} (h : MemOnly first stop w w') (p : Nat) :
    w'.page p = w.page p := by
  rw [h.same, World.page_setMem]

theorem length_arriving_le (w : World Path) (f : Faults) (offset len : Nat) :
    (w.arriving f offset len).length ≤ len := by
  unfold World.arriving
  split
  · simp only [length_slice]
    omega
  · simp only [List.length_take, length_slice]
    omega

theorem wp_readFile (offset len : Nat) (hlen : 0 < len)
    (hfile : offset + len ≤ w.buf.fileBytes)
    (hmem : offset + len ≤ (w.buf.mem.getD []).length) :
    wp (readFile f offset offset len)
      (fun _ w' => (MemOnly offset (offset + len) w w' ∧
        ∀ i, offset ≤ i → i < offset + len → w'.memByte i = w.fileByte i) ∧
        ¬ReadFails f w offset (offset + len))
      (fun e w' => MemOnly offset (offset + len) w w' ∧
        e = .throws (.ioError .fileCantRead w.buf.file) ∧
        ReadFails f w offset (offset + len)) w := by
  have harr := length_arriving_le w f offset len
  have hstored : MemOnly offset (offset + len) w _ :=
    memOnly_store offset (w.arriving f offset len) (by omega) (by omega)
  simp only [readFile, wp_bind, wp_get, wp_require, Int.toNat_natCast]
  refine ⟨fun _ => ?_, fun h => absurd ⟨by omega, by exact_mod_cast hfile⟩ h⟩
  rw [wp_touch hmem, wp_store_mem, wp_ite]
  constructor
  · intro hbad
    rw [wp_throwIOError]
    refine ⟨hstored, rfl, ?_⟩
    rcases hbad with hfault | hshort
    · exact Or.inl hfault
    · by_cases hfault : (f.read offset).isSome
      · exact Or.inl hfault
      · right
        simp only [Option.not_isSome_iff_eq_none] at hfault
        simp only [World.arriving, hfault, length_slice] at hshort
        omega
  · intro hgood
    rw [wp_pure]
    simp only [not_or, Bool.not_eq_true, Option.isSome_eq_false_iff, Option.isNone_iff_eq_none,
      Decidable.not_not] at hgood
    obtain ⟨hfault, harrived⟩ := hgood
    refine ⟨⟨hstored, fun i hi hi' => ?_⟩, ?_⟩
    swap
    · simp only [World.arriving, hfault, length_slice] at harrived
      rintro (hsome | hshort)
      · rw [hfault] at hsome
        cases hsome
      · omega
    rw [memByte_store (by omega) hi (by omega)]
    simp only [World.arriving, hfault, getD_slice]
    rw [if_pos (by omega), World.fileByte, if_pos (by omega)]
    congr 1
    omega

theorem wp_memset (offset : Nat) (value : UInt8) (len : Nat) {E : Failure Path → World Path → Prop}
    (hmem : offset + len ≤ (w.buf.mem.getD []).length) :
    wp (memset offset value len)
      (fun _ w' => MemOnly offset (offset + len) w w' ∧
        ∀ i, offset ≤ i → i < offset + len → w'.memByte i = value) E w := by
  simp only [memset, wp_bind, wp_touch hmem, wp_store_mem]
  have hlen : offset + (List.replicate len value).length ≤ (w.buf.mem.getD []).length := by
    simpa using hmem
  refine ⟨memOnly_store _ _ hlen (by simp), fun i hi hi' => ?_⟩
  rw [memByte_store hlen hi (by simpa using hi')]
  exact List.getD_replicate _ (by omega)

theorem clamp_eq {v lo hi : Nat} (h : lo ≤ hi) : clamp v lo hi = max lo (min v hi) := by
  unfold clamp
  split
  · omega
  · split <;> omega

/-- What `fill` may leave when it fails. -/
def FillStopped (f : Faults) (w : World Path) (first stop : Nat) (e : Failure Path)
    (w' : World Path) : Prop :=
  MemOnly first stop w w' ∧ e = .throws (.ioError .fileCantRead w.buf.file) ∧
    FillFails f w first stop

theorem wp_fill_read {first stop covered : Nat} (hcov : max first (min w.buf.fileBytes stop) = covered)
    (h : first ≤ stop) (hmem : stop ≤ (w.buf.mem.getD []).length) :
    wp (if first < covered then readFile f first first ((covered : Int) - first) else pure ())
      (fun _ w' => (MemOnly first covered w w' ∧
        ∀ i, first ≤ i → i < covered → w'.memByte i = w.fileByte i) ∧ ¬FillFails f w first stop)
      (FillStopped f w first stop) w := by
  rw [wp_ite]
  constructor
  · intro hlt
    have hspec := wp_readFile (f := f) (w := w) first (covered - first) (by omega)
      (by omega) (by omega)
    have hcov' : covered = min w.buf.fileBytes stop := by omega
    rw [show ((covered - first : Nat) : Int) = (covered : Int) - first by omega,
      show first + (covered - first) = covered by omega, hcov'] at hspec
    rw [hcov'] at hlt ⊢
    apply hspec.mono
    · intro _ t ht
      exact ⟨ht.1, fun hf => ht.2 hf.2⟩
    · intro e t ht
      exact ⟨ht.1.mono (Nat.le_refl _) (Nat.min_le_right _ _), ht.2.1, hlt, ht.2.2⟩
  · intro hge
    refine ⟨⟨MemOnly.refl _ _ w, fun i hi hi' => by omega⟩, fun hf => ?_⟩
    have hlt := hf.1
    omega

theorem wp_fill_zero {E : Failure Path → World Path → Prop} {t : World Path}
    {first stop covered : Nat} (hfirst : first ≤ covered) (hstop : covered ≤ stop)
    (hfile : min w.buf.fileBytes stop ≤ covered) (hmem : stop ≤ (t.buf.mem.getD []).length)
    (ht : MemOnly first covered w t)
    (hread : ∀ i, first ≤ i → i < covered → t.memByte i = w.fileByte i) :
    wp (if covered < stop then memset covered 0 (stop - covered) else pure ())
      (fun _ w' => MemOnly first stop w w' ∧
        ∀ i, first ≤ i → i < stop → w'.memByte i = w.fileByte i) E t := by
  rw [wp_ite]
  constructor
  · intro hlt
    have hspec := wp_memset (w := t) covered 0 (stop - covered) (E := E) (by omega)
    rw [show covered + (stop - covered) = stop by omega] at hspec
    apply hspec.mono (fun _ u hu => ?_) (fun _ _ h => h)
    refine ⟨(ht.mono (Nat.le_refl _) hstop).trans (hu.1.mono hfirst (Nat.le_refl _)),
      fun i hi hi' => ?_⟩
    by_cases hic : i < covered
    · rw [hu.1.frame i (Or.inl hic), hread i hi hic]
    · rw [hu.2 i (by omega) hi', World.fileByte, if_neg (by omega)]
  · intro hge
    have heq : covered = stop := by omega
    subst heq
    exact ⟨ht, hread⟩

theorem wp_fill (first stop : Nat) (h : first ≤ stop)
    (hmem : stop ≤ (w.buf.mem.getD []).length) :
    wp (fill f first stop)
      (fun _ w' => (MemOnly first stop w w' ∧
        ∀ i, first ≤ i → i < stop → w'.memByte i = w.fileByte i) ∧ ¬FillFails f w first stop)
      (FillStopped f w first stop) w := by
  simp only [fill, wp_bind, wp_buffer, clamp_eq h]
  generalize hcov : max first (min w.buf.fileBytes stop) = covered
  rw [wp_ite_seq]
  apply (wp_fill_read hcov h hmem).mono
  · intro _ t ht
    obtain ⟨⟨hmemOnly, hread⟩, hgood⟩ := ht
    exact (wp_fill_zero (by omega) (by omega) (by omega) (by rwa [hmemOnly.memLen]) hmemOnly
      hread).mono (fun _ _ h => ⟨h, hgood⟩) (fun _ _ h => h)
  · exact fun _ _ h => h

theorem pageCount_zero : pageCount 0 = 0 := by
  decide

theorem lt_pageCount {p n : Nat} : p < pageCount n ↔ p * pageSize < n := by
  simp only [pageCount, pageSize]
  omega

theorem wp_setPages {state : Page} (first n : Nat) {E : Failure Path → World Path → Prop}
    (h : first + n ≤ w.buf.pages.length) :
    wp (forRange (setPage state) n first)
      (fun _ w' => w' = w.setPages w'.buf.pages ∧
        w'.buf.pages.length = w.buf.pages.length ∧
        ∀ q, w'.page q = if first ≤ q ∧ q < first + n then state else w.page q) E w := by
  apply wp_forRange fun p w' => w' = w.setPages w'.buf.pages ∧
    w'.buf.pages.length = w.buf.pages.length ∧
    ∀ q, w'.page q = if first ≤ q ∧ q < p then state else w.page q
  · refine ⟨rfl, rfl, fun q => ?_⟩
    rw [if_neg (by omega)]
  · rintro k t hk hk' ⟨hsame, hlen, hpage⟩
    simp only [setPage, wp_bind, wp_buffer, wp_require, wp_edit]
    refine ⟨fun hb => ?_, fun hb => absurd (by omega) hb⟩
    refine ⟨by rw [hsame]; rfl, by simpa using hlen, fun q => ?_⟩
    by_cases hq : q = k
    · subst hq
      simp [World.page, hb, hk]
    · have hne : k ≠ q := Ne.symm hq
      have hold := hpage q
      simp only [World.page, List.getD_eq_getElem?_getD, List.getElem?_set_ne hne] at hold ⊢
      rw [hold]
      simp only [show (q < k + 1) = (q < k) by apply propext; omega]

theorem Loaded.refl (w : World Path) : Loaded w w where
  same := rfl
  null := Iff.rfl
  memLen := rfl
  pagesLen := rfl
  page _ := Or.inl rfl
  kept _ _ := rfl
  filled i _ h h' := by rw [h] at h'; cases h'

theorem Loaded.fileByte (h : Loaded w w') (i : Nat) : w'.fileByte i = w.fileByte i := by
  rw [h.same, World.fileByte_setPages, World.fileByte_setMem]

theorem Loaded.bytes (h : Loaded w w') : w'.buf.bytes = w.buf.bytes := by
  rw [h.same]
  rfl

theorem Loaded.file (h : Loaded w w') : w'.buf.file = w.buf.file := by
  rw [h.same]
  rfl

theorem Loaded.readTrouble (h : Loaded w w') : ReadTrouble f w' ↔ ReadTrouble f w := by
  rw [h.same]
  rfl

theorem Loaded.trans (h : Loaded w w') (h' : Loaded w' w'') : Loaded w w'' where
  same := by
    rw [h'.same, h.same]
    rfl
  null := h'.null.trans h.null
  memLen := h'.memLen.trans h.memLen
  pagesLen := h'.pagesLen.trans h.pagesLen
  page p := by
    rcases h.page p with hp | ⟨hp, hp'⟩
    · rw [← hp]
      exact h'.page p
    · rcases h'.page p with hq | ⟨hq, _⟩
      · exact Or.inr ⟨hp, hq.trans hp'⟩
      · rw [hp'] at hq
        cases hq
  kept i hi := by
    have hi' : w'.page (i / pageSize) ≠ .absent := by
      rcases h.page (i / pageSize) with hp | ⟨hp, _⟩
      · rwa [hp]
      · exact absurd hp hi
    exact (h'.kept i hi').trans (h.kept i hi)
  filled i hlt hi hi'' := by
    rcases h.page (i / pageSize) with hp | ⟨_, hp⟩
    · rw [h'.filled i (by rw [h.bytes]; exact hlt) (hp.trans hi) hi'', h.fileByte]
    · rw [h'.kept i (by rw [hp]; decide), h.filled i hlt hi hp]

theorem Loaded.dirty (h : Loaded w w') (p : Nat) : w'.page p = .dirty ↔ w.page p = .dirty := by
  rcases h.page p with hp | ⟨hp, hp'⟩
  · rw [hp]
  · rw [hp, hp']
    simp

theorem count_eq_of_getD {xs ys : List Page} {s : Page}
    (hlen : xs.length = ys.length)
    (h : ∀ p, xs.getD p .absent = s ↔ ys.getD p .absent = s) : xs.count s = ys.count s := by
  induction xs generalizing ys with
  | nil =>
    cases ys with
    | nil => rfl
    | cons y ys => cases hlen
  | cons x xs ih =>
    cases ys with
    | nil => cases hlen
    | cons y ys =>
      have htail := ih (by simpa using hlen) fun p => by simpa using h (p + 1)
      have hhead : x = s ↔ y = s := by simpa using h 0
      simp only [List.count_cons, htail, beq_iff_eq, hhead]

theorem Loaded.counted (h : Loaded w w') (hw : Counted w.buf) : Counted w'.buf where
  count := by
    have hdirty : w'.buf.dirtyPages = w.buf.dirtyPages := by rw [h.same]; rfl
    rw [hdirty, hw.count, count_eq_of_getD h.pagesLen h.dirty]
  table := by rw [h.pagesLen, h.bytes]; exact hw.table
  memLen := by rw [h.memLen, h.bytes]; exact hw.memLen
  memNull := by rw [h.null, h.bytes]; exact hw.memNull

theorem Loaded.bookkept (h : Loaded w w') (hw : Bookkept w.buf) : Bookkept w'.buf where
  toCounted := h.counted hw.toCounted
  full := by rw [h.pagesLen, h.bytes]; exact hw.full

theorem MemOnly.loaded {first last : Nat} (hmem : MemOnly (first * pageSize)
      (min (last * pageSize) w.buf.bytes) w w')
    (habs : ∀ p, first ≤ p → p < last → w.page p = .absent) : Loaded w w' where
  same := by
    rw [hmem.same]
    rfl
  null := hmem.null
  memLen := hmem.memLen
  pagesLen := by rw [hmem.same]; rfl
  page p := Or.inl (hmem.page p)
  kept i hi := by
    apply hmem.frame
    by_contra hin
    apply hi
    apply habs <;> simp only [pageSize] at hin ⊢ <;> omega
  filled i _ h h' := by
    rw [hmem.page, h] at h'
    cases h'

theorem wp_fetch {first last : Nat} (hw : Counted w.buf) (hlt : first < last)
    (hlast : last ≤ w.buf.pages.length)
    (habs : ∀ p, first ≤ p → p < last → w.page p = .absent) :
    wp (fetch f first last)
      (fun _ w' => Loaded w w' ∧ ∀ p, first ≤ p → p < last → w'.page p = .clean)
      (fun e w' => Loaded w w' ∧ e = .throws (.ioError .fileCantRead w.buf.file) ∧
        ReadTrouble f w) w := by
  have hfirst : first * pageSize < w.buf.bytes :=
    lt_pageCount.1 (Nat.lt_of_lt_of_le (by omega) hw.table)
  have hle : first * pageSize ≤ last * pageSize := Nat.mul_le_mul_right _ (Nat.le_of_lt hlt)
  simp only [fetch, wp_bind, wp_buffer]
  apply (wp_fill (f := f) (w := w) (first * pageSize) (min (last * pageSize) w.buf.bytes) (by omega) (by rw [hw.memLen]; omega)).mono
    (fun _ t ht => ?_) fun e t ht => ⟨ht.1.loaded habs, ht.2.1, ht.2.2.readTrouble⟩
  obtain ⟨⟨hmem, hfill⟩, _⟩ := ht
  have hlen : t.buf.pages.length = w.buf.pages.length := by rw [hmem.same]; rfl
  apply (wp_setPages (w := t) first (last - first) (by omega)).mono
    (fun _ u hu => ?_) (fun _ _ h => h)
  obtain ⟨hsame, hulen, hpage⟩ := hu
  rw [show first + (last - first) = last by omega] at hpage
  have hbytes : u.memByte = t.memByte := by
    funext i
    rw [hsame, World.memByte_setPages]
  have hload := hmem.loaded habs
  refine ⟨?_, fun p hp hp' => by rw [hpage, if_pos ⟨hp, hp'⟩]⟩
  constructor
  · rw [hsame, hmem.same]
    rfl
  · rw [hsame]
    exact hmem.null
  · rw [hsame]
    exact hmem.memLen
  · rw [hulen, hlen]
  · intro p
    rw [hpage]
    split
    · exact Or.inr ⟨habs p (by omega) (by omega), rfl⟩
    · exact hload.page p
  · intro i hi
    rw [hbytes]
    exact hload.kept i hi
  · intro i hib hi hi'
    rw [hpage] at hi'
    have hin : first ≤ i / pageSize ∧ i / pageSize < last := by
      by_contra hout
      rw [if_neg hout, hmem.page, hi] at hi'
      cases hi'
    rw [hbytes]
    simp only [pageSize] at hin hfill ⊢
    exact hfill i (by omega) (by omega)

/-- The ways in which loading can stop. -/
def LoadFailure (f : Faults) (w : World Path) (e : Failure Path) : Prop :=
  (e = .throws (.ioError .fileCantRead w.buf.file) ∧ ReadTrouble f w) ∨
    (e = .outOfBounds ∧ w.buf.pages.length < pageCount w.buf.bytes)

theorem Loaded.loadFailure (h : Loaded w w') {e : Failure Path} :
    LoadFailure f w' e ↔ LoadFailure f w e := by
  rw [LoadFailure, LoadFailure, h.readTrouble, h.file, h.pagesLen, h.bytes]

theorem wp_load {offset len : Nat} (hw : Counted w.buf) (h : offset + len ≤ w.buf.bytes) :
    wp (load f offset len)
      (fun _ w' => Loaded w w' ∧
        ∀ i, offset ≤ i → i < offset + len → w'.page (i / pageSize) ≠ .absent)
      (fun e w' => Loaded w w' ∧ LoadFailure f w e) w := by
  rw [load, wp_ite]
  constructor
  · intro hlen
    have hlo : offset / pageSize ≤ (offset + len - 1) / pageSize :=
      Nat.div_le_div_right (by omega)
    refine (wp_forRuns (E := fun e w' => Loaded w w' ∧ LoadFailure f w e)
      (fun p t => Loaded w t ∧ ∀ q, offset / pageSize ≤ q → q < p → t.page q ≠ .absent)
      ?_ ?_ ?_ _ _ w (by omega) (Nat.le_refl _) ⟨Loaded.refl w, fun q _ _ => by omega⟩).mono
      (fun _ t ht => ⟨ht.1, fun i hi hi' => ?_⟩) (fun _ _ h => h)
    · rintro p t ⟨ht, hdone⟩ _ hp
      refine ⟨ht, fun q hq hq' => ?_⟩
      rcases Nat.eq_or_lt_of_le (Nat.le_of_lt_succ hq') with rfl | hlt
      · exact (isPage_eq_false hp).2
      · exact hdone q hq hlt
    · rintro p q t ⟨ht, hdone⟩ hpq hq hrun _
      have hq1 := isPage_eq_true (hrun (q - 1) (by omega) (by omega))
      refine (wp_fetch (ht.counted hw) hpq (by omega)
        fun k hk hk' => (isPage_eq_true (hrun k hk hk')).2).mono
        (fun _ u hu => ⟨ht.trans hu.1, fun k hk hk' => ?_⟩)
        (fun e u hu => ⟨ht.trans hu.1, ?_⟩)
      · by_cases hkp : k < p
        · rcases hu.1.page k with heq | ⟨habs, _⟩
          · rw [heq]
            exact hdone k hk hkp
          · exact absurd habs (hdone k hk hkp)
        · rw [hu.2 k (by omega) hk']
          decide
      · exact ht.loadFailure.1 (Or.inl hu.2)
    · rintro p k t e ⟨ht, _⟩ _ hk herr
      obtain ⟨hge, rfl⟩ := isPage_eq_error.1 herr
      refine ⟨ht, Or.inr ⟨rfl, ?_⟩⟩
      rw [← ht.pagesLen]
      apply Nat.lt_of_le_of_lt hge
      rw [lt_pageCount]
      simp only [pageSize] at hk ⊢
      omega
    · refine ht.2 (i / pageSize) (Nat.div_le_div_right hi) ?_
      simp only [pageSize]
      omega
  · intro hlen
    exact ⟨Loaded.refl w, fun i hi hi' => by omega⟩

end Specs

end Utlib.BackedBuffer
