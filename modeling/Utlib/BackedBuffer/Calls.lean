import Utlib.BackedBuffer.Allocating

namespace Utlib.BackedBuffer

open Program Sequence

variable {Path : Type}

section Conditions

/-- The file is attached but its length is not: the query in `init` fails. -/
def SizeUnknown (f : Faults) : Op Path → Prop
  | .initFile _ _ _ => f.fileSize = true
  | _ => False

/-- A `resize` fails between getting the memory and completing a clean last page. -/
def Spoils (f : Faults) (w : World Path) : Op Path → Prop
  | .resize size => Torn f size w ∧ w.buf.bytes < size ∧ w.buf.bytes % pageSize ≠ 0 ∧
      w.page (w.buf.bytes / pageSize) = .clean
  | _ => False

/-- The page table is allocated, and that fails. -/
def TableFails (f : Faults) (w : World Path) : Op Path → Prop
  | .init size => InitShort f size
  | .initFile size path _ => f.probe = false ∧ (w.disk path).isSome ∧ f.openIn = false ∧
      InitShort f size
  | .resize size => f.storage = false ∧ TableShort f size w
  | _ => False

end Conditions

/-- What one call keeps, whether it returns or throws. -/
structure Preserved (f : Faults) (op : Op Path) (w w' : World Path) : Prop where
  steady : Steady w'
  footprint : Footprint w.buf.file w.disk w'.disk
  file : w'.buf.file = w.buf.file ∨ w'.buf.file = none ∨
    ∃ size path readOnly, op = .initFile size path readOnly ∧ w'.buf.file = some path
  closed : (∀ o, f.write o = false) → w.buf.out.openOn = none → w'.buf.out.openOn = none
  attached : ¬SizeUnknown f op → Attached w → Attached w'
  coherent : ¬Spoils f w op → Attached w → w.Coherent → w'.Coherent

section

variable {f : Faults} {op : Op Path} {w w' : World Path}

theorem SameFile.steady (h : SameFile w w') (hw : Steady w) (hc : Counted w'.buf) :
    Steady w' where
  counted := hc
  idle := by
    refine ⟨?_, ?_, ?_⟩ <;> simp only [h.out, h.file]
    exacts [hw.idle.failed, hw.idle.pending, hw.idle.target]
  onDisk := by
    intro path hpath
    rw [h.disk]
    apply hw.onDisk
    rw [← h.file, hpath]

theorem SameFile.preserved (h : SameFile w w') (hw : Steady w) (hc : Counted w'.buf)
    (hco : ¬Spoils f w op → Attached w → w.Coherent → w'.Coherent) : Preserved f op w w' where
  steady := h.steady hw hc
  footprint := Footprint.of_eq h.disk
  file := Or.inl h.file
  closed _ hclosed := by rw [h.out, hclosed]
  attached _ := h.attached
  coherent := hco

theorem Loaded.preserved (h : Loaded w w') (hw : Steady w) : Preserved f op w w' :=
  h.sameFile.preserved hw (h.counted hw.counted) fun _ _ => h.coherent

theorem Written.preserved {offset : Nat} {data : List UInt8} (h : Written offset data w w')
    (hw : Steady w) : Preserved f op w w' :=
  h.sameFile.preserved hw h.counted fun _ _ => h.coherent

theorem Resized.preserved {size : Nat} (h : Resized size w w') (hw : Steady w)
    (hdone : Torn f size w ∨ ∀ i, w.buf.bytes ≤ i → i < size →
      w.page (i / pageSize) ≠ .absent → w'.memByte i = w.fileByte i) :
    Preserved f (.resize size) w w' := by
  apply h.sameFile.preserved hw h.counted
  intro hspoils _ hco hfile i hi hclean
  rw [h.bytes] at hi
  rw [h.sameFile.file] at hfile
  have hpage : w.page (i / pageSize) = .clean := by
    rw [h.page] at hclean
    split at hclean
    · exact hclean
    · cases hclean
  rw [h.sameFile.fileByte]
  by_cases hold : i < w.buf.bytes
  · rw [h.memByte i hold hi]
    exact hco hfile i hold hpage
  · have hge : w.buf.bytes ≤ i := by omega
    have hpresent : w.page (i / pageSize) ≠ .absent := by rw [hpage]; decide
    rcases hdone with htorn | hdone
    · have hlast := last_of_present hw.counted hge hpresent
      exact absurd ⟨htorn, by omega, hlast.2, by rw [← hlast.1, hpage]⟩ hspoils
    · exact hdone i hge hi hpresent

theorem LoadFailure.throws {e : Failure Path} (h : LoadFailure f w e) (hw : Bookkept w.buf) :
    ∃ x, e = .throws x := by
  rcases h with ⟨rfl, _⟩ | ⟨_, hlt⟩
  · exact ⟨_, rfl⟩
  · rw [hw.full] at hlt
    exact absurd hlt (Nat.lt_irrefl _)

theorem Written.bookkept {offset : Nat} {data : List UInt8} (h : Written offset data w w')
    (hw : Bookkept w.buf) : Bookkept w'.buf where
  toCounted := h.counted
  full := by rw [h.pagesLen, h.bytes, hw.full]

theorem Loaded.detached {t : World Path} (h : Loaded w t) (hw : Steady w)
    (hbuf : w'.buf = { t.buf with
      file := none
      inStream := none
      out := { failed := w'.buf.out.failed }
      fileBytes := 0 })
    (hfoot : Footprint w.buf.file w.disk w'.disk) : Preserved f .detach w w' := by
  have hcounted := h.counted hw.counted
  have hnone : w'.buf.file = none := by rw [hbuf]
  constructor
  · constructor
    · rw [hbuf]
      exact ⟨hcounted.count, hcounted.table, hcounted.memLen, hcounted.memNull⟩
    · rw [hbuf]
      exact ⟨nofun, fun _ => rfl, Or.inl rfl⟩
    · intro path hpath
      rw [hnone] at hpath
      cases hpath
  · exact hfoot
  · exact Or.inr (Or.inl hnone)
  · intro _ _
    rw [hbuf]
  · intro _ _
    refine ⟨by rw [hbuf], ?_⟩
    rw [World.content, hnone, hbuf]
    rfl
  · intro _ _ _ hsome
    rw [hnone] at hsome
    cases hsome

theorem Loaded.bookkept_detached {t : World Path} (h : Loaded w t) (hw : Bookkept w.buf)
    (hbuf : w'.buf = { t.buf with
      file := none
      inStream := none
      out := { failed := w'.buf.out.failed }
      fileBytes := 0 }) : Bookkept w'.buf := by
  have hbook := h.bookkept hw
  rw [hbuf]
  exact ⟨⟨hbook.count, hbook.table, hbook.memLen, hbook.memNull⟩, hbook.full⟩

theorem Fresh.coherent (h : Fresh w.buf) : w.Coherent := by
  intro _ i _ hclean
  rw [World.page, h.absent] at hclean
  cases hclean

theorem Blank.attached (h : Blank w.buf) : Attached w where
  inStream := by rw [h.inStream, h.file]
  known := by
    rw [World.content, h.file, h.fileBytes]
    rfl

/-- A buffer with nothing loaded, and either no file or one that is there. -/
theorem Fresh.preserved (h : Fresh w'.buf) (hfoot : Footprint w.buf.file w.disk w'.disk)
    (hdisk : OnDisk w')
    (hfile : w'.buf.file = w.buf.file ∨ w'.buf.file = none ∨
      ∃ size path readOnly, op = .initFile size path readOnly ∧ w'.buf.file = some path)
    (hatt : ¬SizeUnknown f op → Attached w') : Preserved f op w w' where
  steady := ⟨h.counted, h.idle, hdisk⟩
  footprint := hfoot
  file := hfile
  closed _ _ := h.closed
  attached hsize _ := hatt hsize
  coherent _ _ _ := h.coherent

theorem Blank.preserved (h : Blank w'.buf) (hfoot : Footprint w.buf.file w.disk w'.disk) :
    Preserved f op w w' := by
  apply h.toFresh.preserved hfoot
  · intro path hpath
    rw [h.file] at hpath
    cases hpath
  · exact Or.inr (Or.inl h.file)
  · exact fun _ => h.attached

def Returned (f : Faults) (op : Op Path) (w w' : World Path) : Prop :=
  Preserved f op w w' ∧ (Bookkept w.buf → Bookkept w'.buf ∧ ¬TableFails f w op)

def Threw (f : Faults) (op : Op Path) (w : World Path) (e : Failure Path) (w' : World Path) :
    Prop :=
  Preserved f op w w' ∧ (Bookkept w.buf → (∃ x, e = .throws x) ∧
    (Bookkept w'.buf ↔ ¬TableFails f w op))

theorem Loaded.threw {e : Failure Path} (h : Loaded w w') (hw : Steady w)
    (hfail : LoadFailure f w e) (hop : ¬TableFails f w op) : Threw f op w e w' :=
  ⟨h.preserved hw, fun hb => ⟨hfail.throws hb, fun _ => hop, fun _ => h.bookkept hb⟩⟩

theorem TableShort.ne_bytes {size : Nat} (h : TableShort f size w) (hb : Bookkept w.buf) :
    size ≠ w.buf.bytes := by
  rintro rfl
  have hlt := h.2
  rw [hb.full] at hlt
  exact Nat.lt_irrefl _ hlt

end

section

variable [DecidableEq Path] {f : Faults} {op : Op Path} {w w' : World Path}

theorem content_modifyFile {g : List UInt8 → List UInt8} (hfile : w'.buf.file = w.buf.file)
    (hdisk : w'.disk = modifyFile w.buf.file g w.disk) {path : Path}
    (hpath : w.buf.file = some path) (hw : OnDisk w) : w'.content = g w.content := by
  obtain ⟨c, hc⟩ := Option.isSome_iff_exists.1 (hw path hpath)
  simp only [World.content, hfile, hdisk, hpath, Option.bind_some, modifyFile_self, hc,
    Option.map_some, Option.getD_some]

theorem Halted.counted (h : Halted w f w') (hw : Counted w.buf) : Counted w'.buf := by
  rw [h.same]
  exact ⟨hw.count, hw.table, hw.memLen, hw.memNull⟩

theorem Halted.bytes (h : Halted w f w') : w'.buf.bytes = w.buf.bytes := by
  rw [h.same]

theorem Halted.file (h : Halted w f w') : w'.buf.file = w.buf.file := by
  rw [h.same]

theorem Halted.memByte (h : Halted w f w') (i : Nat) : w'.memByte i = w.memByte i := by
  rw [h.same]
  rfl

theorem Halted.page (h : Halted w f w') (p : Nat) : w'.page p = w.page p := by
  rw [h.same]
  rfl

theorem Halted.attached (h : Halted w f w') (hw : OnDisk w) {path : Path}
    (hpath : w.buf.file = some path) (hatt : Attached w) :
    Attached w' ∧ ∀ i, ¬Dirt w i → w'.fileByte i = w.fileByte i := by
  obtain ⟨g, hdisk, hg⟩ := h.disk
  have hcontent := content_modifyFile h.file hdisk hpath hw
  have hatt' : Attached w' := by
    refine ⟨?_, by rw [hcontent, (hg _ hatt.known).1]⟩
    rw [h.same]
    exact hatt.inStream
  refine ⟨hatt', fun i hi => ?_⟩
  rw [hatt'.fileByte, hatt.fileByte, hcontent, (hg _ hatt.known).2 i hi]

theorem Halted.contents (h : Halted w f w') (hw : OnDisk w) {path : Path}
    (hpath : w.buf.file = some path) (hatt : Attached w) : w'.contents = w.contents := by
  apply contents_eq h.bytes
  intro i _
  rw [World.byteAt, World.byteAt, h.page, h.memByte]
  split
  · rename_i habsent
    apply (h.attached hw hpath hatt).2
    rintro ⟨_, hdirty⟩
    rw [habsent] at hdirty
    cases hdirty
  · rfl

theorem Halted.preserved (h : Halted w f w') (hw : Steady w) {path : Path}
    (hpath : w.buf.file = some path) : Preserved f .persist w w' := by
  obtain ⟨g, hdisk, _⟩ := h.disk
  have hfoot := Footprint.of_modifyFile hdisk
  constructor
  · exact ⟨h.counted hw.counted, h.idle, hfoot.onDisk hw.onDisk h.file⟩
  · exact hfoot
  · exact Or.inl h.file
  · intro hwrite hclosed
    have hnot : ¬Stuck w f := by
      rintro (hopen | ⟨_, _, p, _, hbad⟩)
      · rw [hclosed] at hopen
        cases hopen
      · rw [hwrite] at hbad
        cases hbad
    rwa [← h.stuck, Option.not_isSome_iff_eq_none] at hnot
  · exact fun _ hatt => (h.attached hw.onDisk hpath hatt).1
  · intro _ hatt hco hsome i hi hclean
    rw [h.file] at hsome
    rw [h.bytes] at hi
    rw [h.page] at hclean
    rw [h.memByte, (h.attached hw.onDisk hpath hatt).2, hco hsome i hi hclean]
    rintro ⟨_, hdirty⟩
    rw [hclean] at hdirty
    cases hdirty

section Persisted

variable {rs : List (Nat × Nat)} {path : Path}

theorem page_persisted (p : Nat) : (w.persisted f rs).page p = markClean (w.page p) :=
  List.getD_map w.buf.pages .absent markClean

theorem disk_persisted : (w.persisted f rs).disk =
    modifyFile w.buf.file (settle 0 (rs.map (runWrite w)) ∘ grown w) w.disk :=
  modifyFile_comp _ _ _ _

theorem content_persisted (hpath : w.buf.file = some path) (hw : OnDisk w) :
    (w.persisted f rs).content = settle 0 (rs.map (runWrite w)) (grown w w.content) := by
  have hfile : (w.persisted f rs).buf.file = w.buf.file := rfl
  exact content_modifyFile hfile disk_persisted hpath hw

theorem length_content_persisted (hw : Steady w) (hpath : w.buf.file = some path)
    (hatt : Attached w) (hruns : RunsUpTo w w.buf.pages.length rs) :
    (w.persisted f rs).content.length = max w.buf.fileBytes w.buf.bytes := by
  have hlen := length_grown hatt.known
  rw [content_persisted hpath hw.onDisk, length_settle, hlen]
  rw [hlen]
  exact hruns.writes_inside hw.counted (Nat.le_refl _) (Nat.le_max_right _ _)

theorem getD_content_persisted (hw : Steady w) (hpath : w.buf.file = some path)
    (hatt : Attached w) (hruns : RunsUpTo w w.buf.pages.length rs) (i : Nat) :
    (w.persisted f rs).content.getD i 0 =
      if i < w.buf.bytes ∧ w.page (i / pageSize) = .dirty then w.memByte i
      else w.content.getD i 0 := by
  rw [content_persisted hpath hw.onDisk, getD_settle_runs hruns hw.counted,
    getD_grown hatt.known]

theorem Attached.persisted (hatt : Attached w) (hw : Steady w) (hpath : w.buf.file = some path)
    (hruns : RunsUpTo w w.buf.pages.length rs) : Attached (w.persisted f rs) where
  inStream := hatt.inStream
  known := length_content_persisted hw hpath hatt hruns

theorem counted_persisted (hw : Counted w.buf) : Counted (w.persisted f rs).buf where
  count := by
    have hnone : (w.buf.pages.map markClean).count .dirty = 0 := by
      rw [List.count_eq_zero]
      intro hmem
      obtain ⟨s, _, hs⟩ := List.mem_map.1 hmem
      cases s <;> cases hs
    exact congrArg Nat.cast hnone.symm
  table := by
    rw [World.persisted, List.length_map]
    exact hw.table
  memLen := hw.memLen
  memNull := hw.memNull

theorem preserved_persisted (hw : Steady w) (hpath : w.buf.file = some path)
    (hruns : RunsUpTo w w.buf.pages.length rs) :
    Preserved f .persist w (w.persisted f rs) where
  steady := ⟨counted_persisted hw.counted, ⟨nofun, fun _ => rfl, Or.inl rfl⟩,
    (Footprint.of_modifyFile disk_persisted).onDisk hw.onDisk rfl⟩
  footprint := Footprint.of_modifyFile disk_persisted
  file := Or.inl rfl
  closed _ _ := rfl
  attached _ hatt := hatt.persisted hw hpath hruns
  coherent _ hatt hco := by
    intro hsome i hi hclean
    have hmem : (w.persisted f rs).memByte i = w.memByte i := rfl
    rw [(hatt.persisted hw hpath hruns).fileByte, getD_content_persisted hw hpath hatt hruns, hmem]
    split
    · rfl
    · rename_i hnot
      have hpage : w.page (i / pageSize) = .clean := by
        rw [page_persisted] at hclean
        cases hp : w.page (i / pageSize) with
        | absent => rw [hp] at hclean; cases hclean
        | clean => rfl
        | dirty => exact absurd ⟨hi, hp⟩ hnot
      rw [hco hsome i hi hpage, hatt.fileByte]

end Persisted

theorem Halted.bookkept (h : Halted w f w') (hw : Bookkept w.buf) : Bookkept w'.buf where
  toCounted := h.counted hw.toCounted
  full := by
    rw [h.same]
    exact hw.full

theorem bookkept_persisted {rs : List (Nat × Nat)} (hw : Bookkept w.buf) :
    Bookkept (w.persisted f rs).buf where
  toCounted := counted_persisted hw.toCounted
  full := by
    rw [World.persisted, List.length_map]
    exact hw.full

theorem wp_call_init (hw : Steady w) (size : Nat) :
    wp (call f (.init size)) (fun _ => Returned f (.init size) w) (Threw f (.init size) w) w := by
  rw [call, wp_bind]
  apply (wp_init hw.idle).mono
  · rintro _ t ⟨⟨hblank, hfoot, _⟩, _, hbook, hgood⟩
    exact ⟨hblank.preserved hfoot, fun _ => ⟨hbook, hgood⟩⟩
  · rintro e t ⟨⟨hblank, hfoot, _⟩, rfl, hbook⟩
    exact ⟨hblank.preserved hfoot, fun _ => ⟨⟨_, rfl⟩, hbook⟩⟩

theorem wp_call_initFile (hw : Steady w) (size : Nat) (path : Path) (readOnly : Bool) :
    wp (call f (.initFile size path readOnly)) (fun _ => Returned f (.initFile size path readOnly) w)
      (Threw f (.initFile size path readOnly) w) w := by
  rw [call, wp_bind]
  apply (wp_initFile hw.idle).mono
  · rintro _ t ⟨hfresh, hfoot, _, _, hfile, hin, hthere, hbytes, hbook, hgood⟩
    have hdisk : OnDisk t := by
      intro p hp
      rw [hfile, Option.some_inj] at hp
      rwa [← hp]
    refine ⟨hfresh.preserved hfoot hdisk (Or.inr (Or.inr ⟨_, _, _, rfl, hfile⟩)) fun _ => ?_,
      fun _ => ⟨hbook, fun h => hgood h.2.2.2⟩⟩
    refine ⟨by rw [hin, hfile], ?_⟩
    rw [World.content, hfile, hbytes]
    rfl
  · rintro e t ⟨hthrow, hcase, hbook⟩
    refine ⟨?_, fun hb => ⟨hthrow, hbook hb⟩⟩
    rcases hcase with rfl | ⟨hfresh, hfoot, hblank | ⟨hfile, hin, hthere, hsize⟩⟩
    · exact (Loaded.refl t).preserved hw
    · exact hblank.preserved hfoot
    · apply hfresh.preserved hfoot
      · intro p hp
        rw [hfile, Option.some_inj] at hp
        rwa [← hp]
      · exact Or.inr (Or.inr ⟨_, _, _, rfl, hfile⟩)
      · exact fun hknown => absurd hsize hknown

theorem wp_call_resize (hw : Steady w) (size : Nat) :
    wp (call f (.resize size)) (fun _ => Returned f (.resize size) w)
      (Threw f (.resize size) w) w := by
  rw [call, wp_bind]
  apply (wp_resize hw.counted).mono
  · rintro _ t ⟨hgood, hcase⟩
    have hnot : Bookkept w.buf → ¬TableFails f w (.resize size) := fun hb h =>
      hgood ⟨h.2.ne_bytes hb, h.1, Or.inl h.2⟩
    obtain ⟨_, rfl⟩ | ⟨_, hshape, hlen, hdone⟩ := hcase
    · exact ⟨(Loaded.refl t).preserved hw, fun hb => ⟨hb, hnot hb⟩⟩
    · exact ⟨hshape.preserved hw (Or.inr hdone), fun hb =>
        ⟨⟨hshape.counted, by rw [hlen, hshape.bytes]⟩, hnot hb⟩⟩
  · rintro e t ⟨hthrow, ⟨_, hfail, rfl⟩ | ⟨htorn, hshape, htable⟩⟩
    · refine ⟨(Loaded.refl t).preserved hw, fun hb => ⟨hthrow, fun _ h => ?_, fun _ => hb⟩⟩
      rw [h.1] at hfail
      cases hfail
    · refine ⟨hshape.preserved hw (Or.inl htorn), fun hb => ⟨hthrow, fun hb' h => ?_, fun h => ?_⟩⟩
      · rcases htable with ⟨hshort, hpages⟩ | ⟨hshort, _⟩
        · have hfull := hb'.full
          rw [hpages, hshape.bytes] at hfull
          exact absurd hshort.2 (by rw [hfull]; exact Nat.lt_irrefl _)
        · exact hshort h.2
      · rcases htable with ⟨hshort, _⟩ | ⟨_, hlen⟩
        · exact absurd ⟨htorn.2.1, hshort⟩ h
        · exact ⟨hshape.counted, by rw [hlen, hshape.bytes]⟩

theorem wp_call_detach (hw : Steady w) :
    wp (call f .detach) (fun _ => Returned f .detach w) (Threw f .detach w) w := by
  rw [call, wp_bind]
  apply (wp_detach hw.counted hw.idle).mono
  · rintro _ t ⟨u, hload, _, hbuf, hfoot, _⟩
    exact ⟨hload.detached hw hbuf hfoot, fun hb => ⟨hload.bookkept_detached hb hbuf, not_false⟩⟩
  · rintro e t ⟨hload, hfail⟩
    exact hload.threw hw hfail not_false

theorem wp_call_dealloc (hw : Steady w) :
    wp (call f .dealloc) (fun _ => Returned f .dealloc w) (Threw f .dealloc w) w := by
  rw [call, wp_bind]
  apply (wp_dealloc hw.idle).mono
  · rintro _ t ⟨hbuf, hfoot, _⟩
    have hblank : Blank t.buf := by
      rw [hbuf]
      exact blank_empty _
    refine ⟨hblank.preserved hfoot, fun _ => ⟨?_, not_false⟩⟩
    rw [hbuf]
    exact bookkept_empty _
  · exact fun _ _ h => h

theorem wp_call_byteView (hw : Steady w) {offset len : Nat} (h : offset + len ≤ w.buf.bytes) :
    wp (call f (.byteView offset len)) (fun _ => Returned f (.byteView offset len) w)
      (Threw f (.byteView offset len) w) w := by
  rw [call]
  apply (wp_byteView hw.counted h).mono
  · rintro _ t ⟨hload, _⟩
    exact ⟨hload.preserved hw, fun hb => ⟨hload.bookkept hb, not_false⟩⟩
  · rintro e t ⟨hload, hfail⟩
    exact hload.threw hw hfail not_false

theorem wp_call_write (hw : Steady w) {offset : Nat} {data : List UInt8}
    (h : offset + data.length ≤ w.buf.bytes) :
    wp (call f (.write offset data)) (fun _ => Returned f (.write offset data) w)
      (Threw f (.write offset data) w) w := by
  rw [call, wp_bind]
  apply (wp_write hw.counted h).mono
  · rintro _ t hwritten
    exact ⟨hwritten.preserved hw, fun hb => ⟨hwritten.bookkept hb, not_false⟩⟩
  · rintro e t ⟨hload, hfail⟩
    exact hload.threw hw hfail not_false

theorem wp_call_persist (hw : Steady w) :
    wp (call f .persist) (fun _ => Returned f .persist w) (Threw f .persist w) w := by
  rw [call, wp_bind]
  by_cases hidle : w.buf.readOnly = true ∨ w.buf.file = none ∨ w.buf.dirtyPages = 0
  · rw [wp_persist_idle hidle, wp_pure]
    exact ⟨(Loaded.refl w).preserved hw, fun hb => ⟨hb, not_false⟩⟩
  · obtain ⟨hwritable, ⟨path, hpath⟩, hdirty⟩ := busy_cases hidle
    apply (wp_persist hw hwritable hpath hdirty).mono
    · rintro _ t ⟨_, rs, hruns, rfl⟩
      exact ⟨preserved_persisted hw hpath hruns, fun hb => ⟨bookkept_persisted hb, not_false⟩⟩
    · rintro e t ⟨rfl, hhalt⟩
      exact ⟨hhalt.preserved hw hpath, fun hb => ⟨⟨_, rfl⟩, fun _ => not_false,
        fun _ => hhalt.bookkept hb⟩⟩

theorem wp_call_setReadOnly (hw : Steady w) (value : Bool) :
    wp (call f (.setReadOnly value)) (fun _ => Returned f (.setReadOnly value) w)
      (Threw f (.setReadOnly value) w) w := by
  have hcounted := hw.counted
  rw [call, wp_bind, wp_edit, wp_pure]
  refine ⟨⟨⟨?_, ?_, hw.onDisk⟩, Footprint.of_eq rfl, Or.inl rfl, fun _ h => h, fun _ h => ?_,
    fun _ _ h => h⟩, fun hb => ⟨⟨?_, hb.full⟩, not_false⟩⟩
  · exact ⟨hcounted.count, hcounted.table, hcounted.memLen, hcounted.memNull⟩
  · exact ⟨hw.idle.failed, hw.idle.pending, hw.idle.target⟩
  · exact ⟨h.inStream, h.known⟩
  · exact ⟨hcounted.count, hcounted.table, hcounted.memLen, hcounted.memNull⟩

/-- One call, whatever goes wrong in it. -/
theorem wp_call (hw : Steady w) (hpre : op.pre w.buf) :
    wp (call f op) (fun _ => Returned f op w) (Threw f op w) w := by
  cases op with
  | init size => exact wp_call_init hw size
  | initFile size path readOnly => exact wp_call_initFile hw size path readOnly
  | resize size => exact wp_call_resize hw size
  | detach => exact wp_call_detach hw
  | dealloc => exact wp_call_dealloc hw
  | byteView offset len => exact wp_call_byteView hw hpre
  | write offset data => exact wp_call_write hw hpre
  | persist => exact wp_call_persist hw
  | setReadOnly value => exact wp_call_setReadOnly hw value

end

end Utlib.BackedBuffer
