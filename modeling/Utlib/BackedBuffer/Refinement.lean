import Utlib.BackedBuffer.Durability

namespace Utlib.BackedBuffer

open Program Sequence

variable {Path : Type}

section Contents

variable {f : Faults} {size : Nat} {w w' : World Path}

theorem Resized.contents (h : Resized size w w')
    (hdone : ∀ i, w.buf.bytes ≤ i → i < size → w.page (i / pageSize) ≠ .absent →
      w'.memByte i = w.fileByte i) :
    w'.contents = w.contents.take size ++
      (List.range (size - w.buf.bytes)).map fun i => w.fileByte (w.buf.bytes + i) := by
  have hbyte : ∀ i, i < size →
      w'.byteAt i = if i < w.buf.bytes then w.byteAt i else w.fileByte i := by
    intro i hi
    have hin : i / pageSize < pageCount size := by
      rw [lt_pageCount]
      simp only [pageSize]
      omega
    rw [World.byteAt, h.page, if_pos hin, h.sameFile.fileByte]
    by_cases hold : i < w.buf.bytes
    · rw [if_pos hold, h.memByte i hold hi]
      rfl
    · rw [if_neg hold]
      split
      · rfl
      · rename_i hpresent
        exact hdone i (by omega) hi hpresent
  apply ext_getD (z := 0)
  · simp only [length_contents, h.bytes, List.length_append, List.length_take, List.length_map,
      List.length_range]
    omega
  · intro i hi
    rw [length_contents, h.bytes] at hi
    rw [getD_contents, h.bytes, if_pos hi, hbyte i hi]
    by_cases hold : i < w.buf.bytes
    · have hleft : i < (w.contents.take size).length := by
        rw [List.length_take, length_contents]
        omega
      rw [if_pos hold, List.getD_append _ _ _ _ hleft, getD_take, if_pos hi, getD_contents,
        if_pos hold]
    · have hlen : (w.contents.take size).length = w.buf.bytes := by
        rw [List.length_take, length_contents]
        omega
      rw [if_neg hold, List.getD_append_right _ _ _ _ (by omega), hlen, getD_map_range,
        if_pos (by omega)]
      congr 1
      omega

theorem Loaded.contents_detached {t : World Path} (h : Loaded w t)
    (hpresent : ∀ i, i < w.buf.bytes → t.page (i / pageSize) ≠ .absent)
    (hpages : w'.buf.pages = t.buf.pages) (hmem : w'.buf.mem = t.buf.mem)
    (hbytes : w'.buf.bytes = t.buf.bytes) : w'.contents = w.contents := by
  have hbytes' : w'.buf.bytes = w.buf.bytes := hbytes.trans h.bytes
  apply contents_eq hbytes'
  intro i hi
  have hpage : w'.page (i / pageSize) = t.page (i / pageSize) := by
    rw [World.page, World.page, hpages]
  rw [← h.byteAt hi, byteAt_of_present (hpresent i hi),
    byteAt_of_present (by rw [hpage]; exact hpresent i hi), World.memByte, World.memByte, hmem]

theorem contents_persisted [DecidableEq Path] {rs : List (Nat × Nat)} {path : Path}
    (hw : Steady w) (hpath : w.buf.file = some path) (hatt : Attached w)
    (hruns : RunsUpTo w w.buf.pages.length rs) :
    (w.persisted f rs).contents = w.contents := by
  have hbytes : (w.persisted f rs).buf.bytes = w.buf.bytes := rfl
  apply contents_eq hbytes
  intro i _
  have hmem : (w.persisted f rs).memByte i = w.memByte i := rfl
  rw [World.byteAt, World.byteAt, page_persisted, hmem,
    (hatt.persisted hw hpath hruns).fileByte, getD_content_persisted hw hpath hatt hruns,
    ← hatt.fileByte]
  cases hp : w.page (i / pageSize) <;> simp [markClean]

end Contents

/-- Nothing goes wrong: no allocation and no file operation fails. -/
structure Works (f : Faults) : Prop extends FilesWork f where
  storage : f.storage = false
  table : f.table = false
  path : f.path = false

/-- The calls that the reference array follows. -/
def Op.Followed : Op Path → Prop
  | .init _ => False
  | .initFile _ _ _ => False
  | .dealloc => False
  | _ => True

/-- What a call does to the reference array; a growing `resize` appends the bytes that the
file holds there now. -/
def Op.effect (op : Op Path) (w : World Path) (ref : List UInt8) : List UInt8 :=
  match op with
  | .write offset data => overwrite 0 ref offset data
  | .resize size => ref.take size ++
      (List.range (size - ref.length)).map fun i => w.content.getD (ref.length + i) 0
  | _ => ref

/-- A buffer, newly initialized and then used, beside the array that it is to show. -/
inductive Follows [DecidableEq Path] : World Path → List UInt8 → Prop where
  | init {disk : Disk Path} {size : Nat} {f : Faults} {w : World Path} : Works f →
      BackedBuffer.init f size ⟨{}, disk, []⟩ = .ok () w → Follows w (List.replicate size 0)
  | initFile {disk : Disk Path} {size : Nat} {path : Path} {readOnly : Bool} {f : Faults}
      {w : World Path} : Works f →
      BackedBuffer.initFile f size path readOnly ⟨{}, disk, []⟩ = .ok () w →
      Follows w ((List.range size).map fun i => ((disk path).getD []).getD i 0)
  | call {f : Faults} {op : Op Path} {w w' : World Path} {ref view : List UInt8} :
      Follows w ref → Works f → op.Followed → op.pre w.buf →
      BackedBuffer.call f op w = .ok view w' → Follows w' (op.effect w ref)

structure Simulates (w : World Path) (ref : List UInt8) : Prop where
  steady : Steady w
  bookkept : Bookkept w.buf
  attached : Attached w
  closed : w.buf.out.openOn = none
  contents : w.contents = ref

section Faultless

variable {f : Faults} {w : World Path} {ref : List UInt8}

theorem Works.not_readTrouble (hf : Works f) (hatt : Attached w) : ¬ReadTrouble f w := by
  rintro (⟨o, hfault⟩ | hshort)
  · rw [hf.read] at hfault
    cases hfault
  · rw [hatt.inContent, hatt.known] at hshort
    exact Nat.lt_irrefl _ hshort

theorem Works.not_loadFailure (hf : Works f) (hatt : Attached w) (hw : Bookkept w.buf)
    {e : Failure Path} : ¬LoadFailure f w e := by
  rintro (⟨_, htrouble⟩ | ⟨_, hlt⟩)
  · exact hf.not_readTrouble hatt htrouble
  · rw [hw.full] at hlt
    exact Nat.lt_irrefl _ hlt

theorem Works.not_torn (hf : Works f) (hatt : Attached w) (size : Nat) : ¬Torn f size w := by
  rintro ⟨_, _, ⟨htable, _⟩ | ⟨_, _, _, hfill⟩⟩
  · rw [hf.table] at htable
    cases htable
  · exact hf.not_readTrouble hatt hfill.readTrouble

theorem effect_resize_self (h : Simulates w ref) :
    Op.effect (.resize w.buf.bytes) w ref = ref := by
  have hlen : ref.length = w.buf.bytes := by rw [← h.contents, length_contents]
  rw [Op.effect, hlen, Nat.sub_self, List.range_zero, List.map_nil, List.append_nil]
  exact List.take_of_length_le (Nat.le_of_eq hlen)

theorem Fresh.contents (h : Fresh w.buf) (hatt : Attached w) :
    w.contents = (List.range w.buf.bytes).map fun i => w.content.getD i 0 := by
  apply List.map_congr_left
  intro i _
  have habsent : w.page (i / pageSize) = .absent := h.absent _
  rw [World.byteAt, if_pos habsent, hatt.fileByte]

end Faultless

section Steps

variable [DecidableEq Path] {f : Faults} {op : Op Path} {w w' : World Path}
  {ref : List UInt8}

theorem wp_call_contents (h : Simulates w ref) (hf : Works f) (hop : op.Followed)
    (hpre : op.pre w.buf) :
    wp (call f op) (fun _ w' => w'.contents = op.effect w ref) (fun _ _ => False) w := by
  have hw := h.steady
  have hload : ∀ {e}, ¬LoadFailure f w e := hf.not_loadFailure h.attached h.bookkept
  cases op with
  | init size => exact hop.elim
  | initFile size path readOnly => exact hop.elim
  | dealloc => exact hop.elim
  | byteView offset len =>
    exact (wp_byteView hw.counted hpre).mono (fun _ _ ht => ht.1.contents.trans h.contents)
      (fun _ _ ht => hload ht.2)
  | write offset data =>
    rw [call, wp_bind]
    apply (wp_write hw.counted hpre).mono (fun _ t ht => ?_) (fun _ _ ht => hload ht.2)
    rw [wp_pure, ht.contents, h.contents]
    rfl
  | resize size =>
    rw [call, wp_bind]
    apply (wp_resize hw.counted).mono
    · rintro _ t ⟨_, ⟨rfl, rfl⟩ | ⟨_, hshape, _, hdone⟩⟩
      · rw [wp_pure, effect_resize_self h, h.contents]
      · have hlen : ref.length = w.buf.bytes := by rw [← h.contents, length_contents]
        rw [wp_pure, hshape.contents hdone, h.contents, Op.effect, hlen]
        simp only [h.attached.fileByte]
    · rintro e t ⟨_, ⟨_, hfail, _⟩ | ⟨htorn, _⟩⟩
      · rw [hf.storage] at hfail
        cases hfail
      · exact hf.not_torn h.attached size htorn
  | detach =>
    rw [call, wp_bind]
    apply (wp_detach hw.counted hw.idle).mono (fun _ t ht => ?_) (fun _ _ ht => hload ht.2)
    obtain ⟨u, hu, hpresent, hbuf, _⟩ := ht
    rw [wp_pure, ← h.contents]
    exact hu.contents_detached hpresent (by rw [hbuf]) (by rw [hbuf]) (by rw [hbuf])
  | persist =>
    rw [call, wp_bind]
    by_cases hidle : w.buf.readOnly = true ∨ w.buf.file = none ∨ w.buf.dirtyPages = 0
    · rw [wp_persist_idle hidle]
      exact h.contents
    · obtain ⟨hwritable, ⟨path, hpath⟩, hdirty⟩ := busy_cases hidle
      apply (wp_persist hw hwritable hpath hdirty).mono
      · rintro _ t ⟨_, rs, hruns, rfl⟩
        exact (contents_persisted hw hpath h.attached hruns).trans h.contents
      · rintro e t ⟨_, hhalt⟩
        exact hhalt.notClear (hf.clearToClose h.closed)
  | setReadOnly value => exact h.contents

theorem wp_call_simulates (h : Simulates w ref) (hf : Works f) (hop : op.Followed)
    (hpre : op.pre w.buf) :
    wp (call f op) (fun _ w' => Simulates w' (op.effect w ref)) (fun _ _ => False) w := by
  apply ((wp_call h.steady hpre).and (wp_call_contents h hf hop hpre)).mono
  · rintro _ t ⟨⟨hpres, hbook⟩, hcontents⟩
    refine ⟨hpres.steady, (hbook h.bookkept).1, hpres.attached ?_ h.attached,
      hpres.closed hf.write h.closed, hcontents⟩
    cases op <;> first | exact hop.elim | exact not_false
  · exact fun e t ht => ht.2

theorem Follows.simulates (h : Follows w ref) : Simulates w ref := by
  induction h with
  | init hf hrun =>
    obtain ⟨⟨hblank, _, _⟩, hbytes, hbook, _⟩ := (wp_init (blank_empty false).toFresh.idle).ok hrun
    refine ⟨⟨hblank.counted, hblank.toFresh.idle, fun path hpath => ?_⟩, hbook, hblank.attached,
      hblank.closed, ?_⟩
    · rw [hblank.file] at hpath
      cases hpath
    · rw [hblank.toFresh.contents hblank.attached, hbytes, World.content, hblank.file]
      simp
  | @initFile disk size path readOnly f w hf hrun =>
    obtain ⟨hfresh, _, hdisk, hbytes, hfile, hin, hthere, hlen, hbook, _⟩ :=
      (wp_initFile (blank_empty false).toFresh.idle).ok hrun
    have hcontent : w.content = (disk path).getD [] := by
      rw [World.content, hfile, Option.bind_some, hdisk rfl]
    have hatt : Attached w := by
      refine ⟨by rw [hin, hfile], ?_⟩
      rw [hcontent, hlen, hdisk rfl]
    refine ⟨⟨hfresh.counted, hfresh.idle, fun p hp => ?_⟩, hbook, hatt, hfresh.closed, ?_⟩
    · rw [hfile, Option.some_inj] at hp
      rwa [← hp]
    · rw [hfresh.contents hatt, hbytes, hcontent]
  | call _ hf hop hpre hrun ih => exact (wp_call_simulates ih hf hop hpre).ok hrun

/-- The buffer shows the reference array: each view succeeds, with exactly its bytes, and no
call that the array follows throws. -/
theorem byteView_shows_reference (h : Follows w ref) :
    w.buf.bytes = ref.length ∧
    (∀ f offset len, Works f → offset + len ≤ w.buf.bytes →
      ∃ w', byteView f offset len w = .ok (slice ref offset len) w') ∧
    ∀ f op, Works f → op.Followed → op.pre w.buf → ∃ view w', call f op w = .ok view w' := by
  have hsim := h.simulates
  refine ⟨by rw [← hsim.contents, length_contents], fun f offset len hf hle => ?_,
    fun f op hf hop hpre => ?_⟩
  · have hspec := wp_byteView (f := f) hsim.steady.counted hle
    cases hrun : byteView f offset len w with
    | ok view t =>
      refine ⟨t, ?_⟩
      rw [(hspec.ok hrun).2, hsim.contents]
    | error e t =>
      exact absurd (hspec.error hrun).2 (hf.not_loadFailure hsim.attached hsim.bookkept)
  · have hspec := wp_call_simulates hsim hf hop hpre
    cases hrun : call f op w with
    | ok view t => exact ⟨view, t, rfl⟩
    | error e t => exact (hspec.error hrun).elim

end Steps

theorem works_default : Works {} where
  toFilesWork := filesWork_default
  storage := rfl
  table := rfl
  path := rfl

/-- Two bytes over a file of one: the first is written, the second reads as zero. -/
theorem byteView_shows_written_byte : ∃ w w' : World Unit, byteView {} 0 2 w = .ok [9, 0] w' := by
  have hinit : initFile {} 2 () false ⟨{}, fun _ => some [7], []⟩ =
      .ok () ((attachedTo 2 [7]).world 0) := rfl
  have hwrite : call {} (.write 0 [9]) ((attachedTo 2 [7]).world 0) = .ok [] _ := rfl
  have hfollowed : (Op.write 0 [9] : Op Unit).Followed := trivial
  have hfollows := Follows.call (.initFile works_default hinit) works_default hfollowed
    (Nat.le_succ 1) hwrite
  exact ⟨_, (byteView_shows_reference hfollows).2.1 {} 0 2 works_default (Nat.le_refl 2)⟩

end Utlib.BackedBuffer
