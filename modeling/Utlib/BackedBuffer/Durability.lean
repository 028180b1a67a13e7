import Utlib.BackedBuffer.System

namespace Utlib.BackedBuffer

open Program Sequence

variable {Path : Type}

section Log

variable {f : Faults} {w : World Path} {rs : List (Nat × Nat)}

/-- The step hands bytes of page `p` to the file. -/
def writesPage (p : Nat) (step : FileStep × Bool) : Bool :=
  match step.1 with
  | .write offset len => decide (offset < (p + 1) * pageSize ∧ p * pageSize < offset + len)
  | _ => false

/-- `w'` was reached from `w` by file steps that satisfy `P`. -/
def Stepped (P : List (FileStep × Bool) → Prop) (w w' : World Path) : Prop :=
  ∃ steps, w'.log = w.log ++ steps ∧ P steps

theorem writesPage_writeLog (hw : Counted w.buf) {r : Nat × Nat} (hr : r.1 < r.2)
    (hle : r.2 ≤ w.buf.pages.length) (p : Nat) :
    writesPage p (writeLog w r) = decide (r.1 ≤ p ∧ p < r.2) := by
  have hlt : p < r.2 → p * pageSize < w.buf.bytes := fun hp =>
    lt_pageCount.1 (Nat.lt_of_lt_of_le (Nat.lt_of_lt_of_le hp hle) hw.table)
  simp only [writesPage, writeLog, length_runWrite hw, decide_eq_decide]
  simp only [pageSize] at hlt ⊢
  omega

theorem RunsUpTo.countP_writesPage (h : RunsUpTo w w.buf.pages.length rs)
    (hw : Counted w.buf) (p : Nat) :
    (rs.map (writeLog w)).countP (writesPage p) = if w.page p = .dirty then 1 else 0 := by
  calc (rs.map (writeLog w)).countP (writesPage p)
      = rs.countP (fun r => decide (r.1 ≤ p ∧ p < r.2)) := by
        rw [List.countP_map]
        apply List.countP_congr
        intro r hr
        rw [Function.comp_apply, writesPage_writeLog hw (h.nonempty r hr) (h.bound r hr)]
    _ = if p < w.buf.pages.length ∧ w.page p = .dirty then 1 else 0 := h.once p
    _ = if w.page p = .dirty then 1 else 0 := by
        apply if_congr _ rfl rfl
        exact ⟨And.right, fun hd => ⟨World.page_lt (by rw [hd]; decide), hd⟩⟩

theorem dirtyPages_eq_zero_iff (hw : Counted w.buf) :
    w.buf.dirtyPages = 0 ↔ ∀ p, w.page p ≠ .dirty := by
  constructor
  · intro hzero p hp
    have hlt := World.page_lt (by rw [hp]; decide)
    rw [World.page, List.getD_eq_getElem _ _ hlt] at hp
    have hpos : 0 < w.buf.pages.count .dirty := List.count_pos_iff.2 (hp ▸ List.getElem_mem hlt)
    have hcount := hw.count
    omega
  · intro hclean
    by_contra hne
    obtain ⟨p, _, hp⟩ := exists_dirty hw hne
    exact hclean p hp

/-- The steps of a `persist` that returns. -/
def persistLog (w : World Path) (f : Faults) (rs : List (Nat × Nat)) : List (FileStep × Bool) :=
  (if w.buf.fileBytes < w.buf.bytes then [(.grow w.buf.bytes, true)] else []) ++
    (.openOut, true) :: rs.map (writeLog w) ++ [(.flush, true), (.close, !f.close)]

theorem good_of_mem_persistLog (hclose : f.close = false) {step : FileStep × Bool}
    (h : step ∈ persistLog w f rs) : step.2 = true := by
  simp only [persistLog, hclose, List.mem_append, List.mem_cons, List.mem_map] at h
  rcases h with (h | rfl | ⟨r, _, rfl⟩) | rfl | rfl | h
  · split at h
    · rw [List.mem_singleton.1 h]
    · cases h
  · rfl
  · rfl
  · rfl
  · rfl
  · cases h

theorem close_mem_persistLog : (.close, !f.close) ∈ persistLog w f rs := by
  simp [persistLog]

theorem countP_persistLog (hw : Counted w.buf) (hruns : RunsUpTo w w.buf.pages.length rs)
    (p : Nat) : (persistLog w f rs).countP (writesPage p) = if w.page p = .dirty then 1 else 0 := by
  rw [← hruns.countP_writesPage hw p, persistLog]
  split <;> simp [writesPage]

end Log

section Steps

variable [DecidableEq Path] {f g : Faults} {w w' : World Path}
  {rs : List (Nat × Nat)}

theorem log_persisted (hclosed : w.buf.out.openOn = none) :
    (w.persisted f rs).log = w.log ++ persistLog w f rs := by
  have hgrow : growLog w =
      if w.buf.fileBytes < w.buf.bytes then [(.grow w.buf.bytes, true)] else [] := by
    simp [growLog, hclosed]
  rw [persistLog, ← hgrow]
  simp [World.persisted, World.closed, World.opened, World.grow]

end Steps

section AllOrNothing

variable [DecidableEq Path] {f : Faults} {w : World Path} {s : System Path}

/-- Returning means that every file step was made, and throwing that one failed and that
nothing is lost. -/
def AllOrNothing (f : Faults) (w : World Path) : Prop :=
  wp (persist f)
    (fun _ w' => Stepped (fun steps => ∀ step ∈ steps, step.2 = true) w w' ∧
      ∀ p, w'.page p ≠ .dirty)
    (fun e w' => (∃ x, e = .throws x) ∧
      Stepped (fun steps => ∃ step ∈ steps, step.2 = false) w w' ∧
      w'.buf.pages = w.buf.pages ∧ w'.buf.dirtyPages = w.buf.dirtyPages ∧
      w'.buf.bytes = w.buf.bytes ∧ w'.buf.mem = w.buf.mem) w

theorem page_persisted_ne_dirty {rs : List (Nat × Nat)} (p : Nat) :
    (w.persisted f rs).page p ≠ .dirty := by
  rw [page_persisted]
  cases w.page p <;> exact nofun

/-- Only a failing `close` goes unnoticed. -/
theorem persist_all_or_nothing (h : Reach (fun _ _ _ => True) s) (k : Nat) (f : Faults)
    (hwritable : (s.bufs k).readOnly = false) (hfile : (s.bufs k).file.isSome)
    (hdirty : ∃ p, (s.world k).page p = .dirty) :
    AllOrNothing f (s.world k) ↔ (ClearToClose (s.world k) f → f.close = false) := by
  obtain ⟨p, hp⟩ := hdirty
  obtain ⟨path, hpath⟩ := Option.isSome_iff_exists.1 hfile
  have hw := h.steady k
  have hspec := wp_persist (f := f) hw hwritable hpath fun hzero =>
    (dirtyPages_eq_zero_iff hw.counted).1 hzero p hp
  unfold AllOrNothing
  cases hrun : persist f (s.world k) with
  | ok _ t =>
    obtain ⟨hclear, rs, hruns, rfl⟩ := hspec.ok hrun
    rw [wp_of_ok hrun, Stepped, log_persisted hclear.closed]
    constructor
    · rintro ⟨⟨steps, hsteps, hgood⟩, _⟩ _
      rw [List.append_cancel_left_eq] at hsteps
      have hclose := hgood _ (hsteps ▸ close_mem_persistLog)
      simpa using hclose
    · intro hclose
      exact ⟨⟨_, rfl, fun step hstep => good_of_mem_persistLog (hclose hclear) hstep⟩,
        page_persisted_ne_dirty⟩
  | error e t =>
    obtain ⟨rfl, hhalt⟩ := hspec.error hrun
    rw [wp_of_error hrun]
    refine ⟨fun _ hclear => absurd hclear hhalt.notClear, fun _ => ⟨⟨_, rfl⟩, hhalt.log, ?_⟩⟩
    rw [hhalt.same]
    exact ⟨rfl, rfl, rfl, rfl⟩

end AllOrNothing

theorem flush_failure_noticed : AllOrNothing { flush := true } (edited.world 0) :=
  (persist_all_or_nothing (reach_edited trivial trivial) 0 { flush := true } rfl rfl
    ⟨0, rfl⟩).2 fun _ => rfl

/-- The close fails, and `persist` returns with all pages clean. -/
theorem close_failure_unnoticed : Reach (fun _ _ _ => True) edited ∧
    (edited.bufs 0).readOnly = false ∧ (edited.bufs 0).file.isSome ∧
    (edited.world 0).page 0 = .dirty ∧ ¬AllOrNothing { close := true } (edited.world 0) := by
  refine ⟨reach_edited trivial trivial, rfl, rfl, rfl, fun h => ?_⟩
  have hrun : persist { close := true } (edited.world 0) = .ok () _ := rfl
  obtain ⟨⟨steps, hsteps, hgood⟩, _⟩ := h.ok hrun
  have hlog : steps = [(.openOut, true), (.write 0 1, true), (.flush, true), (.close, false)] :=
    hsteps.symm
  have hclose := hgood (.close, false) (by rw [hlog]; simp)
  cases hclose

structure FilesWork (f : Faults) : Prop where
  probe : f.probe = false
  openIn : f.openIn = false
  fileSize : f.fileSize = false
  read : ∀ o, f.read o = none
  grow : f.grow = false
  openOut : f.openOut = false
  write : ∀ o, f.write o = false
  flush : f.flush = false
  close : f.close = false

section Local

variable {f : Faults} {w : World Path}

theorem FilesWork.clearToClose (h : FilesWork f) (hclosed : w.buf.out.openOn = none) :
    ClearToClose w f :=
  ⟨fun _ => h.grow, hclosed, h.openOut, fun _ _ => h.write _, h.flush⟩

theorem local_attached_coherent : Local fun w : World Path => Attached w ∧ w.Coherent := by
  rintro w w' hbuf hdisk ⟨hatt, hco⟩
  have hatt' := local_attached w w' hbuf hdisk hatt
  refine ⟨hatt', fun hfile i hi hclean => ?_⟩
  rw [hbuf] at hfile hi
  rw [World.page, hbuf] at hclean
  rw [World.memByte, hbuf, hatt'.fileByte, content_local hbuf hdisk, ← hatt.fileByte]
  exact hco hfile i hi hclean

end Local

section Retry

variable [DecidableEq Path] {f g : Faults} {w w' : World Path} {s : System Path}
  {e : Failure Path}

/-- Each buffer has its file to itself, `init` learns the length of its file, and no `resize`
leaves a clean page half completed. -/
def Undamaged (s : System Path) (f : Faults) (a : Act Path) : Prop :=
  Exclusive s a ∧ ∀ k op, a = .call k op → ¬SizeUnknown f op ∧ ¬Spoils f (s.world k) op

/-- The `persist` after one that failed in `w` returns, writes every page that was dirty and
leaves the file with the buffer's bytes. -/
def Recovers (g : Faults) (w w' : World Path) : Prop :=
  wp (persist g)
    (fun _ u => (∀ p, u.page p ≠ .dirty) ∧
      Stepped (fun steps => ∀ p, steps.countP (writesPage p) =
        if w.page p = .dirty then 1 else 0) w' u ∧
      u.content.length = max w'.content.length w.buf.bytes ∧
      ∀ i, i < w.buf.bytes → u.content.getD i 0 = w.byteAt i)
    (fun _ _ => False) w'

theorem Reach.attached_coherent (h : Reach Undamaged s) (k : Nat) :
    Attached (s.world k) ∧ (s.world k).Coherent := by
  apply h.local_invariant (P := fun w => Attached w ∧ w.Coherent)
  · exact fun s f a ha => ha.1
  · exact local_attached_coherent
  · exact fun w hb => ⟨hb.attached, hb.toFresh.coherent⟩
  · rintro s f k op w' ⟨_, hallowed⟩ hpres ⟨hatt, hco⟩
    obtain ⟨hsize, hspoils⟩ := hallowed k op rfl
    exact ⟨hpres.attached hsize hatt, hpres.coherent hspoils hatt hco⟩

/-- A failed `persist` can be made up for unless it leaves the stream open. -/
theorem persist_recovers_iff (h : Reach Undamaged s) (k : Nat)
    (hfail : persist f (s.world k) = .error e w') (hg : FilesWork g) :
    Recovers g (s.world k) w' ↔ ¬Stuck (s.world k) f := by
  have hw := h.steady k
  obtain ⟨hatt, hco⟩ := h.attached_coherent k
  generalize s.world k = w at *
  have hbusy : ¬(w.buf.readOnly = true ∨ w.buf.file = none ∨ w.buf.dirtyPages = 0) := by
    intro hidle
    have hreturn : wp (persist f) (fun _ _ => True) (fun _ _ => False) w :=
      (wp_persist_idle hidle).2 trivial
    exact hreturn.error hfail
  obtain ⟨hwritable, ⟨path, hpath⟩, hdirty⟩ := busy_cases hbusy
  obtain ⟨rfl, hhalt⟩ := (wp_persist hw hwritable hpath hdirty).error hfail
  have hpres := hhalt.preserved hw hpath
  obtain ⟨hatt', hsame⟩ := hhalt.attached hw.onDisk hpath hatt
  have hwritable' : w'.buf.readOnly = false := by rw [hhalt.same]; exact hwritable
  have hdirty' : w'.buf.dirtyPages ≠ 0 := by rw [hhalt.same]; exact hdirty
  have hpath' : w'.buf.file = some path := by rw [hhalt.file, hpath]
  have hspec := wp_persist (f := g) hpres.steady hwritable' hpath' hdirty'
  rw [← hhalt.stuck, Option.not_isSome_iff_eq_none, Recovers]
  cases hrun : persist g w' with
  | ok _ u =>
    obtain ⟨hclear, rs, hruns, rfl⟩ := hspec.ok hrun
    rw [wp_of_ok hrun]
    refine ⟨fun _ => hclear.closed, fun hclosed => ⟨page_persisted_ne_dirty, ?_, ?_, ?_⟩⟩
    · refine ⟨_, log_persisted hclosed, fun p => ?_⟩
      rw [countP_persistLog hpres.steady.counted hruns, hhalt.page]
    · rw [length_content_persisted hpres.steady hpath' hatt' hruns, hatt'.known, hhalt.bytes]
    · intro i hi
      rw [getD_content_persisted hpres.steady hpath' hatt' hruns, hhalt.page, hhalt.memByte,
        hhalt.bytes]
      split
      · rename_i hd
        exact (byteAt_of_present (by rw [hd.2]; decide)).symm
      · rename_i hclean
        have hnot : ¬Dirt w i := hclean
        rw [← hatt'.fileByte, hsame i hnot]
        exact (hco.byteAt (by rw [hpath]; rfl) hi fun hd => hnot ⟨hi, hd⟩).symm
  | error e u =>
    obtain ⟨_, hhalt'⟩ := hspec.error hrun
    rw [wp_of_error hrun, false_iff]
    exact fun hclosed => hhalt'.notClear (hg.clearToClose hclosed)

end Retry

theorem filesWork_default : FilesWork {} :=
  ⟨rfl, rfl, rfl, fun _ => rfl, rfl, rfl, fun _ => rfl, rfl, rfl⟩

theorem reach_edited_undamaged : Reach Undamaged edited := by
  apply reach_edited
  · refine ⟨fun _ _ => nofun, fun k op hop => ?_⟩
    cases hop
    exact ⟨nofun, not_false⟩
  · refine ⟨trivial, fun k op hop => ?_⟩
    cases hop
    exact ⟨not_false, not_false⟩

theorem flush_failure_recovers : ∃ w' : World Unit,
    persist { flush := true } (edited.world 0) =
      .error (.throws (.ioError .fileCantWrite (some ()))) w' ∧
    Recovers {} (edited.world 0) w' := by
  have hrun : persist { flush := true } (edited.world 0) =
      .error (.throws (.ioError .fileCantWrite (some ()))) _ := rfl
  refine ⟨_, hrun, (persist_recovers_iff reach_edited_undamaged 0 hrun filesWork_default).2 ?_⟩
  rintro (hopen | ⟨_, _, p, _, hbad⟩)
  · cases hopen
  · cases hbad

/-- The write of the only run fails, and so does every `persist` from then on. -/
theorem write_failure_sticks : Reach (fun _ _ _ => True) edited ∧ ∃ w' : World Unit,
    persist { write := fun _ => true } (edited.world 0) =
      .error (.throws (.ioError .fileCantWrite (some ()))) w' ∧
    ¬Recovers {} (edited.world 0) w' ∧
    persist {} w' = .error (.throws (.ioError .fileCantWrite (some ())))
      { w' with log := w'.log ++ [(.write 0 1, false)] } := by
  refine ⟨reach_edited trivial trivial, _, rfl, fun h => ?_, rfl⟩
  exact wp.error h rfl

section Effect

variable [DecidableEq Path] {f : Faults} {w w' : World Path} {s : System Path}

def NothingToSave (w : World Path) : Prop :=
  w.buf.readOnly = true ∨ w.buf.file = none ∨ ∀ p, w.page p ≠ .dirty

structure Saved (w w' : World Path) : Prop where
  file : w'.buf.file = w.buf.file
  footprint : Footprint w.buf.file w.disk w'.disk
  length : w'.content.length = max w.content.length w.buf.bytes
  byte : ∀ i, w'.content.getD i 0 =
    if i < w.buf.bytes ∧ w.page (i / pageSize) = .dirty then w.byteAt i
    else w.content.getD i 0
  once : Stepped (fun steps => ∀ p, steps.countP (writesPage p) =
    if w.page p = .dirty then 1 else 0) w w'
  clean : ∀ p, w'.page p ≠ .dirty

/-- Each buffer has its file to itself, and only allocations can fail. -/
def Reliable (s : System Path) (f : Faults) (a : Act Path) : Prop :=
  Exclusive s a ∧ FilesWork f

theorem Reach.attached_closed (h : Reach Reliable s) (k : Nat) :
    Attached (s.world k) ∧ (s.world k).buf.out.openOn = none := by
  apply h.local_invariant (P := fun w => Attached w ∧ w.buf.out.openOn = none)
  · exact fun s f a ha => ha.1
  · rintro w w' hbuf hdisk ⟨hatt, hclosed⟩
    exact ⟨local_attached w w' hbuf hdisk hatt, by rw [hbuf, hclosed]⟩
  · exact fun w hb => ⟨hb.attached, hb.closed⟩
  · rintro s f k op w' ⟨_, hf⟩ hpres ⟨hatt, hclosed⟩
    refine ⟨hpres.attached (fun hsize => ?_) hatt, hpres.closed hf.write hclosed⟩
    cases op with
    | initFile size path readOnly =>
      rw [SizeUnknown, hf.fileSize] at hsize
      cases hsize
    | _ => exact hsize

theorem persist_effect (h : Reach Reliable s) (k : Nat) (hf : FilesWork f) :
    wp (persist f)
      (fun _ w' => (NothingToSave (s.world k) → w'.disk = s.disk) ∧
        (¬NothingToSave (s.world k) → Saved (s.world k) w'))
      (fun _ _ => False) (s.world k) := by
  have hw := h.steady k
  obtain ⟨hatt, hclosed⟩ := h.attached_closed k
  have hdisk : s.disk = (s.world k).disk := rfl
  rw [hdisk]
  generalize s.world k = w at *
  rw [NothingToSave, ← dirtyPages_eq_zero_iff hw.counted]
  by_cases hidle : w.buf.readOnly = true ∨ w.buf.file = none ∨ w.buf.dirtyPages = 0
  · rw [wp_persist_idle hidle]
    exact ⟨fun _ => rfl, fun hbusy => absurd hidle hbusy⟩
  · obtain ⟨hwritable, ⟨path, hpath⟩, hdirty⟩ := busy_cases hidle
    apply (wp_persist hw hwritable hpath hdirty).mono
    · rintro _ u ⟨_, rs, hruns, rfl⟩
      refine ⟨fun h => absurd h hidle, fun _ => ?_⟩
      constructor
      · rfl
      · exact Footprint.of_modifyFile disk_persisted
      · rw [length_content_persisted hw hpath hatt hruns, hatt.known]
      · intro i
        rw [getD_content_persisted hw hpath hatt hruns]
        split
        · rename_i hd
          exact (byteAt_of_present (by rw [hd.2]; decide)).symm
        · rfl
      · exact ⟨_, log_persisted hclosed, countP_persistLog hw.counted hruns⟩
      · exact page_persisted_ne_dirty
    · rintro e u ⟨_, hhalt⟩
      exact hhalt.notClear (hf.clearToClose hclosed)

end Effect

theorem persist_effect_edited :
    wp (persist {})
      (fun _ w' => (NothingToSave (edited.world 0) → w'.disk = edited.disk) ∧
        (¬NothingToSave (edited.world 0) → Saved (edited.world 0) w'))
      (fun _ _ => False) (edited.world 0) := by
  refine persist_effect (reach_edited ⟨fun _ _ => nofun, filesWork_default⟩
    ⟨trivial, filesWork_default⟩) 0 filesWork_default

end Utlib.BackedBuffer
