import Utlib.BackedBuffer.Contents

namespace Utlib.BackedBuffer

open Program Sequence

variable {Path : Type}

section Files

variable [DecidableEq Path]

theorem modifyFile_id (file : Option Path) (disk : Disk Path) : modifyFile file id disk = disk := by
  cases file with
  | none => rfl
  | some path => simp [modifyFile]

theorem modifyFile_comp (file : Option Path) (g h : List UInt8 → List UInt8) (disk : Disk Path) :
    modifyFile file g (modifyFile file h disk) = modifyFile file (g ∘ h) disk := by
  cases file with
  | none => rfl
  | some path => simp [modifyFile]

theorem modifyFile_other {file : Option Path} {path : Path} (h : file ≠ some path)
    (g : List UInt8 → List UInt8) (disk : Disk Path) : modifyFile file g disk path = disk path := by
  cases file with
  | none => rfl
  | some p => exact Function.update_of_ne (fun heq => h (by rw [heq])) _ _

theorem modifyFile_self (path : Path) (g : List UInt8 → List UInt8) (disk : Disk Path) :
    modifyFile (some path) g disk path = (disk path).map g := by
  simp [modifyFile]

theorem isSome_modifyFile (file : Option Path) (g : List UInt8 → List UInt8) (disk : Disk Path)
    (path : Path) : (modifyFile file g disk path).isSome = (disk path).isSome := by
  by_cases h : file = some path
  · subst h
    simp [modifyFile_self]
  · rw [modifyFile_other h]

end Files

section Runs

variable {w : World Path} {p q : Nat} {rs : List (Nat × Nat)}

theorem exists_dirty {b : BackedBuffer Path} (hw : Counted b) (h : b.dirtyPages ≠ 0) :
    ∃ p, p < b.pages.length ∧ b.pages.getD p .absent = .dirty := by
  have hmem : Page.dirty ∈ b.pages := by
    by_contra hnot
    rw [hw.count, List.count_eq_zero_of_not_mem hnot] at h
    exact h rfl
  obtain ⟨p, hp, heq⟩ := List.mem_iff_getElem.1 hmem
  exact ⟨p, hp, by rw [List.getD_eq_getElem _ _ hp, heq]⟩

def RunStart (w : World Path) (p : Nat) : Prop :=
  w.page p = .dirty ∧ (p = 0 ∨ w.page (p - 1) ≠ .dirty)

/-- `rs` are the maximal runs of dirty pages below page `p`. -/
structure RunsUpTo (w : World Path) (p : Nat) (rs : List (Nat × Nat)) : Prop where
  nonempty : ∀ r ∈ rs, r.1 < r.2
  bound : ∀ r ∈ rs, r.2 ≤ p
  starts : ∀ r ∈ rs, RunStart w r.1
  once : ∀ k, rs.countP (fun r => decide (r.1 ≤ k ∧ k < r.2)) =
    if k < p ∧ w.page k = .dirty then 1 else 0

theorem RunsUpTo.nil (w : World Path) : RunsUpTo w 0 [] where
  nonempty := by simp
  bound := by simp
  starts := by simp
  once k := by simp

theorem RunsUpTo.skip (h : RunsUpTo w p rs) (hp : w.page p ≠ .dirty) : RunsUpTo w (p + 1) rs where
  nonempty := h.nonempty
  bound r hr := Nat.le_succ_of_le (h.bound r hr)
  starts := h.starts
  once k := by
    rw [h.once]
    apply if_congr _ rfl rfl
    constructor
    · rintro ⟨hlt, hd⟩
      exact ⟨by omega, hd⟩
    · rintro ⟨hlt, hd⟩
      exact ⟨by
        rcases Nat.eq_or_lt_of_le (Nat.le_of_lt_succ hlt) with rfl | h
        · exact absurd hd hp
        · exact h, hd⟩

theorem RunsUpTo.snoc (h : RunsUpTo w p rs) (hpq : p < q) (hstart : RunStart w p)
    (hrun : ∀ k, p ≤ k → k < q → w.page k = .dirty) : RunsUpTo w q (rs ++ [(p, q)]) where
  nonempty r hr := by
    rcases List.mem_append.1 hr with hr | hr
    · exact h.nonempty r hr
    · rw [List.mem_singleton.1 hr]
      exact hpq
  bound r hr := by
    rcases List.mem_append.1 hr with hr | hr
    · exact Nat.le_trans (h.bound r hr) (Nat.le_of_lt hpq)
    · exact Nat.le_of_eq (congrArg Prod.snd (List.mem_singleton.1 hr))
  starts r hr := by
    rcases List.mem_append.1 hr with hr | hr
    · exact h.starts r hr
    · rw [List.mem_singleton.1 hr]
      exact hstart
  once k := by
    rw [List.countP_append, h.once, List.countP_singleton]
    by_cases hk : k < p
    · simp [hk, show k < q by omega, show ¬p ≤ k by omega]
    · by_cases hkq : k < q
      · simp [hk, hkq, show p ≤ k by omega, hrun k (by omega) hkq]
      · simp [hk, hkq]

theorem RunsUpTo.exists_run (h : RunsUpTo w p rs) {k : Nat} (hk : k < p)
    (hd : w.page k = .dirty) : ∃ r ∈ rs, r.1 ≤ k ∧ k < r.2 := by
  have hpos : 0 < rs.countP (fun r => decide (r.1 ≤ k ∧ k < r.2)) := by
    rw [h.once, if_pos ⟨hk, hd⟩]
    exact Nat.one_pos
  obtain ⟨r, hr, hin⟩ := List.countP_pos_iff.1 hpos
  exact ⟨r, hr, by simpa using hin⟩

theorem RunsUpTo.dirty (h : RunsUpTo w p rs) {r : Nat × Nat} (hr : r ∈ rs) {k : Nat}
    (hk : r.1 ≤ k) (hk' : k < r.2) : w.page k = .dirty := by
  have hpos : 0 < rs.countP (fun r => decide (r.1 ≤ k ∧ k < r.2)) :=
    List.countP_pos_iff.2 ⟨r, hr, by simp [hk, hk']⟩
  rw [h.once] at hpos
  by_contra hd
  rw [if_neg (by simp [hd])] at hpos
  exact Nat.lt_irrefl 0 hpos

theorem RunsUpTo.mem_of_start (h : RunsUpTo w p rs) {k : Nat} (hk : k < p)
    (hstart : RunStart w k) : ∃ r ∈ rs, r.1 = k := by
  obtain ⟨r, hr, hle, hlt⟩ := h.exists_run hk hstart.1
  refine ⟨r, hr, ?_⟩
  rcases hstart.2 with rfl | hprev
  · omega
  · by_contra hne
    exact hprev (h.dirty hr (by omega) (by omega))

/-- The piece of memory that `persist` hands to the stream for a run. -/
def runWrite (w : World Path) (r : Nat × Nat) : Nat × List UInt8 :=
  (r.1 * pageSize,
    slice (w.buf.mem.getD []) (r.1 * pageSize) (min (r.2 * pageSize) w.buf.bytes - r.1 * pageSize))

def Dirt (w : World Path) (i : Nat) : Prop := i < w.buf.bytes ∧ w.page (i / pageSize) = .dirty

theorem length_runWrite (hw : Counted w.buf) (r : Nat × Nat) :
    (runWrite w r).2.length = min (r.2 * pageSize) w.buf.bytes - r.1 * pageSize := by
  simp only [runWrite, length_slice, hw.memLen]
  omega

theorem mem_runWrite (hw : Counted w.buf) {r : Nat × Nat} {i : Nat} :
    ((runWrite w r).1 ≤ i ∧ i < (runWrite w r).1 + (runWrite w r).2.length) ↔
      i < w.buf.bytes ∧ r.1 ≤ i / pageSize ∧ i / pageSize < r.2 := by
  rw [length_runWrite hw]
  simp only [runWrite, pageSize]
  omega

theorem getD_runWrite (hw : Counted w.buf) {r : Nat × Nat} {i : Nat} (h : (runWrite w r).1 ≤ i)
    (h' : i < (runWrite w r).1 + (runWrite w r).2.length) :
    (runWrite w r).2.getD (i - (runWrite w r).1) 0 = w.memByte i := by
  rw [length_runWrite hw] at h'
  simp only [runWrite] at h h' ⊢
  rw [getD_slice, if_pos (by omega), World.memByte]
  congr 1
  omega

theorem RunsUpTo.clean_untouched (h : RunsUpTo w p rs) (hw : Counted w.buf) {i : Nat}
    (hi : ¬Dirt w i) :
    ∀ v ∈ rs.map (runWrite w), i < v.1 ∨ v.1 + v.2.length ≤ i := by
  intro v hv
  obtain ⟨r, hr, rfl⟩ := List.mem_map.1 hv
  by_contra hin
  obtain ⟨hlt, hlo, hhi⟩ := (mem_runWrite (r := r) (i := i) hw).1 ⟨by omega, by omega⟩
  exact hi ⟨hlt, h.dirty hr hlo hhi⟩

theorem RunsUpTo.writes_inside (h : RunsUpTo w p rs) (hw : Counted w.buf)
    (hp : p ≤ w.buf.pages.length) {n : Nat} (hn : w.buf.bytes ≤ n) :
    ∀ v ∈ rs.map (runWrite w), v.1 + v.2.length ≤ n := by
  intro v hv
  obtain ⟨r, hr, rfl⟩ := List.mem_map.1 hv
  have hlt : r.1 < pageCount w.buf.bytes := by
    have hne := h.nonempty r hr
    have hbound := h.bound r hr
    have htable := hw.table
    omega
  rw [lt_pageCount] at hlt
  rw [length_runWrite hw]
  simp only [runWrite]
  omega

theorem getD_settle_runs (h : RunsUpTo w w.buf.pages.length rs) (hw : Counted w.buf)
    (c : List UInt8) (i : Nat) :
    (settle 0 (rs.map (runWrite w)) c).getD i 0 =
      if i < w.buf.bytes ∧ w.page (i / pageSize) = .dirty then w.memByte i else c.getD i 0 := by
  split
  · rename_i hi
    obtain ⟨r, hr, hlo, hhi⟩ := h.exists_run (World.page_lt (by rw [hi.2]; decide)) hi.2
    apply getD_settle_of_agree
    · intro v hv hin
      obtain ⟨r', hr', rfl⟩ := List.mem_map.1 hv
      exact getD_runWrite hw hin.1 hin.2
    · exact Or.inl ⟨runWrite w r, List.mem_map_of_mem hr, (mem_runWrite hw).2 ⟨hi.1, hlo, hhi⟩⟩
  · rename_i hi
    exact getD_settle _ (h.clean_untouched hw hi)

end Runs

section

/-- A stream is open between two calls only when a write to it has failed. -/
structure Idle (b : BackedBuffer Path) : Prop where
  failed : b.out.openOn.isSome → b.out.failed = true
  pending : b.out.openOn = none → b.out.pending = []
  target : b.out.openOn = none ∨ b.out.openOn = b.file

def OnDisk (w : World Path) : Prop := ∀ path, w.buf.file = some path → (w.disk path).isSome

/-- What holds of a buffer and its file between two calls, whatever has failed before. -/
structure Steady (w : World Path) : Prop where
  counted : Counted w.buf
  idle : Idle w.buf
  onDisk : OnDisk w

/-- No step before the close fails when `persist` gets to work. -/
structure ClearToClose (w : World Path) (f : Faults) : Prop where
  grow : w.buf.fileBytes < w.buf.bytes → f.grow = false
  closed : w.buf.out.openOn = none
  openOut : f.openOut = false
  write : ∀ p, RunStart w p → f.write (p * pageSize) = false
  flush : f.flush = false

/-- A write is lost in the stream, which then stays open with its error state set. -/
def Stuck (w : World Path) (f : Faults) : Prop :=
  w.buf.out.openOn.isSome ∨ ((w.buf.fileBytes < w.buf.bytes → f.grow = false) ∧
    f.openOut = false ∧ ∃ p, RunStart w p ∧ f.write (p * pageSize) = true)

end

section Growth

variable {f : Faults} {w : World Path} {rs : List (Nat × Nat)}

theorem not_stuck (hruns : RunsUpTo w w.buf.pages.length rs) (hclosed : w.buf.out.openOn = none)
    (hwrite : ∀ r ∈ rs, f.write (r.1 * pageSize) = false) : ¬Stuck w f := by
  rintro (hsome | ⟨_, _, p, hstart, hbad⟩)
  · rw [hclosed] at hsome
    cases hsome
  · obtain ⟨r, hr, rfl⟩ := hruns.mem_of_start (World.page_lt (by rw [hstart.1]; decide)) hstart
    rw [hwrite r hr] at hbad
    cases hbad

def grown (w : World Path) (c : List UInt8) : List UInt8 :=
  if w.buf.fileBytes < w.buf.bytes then c.takeD w.buf.bytes 0 else c

def growLog (w : World Path) : List (FileStep × Bool) :=
  if w.buf.fileBytes < w.buf.bytes then
    (if w.buf.out.openOn.isSome then [(.flush, false)] else []) ++ [(.grow w.buf.bytes, true)]
  else []

theorem grown_of_lt (h : w.buf.fileBytes < w.buf.bytes) :
    grown w = fun c => c.takeD w.buf.bytes 0 := by
  funext c
  exact if_pos h

theorem grown_of_le (h : w.buf.bytes ≤ w.buf.fileBytes) : grown w = id := by
  funext c
  exact if_neg (by omega)

theorem length_grown {c : List UInt8} (hc : c.length = w.buf.fileBytes) :
    (grown w c).length = max w.buf.fileBytes w.buf.bytes := by
  unfold grown
  split
  · rw [List.takeD_length]
    omega
  · omega

theorem getD_grown {c : List UInt8} (hc : c.length = w.buf.fileBytes) (i : Nat) :
    (grown w c).getD i 0 = c.getD i 0 := by
  unfold grown
  split
  · rw [getD_takeD]
    split
    · rfl
    · exact (List.getD_eq_default _ _ (by omega)).symm
  · rfl

end Growth

section Steps

variable [DecidableEq Path] {f : Faults} {w t : World Path}
  {rs : List (Nat × Nat)}

/-- After a successful `growFile(bytes)`. -/
def World.grow (w : World Path) : World Path :=
  { buf := { w.buf with fileBytes := max w.buf.fileBytes w.buf.bytes }
    disk := modifyFile w.buf.file (grown w) w.disk
    log := w.log ++ growLog w }

def writeLog (w : World Path) (r : Nat × Nat) : FileStep × Bool :=
  (.write (r.1 * pageSize) (runWrite w r).2.length, true)

/-- While the runs `rs` wait in the stream. -/
def World.opened (w : World Path) (rs : List (Nat × Nat)) : World Path :=
  { w.grow with
    buf := { w.grow.buf with out := { openOn := w.buf.file, pending := rs.map (runWrite w) } }
    log := w.grow.log ++ (.openOut, true) :: rs.map (writeLog w) }

/-- How `persist` leaves things when one of its steps fails. -/
structure Halted (w : World Path) (f : Faults) (w' : World Path) : Prop where
  same : w' = { w with
    buf := { w.buf with out := w'.buf.out, fileBytes := w'.buf.fileBytes }
    disk := w'.disk
    log := w'.log }
  log : ∃ steps, w'.log = w.log ++ steps ∧ ∃ s ∈ steps, s.2 = false
  notClear : ¬ClearToClose w f
  disk : ∃ g, w'.disk = modifyFile w.buf.file g w.disk ∧ ∀ c, c.length = w.buf.fileBytes →
    (g c).length = w'.buf.fileBytes ∧ ∀ i, ¬Dirt w i → (g c).getD i 0 = c.getD i 0
  idle : Idle w'.buf
  stuck : w'.buf.out.openOn.isSome ↔ Stuck w f

theorem World.grow_of_le (h : w.buf.bytes ≤ w.buf.fileBytes) : w.grow = w := by
  unfold World.grow growLog
  rw [grown_of_le h, modifyFile_id, if_neg (by omega), List.append_nil, Nat.max_eq_left h]

theorem wp_growFile (hw : Steady w) {path : Path}
    (hfile : w.buf.file = some path) :
    wp (growFile f w.buf.bytes)
      (fun _ w' => (w.buf.fileBytes < w.buf.bytes → f.grow = false) ∧ w' = w.grow)
      (fun e w' => e = .throws (.ioError .fileCantWrite w.buf.file) ∧ Halted w f w') w := by
  have hsome : (w.buf.file.bind w.disk).isNone = false := by
    rw [hfile, Option.bind_some, Option.isNone_eq_false_iff]
    exact hw.onDisk path hfile
  simp only [growFile, wp_bind, wp_buffer]
  rw [wp_ite]
  constructor
  · intro hlt
    have hflush : wp (if w.buf.out.openOn.isSome = true then outFlush f else pure ())
        (fun _ t => t = { w with log := w.log ++
          (if w.buf.out.openOn.isSome then [(.flush, false)] else []) })
        (fun e w' => e = .throws (.ioError .fileCantWrite w.buf.file) ∧ Halted w f w') w := by
      rw [wp_ite]
      constructor
      · intro hopen
        simp only [outFlush, wp_bind, wp_buffer, hw.idle.failed hopen, if_true, wp_record, hopen]
      · intro hclosed
        simp [hclosed]
    rw [wp_ite_seq]
    apply hflush.mono (fun _ t ht => ?_) (fun _ _ h => h)
    subst ht
    simp only [wp_bind, wp_get, hsome, Bool.false_eq_true, or_false]
    rw [wp_ite]
    constructor
    · intro hgrow
      simp only [wp_bind, wp_record, wp_throwIOError]
      refine ⟨trivial, ?_⟩
      constructor
      · rfl
      · exact ⟨_, List.append_assoc _ _ _, (.grow w.buf.bytes, false), by simp, rfl⟩
      · intro hclear
        rw [hclear.grow hlt] at hgrow
        cases hgrow
      · exact ⟨id, (modifyFile_id _ _).symm, fun c hc => ⟨hc, fun _ _ => rfl⟩⟩
      · exact ⟨hw.idle.failed, hw.idle.pending, hw.idle.target⟩
      · refine ⟨Or.inl, fun h => h.elim id fun h => ?_⟩
        rw [h.1 hlt] at hgrow
        cases hgrow
    · intro hgrow
      simp only [wp_bind, wp_modify, wp_record, wp_edit]
      refine ⟨fun _ => by simpa using hgrow, ?_⟩
      simp only [World.grow, growLog, grown_of_lt hlt, if_pos hlt, List.append_assoc,
        Nat.max_eq_right (Nat.le_of_lt hlt)]
  · intro hge
    rw [wp_pure, World.grow_of_le (by omega)]
    exact ⟨fun hlt => absurd hlt hge, rfl⟩

section Halting

variable {o : OutStream Path} {g : List UInt8 → List UInt8} {steps : List (FileStep × Bool)}

theorem Halted.of_grow (hsteps : ∃ s ∈ steps, s.2 = false) (hclear : ¬ClearToClose w f)
    (hg : ∀ c, c.length = max w.buf.fileBytes w.buf.bytes →
      (g c).length = c.length ∧ ∀ i, ¬Dirt w i → (g c).getD i 0 = c.getD i 0)
    (hfailed : o.openOn.isSome → o.failed = true) (hpending : o.openOn = none → o.pending = [])
    (htarget : o.openOn = none ∨ o.openOn = w.buf.file) (hstuck : o.openOn.isSome ↔ Stuck w f) :
    Halted w f { w.grow with
      buf := { w.grow.buf with out := o }
      disk := modifyFile w.buf.file g w.grow.disk
      log := w.grow.log ++ steps } where
  same := rfl
  log := by
    refine ⟨growLog w ++ steps, List.append_assoc _ _ _, ?_⟩
    obtain ⟨s, hs, hbad⟩ := hsteps
    exact ⟨s, List.mem_append_right _ hs, hbad⟩
  notClear := hclear
  disk := by
    refine ⟨g ∘ grown w, modifyFile_comp _ _ _ _, fun c hc => ?_⟩
    have hlen := length_grown hc
    obtain ⟨hglen, hkeep⟩ := hg (grown w c) hlen
    refine ⟨hglen.trans hlen, fun i hi => ?_⟩
    rw [Function.comp_apply, hkeep i hi, getD_grown hc]
  idle := ⟨hfailed, hpending, htarget⟩
  stuck := hstuck

end Halting

/-- How far the loop of `persist` has come; the stream is opened by the first run. -/
def Underway (w : World Path) (f : Faults) (rs : List (Nat × Nat)) (t : World Path) : Prop :=
  (rs = [] ∧ t = w.grow) ∨ (w.buf.out.openOn = none ∧ f.openOut = false ∧ t = w.opened rs)

theorem wp_openFile (hw : Steady w) {path : Path}
    (hfile : w.buf.file = some path) (ht : Underway w f rs t) :
    wp (openFile f)
      (fun _ u => (w.buf.out.openOn = none ∧ f.openOut = false ∧ u = w.opened rs) ∨
        (w.buf.out.openOn.isSome ∧ rs = [] ∧ u = w.grow))
      (fun e u => e = .throws (.ioError .fileCantWrite w.buf.file) ∧ Halted w f u) t := by
  have hthere : (w.buf.file.bind w.grow.disk).isNone = false := by
    rw [hfile, Option.bind_some, ← Option.not_isSome, World.grow, isSome_modifyFile,
      hw.onDisk path hfile, Bool.not_true]
  rcases ht with ⟨rfl, rfl⟩ | ⟨hclosed, hopen, rfl⟩
  · have hout : w.grow.buf.out = w.buf.out := rfl
    have hgrown : w.grow.buf.file = w.buf.file := rfl
    simp only [openFile, wp_bind, wp_buffer, hout, hgrown]
    rw [wp_ite]
    constructor
    · intro hnone
      have hclosed : w.buf.out.openOn = none := by simpa using hnone
      simp only [outOpen, wp_bind, wp_get, hthere, Bool.false_eq_true, or_false]
      rw [wp_ite]
      constructor
      · intro hbad
        simp only [wp_bind, wp_edit, wp_record, wp_buffer, hout, hnone, if_true, wp_throwIOError]
        refine ⟨rfl, ?_⟩
        rw [← modifyFile_id w.buf.file w.grow.disk]
        apply Halted.of_grow ⟨_, List.mem_singleton_self _, rfl⟩
        · intro hclear
          rw [hclear.openOut] at hbad
          cases hbad
        · exact fun c _ => ⟨rfl, fun _ _ => rfl⟩
        · exact fun _ => rfl
        · exact fun _ => hw.idle.pending hclosed
        · exact Or.inl hclosed
        · constructor
          · exact Or.inl
          · rintro (hsome | ⟨_, hgood, _⟩)
            · exact hsome
            · rw [hgood] at hbad
              cases hbad
      · intro hgood
        simp only [wp_bind, wp_edit, wp_record, wp_buffer, hfile, Option.isNone_some,
          Bool.false_eq_true, if_false, wp_pure]
        refine Or.inl ⟨hclosed, by simpa using hgood, ?_⟩
        rw [World.opened, hfile]
        rfl
    · intro hsome
      exact Or.inr ⟨by simpa [Option.isSome_iff_ne_none] using hsome, trivial, rfl⟩
  · simp only [openFile, wp_bind, wp_buffer]
    rw [wp_ite]
    constructor
    · intro hnone
      simp [World.opened, hfile] at hnone
    · intro _
      exact Or.inl ⟨hclosed, hopen, rfl⟩

theorem wp_outWrite_opened {p q : Nat} (hw : Counted w.buf)
    (hopen : f.openOut = false) {path : Path} (hfile : w.buf.file = some path)
    (hgrow : w.buf.fileBytes < w.buf.bytes → f.grow = false) (hstart : RunStart w p)
    (hruns : RunsUpTo w q (rs ++ [(p, q)])) (hq : q ≤ w.buf.pages.length)
    {E : Failure Path → World Path → Prop} :
    wp (outWrite f (p * pageSize) (runWrite w (p, q)).2)
      (fun _ u => (f.write (p * pageSize) = false ∧ u = w.opened (rs ++ [(p, q)])) ∨
        (u.buf.out.failed = true ∧ u.buf.file = w.buf.file ∧ Halted w f u)) E (w.opened rs) := by
  simp only [outWrite, wp_bind, wp_buffer]
  rw [wp_ite]
  refine ⟨fun hbad => by simp [World.opened] at hbad, fun _ => ?_⟩
  rw [wp_ite]
  have hwaiting : (w.opened rs).buf.out.pending ++ [(p * pageSize, (runWrite w (p, q)).2)] =
      (rs ++ [(p, q)]).map (runWrite w) := by
    rw [List.map_append]
    rfl
  rw [hwaiting]
  constructor
  · intro hbad
    simp only [wp_bind, wp_modify, wp_record]
    refine Or.inr ⟨trivial, rfl, ?_⟩
    have hlog : ∀ e, (w.opened rs).log ++ [e] =
        w.grow.log ++ ((.openOut, true) :: rs.map (writeLog w) ++ [e]) := by
      intro e
      exact List.append_assoc _ _ _
    rw [hlog]
    have hin := hruns.writes_inside hw hq (Nat.le_max_right w.buf.fileBytes w.buf.bytes)
    apply Halted.of_grow ⟨_, List.mem_append_right _ (List.mem_singleton_self _), rfl⟩
    · intro hclear
      rw [hclear.write p hstart] at hbad
      cases hbad
    · intro c hc
      refine ⟨length_drain c (by rwa [hc]), fun i hi => ?_⟩
      exact getD_drain c (hruns.clean_untouched hw hi)
    · exact fun _ => rfl
    · intro hnone
      rw [World.opened, hfile] at hnone
      cases hnone
    · exact Or.inr rfl
    · refine ⟨fun _ => Or.inr ⟨hgrow, hopen, p, hstart, hbad⟩, fun _ => ?_⟩
      rw [World.opened, hfile]
      rfl
  · intro hgood
    simp only [wp_bind, wp_edit, wp_record]
    refine Or.inl ⟨by simpa using hgood, ?_⟩
    simp [World.opened, writeLog]

theorem wp_writeRun {p q : Nat} (hw : Steady w) {path : Path} (hfile : w.buf.file = some path)
    (hgrow : w.buf.fileBytes < w.buf.bytes → f.grow = false) (hpq : p < q)
    (hq : q ≤ w.buf.pages.length) (hstart : RunStart w p)
    (hruns : RunsUpTo w q (rs ++ [(p, q)])) (ht : Underway w f rs t) :
    wp (writeRun f p q)
      (fun _ u => f.write (p * pageSize) = false ∧ w.buf.out.openOn = none ∧
        f.openOut = false ∧ u = w.opened (rs ++ [(p, q)]))
      (fun e u => e = .throws (.ioError .fileCantWrite w.buf.file) ∧ Halted w f u) t := by
  have hbuf : t.buf.bytes = w.buf.bytes ∧ t.buf.mem = w.buf.mem ∧
      t.buf.fileBytes = max w.buf.fileBytes w.buf.bytes := by
    rcases ht with ⟨_, rfl⟩ | ⟨_, _, rfl⟩ <;> exact ⟨rfl, rfl, rfl⟩
  have hlt : p * pageSize < w.buf.bytes :=
    lt_pageCount.1 (Nat.lt_of_lt_of_le (by omega) hw.counted.table)
  have hle : p * pageSize ≤ q * pageSize := Nat.mul_le_mul_right _ (Nat.le_of_lt hpq)
  have hlen : ((min (q * pageSize) w.buf.bytes : Nat) : Int) - (p * pageSize : Nat) =
      ((min (q * pageSize) w.buf.bytes - p * pageSize : Nat) : Int) := by omega
  simp only [writeRun, writeFile, wp_bind, wp_buffer, hbuf, wp_require, hlen, Int.toNat_natCast]
  refine ⟨fun _ => ?_, fun hn => absurd ⟨by omega, by omega⟩ hn⟩
  apply (wp_openFile hw hfile ht).mono (fun _ u hu => ?_) (fun _ _ h => h)
  have hmem : p * pageSize + (min (q * pageSize) w.buf.bytes - p * pageSize) ≤
      (u.buf.mem.getD []).length := by
    have humem : u.buf.mem = w.buf.mem := by
      rcases hu with ⟨_, _, rfl⟩ | ⟨_, _, rfl⟩ <;> rfl
    rw [humem, hw.counted.memLen]
    omega
  rw [wp_touch hmem]
  rcases hu with ⟨hclosed, hopen, rfl⟩ | ⟨hstuck, rfl, rfl⟩
  · apply (wp_outWrite_opened hw.counted hopen hfile hgrow hstart hruns hq).mono
      (fun _ v hv => ?_) (fun _ _ h => h)
    rw [wp_ite]
    rcases hv with ⟨hgood, rfl⟩ | ⟨hfailed, hsame, hhalt⟩
    · exact ⟨fun hbad => by simp [World.opened] at hbad, fun _ => ⟨hgood, hclosed, hopen, rfl⟩⟩
    · rw [wp_throwIOError, hsame]
      exact ⟨fun _ => ⟨rfl, hhalt⟩, fun hn => absurd hfailed hn⟩
  · have hfailed : w.grow.buf.out.failed = true := hw.idle.failed hstuck
    simp only [outWrite, wp_bind, wp_buffer, hfailed, if_true, wp_record, wp_throwIOError]
    refine ⟨rfl, ?_⟩
    rw [← modifyFile_id w.buf.file w.grow.disk]
    apply Halted.of_grow ⟨_, List.mem_singleton_self _, rfl⟩
    · intro hclear
      rw [hclear.closed] at hstuck
      cases hstuck
    · exact fun c _ => ⟨rfl, fun _ _ => rfl⟩
    · exact hw.idle.failed
    · exact hw.idle.pending
    · exact hw.idle.target
    · exact ⟨Or.inl, fun _ => hstuck⟩

/-- After a `closeFile` that had the runs `rs` to bring to the file. -/
def World.closed (w : World Path) (f : Faults) (rs : List (Nat × Nat)) : World Path :=
  { w.grow with
    buf := { w.grow.buf with out := { failed := f.close } }
    disk := modifyFile w.buf.file (settle 0 (rs.map (runWrite w))) w.grow.disk
    log := (w.opened rs).log ++ [(.flush, true), (.close, !f.close)] }

theorem wp_outClose {Q : Unit → World Path → Prop} {E : Failure Path → World Path → Prop}
    (hopen : t.buf.out.openOn.isSome) :
    wp (outClose f) Q E t ↔ Q () { t with
      buf := { t.buf with out := { failed := f.close || t.buf.out.failed } }
      disk := modifyFile t.buf.out.openOn
        (deliver 0 f.close f.closeLands t.buf.out.pending) t.disk
      log := t.log ++ [(.close, !f.close)] } := by
  have hnone : t.buf.out.openOn.isNone = false := by
    rw [← Option.not_isSome, hopen, Bool.not_true]
  simp only [outClose, wp_bind, wp_buffer, hnone, Bool.false_eq_true, if_false]
  cases hclose : f.close <;> rfl

theorem Halted.of_flush (hw : Steady w) (hruns : RunsUpTo w w.buf.pages.length rs)
    (hclosed : w.buf.out.openOn = none) (hwrite : ∀ r ∈ rs, f.write (r.1 * pageSize) = false)
    (hbad : f.flush = true) {n : Nat} {fails : Bool} :
    Halted w f { w.grow with
      buf := { w.grow.buf with out := { failed := true } }
      disk := modifyFile w.buf.file (deliver 0 fails n
        (drain 0 f.flushLands (rs.map (runWrite w)) []).2 ∘
          fun c => (drain 0 f.flushLands (rs.map (runWrite w)) c).1) w.grow.disk
      log := w.grow.log ++ ((.openOut, true) :: rs.map (writeLog w) ++
        [(.flush, false), (.close, !fails)]) } := by
  have hin := hruns.writes_inside hw.counted (Nat.le_refl _)
    (Nat.le_max_right w.buf.fileBytes w.buf.bytes)
  apply Halted.of_grow ⟨(.flush, false), by simp, rfl⟩
  · intro hclear
    rw [hclear.flush] at hbad
    cases hbad
  · intro c hc
    have hlen := length_drain (z := (0 : UInt8)) (n := f.flushLands) c (by rwa [hc])
    refine ⟨?_, fun i hi => ?_⟩
    · rw [Function.comp_apply, length_deliver _ _ (inside_drain_rest (by rwa [hlen, hc])), hlen]
    · have hout := hruns.clean_untouched hw.counted hi
      rw [Function.comp_apply, getD_deliver _ _ (untouched_drain_rest hout), getD_drain _ hout]
  · exact fun _ => rfl
  · exact fun _ => rfl
  · exact Or.inl rfl
  · exact ⟨nofun, fun h => absurd h (not_stuck hruns hclosed hwrite)⟩

theorem wp_closeFile (hw : Steady w) {path : Path} (hfile : w.buf.file = some path)
    (hruns : RunsUpTo w w.buf.pages.length rs) (hclosed : w.buf.out.openOn = none)
    (hwrite : ∀ r ∈ rs, f.write (r.1 * pageSize) = false) :
    wp (closeFile f) (fun _ u => f.flush = false ∧ u = w.closed f rs)
      (fun e u => e = .throws (.ioError .fileCantWrite w.buf.file) ∧ Halted w f u)
      (w.opened rs) := by
  have hopen : (w.opened rs).buf.out.openOn = w.buf.file := rfl
  have hgood : (w.opened rs).buf.out.failed = false := rfl
  have hpend : (w.opened rs).buf.out.pending = rs.map (runWrite w) := rfl
  have hsome : w.buf.file.isSome = true := by rw [hfile]; rfl
  have hlog : ∀ e e', (w.opened rs).log ++ [e] ++ [e'] =
      w.grow.log ++ ((.openOut, true) :: rs.map (writeLog w) ++ [e, e']) := by
    intro e e'
    simp [World.opened]
  simp only [closeFile, outFlush, wp_bind, wp_buffer, hopen, hgood, hpend, hsome,
    Bool.false_eq_true, if_true, if_false]
  rw [wp_ite]
  constructor
  · intro hbad
    simp only [wp_bind, wp_modify, wp_record]
    rw [wp_outClose hsome]
    simp only [if_true, wp_throwIOError, modifyFile_comp, hlog]
    refine ⟨rfl, ?_⟩
    simp only [Bool.or_true]
    exact Halted.of_flush hw hruns hclosed hwrite hbad
  · intro hflush
    simp only [wp_bind, wp_modify, wp_record]
    rw [wp_outClose hsome]
    simp only [Bool.or_false, Bool.false_eq_true, if_false, wp_pure]
    refine ⟨by simpa using hflush, ?_⟩
    have hrest : deliver (0 : UInt8) f.close f.closeLands [] = id := by
      funext c
      exact deliver_nil _ _ c
    rw [hrest, modifyFile_id, List.append_assoc]
    rfl

def World.persisted (w : World Path) (f : Faults) (rs : List (Nat × Nat)) : World Path :=
  { w.closed f rs with
    buf := { (w.closed f rs).buf with pages := w.buf.pages.map markClean, dirtyPages := 0 } }

omit [DecidableEq Path] in
/-- What `persist` finds when it has something to do. -/
theorem busy_cases {b : BackedBuffer Path}
    (h : ¬(b.readOnly = true ∨ b.file = none ∨ b.dirtyPages = 0)) :
    b.readOnly = false ∧ (∃ path, b.file = some path) ∧ b.dirtyPages ≠ 0 := by
  simp only [not_or, Bool.not_eq_true] at h
  exact ⟨h.1, Option.ne_none_iff_exists'.1 h.2.1, h.2.2⟩

theorem wp_persist_idle {Q : Unit → World Path → Prop} {E : Failure Path → World Path → Prop}
    (h : w.buf.readOnly = true ∨ w.buf.file = none ∨ w.buf.dirtyPages = 0) :
    wp (persist f) Q E w ↔ Q () w := by
  have hidle : w.buf.readOnly = true ∨ w.buf.file.isNone = true ∨ w.buf.dirtyPages = 0 := by
    simpa using h
  simp only [persist, wp_bind, wp_buffer, if_pos hidle, wp_pure]

theorem Underway.pages (ht : Underway w f rs t) : t.buf.pages = w.buf.pages := by
  rcases ht with ⟨_, rfl⟩ | ⟨_, _, rfl⟩ <;> rfl

theorem Underway.isPage (ht : Underway w f rs t) (s : Page) (p : Nat) :
    isPage s p t = isPage s p w := by
  unfold BackedBuffer.isPage
  rw [ht.pages]

theorem wp_writeRuns (hw : Steady w) {path : Path} (hfile : w.buf.file = some path)
    (hgrow : w.buf.fileBytes < w.buf.bytes → f.grow = false) :
    wp (forRuns (isPage .dirty) (writeRun f) w.buf.pages.length w.buf.pages.length 0)
      (fun _ t => ∃ rs, RunsUpTo w w.buf.pages.length rs ∧
        (∀ r ∈ rs, f.write (r.1 * pageSize) = false) ∧ Underway w f rs t)
      (fun e u => e = .throws (.ioError .fileCantWrite w.buf.file) ∧ Halted w f u) w.grow := by
  refine (wp_forRuns (E := fun e u => e = .throws (.ioError .fileCantWrite w.buf.file) ∧
    Halted w f u) (fun p t => ∃ rs, RunsUpTo w p rs ∧
      (∀ r ∈ rs, f.write (r.1 * pageSize) = false) ∧ (w.page p = .dirty → RunStart w p) ∧
      Underway w f rs t) ?_ ?_ ?_ _ 0 w.grow (Nat.zero_le _) (Nat.le_refl _) ?_).mono
    (fun _ t ⟨rs, hruns, hwrite, _, ht⟩ => ⟨rs, hruns, hwrite, ht⟩) (fun _ _ h => h)
  · rintro p t ⟨rs, hruns, hwrite, hstart, ht⟩ _ hclean
    rw [ht.isPage] at hclean
    have hpage := (isPage_eq_false hclean).2
    exact ⟨rs, hruns.skip hpage, hwrite, fun hd => ⟨hd, Or.inr hpage⟩, ht⟩
  · rintro p q t ⟨rs, hruns, hwrite, hstart, ht⟩ hpq hq hrun hend
    simp only [ht.isPage] at hrun hend
    have hdirty : ∀ k, p ≤ k → k < q → w.page k = .dirty := fun k hk hk' =>
      (isPage_eq_true (hrun k hk hk')).2
    have hp := hstart (hdirty p (Nat.le_refl p) hpq)
    have hnext := hruns.snoc hpq hp hdirty
    apply (wp_writeRun hw hfile hgrow hpq hq hp hnext ht).mono (fun _ u hu => ?_) (fun _ _ h => h)
    refine ⟨_, hnext, fun r hr => ?_, fun hd => ?_, Or.inr hu.2⟩
    · rcases List.mem_append.1 hr with hr | hr
      · exact hwrite r hr
      · rw [List.mem_singleton.1 hr]
        exact hu.1
    · have hlt := World.page_lt (w := w) (p := q) (by rw [hd]; decide)
      exact absurd hd (isPage_eq_false (hend hlt)).2
  · rintro p k t e ⟨rs, _, _, _, ht⟩ _ hk herr
    rw [ht.isPage] at herr
    have hge := (isPage_eq_error.1 herr).1
    omega
  · exact ⟨[], RunsUpTo.nil w, by simp, fun hd => ⟨hd, Or.inl rfl⟩, Or.inl ⟨rfl, rfl⟩⟩

theorem wp_persist (hw : Steady w) (hwritable : w.buf.readOnly = false) {path : Path}
    (hfile : w.buf.file = some path) (hdirty : w.buf.dirtyPages ≠ 0) :
    wp (persist f)
      (fun _ w' => ClearToClose w f ∧ ∃ rs, RunsUpTo w w.buf.pages.length rs ∧
        w' = w.persisted f rs)
      (fun e w' => e = .throws (.ioError .fileCantWrite w.buf.file) ∧ Halted w f w') w := by
  have hbusy : ¬(w.buf.readOnly = true ∨ w.buf.file.isNone = true ∨ w.buf.dirtyPages = 0) := by
    simp [hwritable, hfile, hdirty]
  simp only [persist, wp_bind, wp_buffer, if_neg hbusy]
  apply (wp_growFile hw hfile).mono (fun _ t ht => ?_) (fun _ _ h => h)
  obtain ⟨hgrow, rfl⟩ := ht
  apply (wp_writeRuns hw hfile hgrow).mono (fun _ u hu => ?_) (fun _ _ h => h)
  obtain ⟨rs, hruns, hwrite, hu⟩ := hu
  obtain ⟨p, hp, hd⟩ := exists_dirty hw.counted hdirty
  rcases hu with ⟨rfl, _⟩ | ⟨hclosed, hopen, rfl⟩
  · obtain ⟨r, hr, _⟩ := hruns.exists_run hp hd
    cases hr
  · apply (wp_closeFile hw hfile hruns hclosed hwrite).mono (fun _ v hv => ?_) (fun _ _ h => h)
    rw [wp_edit]
    obtain ⟨hflush, rfl⟩ := hv
    refine ⟨⟨hgrow, hclosed, hopen, fun k hk => ?_, hflush⟩, rs, hruns, rfl⟩
    obtain ⟨r, hr, rfl⟩ := hruns.mem_of_start (World.page_lt (by rw [hk.1]; decide)) hk
    exact hwrite r hr

end Steps

end Utlib.BackedBuffer
